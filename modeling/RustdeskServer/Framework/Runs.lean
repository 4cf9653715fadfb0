import Mathlib.Data.List.Basic

/-!
# Runs of a deterministic machine

A machine is a step function `step : S → A → S`; a run is a list of actions
folded over a start state. Two predicates speak about every point of a run:
`Always P` (every state passed through, the first and the last included) and
`Along C` (every action together with the state it is taken in).

The two rules that carry the safety results are `always_of_step` (an invariant
holds in every state of every run) and `always_iff_along` (a property that one
step keeps *exactly when* a condition on that step holds is kept by a run
exactly when the condition holds along the run). The second rule is what turns
a one-step diagnosis into a characterisation of all good runs.

`Since` is about a history, the list of what was done: something was done and has
not been undone.
-/

namespace RustdeskServer.Framework

variable {S A : Type*} (step : S → A → S)

/-- `P` holds in every state of the run, from the start state to the last. -/
def Always (P : S → Prop) : S → List A → Prop
  | s, [] => P s
  | s, a :: as => P s ∧ Always P (step s a) as

/-- `C` holds of every action and the state the action is taken in. -/
def Along (C : S → A → Prop) : S → List A → Prop
  | _, [] => True
  | s, a :: as => C s a ∧ Along C (step s a) as

variable {step}

instance Along.instDecidable {C : S → A → Prop} [∀ s a, Decidable (C s a)] :
    (s : S) → (as : List A) → Decidable (Along step C s as)
  | _, [] => .isTrue trivial
  | s, a :: as => @instDecidableAnd _ _ _ (Along.instDecidable (step s a) as)

theorem Always.head {P : S → Prop} {s : S} {as : List A}
    (h : Always step P s as) : P s := by
  cases as with
  | nil => exact h
  | cons a as => exact h.1

theorem Always.final {P : S → Prop} {s : S} (as : List A)
    (h : Always step P s as) : P (as.foldl step s) := by
  induction as generalizing s with
  | nil => exact h
  | cons a as ih => exact ih h.2

theorem Always.mono {P Q : S → Prop} (hPQ : ∀ s, P s → Q s) {s : S} {as : List A}
    (h : Always step P s as) : Always step Q s as := by
  induction as generalizing s with
  | nil => exact hPQ s h
  | cons a as ih => exact ⟨hPQ s h.1, ih h.2⟩

/-- The invariant rule for steps that keep `P` only under a condition. -/
theorem always_of_along {P : S → Prop} {C : S → A → Prop}
    (hstep : ∀ s a, P s → C s a → P (step s a)) {s : S} {as : List A} (hs : P s)
    (hc : Along step C s as) : Always step P s as := by
  induction as generalizing s with
  | nil => exact hs
  | cons a as ih => exact ⟨hs, ih (hstep s a hs hc.1) hc.2⟩

/-- A condition on the actions alone. -/
theorem along_iff_forall {C : A → Prop} {s : S} {as : List A} :
    Along step (fun _ a => C a) s as ↔ ∀ a ∈ as, C a := by
  induction as generalizing s with
  | nil => exact iff_of_true trivial (List.forall_mem_nil C)
  | cons a as ih => rw [Along, ih, List.forall_mem_cons]

theorem along_of_forall {C : A → Prop} {s : S} {as : List A} (h : ∀ a ∈ as, C a) :
    Along step (fun _ a => C a) s as := along_iff_forall.mpr h

theorem along_append {C : S → A → Prop} {s : S} (as bs : List A) :
    Along step C s (as ++ bs) ↔ Along step C s as ∧ Along step C (as.foldl step s) bs := by
  induction as generalizing s with
  | nil => exact (and_iff_right trivial).symm
  | cons a as ih =>
      rw [List.cons_append, Along, ih, Along, List.foldl_cons, and_assoc]

theorem along_true {s : S} (as : List A) : Along step (fun _ _ => True) s as :=
  along_of_forall fun _ _ => trivial

/-- **The invariant rule.** What the start state has and every step keeps
holds in every state of every run. -/
theorem always_of_step {P : S → Prop} (hstep : ∀ s a, P s → P (step s a)) {s : S}
    (as : List A) (hs : P s) : Always step P s as :=
  always_of_along (fun s a hs _ => hstep s a hs) hs (along_true as)

/-- A fact about single steps, read off an invariant along a run. -/
theorem along_of_always {P : S → Prop} {C : S → A → Prop} (h : ∀ s a, P s → C s a)
    {s : S} {as : List A} (hP : Always step P s as) : Along step C s as := by
  induction as generalizing s with
  | nil => trivial
  | cons a as ih => exact ⟨h s a hP.1, ih hP.2⟩

/-- The same where the invariant and the fact hold under a condition. -/
theorem along_of_along {P : S → Prop} {C C' : S → A → Prop}
    (hstep : ∀ s a, P s → C s a → P (step s a)) (h : ∀ s a, P s → C s a → C' s a)
    {s : S} {as : List A} (hs : P s) (hc : Along step C s as) : Along step C' s as := by
  induction as generalizing s with
  | nil => trivial
  | cons a as ih => exact ⟨h s a hs hc.1, ih (hstep s a hs hc.1) hc.2⟩

/-- **The exact rule.** Let `D` delimit the runs under study, let a step from a
state with `P` lead to a state with `P` if and only if `C` holds of that step, and
let such a step keep the invariant `B`. Then `P` holds throughout a run if and
only if `C` holds along it: the first action that breaks `C` is the first that
breaks `P`. -/
theorem always_iff_along_of_kept {B P : S → Prop} {C D : S → A → Prop}
    (hB : ∀ s a, B s → D s a → P (step s a) → B (step s a))
    (hstep : ∀ s a, B s → D s a → P s → (P (step s a) ↔ C s a)) :
    ∀ {s : S} {as : List A}, Along step D s as → B s → P s →
      (Always step P s as ↔ Along step C s as) := by
  intro s as
  induction as generalizing s with
  | nil => intro _ _ hs; exact ⟨fun _ => trivial, fun _ => hs⟩
  | cons a as ih =>
      rintro ⟨hd, hds⟩ hb hs
      constructor
      · rintro ⟨-, hrest⟩
        have hc : C s a := (hstep s a hb hd hs).mp hrest.head
        exact ⟨hc, (ih hds (hB s a hb hd hrest.head) hrest.head).mp hrest⟩
      · rintro ⟨hc, hrest⟩
        have hnext : P (step s a) := (hstep s a hb hd hs).mpr hc
        exact ⟨hs, (ih hds (hB s a hb hd hnext) hnext).mpr hrest⟩

/-- The exact rule with an invariant of all runs. -/
theorem always_iff_along {B P : S → Prop} {C D : S → A → Prop}
    (hB : ∀ s a, B s → D s a → B (step s a))
    (hstep : ∀ s a, B s → D s a → P s → (P (step s a) ↔ C s a)) :
    ∀ {s : S} {as : List A}, Along step D s as → B s → P s →
      (Always step P s as ↔ Along step C s as) :=
  always_iff_along_of_kept (fun s a hb hd _ => hB s a hb hd) hstep

/-! ## Histories -/

/-- Something was made, and whatever came after it kept it. -/
def Since (as : List A) (made kept : A → Prop) : Prop :=
  ∃ before a after, as = before ++ a :: after ∧ made a ∧ ∀ b ∈ after, kept b

theorem not_since_nil (made kept : A → Prop) : ¬ Since [] made kept := by
  rintro ⟨before, a, after, heq, -⟩
  simp at heq

theorem since_concat {as : List A} {a : A} {made kept : A → Prop} :
    Since (as ++ [a]) made kept ↔ made a ∨ Since as made kept ∧ kept a := by
  constructor
  · rintro ⟨before, b, after, heq, hmade, hkept⟩
    rcases List.eq_nil_or_concat' after with rfl | ⟨after, last, rfl⟩
    · obtain rfl : a = b := List.singleton_inj.mp (List.append_inj' heq rfl).2
      exact Or.inl hmade
    · rw [← List.cons_append, ← List.append_assoc] at heq
      obtain ⟨has, hlast⟩ := List.append_inj' heq rfl
      obtain rfl : a = last := List.singleton_inj.mp hlast
      right
      constructor
      · exact ⟨before, b, after, has, hmade, fun c hc => hkept c (List.mem_append_left _ hc)⟩
      · apply hkept
        simp
  · rintro (hmade | ⟨⟨before, b, after, rfl, hmade, hkept⟩, hlast⟩)
    · exact ⟨as, a, [], rfl, hmade, List.forall_mem_nil _⟩
    · refine ⟨before, b, after ++ [a], List.append_assoc .., hmade, ?_⟩
      intro c hc
      rcases List.mem_append.mp hc with hc | hc
      · exact hkept c hc
      · rw [List.mem_singleton.mp hc]
        exact hlast

theorem Since.mem {as : List A} {made kept : A → Prop} (h : Since as made kept) :
    ∃ a ∈ as, made a := by
  obtain ⟨before, a, after, rfl, hmade, -⟩ := h
  exact ⟨a, by simp, hmade⟩

end RustdeskServer.Framework
