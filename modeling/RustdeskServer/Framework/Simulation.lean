import RustdeskServer.Framework.Runs

/-!
# One machine runs inside another

`Simulates` relates a machine to a plainer one: whatever the first does, where it
may, the second follows with some of its own actions, none included, and the two
stay related. An invariant of the second then holds at every moment of the first
(`Simulates.always`). Where it is known which actions the second answers an action
with, a whole run is followed by the answers to its actions (`run_of_answers`).
-/

namespace RustdeskServer.Framework

variable {S A T B : Type*}

/-- `R` relates the states of `step` to those of `step'`. An action that `C` allows
is followed by actions that `C'` allows. -/
def Simulates (step : S → A → S) (C : S → A → Prop) (step' : T → B → T)
    (C' : T → B → Prop) (R : S → T → Prop) : Prop :=
  ∀ s a t, R s t → C s a → ∃ bs, Along step' C' t bs ∧ R (step s a) (bs.foldl step' t)

variable {step : S → A → S} {C : S → A → Prop} {step' : T → B → T} {C' : T → B → Prop}
  {R : S → T → Prop}

/-- What the plainer machine keeps is there at every moment of the first one. -/
theorem Simulates.always (h : Simulates step C step' C' R) {P : T → Prop}
    (hP : ∀ t b, P t → C' t b → P (step' t b)) {s : S} {t : T} {as : List A}
    (hR : R s t) (ht : P t) (hruns : Along step C s as) :
    Always step (fun s => ∃ t, R s t ∧ P t) s as := by
  refine always_of_along ?_ ⟨t, hR, ht⟩ hruns
  rintro s a ⟨t, hR, ht⟩ hC
  obtain ⟨bs, halong, hnext⟩ := h s a t hR hC
  exact ⟨bs.foldl step' t, hnext, (always_of_along hP ht halong).final⟩

theorem run_of_answers {answers : A → List B}
    (h : ∀ s a t, R s t → C s a → R (step s a) ((answers a).foldl step' t)) {s : S} {t : T}
    {as : List A} (hR : R s t) (hruns : Along step C s as) :
    R (as.foldl step s) ((as.flatMap answers).foldl step' t) := by
  induction as generalizing s t with
  | nil => exact hR
  | cons a as ih =>
      rw [List.flatMap_cons, List.foldl_append]
      exact ih (h s a t hR hruns.1) hruns.2

end RustdeskServer.Framework
