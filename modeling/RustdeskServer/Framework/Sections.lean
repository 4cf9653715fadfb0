import RustdeskServer.Framework.Locks
import Mathlib.Computability.Language

/-!
# Sections

What a thread does between taking a lock and giving it back is a section. Nobody else sees
what is in the middle of it, so that it may be thought to happen at once, when the lock is
given back.

A `Machine` has no threads: an action is one step. `Prog.Serial` says that each section of
a program is some actions of the machine, and that those of the whole program are a word of
a language. `Serialized.run` is the rule: however the threads take turns, there is one
order of actions that the machine can run, in which those of a thread are what it has done
so far; what no thread has for itself is as the machine has it. Further turns add to the
order at its end only, so that what had returned before stands before what comes later.
-/

namespace RustdeskServer.Framework

/-- Actions on a state without threads, where they may be taken, and what each lock guards
of the data and of the state. -/
structure Machine (L D : Type*) (V : L → Type*) (T E : Type*) where
  part : D → (l : L) → V l
  view : T → (l : L) → V l
  run : T → E → T
  may : T → E → Prop

/-- What a thread has of a lock, what the part was when it took the lock, and what it is. -/
inductive Hold (P : Type*) where
  | off
  | on (m : Mode) (before now : P)

namespace Hold

variable {P : Type*}

def of : Option Mode → P → P → Hold P
  | none, _, _ => .off
  | some m, before, now => .on m before now

/-- The part is this now. -/
def Fits : Hold P → P → Prop
  | .off, _ => True
  | .on _ _ now, p => p = now

/-- The part was this when the lock was taken. -/
def Found : Hold P → P → Prop
  | .off, _ => True
  | .on _ before _, p => p = before

def become : Hold P → P → Hold P
  | .off, _ => .off
  | .on m before _, p => .on m before p

/-- The thread has the lock for itself. -/
def Exclusive (h : Hold P) : Prop := ∃ before now, h = .on .exclusive before now

theorem become_of_fits {h : Hold P} {p : P} (hfits : h.Fits p) : h.become p = h := by
  cases h with
  | off => rfl
  | on m before now =>
      obtain rfl : p = now := hfits
      rfl

theorem fits_become (h : Hold P) (p : P) : (h.become p).Fits p := by
  cases h with
  | off => trivial
  | on m before now => exact rfl

theorem fits_of (has : Option Mode) (before now : P) : (of has before now).Fits now := by
  cases has with
  | none => trivial
  | some m => exact rfl

theorem found_of (has : Option Mode) (before now : P) : (of has before now).Found before := by
  cases has with
  | none => trivial
  | some m => exact rfl

theorem become_of (has : Option Mode) (before now p : P) :
    (of has before now).become p = of has before p := by
  cases has with
  | none => rfl
  | some m => rfl

theorem exclusive_of {has : Option Mode} {before now : P} :
    (of has before now).Exclusive ↔ has = some .exclusive := by
  constructor
  · rintro ⟨b, n, h⟩
    cases has with
    | none => cases h
    | some m =>
        cases h
        rfl
  · rintro rfl
    exact ⟨before, now, rfl⟩

end Hold

variable {I L D T E : Type*} {V : L → Type*}

/-- No lock at all. -/
def unheld : (l : L) → Hold (V l) := fun _ => .off

variable [DecidableEq L]

@[simp] theorem update_unheld (l : L) : Function.update (unheld (V := V)) l .off = unheld :=
  Function.update_eq_self l unheld

/-- What the parts are once a lock is given back. -/
def givenBack (v : (l : L) → V l) (l : L) : Hold (V l) → (l : L) → V l
  | .off => v
  | .on _ _ now => Function.update v l now

theorem givenBack_other (v : (l : L) → V l) {l l' : L} (h : Hold (V l)) (hl : l' ≠ l) :
    givenBack v l h l' = v l' := by
  cases h with
  | off => rfl
  | on m before now => exact Function.update_of_ne hl _ _

/-- The program changes what a lock guards only with the lock for itself, and the sections
are actions of the machine, which together are a word of the language. -/
def Prog.Serial (a : Machine L D V T E) : Prog L D → ((l : L) → Hold (V l)) → Language E → Prop
  | .done, _, K => [] ∈ K
  | .acquire l m next, hold, K => ∀ v, next.Serial a (Function.update hold l (.on m v v)) K
  | .release l next, hold, K =>
      -- whatever else has happened since, the parts it holds are as it has found them
      ∃ es : List E,
        (∀ t, (∀ l', (hold l').Found (a.view t l')) →
          Along a.run a.may t es ∧
            a.view (es.foldl a.run t) = givenBack (a.view t) l (hold l)) ∧
        next.Serial a (Function.update hold l .off) {rest | es ++ rest ∈ K}
  | .act change next, hold, K =>
      ∀ d, (∀ l, (hold l).Fits (a.part d l)) →
        (∀ l, ¬ (hold l).Exclusive → a.part (change d) l = a.part d l) ∧
          (next d).Serial a (fun l => (hold l).become (a.part (change d) l)) K

variable {a : Machine L D V T E} {hold : (l : L) → Hold (V l)} {K K' : Language E}

theorem Prog.Serial.mono {p : Prog L D} (h : p.Serial a hold K) (hK : ∀ es ∈ K, es ∈ K') :
    p.Serial a hold K' := by
  induction p generalizing hold K K' with
  | done => exact hK _ h
  | acquire l m next ih => exact fun v => ih (h v) hK
  | release l next ih =>
      obtain ⟨es, hes, hnext⟩ := h
      exact ⟨es, hes, ih hnext fun rest hrest => hK _ hrest⟩
  | act change next ih =>
      intro d hfits
      obtain ⟨hkept, hnext⟩ := h d hfits
      exact ⟨hkept, ih d hnext hK⟩

/-- What the program has still to do is always something. -/
theorem Prog.Serial.exists_mem {p : Prog L D} (h : p.Serial a hold K) (d : D)
    (hfits : ∀ l, (hold l).Fits (a.part d l)) : ∃ es, es ∈ K := by
  induction p generalizing hold K d with
  | done => exact ⟨[], h⟩
  | acquire l m next ih =>
      apply ih (h (a.part d l)) d
      intro l'
      by_cases hl : l' = l
      · subst hl
        rw [Function.update_self]
        exact rfl
      · rw [Function.update_of_ne hl]
        exact hfits l'
  | release l next ih =>
      obtain ⟨es, -, hnext⟩ := h
      obtain ⟨rest, hrest⟩ : ∃ rest, es ++ rest ∈ K := by
        apply ih hnext d
        intro l'
        by_cases hl : l' = l
        · subst hl
          rw [Function.update_self]
          trivial
        · rw [Function.update_of_ne hl]
          exact hfits l'
      exact ⟨es ++ rest, hrest⟩
  | act change next ih =>
      obtain ⟨-, hnext⟩ := h d hfits
      exact ih d hnext (change d) fun l => Hold.fits_become _ _

/-! ## Rules for the things a program does -/

/-- Something that changes no part. -/
theorem Prog.Serial.keep {change : D → D} {next : D → Prog L D}
    (hkeep : ∀ d, a.part (change d) = a.part d)
    (h : ∀ d, (∀ l, (hold l).Fits (a.part d l)) → (next d).Serial a hold K) :
    (Prog.act change next).Serial a hold K := by
  intro d hfits
  refine ⟨fun l _ => by rw [hkeep], ?_⟩
  have hsame : (fun l => (hold l).become (a.part (change d) l)) = hold := by
    funext l
    rw [hkeep]
    exact Hold.become_of_fits (hfits l)
  rw [hsame]
  exact h d hfits

/-- A change of what an exclusive lock guards. -/
theorem Prog.Serial.write {l : L} {before now : V l} (next : V l) {change : D → D}
    {p : Prog L D}
    (hchange : ∀ d, a.part d l = now → a.part (change d) = Function.update (a.part d) l next)
    (h : p.Serial a (Function.update hold l (.on .exclusive before next)) K) :
    (Prog.act change fun _ => p).Serial a
      (Function.update hold l (.on .exclusive before now)) K := by
  intro d hfits
  have hnow : a.part d l = now := by
    have hl := hfits l
    rw [Function.update_self] at hl
    exact hl
  rw [hchange d hnow]
  constructor
  · intro l' hexclusive
    by_cases hl : l' = l
    · subst hl
      rw [Function.update_self] at hexclusive
      exact absurd ⟨before, now, rfl⟩ hexclusive
    · rw [Function.update_of_ne hl]
  · have hnext : (fun l' => (Function.update hold l (.on .exclusive before now) l').become
        (Function.update (a.part d) l next l')) =
        Function.update hold l (.on .exclusive before next) := by
      funext l'
      by_cases hl : l' = l
      · subst hl
        rw [Function.update_self, Function.update_self, Function.update_self]
        rfl
      · have hl' := hfits l'
        rw [Function.update_of_ne hl] at hl'
        rw [Function.update_of_ne hl, Function.update_of_ne hl, Function.update_of_ne hl]
        exact Hold.become_of_fits hl'
    rw [hnext]
    exact h

/-- The end of a section. -/
theorem Prog.Serial.close {l : L} {m : Mode} {before now : V l} (es : List E) {p : Prog L D}
    (hes : ∀ t, a.view t l = before →
      Along a.run a.may t es ∧ a.view (es.foldl a.run t) = Function.update (a.view t) l now)
    (h : p.Serial a (Function.update hold l .off) {rest | es ++ rest ∈ K}) :
    (Prog.release l p).Serial a (Function.update hold l (.on m before now)) K := by
  refine ⟨es, ?_, ?_⟩
  · intro t hfound
    have hl := hfound l
    rw [Function.update_self] at hl
    rw [Function.update_self]
    exact hes t hl
  · rw [Function.update_idem]
    exact h

/-- The end of a section that has changed nothing. -/
theorem Prog.Serial.closeSame {l : L} {m : Mode} {v : V l} (es : List E) {p : Prog L D}
    (hes : ∀ t, a.view t l = v → Along a.run a.may t es ∧ es.foldl a.run t = t)
    (h : p.Serial a (Function.update hold l .off) {rest | es ++ rest ∈ K}) :
    (Prog.release l p).Serial a (Function.update hold l (.on m v v)) K := by
  refine Prog.Serial.close es ?_ h
  intro t ht
  obtain ⟨hmay, hsame⟩ := hes t ht
  refine ⟨hmay, ?_⟩
  rw [hsame, ← ht]
  exact (Function.update_eq_self _ _).symm

/-! ## Runs -/

variable [DecidableEq I]

/-- What the thread has done. -/
def doneBy (i : I) (order : List (I × E)) : List E :=
  (order.filter fun e => e.1 = i).map Prod.snd

theorem doneBy_append (i : I) (order more : List (I × E)) :
    doneBy i (order ++ more) = doneBy i order ++ doneBy i more := by
  simp [doneBy]

@[simp] theorem doneBy_self (i : I) (es : List E) : doneBy i (es.map (Prod.mk i)) = es := by
  simp [doneBy, List.filter_map, Function.comp_def]

theorem doneBy_other {i j : I} (h : j ≠ i) (es : List E) :
    doneBy j (es.map (Prod.mk i)) = [] := by
  simp [doneBy, List.filter_map, Function.comp_def, h.symm]

/-- The state of the machine after the actions. -/
def Machine.after (a : Machine L D V T E) (t : T) (order : List (I × E)) : T :=
  (order.map Prod.snd).foldl a.run t

omit [DecidableEq L] [DecidableEq I] in
theorem Machine.after_append (t : T) (order : List (I × E)) (i : I) (es : List E) :
    a.after t (order ++ es.map (Prod.mk i)) = es.foldl a.run (a.after t order) := by
  simp [Machine.after, Function.comp_def]

/-- What the thread has of the locks, when the machine is in state `t`. -/
def Threads.holds (a : Machine L D V T E) (t : T) (s : Threads I L D) (i : I) :
    (l : L) → Hold (V l) :=
  fun l => Hold.of (s.held i l) (a.view t l) (a.part s.data l)

/-- The threads have done the actions in this order, and what each still does completes a
word of its language. -/
structure Serialized (a : Machine L D V T E) (t : T) (words : I → Language E)
    (s : Threads I L D) (order : List (I × E)) : Prop where
  apart : s.Apart
  may : Along a.run a.may t (order.map Prod.snd)
  parts : ∀ l, s.Open l → a.part s.data l = a.view (a.after t order) l
  progs : ∀ i, (s.prog i).Serial a (s.holds a (a.after t order) i)
    {rest | doneBy i order ++ rest ∈ words i}

namespace Threads

variable {s : Threads I L D} {i j : I} {l : L} {m : Mode}

omit [DecidableEq L] [DecidableEq I] in
theorem Free.open (h : s.Free l m) : s.Open l := by
  intro j hexclusive
  have hbeside := h j
  rw [hexclusive] at hbeside
  exact hbeside

omit [DecidableEq L] [DecidableEq I] in
/-- A lock that two threads have is shared. -/
theorem Apart.open_of_two (h : s.Apart) (hij : i ≠ j) (hi : s.held i l ≠ none)
    (hj : s.held j l ≠ none) : s.Open l := by
  intro k hexclusive
  by_cases hk : k = i
  · subst hk
    exact hj (h k j l hij hexclusive)
  · exact hi (h k i l hk hexclusive)

end Threads

namespace Serialized

variable {t : T} {words : I → Language E} {s : Threads I L D} {order : List (I × E)}

/-- Thread `i` takes a lock. -/
theorem acquire (h : Serialized a t words s order) {i : I} {l : L} {m : Mode} {next : Prog L D}
    (hprog : s.prog i = .acquire l m next) (hfree : s.Free l m)
    (hapart : (s.turn i l (some m) next).Apart) :
    Serialized a t words (s.turn i l (some m) next) order where
  apart := hapart
  may := h.may
  parts l' hopen := by
    apply h.parts
    by_cases hl : l' = l
    · subst hl
      exact hfree.open
    · exact (Threads.open_turn_other hl).mp hopen
  progs j := by
    by_cases hj : j = i
    · subst hj
      have hnext := h.progs j
      rw [hprog] at hnext
      rw [Threads.prog_turn_self]
      have hholds : (s.turn j l (some m) next).holds a (a.after t order) j =
          Function.update (s.holds a (a.after t order) j) l
            (.on m (a.part s.data l) (a.part s.data l)) := by
        funext l'
        unfold Threads.holds
        rw [Threads.data_turn]
        by_cases hl : l' = l
        · subst hl
          rw [Threads.held_turn_self, Function.update_self, ← h.parts l' hfree.open]
          rfl
        · rw [Threads.held_turn_other hl, Function.update_of_ne hl]
      rw [hholds]
      exact hnext _
    · have hholds : (s.turn i l (some m) next).holds a (a.after t order) j =
          s.holds a (a.after t order) j := by
        unfold Threads.holds
        rw [Threads.held_turn_ne hj, Threads.data_turn]
      rw [Threads.prog_turn_ne hj, hholds]
      exact h.progs j

/-- Thread `i` gives a lock back, and its section happens now. -/
theorem release (h : Serialized a t words s order) {i : I} {l : L} {next : Prog L D}
    (hprog : s.prog i = .release l next) (hapart : (s.turn i l none next).Apart) :
    ∃ es : List E,
      Serialized a t words (s.turn i l none next) (order ++ es.map (Prod.mk i)) := by
  have hi := h.progs i
  rw [hprog] at hi
  obtain ⟨es, hes, hnext⟩ := hi
  obtain ⟨hmay, hview⟩ := hes (a.after t order) fun l' => Hold.found_of _ _ _
  rw [← a.after_append t order i es] at hview
  have hother : ∀ l', l' ≠ l →
      a.view (a.after t (order ++ es.map (Prod.mk i))) l' = a.view (a.after t order) l' := by
    intro l' hl
    rw [hview]
    exact givenBack_other _ _ hl
  have hself : s.held i l ≠ none →
      a.view (a.after t (order ++ es.map (Prod.mk i))) l = a.part s.data l := by
    intro hhas
    obtain ⟨m, hm⟩ := Option.ne_none_iff_exists'.mp hhas
    rw [hview, Threads.holds, hm]
    exact Function.update_self l _ _
  have hnone : s.held i l = none →
      a.view (a.after t (order ++ es.map (Prod.mk i))) l = a.view (a.after t order) l := by
    intro hhas
    rw [hview, Threads.holds, hhas]
    rfl
  -- the section has changed its own part at most, and the others do not see its lock
  refine ⟨es, hapart, ?_, ?_, ?_⟩
  · have hnew : (es.map (Prod.mk i)).map Prod.snd = es := by simp [Function.comp_def]
    rw [List.map_append, along_append, hnew]
    exact ⟨h.may, hmay⟩
  · intro l' hopen
    rw [Threads.data_turn]
    by_cases hl : l' = l
    · subst hl
      by_cases hhas : s.held i l' = none
      · rw [hnone hhas]
        apply h.parts
        intro j
        by_cases hj : j = i
        · subst hj
          simp [hhas]
        · simpa [hj] using hopen j
      · exact (hself hhas).symm
    · rw [hother l' hl]
      exact h.parts l' ((Threads.open_turn_other hl).mp hopen)
  · intro j
    rw [doneBy_append]
    by_cases hj : j = i
    · subst hj
      have hholds : (s.turn j l none next).holds a
          (a.after t (order ++ es.map (Prod.mk j))) j =
          Function.update (s.holds a (a.after t order) j) l .off := by
        funext l'
        unfold Threads.holds
        rw [Threads.data_turn]
        by_cases hl : l' = l
        · subst hl
          rw [Threads.held_turn_self, Function.update_self]
          rfl
        · rw [Threads.held_turn_other hl, Function.update_of_ne hl, hother l' hl]
      rw [Threads.prog_turn_self, doneBy_self, hholds]
      refine hnext.mono ?_
      intro rest hrest
      show doneBy j order ++ es ++ rest ∈ words j
      rw [List.append_assoc]
      exact hrest
    · have hholds : (s.turn i l none next).holds a
          (a.after t (order ++ es.map (Prod.mk i))) j = s.holds a (a.after t order) j := by
        funext l'
        unfold Threads.holds
        rw [Threads.held_turn_ne hj, Threads.data_turn]
        by_cases hl : l' = l
        · subst hl
          cases hhas : s.held j l' with
          | none => rfl
          | some m =>
              -- a lock that is given back leaves what the others that have it have seen
              by_cases hfrom : s.held i l' = none
              · rw [hnone hfrom]
              · have hopen := h.apart.open_of_two (Ne.symm hj) hfrom (by simp [hhas])
                rw [hself hfrom, h.parts l' hopen]
        · rw [hother l' hl]
      rw [Threads.prog_turn_ne hj, doneBy_other hj, List.append_nil, hholds]
      exact h.progs j

/-- Thread `i` changes what it has for itself. -/
theorem act (h : Serialized a t words s order) {i : I} {change : D → D} {next : D → Prog L D}
    (hprog : s.prog i = .act change next) :
    Serialized a t words { s with
      data := change s.data, prog := Function.update s.prog i (next s.data) } order := by
  have hi := h.progs i
  rw [hprog] at hi
  obtain ⟨hkept, hnext⟩ := hi s.data fun l => Hold.fits_of _ _ _
  have hsame : ∀ l, s.held i l ≠ some .exclusive →
      a.part (change s.data) l = a.part s.data l := by
    intro l hhas
    exact hkept l fun hexclusive => hhas (Hold.exclusive_of.mp hexclusive)
  -- the machine does nothing yet: the change is inside a section
  refine ⟨h.apart, h.may, ?_, ?_⟩
  · intro l hopen
    rw [hsame l (hopen i)]
    exact h.parts l hopen
  · intro j
    dsimp only
    by_cases hj : j = i
    · subst hj
      rw [Function.update_self]
      have hbecome : (fun l => (s.holds a (a.after t order) j l).become
          (a.part (change s.data) l)) =
          fun l => Hold.of (s.held j l) (a.view (a.after t order) l)
            (a.part (change s.data) l) := by
        funext l
        exact Hold.become_of _ _ _ _
      rw [hbecome] at hnext
      exact hnext
    · rw [Function.update_of_ne hj]
      have hholds : s.holds a (a.after t order) j =
          fun l => Hold.of (s.held j l) (a.view (a.after t order) l)
            (a.part (change s.data) l) := by
        funext l
        unfold Threads.holds
        by_cases hexclusive : s.held i l = some .exclusive
        · -- nobody else has this lock
          rw [h.apart i j l (Ne.symm hj) hexclusive]
          rfl
        · rw [hsame l hexclusive]
      have hprogs := h.progs j
      rw [hholds] at hprogs
      exact hprogs

theorem step [Fintype I] (h : Serialized a t words s order) (i : I) :
    ∃ es : List E, Serialized a t words (s.step i) (order ++ es.map (Prod.mk i)) := by
  have hapart : (s.step i).Apart := h.apart.step i
  unfold Threads.step at hapart ⊢
  cases hprog : s.prog i with
  | done => exact ⟨[], by simpa using h⟩
  | acquire l m next =>
      rw [hprog] at hapart
      dsimp only at hapart ⊢
      split_ifs at hapart ⊢ with hfree
      · exact ⟨[], by simpa using h.acquire hprog hfree hapart⟩
      · exact ⟨[], by simpa using h⟩
  | release l next =>
      rw [hprog] at hapart
      exact h.release hprog hapart
  | act change next => exact ⟨[], by simpa using h.act hprog⟩

/-- **The rule of sections**, for every schedule: the order only grows. -/
theorem run [Fintype I] (h : Serialized a t words s order) (is : List I) :
    ∃ more : List (I × E), Serialized a t words (is.foldl Threads.step s) (order ++ more) := by
  induction is generalizing s order with
  | nil => exact ⟨[], by simpa using h⟩
  | cons i is ih =>
      obtain ⟨es, hstep⟩ := h.step i
      obtain ⟨more, hrun⟩ := ih hstep
      exact ⟨es.map (Prod.mk i) ++ more, by simpa using hrun⟩

theorem start (data : D) {prog : I → Prog L D} (hdata : a.part data = a.view t)
    (hprog : ∀ i, (prog i).Serial a unheld (words i)) :
    Serialized a t words (Threads.start data prog) [] where
  apart := by
    intro i j l _ hexclusive
    cases hexclusive
  may := trivial
  parts l _ := congrFun hdata l
  progs i := hprog i

/-- What a thread has done is the beginning of a word, and a whole word when it has come to
its end. -/
theorem completes (h : Serialized a t words s order) (i : I) :
    (∃ rest, doneBy i order ++ rest ∈ words i) ∧ (s.prog i = .done → doneBy i order ∈ words i) := by
  have hi := h.progs i
  constructor
  · exact hi.exists_mem s.data fun l => Hold.fits_of _ _ _
  · intro hdone
    rw [hdone] at hi
    have hword : doneBy i order ++ [] ∈ words i := hi
    rwa [List.append_nil] at hword

end Serialized

omit [DecidableEq L] in
/-- What only one thread's actions change is as these actions alone leave it. -/
theorem after_of_others {F : Type*} {f : T → F} {r : F → E → F} {i : I} {order : List (I × E)}
    (hothers : ∀ e ∈ order, e.1 ≠ i → ∀ t, f (a.run t e.2) = f t)
    (hown : ∀ e ∈ order, e.1 = i → ∀ t, f (a.run t e.2) = r (f t) e.2) (t : T) :
    f (a.after t order) = (doneBy i order).foldl r (f t) := by
  induction order generalizing t with
  | nil => rfl
  | cons e order ih =>
      rw [List.forall_mem_cons] at hothers hown
      have hrest : f (a.after t (e :: order)) = (doneBy i order).foldl r (f (a.run t e.2)) :=
        ih hothers.2 hown.2 (a.run t e.2)
      rw [hrest]
      by_cases he : e.1 = i
      · rw [hown.1 he]
        simp [doneBy, he]
      · rw [hothers.1 he]
        simp [doneBy, he]

end RustdeskServer.Framework
