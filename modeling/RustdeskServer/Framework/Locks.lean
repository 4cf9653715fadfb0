import RustdeskServer.Framework.Runs
import Mathlib.Algebra.BigOperators.Group.Finset.Piecewise
import Mathlib.Data.Finset.Max
import Mathlib.Data.Fintype.Basic
import Mathlib.Order.Lattice

/-!
# Threads with locks

A thread is a program: it takes and gives back locks, shared or exclusively, and in
between it looks at the data that all threads share, changes it, and goes on as it has
seen. `step s i` lets thread `i` do one thing; what cannot be done yet changes nothing.

There are two rules. `Ordered.no_deadlock` is the rule of lock orders: if every thread
takes its locks in the order of their ranks, some thread can always go on, whatever the
locks do about those who wait, as long as a lock that nobody has lets somebody in. The
rule of guarded data, `Guarded.always`, is about data that is changed under one lock only:
what holds of it whenever the lock is given back holds whenever nobody has the lock
exclusively, and a thread that has the lock finds the data as it left it.
-/

namespace RustdeskServer.Framework

inductive Mode where
  | shared
  | exclusive
deriving DecidableEq, Repr

/-- What a thread is to do. `act` changes the data, and goes on depending on what the data
was before. -/
inductive Prog (L D : Type*) where
  | done
  | acquire (l : L) (m : Mode) (next : Prog L D)
  | release (l : L) (next : Prog L D)
  | act (change : D → D) (next : D → Prog L D)

structure Threads (I L D : Type*) where
  data : D
  prog : I → Prog L D
  held : I → L → Option Mode

/-- Beside what somebody else has of a lock. -/
def Mode.Beside (m : Mode) : Option Mode → Prop
  | none => True
  | some .shared => m = .shared
  | some .exclusive => False

instance (m : Mode) : (other : Option Mode) → Decidable (m.Beside other)
  | none => .isTrue trivial
  | some .shared => decEq m .shared
  | some .exclusive => .isFalse id

namespace Threads

variable {I L D : Type*} [DecidableEq I] [DecidableEq L]

/-- The lock can be had in this mode. -/
def Free (s : Threads I L D) (l : L) (m : Mode) : Prop := ∀ i, m.Beside (s.held i l)

instance [Fintype I] (s : Threads I L D) (l : L) (m : Mode) : Decidable (s.Free l m) :=
  inferInstanceAs (Decidable (∀ i, m.Beside (s.held i l)))

/-- What thread `i` has of a lock is this now, and it goes on with `next`. -/
def turn (s : Threads I L D) (i : I) (l : L) (has : Option Mode) (next : Prog L D) :
    Threads I L D :=
  { s with
    prog := Function.update s.prog i next
    held := Function.update s.held i (Function.update (s.held i) l has) }

def step [Fintype I] (s : Threads I L D) (i : I) : Threads I L D :=
  match s.prog i with
  | .done => s
  | .acquire l m next => if s.Free l m then s.turn i l (some m) next else s
  | .release l next => s.turn i l none next
  | .act change next =>
      { s with data := change s.data, prog := Function.update s.prog i (next s.data) }

def start (data : D) (prog : I → Prog L D) : Threads I L D := ⟨data, prog, fun _ _ => none⟩

/-- Nobody has the lock for itself. -/
def Open (s : Threads I L D) (l : L) : Prop := ∀ i, s.held i l ≠ some .exclusive

/-- Whoever has a lock exclusively is the only one that has it. -/
def Apart (s : Threads I L D) : Prop :=
  ∀ i j l, i ≠ j → s.held i l = some .exclusive → s.held j l = none

variable {s : Threads I L D} {i j : I} {l l' : L} {has : Option Mode} {next : Prog L D}

@[simp] theorem prog_turn_self : (s.turn i l has next).prog i = next := by simp [turn]

@[simp] theorem prog_turn_ne (h : j ≠ i) : (s.turn i l has next).prog j = s.prog j := by
  simp [turn, h]

@[simp] theorem held_turn_self : (s.turn i l has next).held i l = has := by simp [turn]

theorem held_turn_at : (s.turn i l has next).held i = Function.update (s.held i) l has := by
  simp [turn]

@[simp] theorem held_turn_ne (h : j ≠ i) : (s.turn i l has next).held j = s.held j := by
  simp [turn, h]

@[simp] theorem held_turn_other (h : l' ≠ l) :
    (s.turn i l has next).held j l' = s.held j l' := by
  by_cases hj : j = i
  · subst hj
    simp [turn, h]
  · simp [hj]

@[simp] theorem data_turn : (s.turn i l has next).data = s.data := rfl

/-- A turn at another lock. -/
theorem open_turn_other (h : l' ≠ l) : (s.turn i l has next).Open l' ↔ s.Open l' := by
  simp [Open, h]

theorem Apart.step [Fintype I] (h : s.Apart) (i : I) : (s.step i).Apart := by
  unfold Threads.step
  cases hprog : s.prog i with
  | done => exact h
  | act change next => exact h
  | release l next =>
      intro j k l' hne hexcl
      by_cases hl : l' = l
      · subst hl
        by_cases hk : k = i
        · subst hk
          simp
        · by_cases hj : j = i
          · subst hj
            simp at hexcl
          · simpa [hj, hk] using h j k l' hne (by simpa [hj] using hexcl)
      · rw [held_turn_other hl] at hexcl ⊢
        exact h j k l' hne hexcl
  | acquire l m next =>
      dsimp only
      split_ifs with hfree
      · intro j k l' hne hexcl
        by_cases hl : l' = l
        · subst hl
          by_cases hk : k = i
          · subst hk
            -- the one that came in found nobody with the lock for itself
            have hbeside := hfree j
            rw [held_turn_ne hne] at hexcl
            rw [hexcl] at hbeside
            exact hbeside.elim
          · by_cases hj : j = i
            · subst hj
              have hbeside := hfree k
              obtain rfl : m = .exclusive := by simpa using hexcl
              rw [held_turn_ne hk]
              cases hheld : s.held k l' with
              | none => rfl
              | some m =>
                  rw [hheld] at hbeside
                  cases m with
                  | shared => cases hbeside
                  | exclusive => exact hbeside.elim
            · simpa [hj, hk] using h j k l' hne (by simpa [hj] using hexcl)
        · rw [held_turn_other hl] at hexcl ⊢
          exact h j k l' hne hexcl
      · exact h

end Threads

/-! ## Lock orders -/

variable {I L D : Type*}

/-- The program does so many things at most. -/
def Prog.Within : Prog L D → ℕ → Prop
  | .done, _ => True
  | .acquire _ _ next, n => 0 < n ∧ next.Within (n - 1)
  | .release _ next, n => 0 < n ∧ next.Within (n - 1)
  | .act _ next, n => 0 < n ∧ ∀ d, (next d).Within (n - 1)

theorem Prog.Within.mono {p : Prog L D} {n k : ℕ} (h : p.Within n) (hle : n ≤ k) :
    p.Within k := by
  induction p generalizing n k with
  | done => trivial
  | acquire l m next ih => exact ⟨h.1.trans_le hle, ih h.2 (Nat.sub_le_sub_right hle 1)⟩
  | release l next ih => exact ⟨h.1.trans_le hle, ih h.2 (Nat.sub_le_sub_right hle 1)⟩
  | act change next ih =>
      exact ⟨h.1.trans_le hle, fun d => ih d (h.2 d) (Nat.sub_le_sub_right hle 1)⟩

/-- What the program does to the data when nobody comes in between. -/
def Prog.exec : Prog L D → D → D
  | .done, d => d
  | .acquire _ _ next, d => next.exec d
  | .release _ next, d => next.exec d
  | .act change next, d => (next d).exec (change d)

variable [DecidableEq I] [DecidableEq L]

/-- With these locks the program takes further ones in the order of their ranks, and it
has none at its end. -/
def Prog.Ordered (rank : L → ℕ) : Prog L D → (L → Option Mode) → Prop
  | .done, held => ∀ l, held l = none
  | .acquire l m next, held =>
      (∀ l', held l' ≠ none → rank l' < rank l) ∧
        next.Ordered rank (Function.update held l (some m))
  | .release l next, held => next.Ordered rank (Function.update held l none)
  | .act _ next, held => ∀ d, (next d).Ordered rank held

namespace Threads

variable {s : Threads I L D} {rank : L → ℕ}

def Waits (s : Threads I L D) (i : I) (l : L) : Prop := ∃ m next, s.prog i = .acquire l m next

/-- Thread `i` can go on: a lock that it waits for can be had. -/
def Ready (s : Threads I L D) (i : I) : Prop :=
  match s.prog i with
  | .done => False
  | .acquire l m _ => s.Free l m
  | .release _ _ => True
  | .act _ _ => True

instance [Fintype I] (s : Threads I L D) (i : I) : Decidable (s.Ready i) :=
  match h : s.prog i with
  | .done => .isFalse (by simp [Ready, h])
  | .acquire l m _ => decidable_of_iff (s.Free l m) (by simp [Ready, h])
  | .release _ _ => .isTrue (by simp [Ready, h])
  | .act _ _ => .isTrue (by simp [Ready, h])

/-- Whom the locks let in now, whatever they go by: a lock that nobody has lets in somebody
who waits for it. -/
def LetsIn (s : Threads I L D) (grants : I → Prop) : Prop :=
  ∀ l, (∀ j, s.held j l = none) → (∃ i, s.Waits i l) → ∃ i, s.Waits i l ∧ grants i

/-- Every thread takes its locks in order. -/
def Ordered (rank : L → ℕ) (s : Threads I L D) : Prop :=
  ∀ i, (s.prog i).Ordered rank (s.held i)

theorem Ordered.turn (h : s.Ordered rank) {i : I} {l : L} {has : Option Mode} {next : Prog L D}
    (hnext : next.Ordered rank (Function.update (s.held i) l has)) :
    (s.turn i l has next).Ordered rank := by
  intro j
  by_cases hj : j = i
  · subst hj
    rw [prog_turn_self, held_turn_at]
    exact hnext
  · rw [prog_turn_ne hj, held_turn_ne hj]
    exact h j

variable [Fintype I]

theorem Ordered.step (h : s.Ordered rank) (i : I) : (s.step i).Ordered rank := by
  have hi := h i
  unfold Threads.step
  cases hprog : s.prog i with
  | done => exact h
  | acquire l m next =>
      rw [hprog] at hi
      dsimp only
      split_ifs
      · exact h.turn hi.2
      · exact h
  | release l next =>
      rw [hprog] at hi
      exact h.turn hi
  | act change next =>
      rw [hprog] at hi
      intro j
      by_cases hj : j = i
      · subst hj
        simpa using hi s.data
      · simpa [hj] using h j

theorem Ordered.run (h : s.Ordered rank) (is : List I) :
    (is.foldl Threads.step s).Ordered rank :=
  Always.final is (always_of_step (fun _ i h => h.step i) is h)

omit [DecidableEq I] [Fintype I] in
/-- Who has come to its end has no lock. -/
theorem Ordered.open_of_done (h : s.Ordered rank) (hdone : ∀ i, s.prog i = .done) (l : L) :
    s.Open l := by
  intro i
  have hi := h i
  rw [hdone i] at hi
  simp [hi l]

omit [DecidableEq I] in
/-- **The rule of lock orders.** Among the threads that wait, one that waits for a lock of
the highest rank waits for a lock that nobody has. -/
theorem Ordered.no_deadlock (h : s.Ordered rank) {grants : I → Prop} (hgrants : s.LetsIn grants)
    (hsome : ∃ i, s.prog i ≠ .done) : ∃ i, s.Ready i ∧ ∀ l, s.Waits i l → grants i := by
  classical
  by_contra hnone
  push Not at hnone
  have hwaits : ∀ i, s.prog i ≠ .done → ∃ l, s.Waits i l := by
    intro i hi
    have hready := hnone i
    unfold Ready at hready
    cases hprog : s.prog i with
    | done => exact absurd hprog hi
    | acquire l m next => exact ⟨l, m, next, hprog⟩
    | release l next =>
        rw [hprog] at hready
        obtain ⟨l, hwait, -⟩ := hready trivial
        exact ⟨l, hwait⟩
    | act change next =>
        rw [hprog] at hready
        obtain ⟨l, hwait, -⟩ := hready trivial
        exact ⟨l, hwait⟩
  obtain ⟨i₀, hi₀⟩ := hsome
  let height : I → ℕ := fun i =>
    match s.prog i with
    | .acquire l _ _ => rank l
    | _ => 0
  obtain ⟨i, hi, hmax⟩ := (Finset.univ.filter fun i => s.prog i ≠ .done).exists_max_image height
    ⟨i₀, by simpa using hi₀⟩
  have hunfinished : s.prog i ≠ .done := by simpa using hi
  obtain ⟨l, m, next, hprog⟩ := hwaits i hunfinished
  have hnobody : ∀ j, s.held j l = none := by
    intro j
    by_contra hheld
    have hj := h j
    by_cases hdone : s.prog j = .done
    · rw [hdone] at hj
      exact hheld (hj l)
    · obtain ⟨l', m', next', hprog'⟩ := hwaits j hdone
      rw [hprog'] at hj
      have hlt : rank l < rank l' := hj.1 l hheld
      have hle := hmax j (by simpa using hdone)
      simp only [height, hprog, hprog'] at hle
      omega
  obtain ⟨k, ⟨m', next', hprog'⟩, hgranted⟩ := hgrants l hnobody ⟨i, m, next, hprog⟩
  have hready : s.Ready k := by
    unfold Ready
    rw [hprog']
    intro j
    rw [hnobody j]
    trivial
  obtain ⟨_, -, hrefused⟩ := hnone k hready
  exact hrefused hgranted

/-- Who goes on comes nearer to the end, and nobody else moves. -/
theorem within_step {i : I} (hready : s.Ready i) {n : I → ℕ}
    (h : ∀ i, (s.prog i).Within (n i)) :
    0 < n i ∧ ∀ j, ((s.step i).prog j).Within (Function.update n i (n i - 1) j) := by
  have hi := h i
  unfold Ready at hready
  unfold Threads.step
  cases hprog : s.prog i with
  | done => simp [hprog] at hready
  | acquire l m next =>
      rw [hprog] at hi hready
      refine ⟨hi.1, ?_⟩
      intro j
      dsimp only
      rw [if_pos hready]
      by_cases hj : j = i
      · subst hj
        simpa using hi.2
      · simpa [hj] using h j
  | release l next =>
      rw [hprog] at hi
      refine ⟨hi.1, ?_⟩
      intro j
      by_cases hj : j = i
      · subst hj
        simpa using hi.2
      · simpa [hj] using h j
  | act change next =>
      rw [hprog] at hi
      refine ⟨hi.1, ?_⟩
      intro j
      by_cases hj : j = i
      · subst hj
        simpa using hi.2 s.data
      · simpa [hj] using h j

/-- **Every run ends**: the threads together do no more than each may do. -/
theorem length_le_of_within {is : List I} {n : I → ℕ} (h : ∀ i, (s.prog i).Within (n i))
    (hruns : Along Threads.step Ready s is) :
    is.length ≤ ∑ i, n i := by
  induction is generalizing s n with
  | nil => exact Nat.zero_le _
  | cons i is ih =>
      obtain ⟨hpos, hnext⟩ := within_step hruns.1 h
      have hrest := ih hnext hruns.2
      have hsum : ∑ j, Function.update n i (n i - 1) j + 1 = ∑ j, n j := by
        rw [Finset.sum_update_of_mem (Finset.mem_univ i),
          Finset.sum_eq_add_sum_sdiff_singleton_of_mem (Finset.mem_univ i) n]
        omega
      rw [List.length_cons]
      omega

/-- Thread `i` has come to its end, and nobody else has moved. -/
structure Finished (s : Threads I L D) (i : I) (after : Threads I L D) : Prop where
  data : after.data = (s.prog i).exec s.data
  prog : after.prog = Function.update s.prog i .done
  held : ∀ j l, after.held j l = none

theorem finished_of_step {i : I} (next : Prog L D)
    (hprog : (s.step i).prog = Function.update s.prog i next)
    (hdata : next.exec (s.step i).data = (s.prog i).exec s.data)
    (hrest : ∃ n, (s.step i).Finished i ((List.replicate n i).foldl Threads.step (s.step i))) :
    ∃ n, s.Finished i ((List.replicate n i).foldl Threads.step s) := by
  obtain ⟨n, hrest⟩ := hrest
  refine ⟨n + 1, ?_⟩
  rw [List.replicate_succ, List.foldl_cons]
  constructor
  · rw [← hdata]
    simpa [hprog] using hrest.data
  · simpa [hprog] using hrest.prog
  · exact hrest.held

/-- A thread that takes its turns alone comes to its end, when nobody else has a lock. -/
theorem Ordered.alone {i : I} (h : s.Ordered rank)
    (hothers : ∀ j, j ≠ i → ∀ l, s.held j l = none) :
    ∃ n, s.Finished i ((List.replicate n i).foldl Threads.step s) := by
  have hordered := h.step i
  have hi := h i
  induction hprog : s.prog i generalizing s with
  | done =>
      refine ⟨0, ?_, ?_, ?_⟩
      · rw [hprog]
        rfl
      · rw [← hprog, Function.update_eq_self]
        rfl
      · intro j l
        by_cases hj : j = i
        · subst hj
          rw [hprog] at hi
          exact hi l
        · exact hothers j hj l
  | acquire l m next ih =>
      rw [hprog] at hi
      have hfree : s.Free l m := by
        intro j
        by_cases hj : j = i
        · subst hj
          cases hheld : s.held j l with
          | none => trivial
          | some m' => exact absurd (hi.1 l (by simp [hheld])) (lt_irrefl _)
        · rw [hothers j hj l]
          trivial
      have hstep : s.step i = s.turn i l (some m) next := by
        simp [Threads.step, hprog, hfree]
      apply finished_of_step next
      · rw [hstep]
        rfl
      · rw [hstep, hprog]
        rfl
      · apply ih hordered
        · intro j hj l'
          rw [hstep, held_turn_ne hj]
          exact hothers j hj l'
        · exact hordered.step i
        · exact hordered i
        · rw [hstep, prog_turn_self]
  | release l next ih =>
      have hstep : s.step i = s.turn i l none next := by simp [Threads.step, hprog]
      apply finished_of_step next
      · rw [hstep]
        rfl
      · rw [hstep, hprog]
        rfl
      · apply ih hordered
        · intro j hj l'
          rw [hstep, held_turn_ne hj]
          exact hothers j hj l'
        · exact hordered.step i
        · exact hordered i
        · rw [hstep, prog_turn_self]
  | act change next ih =>
      have hstep : s.step i = { s with
          data := change s.data, prog := Function.update s.prog i (next s.data) } := by
        simp [Threads.step, hprog]
      apply finished_of_step (next s.data)
      · rw [hstep]
      · rw [hstep, hprog]
        rfl
      · apply ih s.data hordered
        · rw [hstep]
          exact hothers
        · exact hordered.step i
        · exact hordered i
        · simp [hstep]

end Threads

/-! ## Guarded data -/

/-- Data that changes under one lock: `rests` holds of it whenever nobody has the lock
exclusively, and `always` of everything, whoever has what. -/
structure Guard (L D P : Type*) where
  lock : L
  part : D → P
  rests : P → Prop
  always : D → Prop

/-- What a thread knows of the guarded part: nothing, or what it is now. -/
inductive Grip (P : Type*) where
  | off
  | shared (p : P)
  | exclusive (p : P)

def gripOf {P : Type*} : Option Mode → P → Grip P
  | none, _ => .off
  | some .shared, p => .shared p
  | some .exclusive, p => .exclusive p

variable {P : Type*}

def Grip.Fits : Grip P → P → Prop
  | .off, _ => True
  | .shared p, q => q = p
  | .exclusive p, q => q = p

/-- What the thread knows once the part is another one. -/
def Grip.update : Grip P → P → Grip P
  | .off, _ => .off
  | .shared _, q => .shared q
  | .exclusive _, q => .exclusive q

/-- The program changes the guarded part only with the lock for itself, leaves it at rest
when it gives the lock back, and keeps what is always to hold. -/
def Prog.Guarded (g : Guard L D P) : Prog L D → Grip P → Prop
  | .done, _ => True
  | .acquire l m next, grip =>
      (l = g.lock → ∀ p, g.rests p → next.Guarded g (gripOf (some m) p)) ∧
        (l ≠ g.lock → next.Guarded g grip)
  | .release l next, grip =>
      (l = g.lock → (∀ p, grip = .exclusive p → g.rests p) ∧ next.Guarded g .off) ∧
        (l ≠ g.lock → next.Guarded g grip)
  | .act change next, grip =>
      ∀ d, g.always d → grip.Fits (g.part d) →
        g.always (change d) ∧
          ((∀ p, grip ≠ .exclusive p) → g.part (change d) = g.part d) ∧
          (next d).Guarded g (grip.update (g.part (change d)))

namespace Threads

variable [Fintype I] {s : Threads I L D} {g : Guard L D P}

structure Guarded (g : Guard L D P) (s : Threads I L D) : Prop where
  apart : s.Apart
  always : g.always s.data
  rests : s.Open g.lock → g.rests (g.part s.data)
  progs : ∀ i, (s.prog i).Guarded g (gripOf (s.held i g.lock) (g.part s.data))

theorem fits_gripOf (has : Option Mode) (p : P) : (gripOf has p).Fits p := by
  rcases has with _ | m
  · trivial
  · cases m <;> rfl

theorem update_gripOf (has : Option Mode) (p q : P) : (gripOf has p).update q = gripOf has q := by
  rcases has with _ | m
  · rfl
  · cases m <;> rfl

theorem gripOf_eq_exclusive {has : Option Mode} {p q : P} (h : gripOf has p = .exclusive q) :
    has = some .exclusive ∧ q = p := by
  rcases has with _ | m
  · cases h
  · cases m with
    | shared => cases h
    | exclusive =>
        cases h
        exact ⟨rfl, rfl⟩

omit [Fintype I] in
/-- A turn at another lock. -/
theorem Guarded.turn_other (h : Guarded g s) {i : I} {l : L} {has : Option Mode}
    {next : Prog L D} (hl : l ≠ g.lock) (hapart : (s.turn i l has next).Apart)
    (hnext : next.Guarded g (gripOf (s.held i g.lock) (g.part s.data))) :
    Guarded g (s.turn i l has next) where
  apart := hapart
  always := h.always
  rests hopen := h.rests ((open_turn_other hl.symm).mp hopen)
  progs j := by
    rw [held_turn_other hl.symm, data_turn]
    by_cases hj : j = i
    · subst hj
      rw [prog_turn_self]
      exact hnext
    · rw [prog_turn_ne hj]
      exact h.progs j

omit [Fintype I] in
/-- A turn at the lock itself, after which the part is at rest if the lock is open. -/
theorem Guarded.turn_lock (h : Guarded g s) {i : I} {has : Option Mode} {next : Prog L D}
    (hapart : (s.turn i g.lock has next).Apart)
    (hrests : (s.turn i g.lock has next).Open g.lock → g.rests (g.part s.data))
    (hnext : next.Guarded g (gripOf has (g.part s.data))) :
    Guarded g (s.turn i g.lock has next) where
  apart := hapart
  always := h.always
  rests := hrests
  progs j := by
    rw [data_turn]
    by_cases hj : j = i
    · subst hj
      rw [prog_turn_self, held_turn_self]
      exact hnext
    · rw [prog_turn_ne hj, held_turn_ne hj]
      exact h.progs j

theorem Guarded.step (h : Guarded g s) (i : I) : Guarded g (s.step i) := by
  have hapart : (s.step i).Apart := h.apart.step i
  have hi := h.progs i
  unfold Threads.step at hapart ⊢
  cases hprog : s.prog i with
  | done => exact h
  | acquire l m next =>
      rw [hprog] at hi hapart
      dsimp only at hapart ⊢
      split_ifs at hapart ⊢ with hfree
      · by_cases hl : l = g.lock
        · subst hl
          have hopen : s.Open g.lock := by
            intro j hexcl
            have hbeside := hfree j
            rw [hexcl] at hbeside
            exact hbeside
          apply h.turn_lock hapart
          · exact fun _ => h.rests hopen
          · exact hi.1 rfl _ (h.rests hopen)
        · exact h.turn_other hl hapart (hi.2 hl)
      · exact h
  | release l next =>
      rw [hprog] at hi hapart
      by_cases hl : l = g.lock
      · subst hl
        obtain ⟨hrests, hnext⟩ := hi.1 rfl
        apply h.turn_lock hapart
        · intro hopen
          by_cases hexcl : s.held i g.lock = some .exclusive
          · apply hrests
            rw [hexcl]
            rfl
          · apply h.rests
            intro j
            by_cases hj : j = i
            · subst hj
              exact hexcl
            · simpa [hj] using hopen j
        · exact hnext
      · exact h.turn_other hl hapart (hi.2 hl)
  | act change next =>
      rw [hprog] at hi hapart
      obtain ⟨halways, hsame, hnext⟩ := hi s.data h.always (fits_gripOf _ _)
      rw [update_gripOf] at hnext
      refine ⟨hapart, halways, ?_, ?_⟩
      · intro hopen
        rw [hsame]
        · exact h.rests hopen
        · intro p hgrip
          exact hopen i (gripOf_eq_exclusive hgrip).1
      · intro j
        by_cases hj : j = i
        · subst hj
          simpa using hnext
        · have hothers := h.progs j
          by_cases hexcl : s.held i g.lock = some .exclusive
          · -- nobody else knows what the part is
            have hnone : s.held j g.lock = none := h.apart i j _ (Ne.symm hj) hexcl
            rw [hnone] at hothers
            simpa [hj, hnone, gripOf] using hothers
          · have hpart : g.part (change s.data) = g.part s.data :=
              hsame fun p hgrip => hexcl (gripOf_eq_exclusive hgrip).1
            simpa [hj, hpart] using hothers

/-- **The rule of guarded data**, for every schedule of the threads. -/
theorem Guarded.always_rests (data : D) (prog : I → Prog L D) (halways : g.always data)
    (hrests : g.rests (g.part data)) (hprogs : ∀ i, (prog i).Guarded g .off) (is : List I) :
    Always Threads.step
      (fun s => g.always s.data ∧ (s.Open g.lock → g.rests (g.part s.data)))
      (start data prog) is := by
  have hstart : Guarded g (start data prog) := by
    refine ⟨?_, halways, fun _ => hrests, hprogs⟩
    intro i j l _ hexcl
    cases hexcl
  have hall : Always Threads.step (Guarded g) (start data prog) is :=
    always_of_step (fun s i h => h.step i) is hstart
  exact hall.mono fun s h => ⟨h.always, h.rests⟩

end Threads

end RustdeskServer.Framework
