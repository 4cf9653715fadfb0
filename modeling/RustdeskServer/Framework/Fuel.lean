import Mathlib.Data.List.Basic

/-!
# Recursions with fuel

A recursion that may go arbitrarily deep is a function of its fuel, which gives nothing
when the fuel runs out. `Extends a b` says that `b` has the result of `a`, if there is
one. Maps, binds and loops keep it, so that it is enough to look at one more level:
`Extends.of_le` says that more fuel then changes no result.
-/

namespace RustdeskServer.Framework

variable {α β : Type*}

def Extends (a b : Option α) : Prop := ∀ x, a = some x → b = some x

namespace Extends

variable {a b c : Option α}

theorem refl (a : Option α) : Extends a a := by
  intro x hx
  exact hx

theorem trans (h : Extends a b) (h' : Extends b c) : Extends a c := by
  intro x hx
  apply h'
  exact h x hx

theorem of_none (b : Option α) : Extends none b := by
  intro x hx
  cases hx

theorem bind {f g : α → Option β} (h : Extends a b) (hfg : ∀ x, Extends (f x) (g x)) :
    Extends (a.bind f) (b.bind g) := by
  intro y hy
  obtain ⟨x, hx, hfx⟩ := Option.bind_eq_some_iff.mp hy
  rw [h x hx]
  exact hfg x y hfx

theorem map (f : α → β) (h : Extends a b) : Extends (a.map f) (b.map f) := by
  intro y hy
  obtain ⟨x, hx, rfl⟩ := Option.map_eq_some_iff.mp hy
  rw [h x hx, Option.map_some]

theorem mapM {f g : α → Option β} (hfg : ∀ x, Extends (f x) (g x)) (xs : List α) :
    Extends (xs.mapM f) (xs.mapM g) := by
  induction xs with
  | nil => exact refl _
  | cons x xs ih =>
      rw [List.mapM_cons, List.mapM_cons]
      apply (hfg x).bind
      intro y
      apply ih.bind
      intro ys
      exact refl _

theorem foldlM {f g : β → α → Option β} (hfg : ∀ y x, Extends (f y x) (g y x)) (xs : List α)
    (y : β) : Extends (xs.foldlM f y) (xs.foldlM g y) := by
  induction xs generalizing y with
  | nil => exact refl _
  | cons x xs ih =>
      rw [List.foldlM_cons, List.foldlM_cons]
      apply (hfg y x).bind
      intro y'
      exact ih y'

/-- **More fuel changes no result** if one more level does not. -/
theorem of_le {f : ℕ → Option α} (hstep : ∀ n, Extends (f n) (f (n + 1))) {n m : ℕ}
    (hle : n ≤ m) : Extends (f n) (f m) := by
  induction hle with
  | refl => exact refl _
  | step _ ih => exact ih.trans (hstep _)

end Extends

end RustdeskServer.Framework
