import Mathlib.Data.Int.Order.Basic

/-!
# Text: joined parts, replaced parts and decimal numbers

`intercalate_concat` and `mem_intercalate` are about parts that are joined with a
separator between them, `replaceAll` puts one text in the place of another, wherever it
occurs.

`IntType.read` reads a signed machine integer the way a standard library does it:
an optional sign, then the digits from the left, each multiplication and addition
checked against the bounds of the type. `numeral` is what the text means, with no
bounds, and `read_eq` says that the two agree up to one check at the end: a number
that has left the bounds on the way never comes back into them.
-/

namespace RustdeskServer.Framework

/-! ## Joined parts -/

theorem intercalate_concat {α : Type*} (sep last : List α) {lists : List (List α)}
    (h : lists ≠ []) :
    sep.intercalate (lists ++ [last]) = sep.intercalate lists ++ sep ++ last := by
  induction lists with
  | nil => exact absurd rfl h
  | cons first rest ih =>
      cases rest with
      | nil =>
          rw [List.singleton_append, List.intercalate_cons_cons, List.intercalate_singleton,
            List.intercalate_singleton]
      | cons second rest =>
          rw [List.cons_append, List.cons_append, List.intercalate_cons_cons,
            List.intercalate_cons_cons, ← List.cons_append, ih (List.cons_ne_nil second rest)]
          simp only [List.append_assoc]

theorem mem_intercalate {α : Type*} {sep : List α} {xs : List (List α)} {c : α}
    (h : c ∈ sep.intercalate xs) : c ∈ sep ∨ ∃ x ∈ xs, c ∈ x := by
  induction xs with
  | nil => simp at h
  | cons x xs ih =>
      by_cases hne : xs = []
      · subst hne
        exact .inr ⟨x, by simp, by simpa using h⟩
      · rw [List.intercalate_cons_of_ne_nil hne, List.mem_append, List.mem_append] at h
        rcases h with (hc | hc) | hc
        · exact .inr ⟨x, by simp, hc⟩
        · exact .inl hc
        · rcases ih hc with hsep | ⟨y, hy, hcy⟩
          · exact .inl hsep
          · exact .inr ⟨y, by simp [hy], hcy⟩

/-! ## Replaced parts -/

/-- Occurrences of `pat` from the left, after so many characters that are passed over. -/
def replaceFrom (pat rep : List Char) : ℕ → List Char → List Char
  | _, [] => []
  | skip + 1, _ :: text => replaceFrom pat rep skip text
  | 0, c :: text =>
      if pat <+: c :: text then rep ++ replaceFrom pat rep (pat.length - 1) text
      else c :: replaceFrom pat rep 0 text

/-- `str::replace` of a text that is not empty. -/
def replaceAll (pat rep text : List Char) : List Char := replaceFrom pat rep 0 text

theorem prefix_before {pat text rest : List Char} {c : Char} (hc : c ∉ pat) :
    pat <+: text ++ c :: rest ↔ pat <+: text := by
  constructor
  · intro h
    by_cases hlength : pat.length ≤ text.length
    · exact List.prefix_of_prefix_length_le h (List.prefix_append _ _) hlength
    · exfalso
      apply hc
      have htext : text ++ [c] <+: pat := by
        apply List.prefix_of_prefix_length_le _ h
        · simp; omega
        · simp
      exact htext.subset (by simp)
  · intro h
    exact h.trans (List.prefix_append _ _)

theorem replaceFrom_before {pat rep rest : List Char} {c : Char} (hpat : pat ≠ []) (hc : c ∉ pat)
    {skip : ℕ} {text : List Char} (hskip : skip ≤ text.length) :
    replaceFrom pat rep skip (text ++ c :: rest) =
      replaceFrom pat rep skip text ++ c :: replaceFrom pat rep 0 rest := by
  induction text generalizing skip with
  | nil =>
      obtain rfl : skip = 0 := Nat.le_zero.mp hskip
      have hno : ¬ pat <+: c :: rest := by
        rw [← List.nil_append (c :: rest), prefix_before hc]
        simpa using hpat
      simp [replaceFrom, hno]
  | cons d text ih =>
      cases skip with
      | succ skip => exact ih (Nat.le_of_succ_le_succ hskip)
      | zero =>
          have hboth : pat <+: d :: (text ++ c :: rest) ↔ pat <+: d :: text :=
            @prefix_before pat (d :: text) rest c hc
          simp only [List.cons_append, replaceFrom]
          by_cases hstart : pat <+: d :: text
          · have hlength : pat.length - 1 ≤ text.length := by
              have := hstart.length_le
              simp at this
              omega
            rw [if_pos hstart, if_pos (hboth.mpr hstart), ih hlength, List.append_assoc]
          · rw [if_neg hstart, if_neg (hboth.not.mpr hstart), ih (Nat.zero_le _),
              List.cons_append]

/-- **A character that the text does not have** cuts the replacement in two. -/
theorem replaceAll_before {pat : List Char} (rep text rest : List Char) {c : Char} (hpat : pat ≠ [])
    (hc : c ∉ pat) :
    replaceAll pat rep (text ++ c :: rest) =
      replaceAll pat rep text ++ c :: replaceAll pat rep rest :=
  replaceFrom_before hpat hc (Nat.zero_le _)

theorem replaceAll_of_not_infix {pat rep text : List Char} (h : ¬ pat <:+: text) :
    replaceAll pat rep text = text := by
  unfold replaceAll
  induction text with
  | nil => rfl
  | cons c text ih =>
      have hhere : ¬ pat <+: c :: text := fun hstart => h hstart.isInfix
      have hlater : ¬ pat <:+: text := by
        intro hpart
        apply h
        exact hpart.trans (List.suffix_cons c text).isInfix
      rw [replaceFrom, if_neg hhere, ih hlater]

/-! ## The meaning of a number -/

/-- The value of a non-empty run of digits. -/
def digitRun (text : List Char) : Option ℕ :=
  if text ≠ [] ∧ text.all Char.isDigit then some (Nat.ofDigitChars 10 text 0) else none

def signed (positive : Bool) (n : ℕ) : ℤ := if positive then n else -n

/-- The integer that the text is, if it is one. -/
def numeral : List Char → Option ℤ
  | '+' :: text => (digitRun text).map (signed true)
  | '-' :: text => (digitRun text).map (signed false)
  | text => (digitRun text).map (signed true)

/-- Digits without a sign are a number. -/
theorem numeral_digits {text : List Char} (hne : text ≠ []) (hdigits : text.all Char.isDigit) :
    numeral text = some (signed true (Nat.ofDigitChars 10 text 0)) := by
  cases text with
  | nil => cases hne rfl
  | cons c text =>
      have hc := List.all_eq_true.mp hdigits c (List.mem_cons_self ..)
      have hplus : c ≠ '+' := by
        rintro rfl
        cases hc
      have hminus : c ≠ '-' := by
        rintro rfl
        cases hc
      have hnumeral : numeral (c :: text) = (digitRun (c :: text)).map (signed true) := by
        simp [numeral, hplus, hminus]
      rw [hnumeral, digitRun, if_pos ⟨hne, hdigits⟩]
      rfl

theorem signed_digit (positive : Bool) (n d : ℕ) :
    signed positive (10 * n + d) = signed positive n * 10 + signed positive d := by
  cases positive with
  | true =>
      simp only [signed, if_true]
      omega
  | false =>
      simp only [signed, Bool.false_eq_true, if_false]
      omega

theorem le_ofDigitChars (text : List Char) (n : ℕ) : n ≤ Nat.ofDigitChars 10 text n := by
  rw [Nat.ofDigitChars_eq_ofDigitChars_zero]
  have hpow : 1 * n ≤ 10 ^ text.length * n :=
    Nat.mul_le_mul_right n (Nat.one_le_pow _ _ (by decide))
  omega

/-! ## Reading a number -/

/-- The bounds of a signed integer type. -/
structure IntType where
  min : ℤ
  max : ℤ
  min_nonpos : min ≤ 0
  max_nonneg : 0 ≤ max

namespace IntType

def i32 : IntType := ⟨-2147483648, 2147483647, by decide, by decide⟩

variable (t : IntType)

/-- The result of a checked operation. -/
def checked (z : ℤ) : Option ℤ := if t.min ≤ z ∧ z ≤ t.max then some z else none

/-- The digits, added to what was read so far or taken from it. -/
def readDigits (positive : Bool) : ℤ → List Char → Option ℤ
  | acc, [] => some acc
  | acc, c :: text => do
      let tens ← t.checked (acc * 10)
      let next ←
        if c.isDigit then t.checked (tens + signed positive (c.toNat - '0'.toNat)) else none
      readDigits positive next text

def read : List Char → Option ℤ
  | [] => none
  | '+' :: text => if text = [] then none else t.readDigits true 0 text
  | '-' :: text => if text = [] then none else t.readDigits false 0 text
  | text => t.readDigits true 0 text

theorem checked_eq_some {z w : ℤ} (h : t.checked z = some w) : w = z := by
  unfold checked at h
  split at h
  · cases h
    rfl
  · cases h

/-- Once out of the bounds, a magnitude that grows stays out of them. -/
theorem checked_of_le {positive : Bool} {m n : ℕ} (hmn : m ≤ n)
    (h : t.checked (signed positive m) = none) : t.checked (signed positive n) = none := by
  have hmin := t.min_nonpos
  have hmax := t.max_nonneg
  simp only [checked, ite_eq_right_iff, reduceCtorEq, imp_false, not_and, not_le] at h ⊢
  cases positive <;> simp only [signed, if_true, Bool.false_eq_true, if_false] at h ⊢ <;> omega

theorem readDigits_eq (positive : Bool) (text : List Char) {n : ℕ}
    (hn : t.checked (signed positive n) = some (signed positive n)) :
    t.readDigits positive (signed positive n) text =
      if text.all Char.isDigit then t.checked (signed positive (Nat.ofDigitChars 10 text n))
      else none := by
  induction text generalizing n with
  | nil => simp [readDigits, hn]
  | cons c text ih =>
      have htens := signed_digit positive n 0
      have hzero : signed positive 0 = 0 := by cases positive <;> rfl
      rw [Nat.add_zero, hzero, Int.add_zero] at htens
      have hle := le_ofDigitChars text (10 * n + (c.toNat - '0'.toNat))
      simp only [readDigits, List.all_cons, Nat.ofDigitChars_cons, ← htens]
      cases hc : c.isDigit with
      | false =>
          cases t.checked (signed positive (10 * n)) <;> simp
      | true =>
          cases hten : t.checked (signed positive (10 * n)) with
          | none =>
              rw [t.checked_of_le (by omega) hten]
              simp
          | some tens =>
              cases t.checked_eq_some hten
              have hnext := signed_digit positive n (c.toNat - '0'.toNat)
              rw [← htens] at hnext
              simp only [Option.bind_eq_bind, Option.bind_some, if_true, Bool.true_and, ← hnext]
              cases hadd : t.checked (signed positive (10 * n + (c.toNat - '0'.toNat))) with
              | none =>
                  rw [t.checked_of_le hle hadd]
                  simp
              | some next =>
                  cases t.checked_eq_some hadd
                  exact ih hadd

theorem readDigits_zero (positive : Bool) (text : List Char) (hne : text ≠ []) :
    t.readDigits positive 0 text = ((digitRun text).map (signed positive)).bind t.checked := by
  have hzero : signed positive 0 = 0 := by cases positive <;> rfl
  have hchecked : t.checked (signed positive 0) = some (signed positive 0) := by
    rw [hzero]
    exact if_pos ⟨t.min_nonpos, t.max_nonneg⟩
  have h := t.readDigits_eq positive text hchecked
  rw [hzero] at h
  rw [h, digitRun]
  by_cases hdigits : text.all Char.isDigit
  · rw [if_pos hdigits, if_pos ⟨hne, hdigits⟩]
    rfl
  · rw [if_neg hdigits, if_neg (fun hrun => hdigits hrun.2)]
    rfl

theorem readDigits_signed (positive : Bool) (text : List Char) :
    (if text = [] then none else t.readDigits positive 0 text) =
      ((digitRun text).map (signed positive)).bind t.checked := by
  by_cases hempty : text = []
  · rw [if_pos hempty, hempty]
    rfl
  · rw [if_neg hempty, t.readDigits_zero positive text hempty]

/-- **Reading.** The integer that the text is, if it is within the bounds. -/
theorem read_eq (text : List Char) : t.read text = (numeral text).bind t.checked := by
  cases text with
  | nil => rfl
  | cons c text =>
      by_cases hplus : c = '+'
      · subst hplus
        exact t.readDigits_signed true text
      · by_cases hminus : c = '-'
        · subst hminus
          exact t.readDigits_signed false text
        · have hread : t.read (c :: text) = t.readDigits true 0 (c :: text) := by
            simp [read, hplus, hminus]
          have hnumeral : numeral (c :: text) = (digitRun (c :: text)).map (signed true) := by
            simp [numeral, hplus, hminus]
          rw [hread, hnumeral]
          exact t.readDigits_zero true _ (List.cons_ne_nil c text)

end IntType

end RustdeskServer.Framework
