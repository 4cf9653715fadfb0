import Mathlib.Data.List.Basic
import Mathlib.Data.Nat.Bitwise
import Mathlib.Tactic.Ring

/-!
# Machine words as bytes and as fields

A word is a natural number. `toBytes` and `ofBytes` are the two directions
between a word of so many bytes and the bytes, in either byte order. A word that
is put together from shifted fields is a sum as long as no field reaches into the
next one (`shiftLeft_or_eq_add`), and `shiftLeft_and_eq_zero` says that such fields
share no bit.
-/

namespace RustdeskServer.Framework

/-! ## Bytes -/

inductive ByteOrder where
  | little
  | big
deriving DecidableEq, Repr

namespace ByteOrder

/-- The lowest byte first. -/
def digits : ℕ → ℕ → List UInt8
  | 0, _ => []
  | width + 1, n => UInt8.ofNat n :: digits width (n / 256)

def ofDigits : List UInt8 → ℕ
  | [] => 0
  | b :: bs => b.toNat + 256 * ofDigits bs

def toBytes (order : ByteOrder) (width n : ℕ) : List UInt8 :=
  match order with
  | .little => digits width n
  | .big => (digits width n).reverse

def ofBytes (order : ByteOrder) (bytes : List UInt8) : ℕ :=
  match order with
  | .little => ofDigits bytes
  | .big => ofDigits bytes.reverse

theorem length_digits (width n : ℕ) : (digits width n).length = width := by
  induction width generalizing n with
  | zero => rfl
  | succ width ih => rw [digits, List.length_cons, ih]

theorem ofDigits_digits {width n : ℕ} (h : n < 256 ^ width) : ofDigits (digits width n) = n := by
  induction width generalizing n with
  | zero =>
      rw [Nat.pow_zero] at h
      simp [digits, ofDigits, Nat.lt_one_iff.mp h]
  | succ width ih =>
      have hrest : n / 256 < 256 ^ width := by
        rw [Nat.pow_succ] at h
        omega
      rw [digits, ofDigits, ih hrest, UInt8.toNat_ofNat']
      exact Nat.mod_add_div n 256

theorem digits_ofDigits (bytes : List UInt8) : digits bytes.length (ofDigits bytes) = bytes := by
  induction bytes with
  | nil => rfl
  | cons b bs ih =>
      have hlt : b.toNat < 256 := b.toNat_lt
      have hfirst : UInt8.ofNat (b.toNat + 256 * ofDigits bs) = b := by
        apply UInt8.toNat_inj.mp
        rw [UInt8.toNat_ofNat']
        omega
      have hrest : (b.toNat + 256 * ofDigits bs) / 256 = ofDigits bs := by omega
      rw [List.length_cons, ofDigits, digits, hfirst, hrest, ih]

theorem ofDigits_lt (bytes : List UInt8) : ofDigits bytes < 256 ^ bytes.length := by
  induction bytes with
  | nil => exact Nat.one_pos
  | cons b bs ih =>
      have hlt : b.toNat < 256 := b.toNat_lt
      rw [ofDigits, List.length_cons, Nat.pow_succ]
      omega

theorem ofDigits_append (low high : List UInt8) :
    ofDigits (low ++ high) = ofDigits low + 256 ^ low.length * ofDigits high := by
  induction low with
  | nil => simp [ofDigits]
  | cons b low ih =>
      rw [List.cons_append, ofDigits, ofDigits, ih, List.length_cons, Nat.pow_succ]
      ring

/-- The last bytes of a number are the rest of its division. -/
theorem ofBytes_drop (bytes : List UInt8) (n : ℕ) :
    ByteOrder.big.ofBytes (bytes.drop n) =
      ByteOrder.big.ofBytes bytes % 256 ^ (bytes.drop n).length := by
  have hlow : ofDigits (bytes.drop n).reverse < 256 ^ (bytes.drop n).length := by
    simpa using ofDigits_lt (bytes.drop n).reverse
  have hall : bytes.reverse = (bytes.drop n).reverse ++ (bytes.take n).reverse := by
    rw [← List.reverse_append, List.take_append_drop]
  simp only [ofBytes]
  rw [hall, ofDigits_append, List.length_reverse, Nat.add_mul_mod_self_left,
    Nat.mod_eq_of_lt hlow]

variable (order : ByteOrder)

theorem length_toBytes (width n : ℕ) : (order.toBytes width n).length = width := by
  cases order with
  | little => exact length_digits width n
  | big => rw [toBytes, List.length_reverse, length_digits]

theorem ofBytes_toBytes {width n : ℕ} (h : n < 256 ^ width) :
    order.ofBytes (order.toBytes width n) = n := by
  cases order with
  | little => exact ofDigits_digits h
  | big => rw [ofBytes, toBytes, List.reverse_reverse, ofDigits_digits h]

theorem toBytes_ofBytes (bytes : List UInt8) :
    order.toBytes bytes.length (order.ofBytes bytes) = bytes := by
  cases order with
  | little => exact digits_ofDigits bytes
  | big => rw [toBytes, ofBytes, ← List.length_reverse, digits_ofDigits, List.reverse_reverse]

theorem ofBytes_lt (bytes : List UInt8) : order.ofBytes bytes < 256 ^ bytes.length := by
  cases order with
  | little => exact ofDigits_lt bytes
  | big => exact lt_of_lt_of_eq (ofDigits_lt bytes.reverse) (by rw [List.length_reverse])

end ByteOrder

/-! ## Fields -/

/-- A field shifted beyond the others shares no bit with them. -/
theorem shiftLeft_and_eq_zero {n below : ℕ} (high : ℕ) (h : below < 2 ^ n) :
    high <<< n &&& below = 0 := by
  apply Nat.eq_of_testBit_eq
  intro i
  rw [Nat.testBit_and, Nat.testBit_shiftLeft, Nat.zero_testBit]
  by_cases hi : n ≤ i
  · have hbelow : below.testBit i = false :=
      Nat.testBit_lt_two_pow (lt_of_lt_of_le h (Nat.pow_le_pow_right Nat.two_pos hi))
    rw [hbelow, Bool.and_false]
  · rw [decide_eq_false hi, Bool.false_and, Bool.false_and]

theorem shiftLeft_or_eq_add {n below : ℕ} (high : ℕ) (h : below < 2 ^ n) :
    high <<< n ||| below = high * 2 ^ n + below := by
  rw [← Nat.shiftLeft_add_eq_or_of_lt h, Nat.shiftLeft_eq]

end RustdeskServer.Framework
