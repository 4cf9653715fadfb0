import RustdeskServer.Framework.Words
import Mathlib.Data.List.DropRight
import Mathlib.Data.UInt

/-!
# Mangled addresses (`lib.rs`)

Firewalls rewrite addresses that they find in packets, so an address is sent
packed with a clock reading into a `u128`, whose trailing zero bytes are left out.
`Fields` are the three numbers that are packed.

The arithmetic is that of a build with overflow checks: an addition or a
subtraction that leaves the `u128` is a `Panic`, as is an index out of range.
-/

namespace RustdeskServer.Rendezvous.AddrMangle

open RustdeskServer.Framework

structure Ipv4Addr where
  octets : List UInt8
  length_octets : octets.length = 4
deriving DecidableEq

inductive SocketAddr where
  | v4 (ip : Ipv4Addr) (port : UInt16)
  | v6 (octets : List UInt8) (port : UInt16)
deriving DecidableEq

inductive Panic where
  | overflow
  | underflow
  | outOfRange
  | text (text : String)
deriving DecidableEq

/-- `u128` addition -/
def add (a b : ℕ) : Except Panic ℕ :=
  if a + b < 2 ^ 128 then .ok (a + b) else .error .overflow

/-- Unsigned subtraction, of a `u128` or a `usize` -/
def sub (a b : ℕ) : Except Panic ℕ :=
  if b ≤ a then .ok (a - b) else .error .underflow

/-- `<<` on a `u128`: what leaves it at the top is lost without a panic. -/
def shl (a n : ℕ) : ℕ := a <<< n % 2 ^ 128

/-- `as_micros() as u32` -/
def clock (micros : ℕ) : ℕ := micros % 2 ^ 32

structure Fields where
  high : ℕ
  time : ℕ
  low : ℕ

def Fields.pack (f : Fields) : ℕ := shl f.high 49 ||| shl f.time 17 ||| f.low

/-- The trailing zeros of the array. -/
def nPadding (bytes : List UInt8) : ℕ := (bytes.reverse.takeWhile (· = 0)).length

/-- `bytes[..(16 - n_padding)].to_vec()` -/
def strip (bytes : List UInt8) : List UInt8 := bytes.take (16 - nPadding bytes)

/-- The array of sixteen zeros with `bytes` copied to its front. -/
def pad (bytes : List UInt8) : List UInt8 := bytes ++ List.replicate (16 - bytes.length) 0

variable (order : ByteOrder)

def fields (micros : ℕ) (ip : Ipv4Addr) (port : UInt16) : Except Panic Fields := do
  let tm := clock micros
  let high ← add (order.ofBytes ip.octets) tm
  let low ← add port.toNat (tm &&& 0xFFFF)
  return ⟨high, tm, low⟩

def encode (micros : ℕ) : SocketAddr → Except Panic (List UInt8)
  | .v4 ip port => do
      let f ← fields order micros ip port
      return strip (order.toBytes 16 f.pack)
  | .v6 _ _ => .error (.text "Only support ipv4")

def decode (bytes : List UInt8) : Except Panic SocketAddr := do
  if bytes.length > 16 then throw .outOfRange
  let number := order.ofBytes (pad bytes)
  let tm := number >>> 17 &&& 0xFFFFFFFF
  let ip ← sub (number >>> 49) tm
  let port ← sub (number &&& 0xFFFFFF) (tm &&& 0xFFFF)
  return .v4 ⟨order.toBytes 4 (ip % 2 ^ 32), order.length_toBytes 4 _⟩ (UInt16.ofNat port)

/-- The fields keep their bits when they are shifted and share none. -/
structure Fields.Apart (f : Fields) : Prop where
  high : shl f.high 49 = f.high <<< 49
  time : shl f.time 17 = f.time <<< 17
  high_time : shl f.high 49 &&& shl f.time 17 = 0
  high_low : shl f.high 49 &&& f.low = 0
  time_low : shl f.time 17 &&& f.low = 0

/-- What a byte string must be like to be decoded, in the bits of its number: the
uppermost field is not below the time, and the lowest 17 bits are not below the
lower half of the time unless one of the next 7 bits is set. -/
structure Mangled (bytes : List UInt8) : Prop where
  short : bytes.length ≤ 16
  high : order.ofBytes (pad bytes) / 2 ^ 17 % 2 ^ 32 ≤ order.ofBytes (pad bytes) / 2 ^ 49
  low : order.ofBytes (pad bytes) / 2 ^ 17 % 2 ^ 7 ≠ 0 ∨
    order.ofBytes (pad bytes) / 2 ^ 17 % 2 ^ 16 ≤ order.ofBytes (pad bytes) % 2 ^ 17

variable {order}

/-! ## Encoding -/

theorem clock_lt (micros : ℕ) : clock micros < 2 ^ 32 := Nat.mod_lt _ (Nat.two_pow_pos 32)

theorem ip_lt (order : ByteOrder) (ip : Ipv4Addr) : order.ofBytes ip.octets < 2 ^ 32 := by
  have h := order.ofBytes_lt ip.octets
  rwa [ip.length_octets] at h

theorem and_low16 (tm : ℕ) : tm &&& 0xFFFF = tm % 2 ^ 16 := Nat.and_two_pow_sub_one_eq_mod tm 16

/-- The additions stay far below the end of the `u128`. -/
theorem fields_eq (order : ByteOrder) (micros : ℕ) (ip : Ipv4Addr) (port : UInt16) :
    fields order micros ip port =
      .ok ⟨order.ofBytes ip.octets + clock micros, clock micros,
        port.toNat + clock micros % 2 ^ 16⟩ := by
  have hip := ip_lt order ip
  have htime := clock_lt micros
  have hport : port.toNat < 2 ^ 16 := port.toNat_lt
  have hlow := and_low16 (clock micros)
  unfold fields
  dsimp only
  rw [add, if_pos (by omega), add, if_pos (by omega), hlow]
  rfl

/-- Fields that have room: 33 bits, 32 bits and 17 bits. -/
structure Fields.Fits (f : Fields) : Prop where
  high : f.high < 2 ^ 33
  time : f.time < 2 ^ 32
  low : f.low < 2 ^ 17

theorem fits (order : ByteOrder) (micros : ℕ) (ip : Ipv4Addr) (port : UInt16) :
    Fields.Fits ⟨order.ofBytes ip.octets + clock micros, clock micros,
      port.toNat + clock micros % 2 ^ 16⟩ := by
  have hip := ip_lt order ip
  have htime := clock_lt micros
  have hport : port.toNat < 2 ^ 16 := port.toNat_lt
  constructor
  · show _ + _ < _
    omega
  · exact htime
  · show _ + _ < _
    omega

namespace Fields

variable {f : Fields}

theorem Fits.shl_high (h : f.Fits) : shl f.high 49 = f.high <<< 49 := by
  have hhigh := h.high
  rw [shl, Nat.shiftLeft_eq]
  exact Nat.mod_eq_of_lt (by omega)

theorem Fits.shl_time (h : f.Fits) : shl f.time 17 = f.time <<< 17 := by
  have htime := h.time
  rw [shl, Nat.shiftLeft_eq]
  exact Nat.mod_eq_of_lt (by omega)

theorem Fits.below (h : f.Fits) : f.time <<< 17 ||| f.low < 2 ^ 49 := by
  have htime := h.time
  have hlow := h.low
  rw [shiftLeft_or_eq_add f.time h.low]
  omega

theorem Fits.apart (h : f.Fits) : f.Apart := by
  have htime := h.time
  have hlow := h.low
  constructor
  · exact h.shl_high
  · exact h.shl_time
  · rw [h.shl_high, h.shl_time]
    apply shiftLeft_and_eq_zero
    rw [Nat.shiftLeft_eq]
    omega
  · rw [h.shl_high]
    apply shiftLeft_and_eq_zero
    omega
  · rw [h.shl_time]
    exact shiftLeft_and_eq_zero f.time h.low

/-- Packed fields are the digits of a number. -/
theorem Fits.pack_eq (h : f.Fits) : f.pack = f.high * 2 ^ 49 + (f.time * 2 ^ 17 + f.low) := by
  rw [pack, h.shl_high, h.shl_time, Nat.or_assoc, shiftLeft_or_eq_add f.high h.below,
    shiftLeft_or_eq_add f.time h.low]

theorem Fits.pack_lt (h : f.Fits) : f.pack < 256 ^ 16 := by
  have hhigh := h.high
  have htime := h.time
  have hlow := h.low
  rw [h.pack_eq]
  omega

end Fields

/-! ## Trailing zeros -/

theorem pad_strip {bytes : List UInt8} (h : bytes.length = 16) : pad (strip bytes) = bytes := by
  obtain ⟨front, zeros, hbytes, hpadding, hzeros⟩ : ∃ front zeros, bytes = front ++ zeros ∧
      nPadding bytes = zeros.length ∧ ∀ b ∈ zeros, b = 0 := by
    refine ⟨bytes.rdropWhile (· = 0), bytes.rtakeWhile (· = 0), ?_, ?_, ?_⟩
    · exact (List.rdropWhile_append_rtakeWhile ..).symm
    · rw [nPadding, List.rtakeWhile, List.length_reverse]
    · intro b hb
      have hzero := List.mem_rtakeWhile_imp hb
      exact of_decide_eq_true hzero
  have hfront : 16 - nPadding bytes = front.length := by
    rw [hbytes, List.length_append] at h
    omega
  have hleft : 16 - front.length = zeros.length := by
    rw [hbytes, List.length_append] at h
    omega
  rw [strip, hfront, hbytes, List.take_left, pad, hleft, ← List.eq_replicate_of_mem hzeros]

theorem length_strip_le (bytes : List UInt8) : (strip bytes).length ≤ 16 :=
  (List.length_take_le _ _).trans (Nat.sub_le 16 _)

/-! ## Decoding -/

/-- The three fields as `decode` reads them: the lowest has 24 bits. -/
theorem decode_eq {bytes : List UInt8} (h : bytes.length ≤ 16) {number : ℕ}
    (hnumber : order.ofBytes (pad bytes) = number) :
    decode order bytes = do
      let ip ← sub (number / 2 ^ 49) (number / 2 ^ 17 % 2 ^ 32)
      let port ← sub (number % 2 ^ 24) (number / 2 ^ 17 % 2 ^ 16)
      return .v4 ⟨order.toBytes 4 (ip % 2 ^ 32), order.length_toBytes 4 _⟩ (UInt16.ofNat port) := by
  have htime : number >>> 17 &&& 0xFFFFFFFF = number / 2 ^ 17 % 2 ^ 32 := by
    rw [Nat.shiftRight_eq_div_pow]
    exact Nat.and_two_pow_sub_one_eq_mod _ 32
  have hlow : number &&& 0xFFFFFF = number % 2 ^ 24 := Nat.and_two_pow_sub_one_eq_mod number 24
  have hhalf : number / 2 ^ 17 % 2 ^ 32 &&& 0xFFFF = number / 2 ^ 17 % 2 ^ 16 := by
    rw [and_low16]
    omega
  unfold decode
  rw [if_neg (Nat.not_lt.mpr h), hnumber]
  dsimp only
  rw [htime, hlow, hhalf, Nat.shiftRight_eq_div_pow]

theorem sub_eq_ok {a b : ℕ} (h : b ≤ a) : sub a b = .ok (a - b) := if_pos h

theorem sub_eq_error {a b : ℕ} (h : ¬ b ≤ a) : sub a b = .error .underflow := if_neg h

/-- What `decode` reads of a packed number. Its lowest 24 bits reach into the time,
whose bits the truncation to the port cuts off again. -/
theorem decode_pack {f : Fields} (h : f.Fits) (htime : f.time ≤ f.high)
    (hlow : f.time % 2 ^ 16 ≤ f.low) {bytes : List UInt8} (hbytes : bytes.length ≤ 16)
    (hpack : order.ofBytes (pad bytes) = f.pack) :
    decode order bytes = .ok (.v4 ⟨order.toBytes 4 ((f.high - f.time) % 2 ^ 32),
      order.length_toBytes 4 _⟩ (UInt16.ofNat (f.low - f.time % 2 ^ 16))) := by
  have hpacked := h.pack_eq
  have htime' := h.time
  have hlow' := h.low
  have hread : f.pack / 2 ^ 49 = f.high ∧ f.pack / 2 ^ 17 % 2 ^ 32 = f.time ∧
      f.pack / 2 ^ 17 % 2 ^ 16 = f.time % 2 ^ 16 ∧
      f.pack % 2 ^ 24 = f.time % 2 ^ 7 * 2 ^ 17 + f.low := by omega
  obtain ⟨hread49, hread17, hhalf, hread0⟩ := hread
  have hport : UInt16.ofNat (f.time % 2 ^ 7 * 2 ^ 17 + f.low - f.time % 2 ^ 16) =
      UInt16.ofNat (f.low - f.time % 2 ^ 16) := by
    apply UInt16.toNat_inj.mp
    rw [UInt16.toNat_ofNat', UInt16.toNat_ofNat']
    omega
  rw [decode_eq hbytes hpack, hread49, hread17, hhalf, hread0, sub_eq_ok htime,
    sub_eq_ok (hlow.trans (Nat.le_add_left _ _)), ← hport]
  rfl

/-- **Encoded addresses are decoded.** Whatever the clock reads, and in either byte
order: `encode` does not overflow, its fields do not overlap, the zeros it leaves
out are put back by `decode`, and `decode` gives the address without an underflow. -/
theorem mangle_roundtrip (order : ByteOrder) (micros : ℕ) (ip : Ipv4Addr) (port : UInt16) :
    ∃ f bytes, fields order micros ip port = .ok f ∧ f.Apart ∧
      encode order micros (.v4 ip port) = .ok bytes ∧
      pad bytes = order.toBytes 16 f.pack ∧
      decode order bytes = .ok (.v4 ip port) := by
  have hfits := fits order micros ip port
  have hfields := fields_eq order micros ip port
  have htime : clock micros ≤ order.ofBytes ip.octets + clock micros := Nat.le_add_left _ _
  have hlow : clock micros % 2 ^ 16 ≤ port.toNat + clock micros % 2 ^ 16 := Nat.le_add_left _ _
  have hip : (order.ofBytes ip.octets + clock micros - clock micros) % 2 ^ 32 =
      order.ofBytes ip.octets := by
    rw [Nat.add_sub_cancel, Nat.mod_eq_of_lt (ip_lt order ip)]
  have hport : UInt16.ofNat (port.toNat + clock micros % 2 ^ 16 - clock micros % 2 ^ 16) =
      port := by
    rw [Nat.add_sub_cancel, UInt16.ofNat_toNat]
  have hoctets : order.toBytes 4 (order.ofBytes ip.octets) = ip.octets := by
    rw [← ip.length_octets, order.toBytes_ofBytes]
  generalize hf : Fields.mk _ _ _ = f at hfits hfields
  have hpad : pad (strip (order.toBytes 16 f.pack)) = order.toBytes 16 f.pack :=
    pad_strip (order.length_toBytes 16 _)
  have hnumber : order.ofBytes (pad (strip (order.toBytes 16 f.pack))) = f.pack := by
    rw [hpad, order.ofBytes_toBytes hfits.pack_lt]
  refine ⟨f, strip (order.toBytes 16 f.pack), hfields, hfits.apart, ?_, hpad, ?_⟩
  · rw [encode, hfields]
    rfl
  · subst hf
    rw [decode_pack hfits htime hlow (length_strip_le _) hnumber]
    dsimp only
    simp only [hip, hport, hoctets]

/-- Port 21116 on 192.168.16.32, at some time. -/
example : (encode .little 1612345678901234 (.v4 ⟨[192, 168, 16, 32], rfl⟩ 21116)).toOption.map
    (decode .little) = some (.ok (.v4 ⟨[192, 168, 16, 32], rfl⟩ 21116)) := by decide

/-- **Which byte strings are decoded.** `decode` gives an address, without an index
out of range and without an underflow, just for the `Mangled` ones. -/
theorem decode_ok_iff (order : ByteOrder) (bytes : List UInt8) :
    (∃ addr, decode order bytes = .ok addr) ↔ Mangled order bytes := by
  by_cases hlen : bytes.length ≤ 16
  · generalize hnumber : order.ofBytes (pad bytes) = number
    have hlow : number / 2 ^ 17 % 2 ^ 16 ≤ number % 2 ^ 24 ↔ number / 2 ^ 17 % 2 ^ 7 ≠ 0 ∨
        number / 2 ^ 17 % 2 ^ 16 ≤ number % 2 ^ 17 := by omega
    rw [decode_eq hlen hnumber]
    constructor
    · rintro ⟨addr, haddr⟩
      have hhigh : number / 2 ^ 17 % 2 ^ 32 ≤ number / 2 ^ 49 := by
        by_contra hnot
        rw [sub_eq_error hnot] at haddr
        cases haddr
      have hport : number / 2 ^ 17 % 2 ^ 16 ≤ number % 2 ^ 24 := by
        by_contra hnot
        rw [sub_eq_ok hhigh, sub_eq_error hnot] at haddr
        cases haddr
      refine ⟨hlen, ?_, ?_⟩
      · rw [hnumber]
        exact hhigh
      · rw [hnumber]
        exact hlow.mp hport
    · rintro ⟨-, hhigh, hport⟩
      rw [hnumber] at hhigh hport
      rw [sub_eq_ok hhigh, sub_eq_ok (hlow.mpr hport)]
      exact ⟨_, rfl⟩
  · constructor
    · rintro ⟨addr, haddr⟩
      rw [decode, if_pos (Nat.lt_of_not_le hlen)] at haddr
      cases haddr
    · exact fun h => absurd h.short hlen

/-- Seventeen bytes do not fit into the array, and a time that is later than the
sum it was added to underflows. -/
theorem hostile_input_panics :
    decode .little (List.replicate 17 0) = .error .outOfRange ∧
      decode .little [0, 0, 2] = .error .underflow := by
  constructor
  · decide
  · decide

end RustdeskServer.Rendezvous.AddrMangle
