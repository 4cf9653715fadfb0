import RustdeskServer.Framework.Framing
import Mathlib.Data.List.GetD
import Mathlib.Tactic

/-!
# The length-prefixed codec (`bytes_codec.rs`)

`BytesCodec` frames a message as a little-endian header of one to four bytes
followed by the payload. The two low bits of the first byte hold the header
width minus one, the bits above them the payload length. The decoder keeps a
two-valued state: it consumes a header as soon as it is complete and then
waits for the payload in state `data n`.

A `usize` is taken to be 64 bits wide; a read buffer (`BytesMut`) is the list
of its unread bytes.
-/

namespace RustdeskServer.Codec

open RustdeskServer.Framework

abbrev Bytes : Type := List UInt8

/-- `std::io::ErrorKind`, as far as the codec and the stream use it. -/
inductive ErrorKind where
  | invalidData
  | invalidInput
  | other
deriving DecidableEq, Repr

/-- `std::io::Error::new(kind, msg)`. -/
structure IoError where
  kind : ErrorKind
  msg : String
deriving DecidableEq, Repr

inductive DecodeState where
  | head
  | data (n : ℕ)
deriving DecidableEq, Repr

structure BytesCodec where
  state : DecodeState
  raw : Bool
  maxPacketLength : ℕ
deriving DecidableEq, Repr

namespace BytesCodec

/-- `usize::MAX` is the initial packet limit. -/
def new : BytesCodec := ⟨.head, false, 2 ^ 64 - 1⟩

def setRaw (c : BytesCodec) : BytesCodec := { c with raw := true }

def setMaxPacketLength (c : BytesCodec) (n : ℕ) : BytesCodec :=
  { c with maxPacketLength := n }

/-! ## Decoding -/

/-- `((src[0] & 0x3) + 1) as usize`. -/
def headLen (b : UInt8) : ℕ := ((b &&& 0x3) + 1).toNat

/-- The header's bytes put together, with the width bits shifted out. -/
def headValue (src : Bytes) (headLen : ℕ) : ℕ :=
  let n := (src.getD 0 0).toNat
  let n := if headLen > 1 then n ||| (src.getD 1 0).toNat <<< 8 else n
  let n := if headLen > 2 then n ||| (src.getD 2 0).toNat <<< 16 else n
  let n := if headLen > 3 then n ||| (src.getD 3 0).toNat <<< 24 else n
  n >>> 2

def tooBigPacket : IoError := ⟨.invalidData, "Too big packet"⟩

def decodeHead (c : BytesCodec) (src : Bytes) :
    Except IoError (Option ℕ) × Bytes :=
  if src.isEmpty then (.ok none, src)
  else
    let k := headLen (src.getD 0 0)
    if src.length < k then (.ok none, src)
    else
      let n := headValue src k
      if n > c.maxPacketLength then (.error tooBigPacket, src)
      else (.ok (some n), src.drop k)

def decodeData (n : ℕ) (src : Bytes) : Except IoError (Option Bytes) × Bytes :=
  if src.length < n then (.ok none, src)
  else (.ok (some (src.take n)), src.drop n)

/-- The second half of `decode`: the payload of length `n`. -/
def decodePayload (c : BytesCodec) (n : ℕ) (src : Bytes) :
    Except IoError (Option Bytes) × BytesCodec × Bytes :=
  match decodeData n src with
  | (.error e, src) => (.error e, c, src)
  | (.ok (some data), src) => (.ok (some data), { c with state := .head }, src)
  | (.ok none, src) => (.ok none, c, src)

def decode (c : BytesCodec) (src : Bytes) :
    Except IoError (Option Bytes) × BytesCodec × Bytes :=
  if c.raw then
    if !src.isEmpty then (.ok (some src), c, []) else (.ok none, c, src)
  else
    match c.state with
    | .head =>
        match c.decodeHead src with
        | (.error e, src) => (.error e, c, src)
        | (.ok (some n), src) => decodePayload { c with state := .data n } n src
        | (.ok none, src) => (.ok none, c, src)
    | .data n => decodePayload c n src

/-! ## Encoding -/

/-- `BufMut::put_u16_le`. -/
def putU16Le (x : UInt16) : Bytes := [x.toUInt8, (x >>> 8).toUInt8]

/-- `BufMut::put_u32_le`. -/
def putU32Le (x : UInt32) : Bytes :=
  [x.toUInt8, (x >>> 8).toUInt8, (x >>> 16).toUInt8, (x >>> 24).toUInt8]

/-- The header `encode` puts for a payload of `len` bytes; none past 30 bits. -/
def putHead (len : ℕ) : Option Bytes :=
  if len ≤ 0x3F then
    some [UInt8.ofNat (len <<< 2)]
  else if len ≤ 0x3FFF then
    some (putU16Le (UInt16.ofNat (len <<< 2) ||| 0x1))
  else if len ≤ 0x3FFFFF then
    let h := UInt32.ofNat (len <<< 2) ||| 0x2
    some (putU16Le (h &&& 0xFFFF).toUInt16 ++ [(h >>> 16).toUInt8])
  else if len ≤ 0x3FFFFFFF then
    some (putU32Le (UInt32.ofNat (len <<< 2) ||| 0x3))
  else none

def overflow : IoError := ⟨.invalidInput, "Overflow"⟩

/-- `encode` appends to the write buffer `buf`, or fails and leaves it alone. -/
def encode (c : BytesCodec) (data buf : Bytes) : Except IoError Unit × Bytes :=
  if c.raw then (.ok (), buf ++ data)
  else
    match putHead data.length with
    | some head => (.ok (), buf ++ head ++ data)
    | none => (.error overflow, buf)

/-! ## What `decode_head` reads -/

/-- The width and the length a buffer's header announces, once it is complete. -/
def header (src : Bytes) : Option (ℕ × ℕ) :=
  if src.isEmpty ∨ src.length < headLen (src.getD 0 0) then none
  else some (headLen (src.getD 0 0), headValue src (headLen (src.getD 0 0)))

theorem decodeHead_eq (c : BytesCodec) (src : Bytes) :
    c.decodeHead src =
      match header src with
      | none => (.ok none, src)
      | some (k, n) =>
          if n > c.maxPacketLength then (.error tooBigPacket, src)
          else (.ok (some n), src.drop k) := by
  unfold decodeHead header
  by_cases he : src.isEmpty
  · rw [if_pos he, if_pos (Or.inl he)]
  · by_cases hl : src.length < headLen (src.getD 0 0)
    · rw [if_neg he, if_pos (Or.inr hl)]
      exact if_pos hl
    · have hc : ¬ (src.isEmpty ∨ src.length < headLen (src.getD 0 0)) := by tauto
      simp only [if_neg he, if_neg hl, if_neg hc]

theorem headLen_pos (b : UInt8) : 1 ≤ headLen b ∧ headLen b ≤ 4 := by
  have h3 : (b &&& 0x3).toNat ≤ 3 := by
    rw [UInt8.toNat_and]
    exact Nat.and_le_right
  unfold headLen
  rw [UInt8.toNat_add]
  simp only [UInt8.reduceToNat]
  omega

theorem header_bounds {src : Bytes} {k n : ℕ} (h : header src = some (k, n)) :
    1 ≤ k ∧ k ≤ 4 ∧ k ≤ src.length := by
  unfold header at h
  split at h
  · cases h
  · rename_i hc
    simp only [Option.some.injEq, Prod.mk.injEq] at h
    obtain ⟨rfl, -⟩ := h
    have hk := headLen_pos (src.getD 0 0)
    exact ⟨hk.1, hk.2, by omega⟩

theorem headValue_append {src : Bytes} {k : ℕ} (hk : k ≤ src.length)
    (h1 : 1 ≤ k) (more : Bytes) :
    headValue (src ++ more) k = headValue src k := by
  have hget : ∀ i, i < k → (src ++ more).getD i 0 = src.getD i 0 :=
    fun i hi => List.getD_append _ _ _ _ (by omega)
  unfold headValue
  rw [hget 0 (by omega)]
  by_cases h2 : k > 1
  · by_cases h3 : k > 2
    · by_cases h4 : k > 3
      · simp only [if_pos h2, if_pos h3, if_pos h4, hget 1 h2, hget 2 h3, hget 3 h4]
      · simp only [if_pos h2, if_pos h3, if_neg h4, hget 1 h2, hget 2 h3]
    · have h4 : ¬ k > 3 := by omega
      simp only [if_pos h2, if_neg h3, if_neg h4, hget 1 h2]
  · have h3 : ¬ k > 2 := by omega
    have h4 : ¬ k > 3 := by omega
    simp only [if_neg h2, if_neg h3, if_neg h4]

/-- A complete header reads the same whatever follows it. -/
theorem header_append {src : Bytes} {k n : ℕ} (h : header src = some (k, n))
    (more : Bytes) : header (src ++ more) = some (k, n) := by
  have hb := header_bounds h
  have hne : src ≠ [] := by
    rintro rfl
    simp at hb
    omega
  have hget : (src ++ more).getD 0 0 = src.getD 0 0 :=
    List.getD_append _ _ _ _ (by omega)
  unfold header at h ⊢
  rw [hget]
  split at h
  · cases h
  · rename_i hc
    simp only [Option.some.injEq, Prod.mk.injEq] at h
    obtain ⟨rfl, rfl⟩ := h
    have hlen : ¬ ((src ++ more).isEmpty ∨
        (src ++ more).length < headLen (src.getD 0 0)) := by
      simp only [List.isEmpty_iff, List.append_eq_nil_iff, hne, false_and,
        List.length_append, false_or, not_lt]
      omega
    rw [if_neg hlen, headValue_append hb.2.2 hb.1]

/-! ## One call of `decode` -/

theorem decodePayload_eq (c : BytesCodec) (n : ℕ) (src : Bytes) :
    c.decodePayload n src =
      if src.length < n then (.ok none, c, src)
      else (.ok (some (src.take n)), { c with state := .head }, src.drop n) := by
  unfold decodePayload decodeData
  split_ifs <;> rfl

theorem decode_data {c : BytesCodec} (hr : c.raw = false) {n : ℕ}
    (hs : c.state = .data n) (src : Bytes) :
    c.decode src = c.decodePayload n src := by
  unfold decode
  rw [hr, hs]
  rfl

/-- In state `head` a call either waits for the header, rejects it, or consumes
it and goes on with the payload. -/
theorem decode_head {c : BytesCodec} (hr : c.raw = false) (hs : c.state = .head)
    (src : Bytes) :
    c.decode src =
      match header src with
      | none => (.ok none, c, src)
      | some (k, n) =>
          if n > c.maxPacketLength then (.error tooBigPacket, c, src)
          else decodePayload { c with state := .data n } n (src.drop k) := by
  unfold decode
  rw [hr, hs]
  simp only [Bool.false_eq_true, if_false, decodeHead_eq]
  cases header src with
  | none => rfl
  | some kn =>
      obtain ⟨k, n⟩ := kn
      dsimp only
      split_ifs <;> rfl

theorem decode_raw {c : BytesCodec} (hr : c.raw = true) (src : Bytes) :
    c.decode src =
      if src.isEmpty then (.ok none, c, src) else (.ok (some src), c, []) := by
  unfold decode
  rw [hr]
  cases src <;> rfl

/-- Pending work: the unread bytes count double, a consumed header one. -/
def pending (c : BytesCodec) (src : Bytes) : ℕ :=
  2 * src.length + match c.state with
    | .head => 0
    | .data _ => 1

theorem pending_decode {c c' : BytesCodec} {src r i : Bytes}
    (h : c.decode src = (.ok (some i), c', r)) : c'.pending r < c.pending src := by
  cases hr : c.raw with
  | true =>
      rw [decode_raw hr] at h
      split at h
      · cases h
      · rename_i hne
        cases h
        cases src with
        | nil => simp at hne
        | cons b bs => simp [pending]
  | false =>
      cases hs : c.state with
      | data n =>
          rw [decode_data hr hs, decodePayload_eq] at h
          split at h
          · cases h
          · cases h
            simp only [pending, hs, List.length_drop]
            omega
      | head =>
          rw [decode_head hr hs] at h
          cases hh : header src with
          | none =>
              rw [hh] at h
              cases h
          | some kn =>
              obtain ⟨k, n⟩ := kn
              have hb := header_bounds hh
              simp only [hh, decodePayload_eq] at h
              split at h
              · cases h
              · split at h
                · cases h
                · cases h
                  simp only [pending, hs, List.length_drop]
                  omega

/-- The codec as a decoder in the sense of the framing library. -/
def decoder : Decoder BytesCodec UInt8 Bytes IoError where
  decode := decode
  size := pending
  size_lt := pending_decode

/-! ## The framed decoder is resumable -/

theorem decodePayload_append {c c' : BytesCodec} {n : ℕ} {src r i : Bytes}
    (more : Bytes) (h : c.decodePayload n src = (.ok (some i), c', r)) :
    c.decodePayload n (src ++ more) = (.ok (some i), c', r ++ more) := by
  rw [decodePayload_eq] at h ⊢
  split at h
  · cases h
  · rename_i hl
    cases h
    have hl' : ¬ (src ++ more).length < n := by
      rw [List.length_append]
      omega
    rw [if_neg hl', List.take_append_of_le_length (by omega),
      List.drop_append_of_le_length (by omega)]

theorem decodePayload_not_error {c c' : BytesCodec} {n : ℕ} {src r : Bytes}
    {e : IoError} : c.decodePayload n src ≠ (.error e, c', r) := by
  rw [decodePayload_eq]
  split_ifs <;> simp

theorem decodePayload_wait {c c' : BytesCodec} {n : ℕ} {src r : Bytes}
    (h : c.decodePayload n src = (.ok none, c', r)) : c' = c ∧ r = src := by
  rw [decodePayload_eq] at h
  split at h
  · cases h
    exact ⟨rfl, rfl⟩
  · cases h

theorem decodePayload_raw (c : BytesCodec) (n : ℕ) (src : Bytes) :
    (c.decodePayload n src).2.1.raw = c.raw := by
  rw [decodePayload_eq]
  split_ifs <;> rfl

theorem decode_keeps_raw (c : BytesCodec) (src : Bytes) :
    (c.decode src).2.1.raw = c.raw := by
  cases hr : c.raw with
  | true =>
      rw [decode_raw hr]
      split_ifs <;> exact hr
  | false =>
      cases hs : c.state with
      | data n => rw [decode_data hr hs, decodePayload_raw, hr]
      | head =>
          rw [decode_head hr hs]
          cases header src with
          | none => exact hr
          | some kn =>
              dsimp only
              split_ifs
              · exact hr
              · rw [decodePayload_raw]
                exact hr

/-- A framed call waits for the header, rejects the packet, or decodes its payload from
some bytes on; bytes that come later change nothing about the last two. -/
theorem decode_cases {c : BytesCodec} (hr : c.raw = false) (src : Bytes) :
    c.decode src = (.ok none, c, src) ∨
      (∀ more, c.decode (src ++ more) = (.error tooBigPacket, c, src ++ more)) ∨
      ∃ n rest, ∀ more, c.decode (src ++ more) =
        decodePayload { c with state := .data n } n (rest ++ more) := by
  cases hs : c.state with
  | data n =>
      have hstate : c = { c with state := .data n } := by
        rw [← hs]
      refine .inr (.inr ⟨n, src, fun more => ?_⟩)
      rw [← hstate]
      exact decode_data hr hs (src ++ more)
  | head =>
      cases hh : header src with
      | none =>
          left
          rw [decode_head hr hs, hh]
      | some kn =>
          obtain ⟨k, n⟩ := kn
          have hb := header_bounds hh
          by_cases hn : n > c.maxPacketLength
          · refine .inr (.inl fun more => ?_)
            rw [decode_head hr hs, header_append hh more]
            exact if_pos hn
          · refine .inr (.inr ⟨n, src.drop k, fun more => ?_⟩)
            rw [decode_head hr hs, header_append hh more,
              ← List.drop_append_of_le_length hb.2.2]
            exact if_neg hn

/-- A codec that is not raw never changes its answer because it had to wait:
the header consumed by an early call is remembered in the state. -/
theorem decoder_resumable : decoder.Resumable (fun c => c.raw = false) where
  keeps := fun {c src} hr => by
    show (c.decode src).2.1.raw = false
    rw [decode_keeps_raw, hr]
  item := by
    intro c src i c' r more hr h
    change c.decode src = _ at h
    show c.decode (src ++ more) = _
    rcases decode_cases hr src with hwait | hreject | ⟨n, rest, hpayload⟩
    · rw [hwait] at h
      cases h
    · rw [← List.append_nil src, hreject] at h
      cases h
    · rw [← List.append_nil src, hpayload, List.append_nil] at h
      rw [hpayload]
      exact decodePayload_append more h
  more := by
    intro c src c' r more hr h
    change c.decode src = _ at h
    show c'.decode (r ++ more) = c.decode (src ++ more)
    rcases decode_cases hr src with hwait | hreject | ⟨n, rest, hpayload⟩
    · rw [hwait] at h
      cases h
      rfl
    · rw [← List.append_nil src, hreject] at h
      cases h
    · rw [← List.append_nil src, hpayload, List.append_nil] at h
      obtain ⟨rfl, rfl⟩ := decodePayload_wait h
      rw [hpayload]
      exact decode_data (c := { c with state := .data n }) hr rfl _
  fail := by
    intro c src e c' r more hr h
    change c.decode src = _ at h
    show c.decode (src ++ more) = _
    rcases decode_cases hr src with hwait | hreject | ⟨n, rest, hpayload⟩
    · rw [hwait] at h
      cases h
    · rw [← List.append_nil src, hreject, List.append_nil] at h
      cases h
      exact hreject more
    · rw [← List.append_nil src, hpayload] at h
      exact absurd h decodePayload_not_error

end BytesCodec

end RustdeskServer.Codec
