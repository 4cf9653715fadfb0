import RustdeskServer.Codec.BytesCodec

/-!
# Framing round trip

Whatever a framed codec encodes, a framed codec decodes, however the stream is
cut. The width of the header is read back from the two low bits and the length
from the bits above (`header_putHead`); one frame in front of any bytes is one
item (`decode_frame`); the rest is induction on the messages and the fact that
the decoder is resumable.
-/

namespace RustdeskServer.Codec

open RustdeskServer.Framework

namespace BytesCodec

/-! ## Header arithmetic -/

theorem or_shiftLeft {a i : ℕ} (b : ℕ) (h : a < 2 ^ i) :
    a ||| b <<< i = a + b * 2 ^ i := by
  rw [Nat.or_comm, ← Nat.shiftLeft_add_eq_or_of_lt h, Nat.shiftLeft_eq, Nat.add_comm]

theorem headLen_eq (b : UInt8) : headLen b = b.toNat % 4 + 1 := by
  have hand : (b &&& 0x3).toNat = b.toNat % 4 := by
    rw [UInt8.toNat_and]
    exact Nat.and_two_pow_sub_one_eq_mod b.toNat 2
  unfold headLen
  rw [UInt8.toNat_add, hand]
  simp only [UInt8.reduceToNat]
  omega

theorem headValue_one (a : UInt8) (r : Bytes) :
    headValue (a :: r) 1 = a.toNat / 4 := by
  simp [headValue, Nat.shiftRight_eq_div_pow]

theorem headValue_two (a b : UInt8) (r : Bytes) :
    headValue (a :: b :: r) 2 = (a.toNat + b.toNat * 2 ^ 8) / 4 := by
  show (a.toNat ||| b.toNat <<< 8) >>> 2 = _
  rw [or_shiftLeft _ a.toNat_lt, Nat.shiftRight_eq_div_pow]

theorem headValue_three (a b c : UInt8) (r : Bytes) :
    headValue (a :: b :: c :: r) 3 =
      (a.toNat + b.toNat * 2 ^ 8 + c.toNat * 2 ^ 16) / 4 := by
  have ha := a.toNat_lt
  have hb := b.toNat_lt
  show ((a.toNat ||| b.toNat <<< 8) ||| c.toNat <<< 16) >>> 2 = _
  rw [or_shiftLeft _ ha, or_shiftLeft _ (by omega), Nat.shiftRight_eq_div_pow]

theorem headValue_four (a b c d : UInt8) (r : Bytes) :
    headValue (a :: b :: c :: d :: r) 4 =
      (a.toNat + b.toNat * 2 ^ 8 + c.toNat * 2 ^ 16 + d.toNat * 2 ^ 24) / 4 := by
  have ha := a.toNat_lt
  have hb := b.toNat_lt
  have hc := c.toNat_lt
  have hab : a.toNat + b.toNat * 2 ^ 8 < 2 ^ 16 := by omega
  have habc : a.toNat + b.toNat * 2 ^ 8 + c.toNat * 2 ^ 16 < 2 ^ 24 := by omega
  show (((a.toNat ||| b.toNat <<< 8) ||| c.toNat <<< 16) ||| d.toNat <<< 24) >>> 2 = _
  rw [or_shiftLeft _ ha, or_shiftLeft _ hab, or_shiftLeft _ habc,
    Nat.shiftRight_eq_div_pow]

/-- Setting low bits that a left shift has cleared adds them. -/
theorem shiftLeft_or (n : ℕ) {t : ℕ} (ht : t < 4) : n <<< 2 ||| t = 4 * n + t := by
  rw [← Nat.shiftLeft_add_eq_or_of_lt (b := t) (i := 2) ht, Nat.shiftLeft_eq]
  omega

theorem toNat_u16 {n t : ℕ} (hn : n ≤ 0x3FFF) (ht : t < 4) :
    (UInt16.ofNat (n <<< 2) ||| UInt16.ofNat t).toNat = 4 * n + t := by
  have hs : n <<< 2 = 4 * n := by rw [Nat.shiftLeft_eq]; omega
  rw [UInt16.toNat_or, UInt16.toNat_ofNat', UInt16.toNat_ofNat',
    Nat.mod_eq_of_lt (by omega), Nat.mod_eq_of_lt (by omega), shiftLeft_or n ht]

theorem toNat_u32 {n t : ℕ} (hn : n ≤ 0x3FFFFFFF) (ht : t < 4) :
    (UInt32.ofNat (n <<< 2) ||| UInt32.ofNat t).toNat = 4 * n + t := by
  have hs : n <<< 2 = 4 * n := by rw [Nat.shiftLeft_eq]; omega
  rw [UInt32.toNat_or, UInt32.toNat_ofNat', UInt32.toNat_ofNat',
    Nat.mod_eq_of_lt (by omega), Nat.mod_eq_of_lt (by omega), shiftLeft_or n ht]

/-! ## The header written is the header read -/

theorem header_cons {a : UInt8} {r : Bytes} {k : ℕ} (hk : a.toNat % 4 + 1 = k)
    (hr : k ≤ r.length + 1) : header (a :: r) = some (k, headValue (a :: r) k) := by
  unfold header
  rw [show (a :: r).getD 0 0 = a from rfl, headLen_eq, hk, if_neg]
  simp only [List.isEmpty_cons, Bool.false_eq_true, List.length_cons, false_or]
  omega

/-- The bytes of a little-endian number. -/
theorem toNat_byte16 (x : UInt16) :
    x.toUInt8.toNat = x.toNat % 256 ∧
      (x >>> 8).toUInt8.toNat = x.toNat / 256 % 256 := by
  constructor
  · rw [UInt16.toNat_toUInt8]
  · rw [UInt16.toNat_toUInt8, UInt16.toNat_shiftRight, Nat.shiftRight_eq_div_pow]
    rfl

theorem toNat_byte32 (x : UInt32) :
    x.toUInt8.toNat = x.toNat % 256 ∧
      (x >>> 8).toUInt8.toNat = x.toNat / 256 % 256 ∧
      (x >>> 16).toUInt8.toNat = x.toNat / 65536 % 256 ∧
      (x >>> 24).toUInt8.toNat = x.toNat / 16777216 % 256 := by
  refine ⟨?_, ?_, ?_, ?_⟩
  · rw [UInt32.toNat_toUInt8]
  all_goals
    rw [UInt32.toNat_toUInt8, UInt32.toNat_shiftRight, Nat.shiftRight_eq_div_pow]
    rfl

theorem toNat_low16 (x : UInt32) :
    (x &&& 0xFFFF).toUInt16.toNat = x.toNat % 65536 := by
  rw [UInt32.toNat_toUInt16, UInt32.toNat_and]
  simp only [UInt32.reduceToNat]
  rw [Nat.and_two_pow_sub_one_eq_mod _ 16, Nat.mod_mod]

/-- Up to 30 bits of length `encode` finds a header, and any buffer that starts
with it announces exactly that length. -/
theorem header_putHead {n : ℕ} (hn : n ≤ 0x3FFFFFFF) :
    ∃ hd, putHead n = some hd ∧
      ∀ rest, header (hd ++ rest) = some (hd.length, n) := by
  unfold putHead
  by_cases h1 : n ≤ 0x3F
  · refine ⟨_, if_pos h1, fun rest => ?_⟩
    have ha : (UInt8.ofNat (n <<< 2)).toNat = 4 * n := by
      rw [UInt8.toNat_ofNat', Nat.shiftLeft_eq]
      omega
    rw [List.singleton_append, header_cons (k := 1) (by omega) (by omega),
      headValue_one, ha]
    simp
  by_cases h2 : n ≤ 0x3FFF
  · refine ⟨_, by rw [if_neg h1, if_pos h2], fun rest => ?_⟩
    set x := UInt16.ofNat (n <<< 2) ||| 0x1
    have hx : x.toNat = 4 * n + 1 := toNat_u16 h2 (t := 1) (by omega)
    obtain ⟨ha, hb⟩ := toNat_byte16 x
    show header (x.toUInt8 :: (x >>> 8).toUInt8 :: rest) = some (2, n)
    rw [header_cons (k := 2) (by omega) (by simp), headValue_two, ha, hb, hx]
    congr 2
    omega
  by_cases h3 : n ≤ 0x3FFFFF
  · refine ⟨_, by rw [if_neg h1, if_neg h2, if_pos h3], fun rest => ?_⟩
    set x := UInt32.ofNat (n <<< 2) ||| 0x2
    have hx : x.toNat = 4 * n + 2 := toNat_u32 hn (t := 2) (by omega)
    obtain ⟨ha, hb⟩ := toNat_byte16 (x &&& 0xFFFF).toUInt16
    have hc := (toNat_byte32 x).2.2.1
    rw [toNat_low16, hx] at ha hb
    show header ((x &&& 0xFFFF).toUInt16.toUInt8 ::
      ((x &&& 0xFFFF).toUInt16 >>> 8).toUInt8 :: (x >>> 16).toUInt8 :: rest) = some (3, n)
    rw [header_cons (k := 3) (by omega) (by simp), headValue_three, ha, hb, hc, hx]
    congr 2
    omega
  · refine ⟨_, by rw [if_neg h1, if_neg h2, if_neg h3, if_pos hn], fun rest => ?_⟩
    set x := UInt32.ofNat (n <<< 2) ||| 0x3
    have hx : x.toNat = 4 * n + 3 := toNat_u32 hn (t := 3) (by omega)
    obtain ⟨ha, hb, hc, hd⟩ := toNat_byte32 x
    show header (x.toUInt8 :: (x >>> 8).toUInt8 :: (x >>> 16).toUInt8 ::
      (x >>> 24).toUInt8 :: rest) = some (4, n)
    rw [header_cons (k := 4) (by omega) (by simp), headValue_four, ha, hb, hc, hd, hx]
    congr 2
    omega

/-! ## Frames and streams -/

/-- Encode messages one after another into one buffer, up to the first that is
refused. -/
def encodeAll (c : BytesCodec) : List Bytes → Bytes → Except IoError Unit × Bytes
  | [], buf => (.ok (), buf)
  | d :: ds, buf =>
      match c.encode d buf with
      | (.ok (), buf) => encodeAll c ds buf
      | (.error e, buf) => (.error e, buf)

/-- One frame in front of any bytes is one item, and decoding goes on behind it. -/
theorem decode_frame {c : BytesCodec} (hr : c.raw = false) (hs : c.state = .head)
    {d hd : Bytes} (hmax : d.length ≤ c.maxPacketLength)
    (hhd : ∀ rest, header (hd ++ rest) = some (hd.length, d.length)) (rest : Bytes) :
    c.decode (hd ++ d ++ rest) = (.ok (some d), c, rest) := by
  rw [decode_head hr hs, List.append_assoc, hhd]
  simp only [if_neg (Nat.not_lt.mpr hmax), decodePayload_eq]
  rw [List.drop_left, if_neg (by simp), List.take_left, List.drop_left]
  cases c
  cases hs
  rfl

/-- The stream of accepted messages decodes to exactly these messages. -/
theorem drain_encodeAll {enc : BytesCodec} (dec : BytesCodec) (henc : enc.raw = false)
    (hdec : dec.raw = false) (hs : dec.state = .head) :
    ∀ (msgs : List Bytes) (buf : Bytes),
      (∀ d ∈ msgs, d.length ≤ 0x3FFFFFFF ∧ d.length ≤ dec.maxPacketLength) →
      ∃ stream, enc.encodeAll msgs buf = (.ok (), buf ++ stream) ∧
        ∀ rest, decoder.drain dec (stream ++ rest) =
          (decoder.drain dec rest).prepend msgs := by
  intro msgs
  induction msgs with
  | nil => intro buf _; exact ⟨[], by simp [encodeAll], fun rest => by simp⟩
  | cons d ds ih =>
      intro buf hlen
      obtain ⟨hd30, hdmax⟩ := hlen d List.mem_cons_self
      obtain ⟨hd, hput, hhd⟩ := header_putHead hd30
      obtain ⟨stream, henc', hdrain⟩ := ih (buf ++ hd ++ d)
        (fun e he => hlen e (List.mem_cons_of_mem d he))
      refine ⟨hd ++ d ++ stream, ?_, fun rest => ?_⟩
      · have hone : enc.encode d buf = (.ok (), buf ++ hd ++ d) := by
          simp [encode, henc, hput]
        simp only [encodeAll, hone, henc']
        simp only [List.append_assoc]
      · have hitem : decoder.decode dec (hd ++ d ++ (stream ++ rest)) =
            (.ok (some d), dec, stream ++ rest) :=
          decode_frame hdec hs hdmax hhd _
        rw [List.append_assoc _ stream, Decoder.drain_item hitem, hdrain rest,
          Decoder.prepend_prepend]
        rfl

/-- **Framing round trip.** However the encoded stream of a message sequence is
cut into chunks, a fresh codec gives back exactly the messages, reports no
error and ends in state `head` with an empty buffer. -/
theorem framing_roundtrip (enc : BytesCodec) (henc : enc.raw = false) (maxLen : ℕ)
    (msgs : List Bytes) (hlen : ∀ d ∈ msgs, d.length ≤ 0x3FFFFFFF ∧ d.length ≤ maxLen) :
    ∃ stream, enc.encodeAll msgs [] = (.ok (), stream) ∧
      ∀ chunks : List Bytes, chunks.flatten = stream →
        decoder.feedAll (new.setMaxPacketLength maxLen) [] chunks =
          ⟨msgs, none, new.setMaxPacketLength maxLen, []⟩ := by
  set dec := new.setMaxPacketLength maxLen
  obtain ⟨stream, hstream, hdrain⟩ :=
    drain_encodeAll dec henc rfl rfl msgs [] hlen
  refine ⟨stream, by simpa using hstream, ?_⟩
  rintro chunks rfl
  -- a fresh codec waits on an empty buffer
  have hfresh : decoder.Settled dec [] := rfl
  rw [Decoder.feedAll_eq_drain decoder_resumable chunks rfl hfresh, List.nil_append]
  have hend := hdrain []
  rw [List.append_nil, Decoder.drain_more hfresh] at hend
  rw [hend]
  simp [Decoder.Drained.prepend]

/-- Two messages, one of them empty. -/
theorem framing_roundtrip_pair :
    (∀ d ∈ [[], [7, 9]], (d : Bytes).length ≤ 0x3FFFFFFF ∧ d.length ≤ 2) ∧
      ∃ stream, new.encodeAll [[], [7, 9]] [] = (.ok (), stream) ∧
        ∀ chunks : List Bytes, chunks.flatten = stream →
          decoder.feedAll (new.setMaxPacketLength 2) [] chunks =
            ⟨[[], [7, 9]], none, new.setMaxPacketLength 2, []⟩ :=
  have hlen : ∀ d ∈ [[], [7, 9]], (d : Bytes).length ≤ 0x3FFFFFFF ∧ d.length ≤ 2 := by
    decide
  ⟨hlen, framing_roundtrip new rfl 2 [[], [7, 9]] hlen⟩

end BytesCodec

end RustdeskServer.Codec
