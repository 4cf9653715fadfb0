import RustdeskServer.Codec.RoundTrip

/-!
# The grammar of framed streams

A reference parser for whole byte strings: read a header of `b₀ mod 4 + 1`
bytes, take its little-endian value shifted right by two as the length, fail if
that exceeds the limit, and otherwise take that many payload bytes. It knows
neither chunks nor decoder states.

The decoder of `bytes_codec.rs` recognises this grammar and no other, on any
input and however the input is cut (`decoder_recognises_grammar`).
-/

namespace RustdeskServer.Codec

open RustdeskServer.Framework

/-! ## Headers -/

def littleEndian : Bytes → ℕ
  | [] => 0
  | b :: bs => b.toNat + 256 * littleEndian bs

/-- The width of the header a byte string starts with. -/
def width (s : Bytes) : ℕ := (s.getD 0 0).toNat % 4 + 1

/-- The payload length that header announces, once all of it is there. -/
def announced (s : Bytes) : ℕ := littleEndian (s.take (width s)) / 4

theorem width_pos (s : Bytes) : 1 ≤ width s := Nat.le_add_left 1 _

theorem width_le_four (s : Bytes) : width s ≤ 4 := by
  unfold width
  omega

theorem headValue_eq_littleEndian {s : Bytes} {k : ℕ} (h1 : 1 ≤ k) (h4 : k ≤ 4)
    (hk : k ≤ s.length) :
    BytesCodec.headValue s k = littleEndian (s.take k) / 4 := by
  match k, s, hk with
  | 1, a :: r, _ =>
      rw [BytesCodec.headValue_one]
      simp [littleEndian]
  | 2, a :: b :: r, _ =>
      rw [BytesCodec.headValue_two]
      simp only [List.take_succ_cons, List.take_zero, littleEndian]
      omega
  | 3, a :: b :: c :: r, _ =>
      rw [BytesCodec.headValue_three]
      simp only [List.take_succ_cons, List.take_zero, littleEndian]
      omega
  | 4, a :: b :: c :: d :: r, _ =>
      rw [BytesCodec.headValue_four]
      simp only [List.take_succ_cons, List.take_zero, littleEndian]
      omega

/-- `decode_head` finds the header of the grammar. -/
theorem header_eq (s : Bytes) :
    BytesCodec.header s =
      if s.length < width s then none else some (width s, announced s) := by
  have hwidth : BytesCodec.headLen (s.getD 0 0) = width s := BytesCodec.headLen_eq _
  have hempty : s.isEmpty = true → s.length < width s := by
    intro he
    rw [List.isEmpty_iff.mp he]
    exact width_pos []
  unfold BytesCodec.header
  rw [hwidth]
  by_cases hl : s.length < width s
  · rw [if_pos (Or.inr hl), if_pos hl]
  · have hvalue := headValue_eq_littleEndian (width_pos s) (width_le_four s)
      (Nat.not_lt.mp hl)
    rw [if_neg (not_or.mpr ⟨fun he => hl (hempty he), hl⟩), if_neg hl, hvalue, announced]

theorem width_append {s : Bytes} (hs : s ≠ []) (more : Bytes) :
    width (s ++ more) = width s := by
  cases s with
  | nil => exact absurd rfl hs
  | cons b s => rfl

theorem width_take (s : Bytes) : width (s.take (width s)) = width s := by
  cases s with
  | nil => rfl
  | cons b s => rw [show width (b :: s) = b.toNat % 4 + 1 from rfl]; rfl

/-! ## The reference parser -/

/-- A frame of a stream with packet limit `m`. -/
structure Frame (m : ℕ) where
  head : Bytes
  payload : Bytes
  head_length : head.length = width head
  payload_length : payload.length = announced head
  fits : payload.length ≤ m

def Frame.bytes {m : ℕ} (f : Frame m) : Bytes := f.head ++ f.payload

inductive Verdict where
  | waiting
  | tooBig
deriving DecidableEq, Repr

/-- What the reference parser finds: the frames, the header it has read in
front of an unfinished payload, the verdict, and the bytes not taken. -/
structure Parsed (m : ℕ) where
  frames : List (Frame m)
  pending : Option Bytes
  verdict : Verdict
  rest : Bytes

def Parsed.prepend {m : ℕ} (f : Frame m) (p : Parsed m) : Parsed m :=
  { p with frames := f :: p.frames }

theorem announced_take (s : Bytes) : announced (s.take (width s)) = announced s := by
  unfold announced
  rw [width_take, List.take_take, Nat.min_self]

/-- Cut the first frame off a string that holds all of it. -/
def Frame.first {m : ℕ} (s : Bytes) (hlen : width s + announced s ≤ s.length)
    (hfits : announced s ≤ m) : Frame m where
  head := s.take (width s)
  payload := (s.drop (width s)).take (announced s)
  head_length := by
    rw [width_take, List.length_take]
    omega
  payload_length := by
    rw [announced_take, List.length_take, List.length_drop]
    omega
  fits := by
    rw [List.length_take]
    omega

def parse (m : ℕ) (s : Bytes) : Parsed m :=
  if s.length < width s then ⟨[], none, .waiting, s⟩
  else if hfits : announced s > m then ⟨[], none, .tooBig, s⟩
  else if hlen : s.length < width s + announced s then
    ⟨[], some (s.take (width s)), .waiting, s.drop (width s)⟩
  else
    (parse m (s.drop (width s + announced s))).prepend
      (Frame.first s (Nat.not_lt.mp hlen) (Nat.not_lt.mp hfits))
termination_by s.length
decreasing_by
  rw [List.length_drop]
  have hw := width_pos s
  omega

namespace Parsed

variable {m : ℕ}

/-- The decoder state the parser's answer stands for. -/
def state (p : Parsed m) : DecodeState :=
  match p.pending with
  | none => .head
  | some head => .data (announced head)

def error (p : Parsed m) : Option IoError :=
  match p.verdict with
  | .waiting => none
  | .tooBig => some BytesCodec.tooBigPacket

def payloads (p : Parsed m) : List Bytes := p.frames.map Frame.payload

/-- The headers read and the payloads taken, in stream order. -/
def consumed (p : Parsed m) : Bytes :=
  p.frames.flatMap Frame.bytes ++ p.pending.getD []

end Parsed

variable {m : ℕ} {s : Bytes}

theorem parse_short (h : s.length < width s) : parse m s = ⟨[], none, .waiting, s⟩ := by
  rw [parse, if_pos h]

theorem parse_tooBig (h : width s ≤ s.length) (hm : announced s > m) :
    parse m s = ⟨[], none, .tooBig, s⟩ := by
  rw [parse, if_neg (Nat.not_lt.mpr h), dif_pos hm]

theorem parse_unfinished (h : width s ≤ s.length) (hm : announced s ≤ m)
    (hn : s.length < width s + announced s) :
    parse m s = ⟨[], some (s.take (width s)), .waiting, s.drop (width s)⟩ := by
  rw [parse, if_neg (Nat.not_lt.mpr h), dif_neg (Nat.not_lt.mpr hm), dif_pos hn]

theorem parse_frame (hm : announced s ≤ m) (hn : width s + announced s ≤ s.length) :
    parse m s = (parse m (s.drop (width s + announced s))).prepend
      (Frame.first s hn hm) := by
  rw [parse, if_neg (by omega), dif_neg (Nat.not_lt.mpr hm), dif_neg (Nat.not_lt.mpr hn)]

/-- The parser's four answers, and the recursion on what is behind a frame. -/
theorem parse_induction {motive : Bytes → Prop}
    (short : ∀ s, s.length < width s → motive s)
    (tooBig : ∀ s, width s ≤ s.length → announced s > m → motive s)
    (unfinished : ∀ s, width s ≤ s.length → announced s ≤ m →
      s.length < width s + announced s → motive s)
    (frame : ∀ s, announced s ≤ m → width s + announced s ≤ s.length →
      motive (s.drop (width s + announced s)) → motive s) : ∀ s, motive s := by
  intro s
  induction s using parse.induct (m := m) with
  | case1 s h => exact short s h
  | case2 s h hm => exact tooBig s (Nat.not_lt.mp h) hm
  | case3 s h hm hn => exact unfinished s (Nat.not_lt.mp h) (Nat.not_lt.mp hm) hn
  | case4 s h hm hn ih => exact frame s (Nat.not_lt.mp hm) (Nat.not_lt.mp hn) ih

theorem Frame.first_bytes (hn : width s + announced s ≤ s.length) (hm : announced s ≤ m) :
    (Frame.first s hn hm).bytes = s.take (width s + announced s) :=
  (List.take_add ..).symm

/-- Nothing is skipped and nothing is read twice. -/
theorem consumed_append_rest (m : ℕ) (s : Bytes) :
    (parse m s).consumed ++ (parse m s).rest = s := by
  induction s using parse_induction (m := m) with
  | short s h =>
      rw [parse_short h]
      rfl
  | tooBig s h hm =>
      rw [parse_tooBig h hm]
      rfl
  | unfinished s h hm hn =>
      rw [parse_unfinished h hm hn]
      exact List.take_append_drop (width s) s
  | frame s hm hn ih =>
      rw [parse_frame hm hn]
      have hcons : ((parse m (s.drop (width s + announced s))).prepend
          (Frame.first s hn hm)).consumed = s.take (width s + announced s) ++
            (parse m (s.drop (width s + announced s))).consumed := by
        simp only [Parsed.consumed, Parsed.prepend, List.flatMap_cons, Frame.first_bytes,
          List.append_assoc]
      rw [hcons, List.append_assoc]
      show _ ++ (_ ++ (parse m (s.drop (width s + announced s))).rest) = s
      rw [ih, List.take_append_drop]

/-- A parser that fails stands in front of the header that announced too much. -/
theorem tooBig_rest (h : (parse m s).verdict = .tooBig) :
    (parse m s).pending = none ∧ width (parse m s).rest ≤ (parse m s).rest.length ∧
      announced (parse m s).rest > m := by
  induction s using parse_induction (m := m) with
  | short s hs =>
      rw [parse_short hs] at h
      cases h
  | tooBig s hs hm =>
      rw [parse_tooBig hs hm]
      exact ⟨rfl, hs, hm⟩
  | unfinished s hs hm hn =>
      rw [parse_unfinished hs hm hn] at h
      cases h
  | frame s hm hn ih =>
      rw [parse_frame hm hn] at h ⊢
      exact ih h

/-! ## The decoder is this parser -/

namespace BytesCodec

variable {c : BytesCodec}

theorem decode_waiting (hr : c.raw = false) {n : ℕ} (hs : c.state = .data n)
    (h : s.length < n) : c.decode s = (.ok none, c, s) := by
  rw [decode_data hr hs, decodePayload_eq, if_pos h]

theorem decode_payload (hr : c.raw = false) {n : ℕ} (hs : c.state = .data n)
    (h : n ≤ s.length) :
    c.decode s = (.ok (some (s.take n)), { c with state := .head }, s.drop n) := by
  rw [decode_data hr hs, decodePayload_eq, if_neg (Nat.not_lt.mpr h)]

section Head

variable (hr : c.raw = false) (hs : c.state = .head)
include hr hs

theorem decode_short (h : s.length < width s) : c.decode s = (.ok none, c, s) := by
  rw [decode_head hr hs, header_eq, if_pos h]

theorem decode_tooBig (h : width s ≤ s.length) (hm : announced s > c.maxPacketLength) :
    c.decode s = (.error tooBigPacket, c, s) := by
  rw [decode_head hr hs, header_eq, if_neg (Nat.not_lt.mpr h)]
  exact if_pos hm

theorem decode_unfinished (h : width s ≤ s.length) (hm : announced s ≤ c.maxPacketLength)
    (hn : s.length < width s + announced s) :
    c.decode s = (.ok none, { c with state := .data (announced s) }, s.drop (width s)) := by
  rw [decode_head hr hs, header_eq, if_neg (Nat.not_lt.mpr h)]
  simp only [if_neg (Nat.not_lt.mpr hm), decodePayload_eq]
  rw [if_pos (by rw [List.length_drop]; omega)]

theorem decode_whole (hm : announced s ≤ c.maxPacketLength)
    (hn : width s + announced s ≤ s.length) :
    c.decode s = (.ok (some ((s.drop (width s)).take (announced s))), c,
      s.drop (width s + announced s)) := by
  have hhead : { c with state := .head } = c := by
    cases c
    cases hs
    rfl
  rw [decode_head hr hs, header_eq, if_neg (by omega)]
  simp only [if_neg (Nat.not_lt.mpr hm), decodePayload_eq]
  rw [if_neg (by rw [List.length_drop]; omega), List.drop_drop, hhead]

/-- Draining a buffer from state `head` is parsing it. -/
theorem drain_eq_parse (s : Bytes) :
    decoder.drain c s =
      ⟨(parse c.maxPacketLength s).payloads, (parse c.maxPacketLength s).error,
        { c with state := (parse c.maxPacketLength s).state },
        (parse c.maxPacketLength s).rest⟩ := by
  have hhead : { c with state := .head } = c := by
    cases c
    cases hs
    rfl
  induction s using parse_induction (m := c.maxPacketLength) with
  | short s h =>
      have hd : decoder.decode c s = (.ok none, c, s) := decode_short hr hs h
      rw [Decoder.drain_more hd, parse_short h]
      exact congrArg (Decoder.Drained.mk [] none · s) hhead.symm
  | tooBig s h hm =>
      have hd : decoder.decode c s = (.error tooBigPacket, c, s) :=
        decode_tooBig hr hs h hm
      rw [Decoder.drain_fail hd, parse_tooBig h hm]
      exact congrArg (Decoder.Drained.mk [] _ · s) hhead.symm
  | unfinished s h hm hn =>
      have hd : decoder.decode c s = (.ok none, _, _) := decode_unfinished hr hs h hm hn
      rw [Decoder.drain_more hd, parse_unfinished h hm hn]
      simp only [Parsed.payloads, Parsed.error, Parsed.state, announced_take, List.map_nil]
  | frame s hm hn ih =>
      have hd : decoder.decode c s = (.ok (some _), _, _) := decode_whole hr hs hm hn
      rw [Decoder.drain_item hd, ih, parse_frame hm hn]
      rfl

end Head

/-- **One grammar, whatever the chunking.** For every byte string, every limit
and every cut into chunks, the decoder returns the payloads of the reference
parser's frames and its verdict. What it has consumed is the headers and the
payloads the parser has read, and after an error the buffer starts at the
header that announced too much. -/
theorem decoder_recognises_grammar (m : ℕ) (chunks : List Bytes) :
    decoder.feedAll (new.setMaxPacketLength m) [] chunks =
        ⟨(parse m chunks.flatten).payloads, (parse m chunks.flatten).error,
          { new.setMaxPacketLength m with state := (parse m chunks.flatten).state },
          (parse m chunks.flatten).rest⟩ ∧
      (parse m chunks.flatten).consumed ++ (parse m chunks.flatten).rest =
        chunks.flatten ∧
      ((parse m chunks.flatten).verdict = .tooBig →
        (parse m chunks.flatten).pending = none ∧
        width (parse m chunks.flatten).rest ≤ (parse m chunks.flatten).rest.length ∧
        announced (parse m chunks.flatten).rest > m) := by
  refine ⟨?_, consumed_append_rest m chunks.flatten, tooBig_rest⟩
  have hfresh : decoder.Settled (new.setMaxPacketLength m) [] := rfl
  rw [Decoder.feedAll_eq_drain decoder_resumable chunks rfl hfresh, List.nil_append]
  exact drain_eq_parse rfl rfl chunks.flatten

/-! ## Frames as the encoder writes them -/

/-- The header `encode` puts in front of a message it accepts. -/
def headBytes (d : Bytes) : Bytes := (putHead d.length).getD []

def frameBytes (d : Bytes) : Bytes := headBytes d ++ d

/-- What `header_putHead` says in the words of the grammar. -/
theorem headBytes_spec {d : Bytes} (hd : d.length ≤ 0x3FFFFFFF) :
    putHead d.length = some (headBytes d) ∧
      ∀ rest, width (headBytes d ++ rest) = (headBytes d).length ∧
        announced (headBytes d ++ rest) = d.length := by
  obtain ⟨hd', hput, hhead⟩ := header_putHead hd
  have heq : headBytes d = hd' := by rw [headBytes, hput, Option.getD_some]
  rw [heq]
  refine ⟨hput, fun rest => ?_⟩
  have h := hhead rest
  rw [header_eq] at h
  split at h
  · cases h
  · simp only [Option.some.injEq, Prod.mk.injEq] at h
    exact h

theorem headBytes_pos {d : Bytes} (hd : d.length ≤ 0x3FFFFFFF) :
    1 ≤ (headBytes d).length := by
  rw [← ((headBytes_spec hd).2 []).1]
  exact width_pos _

theorem frameBytes_length (d : Bytes) :
    (frameBytes d).length = (headBytes d).length + d.length := List.length_append

theorem decode_frameBytes (hr : c.raw = false) (hs : c.state = .head) {d : Bytes}
    (hd : d.length ≤ 0x3FFFFFFF) (hm : d.length ≤ c.maxPacketLength) (rest : Bytes) :
    c.decode (frameBytes d ++ rest) = (.ok (some d), c, rest) := by
  refine decode_frame hr hs hm (fun rest => ?_) rest
  obtain ⟨hw, ha⟩ := (headBytes_spec hd).2 rest
  rw [header_eq, hw, ha, if_neg (by rw [List.length_append]; omega)]

/-- A call on the beginning of a frame followed by anything: it waits for the
header, takes the header alone, or takes the frame. -/
theorem decode_frame_cases (hr : c.raw = false) (hs : c.state = .head) {d b w more : Bytes}
    (hd : d.length ≤ 0x3FFFFFFF) (hm : d.length ≤ c.maxPacketLength)
    (hb : b ++ w = frameBytes d ++ more) :
    (b.length < (headBytes d).length ∧ c.decode b = (.ok none, c, b)) ∨
    (∃ q, b = headBytes d ++ q ∧ q.length < d.length ∧
      c.decode b = (.ok none, { c with state := .data d.length }, q)) ∨
    ∃ q, b = frameBytes d ++ q ∧ c.decode b = (.ok (some d), c, q) := by
  obtain ⟨-, hspec⟩ := headBytes_spec hd
  have hb' : b ++ w = headBytes d ++ (d ++ more) := by
    rw [hb, frameBytes, List.append_assoc]
  by_cases hhead : b.length < (headBytes d).length
  · refine Or.inl ⟨hhead, decode_short hr hs ?_⟩
    by_cases hne : b = []
    · rw [hne]
      exact width_pos []
    · rw [← width_append hne w, hb', (hspec _).1]
      exact hhead
  obtain ⟨q, rfl⟩ : headBytes d <+: b :=
    List.prefix_of_prefix_length_le ⟨_, rfl⟩ ⟨w, hb'⟩ (Nat.not_lt.mp hhead)
  obtain ⟨hw, ha⟩ := hspec q
  by_cases hl : q.length < d.length
  · refine Or.inr (Or.inl ⟨q, rfl, hl, ?_⟩)
    have hcall := decode_unfinished hr hs (s := headBytes d ++ q)
      (by rw [hw, List.length_append]; omega) (by rw [ha]; exact hm)
      (by rw [hw, ha, List.length_append]; omega)
    rw [hcall, hw, ha, List.drop_left]
  · have hq : q ++ w = d ++ more := by
      rw [List.append_assoc] at hb'
      exact List.append_cancel_left hb'
    obtain ⟨q', rfl⟩ : d <+: q :=
      List.prefix_of_prefix_length_le ⟨more, rfl⟩ ⟨w, hq⟩ (Nat.not_lt.mp hl)
    rw [← List.append_assoc]
    exact Or.inr (Or.inr ⟨q', rfl, decode_frameBytes hr hs hd hm q'⟩)

end BytesCodec

end RustdeskServer.Codec
