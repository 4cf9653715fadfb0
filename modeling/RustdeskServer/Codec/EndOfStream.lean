import RustdeskServer.Codec.Grammar

/-!
# Streams that end early

The codec leaves `decode_eof` to its default: one more `decode`, and an error
if that finds no item while bytes are left in the buffer. A header in front of
an unfinished payload has already left the buffer, so the rule misses exactly
the streams that end right behind the header of a message that is not empty
(`truncation_detected_iff`).
-/

namespace RustdeskServer.Codec

open RustdeskServer.Framework

namespace BytesCodec

/-- The error of the default `decode_eof`. -/
def bytesRemaining : IoError := ⟨.other, "bytes remaining on stream"⟩

/-- The messages whose frames lie in the first `n` bytes of the stream. -/
def whole : List Bytes → ℕ → List Bytes
  | [], _ => []
  | d :: ds, n =>
      if (frameBytes d).length ≤ n then d :: whole ds (n - (frameBytes d).length) else []

/-- A cut between two frames, before the first or behind the last. -/
def OnBoundary (msgs : List Bytes) (cut : Bytes) : Prop :=
  ∃ i, cut = (msgs.take i).flatMap frameBytes

/-- A cut right behind the header of a message that is not empty. -/
def BehindHeader (msgs : List Bytes) (cut : Bytes) : Prop :=
  ∃ i d, msgs[i]? = some d ∧ d ≠ [] ∧
    cut = (msgs.take i).flatMap frameBytes ++ headBytes d

/-- What the receiver should see of a stream that ends after `cut`: the
messages in it, and a clean end if and only if no frame is broken. -/
def Detected (msgs : List Bytes) (cut : Bytes)
    (seen : Decoder.Drained BytesCodec UInt8 Bytes IoError) : Prop :=
  seen.items = whole msgs cut.length ∧ (seen.error = none ↔ OnBoundary msgs cut)

/-! ## Frames the encoder accepts -/

/-- An accepted sequence is encoded as its frames in order. -/
theorem encodeAll_ok {enc : BytesCodec} (henc : enc.raw = false) :
    ∀ {msgs : List Bytes} {buf out : Bytes}, enc.encodeAll msgs buf = (.ok (), out) →
      (∀ d ∈ msgs, d.length ≤ 0x3FFFFFFF) ∧ out = buf ++ msgs.flatMap frameBytes := by
  intro msgs
  induction msgs with
  | nil =>
      intro buf out h
      cases h
      simp
  | cons d ds ih =>
      intro buf out h
      by_cases hd : d.length ≤ 0x3FFFFFFF
      · have hone : enc.encode d buf = (.ok (), buf ++ headBytes d ++ d) := by
          simp only [encode, henc, (headBytes_spec hd).1, Bool.false_eq_true, if_false]
        simp only [encodeAll, hone] at h
        obtain ⟨hds, hout⟩ := ih h
        refine ⟨fun e he => ?_, ?_⟩
        · rcases List.mem_cons.mp he with rfl | he
          · exact hd
          · exact hds e he
        · rw [hout, List.flatMap_cons, frameBytes]
          simp only [List.append_assoc]
      · have hnone : putHead d.length = none := by
          unfold putHead
          rw [if_neg (by omega), if_neg (by omega), if_neg (by omega), if_neg hd]
        have hone : enc.encode d buf = (.error overflow, buf) := by
          simp only [encode, henc, hnone, Bool.false_eq_true, if_false]
        simp only [encodeAll, hone] at h
        cases h

/-! ## Where a stream can be cut -/

/-- A cut of a stream of frames is in the middle of the first frame, or behind
it and then a cut of the other frames. -/
theorem cut_induction
    {motive : ∀ (msgs : List Bytes) (cut : Bytes), cut <+: msgs.flatMap frameBytes → Prop}
    (nil : ∀ h, motive [] [] h)
    (part : ∀ d ds p, p <+: frameBytes d → p.length < (frameBytes d).length →
      ∀ h, motive (d :: ds) p h)
    (frame : ∀ d ds p hp, motive ds p hp → ∀ h, motive (d :: ds) (frameBytes d ++ p) h) :
    ∀ msgs cut hcut, motive msgs cut hcut := by
  intro msgs
  induction msgs with
  | nil =>
      intro cut hcut
      obtain rfl : cut = [] := List.prefix_nil.mp hcut
      exact nil hcut
  | cons d ds ih =>
      intro cut hcut
      have hcons : cut <+: frameBytes d ++ ds.flatMap frameBytes := hcut
      by_cases hl : cut.length < (frameBytes d).length
      · exact part d ds cut
          (List.prefix_of_prefix_length_le hcons (List.prefix_append _ _) hl.le) hl hcut
      · obtain ⟨p, rfl⟩ := List.prefix_of_prefix_length_le (List.prefix_append _ _) hcons
          (Nat.not_lt.mp hl)
        have hp := (List.prefix_append_right_inj _).mp hcons
        exact frame d ds p hp (ih p hp) hcut

section Cuts

variable {d : Bytes} {ds : List Bytes} {p : Bytes}

theorem whole_part (hl : p.length < (frameBytes d).length) :
    whole (d :: ds) p.length = [] := if_neg (Nat.not_le.mpr hl)

theorem whole_frame : whole (d :: ds) (frameBytes d ++ p).length = d :: whole ds p.length := by
  rw [whole, List.length_append, if_pos (Nat.le_add_right _ _), Nat.add_sub_cancel_left]

theorem frames_take_succ (i : ℕ) : ((d :: ds).take (i + 1)).flatMap frameBytes =
    frameBytes d ++ (ds.take i).flatMap frameBytes := by
  rw [List.take_succ_cons, List.flatMap_cons]

theorem onBoundary_part (hl : p.length < (frameBytes d).length) :
    OnBoundary (d :: ds) p ↔ p = [] := by
  constructor
  · rintro ⟨i, hi⟩
    cases i with
    | zero => exact hi
    | succ i =>
        rw [frames_take_succ] at hi
        rw [hi, List.length_append] at hl
        omega
  · rintro rfl
    exact ⟨0, rfl⟩

theorem onBoundary_frame (hpos : 1 ≤ (frameBytes d).length) :
    OnBoundary (d :: ds) (frameBytes d ++ p) ↔ OnBoundary ds p := by
  constructor
  · rintro ⟨i, hi⟩
    cases i with
    | zero =>
        have hlen := congrArg List.length hi
        rw [List.length_append] at hlen
        simp only [List.take_zero, List.flatMap_nil, List.length_nil] at hlen
        omega
    | succ i =>
        rw [frames_take_succ] at hi
        exact ⟨i, List.append_cancel_left hi⟩
  · rintro ⟨i, rfl⟩
    exact ⟨i + 1, (frames_take_succ i).symm⟩

theorem behindHeader_part (hl : p.length < (frameBytes d).length) :
    BehindHeader (d :: ds) p ↔ p = headBytes d := by
  constructor
  · rintro ⟨i, e, he, -, hi⟩
    cases i with
    | zero =>
        simp only [List.getElem?_cons_zero, Option.some.injEq] at he
        rw [hi, ← he]
        rfl
    | succ i =>
        rw [frames_take_succ] at hi
        rw [hi, List.length_append, List.length_append] at hl
        omega
  · rintro rfl
    refine ⟨0, d, rfl, ?_, rfl⟩
    rintro rfl
    rw [frameBytes_length] at hl
    exact absurd hl (Nat.lt_irrefl _)

theorem behindHeader_frame :
    BehindHeader (d :: ds) (frameBytes d ++ p) ↔ BehindHeader ds p := by
  constructor
  · rintro ⟨i, e, he, hne, hi⟩
    cases i with
    | zero =>
        simp only [List.getElem?_cons_zero, Option.some.injEq] at he
        subst he
        have hlen := congrArg List.length hi
        have hpos := List.length_pos_of_ne_nil hne
        simp only [List.length_append, frameBytes_length, List.take_zero,
          List.flatMap_nil, List.length_nil] at hlen
        omega
    | succ i =>
        rw [frames_take_succ, List.append_assoc] at hi
        exact ⟨i, e, he, hne, List.append_cancel_left hi⟩
  · rintro ⟨i, e, he, hne, rfl⟩
    refine ⟨i + 1, e, he, hne, ?_⟩
    rw [frames_take_succ, List.append_assoc]

end Cuts

/-- A cut behind a header is inside a frame. -/
theorem not_onBoundary_of_behindHeader {msgs : List Bytes} {cut : Bytes}
    (hlen : ∀ d ∈ msgs, d.length ≤ 0x3FFFFFFF) (hcut : cut <+: msgs.flatMap frameBytes)
    (h : BehindHeader msgs cut) : ¬ OnBoundary msgs cut := by
  induction msgs, cut, hcut using cut_induction with
  | nil _ =>
      obtain ⟨i, d, hd, -⟩ := h
      cases hd
  | part d ds p hp hl _ =>
      have hpos := headBytes_pos (hlen d List.mem_cons_self)
      rw [behindHeader_part hl] at h
      rw [onBoundary_part hl, h]
      exact List.ne_nil_of_length_pos hpos
  | frame d ds p hp ih _ =>
      have hpos := headBytes_pos (hlen d List.mem_cons_self)
      rw [onBoundary_frame (by rw [frameBytes_length]; omega)]
      exact ih (fun e he => hlen e (List.mem_cons_of_mem d he)) (behindHeader_frame.mp h)

/-! ## What the receiver sees -/

/-- A frame cut short gives no item and no error. Its bytes stay in the buffer,
except for a header that is complete. -/
theorem drain_part {c : BytesCodec} (hr : c.raw = false) (hs : c.state = .head)
    {d p : Bytes} (hd : d.length ≤ 0x3FFFFFFF) (hm : d.length ≤ c.maxPacketLength)
    (hp : p <+: frameBytes d) (hl : p.length < (frameBytes d).length) :
    (decoder.drain c p).items = [] ∧ (decoder.drain c p).error = none ∧
      ((decoder.drain c p).rest = [] ↔ p = [] ∨ p = headBytes d) := by
  have hpos := headBytes_pos hd
  obtain ⟨w, hw⟩ := hp
  have hcut : p ++ w = frameBytes d ++ [] := by rw [hw, List.append_nil]
  rcases decode_frame_cases hr hs hd hm hcut with
    ⟨hshort, hcall⟩ | ⟨q, rfl, -, hcall⟩ | ⟨q, rfl, -⟩
  · -- the cut is inside the header: all of it stays in the buffer
    have hne : p ≠ headBytes d := by
      rintro rfl
      exact absurd hshort (Nat.lt_irrefl _)
    rw [Decoder.drain_more (D := decoder) hcall]
    exact ⟨rfl, rfl, fun h => Or.inl h, fun h => h.resolve_right hne⟩
  · -- the header has gone into the state: the buffer holds what is behind it
    rw [Decoder.drain_more (D := decoder) hcall]
    refine ⟨rfl, rfl, fun (h : q = []) => ?_, fun h => ?_⟩
    · rw [h, List.append_nil]
      exact Or.inr rfl
    · rcases h with h | h
      · exact absurd (List.append_eq_nil_iff.mp h).1 (List.ne_nil_of_length_pos hpos)
      · exact List.append_right_eq_self.mp h
  · rw [List.length_append] at hl
    omega

theorem drain_cut {c : BytesCodec} (hr : c.raw = false) (hs : c.state = .head)
    {msgs : List Bytes} {cut : Bytes} (hlen : ∀ d ∈ msgs, d.length ≤ 0x3FFFFFFF)
    (hm : ∀ d ∈ msgs, d.length ≤ c.maxPacketLength)
    (hcut : cut <+: msgs.flatMap frameBytes) :
    (decoder.drain c cut).items = whole msgs cut.length ∧
      (decoder.drain c cut).error = none ∧
      ((decoder.drain c cut).rest = [] ↔ OnBoundary msgs cut ∨ BehindHeader msgs cut) := by
  induction msgs, cut, hcut using cut_induction with
  | nil _ =>
      rw [drain_eq_parse hr hs, parse_short (s := []) (width_pos [])]
      exact ⟨rfl, rfl, fun _ => Or.inl ⟨0, rfl⟩, fun _ => rfl⟩
  | part d ds p hp hl _ =>
      rw [whole_part hl, onBoundary_part hl, behindHeader_part hl]
      exact drain_part hr hs (hlen d List.mem_cons_self) (hm d List.mem_cons_self) hp hl
  | frame d ds p hp ih _ =>
      have hpos := headBytes_pos (hlen d List.mem_cons_self)
      have hitem : decoder.decode c (frameBytes d ++ p) = (.ok (some d), c, p) :=
        decode_frameBytes hr hs (hlen d List.mem_cons_self) (hm d List.mem_cons_self) p
      rw [Decoder.drain_item hitem, whole_frame, behindHeader_frame,
        onBoundary_frame (by rw [frameBytes_length]; omega)]
      obtain ⟨hi, he, hrest⟩ := ih (fun e he => hlen e (List.mem_cons_of_mem d he))
        (fun e he => hm e (List.mem_cons_of_mem d he))
      exact ⟨by rw [Decoder.prepend_items, hi, List.singleton_append], he, hrest⟩

/-- **Which truncations are detected.** For every accepted sequence of messages
and every beginning of the encoded stream, in any chunking: the receiver gets
the messages in it, and a clean end exactly on a frame boundary, if and only if
the cut is not right behind the header of a message that is not empty. -/
theorem truncation_detected_iff (enc : BytesCodec) (m : ℕ) (msgs chunks : List Bytes)
    (stream : Bytes) (henc : enc.raw = false)
    (hstream : enc.encodeAll msgs [] = (.ok (), stream))
    (hm : ∀ d ∈ msgs, d.length ≤ m) (hcut : chunks.flatten <+: stream) :
    Detected msgs chunks.flatten
        (decoder.receive bytesRemaining (new.setMaxPacketLength m) [] chunks) ↔
      ¬ BehindHeader msgs chunks.flatten := by
  obtain ⟨hlen, rfl⟩ := encodeAll_ok henc hstream
  rw [List.nil_append] at hcut
  have hdisj := fun h => not_onBoundary_of_behindHeader hlen hcut h
  obtain ⟨hitems, herror, hrest⟩ :=
    drain_cut (c := new.setMaxPacketLength m) rfl rfl hlen hm hcut
  have hseen := Decoder.receive_eq decoder_resumable bytesRemaining chunks
    (s := new.setMaxPacketLength m) (b := []) rfl rfl (by rw [List.nil_append, herror])
  rw [List.nil_append] at hseen
  have hclean : (decoder.receive bytesRemaining (new.setMaxPacketLength m) []
      chunks).error = none ↔
      OnBoundary msgs chunks.flatten ∨ BehindHeader msgs chunks.flatten := by
    rw [hseen, ← hrest, ← List.isEmpty_iff]
    simp
  constructor
  · rintro ⟨-, hiff⟩ hbehind
    exact hdisj hbehind (hiff.mp (hclean.mpr (Or.inr hbehind)))
  · intro hnot
    refine ⟨by rw [hseen]; exact hitems, hclean.trans ?_⟩
    exact ⟨fun h => h.resolve_right hnot, Or.inl⟩

/-- One message of one byte, cut in front of that byte. -/
theorem truncation_detected_iff_header :
    (new.encodeAll [[7]] [] = (.ok (), [4, 7]) ∧ [[4]].flatten <+: ([4, 7] : Bytes)) ∧
      (Detected [[7]] [[4]].flatten
          (decoder.receive bytesRemaining (new.setMaxPacketLength 1) [] [[4]]) ↔
        ¬ BehindHeader [[7]] [[4]].flatten) :=
  have hcut : [[4]].flatten <+: ([4, 7] : Bytes) := ⟨[7], rfl⟩
  ⟨⟨rfl, hcut⟩, truncation_detected_iff new 1 [[7]] [[4]] [4, 7] rfl rfl (by decide) hcut⟩

/-- The same stream reads as a clean end, though the message is missing. -/
theorem header_only_ends_clean :
    new.encodeAll [[7]] [] = (.ok (), [4, 7]) ∧
      (decoder.receive bytesRemaining new [] [[4]]).items = [] ∧
      (decoder.receive bytesRemaining new [] [[4]]).error = none ∧
      ¬ Detected [[7]] [4] (decoder.receive bytesRemaining new [] [[4]]) := by
  have hdrain : decoder.drain new ([] ++ [[4]].flatten) =
      ⟨[], none, { new with state := .data 1 }, []⟩ := Decoder.drain_more rfl
  have hseen : decoder.receive bytesRemaining new [] [[4]] =
      ⟨[], none, { new with state := .data 1 }, []⟩ := by
    rw [Decoder.receive_eq decoder_resumable bytesRemaining [[4]] (s := new) (b := []) rfl
      rfl (by rw [hdrain]), hdrain]
    rfl
  have hinside : ¬ OnBoundary [[7]] [4] := by
    rw [onBoundary_part (by decide)]
    decide
  rw [hseen]
  exact ⟨rfl, rfl, rfl, fun h => hinside (h.2.mp rfl)⟩

end BytesCodec

end RustdeskServer.Codec
