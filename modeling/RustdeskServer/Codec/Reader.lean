import RustdeskServer.Codec.Grammar

/-!
# Reading a connection, framed and then raw

`Framed` keeps a read buffer beside the codec. Chunks arrive, `decode` is
called, and at some moment `set_raw` may change what `decode` means. The
machine below records everything that arrived and everything `decode` returned,
so that a switch can be judged by what is missing.

`Split` is the invariant of framed reading: what arrived is the frames
delivered, then a header that has been read ahead of its payload, then the
buffer. Raw reading only passes the buffer on. A switch between two calls
therefore loses the header that was read ahead, and nothing else
(`setRaw_conserves_iff`).
-/

namespace RustdeskServer.Codec

open RustdeskServer.Framework

/-- The read side of a connection with its history. -/
structure Reader where
  codec : BytesCodec
  buf : Bytes
  received : Bytes
  framed : List Bytes
  raw : List Bytes

inductive ReadOp where
  | arrive (chunk : Bytes)
  | decode

namespace Reader

def start (m : ℕ) : Reader := ⟨BytesCodec.new.setMaxPacketLength m, [], [], [], []⟩

def setRaw (r : Reader) : Reader := { r with codec := r.codec.setRaw }

def arrive (r : Reader) (chunk : Bytes) : Reader :=
  { r with buf := r.buf ++ chunk, received := r.received ++ chunk }

/-- One call of `decode`, and the item it returned. -/
def decode (r : Reader) : Reader :=
  match r.codec.decode r.buf with
  | (.ok (some item), codec, buf) =>
      if r.codec.raw then { r with codec, buf, raw := r.raw ++ [item] }
      else { r with codec, buf, framed := r.framed ++ [item] }
  | (_, codec, buf) => { r with codec, buf }

def step (r : Reader) : ReadOp → Reader
  | .arrive chunk => r.arrive chunk
  | .decode => r.decode

def run (r : Reader) (ops : List ReadOp) : Reader := ops.foldl step r

theorem run_concat (r : Reader) (ops : List ReadOp) (op : ReadOp) :
    r.run (ops ++ [op]) = (r.run ops).step op := by
  rw [run, List.foldl_append]
  rfl

end Reader

/-- The part of a stream behind its first `i` frames. -/
def behindFrames : ℕ → Bytes → Bytes
  | 0, s => s
  | i + 1, s => behindFrames i (s.drop (width s + announced s))

theorem announced_append {head : Bytes} (h : head.length = width head) (more : Bytes) :
    announced (head ++ more) = announced head := by
  have hne : head ≠ [] := List.ne_nil_of_length_pos (by rw [h]; exact width_pos head)
  unfold announced
  rw [width_append hne, ← h, List.take_left, List.take_length]

theorem behindFrames_frames {m : ℕ} (frames : List (Frame m)) (more : Bytes) :
    behindFrames frames.length (frames.flatMap Frame.bytes ++ more) = more := by
  induction frames with
  | nil => rfl
  | cons f fs ih =>
      have hne : f.head ≠ [] :=
        List.ne_nil_of_length_pos (by rw [f.head_length]; exact width_pos _)
      have hcons : (f :: fs).flatMap Frame.bytes ++ more =
          f.head ++ (f.payload ++ (fs.flatMap Frame.bytes ++ more)) := by
        rw [List.flatMap_cons, Frame.bytes]
        simp only [List.append_assoc]
      have hcut : (f.head ++ (f.payload ++ (fs.flatMap Frame.bytes ++ more))).drop
          (width f.head + announced f.head) = fs.flatMap Frame.bytes ++ more := by
        rw [← List.append_assoc, ← f.head_length, ← f.payload_length, ← List.length_append,
          List.drop_left]
      rw [hcons, List.length_cons, behindFrames, width_append hne,
        announced_append f.head_length, hcut, ih]

/-- A call that returns a frame leaves nothing read ahead. -/
theorem BytesCodec.decode_item_head {c c' : BytesCodec} (hr : c.raw = false)
    {src r i : Bytes} (h : c.decode src = (.ok (some i), c', r)) : c'.state = .head := by
  have hpayload : ∀ {c : BytesCodec} {n : ℕ} {src : Bytes},
      c.decodePayload n src = (.ok (some i), c', r) → c'.state = .head := by
    intro c n src h
    rw [BytesCodec.decodePayload_eq] at h
    split at h
    · cases h
    · cases h
      rfl
  cases hs : c.state with
  | data n =>
      rw [BytesCodec.decode_data hr hs] at h
      exact hpayload h
  | head =>
      rw [BytesCodec.decode_head hr hs] at h
      split at h
      · cases h
      · split at h
        · cases h
        · exact hpayload h

namespace Reader

/-! ## Framed reading -/

/-- The header that has left the buffer in front of its payload. -/
def ReadAhead (m : ℕ) (state : DecodeState) (head : Bytes) : Prop :=
  match state with
  | .head => head = []
  | .data n => head.length = width head ∧ announced head = n ∧ n ≤ m

structure Split (m : ℕ) (r : Reader) (frames : List (Frame m)) (head : Bytes) : Prop where
  raw_eq : r.codec.raw = false ∧ r.raw = []
  limit_eq : r.codec.maxPacketLength = m
  framed_eq : r.framed = frames.map Frame.payload
  received_eq : r.received = frames.flatMap Frame.bytes ++ (head ++ r.buf)
  ahead : ReadAhead m r.codec.state head

variable {m : ℕ} {r : Reader} {frames : List (Frame m)} {head : Bytes}

theorem split_start (m : ℕ) : Split m (start m) [] [] :=
  ⟨⟨rfl, rfl⟩, rfl, rfl, rfl, rfl⟩

theorem Split.arrive (h : Split m r frames head) (chunk : Bytes) :
    Split m (r.arrive chunk) frames head where
  raw_eq := h.raw_eq
  limit_eq := h.limit_eq
  framed_eq := h.framed_eq
  received_eq := by
    show r.received ++ chunk = _
    rw [h.received_eq]
    simp only [List.append_assoc, Reader.arrive]
  ahead := h.ahead

theorem decode_framed_item (hr : r.codec.raw = false) {item b : Bytes} {c : BytesCodec}
    (hd : r.codec.decode r.buf = (.ok (some item), c, b)) :
    r.decode = { r with codec := c, buf := b, framed := r.framed ++ [item] } := by
  simp only [Reader.decode, hd, hr, Bool.false_eq_true, if_false]

theorem decode_none {b : Bytes} {c : BytesCodec}
    (hd : r.codec.decode r.buf = (.ok none, c, b)) :
    r.decode = { r with codec := c, buf := b } := by
  simp only [Reader.decode, hd]

theorem decode_error {b : Bytes} {c : BytesCodec} {e : IoError}
    (hd : r.codec.decode r.buf = (.error e, c, b)) :
    r.decode = { r with codec := c, buf := b } := by
  simp only [Reader.decode, hd]

/-- Between a header and its payload a call waits or delivers the frame. -/
theorem Split.decode_data (h : Split m r frames head) {n : ℕ} (hs : r.codec.state = .data n) :
    ∃ frames' head', Split m r.decode frames' head' := by
  obtain ⟨⟨hr, hraw⟩, hm, hframed, hrec, hahead⟩ := h
  rw [hs] at hahead
  obtain ⟨hlen, hn, hfit⟩ := hahead
  by_cases hl : r.buf.length < n
  · rw [decode_none (BytesCodec.decode_waiting hr hs hl)]
    refine ⟨frames, head, ⟨hr, hraw⟩, hm, hframed, hrec, ?_⟩
    simp only [hs]
    exact ⟨hlen, hn, hfit⟩
  · rw [decode_framed_item hr (BytesCodec.decode_payload hr hs (Nat.not_lt.mp hl))]
    have htake : (r.buf.take n).length = n := by
      rw [List.length_take]
      omega
    refine ⟨frames ++ [⟨head, r.buf.take n, hlen, htake.trans hn.symm, htake.trans_le hfit⟩],
      [], ⟨hr, hraw⟩, hm, ?_, ?_, rfl⟩
    · simp only [hframed, List.map_append, List.map_cons, List.map_nil]
    · show r.received = _
      rw [hrec, List.flatMap_append, List.flatMap_singleton, Frame.bytes]
      simp only [List.append_assoc, List.nil_append, List.take_append_drop]

/-- In front of a header a call waits for it, rejects it, reads it ahead, or
delivers the whole frame. -/
theorem Split.decode_head (h : Split m r frames head) (hs : r.codec.state = .head) :
    ∃ frames' head', Split m r.decode frames' head' := by
  obtain ⟨⟨hr, hraw⟩, hm, hframed, hrec, hahead⟩ := h
  rw [hs] at hahead
  obtain rfl : head = [] := hahead
  rw [List.nil_append] at hrec
  by_cases hl : r.buf.length < width r.buf
  · rw [decode_none (BytesCodec.decode_short hr hs hl)]
    exact ⟨frames, [], ⟨hr, hraw⟩, hm, hframed, hrec, by simp only [hs]; rfl⟩
  by_cases hbig : announced r.buf > m
  · rw [decode_error (BytesCodec.decode_tooBig hr hs (Nat.not_lt.mp hl)
      (by rw [hm]; exact hbig))]
    exact ⟨frames, [], ⟨hr, hraw⟩, hm, hframed, hrec, by simp only [hs]; rfl⟩
  have hfit : announced r.buf ≤ m := Nat.not_lt.mp hbig
  have hfit' : announced r.buf ≤ r.codec.maxPacketLength := by rw [hm]; exact hfit
  by_cases hn : r.buf.length < width r.buf + announced r.buf
  · -- the header leaves the buffer, its payload is still to come
    rw [decode_none (BytesCodec.decode_unfinished hr hs (Nat.not_lt.mp hl) hfit' hn)]
    refine ⟨frames, r.buf.take (width r.buf), ⟨hr, hraw⟩, hm, hframed, ?_, ?_, ?_, hfit⟩
    · rw [List.take_append_drop]
      exact hrec
    · rw [width_take, List.length_take]
      omega
    · exact announced_take r.buf
  · rw [decode_framed_item hr (BytesCodec.decode_whole hr hs hfit' (Nat.not_lt.mp hn))]
    refine ⟨frames ++ [Frame.first r.buf (Nat.not_lt.mp hn) hfit], [], ⟨hr, hraw⟩, hm,
      ?_, ?_, by simp only [hs]; rfl⟩
    · rw [hframed, List.map_append]
      rfl
    · show r.received = _
      rw [hrec, List.flatMap_append, List.flatMap_singleton, Frame.first_bytes,
        List.nil_append, List.append_assoc, List.take_append_drop]

theorem Split.decode (h : Split m r frames head) :
    ∃ frames' head', Split m r.decode frames' head' := by
  cases hs : r.codec.state with
  | data n => exact h.decode_data hs
  | head => exact h.decode_head hs

/-- What a framed connection has received is at every moment the frames it has
delivered, the header read ahead and the buffer. -/
theorem split_run (m : ℕ) (ops : List ReadOp) :
    ∃ frames head, Split m ((start m).run ops) frames head := by
  induction ops using List.reverseRecOn with
  | nil => exact ⟨[], [], split_start m⟩
  | append_singleton ops op ih =>
      obtain ⟨frames, head, h⟩ := ih
      rw [run_concat]
      cases op with
      | arrive chunk => exact ⟨frames, head, h.arrive chunk⟩
      | decode => exact h.decode

/-! ## Raw reading -/

theorem decode_raw (hr : r.codec.raw = true) :
    r.decode.codec = r.codec ∧ r.decode.framed = r.framed ∧
      r.decode.received = r.received ∧ r.decode.buf = [] ∧
      r.decode.raw.flatten = r.raw.flatten ++ r.buf := by
  have hd := BytesCodec.decode_raw hr r.buf
  cases hb : r.buf with
  | nil =>
      rw [hb] at hd
      rw [decode_none (r := r) (by rw [hb]; exact hd)]
      exact ⟨rfl, rfl, rfl, rfl, (List.append_nil _).symm⟩
  | cons b bs =>
      rw [hb] at hd
      have hdecode : r.decode =
          { r with codec := r.codec, buf := [], raw := r.raw ++ [b :: bs] } := by
        simp only [Reader.decode, hb, hd, hr]
        rfl
      rw [hdecode]
      refine ⟨rfl, rfl, rfl, rfl, ?_⟩
      rw [List.flatten_append, List.flatten_singleton]

/-- Raw reading passes on what was in the buffer and what arrives, and nothing
else. -/
theorem raw_run (hr : r.codec.raw = true) (ops : List ReadOp) :
    (r.run ops).codec = r.codec ∧ (r.run ops).framed = r.framed ∧
      ∃ more, (r.run ops).received = r.received ++ more ∧
        (r.run ops).raw.flatten ++ (r.run ops).buf = r.raw.flatten ++ (r.buf ++ more) := by
  induction ops using List.reverseRecOn with
  | nil => exact ⟨rfl, rfl, [], by simp [run]⟩
  | append_singleton ops op ih =>
      obtain ⟨hcodec, hframed, more, hrec, hout⟩ := ih
      rw [run_concat]
      cases op with
      | arrive chunk =>
          refine ⟨hcodec, hframed, more ++ chunk, ?_, ?_⟩
          · show (r.run ops).received ++ chunk = _
            rw [hrec, List.append_assoc]
          · show (r.run ops).raw.flatten ++ ((r.run ops).buf ++ chunk) = _
            rw [← List.append_assoc, hout]
            simp only [List.append_assoc]
      | decode =>
          obtain ⟨hc, hf, hre, hbuf, hraw⟩ := decode_raw (r := r.run ops) (by rw [hcodec, hr])
          refine ⟨hc.trans hcodec, hf.trans hframed, more, hre.trans hrec, ?_⟩
          show (r.run ops).decode.raw.flatten ++ (r.run ops).decode.buf = _
          rw [hraw, hbuf, List.append_nil, hout]

/-! ## The switch -/

/-- What `decode` returns after the switch, and the bytes it has still to
return, is the stream behind the delivered frames less the header that was read
ahead. -/
theorem setRaw_run (before after : List ReadOp) :
    ∃ head, ReadAhead m ((start m).run before).codec.state head ∧
      behindFrames ((start m).run before).framed.length
          (((start m).run before).setRaw.run after).received =
        head ++ ((((start m).run before).setRaw.run after).raw.flatten ++
          (((start m).run before).setRaw.run after).buf) := by
  obtain ⟨frames, head, h⟩ := split_run m before
  obtain ⟨-, -, more, hrec, hout⟩ := raw_run (r := ((start m).run before).setRaw) rfl after
  have hraw : ((start m).run before).setRaw.raw = [] := h.raw_eq.2
  have hbuf : ((start m).run before).setRaw.buf = ((start m).run before).buf := rfl
  have hrec' : ((start m).run before).setRaw.received = ((start m).run before).received := rfl
  refine ⟨head, h.ahead, ?_⟩
  rw [hrec, hout, hraw, hbuf, hrec', h.received_eq, h.framed_eq, List.length_map,
    List.append_assoc, behindFrames_frames, List.append_assoc]
  rfl

/-- **Which switches conserve bytes.** Let any chunks arrive and any calls of
`decode` be made before and after `set_raw`, the last call when all chunks are
in. The raw calls return the stream behind the delivered frames if and only if
the decoder was not between a header and its payload at the switch. -/
theorem setRaw_conserves_iff (m : ℕ) (before after : List ReadOp) :
    (((start m).run before).setRaw.run (after ++ [.decode])).raw.flatten =
        behindFrames ((start m).run before).framed.length
          (((start m).run before).setRaw.run (after ++ [.decode])).received ↔
      ((start m).run before).codec.state = .head := by
  obtain ⟨head, hahead, hbehind⟩ := setRaw_run (m := m) before (after ++ [.decode])
  have hcodec := (raw_run (r := ((start m).run before).setRaw) rfl after).1
  have hempty : (((start m).run before).setRaw.run (after ++ [.decode])).buf = [] := by
    rw [run_concat]
    exact (decode_raw (by rw [hcodec]; rfl)).2.2.2.1
  rw [hbehind, hempty, List.append_nil]
  constructor
  · intro hsame
    cases hs : ((start m).run before).codec.state with
    | head => rfl
    | data n =>
        rw [hs] at hahead
        have hpos := width_pos head
        rw [← hahead.1] at hpos
        exact absurd (List.append_left_eq_self.mp hsame.symm) (List.ne_nil_of_length_pos hpos)
  · intro hs
    rw [hs] at hahead
    rw [show head = [] from hahead, List.nil_append]

/-- A frame of two bytes of which one is there when the reader gives up on it:
its header never comes out. -/
theorem setRaw_loses_header :
    (((start (2 ^ 64 - 1)).run [.arrive [8, 1], .decode]).setRaw.run
        [.arrive [2], .decode]).raw.flatten = [1, 2] ∧
      behindFrames ((start (2 ^ 64 - 1)).run [.arrive [8, 1], .decode]).framed.length
        (((start (2 ^ 64 - 1)).run [.arrive [8, 1], .decode]).setRaw.run
          [.arrive [2], .decode]).received = [8, 1, 2] := by
  decide

end Reader

end RustdeskServer.Codec
