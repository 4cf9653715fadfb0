import RustdeskServer.Stream.Nonces

/-!
# A send the codec refuses

`send_raw` moves the send counter before the codec decides. A message that is
too long once sealed is refused and never reaches the peer, but it has used a
number: from then on the sender's numbers run ahead of the receiver's, and the
next message that does fit fails to open. The stream survives refused messages
only at the end of the sequence (`delivered_iff`).
-/

namespace RustdeskServer.Stream

open RustdeskServer.Framework RustdeskServer.Codec

variable {Key : Type}

/-- Secretbox as the stream relies on it, for the nonces the stream makes. -/
structure SecretBox.Correct (box : SecretBox Key) (key : Key) : Prop where
  open_seal : ∀ m i,
    box.openBox (box.sealBox m (getNonce i) key) (getNonce i) key = some m
  open_other : ∀ m i j, i ≠ j →
    box.openBox (box.sealBox m (getNonce i) key) (getNonce j) key = none
  length_seal : ∀ m i, (box.sealBox m (getNonce i) key).length = m.length + 16

/-- Pass messages to `send_raw` one after another. -/
def sendAll (box : SecretBox Key) : FramedStream Key → List Bytes →
    List (Except IoError Bytes)
  | _, [] => []
  | s, m :: ms => (s.sendRaw box m).1 :: sendAll box (s.sendRaw box m).2 ms

/-- The bytes written to the connection: refused messages write nothing. -/
def wire (rs : List (Except IoError Bytes)) : Bytes :=
  (rs.map fun
    | .ok out => out
    | .error _ => []).flatten

/-- The messages whose `send_raw` returned `Ok`. -/
def accepted (ms : List Bytes) (rs : List (Except IoError Bytes)) : List Bytes :=
  ((ms.zip rs).filter fun p => p.2.isOk).map Prod.fst

@[simp] theorem wire_ok (out : Bytes) (rs : List (Except IoError Bytes)) :
    wire (.ok out :: rs) = out ++ wire rs := rfl

@[simp] theorem wire_error (e : IoError) (rs : List (Except IoError Bytes)) :
    wire (.error e :: rs) = wire rs := rfl

@[simp] theorem accepted_ok (m : Bytes) (ms : List Bytes) (out : Bytes)
    (rs : List (Except IoError Bytes)) :
    accepted (m :: ms) (.ok out :: rs) = m :: accepted ms rs := rfl

@[simp] theorem accepted_error (m : Bytes) (ms : List Bytes) (e : IoError)
    (rs : List (Except IoError Bytes)) :
    accepted (m :: ms) (.error e :: rs) = accepted ms rs := rfl

/-- The sealed message is within the codec's 30 bits. -/
def Fits (m : Bytes) : Prop := m.length + 16 ≤ 0x3FFFFFFF

instance (m : Bytes) : Decidable (Fits m) := by
  unfold Fits
  infer_instance

/-- A message that fits comes after messages that fit only. -/
def RefusedLast (ms : List Bytes) : Prop := ms.Pairwise fun m m' => Fits m' → Fits m

/-- A stream that has sent `sent` and received `received` messages. -/
def streamAt (key : Key) (sent received : ℕ) : FramedStream Key :=
  (BytesCodec.new, some (key, UInt64.ofNat sent, UInt64.ofNat received))

theorem setKey_eq (key : Key) : FramedStream.fromStream.setKey key = streamAt key 0 0 :=
  rfl

theorem putHead_none {n : ℕ} (h : 0x3FFFFFFF < n) : BytesCodec.putHead n = none := by
  unfold BytesCodec.putHead
  rw [if_neg (by omega), if_neg (by omega), if_neg (by omega), if_neg (by omega)]

section

variable {box : SecretBox Key} {key : Key} (hbox : box.Correct key)

include hbox

theorem sendRaw_fits {m : Bytes} (hm : Fits m) (i r : ℕ) :
    ∃ hd, (streamAt key i r).sendRaw box m =
        (.ok (hd ++ box.sealBox m (getNonce (UInt64.ofNat (i + 1))) key),
          streamAt key (i + 1) r) ∧
      ∀ rest, BytesCodec.header (hd ++ rest) =
        some (hd.length, (box.sealBox m (getNonce (UInt64.ofNat (i + 1))) key).length) := by
  have hlen : (box.sealBox m (getNonce (UInt64.ofNat (i + 1))) key).length ≤ 0x3FFFFFFF := by
    rw [hbox.length_seal]
    exact hm
  obtain ⟨hd, hput, hhd⟩ := BytesCodec.header_putHead hlen
  refine ⟨hd, ?_, hhd⟩
  simp only [FramedStream.sendRaw, streamAt, FramedStream.sealMsg, BytesCodec.encode,
    BytesCodec.new, ofNat_succ, hput, List.nil_append, Bool.false_eq_true, if_false]

theorem sendRaw_refused {m : Bytes} (hm : ¬ Fits m) (i r : ℕ) :
    (streamAt key i r).sendRaw box m =
      (.error BytesCodec.overflow, streamAt key (i + 1) r) := by
  have hlen : 0x3FFFFFFF < (box.sealBox m (getNonce (UInt64.ofNat (i + 1))) key).length := by
    rw [hbox.length_seal]
    exact Nat.lt_of_not_le hm
  simp only [FramedStream.sendRaw, streamAt, FramedStream.sealMsg, BytesCodec.encode,
    BytesCodec.new, ofNat_succ, putHead_none hlen, Bool.false_eq_true, if_false]

/-- A message that fits puts one frame on the wire. -/
theorem wire_fits {m : Bytes} (hm : Fits m) (i r : ℕ) (ms : List Bytes) :
    ∃ hd, wire (sendAll box (streamAt key i r) (m :: ms)) =
        hd ++ box.sealBox m (getNonce (UInt64.ofNat (i + 1))) key ++
          wire (sendAll box (streamAt key (i + 1) r) ms) ∧
      ∀ rest, BytesCodec.header (hd ++ rest) =
        some (hd.length, (box.sealBox m (getNonce (UInt64.ofNat (i + 1))) key).length) := by
  obtain ⟨hd, hsend, hhd⟩ := sendRaw_fits hbox hm i r
  refine ⟨hd, ?_, hhd⟩
  simp [sendAll, hsend]

/-- A refused message leaves a gap in the numbers and nothing else. -/
theorem wire_gap {m : Bytes} (hm : ¬ Fits m) (i r : ℕ) (ms : List Bytes) :
    wire (sendAll box (streamAt key i r) (m :: ms)) =
      wire (sendAll box (streamAt key (i + 1) r) ms) := by
  simp [sendAll, sendRaw_refused hbox hm]

theorem accepted_eq : ∀ (ms : List Bytes) (i r : ℕ),
    accepted ms (sendAll box (streamAt key i r) ms) = ms.filter fun m => decide (Fits m) := by
  intro ms
  induction ms with
  | nil => intro i r; rfl
  | cons m ms ih =>
      intro i r
      by_cases hm : Fits m
      · obtain ⟨hd, hsend, -⟩ := sendRaw_fits hbox hm i r
        simp [sendAll, hsend, hm, ih (i + 1) r]
      · simp [sendAll, sendRaw_refused hbox hm, hm, ih (i + 1) r]

/-- A frame sealed under number `i + 1`, seen by a receiver that expects `j + 1`. -/
theorem decode_sealed {m hd : Bytes} {i : ℕ} (s j : ℕ) (hm : Fits m)
    (hhd : ∀ rest, BytesCodec.header (hd ++ rest) =
      some (hd.length, (box.sealBox m (getNonce (UInt64.ofNat (i + 1))) key).length))
    (rest : Bytes) : BytesCodec.decoder.decode (streamAt key s j).1
        (hd ++ box.sealBox m (getNonce (UInt64.ofNat (i + 1))) key ++ rest) =
      (.ok (some (box.sealBox m (getNonce (UInt64.ofNat (i + 1))) key)),
        BytesCodec.new, rest) := by
  refine BytesCodec.decode_frame (c := BytesCodec.new) rfl rfl ?_ hhd rest
  rw [hbox.length_seal]
  exact le_trans hm (by norm_num [BytesCodec.new])

/-- Once the sender is ahead, the first message that gets through fails. -/
theorem drain_behind {j : ℕ} : ∀ (ms : List Bytes) (i r s : ℕ), j < i →
    i + ms.length < 2 ^ 64 → (∃ m ∈ ms, Fits m) →
      ((FramedStream.receiver box).drain (streamAt key s j)
        (wire (sendAll box (streamAt key i r) ms))).error = some FramedStream.decryptionError := by
  intro ms
  induction ms with
  | nil => rintro i r s - - ⟨m, hm, -⟩; cases hm
  | cons m ms ih =>
      rintro i r s hij hlen ⟨m', hmem, hfit⟩
      rw [List.length_cons] at hlen
      by_cases hm : Fits m
      · obtain ⟨hd, hwire, hhd⟩ := wire_fits hbox hm i r ms
        have hne : UInt64.ofNat (i + 1) ≠ UInt64.ofNat (j + 1) := fun heq => by
          have := ofNat_succ_inj (by omega) (by omega) heq
          omega
        have hclosed : FramedStream.openFrame box (streamAt key s j).2
            (box.sealBox m (getNonce (UInt64.ofNat (i + 1))) key) =
              (.error FramedStream.decryptionError, (streamAt key s (j + 1)).2) := by
          simp only [FramedStream.openFrame, streamAt, ofNat_succ,
            hbox.open_other m _ _ hne]
        rw [hwire]
        exact congrArg Decoder.Drained.error (Decoder.drain_fail
          (Decoder.decodeThen_refuse (decode_sealed hbox s j hm hhd _) hclosed))
      · rw [wire_gap hbox hm]
        rcases List.mem_cons.mp hmem with rfl | hmem'
        · exact absurd hfit hm
        · exact ih (i + 1) r s (by omega) (by omega) ⟨m', hmem', hfit⟩

theorem wire_refused : ∀ (ms : List Bytes) (i r : ℕ), (∀ m ∈ ms, ¬ Fits m) →
    wire (sendAll box (streamAt key i r) ms) = [] := by
  intro ms
  induction ms with
  | nil => intro i r _; rfl
  | cons m ms ih =>
      intro i r h
      rw [wire_gap hbox (h m List.mem_cons_self)]
      apply ih
      intro m' hm'
      exact h m' (List.mem_cons_of_mem m hm')

/-- In step with each other, sender and receiver lose nothing exactly when the
refused messages come last. -/
theorem drain_in_step : ∀ (ms : List Bytes) (i r s : ℕ), i + ms.length < 2 ^ 64 →
    (((FramedStream.receiver box).drain (streamAt key s i)
          (wire (sendAll box (streamAt key i r) ms))).items =
        ms.filter (fun m => decide (Fits m)) ∧
      ((FramedStream.receiver box).drain (streamAt key s i)
          (wire (sendAll box (streamAt key i r) ms))).error = none ↔
      RefusedLast ms) := by
  intro ms
  have hempty : ∀ s i, (FramedStream.receiver box).drain (streamAt key s i) [] =
      ⟨[], none, streamAt key s i, []⟩ := fun _ _ => Decoder.drain_more rfl
  induction ms with
  | nil =>
      intro i r s _
      rw [show wire (sendAll box (streamAt key i r) []) = [] from rfl, hempty]
      simp [RefusedLast]
  | cons m ms ih =>
      intro i r s hlen
      rw [List.length_cons] at hlen
      by_cases hm : Fits m
      · obtain ⟨hd, hwire, hhd⟩ := wire_fits hbox hm i r ms
        have hopen : FramedStream.openFrame box (streamAt key s i).2
            (box.sealBox m (getNonce (UInt64.ofNat (i + 1))) key) =
              (.ok m, (streamAt key s (i + 1)).2) := by
          simp only [FramedStream.openFrame, streamAt, ofNat_succ, hbox.open_seal]
        have hone : (FramedStream.receiver box).drain (streamAt key s i)
            (hd ++ box.sealBox m (getNonce (UInt64.ofNat (i + 1))) key ++
              wire (sendAll box (streamAt key (i + 1) r) ms)) =
            ((FramedStream.receiver box).drain (streamAt key s (i + 1))
              (wire (sendAll box (streamAt key (i + 1) r) ms))).prepend [m] :=
          Decoder.drain_item (Decoder.decodeThen_item (decode_sealed hbox s i hm hhd _) hopen)
        rw [hwire, hone]
        have hrest := ih (i + 1) r s (by omega)
        simp only [Decoder.prepend_items, Decoder.prepend_error, RefusedLast,
          List.pairwise_cons, hm, implies_true, true_and, List.singleton_append,
          List.filter_cons, decide_true, if_true, List.cons.injEq]
        exact hrest
      · rw [wire_gap hbox hm]
        by_cases hex : ∃ m' ∈ ms, Fits m'
        · -- the receiver is behind for good
          have herr := drain_behind hbox (j := i) ms (i + 1) r s (by omega) (by omega) hex
          rw [herr]
          obtain ⟨m', hm', hfit⟩ := hex
          constructor
          · rintro ⟨-, h⟩
            cases h
          · intro h
            exact absurd ((List.pairwise_cons.mp h).1 m' hm' hfit) hm
        · have hall : ∀ m' ∈ ms, ¬ Fits m' := fun m' hm' hfit => hex ⟨m', hm', hfit⟩
          rw [wire_refused hbox ms _ r hall, hempty]
          have hpair : RefusedLast (m :: ms) :=
            List.pairwise_of_forall_mem_list fun a _ b hb hfit => by
              rcases List.mem_cons.mp hb with rfl | hb'
              · exact absurd hfit hm
              · exact absurd hfit (hall b hb')
          refine ⟨fun _ => hpair, fun _ => ⟨?_, rfl⟩⟩
          symm
          apply List.filter_eq_nil_iff.mpr
          intro a ha
          rcases List.mem_cons.mp ha with rfl | ha'
          · simpa using hm
          · simpa using hall a ha'

end

/-- **Refused messages, exactly.** Over a reliable connection cut in any way,
the accepted messages are all delivered, in order and without an error, if and
only if every message the codec refuses comes after every one it accepts. -/
theorem delivered_iff (box : SecretBox Key) (key : Key) (hbox : box.Correct key)
    (ms : List Bytes) (hlen : ms.length < 2 ^ 64) (chunks : List Bytes)
    (hchunks : chunks.flatten =
      wire (sendAll box (FramedStream.fromStream.setKey key) ms)) :
    (((FramedStream.receiver box).feedAll (FramedStream.fromStream.setKey key) []
          chunks).items =
        accepted ms (sendAll box (FramedStream.fromStream.setKey key) ms) ∧
      ((FramedStream.receiver box).feedAll (FramedStream.fromStream.setKey key) []
          chunks).error = none) ↔
      RefusedLast ms := by
  have hfresh : (FramedStream.receiver box).Settled (streamAt key 0 0) [] := rfl
  rw [setKey_eq] at hchunks ⊢
  rw [Decoder.feedAll_eq_drain (FramedStream.receiver_resumable box) chunks rfl hfresh,
    List.nil_append, hchunks, accepted_eq hbox]
  exact drain_in_step hbox ms 0 0 0 (by omega)

theorem tagBox_correct : tagBox.Correct () where
  open_seal m i := by rw [tagBox_open, if_pos rfl]
  open_other m i j hij := by rw [tagBox_open, if_neg hij]
  length_seal m i := by
    show ((getNonce i).take 16 ++ m).length = m.length + 16
    rw [List.length_append, show ((getNonce i).take 16).length = 16 from rfl, Nat.add_comm]

/-- Two short messages in one chunk. -/
theorem delivered_iff_short :
    tagBox.Correct () ∧ ([[1], [2]] : List Bytes).length < 2 ^ 64 ∧
      ((((FramedStream.receiver tagBox).feedAll (FramedStream.fromStream.setKey ()) []
            [wire (sendAll tagBox (FramedStream.fromStream.setKey ()) [[1], [2]])]).items =
          accepted [[1], [2]]
            (sendAll tagBox (FramedStream.fromStream.setKey ()) [[1], [2]]) ∧
        ((FramedStream.receiver tagBox).feedAll (FramedStream.fromStream.setKey ()) []
            [wire (sendAll tagBox (FramedStream.fromStream.setKey ()) [[1], [2]])]).error =
          none) ↔ RefusedLast [[1], [2]]) :=
  ⟨tagBox_correct, by decide,
    delivered_iff tagBox () tagBox_correct [[1], [2]] (by decide) _ (by simp)⟩

/-- A message one byte too long in front of a short one: the short one is
accepted by `send_raw` and lost, whatever the chunks. -/
theorem accepted_message_lost :
    accepted [List.replicate 0x3FFFFFF0 0, [1]]
        (sendAll tagBox (FramedStream.fromStream.setKey ())
          [List.replicate 0x3FFFFFF0 0, [1]]) = [[1]] ∧
      ∀ chunks : List Bytes, chunks.flatten =
          wire (sendAll tagBox (FramedStream.fromStream.setKey ())
            [List.replicate 0x3FFFFFF0 0, [1]]) →
        ((FramedStream.receiver tagBox).feedAll (FramedStream.fromStream.setKey ()) []
          chunks).error = some FramedStream.decryptionError := by
  have hlost : ∀ big : Bytes, ¬ Fits big →
      accepted [big, [1]] (sendAll tagBox (streamAt () 0 0) [big, [1]]) = [[1]] ∧
      ∀ chunks : List Bytes,
        chunks.flatten = wire (sendAll tagBox (streamAt () 0 0) [big, [1]]) →
        ((FramedStream.receiver tagBox).feedAll (streamAt () 0 0) [] chunks).error =
          some FramedStream.decryptionError := by
    intro big hbig
    have hone : Fits [1] := by decide
    refine ⟨by rw [accepted_eq tagBox_correct]; simp [hbig, hone], ?_⟩
    intro chunks hchunks
    have hfresh : (FramedStream.receiver tagBox).Settled (streamAt () 0 0) [] := rfl
    rw [Decoder.feedAll_eq_drain (FramedStream.receiver_resumable tagBox) chunks rfl hfresh,
      List.nil_append, hchunks, wire_gap tagBox_correct hbig]
    exact drain_behind tagBox_correct [[1]] 1 0 0 (by omega) (by decide)
      ⟨[1], List.mem_singleton_self _, hone⟩
  refine hlost (List.replicate 0x3FFFFFF0 0) ?_
  unfold Fits
  rw [List.length_replicate]
  omega

end RustdeskServer.Stream
