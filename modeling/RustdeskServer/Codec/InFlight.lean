import RustdeskServer.Codec.Grammar

/-!
# Frames in flight

One direction of a reliable connection: the sender appends frames to the wire,
bytes move from the wire to the receiver's buffer in any portions, and the
receiver's decoder takes frames out of the buffer. `InFlight` is the invariant:
the receiver's partial decoding, its buffer and the wire hold together exactly
the frames that were written and have not been returned.
-/

namespace RustdeskServer.Codec

open RustdeskServer.Framework

/-- The bytes behind a decoder in this state are these frames; in state `data`
the header of the first one is gone already. -/
def Holds : DecodeState → List Bytes → Bytes → Prop
  | .head, fs, bytes => bytes = fs.flatMap BytesCodec.frameBytes
  | .data n, fs, bytes => ∃ d ds, fs = d :: ds ∧ d.length = n ∧
      bytes = d ++ ds.flatMap BytesCodec.frameBytes

/-- Of the frames `written`, the receiver has taken the first `taken`. -/
structure InFlight (written : List Bytes) (taken : ℕ) (codec : BytesCodec)
    (buf wire : Bytes) : Prop where
  raw_eq : codec.raw = false
  limit_eq : codec.maxPacketLength = 2 ^ 64 - 1
  taken_le : taken ≤ written.length
  holds : Holds codec.state (written.drop taken) (buf ++ wire)

namespace InFlight

open BytesCodec

variable {written : List Bytes} {taken : ℕ} {codec : BytesCodec} {buf wire : Bytes}

theorem start : InFlight [] 0 BytesCodec.new [] [] :=
  ⟨rfl, rfl, Nat.le_refl 0, rfl⟩

theorem write (h : InFlight written taken codec buf wire) (d : Bytes) :
    InFlight (written ++ [d]) taken codec buf (wire ++ frameBytes d) := by
  refine ⟨h.raw_eq, h.limit_eq, ?_, ?_⟩
  · rw [List.length_append]
    exact Nat.le_add_right_of_le h.taken_le
  · rw [List.drop_append_of_le_length h.taken_le, ← List.append_assoc]
    have hholds := h.holds
    cases hs : codec.state with
    | head =>
        rw [hs] at hholds
        change buf ++ wire = _ at hholds
        show buf ++ wire ++ frameBytes d = _
        rw [hholds, List.flatMap_append, List.flatMap_singleton]
    | data n =>
        rw [hs] at hholds
        obtain ⟨e, es, hrest, hlen, hbytes⟩ := hholds
        refine ⟨e, es ++ [d], by rw [hrest, List.cons_append], hlen, ?_⟩
        rw [hbytes, List.flatMap_append, List.flatMap_singleton, List.append_assoc]

theorem arrive (h : InFlight written taken codec buf wire) (n : ℕ) :
    InFlight written taken codec (buf ++ wire.take n) (wire.drop n) := by
  refine ⟨h.raw_eq, h.limit_eq, h.taken_le, ?_⟩
  rw [List.append_assoc, List.take_append_drop]
  exact h.holds

/-- The next frame to be taken. -/
theorem drop_cons {d : Bytes} {ds : List Bytes} (h : written.drop taken = d :: ds) :
    written[taken]? = some d ∧ written.drop (taken + 1) = ds ∧ taken + 1 ≤ written.length := by
  have hget : (written.drop taken)[0]? = some d := by rw [h]; rfl
  rw [List.getElem?_drop, Nat.add_zero] at hget
  refine ⟨hget, ?_, (List.getElem?_eq_some_iff.mp hget).1⟩
  rw [← List.drop_drop, h]
  rfl

/-- One call of `decode` either asks for more, and everything is still there, or
returns the next frame. -/
def Call (written : List Bytes) (taken : ℕ) (codec : BytesCodec) (buf wire : Bytes) : Prop :=
  (∃ c b, codec.decode buf = (.ok none, c, b) ∧ InFlight written taken c b wire ∧
    (wire = [] → taken = written.length)) ∨
  ∃ d c b, codec.decode buf = (.ok (some d), c, b) ∧ written[taken]? = some d ∧
    InFlight written (taken + 1) c b wire

theorem decode_data (h : InFlight written taken codec buf wire) {n : ℕ}
    (hs : codec.state = .data n) : Call written taken codec buf wire := by
  obtain ⟨hr, hlimit, htaken, hholds⟩ := h
  rw [hs] at hholds
  obtain ⟨d, ds, hrest, hn, hbytes⟩ := hholds
  by_cases hshort : buf.length < n
  · refine Or.inl ⟨codec, buf, decode_waiting hr hs hshort, ⟨hr, hlimit, htaken, ?_⟩, ?_⟩
    · rw [hs]
      exact ⟨d, ds, hrest, hn, hbytes⟩
    · rintro rfl
      have hlen := congrArg List.length hbytes
      rw [List.append_nil, List.length_append] at hlen
      omega
  · obtain ⟨hget, hdrop, hle⟩ := drop_cons hrest
    have hcall := decode_payload hr hs (Nat.not_lt.mp hshort)
    obtain ⟨q, rfl⟩ : d <+: buf :=
      List.prefix_of_prefix_length_le ⟨_, rfl⟩ ⟨wire, hbytes⟩ (by omega)
    rw [← hn, List.take_left, List.drop_left] at hcall
    refine Or.inr ⟨d, _, _, hcall, hget, ⟨hr, hlimit, hle, ?_⟩⟩
    rw [hdrop]
    rw [List.append_assoc] at hbytes
    exact List.append_cancel_left hbytes

theorem decode_head (h : InFlight written taken codec buf wire)
    (hlen : ∀ d ∈ written, d.length ≤ 0x3FFFFFFF) (hs : codec.state = .head) :
    Call written taken codec buf wire := by
  obtain ⟨hr, hlimit, htaken, hholds⟩ := h
  rw [hs] at hholds
  change buf ++ wire = _ at hholds
  cases hrest : written.drop taken with
  | nil =>
      rw [hrest] at hholds
      obtain ⟨rfl, rfl⟩ := List.append_eq_nil_iff.mp hholds
      refine Or.inl ⟨codec, [], decode_short hr hs (width_pos []),
        ⟨hr, hlimit, htaken, ?_⟩, fun _ => ?_⟩
      · rw [hs, hrest]
        rfl
      · exact Nat.le_antisymm htaken (List.drop_eq_nil_iff.mp hrest)
  | cons d ds =>
      obtain ⟨hget, hdrop, hle⟩ := drop_cons hrest
      have hd := hlen d (List.mem_of_getElem? hget)
      have hfits : d.length ≤ codec.maxPacketLength := by
        rw [hlimit]
        exact hd.trans (by norm_num)
      rw [hrest, List.flatMap_cons] at hholds
      -- with nothing on the wire the whole frame is in the buffer
      have hpart : wire = [] → ¬ buf.length < (frameBytes d).length := by
        rintro rfl hl
        have hlen := congrArg List.length hholds
        rw [List.append_nil, List.length_append] at hlen
        omega
      rcases decode_frame_cases hr hs hd hfits hholds with
        ⟨hl, hcall⟩ | ⟨q, rfl, hl, hcall⟩ | ⟨q, rfl, hcall⟩
      · refine Or.inl ⟨codec, buf, hcall, ⟨hr, hlimit, htaken, ?_⟩, fun hw => ?_⟩
        · rw [hs, hrest]
          exact hholds
        · refine absurd ?_ (hpart hw)
          rw [frameBytes_length]
          omega
      · refine Or.inl ⟨_, q, hcall, ⟨hr, hlimit, htaken, d, ds, hrest, rfl, ?_⟩, fun hw => ?_⟩
        · rw [frameBytes, List.append_assoc, List.append_assoc] at hholds
          exact List.append_cancel_left hholds
        · refine absurd ?_ (hpart hw)
          rw [frameBytes_length, List.length_append]
          omega
      · refine Or.inr ⟨d, codec, q, hcall, hget, ⟨hr, hlimit, hle, ?_⟩⟩
        rw [hs, hdrop]
        rw [List.append_assoc] at hholds
        exact List.append_cancel_left hholds

theorem decode (h : InFlight written taken codec buf wire)
    (hlen : ∀ d ∈ written, d.length ≤ 0x3FFFFFFF) : Call written taken codec buf wire := by
  cases hs : codec.state with
  | data n => exact h.decode_data hs
  | head => exact h.decode_head hlen hs

end InFlight

end RustdeskServer.Codec
