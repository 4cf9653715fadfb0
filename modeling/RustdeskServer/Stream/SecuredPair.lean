import RustdeskServer.Codec.InFlight
import RustdeskServer.Stream.Authenticity
import RustdeskServer.Stream.RejectedSend

/-!
# A secured stream over a reliable connection

Two endpoints and the bytes in flight in each direction. Any endpoint may send,
bytes may arrive in any portions, and `next` may be called at any time: a call
that finds no frame is a pending `next`, which may be dropped and repeated.
Each endpoint calls `set_key` once, at position `pos` of the frames it sends:
the first `pos` messages of a direction are plain frames, the others sealed.

The counters of the two endpoints are never compared with each other. They stay
in step because each is determined by a position in the frame sequence
(`Keyed`), and the bytes in flight are the frames between the two positions.
-/

namespace RustdeskServer.Stream

open RustdeskServer.Framework RustdeskServer.Codec

variable {Key : Type}

/-- An endpoint: the stream, its read buffer, the messages passed to `send_raw`
and what `next` returned. -/
structure Party (Key : Type) where
  stream : FramedStream Key
  buf : Bytes
  passed : List Bytes
  results : List (Except IoError Bytes)

namespace Party

def start : Party Key := ⟨FramedStream.fromStream, [], [], []⟩

def setKey (p : Party Key) (key : Key) : Party Key :=
  { p with stream := p.stream.setKey key }

def send (box : SecretBox Key) (p : Party Key) (msg : Bytes) : Party Key :=
  { p with stream := (p.stream.sendRaw box msg).2, passed := p.passed ++ [msg] }

/-- What a `send_raw` writes to the connection. -/
def written (box : SecretBox Key) (p : Party Key) (msg : Bytes) : Bytes :=
  match (p.stream.sendRaw box msg).1 with
  | .ok out => out
  | .error _ => []

/-- One poll of `next`. If it is pending, what has been decoded so far stays in
the codec, whether the call is kept or dropped. -/
def next (box : SecretBox Key) (p : Party Key) : Party Key :=
  match (FramedStream.receiver box).decode p.stream p.buf with
  | (.ok none, stream, buf) => { p with stream, buf }
  | (.ok (some msg), stream, buf) => { p with stream, buf, results := p.results ++ [.ok msg] }
  | (.error e, stream, buf) => { p with stream, buf, results := p.results ++ [.error e] }

end Party

/-- The endpoints, and the bytes on their way to each of them. -/
structure Pair (Key : Type) where
  party : Side → Party Key
  wire : Side → Bytes

inductive PairAction where
  | setKey (side : Side)
  | send (side : Side) (msg : Bytes)
  | arrive (side : Side) (n : ℕ)
  | next (side : Side)

namespace Pair

def start : Pair Key := ⟨fun _ => Party.start, fun _ => []⟩

def setParty (c : Pair Key) (side : Side) (p : Party Key) : Pair Key :=
  { c with party := Function.update c.party side p }

def step (box : SecretBox Key) (key : Key) (c : Pair Key) : PairAction → Pair Key
  | .setKey side => c.setParty side ((c.party side).setKey key)
  | .send side msg =>
      { party := Function.update c.party side ((c.party side).send box msg)
        wire := Function.update c.wire side.other
          (c.wire side.other ++ (c.party side).written box msg) }
  | .arrive side n =>
      { party := Function.update c.party side
          { c.party side with buf := (c.party side).buf ++ (c.wire side).take n }
        wire := Function.update c.wire side ((c.wire side).drop n) }
  | .next side => c.setParty side ((c.party side).next box)

def run (box : SecretBox Key) (key : Key) (acts : List PairAction) : Pair Key :=
  acts.foldl (step box key) start

end Pair

/-! ## The runs under study -/

/-- The calls: `set_key` once and at the agreed position of both directions,
messages that fit into a frame once sealed, fewer than `2^64` of them. -/
def Agreed (pos : Side → ℕ) (c : Pair Key) : PairAction → Prop
  | .setKey side => (c.party side).stream.2 = none ∧
      (c.party side).passed.length = pos side ∧
      (c.party side).results.length = pos side.other
  | .send side msg => Fits msg ∧ (c.party side).passed.length + 1 < 2 ^ 64
  | .arrive _ _ => True
  | .next _ => True

instance [DecidableEq Key] (pos : Side → ℕ) (c : Pair Key) :
    (act : PairAction) → Decidable (Agreed pos c act)
  | .setKey side => inferInstanceAs (Decidable ((c.party side).stream.2 = none ∧
      (c.party side).passed.length = pos side ∧
      (c.party side).results.length = pos side.other))
  | .send side msg =>
      inferInstanceAs (Decidable (Fits msg ∧ (c.party side).passed.length + 1 < 2 ^ 64))
  | .arrive _ _ => isTrue trivial
  | .next _ => isTrue trivial

/-- No endpoint without a key is past the position of its `set_key`. -/
def Within (pos : Side → ℕ) (c : Pair Key) : Prop :=
  ∀ side, (c.party side).stream.2 = none →
    (c.party side).passed.length ≤ pos side ∧
      (c.party side).results.length ≤ pos side.other

def Allowed (box : SecretBox Key) (key : Key) (pos : Side → ℕ) (c : Pair Key)
    (act : PairAction) : Prop :=
  Agreed pos c act ∧ Within pos (c.step box key act)

/-- What the stream relies on: opening undoes sealing under the same number,
and sealing adds 16 bytes. -/
structure SecretBox.Inverse (box : SecretBox Key) (key : Key) : Prop where
  open_seal : ∀ m i,
    box.openBox (box.sealBox m (getNonce i) key) (getNonce i) key = some m
  length_seal : ∀ m i, (box.sealBox m (getNonce i) key).length = m.length + 16

theorem SecretBox.Correct.inverse {box : SecretBox Key} {key : Key}
    (h : box.Correct key) : box.Inverse key :=
  ⟨h.open_seal, h.length_seal⟩

/-! ## The frames of a direction -/

/-- The payload of the `i`-th frame, if the key is set at position `p`. -/
def payloadAt (box : SecretBox Key) (key : Key) (p i : ℕ) (m : Bytes) : Bytes :=
  if i < p then m else box.sealBox m (getNonce (UInt64.ofNat (i + 1 - p))) key

def payloads (box : SecretBox Key) (key : Key) (p : ℕ) (ms : List Bytes) : List Bytes :=
  ms.mapIdx (payloadAt box key p)

section

variable {box : SecretBox Key} {key : Key}

theorem payloads_concat (p : ℕ) (ms : List Bytes) (m : Bytes) :
    payloads box key p (ms ++ [m]) =
      payloads box key p ms ++ [payloadAt box key p ms.length m] :=
  List.mapIdx_concat

theorem payloads_getElem? {p i : ℕ} {ms : List Bytes} {d : Bytes}
    (h : (payloads box key p ms)[i]? = some d) :
    ∃ m, ms[i]? = some m ∧ d = payloadAt box key p i m := by
  rw [payloads, List.getElem?_mapIdx, Option.map_eq_some_iff] at h
  obtain ⟨m, hm, rfl⟩ := h
  exact ⟨m, hm, rfl⟩

theorem payloads_length (hbox : box.Inverse key) (p : ℕ) {ms : List Bytes}
    (hfits : ∀ m ∈ ms, Fits m) : ∀ d ∈ payloads box key p ms, d.length ≤ 0x3FFFFFFF := by
  intro d hd
  obtain ⟨i, hi⟩ := List.mem_iff_getElem?.mp hd
  obtain ⟨m, hm, rfl⟩ := payloads_getElem? hi
  have hfit : Fits m := hfits m (List.mem_of_getElem? hm)
  unfold Fits at hfit
  unfold payloadAt
  split
  · omega
  · rw [hbox.length_seal]
    exact hfit

/-! ## Counters -/

/-- The keys of an endpoint that sets its key after `p` messages and `q`
results: the counters are the distances to these positions. -/
def Keyed (key : Key) (p q : ℕ) (e : Party Key) : Prop :=
  e.stream.2 = none ∨
    p ≤ e.passed.length ∧ q ≤ e.results.length ∧
      e.stream.2 = some (key, UInt64.ofNat (e.passed.length - p),
        UInt64.ofNat (e.results.length - q))

variable {p q : ℕ} {e : Party Key}

theorem sealMsg_eq (box : SecretBox Key) (h : Keyed key p q e)
    (hwithin : e.stream.2 = none → e.passed.length < p) (m : Bytes) :
    (FramedStream.sealMsg box e.stream.2 m).1 = payloadAt box key p e.passed.length m := by
  rcases h with hnone | ⟨hp, -, hsome⟩
  · rw [hnone, payloadAt, if_pos (hwithin hnone)]
    rfl
  · rw [hsome, payloadAt, if_neg (Nat.not_lt.mpr hp)]
    simp only [FramedStream.sealMsg, ofNat_succ, Nat.sub_add_comm hp]

theorem Keyed.send (h : Keyed key p q e) (m : Bytes) : Keyed key p q (e.send box m) := by
  rcases h with hnone | ⟨hp, hq, hsome⟩
  · left
    simp only [Party.send, sendRaw_keys, hnone, FramedStream.sealMsg]
  · right
    simp only [Party.send, sendRaw_keys, hsome, FramedStream.sealMsg, ofNat_succ,
      List.length_append, List.length_singleton, Nat.sub_add_comm hp]
    exact ⟨Nat.le_add_right_of_le hp, hq, trivial⟩

theorem keyed_setKey (hp : e.passed.length = p) (hq : e.results.length = q) :
    Keyed key p q (e.setKey key) := by
  subst hp hq
  right
  simp only [Party.setKey, FramedStream.setKey, Nat.sub_self]
  exact ⟨Nat.le_refl _, Nat.le_refl _, rfl⟩

/-- The frame at the receiver's position opens to the message passed there. -/
theorem openFrame_eq (hbox : box.Inverse key) (h : Keyed key p q e)
    (hwithin : e.stream.2 = none → e.results.length < q) (m : Bytes) :
    (FramedStream.openFrame box e.stream.2
      (payloadAt box key q e.results.length m)).1 = .ok m := by
  rcases h with hnone | ⟨-, hq, hsome⟩
  · rw [hnone, payloadAt, if_pos (hwithin hnone)]
    rfl
  · rw [hsome, payloadAt, if_neg (Nat.not_lt.mpr hq)]
    simp only [FramedStream.openFrame, ofNat_succ, Nat.sub_add_comm hq, hbox.open_seal]

/-- Opening a frame counts it, whatever comes out. -/
theorem keyed_openFrame (box : SecretBox Key) (h : Keyed key p q e) (d : Bytes)
    (c : BytesCodec) (b : Bytes) :
    Keyed key p q { e with
      stream := (c, (FramedStream.openFrame box e.stream.2 d).2)
      buf := b
      results := e.results ++ [(FramedStream.openFrame box e.stream.2 d).1] } := by
  rcases h with hnone | ⟨hp, hq, hsome⟩
  · left
    simp only [hnone, FramedStream.openFrame]
  · right
    have hkeys : (FramedStream.openFrame box e.stream.2 d).2 =
        some (key, UInt64.ofNat (e.passed.length - p),
          UInt64.ofNat (e.results.length - q) + 1) := by
      rw [hsome]
      simp only [FramedStream.openFrame]
      split <;> rfl
    simp only [hkeys, ofNat_succ, List.length_append, List.length_singleton,
      Nat.sub_add_comm hq]
    exact ⟨hp, Nat.le_add_right_of_le hq, trivial⟩

/-! ## One direction -/

theorem sendRaw_codec (box : SecretBox Key) (s : FramedStream Key) (m : Bytes) :
    (s.sendRaw box m).2.1 = s.1 := by
  unfold FramedStream.sendRaw
  dsimp only
  split <;> rfl

theorem written_eq (hraw : e.stream.1.raw = false) {m : Bytes}
    (hlen : (FramedStream.sealMsg box e.stream.2 m).1.length ≤ 0x3FFFFFFF) :
    e.written box m = BytesCodec.frameBytes (FramedStream.sealMsg box e.stream.2 m).1 := by
  simp only [Party.written, FramedStream.sendRaw, BytesCodec.encode, hraw,
    (BytesCodec.headBytes_spec hlen).1, Bool.false_eq_true, if_false, List.nil_append]
  rfl

/-- What a poll of `next` does, in a direction that is in order: it is pending,
or it opens the next frame. -/
theorem next_cases {written : List Bytes} {w : Bytes}
    (h : InFlight written e.results.length e.stream.1 e.buf w)
    (hlen : ∀ d ∈ written, d.length ≤ 0x3FFFFFFF) :
    (∃ c b, e.next box = { e with stream := (c, e.stream.2), buf := b } ∧
      InFlight written e.results.length c b w ∧
      (w = [] → e.results.length = written.length)) ∨
    ∃ d c b, written[e.results.length]? = some d ∧
      InFlight written (e.results.length + 1) c b w ∧
      e.next box = { e with
        stream := (c, (FramedStream.openFrame box e.stream.2 d).2)
        buf := b
        results := e.results ++ [(FramedStream.openFrame box e.stream.2 d).1] } := by
  rcases h.decode hlen with ⟨c, b, hcall, hflow, hdry⟩ | ⟨d, c, b, hcall, hget, hflow⟩
  · refine Or.inl ⟨c, b, ?_, hflow, hdry⟩
    have hpoll : (FramedStream.receiver box).decode e.stream e.buf =
        (.ok none, (c, e.stream.2), b) := Decoder.decodeThen_more hcall
    simp only [Party.next, hpoll]
  · refine Or.inr ⟨d, c, b, hget, hflow, ?_⟩
    cases ho : FramedStream.openFrame box e.stream.2 d with
    | mk r keys =>
        cases r with
        | ok m =>
            have hpoll : (FramedStream.receiver box).decode e.stream e.buf =
                (.ok (some m), (c, keys), b) := Decoder.decodeThen_item hcall ho
            simp only [Party.next, hpoll]
        | error err =>
            have hpoll : (FramedStream.receiver box).decode e.stream e.buf =
                (.error err, (c, keys), b) := Decoder.decodeThen_refuse hcall ho
            simp only [Party.next, hpoll]

/-! ## The invariant of the pair -/

variable (box key) in
structure Steady (pos : Side → ℕ) (c : Pair Key) : Prop where
  fits : ∀ side, ∀ m ∈ (c.party side).passed, Fits m
  count : ∀ side, (c.party side).passed.length < 2 ^ 64
  keyed : ∀ side, Keyed key (pos side) (pos side.other) (c.party side)
  flow : ∀ side, InFlight (payloads box key (pos side.other) (c.party side.other).passed)
    (c.party side).results.length (c.party side).stream.1 (c.party side).buf (c.wire side)
  inOrder : ∀ side, (c.party side).results <+: (c.party side.other).passed.map .ok

variable {pos : Side → ℕ} {c : Pair Key}

theorem steady_start (pos : Side → ℕ) : Steady box key pos Pair.start where
  fits _ _ hm := absurd hm List.not_mem_nil
  count _ := Nat.two_pow_pos 64
  keyed _ := Or.inl rfl
  flow _ := InFlight.start
  inOrder _ := List.nil_prefix

@[simp] theorem Side.other_other (s : Side) : s.other.other = s := by
  cases s <;> rfl

@[simp] theorem Pair.setParty_self (c : Pair Key) (s : Side) (p : Party Key) :
    (c.setParty s p).party s = p := Function.update_self ..

@[simp] theorem Pair.setParty_other (c : Pair Key) (s : Side) (p : Party Key) :
    (c.setParty s p).party s.other = c.party s.other :=
  Function.update_of_ne (Side.other_ne s) ..

/-- A step changes one endpoint, `s`. It is enough to look at this endpoint and
at the two directions it takes part in. -/
theorem Steady.change (h : Steady box key pos c) (s : Side) {c' : Pair Key} {e : Party Key}
    (hself : c'.party s = e) (hother : c'.party s.other = c.party s.other)
    (hfits : ∀ m ∈ e.passed, Fits m) (hcount : e.passed.length < 2 ^ 64)
    (hkeyed : Keyed key (pos s) (pos s.other) e)
    (hin : InFlight (payloads box key (pos s.other) (c.party s.other).passed)
      e.results.length e.stream.1 e.buf (c'.wire s))
    (hout : InFlight (payloads box key (pos s) e.passed) (c.party s.other).results.length
      (c.party s.other).stream.1 (c.party s.other).buf (c'.wire s.other))
    (hinOrder : e.results <+: (c.party s.other).passed.map .ok)
    (houtOrder : (c.party s.other).results <+: e.passed.map .ok) :
    Steady box key pos c' := by
  subst hself
  constructor
  all_goals intro side
  all_goals rcases Side.eq_or_eq_other side s with rfl | rfl
  · exact hfits
  · rw [hother]
    exact h.fits s.other
  · exact hcount
  · rw [hother]
    exact h.count s.other
  · exact hkeyed
  · rw [hother]
    exact h.keyed s.other
  · rw [hother]
    exact hin
  · rw [Side.other_other, hother]
    exact hout
  · rw [hother]
    exact hinOrder
  · rw [Side.other_other, hother]
    exact houtOrder

theorem Steady.outgoing (h : Steady box key pos c) (s : Side) :
    InFlight (payloads box key (pos s) (c.party s).passed) (c.party s.other).results.length
      (c.party s.other).stream.1 (c.party s.other).buf (c.wire s.other) := by
  have hflow := h.flow s.other
  rw [Side.other_other] at hflow
  exact hflow

theorem Steady.outOrder (h : Steady box key pos c) (s : Side) :
    (c.party s.other).results <+: (c.party s).passed.map .ok := by
  have horder := h.inOrder s.other
  rw [Side.other_other] at horder
  exact horder

theorem Steady.setKey (h : Steady box key pos c) {s : Side}
    (hcall : Agreed pos c (.setKey s)) : Steady box key pos (c.step box key (.setKey s)) := by
  obtain ⟨-, hp, hq⟩ := hcall
  refine h.change s (c.setParty_self s _) (c.setParty_other s _) (h.fits s) (h.count s)
    (keyed_setKey hp hq) (h.flow s) (h.outgoing s) (h.inOrder s) (h.outOrder s)

theorem Steady.arrive (h : Steady box key pos c) (s : Side) (n : ℕ) :
    Steady box key pos (c.step box key (.arrive s n)) := by
  have hwire : (c.step box key (.arrive s n)).wire s = (c.wire s).drop n :=
    Function.update_self ..
  have hwire' : (c.step box key (.arrive s n)).wire s.other = c.wire s.other :=
    Function.update_of_ne (Side.other_ne s) ..
  refine h.change s (Function.update_self ..) (Function.update_of_ne (Side.other_ne s) ..)
    (h.fits s) (h.count s) (h.keyed s) ?_ ?_ (h.inOrder s) (h.outOrder s)
  · rw [hwire]
    exact (h.flow s).arrive n
  · rw [hwire']
    exact h.outgoing s

theorem Steady.send (hbox : box.Inverse key) (h : Steady box key pos c) {s : Side} {m : Bytes}
    (hcall : Agreed pos c (.send s m)) (hwithin : Within pos (c.step box key (.send s m))) :
    Steady box key pos (c.step box key (.send s m)) := by
  obtain ⟨hfit, hcount⟩ := hcall
  have hself : (c.step box key (.send s m)).party s = (c.party s).send box m :=
    Function.update_self ..
  have hfits : ∀ m' ∈ (c.party s).passed ++ [m], Fits m' := by
    intro m' hm'
    rcases List.mem_append.mp hm' with hm' | hm'
    · exact h.fits s m' hm'
    · rw [List.mem_singleton.mp hm']
      exact hfit
  -- without a key, this message is still in front of the position
  have hplain : (c.party s).stream.2 = none → (c.party s).passed.length < pos s := by
    intro hnone
    have hafter : ((c.party s).send box m).stream.2 = none := by
      simp only [Party.send, sendRaw_keys, hnone, FramedStream.sealMsg]
    have hle := (hwithin s (by rw [hself]; exact hafter)).1
    rw [hself] at hle
    simp only [Party.send, List.length_append, List.length_singleton] at hle
    exact hle
  have hpayload := sealMsg_eq box (h.keyed s) hplain m
  have hlen : (FramedStream.sealMsg box (c.party s).stream.2 m).1.length ≤ 0x3FFFFFFF := by
    apply payloads_length hbox (pos s) hfits
    rw [hpayload, payloads_concat]
    exact List.mem_append_right _ (List.mem_singleton_self _)
  have hwire : (c.step box key (.send s m)).wire s.other = c.wire s.other ++
      BytesCodec.frameBytes (payloadAt box key (pos s) (c.party s).passed.length m) := by
    rw [← hpayload, ← written_eq (h.flow s).raw_eq hlen]
    exact Function.update_self ..
  have hwire' : (c.step box key (.send s m)).wire s = c.wire s :=
    Function.update_of_ne (Side.other_ne s).symm ..
  refine h.change s hself (Function.update_of_ne (Side.other_ne s) ..) hfits ?_
    ((h.keyed s).send m) ?_ ?_ (h.inOrder s) ?_
  · show ((c.party s).passed ++ [m]).length < _
    rw [List.length_append]
    exact hcount
  · rw [hwire']
    show InFlight _ _ ((c.party s).stream.sendRaw box m).2.1 _ _
    rw [sendRaw_codec]
    exact h.flow s
  · rw [hwire]
    show InFlight (payloads box key (pos s) ((c.party s).passed ++ [m])) _ _ _ _
    rw [payloads_concat]
    exact (h.outgoing s).write _
  · show (c.party s.other).results <+: ((c.party s).passed ++ [m]).map .ok
    rw [List.map_append]
    exact (h.outOrder s).trans (List.prefix_append _ _)

theorem Steady.next (hbox : box.Inverse key) (h : Steady box key pos c) {s : Side}
    (hwithin : Within pos (c.step box key (.next s))) :
    Steady box key pos (c.step box key (.next s)) := by
  have hself : (c.step box key (.next s)).party s = (c.party s).next box :=
    c.setParty_self s _
  have hlen := payloads_length hbox (pos s.other) (h.fits s.other)
  rcases next_cases (h.flow s) hlen with ⟨cd, b, hnext, hflow, -⟩ | ⟨d, cd, b, hget, hflow, hnext⟩
  · rw [hnext] at hself
    exact h.change s hself (c.setParty_other s _) (h.fits s) (h.count s) (h.keyed s) hflow
      (h.outgoing s) (h.inOrder s) (h.outOrder s)
  · obtain ⟨m, hm, rfl⟩ := payloads_getElem? hget
    -- without a key, this frame is still in front of the position
    have hplain : (c.party s).stream.2 = none →
        (c.party s).results.length < pos s.other := by
      intro hnone
      have hafter : ((c.party s).next box).stream.2 = none := by
        rw [hnext]
        simp only [hnone, FramedStream.openFrame]
      have hle := (hwithin s (by rw [hself]; exact hafter)).2
      rw [hself, hnext] at hle
      simp only [List.length_append, List.length_singleton] at hle
      exact hle
    have hok := openFrame_eq hbox (h.keyed s) hplain m
    have hkeyed := keyed_openFrame box (h.keyed s)
      (payloadAt box key (pos s.other) (c.party s).results.length m) cd b
    rw [hnext] at hself
    refine h.change s hself (c.setParty_other s _) (h.fits s) (h.count s) hkeyed ?_
      (h.outgoing s) ?_ (h.outOrder s)
    · rw [List.length_append, List.length_singleton]
      exact hflow
    · show (c.party s).results ++ [_] <+: _
      rw [hok, prefix_concat_iff (h.inOrder s), List.getElem?_map, hm]
      rfl

theorem Steady.step (hbox : box.Inverse key) (h : Steady box key pos c) {act : PairAction}
    (hallowed : Allowed box key pos c act) : Steady box key pos (c.step box key act) := by
  obtain ⟨hcall, hwithin⟩ := hallowed
  cases act with
  | setKey s => exact h.setKey hcall
  | send s m => exact h.send hbox hcall hwithin
  | arrive s n => exact h.arrive s n
  | next s => exact h.next hbox hwithin

theorem steady_run (hbox : box.Inverse key) {acts : List PairAction}
    (hruns : Along (Pair.step box key) (Allowed box key pos) Pair.start acts) :
    Steady box key pos (Pair.run box key acts) := by
  have hall : Always (Pair.step box key) (Steady box key pos) Pair.start acts :=
    always_of_along (fun _ _ h hallowed => h.step hbox hallowed) (steady_start pos) hruns
  exact hall.final

/-- The counters of a direction whose endpoints both have the key. -/
theorem Steady.counters (h : Steady box key pos c) (side : Side) {k k' : Key}
    {sent sent' received received' : UInt64}
    (hs : (c.party side.other).stream.2 = some (k, sent, received))
    (hr : (c.party side).stream.2 = some (k', sent', received')) :
    received'.toNat + ((c.party side.other).passed.length - (c.party side).results.length) =
      sent.toNat := by
  have hle := (h.inOrder side).length_le
  have hcount := h.count side.other
  rw [List.length_map] at hle
  rcases h.keyed side.other with hnone | ⟨hp, -, hsender⟩
  · rw [hnone] at hs
    cases hs
  rcases h.keyed side with hnone | ⟨-, hq, hreceiver⟩
  · rw [hnone] at hr
    cases hr
  rw [hsender] at hs
  rw [hreceiver] at hr
  cases hs
  cases hr
  have hsent : (c.party side.other).passed.length - pos side.other < 2 ^ 64 := by omega
  have hreceived : (c.party side).results.length - pos side.other < 2 ^ 64 := by omega
  rw [UInt64.toNat_ofNat_of_lt' hsent, UInt64.toNat_ofNat_of_lt' hreceived]
  omega

end

/-- **The secured stream delivers what was sent.** In every allowed run, at
every moment: the results of `next` on each side are the first messages the
other side passed to `send_raw`, in order and without an error; once both
endpoints of a direction have the key, the receive counter and the number of
undelivered frames add up to the send counter; and a `next` that is pending with
nothing left on the wire has nothing left to deliver. -/
theorem secured_stream_delivers (box : SecretBox Key) (key : Key) (hbox : box.Inverse key)
    (pos : Side → ℕ) (acts : List PairAction)
    (hruns : Along (Pair.step box key) (Allowed box key pos) Pair.start acts) :
    ∀ side receiver sender, receiver = (Pair.run box key acts).party side →
      sender = (Pair.run box key acts).party side.other →
      receiver.results <+: sender.passed.map .ok ∧
      (∀ k k' sent sent' received received',
        sender.stream.2 = some (k, sent, received) →
        receiver.stream.2 = some (k', sent', received') →
        received'.toNat + (sender.passed.length - receiver.results.length) = sent.toNat) ∧
      ((Pair.run box key acts).wire side = [] →
        (receiver.next box).results = receiver.results →
        receiver.results.length = sender.passed.length) := by
  have h := steady_run hbox hruns
  rintro side _ _ rfl rfl
  refine ⟨h.inOrder side, fun k k' _ _ _ _ hs hr => h.counters side hs hr, ?_⟩
  intro hwire hpending
  have hlen := payloads_length hbox (pos side.other) (h.fits side.other)
  rcases next_cases (h.flow side) hlen with ⟨cd, b, -, -, hdry⟩ | ⟨d, cd, b, -, -, hnext⟩
  · rw [hdry hwire, payloads, List.length_mapIdx]
  · rw [hnext] at hpending
    exact absurd hpending (by simp)

/-- `a` sends a plain message and, after `set_key`, a sealed one; both are in the
buffer of `b` when it calls `set_key`. -/
def exchange : List PairAction :=
  [.send .a [7], .setKey .a, .send .a [9], .arrive .b 100, .next .b, .setKey .b, .next .b]

/-- `a` sets its key after one message, `b` after none. -/
def onePlain : Side → ℕ
  | .a => 1
  | .b => 0

theorem exchange_allowed : Along (Pair.step tagBox ()) (Allowed tagBox () onePlain)
    Pair.start exchange := by
  refine ⟨⟨by decide, ?_⟩, ⟨by decide, ?_⟩, ⟨by decide, ?_⟩, ⟨trivial, ?_⟩, ⟨trivial, ?_⟩,
    ⟨by decide, ?_⟩, ⟨trivial, ?_⟩, trivial⟩
  all_goals
    intro side
    cases side <;> decide

theorem secured_stream_delivers_exchange :
    tagBox.Inverse () ∧ ∀ side receiver sender,
      receiver = (Pair.run tagBox () exchange).party side →
      sender = (Pair.run tagBox () exchange).party side.other →
      receiver.results <+: sender.passed.map .ok ∧
      (∀ k k' sent sent' received received',
        sender.stream.2 = some (k, sent, received) →
        receiver.stream.2 = some (k', sent', received') →
        received'.toNat + (sender.passed.length - receiver.results.length) = sent.toNat) ∧
      ((Pair.run tagBox () exchange).wire side = [] →
        (receiver.next tagBox).results = receiver.results →
        receiver.results.length = sender.passed.length) :=
  ⟨tagBox_correct.inverse, secured_stream_delivers tagBox () tagBox_correct.inverse onePlain
    exchange exchange_allowed⟩

example : ((Pair.run tagBox () exchange).party .b).results = [.ok [7], .ok [9]] := by decide

end RustdeskServer.Stream
