import RustdeskServer.Stream.FramedStream

/-!
# Two endpoints, one key

Both ends of a connection call `set_key` with the same key and then send and
receive in any order. The network is the adversary: what `next` is given is
part of the action, so frames may be dropped, repeated, reordered, forged or
sent back. The session records, beside the two streams, the plaintexts passed
to `send_raw`, those `next` returned before its first error, and every seal
call.

`Counted` is the invariant of every run: an endpoint's send counter is the
number of messages passed to it, its seal calls are these messages under the
nonces `1, 2, 3, …`, and its receive counter is the number of plaintexts
returned as long as no error was.
-/

namespace RustdeskServer.Stream

open RustdeskServer.Framework RustdeskServer.Codec

variable {Key : Type}

inductive Side where
  | a
  | b
deriving DecidableEq, Repr

def Side.other : Side → Side
  | .a => .b
  | .b => .a

/-- A stream with its history. -/
structure Endpoint (Key : Type) where
  stream : FramedStream Key
  passed : List Bytes
  returned : List Bytes
  failed : Bool
  seals : List (SealCall Key)

namespace Endpoint

def start (key : Key) : Endpoint Key :=
  ⟨FramedStream.fromStream.setKey key, [], [], false, []⟩

def send (box : SecretBox Key) (e : Endpoint Key) (msg : Bytes) : Endpoint Key :=
  { e with
    stream := (e.stream.sendRaw box msg).2
    passed := e.passed ++ [msg]
    seals := e.seals ++ (FramedStream.sealMsg box e.stream.2 msg).2.2 }

/-- Record the answer of `next`; nothing is recorded after the first error. -/
def next (box : SecretBox Key) (e : Endpoint Key)
    (res : Option (Except IoError Bytes)) : Endpoint Key :=
  let r := FramedStream.next box e.stream.2 res
  { e with
    stream := (e.stream.1, r.2)
    returned := match e.failed, r.1 with
      | false, some (.ok m) => e.returned ++ [m]
      | _, _ => e.returned
    failed := match r.1 with
      | some (.error _) => true
      | _ => e.failed }

end Endpoint

abbrev Session (Key : Type) : Type := Side → Endpoint Key

inductive Action where
  | send (side : Side) (msg : Bytes)
  | next (side : Side) (res : Option (Except IoError Bytes))

namespace Session

def start (key : Key) : Session Key := fun _ => Endpoint.start key

def step (box : SecretBox Key) (c : Session Key) : Action → Session Key
  | .send side msg => Function.update c side ((c side).send box msg)
  | .next side res => Function.update c side ((c side).next box res)

def run (box : SecretBox Key) (key : Key) (acts : List Action) : Session Key :=
  acts.foldl (step box) (start key)

/-- Every seal call made so far, by whichever endpoint. -/
def seals (c : Session Key) : List (SealCall Key) := (c .a).seals ++ (c .b).seals

end Session

/-- The messages passed to `send_raw` on one side. -/
def sends (side : Side) (acts : List Action) : List Bytes :=
  acts.filterMap fun
    | .send s msg => if s = side then some msg else none
    | .next _ _ => none

/-! ## The counters -/

/-- The seal calls for the messages `ms`: nonces `1, 2, 3, …` in this order. -/
def sealCalls (key : Key) (ms : List Bytes) : List (SealCall Key) :=
  ms.mapIdx fun i m => ⟨m, getNonce (UInt64.ofNat (i + 1)), key⟩

structure Counted (key : Key) (e : Endpoint Key) : Prop where
  seals_eq : e.seals = sealCalls key e.passed
  keys_eq : ∃ received, e.stream.2 = some (key, UInt64.ofNat e.passed.length, received) ∧
    (e.failed = false → received = UInt64.ofNat e.returned.length)

theorem ofNat_succ (n : ℕ) : UInt64.ofNat n + 1 = UInt64.ofNat (n + 1) := by
  rw [UInt64.ofNat_add]
  rfl

theorem counted_start (key : Key) : Counted key (Endpoint.start key) :=
  ⟨rfl, 0, rfl, fun _ => rfl⟩

theorem sendRaw_keys (box : SecretBox Key) (s : FramedStream Key) (msg : Bytes) :
    (s.sendRaw box msg).2.2 = (FramedStream.sealMsg box s.2 msg).2.1 := by
  unfold FramedStream.sendRaw
  dsimp only
  split <;> rfl

theorem Counted.send {key : Key} {e : Endpoint Key} (h : Counted key e)
    (box : SecretBox Key) (msg : Bytes) : Counted key (e.send box msg) := by
  obtain ⟨received, hkeys, hrec⟩ := h.keys_eq
  constructor
  · simp only [Endpoint.send, hkeys, FramedStream.sealMsg, h.seals_eq, sealCalls,
      List.mapIdx_concat, ofNat_succ]
  · refine ⟨received, ?_, hrec⟩
    simp only [Endpoint.send, sendRaw_keys, hkeys, FramedStream.sealMsg, ofNat_succ,
      List.length_append, List.length_singleton]

/-- `next` on a frame: count it, open it under the new count. -/
theorem Endpoint.next_frame {e : Endpoint Key} {key : Key} {sent received : UInt64}
    (hkeys : e.stream.2 = some (key, sent, received)) (box : SecretBox Key) (c : Bytes) :
    e.next box (some (.ok c)) =
      match box.openBox c (getNonce (received + 1)) key with
      | some m =>
          { e with
            stream := (e.stream.1, some (key, sent, received + 1))
            returned := if e.failed then e.returned else e.returned ++ [m] }
      | none =>
          { e with
            stream := (e.stream.1, some (key, sent, received + 1))
            failed := true } := by
  unfold Endpoint.next FramedStream.next FramedStream.openFrame
  rw [hkeys]
  dsimp only
  cases box.openBox c (getNonce (received + 1)) key with
  | some m => cases e.failed <;> rfl
  | none => cases e.failed <;> rfl

theorem Endpoint.next_failed {e : Endpoint Key} (hf : e.failed = true)
    (box : SecretBox Key) (res : Option (Except IoError Bytes)) :
    (e.next box res).returned = e.returned := by
  simp only [Endpoint.next, hf]

theorem Counted.next {key : Key} {e : Endpoint Key} (h : Counted key e)
    (box : SecretBox Key) (res : Option (Except IoError Bytes)) :
    Counted key (e.next box res) := by
  obtain ⟨received, hkeys, hrec⟩ := h.keys_eq
  rcases res with _ | err | c
  · refine ⟨h.seals_eq, received, hkeys, fun hf => ?_⟩
    change e.failed = false at hf
    simp only [Endpoint.next, FramedStream.next, hrec hf, hf]
  · refine ⟨h.seals_eq, received, hkeys, fun hf => ?_⟩
    cases hf
  · rw [Endpoint.next_frame hkeys]
    cases box.openBox c (getNonce (received + 1)) key with
    | none => exact ⟨h.seals_eq, received + 1, rfl, fun hf => Bool.noConfusion hf⟩
    | some m =>
        refine ⟨h.seals_eq, received + 1, rfl, fun hf => ?_⟩
        change e.failed = false at hf
        simp only [hf, hrec hf, Bool.false_eq_true, if_false, List.length_append,
          List.length_singleton]
        exact ofNat_succ _

/-- What `next` can do to a counted endpoint: leave the returned plaintexts as
they are, because it has failed before or there is no frame that opens, or open
the frame under the next nonce. -/
theorem Counted.next_cases {key : Key} {e : Endpoint Key} (h : Counted key e)
    (box : SecretBox Key) (res : Option (Except IoError Bytes)) :
    ((e.next box res).returned = e.returned ∧
      ∀ c m, e.failed = false → res = some (.ok c) →
        box.openBox c (getNonce (UInt64.ofNat (e.returned.length + 1))) key ≠ some m) ∨
    ∃ c m, e.failed = false ∧ res = some (.ok c) ∧
      box.openBox c (getNonce (UInt64.ofNat (e.returned.length + 1))) key = some m ∧
      (e.next box res).returned = e.returned ++ [m] := by
  cases hf : e.failed with
  | true => exact Or.inl ⟨Endpoint.next_failed hf box res, by simp⟩
  | false =>
      obtain ⟨received, hkeys, hrec⟩ := h.keys_eq
      obtain rfl := hrec hf
      rcases res with _ | err | c
      · exact Or.inl ⟨by simp only [Endpoint.next, FramedStream.next, hf], by simp⟩
      · exact Or.inl ⟨by simp only [Endpoint.next, FramedStream.next, hf], by simp⟩
      · rw [Endpoint.next_frame hkeys, ofNat_succ]
        cases ho : box.openBox c (getNonce (UInt64.ofNat (e.returned.length + 1))) key with
        | none =>
            refine Or.inl ⟨rfl, ?_⟩
            rintro c' m - hc ho'
            cases hc
            rw [ho] at ho'
            cases ho'
        | some m =>
            refine Or.inr ⟨c, m, rfl, rfl, ho, ?_⟩
            simp only [hf, Bool.false_eq_true, if_false]

theorem counted_step {key : Key} {c : Session Key} (h : ∀ side, Counted key (c side))
    (box : SecretBox Key) (act : Action) :
    ∀ side, Counted key (c.step box act side) := by
  intro side
  cases act with
  | send s msg =>
      by_cases hs : side = s
      · subst hs
        simpa [Session.step] using (h side).send box msg
      · simpa [Session.step, hs] using h side
  | next s res =>
      by_cases hs : side = s
      · subst hs
        simpa [Session.step] using (h side).next box res
      · simpa [Session.step, hs] using h side

/-- The plaintexts passed in a run are the messages of its send actions. -/
theorem passed_foldl (box : SecretBox Key) (side : Side) : ∀ (acts : List Action)
    (c : Session Key),
    (acts.foldl (Session.step box) c side).passed = (c side).passed ++ sends side acts := by
  intro acts
  induction acts with
  | nil => intro c; simp [sends]
  | cons act acts ih =>
      intro c
      rw [List.foldl_cons, ih]
      cases act with
      | send s msg =>
          by_cases hs : s = side
          · subst hs
            simp [sends, Session.step, Endpoint.send]
          · simp [sends, Session.step, hs, Ne.symm hs]
      | next s res =>
          by_cases hs : s = side
          · subst hs
            simp [sends, Session.step, Endpoint.next]
          · simp [sends, Session.step, Ne.symm hs]

end RustdeskServer.Stream
