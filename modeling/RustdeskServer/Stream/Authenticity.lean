import RustdeskServer.Framework.Runs
import RustdeskServer.Stream.Nonces

/-!
# Authenticity and order under attack

Secretbox is taken as ideal: a frame opens under a number only if one of the
endpoints sealed it under that number. Replays, reorderings and forgeries then
fail, because the receive counter asks for one particular number. What the
counter does not tell apart is the direction: an endpoint's own `n`-th frame,
sent back to it, opens when it expects message `n`.

`in_order_iff` makes this exact. In every run the plaintexts each side returns
are, at every moment, a prefix of what the other side passed, if and only if
no frame is reflected.
-/

namespace RustdeskServer.Stream

open RustdeskServer.Framework RustdeskServer.Codec

variable {Key : Type}

/-- What each side has returned is a prefix of what the other side passed. -/
def InOrder (c : Session Key) : Prop :=
  ∀ side, (c side).returned <+: (c side.other).passed

/-- The ideal secretbox: `frame` opens only as something sealed in this
session under the same number. -/
def Unforged (box : SecretBox Key) (key : Key) (c : Session Key) (frame : Bytes) : Prop :=
  ∀ i m, box.openBox frame (getNonce i) key = some m →
    ⟨m, getNonce i, key⟩ ∈ c.seals ∧ frame = box.sealBox m (getNonce i) key

/-- The runs under study: counters stay below `2^64`, frames are not forged.
Everything else is up to the attacker. -/
def Admissible (box : SecretBox Key) (key : Key) (c : Session Key) : Action → Prop
  | .send side _ => (c side).passed.length + 1 < 2 ^ 64
  | .next side res => (c side).returned.length + 1 < 2 ^ 64 ∧
      ∀ frame, res = some (.ok frame) → Unforged box key c frame

/-- The frame given to `next` is not the endpoint's own frame with the number
it expects, unless the peer's message with that number is the same. -/
def NotReflected (box : SecretBox Key) (key : Key) (c : Session Key) : Action → Prop
  | .send _ _ => True
  | .next side res =>
      let n := (c side).returned.length
      ∀ m, (c side).failed = false → (c side).passed[n]? = some m →
        res = some (.ok (box.sealBox m (getNonce (UInt64.ofNat (n + 1))) key)) →
        (c side.other).passed[n]? = some m

theorem Side.other_ne (side : Side) : side.other ≠ side := by
  cases side <;> simp [Side.other]

theorem Side.eq_or_eq_other (s t : Side) : s = t ∨ s = t.other := by
  cases s <;> cases t <;> simp [Side.other]

theorem prefix_concat_iff {α : Type} {l p : List α} (h : l <+: p) (m : α) :
    l ++ [m] <+: p ↔ p[l.length]? = some m := by
  obtain ⟨t, rfl⟩ := h
  rw [List.prefix_append_right_inj, List.getElem?_append_right (Nat.le_refl _),
    Nat.sub_self]
  cases t with
  | nil => simp
  | cons x xs => simp [List.cons_prefix_cons, eq_comm]

theorem mem_sealCalls {key : Key} {ms : List Bytes} {m : Bytes} {n : Nonce}
    (h : ⟨m, n, key⟩ ∈ sealCalls key ms) :
    ∃ i, ms[i]? = some m ∧ n = getNonce (UInt64.ofNat (i + 1)) := by
  obtain ⟨i, hi, heq⟩ := List.mem_mapIdx.mp h
  simp only [SealCall.mk.injEq, and_true] at heq
  exact ⟨i, by rw [List.getElem?_eq_getElem hi, heq.1], heq.2.symm⟩

/-- The background invariant: counted endpoints, counters in range. -/
structure Bounded (key : Key) (c : Session Key) : Prop where
  counted : ∀ side, Counted key (c side)
  passed_lt : ∀ side, (c side).passed.length < 2 ^ 64

theorem bounded_start (key : Key) : Bounded key (Session.start key) :=
  ⟨fun _ => counted_start key, fun _ => by simp [Session.start, Endpoint.start]⟩

theorem Bounded.step {box : SecretBox Key} {key : Key} {c : Session Key} {act : Action}
    (h : Bounded key c) (hadm : Admissible box key c act) :
    Bounded key (c.step box act) := by
  refine ⟨counted_step h.counted box act, fun side => ?_⟩
  cases act with
  | send s msg =>
      by_cases hs : side = s
      · subst hs
        simpa [Session.step, Endpoint.send, Admissible] using hadm
      · simpa [Session.step, hs] using h.passed_lt side
  | next s res =>
      by_cases hs : side = s
      · subst hs
        simpa [Session.step, Endpoint.next] using h.passed_lt side
      · simpa [Session.step, hs] using h.passed_lt side

/-- A sealed message whose number is `n + 1` is the `n`-th message of one of
the two endpoints. -/
theorem Bounded.sealed_by {key : Key} {c : Session Key} (h : Bounded key c) {n : ℕ}
    {m : Bytes} (hn : n + 1 < 2 ^ 64)
    (hmem : ⟨m, getNonce (UInt64.ofNat (n + 1)), key⟩ ∈ c.seals) :
    ∃ side, (c side).passed[n]? = some m := by
  have hone : ∀ side, ⟨m, getNonce (UInt64.ofNat (n + 1)), key⟩ ∈ (c side).seals →
      (c side).passed[n]? = some m := by
    intro side hside
    rw [(h.counted side).seals_eq] at hside
    obtain ⟨i, hi, hnonce⟩ := mem_sealCalls hside
    have hlt : i < (c side).passed.length := (List.getElem?_eq_some_iff.mp hi).1
    have hlen := h.passed_lt side
    have hni : n = i := ofNat_succ_inj hn (by omega) (getNonce_injective hnonce)
    rw [hni, hi]
  rcases List.mem_append.mp hmem with ha | hb
  · exact ⟨.a, hone .a ha⟩
  · exact ⟨.b, hone .b hb⟩

theorem inOrder_send {box : SecretBox Key} {c : Session Key} (h : InOrder c)
    (s : Side) (msg : Bytes) : InOrder (c.step box (.send s msg)) := by
  intro side
  rcases Side.eq_or_eq_other s side with rfl | rfl
  · -- the sender returns what it returned, its peer passed what it passed
    simpa [Session.step, Side.other_ne, Endpoint.send] using h s
  · have hne := Side.other_ne side
    simpa [Session.step, hne.symm, Endpoint.send] using
      (h side).trans (List.prefix_append _ [msg])

theorem inOrder_next {box : SecretBox Key} {c : Session Key} (h : InOrder c)
    (s : Side) (res : Option (Except IoError Bytes)) :
    InOrder (c.step box (.next s res)) ↔
      ((c s).next box res).returned <+: (c s.other).passed := by
  have hne := Side.other_ne s
  constructor
  · intro hall
    simpa [Session.step, hne] using hall s
  · intro hs side
    rcases Side.eq_or_eq_other side s with rfl | rfl
    · simpa [Session.step, hne] using hs
    · have hother : s.other.other = s := by cases s <;> rfl
      have hpeer := h s.other
      rw [hother] at hpeer
      simpa [Session.step, hne, hother, Endpoint.next] using hpeer

/-- One step: order survives `next` exactly when the frame is not reflected. -/
theorem inOrder_step_iff {box : SecretBox Key} {key : Key}
    (hopen : ∀ m i, box.openBox (box.sealBox m (getNonce i) key) (getNonce i) key = some m)
    {c : Session Key} {act : Action} (hb : Bounded key c)
    (hadm : Admissible box key c act) (h : InOrder c) :
    InOrder (c.step box act) ↔ NotReflected box key c act := by
  cases act with
  | send s msg => exact ⟨fun _ => trivial, fun _ => inOrder_send h s msg⟩
  | next s res =>
      obtain ⟨hlt, hunf⟩ := hadm
      rw [inOrder_next h]
      rcases (hb.counted s).next_cases box res with ⟨hsame, hclosed⟩ |
        ⟨frame, m, hf, hres, ho, hnew⟩
      · rw [hsame]
        constructor
        · intro _ m hf _ hres
          exact absurd (hopen m _) (hclosed _ m hf hres)
        · intro _
          exact h s
      · subst hres
        obtain ⟨hmem, hframe⟩ := hunf frame rfl _ m ho
        rw [hnew, prefix_concat_iff (h s)]
        constructor
        · rintro hpeer m' - - heq
          -- the frame determines its plaintext
          have hm : m' = m := by
            have := hopen m' (UInt64.ofNat ((c s).returned.length + 1))
            rw [← Except.ok.inj (Option.some.inj heq), ho] at this
            exact (Option.some.inj this).symm
          rw [hm, hpeer]
        · intro hnot
          obtain ⟨side, hside⟩ := hb.sealed_by hlt hmem
          rcases Side.eq_or_eq_other side s with rfl | rfl
          · exact hnot m hf hside (by rw [hframe])
          · exact hside

/-- **Authenticity and order, exactly.** Against an ideal secretbox an attacker
can break the order of plaintexts only by sending an endpoint its own frame. -/
theorem in_order_iff (box : SecretBox Key) (key : Key)
    (hopen : ∀ m i, box.openBox (box.sealBox m (getNonce i) key) (getNonce i) key = some m)
    (acts : List Action)
    (hadm : Along (Session.step box) (Admissible box key) (Session.start key) acts) :
    Always (Session.step box) InOrder (Session.start key) acts ↔
      Along (Session.step box) (NotReflected box key) (Session.start key) acts := by
  have hkeep : ∀ c act, Bounded key c → Admissible box key c act →
      Bounded key (c.step box act) := fun _ _ hb hd => hb.step hd
  have hstart : InOrder (Session.start key) := fun _ => List.prefix_rfl
  exact always_iff_along hkeep (fun _ _ hb hd h => inOrder_step_iff hopen hb hd h)
    hadm (bounded_start key) hstart

/-! ## Runs with the toy box -/

theorem unforged_sealed {c : Session Unit} {m : Bytes} {i : UInt64}
    (h : ⟨m, getNonce i, ()⟩ ∈ c.seals) :
    Unforged tagBox () c (tagBox.sealBox m (getNonce i) ()) := by
  intro j m' ho
  rw [tagBox_open] at ho
  split at ho
  · rename_i hij
    subst hij
    cases ho
    exact ⟨h, rfl⟩
  · cases ho

/-- What is shorter than a tag does not open. -/
theorem unforged_short {c : Session Unit} {frame : Bytes} (h : frame.length < 16) :
    Unforged tagBox () c frame := by
  intro i m ho
  have hlength : ((getNonce i).take 16).length = 16 := rfl
  have hne : frame.take 16 ≠ (getNonce i).take 16 := by
    intro heq
    rw [← heq, List.length_take] at hlength
    omega
  change (if frame.take 16 = (getNonce i).take 16 then some (frame.drop 16) else none) = some m at ho
  rw [if_neg hne] at ho
  cases ho

/-- The sealed frame of a message arrives. -/
def arrives (side : Side) (msg : Bytes) (number : UInt64) : Action :=
  .next side (some (.ok (tagBox.sealBox msg (getNonce number) ())))

/-- `b` gets the first of three frames, the second one is dropped, and the third and the
first come behind it; `a` gets the frame of `b`, it again, and one that nobody sealed. -/
def attacked : List Action :=
  [.send .a [1], .send .a [2], .send .b [4], .send .a [3], arrives .b [1] 1, arrives .b [3] 3,
    arrives .a [4] 1, arrives .b [1] 1, arrives .a [4] 1, .next .a (some (.ok [5]))]

theorem attacked_admissible : Along (Session.step tagBox) (Admissible tagBox ())
    (Session.start ()) attacked := by
  have hsealed : ∀ {c : Session Unit} {m : Bytes} {i : UInt64}, ⟨m, getNonce i, ()⟩ ∈ c.seals →
      ∀ frame, some (.ok (tagBox.sealBox m (getNonce i) ())) =
        (some (.ok frame) : Option (Except IoError Bytes)) → Unforged tagBox () c frame := by
    rintro c m i hin _ ⟨⟩
    exact unforged_sealed hin
  have hshort : ∀ {c : Session Unit} (frame : Bytes),
      some (.ok [5]) = (some (.ok frame) : Option (Except IoError Bytes)) →
        Unforged tagBox () c frame := by
    rintro c _ ⟨⟩
    exact unforged_short (by decide)
  refine ⟨show _ + 1 < 2 ^ 64 from ?_, show _ + 1 < 2 ^ 64 from ?_, show _ + 1 < 2 ^ 64 from ?_,
    show _ + 1 < 2 ^ 64 from ?_, ⟨?_, hsealed ?_⟩, ⟨?_, hsealed ?_⟩, ⟨?_, hsealed ?_⟩,
    ⟨?_, hsealed ?_⟩, ⟨?_, hsealed ?_⟩, ⟨?_, hshort⟩, trivial⟩
  all_goals decide

theorem in_order_iff_attacked :
    Along (Session.step tagBox) (Admissible tagBox ()) (Session.start ()) attacked ∧
      (Always (Session.step tagBox) InOrder (Session.start ()) attacked ↔
        Along (Session.step tagBox) (NotReflected tagBox ()) (Session.start ()) attacked) ∧
      (Session.run tagBox () attacked .a).returned = [[4]] ∧
      (Session.run tagBox () attacked .b).returned = [[1]] :=
  ⟨attacked_admissible, in_order_iff tagBox () (fun m i => by rw [tagBox_open, if_pos rfl])
    attacked attacked_admissible, by decide, by decide⟩

/-- `a` sends one message and an attacker gives the frame back to it. -/
def reflected : List Action := [.send .a [1], arrives .a [1] 1]

/-- **Reflection.** The attacker hands `a`'s frame back to `a`, and `a` returns
its own plaintext although `b` has sent nothing. -/
theorem reflected_frame_accepted :
    Along (Session.step tagBox) (Admissible tagBox ()) (Session.start ()) reflected ∧
      (Session.run tagBox () reflected .a).returned = [[1]] ∧
      (Session.run tagBox () reflected .b).passed = [] ∧
      ¬ InOrder (Session.run tagBox () reflected) := by
  have hadm : Along (Session.step tagBox) (Admissible tagBox ()) (Session.start ()) reflected := by
    refine ⟨show 0 + 1 < 2 ^ 64 by decide, ⟨by decide, ?_⟩, trivial⟩
    rintro _ ⟨⟩
    exact unforged_sealed (by decide)
  refine ⟨hadm, by decide, by decide, fun h => ?_⟩
  have hpre := h .a
  rw [show (Session.run tagBox () reflected .a).returned = [[1]] by decide,
    show (Session.run tagBox () reflected Side.a.other).passed = [] by decide] at hpre
  exact absurd (List.prefix_nil.mp hpre) (by decide)

end RustdeskServer.Stream
