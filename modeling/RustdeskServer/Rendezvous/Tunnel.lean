import RustdeskServer.Framework.Simulation
import RustdeskServer.Rendezvous.Relay
import RustdeskServer.Stream.SecuredPair

/-!
# A secured stream through the relay

The clients of a relay session talk to each other with `FramedStream`s of their
own, and the server between them passes on bytes it does not look at. `Tunnel`
puts the two clients at the ends of a call of `relay`: what a client writes goes
onto its connection, and what the server has written to a connection arrives at
its client, both in any portions.

The bytes on their way to a client are in three places: written by the server and
not arrived, in the buffer of the other connection's reader, and on the other
connection. Laid end to end they are the wire of a `Pair` (`Tunnel.pair`). A step
of the server moves bytes between the places and does nothing to that wire, until
`relay` ends and bytes stay behind. So the tunnel runs inside the pair
(`tunnel_simulates`), and what holds of two clients with nothing between them
holds through the relay.
-/

namespace RustdeskServer.Rendezvous

open RustdeskServer.Framework RustdeskServer.Codec
open RustdeskServer.Stream (Pair PairAction Party SecretBox)

variable {Addr Conn Key : Type}

/-- The connection of each client, by its place in the call of `relay`. -/
def link : Stream.Side → Side
  | .a => .stream
  | .b => .peer

@[simp] theorem link_other (s : Stream.Side) : link s.other = (link s).other := by
  cases s <;> rfl

/-- A call of `relay` and the two clients; `arrived` counts the bytes of what the
server has written to a client that are there. -/
structure Tunnel (Addr Conn Key : Type) where
  relay : Relay Addr Conn
  party : Stream.Side → Party Key
  arrived : Stream.Side → ℕ

/-- Something a client does, or something that happens to the server. -/
inductive TunnelEvent (Addr : Type) where
  | client (act : PairAction)
  | relay (e : RelayEvent Addr)

namespace Relay

/-- The loop has not been left. -/
def Looping (r : Relay Addr Conn) : Prop := r.server.wait ≠ .round

/-- What has been read from a connection and not passed on, and what is on it. -/
def rest (r : Relay Addr Conn) (side : Side) : Bytes :=
  (r.links side).reader.buf ++ (r.links side).wire

end Relay

namespace Tunnel

variable [DecidableEq Conn] (box : SecretBox Key) (key : Key) (parse : Parser)
  (conn : Side → Conn)

/-- What the server has written to a client's connection and is not there yet. -/
def toClient (t : Tunnel Addr Conn Key) (s : Stream.Side) : Bytes :=
  (t.relay.written conn (link s)).drop (t.arrived s)

def setParty (t : Tunnel Addr Conn Key) (s : Stream.Side) (p : Party Key) :
    Tunnel Addr Conn Key :=
  { t with party := Function.update t.party s p }

def step (t : Tunnel Addr Conn Key) : TunnelEvent Addr → Tunnel Addr Conn Key
  | .client (.setKey s) => t.setParty s ((t.party s).setKey key)
  | .client (.send s msg) =>
      { t.setParty s ((t.party s).send box msg) with
        relay := t.relay.step parse (.send (link s) ((t.party s).written box msg)) }
  | .client (.arrive s n) =>
      let chunk := (t.toClient conn s).take n
      { t.setParty s { t.party s with buf := (t.party s).buf ++ chunk } with
        arrived := Function.update t.arrived s (t.arrived s + chunk.length) }
  | .client (.next s) => t.setParty s ((t.party s).next box)
  -- what a connection carries comes from its client only
  | .relay (.send _ _) => t
  | .relay e => { t with relay := t.relay.step parse e }

/-- The clients with all that is between them as one wire. -/
def pair (t : Tunnel Addr Conn Key) : Pair Key where
  party := t.party
  wire s := t.toClient conn s ++ t.relay.rest (link s).other

/-- What the clients keep to is what they keep to with nothing between them; the
server and its clients' connections are free. -/
def Allowed (pos : Stream.Side → ℕ) (t : Tunnel Addr Conn Key) : TunnelEvent Addr → Prop
  | .client act => Stream.Agreed pos (t.pair conn) act ∧
      Stream.Within pos ((t.step box key parse conn (.client act)).pair conn)
  | .relay _ => True

/-- `relay` is called: the server has read a first frame from both connections,
and the clients are those of `c`. -/
def start (relayServer : String) (idMap : Finmap fun _ : String => Addr)
    (savedStream : Option Conn) (greeted : Side → Greeted) (wire : Side → Bytes)
    (c : Pair Key) : Tunnel Addr Conn Key :=
  ⟨Relay.start relayServer idMap savedStream conn greeted wire, c.party, fun _ => 0⟩

end Tunnel

/-- What a client has sent by then is a first frame for the server, and behind it
what is on its way to the other client. -/
structure Met (greeted : Side → Greeted) (wire : Side → Bytes) (c : Pair Key)
    (hello : Stream.Side → Bytes) : Prop where
  short : ∀ s, (hello s).length ≤ 0x3FFFFFFF
  sent : ∀ s, (greeted (link s)).reader.received ++ wire (link s) =
    BytesCodec.frameBytes (hello s) ++ c.wire s.other

/-! ## What a step of the server does to the bytes -/

theorem behind_hello {d : Bytes} (hd : d.length ≤ 0x3FFFFFFF) (more : Bytes) :
    behindFrames 1 (BytesCodec.frameBytes d ++ more) = more := by
  obtain ⟨hwidth, hannounced⟩ := (BytesCodec.headBytes_spec hd).2 (d ++ more)
  rw [BytesCodec.frameBytes, List.append_assoc, behindFrames, behindFrames, hwidth, hannounced,
    ← List.append_assoc, ← List.length_append, List.drop_left]

@[simp] theorem Side.other_other (s : Side) : s.other.other = s := by
  cases s <;> rfl

theorem Side.other_ne (s : Side) : s.other ≠ s := by
  cases s <;> simp [Side.other]

namespace Relay

variable {conn : Side → Conn} {greeted : Side → Greeted} {parse : Parser} {r : Relay Addr Conn}

theorem step_ended (h : ¬ r.Looping) (e : RelayEvent Addr) : r.step parse e = r := by
  simp only [Relay.step, not_not.mp h]

/-- A link of the relay after a step that is not a `send`. -/
structure Moved (l l' : Link) : Prop where
  sent : l'.sent = l.sent
  raw : l.reader.raw.flatten <+: l'.reader.raw.flatten
  closed : l'.closed = false → l.closed = false

theorem Moved.refl (l : Link) : Moved l l := ⟨rfl, List.prefix_rfl, id⟩

theorem moved_update {side : Side} {link : Link} (h : Moved (r.links side) link) (s : Side) :
    Moved (r.links s) ((r.update side link).links s) := by
  by_cases hs : s = side
  · subst hs
    rw [update_links_self]
    exact h
  · rw [update_links_ne hs]
    exact .refl _

theorem moved_decode {l : Link} (hr : l.reader.codec.raw = true) :
    Moved l { l with reader := l.reader.decode } := by
  obtain ⟨-, -, hreceived, -, hraw⟩ := Reader.decode_raw hr
  refine ⟨?_, ⟨l.reader.buf, hraw.symm⟩, id⟩
  show l.reader.decode.received ++ l.wire = _
  rw [hreceived]
  rfl

theorem moved_arrive (l : Link) (n : ℕ) : Moved l (l.arrive n) := by
  refine ⟨?_, List.prefix_rfl, id⟩
  show l.reader.received ++ l.wire.take n ++ l.wire.drop n = _
  rw [List.append_assoc, List.take_append_drop]
  rfl

theorem moved_close (l : Link) : Moved l { l with closed := true } := by
  refine ⟨rfl, List.prefix_rfl, ?_⟩
  intro h
  cases h

variable [DecidableEq Conn]

theorem moved_next (h : Carried conn greeted r) (side s : Side) :
    Moved (r.links s) ((r.next parse side).links s) := by
  have hdecode := moved_update (moved_decode (h.raw side)) s
  unfold Relay.next
  dsimp only
  split
  · exact hdecode
  · exact hdecode

variable (parse) in
theorem moved_step (h : Carried conn greeted r) {e : RelayEvent Addr}
    (he : ∀ side bytes, e ≠ .send side bytes) (s : Side) :
    Moved (r.links s) ((r.step parse e).links s) := by
  unfold Relay.step
  split
  · cases e with
    | send side bytes => exact absurd rfl (he side bytes)
    | udp res => exact .refl _
    | fail side err => exact .refl _
    | close side => exact moved_update (moved_close _) s
    | arrive side n => exact moved_update (moved_arrive _ n) s
    | next side => exact moved_next h side s
  · exact .refl _

variable (parse) in
/-- **Bytes move towards the other client.** Whatever was written stays, and
written and waiting bytes together stay what they are. -/
theorem Carried.moves (h : Carried conn greeted r) (hne : conn .stream ≠ conn .peer)
    {e : RelayEvent Addr} (he : ∀ side bytes, e ≠ .send side bytes) (s : Side) :
    r.written conn s.other <+: (r.step parse e).written conn s.other ∧
      (r.step parse e).written conn s.other ++ (r.step parse e).rest s =
        r.written conn s.other ++ r.rest s := by
  have hnext : Carried conn greeted (r.step parse e) := h.step hne e
  have hmoved := moved_step parse h he s
  constructor
  · rw [h.written_eq, hnext.written_eq]
    exact hmoved.raw
  · have hbefore := h.transparent.conserved s
    have hafter := hnext.transparent.conserved s
    rw [hmoved.sent] at hafter
    exact hafter.trans hbefore.symm

theorem written_congr {r' : Relay Addr Conn}
    (hcodec : ∀ side, (r'.links side).reader = (r.links side).reader)
    (hserver : r'.server = r.server) (side : Side) :
    r'.written conn side = r.written conn side := by
  unfold written
  rw [hcodec, hserver]

variable (parse) in
/-- What a client sends is on its connection, unless it has closed it. -/
theorem step_send (hloop : (∃ udp, r.server.wait = .relay (conn .stream) (conn .peer) udp))
    (side : Side) (bytes : Bytes) :
    (∀ s, (r.step parse (.send side bytes)).written conn s = r.written conn s) ∧
      (∀ s, s ≠ side → (r.step parse (.send side bytes)).rest s = r.rest s) ∧
      (∀ s, ((r.step parse (.send side bytes)).links s).closed = (r.links s).closed) ∧
      (r.step parse (.send side bytes)).rest side =
        if (r.links side).closed then r.rest side else r.rest side ++ bytes := by
  obtain ⟨udp, hw⟩ := hloop
  simp only [Relay.step, hw]
  split
  · exact ⟨fun _ => rfl, fun _ _ => rfl, fun _ => rfl, rfl⟩
  · have hother : ∀ s, s ≠ side → (r.update side { r.links side with
        wire := (r.links side).wire ++ bytes }).links s = r.links s :=
      fun s hs => update_links_ne hs _
    refine ⟨written_congr (fun s => ?_) rfl, fun s hs => ?_, fun s => ?_, ?_⟩
    · by_cases hs : s = side
      · subst hs
        rw [update_links_self]
      · rw [hother s hs]
    · rw [rest, hother s hs, rest]
    · by_cases hs : s = side
      · subst hs
        rw [update_links_self]
      · rw [hother s hs]
    · rw [rest, update_links_self, rest, List.append_assoc]

end Relay

/-- In a pair, a `next` that is pending with nothing on the wire has nothing left
to deliver. -/
theorem steady_drained {box : SecretBox Key} {key : Key} (hbox : box.Inverse key)
    {pos : Stream.Side → ℕ} {c : Pair Key} (h : Stream.Steady box key pos c)
    {s : Stream.Side} (hwire : c.wire s = [])
    (hpending : ((c.party s).next box).results = (c.party s).results) :
    (c.party s).results.length = (c.party s.other).passed.length := by
  have hlen := Stream.payloads_length hbox (pos s.other) (h.fits s.other)
  rcases Stream.next_cases (h.flow s) hlen with ⟨cd, b, -, -, hdry⟩ | ⟨d, cd, b, -, -, hnext⟩
  · rw [hdry hwire, Stream.payloads, List.length_mapIdx]
  · rw [hnext] at hpending
    simp at hpending

/-! ## The tunnel runs inside the pair -/

namespace Tunnel

variable [DecidableEq Conn] {box : SecretBox Key} {key : Key} {parse : Parser}
  {conn : Side → Conn} {greeted : Side → Greeted} {pos : Stream.Side → ℕ}
  {t : Tunnel Addr Conn Key} {c : Pair Key}

/-- The clients are those of the pair. What is on its way through the server is
the beginning of the pair's wire, and all of it as long as `relay` loops and the
sending client has not closed its connection. -/
structure Inside (conn : Side → Conn) (greeted : Side → Greeted) (t : Tunnel Addr Conn Key)
    (c : Pair Key) : Prop where
  party : c.party = t.party
  carried : Relay.Carried conn greeted t.relay
  arrived : ∀ s, t.arrived s ≤ (t.relay.written conn (link s)).length
  ahead : ∀ s, t.toClient conn s <+: c.wire s
  looping : t.relay.Looping → ∀ s, (t.pair conn).wire s <+: c.wire s ∧
    ((t.relay.links (link s).other).closed = false → (t.pair conn).wire s = c.wire s)

omit [DecidableEq Conn] in
theorem within_congr {c' : Pair Key} (h : c.party = c'.party) (hc : Stream.Within pos c) :
    Stream.Within pos c' := by
  unfold Stream.Within
  rw [← h]
  exact hc

omit [DecidableEq Conn] in
theorem agreed_congr {c' : Pair Key} (h : c.party = c'.party) {act : PairAction}
    (hc : Stream.Agreed pos c act) : Stream.Agreed pos c' act := by
  cases act with
  | setKey s | send s msg =>
      simp only [Stream.Agreed] at hc ⊢
      rw [← h]
      exact hc
  | arrive s n | next s => trivial

theorem Inside.setParty (h : Inside conn greeted t c) (s : Stream.Side) (p : Party Key) :
    Inside conn greeted (t.setParty s p) (c.setParty s p) where
  party := by
    show Function.update c.party s p = Function.update t.party s p
    rw [h.party]
  carried := h.carried
  arrived := h.arrived
  ahead := h.ahead
  looping := h.looping

omit [DecidableEq Conn] in
theorem pair_send_wire (box : SecretBox Key) (key : Key) (c : Pair Key) (s : Stream.Side)
    (msg : Bytes) :
    (c.step box key (.send s msg)).wire s.other =
        c.wire s.other ++ (c.party s).written box msg ∧
      (c.step box key (.send s msg)).wire s = c.wire s :=
  ⟨Function.update_self .., Function.update_of_ne (Stream.Side.other_ne s).symm ..⟩

omit [DecidableEq Conn] in
theorem pair_send_grows (box : SecretBox Key) (key : Key) (c : Pair Key) (s : Stream.Side)
    (msg : Bytes) (x : Stream.Side) : c.wire x <+: (c.step box key (.send s msg)).wire x := by
  obtain ⟨hout, hin⟩ := pair_send_wire box key c s msg
  rcases Stream.Side.eq_or_eq_other x s with rfl | rfl
  · rw [hin]
  · rw [hout]
    exact List.prefix_append _ _

/-- A message goes onto the wire of the pair, and as long as `relay` may read it
onto the client's connection. -/
theorem Inside.send (h : Inside conn greeted t c) (hne : conn .stream ≠ conn .peer)
    (s : Stream.Side) (msg : Bytes) :
    Inside conn greeted (t.step box key parse conn (.client (.send s msg)))
      (c.step box key (.send s msg)) := by
  have hgrows := pair_send_grows box key c s msg
  obtain ⟨hout, hin⟩ := pair_send_wire box key c s msg
  have hparty : (c.step box key (.send s msg)).party =
      Function.update t.party s ((t.party s).send box msg) := by
    rw [← h.party]
    rfl
  rw [h.party] at hout
  have hcarried : Relay.Carried conn greeted
      (t.relay.step parse (.send (link s) ((t.party s).written box msg))) :=
    h.carried.step hne _
  change Inside conn greeted { t.setParty s ((t.party s).send box msg) with
    relay := t.relay.step parse (.send (link s) ((t.party s).written box msg)) } _
  rcases h.carried.waits with ⟨udp, hw, -⟩ | hw
  · obtain ⟨hwritten, hkept, hclosed, hsent⟩ := Relay.step_send parse ⟨udp, hw⟩
      (link s) ((t.party s).written box msg)
    have hloop : t.relay.Looping := by
      rw [Relay.Looping, hw]
      intro hround
      cases hround
    generalize t.relay.step parse (.send (link s) ((t.party s).written box msg)) = r'
      at hcarried hwritten hkept hclosed hsent
    have hto : ∀ x, toClient conn { t.setParty s ((t.party s).send box msg) with
        relay := r' } x = t.toClient conn x := by
      intro x
      show (r'.written conn (link x)).drop _ = _
      rw [hwritten]
      rfl
    refine ⟨hparty, hcarried, ?_, ?_, ?_⟩
    · intro x
      exact (h.arrived x).trans_eq (congrArg List.length (hwritten (link x))).symm
    · intro x
      rw [hto x]
      exact (h.ahead x).trans (hgrows x)
    · intro _ x
      obtain ⟨hcarry, hwhole⟩ := h.looping hloop x
      rw [hclosed]
      simp only [pair, hto x] at hcarry hwhole ⊢
      rcases Stream.Side.eq_or_eq_other x s with rfl | rfl
      · -- the other direction
        rw [hin, hkept (link x).other (Side.other_ne _)]
        exact ⟨hcarry, hwhole⟩
      · rw [hout, link_other, Side.other_other, hsent]
        rw [link_other, Side.other_other] at hcarry hwhole
        cases hopen : (t.relay.links (link s)).closed with
        | true =>
            rw [if_pos rfl]
            exact ⟨hcarry.trans (List.prefix_append _ _), fun h => by cases h⟩
        | false =>
            rw [if_neg Bool.false_ne_true, ← List.append_assoc, hwhole hopen]
            exact ⟨List.prefix_rfl, fun _ => rfl⟩
  · -- `relay` has returned and reads nothing any more
    have hover : ¬ t.relay.Looping := not_not.mpr hw
    rw [Relay.step_ended hover] at hcarried ⊢
    exact ⟨hparty, hcarried, h.arrived, fun x => (h.ahead x).trans (hgrows x),
      fun hloop => absurd hloop hover⟩

/-- What arrives at a client is at the front of the pair's wire. -/
theorem Inside.arrive (h : Inside conn greeted t c) (s : Stream.Side) (n : ℕ) :
    Inside conn greeted (t.step box key parse conn (.client (.arrive s n)))
      (c.step box key (.arrive s ((t.toClient conn s).take n).length)) := by
  have hle : ((t.toClient conn s).take n).length ≤ (t.toClient conn s).length :=
    List.length_take_le' _ _
  have htake : (c.wire s).take ((t.toClient conn s).take n).length =
      (t.toClient conn s).take n := by
    obtain ⟨more, hmore⟩ := h.ahead s
    rw [← hmore, List.take_append_of_le_length hle, List.length_take, List.take_eq_take_iff]
    omega
  have hparty : (c.step box key (.arrive s ((t.toClient conn s).take n).length)).party =
      Function.update t.party s
        { t.party s with buf := (t.party s).buf ++ (t.toClient conn s).take n } := by
    rw [← h.party]
    show Function.update c.party s { c.party s with buf := _ ++ (c.wire s).take _ } = _
    rw [htake]
  have hwire : (c.step box key (.arrive s ((t.toClient conn s).take n).length)).wire =
      Function.update c.wire s ((c.wire s).drop ((t.toClient conn s).take n).length) := rfl
  change Inside conn greeted { t.setParty s { t.party s with
      buf := (t.party s).buf ++ (t.toClient conn s).take n } with
    arrived := Function.update t.arrived s (t.arrived s + ((t.toClient conn s).take n).length) } _
  generalize ((t.toClient conn s).take n).length = k at hle hparty hwire
  generalize ht' : ({ t.setParty s { t.party s with
      buf := (t.party s).buf ++ (t.toClient conn s).take n } with
    arrived := Function.update t.arrived s (t.arrived s + k) } : Tunnel Addr Conn Key) = t'
  have hrelay : t'.relay = t.relay := by rw [← ht']; rfl
  have hself : t'.toClient conn s = (t.toClient conn s).drop k := by
    rw [← ht', toClient, toClient, List.drop_drop]
    exact congrArg (List.drop · _) (Function.update_self ..)
  have hother : ∀ x, x ≠ s → t'.toClient conn x = t.toClient conn x := by
    intro x hx
    rw [← ht', toClient, toClient]
    exact congrArg (List.drop · _) (Function.update_of_ne hx ..)
  refine ⟨hparty.trans (by rw [← ht']; rfl), hrelay ▸ h.carried, ?_, ?_, ?_⟩
  · intro x
    rw [hrelay]
    by_cases hx : x = s
    · subst hx
      have hroom := h.arrived x
      rw [toClient, List.length_drop] at hle
      rw [← ht']
      show Function.update t.arrived x _ x ≤ _
      rw [Function.update_self]
      omega
    · rw [← ht']
      show Function.update t.arrived s _ x ≤ _
      rw [Function.update_of_ne hx]
      exact h.arrived x
  · intro x
    rw [hwire]
    by_cases hx : x = s
    · subst hx
      rw [Function.update_self, hself]
      exact (h.ahead x).drop k
    · rw [Function.update_of_ne hx, hother x hx]
      exact h.ahead x
  · intro hloop x
    rw [hrelay] at hloop ⊢
    obtain ⟨hcarry, hwhole⟩ := h.looping hloop x
    simp only [pair, hrelay, hwire] at hcarry hwhole ⊢
    by_cases hx : x = s
    · subst hx
      have hcut : (t.toClient conn x).drop k ++ t.relay.rest (link x).other =
          (t.toClient conn x ++ t.relay.rest (link x).other).drop k :=
        (List.drop_append_of_le_length hle).symm
      rw [Function.update_self, hself, hcut]
      exact ⟨hcarry.drop k, fun hc => by rw [hwhole hc]⟩
    · rw [Function.update_of_ne hx, hother x hx]
      exact ⟨hcarry, hwhole⟩

/-- What happens to the server only moves bytes along. -/
theorem Inside.relay (h : Inside conn greeted t c) (hne : conn .stream ≠ conn .peer)
    {e : RelayEvent Addr} (he : ∀ side bytes, e ≠ .send side bytes) :
    Inside conn greeted { t with relay := t.relay.step parse e } c := by
  have hcarried : Relay.Carried conn greeted (t.relay.step parse e) := h.carried.step hne e
  have hmoves : ∀ x, t.relay.written conn (link x) <+:
        (t.relay.step parse e).written conn (link x) ∧
      (t.relay.step parse e).written conn (link x) ++
          (t.relay.step parse e).rest (link x).other =
        t.relay.written conn (link x) ++ t.relay.rest (link x).other := by
    intro x
    have hmove := h.carried.moves parse hne he (link x).other
    rw [Side.other_other] at hmove
    exact hmove
  have hclosed := fun side => (Relay.moved_step parse h.carried he side).closed
  have hlooping : (t.relay.step parse e).Looping → t.relay.Looping := by
    intro hloop
    by_contra hover
    rw [Relay.step_ended hover] at hloop
    exact hover hloop
  by_cases hloop : t.relay.Looping
  · generalize t.relay.step parse e = r' at hcarried hmoves hclosed hlooping
    -- the wire of the pair is what it was
    have hwire : ∀ x, (pair conn { t with relay := r' }).wire x = (t.pair conn).wire x := by
      intro x
      obtain ⟨hcarry, hsum⟩ := hmoves x
      have hlong := (h.arrived x).trans hcarry.length_le
      show (r'.written conn (link x)).drop (t.arrived x) ++ r'.rest (link x).other = _
      rw [← List.drop_append_of_le_length hlong, hsum,
        List.drop_append_of_le_length (h.arrived x)]
      rfl
    refine ⟨h.party, hcarried, ?_, ?_, ?_⟩
    · exact fun x => (h.arrived x).trans (hmoves x).1.length_le
    · intro x
      have hpart : toClient conn { t with relay := r' } x <+:
          (pair conn { t with relay := r' }).wire x := List.prefix_append _ _
      rw [hwire x] at hpart
      exact hpart.trans (h.looping hloop x).1
    · intro _ x
      obtain ⟨hcarry, hwhole⟩ := h.looping hloop x
      rw [hwire x]
      exact ⟨hcarry, fun hopen => hwhole (hclosed _ hopen)⟩
  · rw [Relay.step_ended hloop]
    exact h

/-- **The tunnel runs inside the pair.** A step of a client is its step in the
pair; a step of the server is none. -/
theorem tunnel_simulates (box : SecretBox Key) (key : Key) (parse : Parser)
    (pos : Stream.Side → ℕ) (greeted : Side → Greeted) (hne : conn .stream ≠ conn .peer) :
    Simulates (step box key parse conn)
      (fun t : Tunnel Addr Conn Key => Allowed box key parse conn pos t)
      (Pair.step box key) (Stream.Allowed box key pos) (Inside conn greeted) := by
  -- it is enough to name the action of the pair
  have hfollow : ∀ {t : Tunnel Addr Conn Key} {c : Pair Key} {act act' : PairAction},
      Stream.Agreed pos c act' → Inside conn greeted (t.step box key parse conn (.client act))
        (c.step box key act') → Allowed box key parse conn pos t (.client act) →
      ∃ bs, Along (Pair.step box key) (Stream.Allowed box key pos) c bs ∧
        Inside conn greeted (t.step box key parse conn (.client act))
          (bs.foldl (Pair.step box key) c) := by
    intro t c act act' hagreed hnext hallowed
    exact ⟨[act'], ⟨⟨hagreed, within_congr hnext.party.symm hallowed.2⟩, trivial⟩, hnext⟩
  intro t e c h hallowed
  cases e with
  | client act =>
      cases act with
      | setKey s =>
          have hsame : (c.step box key (.setKey s)) = c.setParty s ((t.party s).setKey key) := by
            rw [← h.party]
            rfl
          exact hfollow (agreed_congr h.party.symm hallowed.1) (hsame ▸ h.setParty s _) hallowed
      | next s =>
          have hsame : (c.step box key (.next s)) = c.setParty s ((t.party s).next box) := by
            rw [← h.party]
            rfl
          have hagreed : Stream.Agreed pos c (.next s) := trivial
          exact hfollow hagreed (hsame ▸ h.setParty s _) hallowed
      | send s msg =>
          exact hfollow (agreed_congr h.party.symm hallowed.1) (h.send hne s msg) hallowed
      | arrive s n =>
          have hagreed : Stream.Agreed pos c
              (.arrive s ((t.toClient conn s).take n).length) := trivial
          exact hfollow hagreed (h.arrive s n) hallowed
  | relay e =>
      refine ⟨[], trivial, ?_⟩
      cases e with
      | send side bytes => exact h
      | _ => exact h.relay hne (by intro side bytes he; cases he)

theorem inside_start (relayServer : String) (idMap : Finmap fun _ : String => Addr)
    (savedStream : Option Conn) (greeted : Side → Greeted) (wire : Side → Bytes) {c : Pair Key}
    {hello : Stream.Side → Bytes} (hmet : Met greeted wire c hello) :
    Inside conn greeted (start conn relayServer idMap savedStream greeted wire c) c := by
  have hcarried := Relay.carried_start relayServer idMap savedStream conn greeted wire
  generalize hr : Relay.start relayServer idMap savedStream conn greeted wire = r at hcarried
  have hempty : ∀ side, r.written conn side = [] := by
    intro side
    have hwritten := hcarried.written_eq side.other
    rw [← hcarried.passed side.other, Side.other_other] at hwritten
    rw [hwritten, ← hr]
    rfl
  have hrest : ∀ x, r.rest (link x).other = c.wire x := by
    intro x
    have hconserved := hcarried.transparent.conserved (link x).other
    have hsent : (r.links (link x).other).sent =
        BytesCodec.frameBytes (hello x.other) ++ c.wire x := by
      have hsent := hmet.sent x.other
      rw [link_other, Stream.Side.other_other] at hsent
      rw [← hsent, ← hr]
      rfl
    rw [hempty, hsent, behind_hello (hmet.short x.other)] at hconserved
    exact hconserved
  have hto : ∀ x, toClient conn (start conn relayServer idMap savedStream greeted wire c) x =
      [] := by
    intro x
    rw [toClient, start]
    simp only [hr, hempty, List.drop_nil]
  refine ⟨rfl, by rw [start, hr]; exact hcarried, fun x => Nat.zero_le _, ?_, ?_⟩
  · intro x
    rw [hto]
    exact List.nil_prefix
  · intro _ x
    have hwire : (pair conn (start conn relayServer idMap savedStream greeted wire c)).wire x =
        c.wire x := by
      show toClient conn _ x ++ _ = _
      rw [hto, List.nil_append, ← hrest x, start, hr]
    rw [hwire]
    exact ⟨List.prefix_rfl, fun _ => rfl⟩

/-- The pair that the tunnel runs inside is steady at every moment. -/
theorem inside_always (hbox : box.Inverse key) {pos : Stream.Side → ℕ} (parse : Parser)
    (hne : conn .stream ≠ conn .peer) (relayServer : String)
    (idMap : Finmap fun _ : String => Addr) (savedStream : Option Conn)
    {greeted : Side → Greeted} {wire : Side → Bytes} {acts : List PairAction}
    (hacts : Along (Pair.step box key) (Stream.Allowed box key pos) Pair.start acts)
    {hello : Stream.Side → Bytes} (hmet : Met greeted wire (Pair.run box key acts) hello)
    {events : List (TunnelEvent Addr)}
    (hruns : Along (step box key parse conn) (Allowed box key parse conn pos)
      (start conn relayServer idMap savedStream greeted wire (Pair.run box key acts)) events) :
    Always (step box key parse conn)
      (fun t => ∃ c, Inside conn greeted t c ∧ Stream.Steady box key pos c)
      (start conn relayServer idMap savedStream greeted wire (Pair.run box key acts)) events :=
  (tunnel_simulates box key parse pos greeted hne).always
    (fun _ _ h hallowed => h.step hbox hallowed)
    (inside_start relayServer idMap savedStream greeted wire hmet)
    (Stream.steady_run hbox hacts) hruns

/-- Nothing is left to deliver. -/
theorem Inside.drained {t : Tunnel Addr Conn Key} {c : Pair Key} {greeted : Side → Greeted}
    (h : Inside conn greeted t c) (hbox : box.Inverse key) {pos : Stream.Side → ℕ}
    (hsteady : Stream.Steady box key pos c) {s : Stream.Side} (hloop : t.relay.Looping)
    (hopen : (t.relay.links (link s).other).closed = false) (hwire : (t.pair conn).wire s = [])
    (hpending : ((t.party s).next box).results = (t.party s).results) :
    (t.party s).results.length = (t.party s.other).passed.length := by
  rw [(h.looping hloop s).2 hopen] at hwire
  rw [← h.party] at hpending ⊢
  exact steady_drained hbox hsteady hwire hpending

/-- **Secured streams work through the relay.** Two clients have sent their first
frames to the relay port, and behind them whatever they like; then `relay` runs,
with any datagrams in between and any sizes of reads, and the clients send,
receive and set their keys as they would with nothing between them. At every
moment what `next` has returned to a client is the first messages the other one
passed to `send_raw`, in order and without an error. While `relay` loops and the
sender has not closed its connection, a `next` that is pending with nothing on the
way has nothing left to deliver. -/
theorem tunnel_delivers (box : SecretBox Key) (key : Key) (hbox : box.Inverse key)
    (pos : Stream.Side → ℕ) (parse : Parser) (hne : conn .stream ≠ conn .peer)
    (relayServer : String) (idMap : Finmap fun _ : String => Addr) (savedStream : Option Conn)
    (greeted : Side → Greeted) (wire : Side → Bytes) (acts : List PairAction)
    (hacts : Along (Pair.step box key) (Stream.Allowed box key pos) Pair.start acts)
    (hello : Stream.Side → Bytes) (hmet : Met greeted wire (Pair.run box key acts) hello)
    (events : List (TunnelEvent Addr))
    (hruns : Along (step box key parse conn) (Allowed box key parse conn pos)
      (start conn relayServer idMap savedStream greeted wire (Pair.run box key acts)) events) :
    Always (step box key parse conn)
      (fun t => ∀ s receiver sender, receiver = t.party s → sender = t.party s.other →
        receiver.results <+: sender.passed.map .ok ∧
        (t.relay.Looping → (t.relay.links (link s).other).closed = false →
          (t.pair conn).wire s = [] → (receiver.next box).results = receiver.results →
          receiver.results.length = sender.passed.length))
      (start conn relayServer idMap savedStream greeted wire (Pair.run box key acts)) events := by
  refine (inside_always hbox parse hne relayServer idMap savedStream hacts hmet hruns).mono ?_
  rintro t ⟨c, hin, hsteady⟩ s _ _ rfl rfl
  refine ⟨?_, fun hloop hopen hwire hpending => hin.drained hbox hsteady hloop hopen hwire hpending⟩
  rw [← hin.party]
  exact hsteady.inOrder s

/-- The clients have sent a first frame `[7]`, and `a` one message more, which the
server has read already. -/
def early : Side → Greeted
  | .stream => ⟨[.arrive [4, 7, 4, 5]], by decide, by decide⟩
  | .peer => ⟨[.arrive [4, 7]], by decide, by decide⟩

/-- The early message reaches `b`; then both set their keys and `a` seals one. -/
def sealedTalk : List (TunnelEvent ℕ) :=
  [.relay (.next .stream), .client (.arrive .b 9), .client (.next .b), .client (.setKey .a),
    .client (.setKey .b), .client (.send .a [9]), .relay (.arrive .stream 99),
    .relay (.next .stream), .client (.arrive .b 99), .client (.next .b)]

theorem early_met : Met early (fun _ => []) (Pair.run Stream.tagBox () [.send .a [5]])
    fun _ => [7] := by
  refine ⟨fun _ => by decide, ?_⟩
  intro s
  cases s <;> decide

theorem early_allowed : Along (Pair.step Stream.tagBox ())
    (Stream.Allowed Stream.tagBox () Stream.onePlain) Pair.start [.send .a [5]] := by
  refine ⟨⟨by decide, ?_⟩, trivial⟩
  intro s
  cases s <;> decide

theorem sealedTalk_allowed : Along (step Stream.tagBox () parseShort Relay.twoConns)
    (Allowed Stream.tagBox () parseShort Relay.twoConns Stream.onePlain)
    (start Relay.twoConns "127.0.0.1" ∅ none early (fun _ => [])
      (Pair.run Stream.tagBox () [.send .a [5]])) sealedTalk := by
  refine ⟨trivial, ⟨trivial, ?_⟩, ⟨trivial, ?_⟩, ⟨by decide, ?_⟩, ⟨by decide, ?_⟩, ⟨by decide, ?_⟩,
    trivial, trivial, ⟨trivial, ?_⟩, ⟨trivial, ?_⟩, trivial⟩
  all_goals
    intro s
    cases s <;> decide

theorem tunnel_delivers_sealedTalk :
    ((sealedTalk.foldl (step Stream.tagBox () parseShort Relay.twoConns)
      (start Relay.twoConns "127.0.0.1" ∅ none early (fun _ => [])
        (Pair.run Stream.tagBox () [.send .a [5]]))).party .b).results = [.ok [5], .ok [9]] ∧
    Always (step Stream.tagBox () parseShort Relay.twoConns)
      (fun t => ∀ s receiver sender, receiver = t.party s → sender = t.party s.other →
        receiver.results <+: sender.passed.map .ok ∧
        (t.relay.Looping → (t.relay.links (link s).other).closed = false →
          (t.pair Relay.twoConns).wire s = [] →
          (receiver.next Stream.tagBox).results = receiver.results →
          receiver.results.length = sender.passed.length))
      (start Relay.twoConns "127.0.0.1" ∅ none early (fun _ => [])
        (Pair.run Stream.tagBox () [.send .a [5]])) sealedTalk :=
  ⟨by decide, tunnel_delivers Stream.tagBox () Stream.tagBox_correct.inverse Stream.onePlain
    parseShort (by decide) "127.0.0.1" ∅ none early (fun _ => []) [.send .a [5]] early_allowed
    (fun _ => [7]) early_met sealedTalk sealedTalk_allowed⟩

end Tunnel

end RustdeskServer.Rendezvous
