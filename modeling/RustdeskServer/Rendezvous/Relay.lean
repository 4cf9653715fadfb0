import RustdeskServer.Rendezvous.Server
import RustdeskServer.Codec.EndOfStream
import RustdeskServer.Codec.Reader
import RustdeskServer.Framework.Runs

/-!
# What `relay` carries

`relay` switches both connections to raw mode and passes on what either of them
reads until one of the two reads fails or ends. Each read side is a `Reader`
that has delivered a first frame in framed mode; the writes are the entries the
server adds to its log, encoded by the raw codec of the other connection.

The invariant `Carried` says that what was written to one connection is what the
reader of the other one returned after the switch. That nothing was lost at the
switch itself is the fact about `set_raw` of the codec: the decoder was not
between a header and its payload, since it had just delivered a frame.
-/

namespace RustdeskServer.Rendezvous

open RustdeskServer.Framework RustdeskServer.Codec

variable {Addr Conn : Type}

/-- A connection whose first `next` has returned a frame: any reads and calls of
`decode`, of which the last one delivered it. -/
structure Greeted where
  ops : List ReadOp
  waiting : ((Reader.start (2 ^ 64 - 1)).run ops).framed = []
  delivered : ((Reader.start (2 ^ 64 - 1)).run (ops ++ [.decode])).framed ≠ []

def Greeted.reader (g : Greeted) : Reader := (Reader.start (2 ^ 64 - 1)).run (g.ops ++ [.decode])

/-- One connection of the relay: its read side, what its client has sent and the
server has not read yet, and whether the client has closed it. -/
structure Link where
  reader : Reader
  wire : Bytes
  closed : Bool

namespace Link

/-- Everything the client has sent. -/
def sent (l : Link) : Bytes := l.reader.received ++ l.wire

def atEnd (l : Link) : Bool := l.closed && l.wire.isEmpty

def arrive (l : Link) (n : ℕ) : Link :=
  { l with reader := l.reader.arrive (l.wire.take n), wire := l.wire.drop n }

/-- `next` on what has been read: what it returns, if it does not have to wait.
At the end of the stream `decode_eof` is called in place of `decode`. -/
def next (l : Link) : Option (Option (Except IoError Bytes)) :=
  if l.atEnd then
    match (BytesCodec.decoder.decodeEof BytesCodec.bytesRemaining l.reader.codec
        l.reader.buf).1 with
    | .ok (some item) => some (some (.ok item))
    | .ok none => some none
    | .error err => some (some (.error err))
  else
    match (l.reader.codec.decode l.reader.buf).1 with
    | .ok (some item) => some (some (.ok item))
    | .ok none => none
    | .error err => some (some (.error err))

end Link

/-- A call of `relay`: the server that runs it, the two connections, and the
side at whose end of stream it has returned. -/
structure Relay (Addr Conn : Type) where
  server : Server Addr Conn
  links : Side → Link
  ended : Option Side

/-- A datagram, something a client does, bytes that are read, a `next` that is
polled, or a read that fails. -/
inductive RelayEvent (Addr : Type) where
  | udp (res : Datagram Addr)
  | send (side : Side) (bytes : Bytes)
  | close (side : Side)
  | arrive (side : Side) (n : ℕ)
  | next (side : Side)
  | fail (side : Side) (err : IoError)

def Side.other : Side → Side
  | .stream => .peer
  | .peer => .stream

/-- What goes to the connection `conn` in raw mode. -/
def Sent.bytesTo [DecidableEq Conn] (conn : Conn) : Sent Addr Conn → Option Bytes
  | .bytes stream chunk => if stream = conn then some chunk else none
  | _ => none

namespace Relay

/-- `relay(stream, peer, ..)` up to its loop. -/
def start (relayServer : String) (idMap : Finmap fun _ : String => Addr)
    (savedStream : Option Conn) (conn : Side → Conn) (greeted : Side → Greeted)
    (wire : Side → Bytes) : Relay Addr Conn where
  server := ⟨relayServer, idMap, savedStream, .relay (conn .stream) (conn .peer) true, []⟩
  links side := ⟨(greeted side).reader.setRaw, wire side, false⟩
  ended := none

def update (r : Relay Addr Conn) (side : Side) (link : Link) : Relay Addr Conn :=
  { r with links := Function.update r.links side link }

/-- A polled `next`: if it returns, the select takes its branch. -/
def next (parse : Parser) (r : Relay Addr Conn) (side : Side) : Relay Addr Conn :=
  let link := r.links side
  let read := r.update side { link with reader := link.reader.decode }
  match link.next with
  | none => read
  | some res =>
      { read with
        server := r.server.step parse (.relayNext side res)
        ended := if res.isNone then some side else r.ended }

/-- Once `relay` has returned nothing happens any more. -/
def step (parse : Parser) (r : Relay Addr Conn) (e : RelayEvent Addr) : Relay Addr Conn :=
  match r.server.wait with
  | .relay _ _ _ =>
      match e with
      | .udp res => { r with server := r.server.step parse (.udp res) }
      | .send side bytes =>
          if (r.links side).closed then r
          else r.update side { r.links side with wire := (r.links side).wire ++ bytes }
      | .close side => r.update side { r.links side with closed := true }
      | .arrive side n => r.update side ((r.links side).arrive n)
      | .next side => r.next parse side
      | .fail side err =>
          { r with server := r.server.step parse (.relayNext side (some (.error err))) }
  | _ => r

variable [DecidableEq Conn]

/-- The bytes written to the connection of `side`: `send_bytes` for every chunk,
encoded by that connection's codec. -/
def written (conn : Side → Conn) (r : Relay Addr Conn) (side : Side) : Bytes :=
  ((r.links side).reader.codec.encodeAll
    (r.server.sent.filterMap (Sent.bytesTo (conn side))) []).2

/-- What is written to one connection is, at every moment, an initial part of
what the other one has sent behind its first frame, the rest being what the
server still has to read or to pass on; and it is all of it when the other one's
end of stream has ended the loop. -/
structure Transparent (conn : Side → Conn) (r : Relay Addr Conn) : Prop where
  ordered : ∀ side, r.written conn side.other <+: behindFrames 1 (r.links side).sent
  conserved : ∀ side, r.written conn side.other ++
    ((r.links side).reader.buf ++ (r.links side).wire) = behindFrames 1 (r.links side).sent
  finished : ∀ side, r.ended = some side → (r.links side).closed = true ∧
    r.written conn side.other = behindFrames 1 (r.links side).sent

end Relay

/-! ## Behind the first frame -/

namespace Greeted

variable (g : Greeted)

theorem reader_head : g.reader.codec.state = .head ∧ g.reader.framed.length = 1 := by
  have hraw : ((Reader.start (2 ^ 64 - 1)).run g.ops).codec.raw = false := by
    obtain ⟨frames, head, hsplit⟩ := Reader.split_run (2 ^ 64 - 1) g.ops
    exact hsplit.raw_eq.1
  have hdelivered := g.delivered
  rw [Reader.run_concat] at hdelivered
  rw [reader, Reader.run_concat]
  generalize hr : (Reader.start (2 ^ 64 - 1)).run g.ops = r at hraw hdelivered
  have hwaiting : r.framed = [] := by rw [← hr, g.waiting]
  change r.decode.framed ≠ [] at hdelivered
  show r.decode.codec.state = .head ∧ r.decode.framed.length = 1
  rcases hd : r.codec.decode r.buf with ⟨_ | (_ | item), codec, buf⟩
  · rw [Reader.decode_error hd] at hdelivered
    exact absurd hwaiting hdelivered
  · rw [Reader.decode_none hd] at hdelivered
    exact absurd hwaiting hdelivered
  · rw [Reader.decode_framed_item hraw hd, hwaiting]
    exact ⟨BytesCodec.decode_item_head hraw hd, rfl⟩

/-- What the client sends behind its first frame is what the reader returns
after the switch and what is still in the buffer or on the wire. -/
theorem behind_first (ops : List ReadOp) (wire : Bytes) :
    behindFrames 1 ((g.reader.setRaw.run ops).received ++ wire) =
      (g.reader.setRaw.run ops).raw.flatten ++ ((g.reader.setRaw.run ops).buf ++ wire) := by
  obtain ⟨hstate, hone⟩ := g.reader_head
  -- what is on the wire counts as one more arrival
  obtain ⟨head, hahead, hbehind⟩ := Reader.setRaw_run (m := 2 ^ 64 - 1) (g.ops ++ [.decode])
    (ops ++ [.arrive wire])
  change Reader.ReadAhead _ g.reader.codec.state head at hahead
  change behindFrames g.reader.framed.length (g.reader.setRaw.run _).received =
    head ++ ((g.reader.setRaw.run _).raw.flatten ++ (g.reader.setRaw.run _).buf) at hbehind
  rw [hstate] at hahead
  obtain rfl : head = [] := hahead
  rw [hone, Reader.run_concat] at hbehind
  exact hbehind

end Greeted

/-! ## Raw links -/

theorem encodeAll_raw {c : BytesCodec} (hr : c.raw = true) (msgs : List Bytes) (buf : Bytes) :
    c.encodeAll msgs buf = (.ok (), buf ++ msgs.flatten) := by
  induction msgs generalizing buf with
  | nil => rw [BytesCodec.encodeAll, List.flatten_nil, List.append_nil]
  | cons d ds ih =>
      have hone : c.encode d buf = (.ok (), buf ++ d) := by
        rw [BytesCodec.encode, if_pos hr]
      rw [BytesCodec.encodeAll, hone, List.flatten_cons, ← List.append_assoc]
      exact ih (buf ++ d)

/-- A raw `next` returns the buffer, the end of the stream, or nothing yet. -/
theorem Link.next_raw {l : Link} (hr : l.reader.codec.raw = true) :
    (l.reader.buf ≠ [] ∧ l.next = some (some (.ok l.reader.buf))) ∨
      (l.reader.buf = [] ∧ l.atEnd = true ∧ l.next = some none) ∨
      (l.reader.buf = [] ∧ l.next = none) := by
  have hd := BytesCodec.decode_raw hr l.reader.buf
  cases hb : l.reader.buf with
  | cons b bs =>
      rw [hb] at hd
      have hraw : l.reader.codec.decode (b :: bs) = (.ok (some (b :: bs)), l.reader.codec, []) := hd
      have heof : BytesCodec.decoder.decodeEof BytesCodec.bytesRemaining l.reader.codec (b :: bs) =
          (.ok (some (b :: bs)), l.reader.codec, []) := by
        simp only [Decoder.decodeEof, BytesCodec.decoder, hraw]
      refine Or.inl ⟨List.cons_ne_nil b bs, ?_⟩
      simp only [Link.next, hb, hraw, heof, ite_self]
  | nil =>
      rw [hb] at hd
      have hraw : l.reader.codec.decode [] = (.ok none, l.reader.codec, []) := hd
      have heof : BytesCodec.decoder.decodeEof BytesCodec.bytesRemaining l.reader.codec [] =
          (.ok none, l.reader.codec, []) := by
        simp only [Decoder.decodeEof, BytesCodec.decoder, hraw, List.isEmpty_nil, if_true]
      right
      cases hend : l.atEnd with
      | true =>
          refine Or.inl ⟨rfl, rfl, ?_⟩
          simp only [Link.next, hb, hend, heof, if_true]
      | false =>
          refine Or.inr ⟨rfl, ?_⟩
          simp only [Link.next, hb, hend, hraw, Bool.false_eq_true, if_false]

/-! ## The invariant -/

namespace Relay

variable {conn : Side → Conn} {greeted : Side → Greeted} {parse : Parser}
  {r : Relay Addr Conn}

theorem otherEnd_eq (conn : Side → Conn) (side : Side) :
    Server.otherEnd (conn .stream) (conn .peer) side = conn side.other := by
  cases side with
  | stream => rfl
  | peer => rfl

variable [DecidableEq Conn]

/-- The chunks the server has passed on to the connection of `side`. -/
def passedTo (conn : Side → Conn) (r : Relay Addr Conn) (side : Side) : List Bytes :=
  r.server.sent.filterMap (Sent.bytesTo (conn side))

/-- The readers are the greeted ones after `set_raw`, and what they have
returned is what was passed on. While the loop runs no side has ended it. -/
structure Carried (conn : Side → Conn) (greeted : Side → Greeted) (r : Relay Addr Conn) :
    Prop where
  waits : (∃ udp, r.server.wait = .relay (conn .stream) (conn .peer) udp ∧ r.ended = none) ∨
    r.server.wait = .round
  read : ∀ side, ∃ ops, (r.links side).reader = (greeted side).reader.setRaw.run ops
  passed : ∀ side, (r.passedTo conn side.other).flatten = (r.links side).reader.raw.flatten
  ended : ∀ side, r.ended = some side → (r.links side).closed = true ∧
    (r.links side).wire = [] ∧ (r.links side).reader.buf = []

theorem Carried.raw (h : Carried conn greeted r) (side : Side) :
    (r.links side).reader.codec.raw = true := by
  obtain ⟨ops, hops⟩ := h.read side
  rw [hops, (Reader.raw_run rfl ops).1]
  rfl

theorem Carried.written_eq (h : Carried conn greeted r) (side : Side) :
    r.written conn side.other = (r.links side).reader.raw.flatten := by
  rw [← h.passed side, written, encodeAll_raw (h.raw side.other)]
  rfl

theorem Carried.transparent (h : Carried conn greeted r) : Transparent conn r := by
  have hsent : ∀ side, r.written conn side.other ++
      ((r.links side).reader.buf ++ (r.links side).wire) =
        behindFrames 1 (r.links side).sent := by
    intro side
    obtain ⟨ops, hops⟩ := h.read side
    rw [h.written_eq, Link.sent, hops, Greeted.behind_first]
  refine ⟨fun side => ⟨_, hsent side⟩, hsent, fun side hended => ?_⟩
  obtain ⟨hclosed, hwire, hbuf⟩ := h.ended side hended
  refine ⟨hclosed, ?_⟩
  rw [← hsent side, hwire, hbuf, List.append_nil, List.append_nil]

/-! ## Steps -/

theorem carried_start (relayServer : String) (idMap : Finmap fun _ : String => Addr)
    (savedStream : Option Conn) (conn : Side → Conn) (greeted : Side → Greeted)
    (wire : Side → Bytes) :
    Carried conn greeted (start relayServer idMap savedStream conn greeted wire) where
  waits := Or.inl ⟨true, rfl, rfl⟩
  read _ := ⟨[], rfl⟩
  passed side := by
    obtain ⟨frames, head, hsplit⟩ := Reader.split_run (2 ^ 64 - 1)
      ((greeted side).ops ++ [.decode])
    have hnone : (greeted side).reader.raw = [] := hsplit.raw_eq.2
    show [] = (greeted side).reader.raw.flatten
    rw [hnone]
    rfl
  ended side h := by cases h

omit [DecidableEq Conn] in
@[simp] theorem update_links_self (side : Side) (link : Link) :
    (r.update side link).links side = link := by
  show Function.update r.links side link side = link
  rw [Function.update_self]

omit [DecidableEq Conn] in
theorem update_links_ne {side s : Side} (hs : s ≠ side) (link : Link) :
    (r.update side link).links s = r.links s := by
  show Function.update r.links side link s = r.links s
  rw [Function.update_of_ne hs]

/-- The reader of one side goes on, and what it returns is passed on. -/
theorem Carried.read_on (h : Carried conn greeted r) {side : Side} {link : Link}
    (ops : List ReadOp) {server : Server Addr Conn} {ended : Option Side}
    (hread : link.reader = (r.links side).reader.run ops)
    (hwait : (∃ udp, server.wait = .relay (conn .stream) (conn .peer) udp ∧ ended = none) ∨
      server.wait = .round)
    (hpassed : (server.sent.filterMap (Sent.bytesTo (conn side.other))).flatten =
      link.reader.raw.flatten)
    (hkept : server.sent.filterMap (Sent.bytesTo (conn side)) = r.passedTo conn side)
    (hended : ∀ s, ended = some s → s = side ∧ link.closed = true ∧ link.wire = [] ∧
      link.reader.buf = []) :
    Carried conn greeted { r.update side link with server, ended } where
  waits := hwait
  read s := by
    by_cases hs : s = side
    · subst hs
      obtain ⟨before, hbefore⟩ := h.read s
      refine ⟨before ++ ops, ?_⟩
      rw [update_links_self, hread, hbefore, Reader.run, Reader.run, Reader.run,
        List.foldl_append]
    · rw [update_links_ne hs]
      exact h.read s
  passed s := by
    by_cases hs : s = side
    · subst hs
      rw [update_links_self]
      exact hpassed
    · have hother : s.other = side := by
        cases s <;> cases side <;> first | rfl | exact absurd rfl hs
      rw [update_links_ne hs, hother, ← h.passed s, hother, ← hkept]
      rfl
  ended s hs := by
    obtain ⟨rfl, hclosed, hwire, hbuf⟩ := hended s hs
    rw [update_links_self]
    exact ⟨hclosed, hwire, hbuf⟩

/-- Reads and client actions concern one link and return nothing. -/
theorem Carried.update (h : Carried conn greeted r) {udp : Bool}
    (hw : r.server.wait = .relay (conn .stream) (conn .peer) udp) (hopen : r.ended = none)
    {side : Side} {link : Link} (ops : List ReadOp)
    (hread : link.reader = (r.links side).reader.run ops)
    (hraw : link.reader.raw.flatten = (r.links side).reader.raw.flatten) :
    Carried conn greeted (r.update side link) := by
  refine h.read_on ops hread (Or.inl ⟨udp, hw, hopen⟩) ?_ rfl ?_
  · rw [hraw]
    exact h.passed side
  · intro s hs
    rw [hopen] at hs
    cases hs

/-- What the server does without a read keeps the log of chunks. -/
theorem Carried.server (h : Carried conn greeted r) (hopen : r.ended = none)
    {server : Server Addr Conn}
    (hwait : (∃ udp, server.wait = .relay (conn .stream) (conn .peer) udp) ∨
      server.wait = .round)
    (hsent : ∀ side, server.sent.filterMap (Sent.bytesTo (conn side)) = r.passedTo conn side) :
    Carried conn greeted { r with server } where
  waits := by
    rcases hwait with ⟨udp, hw⟩ | hw
    · exact Or.inl ⟨udp, hw, hopen⟩
    · exact Or.inr hw
  read := h.read
  passed side := by
    rw [passedTo, hsent]
    exact h.passed side
  ended := h.ended

/-- Datagrams are handled inside the loop and write to neither connection. -/
theorem udp_step (parse : Parser) {s : Server Addr Conn} {stream peer : Conn} {udp : Bool}
    (hw : s.wait = .relay stream peer udp) (res : Datagram Addr) :
    (∃ udp, (s.step parse (.udp res)).wait = .relay stream peer udp) ∧
      ∀ c, (s.step parse (.udp res)).sent.filterMap (Sent.bytesTo c) =
        s.sent.filterMap (Sent.bytesTo c) := by
  have hstep := Server.step_stepped parse s (.udp res)
  generalize s.step parse (.udp res) = s' at hstep ⊢
  cases hstep with
  | ignored => exact ⟨⟨udp, hw⟩, fun c => rfl⟩
  | datagram _ _ hselect | udpFails hselect =>
      rw [hw] at hselect
      cases hselect
  | relayDatagram bytes addr hrelay =>
      rw [hw] at hrelay
      cases hrelay
      refine ⟨⟨true, rfl⟩, fun c => ?_⟩
      rw [Server.await_sent]
      rcases (Server.handleUdp_frame parse s bytes addr).2 with hsame | ⟨msg, hmsg⟩
      · rw [hsame]
      · rw [hmsg, List.filterMap_append]
        exact List.append_nil _
  | relayUdpFails hrelay =>
      rw [hw] at hrelay
      cases hrelay
      exact ⟨⟨false, rfl⟩, fun c => rfl⟩

omit [DecidableEq Conn] in
/-- A chunk goes to the other connection, and any other result ends the loop. -/
theorem relayNext_eq (parse : Parser) {s : Server Addr Conn} {udp : Bool}
    (hw : s.wait = .relay (conn .stream) (conn .peer) udp) (side : Side) :
    (∀ bytes, s.step parse (.relayNext side (some (.ok bytes))) =
      (s.send (.bytes (conn side.other) bytes)).await
        (.relay (conn .stream) (conn .peer) true)) ∧
    s.step parse (.relayNext side none) = s.await .round ∧
    ∀ err, s.step parse (.relayNext side (some (.error err))) = s.await .round := by
  rw [← otherEnd_eq conn side]
  exact ⟨fun bytes => by simp only [Server.step, hw], by simp only [Server.step, hw],
    fun err => by simp only [Server.step, hw]⟩

theorem Carried.next (h : Carried conn greeted r) (hne : conn .stream ≠ conn .peer)
    {udp : Bool}
    (hw : r.server.wait = .relay (conn .stream) (conn .peer) udp) (hopen : r.ended = none)
    (side : Side) : Carried conn greeted (r.next parse side) := by
  obtain ⟨-, -, -, hbuf, hraw⟩ := Reader.decode_raw (h.raw side)
  obtain ⟨hchunk, hend, -⟩ := relayNext_eq parse hw side
  rcases Link.next_raw (h.raw side) with ⟨-, hnext⟩ | ⟨hempty, hatEnd, hnext⟩ | ⟨hempty, hnext⟩
  · -- the buffer goes to the other connection
    rw [Relay.next, hnext]
    simp only [hchunk]
    refine h.read_on [.decode] rfl (Or.inl ⟨true, rfl, hopen⟩) ?_ ?_ ?_
    · rw [Server.await_sent, Server.send_sent, List.filterMap_append, List.flatten_append, hraw,
        ← h.passed side]
      simp [Sent.bytesTo, passedTo]
    · have hapart : conn side.other ≠ conn side := by
        cases side with
        | stream => exact hne.symm
        | peer => exact hne
      rw [Server.await_sent, Server.send_sent, List.filterMap_append]
      simp [Sent.bytesTo, hapart, passedTo]
    · intro s hs
      rw [hopen] at hs
      cases hs
  · -- the end of the stream, with an empty buffer and an empty wire
    rw [Relay.next, hnext]
    simp only [hend]
    refine h.read_on [.decode] rfl (Or.inr rfl) ?_ rfl ?_
    · rw [hraw, hempty, List.append_nil]
      exact h.passed side
    · intro s hs
      obtain rfl : side = s := Option.some.inj hs
      rw [Link.atEnd, Bool.and_eq_true, List.isEmpty_iff] at hatEnd
      exact ⟨rfl, hatEnd.1, hatEnd.2, hbuf⟩
  · -- nothing to read yet
    rw [Relay.next, hnext]
    refine h.update hw hopen [.decode] rfl ?_
    show (r.links side).reader.decode.raw.flatten = _
    rw [hraw, hempty, List.append_nil]

theorem Carried.step (h : Carried conn greeted r) (hne : conn .stream ≠ conn .peer)
    (e : RelayEvent Addr) : Carried conn greeted (r.step parse e) := by
  rcases h.waits with ⟨udp, hw, hopen⟩ | hw
  · cases e with
    | udp res =>
        simp only [Relay.step, hw]
        obtain ⟨hwait, hsent⟩ := udp_step parse hw res
        exact h.server hopen (Or.inl hwait) (fun side => hsent _)
    | send side bytes =>
        simp only [Relay.step, hw]
        split
        · exact h
        · exact h.update hw hopen [] rfl rfl
    | close side =>
        simp only [Relay.step, hw]
        exact h.update hw hopen [] rfl rfl
    | arrive side n =>
        simp only [Relay.step, hw]
        exact h.update hw hopen [.arrive _] rfl rfl
    | next side =>
        simp only [Relay.step, hw]
        exact h.next hne hw hopen side
    | fail side err =>
        simp only [Relay.step, hw, (relayNext_eq parse hw side).2.2 err]
        exact h.server hopen (Or.inr rfl) (fun _ => rfl)
  · simp only [Relay.step, hw]
    exact h

/-- **Relay transparency.** Two distinct connections, each of which delivered a
complete first frame before the switch; any chunking, any interleaving of reads
from both with datagrams of any content, any further bytes and ends of the two
clients: at every moment what was written to either is what the other one sent
behind its first frame, in order and up to what has still to be passed on. -/
theorem relay_transparent (parse : Parser) (conn : Side → Conn)
    (hne : conn .stream ≠ conn .peer) (greeted : Side → Greeted) (wire : Side → Bytes)
    (relayServer : String) (idMap : Finmap fun _ : String => Addr) (savedStream : Option Conn)
    (events : List (RelayEvent Addr)) :
    Always (step parse) (Transparent conn)
      (start relayServer idMap savedStream conn greeted wire) events := by
  have hcarried : Always (step parse) (Carried conn greeted)
      (start relayServer idMap savedStream conn greeted wire) events :=
    always_of_step (fun r e h => h.step hne e) events
      (carried_start relayServer idMap savedStream conn greeted wire)
  exact hcarried.mono fun r h => h.transparent

/-- A first frame `[7]` with one more byte behind it in the buffer. -/
def greetedPair : Side → Greeted := fun _ => ⟨[.arrive [4, 7, 9]], by decide, by decide⟩

def twoConns : Side → ℕ
  | .stream => 1
  | .peer => 2

def exchange : List (RelayEvent ℕ) :=
  [.next .stream, .send .peer [5], .udp none, .arrive .peer 1, .next .peer, .close .peer,
    .next .peer]

theorem relay_transparent_exchange :
    (exchange.foldl (step parseShort)
        (start "127.0.0.1" ∅ none twoConns greetedPair fun _ => [])).written twoConns .stream =
      [9, 5] ∧
    Always (step parseShort) (Transparent twoConns)
      (start "127.0.0.1" ∅ none twoConns greetedPair fun _ => []) exchange :=
  ⟨by decide, relay_transparent parseShort twoConns (by decide) greetedPair (fun _ => [])
    "127.0.0.1" ∅ none exchange⟩

end Relay

end RustdeskServer.Rendezvous
