import RustdeskServer.Codec.BytesCodec
import Mathlib.Data.Finmap

/-!
# The rendezvous server (`main.rs`)

The server is one task, so between two awaits nothing else runs. `Wait` names
every await at which the outcome is not up to the server, with the variables
that are alive there; `step` takes the server from one of them to the next. An
outcome that nobody waits for leaves the server as it is: a disabled branch of a
select does not poll its socket, and the kernel keeps what is there.

Sends are awaited too, but their result is dropped (`.ok()`), so each is an
entry of the log `sent` and not a wait. Parsing (`parse_from_bytes`) belongs to
the generated protobuf code and is a parameter.
-/

namespace RustdeskServer.Rendezvous

open RustdeskServer.Codec

/-! ## Messages (`rendezvous.proto`) -/

structure RegisterPeer where
  id : String
deriving DecidableEq

structure RegisterPeerResponse where
  requestPk : Bool := false
deriving DecidableEq

structure PunchHoleRequest where
  id : String
deriving DecidableEq

/-- `RegisterPkResponse.Result`. -/
inductive RegisterPkResult where
  | ok
  | uuidMismatch
deriving DecidableEq

structure RegisterPkResponse where
  result : RegisterPkResult
deriving DecidableEq

structure RequestRelay where
  id : String := ""
  uuid : String := ""
  socketAddr : Bytes := []
  relayServer : String := ""
  secure : Bool := false
deriving DecidableEq

structure RelayResponse where
  socketAddr : Bytes := []
  uuid : String := ""
  relayServer : String := ""
  union : Option (String ⊕ Bytes) := none
deriving DecidableEq

/-- `rendezvous_message::Union`; `other` stands for the members the server
neither reads nor sends. -/
inductive Union where
  | registerPeer (m : RegisterPeer)
  | registerPeerResponse (m : RegisterPeerResponse)
  | punchHoleRequest (m : PunchHoleRequest)
  | registerPk
  | registerPkResponse (m : RegisterPkResponse)
  | requestRelay (m : RequestRelay)
  | relayResponse (m : RelayResponse)
  | other
deriving DecidableEq

structure RendezvousMessage where
  union : Option Union
deriving DecidableEq

/-- `RendezvousMessage::parse_from_bytes`, an `Err` being `none`. -/
abbrev Parser : Type := Bytes → Option RendezvousMessage

/-- The wire format of the messages that runs on concrete inputs need: an id of
one character, or an empty relay response. -/
def parseShort : Parser
  | [0x32, 3, 0x0a, 1, 0x78] => some ⟨some (.registerPeer ⟨"x"⟩)⟩
  | [0x32, 3, 0x0a, 1, 0x79] => some ⟨some (.registerPeer ⟨"y"⟩)⟩
  | [0x42, 3, 0x0a, 1, 0x78] => some ⟨some (.punchHoleRequest ⟨"x"⟩)⟩
  | [0x42, 3, 0x0a, 1, 0x79] => some ⟨some (.punchHoleRequest ⟨"y"⟩)⟩
  | [0x9a, 1, 0] => some ⟨some (.relayResponse {})⟩
  | _ => none

/-! ## State -/

/-- The two parameters of `relay` that are connections. -/
inductive Side where
  | stream
  | peer
deriving DecidableEq

/-- Where the server waits. A select carries which of its branches that can be
disabled are still enabled in this round: the socket's and the listener's in
`main`, the socket's in `relay`. -/
inductive Wait (Conn : Type) where
  | select (udp accept : Bool)
  | firstFrame (stream : Conn)
  | acceptA
  | handshakeA (streamA : Conn)
  | acceptB (streamA : Conn)
  | handshakeB (streamA streamB : Conn)
  | relay (stream peer : Conn) (udp : Bool)
  | panicked
deriving DecidableEq

/-- A new round of the select in `main`. -/
abbrev Wait.round {Conn : Type} : Wait Conn := .select true true

/-- What the server has tried to send, and where. -/
inductive Sent (Addr Conn : Type) where
  | datagram (msg : Union) (addr : Addr)
  | message (stream : Conn) (msg : Union)
  | bytes (stream : Conn) (bytes : Bytes)
deriving DecidableEq

/-- The variables of `main`. The connections of a session live in `wait`. -/
structure Server (Addr Conn : Type) where
  relayServer : String
  idMap : Finmap fun _ : String => Addr
  savedStream : Option Conn
  wait : Wait Conn
  sent : List (Sent Addr Conn)

/-- What `socket.next()` returns. -/
abbrev Datagram (Addr : Type) : Type := Option (Except IoError (Bytes × Addr))

/-- `None`, or `Some(Err(_))`: the pattern `Some(Ok(_))` does not match. -/
def Datagram.Fails {Addr : Type} (res : Datagram Addr) : Prop := ∀ d, res ≠ some (.ok d)

/-- The outcome of something the server may be waiting for: a datagram, an
accept on either listener, the first frame of a connection or its timeout, or a
read of one of the two joined connections. -/
inductive Event (Addr Conn : Type) where
  | udp (res : Datagram Addr)
  | accept (res : Except IoError Conn)
  | relayAccept (res : Except IoError Conn)
  | nextTimeout (res : Option (Except IoError Bytes))
  | relayNext (side : Side) (res : Option (Except IoError Bytes))

variable {Addr Conn : Type}

namespace Server

/-- `main` up to its loop. -/
def start (relayServer : String) : Server Addr Conn :=
  ⟨relayServer, ∅, none, .round, []⟩

def send (s : Server Addr Conn) (out : Sent Addr Conn) : Server Addr Conn :=
  { s with sent := s.sent ++ [out] }

/-- Go on to the next await. -/
def await (s : Server Addr Conn) (wait : Wait Conn) : Server Addr Conn :=
  { s with wait }

/-! ## Handlers -/

def handleUdp (parse : Parser) (s : Server Addr Conn) (bytes : Bytes) (addr : Addr) :
    Server Addr Conn :=
  match parse bytes with
  | some ⟨some (.registerPeer rp)⟩ =>
      { s with idMap := s.idMap.insert rp.id addr }.send
        (.datagram (.registerPeerResponse {}) addr)
  | some ⟨some .registerPk⟩ => s.send (.datagram (.registerPkResponse { result := .ok }) addr)
  | _ => s

/-- The punch hole request of `stream`. -/
def punchHoleRequest (s : Server Addr Conn) (stream : Conn) (ph : PunchHoleRequest) :
    Server Addr Conn :=
  match s.idMap.lookup ph.id with
  | some addr =>
      { s.send (.datagram (.requestRelay { relayServer := s.relayServer }) addr) with
        savedStream := some stream }.await .round
  | none => s.await .round

/-- A relay response: the saved stream is taken and answered, and the first of
two connections to the relay port is waited for. -/
def relayResponse (s : Server Addr Conn) : Server Addr Conn :=
  match s.savedStream with
  | some stream =>
      { s with savedStream := none }.send
        (.message stream (.relayResponse { relayServer := s.relayServer })) |>.await .acceptA
  | none => s.await .round

/-- The branch of `listener.accept()` once `next_timeout` has returned. -/
def handleFirst (parse : Parser) (s : Server Addr Conn) (stream : Conn)
    (res : Option (Except IoError Bytes)) : Server Addr Conn :=
  match res with
  | some (.ok bytes) =>
      match parse bytes with
      | some ⟨some (.punchHoleRequest ph)⟩ => s.punchHoleRequest stream ph
      | some ⟨some (.relayResponse _)⟩ => s.relayResponse
      | _ => s.await .round
  | _ => s.await .round

/-- The connection that gets what `relay` reads from `side`. -/
def otherEnd (stream peer : Conn) : Side → Conn
  | .stream => peer
  | .peer => stream

/-! ## One await to the next -/

/-- A result that does not match its branch's pattern disables the branch for
the rest of the round; a select with no branch left panics. The two read
branches of `relay` match every result. -/
def step (parse : Parser) (s : Server Addr Conn) (e : Event Addr Conn) : Server Addr Conn :=
  match s.wait, e with
  | .select true _, .udp (some (.ok (bytes, addr))) =>
      (s.handleUdp parse bytes addr).await .round
  -- the pattern does not match, and the branch is off for the rest of the round
  | .select true accept, .udp _ => s.await (if accept then .select false true else .panicked)
  | .select _ true, .accept (.ok stream) => s.await (.firstFrame stream)
  | .select udp true, .accept (.error _) =>
      s.await (if udp then .select true false else .panicked)
  | .firstFrame stream, .nextTimeout res => s.handleFirst parse stream res
  -- from here to `relay` nothing polls the socket, and the accepts have no timer
  | .acceptA, .relayAccept (.ok streamA) => s.await (.handshakeA streamA)
  | .acceptA, .relayAccept (.error _) => s.await .round
  -- what the first frame was, or whether one came at all, is not looked at
  | .handshakeA streamA, .nextTimeout _ => s.await (.acceptB streamA)
  | .acceptB streamA, .relayAccept (.ok streamB) => s.await (.handshakeB streamA streamB)
  | .acceptB _, .relayAccept (.error _) => s.await .round
  | .handshakeB streamA streamB, .nextTimeout _ => s.await (.relay streamA streamB true)
  | .relay stream peer true, .udp (some (.ok (bytes, addr))) =>
      (s.handleUdp parse bytes addr).await (.relay stream peer true)
  | .relay stream peer true, .udp _ => s.await (.relay stream peer false)
  -- a read that returns ends the round: the socket is polled again
  | .relay stream peer _, .relayNext side (some (.ok bytes)) =>
      (s.send (.bytes (otherEnd stream peer side) bytes)).await (.relay stream peer true)
  | .relay _ _ _, .relayNext _ _ => s.await .round
  | _, _ => s

/-! ## What the handlers leave alone -/

variable (parse : Parser) (s : Server Addr Conn)

@[simp] theorem await_wait (w : Wait Conn) : (s.await w).wait = w := rfl
@[simp] theorem await_idMap (w : Wait Conn) : (s.await w).idMap = s.idMap := rfl
@[simp] theorem await_savedStream (w : Wait Conn) :
    (s.await w).savedStream = s.savedStream := rfl
@[simp] theorem await_sent (w : Wait Conn) : (s.await w).sent = s.sent := rfl
@[simp] theorem send_wait (out : Sent Addr Conn) : (s.send out).wait = s.wait := rfl
@[simp] theorem send_idMap (out : Sent Addr Conn) : (s.send out).idMap = s.idMap := rfl
@[simp] theorem send_savedStream (out : Sent Addr Conn) :
    (s.send out).savedStream = s.savedStream := rfl
@[simp] theorem send_sent (out : Sent Addr Conn) : (s.send out).sent = s.sent ++ [out] := rfl

/-- A datagram is answered to its sender or not at all, and concerns no
connection. -/
theorem handleUdp_frame (bytes : Bytes) (addr : Addr) :
    (s.handleUdp parse bytes addr).savedStream = s.savedStream ∧
      ((s.handleUdp parse bytes addr).sent = s.sent ∨
        ∃ msg, (s.handleUdp parse bytes addr).sent = s.sent ++ [.datagram msg addr]) := by
  unfold handleUdp
  split
  · exact ⟨rfl, Or.inr ⟨_, rfl⟩⟩
  · exact ⟨rfl, Or.inr ⟨_, rfl⟩⟩
  · exact ⟨rfl, Or.inl rfl⟩

theorem handleUdp_register {bytes : Bytes} {rp : RegisterPeer}
    (h : parse bytes = some ⟨some (.registerPeer rp)⟩) (addr : Addr) :
    (s.handleUdp parse bytes addr).idMap = s.idMap.insert rp.id addr := by
  simp only [handleUdp, h, send_idMap]

theorem punchHoleRequest_wait (stream : Conn) (ph : PunchHoleRequest) :
    (s.punchHoleRequest stream ph).wait = .round := by
  unfold punchHoleRequest
  split <;> rfl

theorem relayResponse_wait :
    s.relayResponse.wait = .acceptA ∨ s.relayResponse.wait = .round := by
  unfold relayResponse
  split
  · exact Or.inl rfl
  · exact Or.inr rfl

theorem handleFirst_wait (stream : Conn) (res : Option (Except IoError Bytes)) :
    (s.handleFirst parse stream res).wait = .acceptA ∨
      (s.handleFirst parse stream res).wait = .round := by
  unfold handleFirst
  split
  · split
    · exact Or.inr (punchHoleRequest_wait s _ _)
    · exact relayResponse_wait s
    · exact Or.inr rfl
  · exact Or.inr rfl

/-! ## What a step can be -/

/-- The ways from one await to the next, by what was waited for. -/
inductive Stepped (parse : Parser) (s : Server Addr Conn) :
    Event Addr Conn → Server Addr Conn → Prop
  | ignored (e : Event Addr Conn) : Stepped parse s e s
  | datagram {accept : Bool} (bytes : Bytes) (addr : Addr) : s.wait = .select true accept →
      Stepped parse s (.udp (some (.ok (bytes, addr))))
        ((s.handleUdp parse bytes addr).await .round)
  | udpFails {accept : Bool} {res : Datagram Addr} : s.wait = .select true accept → res.Fails →
      Stepped parse s (.udp res) (s.await (if accept then .select false true else .panicked))
  | accepted {udp : Bool} (stream : Conn) : s.wait = .select udp true →
      Stepped parse s (.accept (.ok stream)) (s.await (.firstFrame stream))
  | acceptFails {udp : Bool} (err : IoError) : s.wait = .select udp true →
      Stepped parse s (.accept (.error err))
        (s.await (if udp then .select true false else .panicked))
  | first {stream : Conn} (res : Option (Except IoError Bytes)) : s.wait = .firstFrame stream →
      Stepped parse s (.nextTimeout res) (s.handleFirst parse stream res)
  | acceptedA (streamA : Conn) : s.wait = .acceptA →
      Stepped parse s (.relayAccept (.ok streamA)) (s.await (.handshakeA streamA))
  | acceptAFails (err : IoError) : s.wait = .acceptA →
      Stepped parse s (.relayAccept (.error err)) (s.await .round)
  | handshakeA {streamA : Conn} (res : Option (Except IoError Bytes)) :
      s.wait = .handshakeA streamA →
      Stepped parse s (.nextTimeout res) (s.await (.acceptB streamA))
  | acceptedB {streamA : Conn} (streamB : Conn) : s.wait = .acceptB streamA →
      Stepped parse s (.relayAccept (.ok streamB)) (s.await (.handshakeB streamA streamB))
  | acceptBFails {streamA : Conn} (err : IoError) : s.wait = .acceptB streamA →
      Stepped parse s (.relayAccept (.error err)) (s.await .round)
  | handshakeB {streamA streamB : Conn} (res : Option (Except IoError Bytes)) :
      s.wait = .handshakeB streamA streamB →
      Stepped parse s (.nextTimeout res) (s.await (.relay streamA streamB true))
  | relayDatagram {stream peer : Conn} (bytes : Bytes) (addr : Addr) :
      s.wait = .relay stream peer true →
      Stepped parse s (.udp (some (.ok (bytes, addr))))
        ((s.handleUdp parse bytes addr).await (.relay stream peer true))
  | relayUdpFails {stream peer : Conn} {res : Datagram Addr} :
      s.wait = .relay stream peer true → res.Fails →
      Stepped parse s (.udp res) (s.await (.relay stream peer false))
  | relayed {stream peer : Conn} {udp : Bool} (side : Side) (bytes : Bytes) :
      s.wait = .relay stream peer udp →
      Stepped parse s (.relayNext side (some (.ok bytes)))
        ((s.send (.bytes (otherEnd stream peer side) bytes)).await (.relay stream peer true))
  | relayEnds {stream peer : Conn} {udp : Bool} (side : Side)
      (res : Option (Except IoError Bytes)) : s.wait = .relay stream peer udp →
      Stepped parse s (.relayNext side res) (s.await .round)

theorem step_stepped (e : Event Addr Conn) : Stepped parse s e (s.step parse e) := by
  unfold step
  split
  case h_1 hw => exact .datagram _ _ hw
  case h_2 hne hw => exact .udpFails hw fun d hd => hne d.1 d.2 hd
  case h_3 hw => exact .accepted _ hw
  case h_4 hw => exact .acceptFails _ hw
  case h_5 hw => exact .first _ hw
  case h_6 hw => exact .acceptedA _ hw
  case h_7 hw => exact .acceptAFails _ hw
  case h_8 hw => exact .handshakeA _ hw
  case h_9 hw => exact .acceptedB _ hw
  case h_10 hw => exact .acceptBFails _ hw
  case h_11 hw => exact .handshakeB _ hw
  case h_12 hw => exact .relayDatagram _ _ hw
  case h_13 hne hw => exact .relayUdpFails hw fun d hd => hne d.1 d.2 hd
  case h_14 hw => exact .relayed _ _ hw
  case h_15 hw => exact .relayEnds _ _ hw
  case h_16 => exact .ignored _

end Server

end RustdeskServer.Rendezvous
