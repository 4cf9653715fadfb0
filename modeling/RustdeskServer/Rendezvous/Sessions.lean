import RustdeskServer.Rendezvous.Server
import RustdeskServer.Framework.Runs

/-!
# Which connections a session pairs

No message names a session. A relay response goes to whoever is in the one saved
slot, and the two connections that are joined are the next two in the relay
port's queue. With two sessions at a time a response can reach the wrong
requester; the server is meant for one relay connection only.

`Sessions` puts the queue of the relay port and the clients behind connections
and addresses beside the server, and keeps a `Pairing` for each answer. If the
clients keep to one session at a time (`orderly`), every pairing is sound: the
two clients of the open session are, at every moment, those who may still
connect to the relay port, who wait there, or who have been accepted.
-/

namespace RustdeskServer.Rendezvous

open RustdeskServer.Framework RustdeskServer.Codec

variable {Addr Conn Client : Type}

/-- Whose connection it is, and who receives at an address. -/
structure Owners (Addr Conn Client : Type) where
  conn : Conn → Client
  addr : Addr → Client

/-- An answer that was forwarded: to whom, the saved request and where it had
been passed to, who responded, and the two connections that were joined. -/
structure Pairing (Addr Conn : Type) where
  requester : Conn
  asked : Option (Conn × Addr)
  responder : Conn
  joined : Option (Conn × Conn)
deriving DecidableEq

/-- The response came from the client that was asked for this requester, and
these two are the clients that were joined. -/
def Pairing.Sound (owner : Owners Addr Conn Client) (p : Pairing Addr Conn) : Prop :=
  ∃ addr, p.asked = some (p.requester, addr) ∧ owner.conn p.responder = owner.addr addr ∧
    ∀ a b, p.joined = some (a, b) →
      [owner.conn a, owner.conn b].Perm [owner.addr addr, owner.conn p.requester]

/-- The server with the queue of its relay port and the history of its answers,
the latest first. `owed` are the clients that were asked and have not responded,
`mayDial` those of a session that have not connected to the relay port. -/
structure Sessions (Addr Conn Client : Type) where
  server : Server Addr Conn
  backlog : List Conn
  asked : Option (Conn × Addr)
  pairings : List (Pairing Addr Conn)
  owed : List Client
  mayDial : List Client

/-- A client connects to the relay port, the server accepts there, or anything
else happens. -/
inductive SessionEvent (Addr Conn : Type) where
  | dial (conn : Conn)
  | takeRelay
  | event (e : Event Addr Conn)

/-- The first message of a connection, when the server handles it. -/
def Server.firstMessage (parse : Parser) (s : Server Addr Conn) (e : Event Addr Conn) :
    Option (Conn × Union) :=
  match s.wait, e with
  | .firstFrame stream, .nextTimeout (some (.ok bytes)) =>
      ((parse bytes).bind RendezvousMessage.union).map fun u => (stream, u)
  | _, _ => none

/-- The relay-port connections a session has accepted, while it is set up. -/
def Wait.held : Wait Conn → Option (List Conn)
  | .acceptA => some []
  | .handshakeA streamA => some [streamA]
  | .acceptB streamA => some [streamA]
  | .handshakeB streamA streamB => some [streamA, streamB]
  | _ => none

namespace Sessions

def start (relayServer : String) : Sessions Addr Conn Client :=
  ⟨.start relayServer, [], none, [], [], []⟩

variable [DecidableEq Client] (parse : Parser) (owner : Owners Addr Conn Client)

/-- The history after a message. -/
def note (w : Sessions Addr Conn Client) : Option (Conn × Union) → Sessions Addr Conn Client
  | some (stream, .punchHoleRequest ph) =>
      match w.server.idMap.lookup ph.id with
      | some addr =>
          { w with
            asked := some (stream, addr)
            owed := owner.addr addr :: w.owed
            mayDial := owner.addr addr :: w.mayDial }
      | none => w
  | some (stream, .relayResponse _) =>
      match w.server.savedStream with
      | some requester =>
          { w with
            pairings := ⟨requester, w.asked, stream, none⟩ :: w.pairings
            owed := w.owed.erase (owner.conn stream)
            mayDial := owner.conn requester :: w.mayDial }
      -- nobody waits: the response changes nothing at the server
      | none => { w with owed := w.owed.erase (owner.conn stream) }
  | _ => w

/-- The history after the last await of a session's set-up. -/
def join (w : Sessions Addr Conn Client) : Event Addr Conn → Sessions Addr Conn Client
  | .nextTimeout _ =>
      match w.server.wait, w.pairings with
      | .handshakeB streamA streamB, p :: ps =>
          { w with pairings := { p with joined := some (streamA, streamB) } :: ps }
      | _, _ => w
  | _ => w

/-- Connections to the relay port are accepted in the order of its queue. -/
def step (w : Sessions Addr Conn Client) : SessionEvent Addr Conn → Sessions Addr Conn Client
  | .dial conn =>
      { w with backlog := w.backlog ++ [conn], mayDial := w.mayDial.erase (owner.conn conn) }
  | .takeRelay =>
      match w.server.wait, w.backlog with
      | .acceptA, conn :: backlog =>
          { w with server := w.server.step parse (.relayAccept (.ok conn)), backlog }
      | .acceptB _, conn :: backlog =>
          { w with server := w.server.step parse (.relayAccept (.ok conn)), backlog }
      | _, _ => w
  -- a connection comes out of the queue only
  | .event (.relayAccept (.ok _)) => w
  | .event e =>
      { (w.note owner (w.server.firstMessage parse e)).join e with
        server := w.server.step parse e }

/-! ## One session at a time -/

/-- Nobody owes a response, nobody is about to connect to the relay port, and
nobody waits there. -/
def quiet (w : Sessions Addr Conn Client) : Bool :=
  w.owed.isEmpty && w.mayDial.isEmpty && w.backlog.isEmpty

def mayHandle (w : Sessions Addr Conn Client) : Option (Conn × Union) → Bool
  | some (_, .punchHoleRequest ph) => (w.server.idMap.lookup ph.id).isNone || w.quiet
  | some (stream, .relayResponse _) => decide (owner.conn stream ∈ w.owed)
  | _ => true

/-- A registered client is asked for only while no session is open, a client
responds once for each time it was asked, and each of the two clients of the
open session connects to the relay port once: the asked one from the request on,
the requester from the answer on. -/
def orderly (w : Sessions Addr Conn Client) : SessionEvent Addr Conn → Bool
  | .dial conn => decide (owner.conn conn ∈ w.mayDial)
  | .takeRelay => true
  | .event e => w.mayHandle owner (w.server.firstMessage parse e)

/-- Every answer reached the requester for whom its sender had been asked, and
the connections joined after it are those of these two. -/
def Integrity (w : Sessions Addr Conn Client) : Prop := ∀ p ∈ w.pairings, p.Sound owner

end Sessions

/-! ## What the server does outside the set-up of a session -/

namespace Server

variable {parse : Parser} {s : Server Addr Conn} {e : Event Addr Conn}

theorem firstMessage_eq {stream : Conn} {u : Union}
    (h : s.firstMessage parse e = some (stream, u)) :
    s.wait = .firstFrame stream ∧ ∃ bytes, e = .nextTimeout (some (.ok bytes)) ∧
      parse bytes = some ⟨some u⟩ := by
  unfold firstMessage at h
  split at h
  case h_1 stream' bytes hw =>
    cases hparse : parse bytes with
    | none =>
        rw [hparse] at h
        cases h
    | some m =>
        obtain ⟨union⟩ := m
        rw [hparse] at h
        cases union with
        | none => cases h
        | some u' =>
            cases h
            exact ⟨hw, bytes, rfl, hparse⟩
  · cases h

theorem firstMessage_held {stream : Conn} {u : Union}
    (h : s.firstMessage parse e = some (stream, u)) : s.wait.held = none := by
  rw [(firstMessage_eq h).1]
  rfl

theorem firstMessage_ne {stream : Conn} {u : Union}
    (h : s.firstMessage parse e = some (stream, u)) (conn : Conn) :
    e ≠ .relayAccept (.ok conn) := by
  obtain ⟨-, bytes, rfl, -⟩ := firstMessage_eq h
  intro he
  cases he

theorem step_request {stream : Conn} {ph : PunchHoleRequest}
    (h : s.firstMessage parse e = some (stream, .punchHoleRequest ph)) :
    s.step parse e = s.punchHoleRequest stream ph := by
  obtain ⟨hw, bytes, rfl, hparse⟩ := firstMessage_eq h
  simp only [step, hw, handleFirst, hparse]

theorem step_response {stream : Conn} {m : RelayResponse}
    (h : s.firstMessage parse e = some (stream, .relayResponse m)) :
    s.step parse e = s.relayResponse := by
  obtain ⟨hw, bytes, rfl, hparse⟩ := firstMessage_eq h
  simp only [step, hw, handleFirst, hparse]

/-- The outcome is not a message of a session. -/
structure Unrelated (parse : Parser) (s : Server Addr Conn) (e : Event Addr Conn) : Prop where
  request : ∀ stream ph, s.firstMessage parse e ≠ some (stream, .punchHoleRequest ph)
  response : ∀ stream m, s.firstMessage parse e ≠ some (stream, .relayResponse m)

theorem message_cases (parse : Parser) (s : Server Addr Conn) (e : Event Addr Conn) :
    (∃ stream ph, s.firstMessage parse e = some (stream, .punchHoleRequest ph)) ∨
      (∃ stream m, s.firstMessage parse e = some (stream, .relayResponse m)) ∨
      Unrelated parse s e := by
  by_cases hrequest : ∃ stream ph, s.firstMessage parse e = some (stream, .punchHoleRequest ph)
  · exact Or.inl hrequest
  by_cases hresponse : ∃ stream m, s.firstMessage parse e = some (stream, .relayResponse m)
  · exact Or.inr (Or.inl hresponse)
  exact Or.inr (Or.inr ⟨fun stream ph h => hrequest ⟨stream, ph, h⟩,
    fun stream m h => hresponse ⟨stream, m, h⟩⟩)

/-- Anything else that a connection sends first leads back to the select. -/
theorem handleFirst_unrelated {stream : Conn} {res : Option (Except IoError Bytes)}
    (hw : s.wait = .firstFrame stream) (h : Unrelated parse s (.nextTimeout res)) :
    s.handleFirst parse stream res = s.await .round := by
  unfold handleFirst
  split
  · split
    case h_1 bytes ph hparse =>
      refine absurd ?_ (h.request stream ph)
      simp only [firstMessage, hw, hparse]
      rfl
    case h_2 bytes m hparse =>
      refine absurd ?_ (h.response stream m)
      simp only [firstMessage, hw, hparse]
      rfl
    case h_3 => rfl
  · rfl

/-- Only the two messages of a session change the saved stream or begin to set
up a session. -/
theorem step_unrelated (h : Unrelated parse s e) :
    (s.step parse e).savedStream = s.savedStream ∧
      (s.wait.held = none → (s.step parse e).wait.held = none) := by
  have hstep := step_stepped parse s e
  generalize s.step parse e = s' at hstep
  cases hstep with
  | ignored => exact ⟨rfl, fun hheld => hheld⟩
  | datagram bytes addr hw => exact ⟨(handleUdp_frame parse s bytes addr).1, fun _ => rfl⟩
  | @udpFails accept res hw => cases accept <;> exact ⟨rfl, fun _ => rfl⟩
  | @acceptFails udp err hw => cases udp <;> exact ⟨rfl, fun _ => rfl⟩
  | first res hw =>
      rw [handleFirst_unrelated hw h]
      exact ⟨rfl, fun _ => rfl⟩
  | acceptedA _ hw | acceptAFails _ hw | handshakeA _ hw | acceptedB _ hw | acceptBFails _ hw
  | handshakeB _ hw =>
      refine ⟨rfl, fun hheld => ?_⟩
      rw [hw] at hheld
      cases hheld
  | relayDatagram bytes addr hw =>
      exact ⟨(handleUdp_frame parse s bytes addr).1, fun _ => rfl⟩
  | accepted | relayUdpFails | relayed | relayEnds => exact ⟨rfl, fun _ => rfl⟩

/-- While a session is set up, an outcome leaves the accepted connections as they
are, or ends the set-up. -/
theorem step_setup (parse : Parser) {conns : List Conn} (hheld : s.wait.held = some conns)
    (he : ∀ conn, e ≠ .relayAccept (.ok conn)) :
    (s.step parse e).savedStream = s.savedStream ∧
      ((s.step parse e).wait.held = some conns ∨ (s.step parse e).wait.held = none) := by
  have hstep := step_stepped parse s e
  generalize s.step parse e = s' at hstep
  cases hstep with
  | ignored => exact ⟨rfl, Or.inl hheld⟩
  | acceptedA streamA | acceptedB streamB => exact absurd rfl (he _)
  | handshakeA res hw =>
      refine ⟨rfl, Or.inl ?_⟩
      rw [← hheld, hw]
      rfl
  | acceptAFails | acceptBFails | handshakeB => exact ⟨rfl, Or.inr rfl⟩
  | datagram _ _ hw | udpFails hw | accepted _ hw | acceptFails _ hw | first _ hw
  | relayDatagram _ _ hw | relayUdpFails hw | relayed _ _ hw | relayEnds _ _ hw =>
      rw [hw] at hheld
      cases hheld

end Server

/-! ## The open session -/

namespace Sessions

/-- No session is open; a client that was asked has still to respond; or the
relay-port connections are being accepted. In an open session the clients that
may connect, wait or have been accepted are just the ones of the session. -/
inductive Phase (owner : Owners Addr Conn Client) (w : Sessions Addr Conn Client) : Prop where
  | closed (saved : w.server.savedStream = none) (held : w.server.wait.held = none)
  | waiting (requester : Conn) (addr : Addr) (saved : w.server.savedStream = some requester)
      (held : w.server.wait.held = none) (asked : w.asked = some (requester, addr))
      (owed : w.owed = [owner.addr addr])
      (clients : (w.backlog.map owner.conn ++ w.mayDial).Perm [owner.addr addr])
  | answered (p : Pairing Addr Conn) (ps : List (Pairing Addr Conn)) (addr : Addr)
      (conns : List Conn) (saved : w.server.savedStream = none)
      (held : w.server.wait.held = some conns) (pairings : w.pairings = p :: ps)
      (asked : p.asked = some (p.requester, addr))
      (clients : (conns.map owner.conn ++ (w.backlog.map owner.conn ++ w.mayDial)).Perm
        [owner.addr addr, owner.conn p.requester])

variable [DecidableEq Client] {parse : Parser} {owner : Owners Addr Conn Client}
  {w : Sessions Addr Conn Client}

/-- A connection to the relay port moves its client from those who may connect
to those who wait. -/
theorem dial_perm {conn : Conn} {mayDial : List Client} (backlog : List Conn)
    (h : owner.conn conn ∈ mayDial) :
    ((backlog ++ [conn]).map owner.conn ++ mayDial.erase (owner.conn conn)).Perm
      (backlog.map owner.conn ++ mayDial) := by
  rw [List.map_append, List.append_assoc]
  exact (List.perm_cons_erase h).symm.append_left _

theorem phase_dial (h : Phase owner w) {conn : Conn} (hmay : owner.conn conn ∈ w.mayDial) :
    Phase owner (w.step parse owner (.dial conn)) := by
  have hperm := dial_perm w.backlog hmay
  cases h with
  | closed saved held => exact .closed saved held
  | waiting requester addr saved held asked owed clients =>
      exact .waiting requester addr saved held asked owed (hperm.trans clients)
  | answered p ps addr conns saved held pairings asked clients =>
      exact .answered p ps addr conns saved held pairings asked
        ((hperm.append_left _).trans clients)

theorem takeRelay_closed (hheld : w.server.wait.held = none) :
    w.step parse owner .takeRelay = w := by
  cases hw : w.server.wait with
  | acceptA =>
      rw [hw] at hheld
      cases hheld
  | acceptB streamA =>
      rw [hw] at hheld
      cases hheld
  | _ => simp only [step, hw]

/-- An accept moves the head of the queue to those who have been accepted. -/
theorem phase_takeRelay (h : Phase owner w) : Phase owner (w.step parse owner .takeRelay) := by
  cases h with
  | closed saved held =>
      rw [takeRelay_closed held]
      exact .closed saved held
  | waiting requester addr saved held asked owed clients =>
      rw [takeRelay_closed held]
      exact .waiting requester addr saved held asked owed clients
  | answered p ps addr conns saved held pairings asked clients =>
      have hsame := Phase.answered p ps addr conns saved held pairings asked clients
      cases hb : w.backlog with
      | nil =>
          cases hw : w.server.wait <;> simpa only [step, hw, hb] using hsame
      | cons conn backlog =>
          rw [hb, List.map_cons, List.cons_append] at clients
          cases hw : w.server.wait with
          | acceptA =>
              rw [hw] at held
              cases held
              simp only [step, hw, hb, Server.step]
              exact .answered p ps addr [conn] saved rfl pairings asked clients
          | acceptB streamA =>
              rw [hw] at held
              cases held
              simp only [step, hw, hb, Server.step]
              exact .answered p ps addr [streamA, conn] saved rfl pairings asked clients
          | _ => simpa only [step, hw] using hsame

/-! ## Messages -/

/-- Outside the set-up of a session the history changes with a message only. -/
theorem step_event {e : Event Addr Conn} (he : ∀ conn, e ≠ .relayAccept (.ok conn)) :
    w.step parse owner (.event e) =
      { (w.note owner (w.server.firstMessage parse e)).join e with
        server := w.server.step parse e } := by
  cases e with
  | relayAccept res =>
      cases res with
      | ok conn => exact absurd rfl (he conn)
      | error err => rfl
  | _ => rfl

omit [DecidableEq Client] in
theorem join_outside (hheld : w.server.wait.held = none) (e : Event Addr Conn) :
    w.join e = w := by
  cases e with
  | nextTimeout res =>
      cases hw : w.server.wait with
      | handshakeB streamA streamB =>
          rw [hw] at hheld
          cases hheld
      | _ => simp only [join, hw]
  | _ => rfl

theorem note_server (m : Option (Conn × Union)) : (w.note owner m).server = w.server := by
  unfold note
  split
  · split <;> rfl
  · split <;> rfl
  · rfl

theorem step_outside (hheld : w.server.wait.held = none) {e : Event Addr Conn}
    (he : ∀ conn, e ≠ .relayAccept (.ok conn)) :
    w.step parse owner (.event e) =
      { w.note owner (w.server.firstMessage parse e) with server := w.server.step parse e } := by
  rw [step_event he, join_outside (by rw [note_server]; exact hheld)]

theorem step_message {stream : Conn} {u : Union} {e : Event Addr Conn}
    (hm : w.server.firstMessage parse e = some (stream, u)) :
    w.step parse owner (.event e) =
      { w.note owner (some (stream, u)) with server := w.server.step parse e } := by
  rw [step_outside (Server.firstMessage_held hm) (Server.firstMessage_ne hm), hm]

theorem note_unrelated {e : Event Addr Conn} (hm : Server.Unrelated parse w.server e) :
    w.note owner (w.server.firstMessage parse e) = w := by
  unfold note
  split
  · exact absurd ‹_› (hm.request _ _)
  · exact absurd ‹_› (hm.response _ _)
  · rfl

theorem takeRelay_frame (parse : Parser) (owner : Owners Addr Conn Client)
    (w : Sessions Addr Conn Client) :
    (w.step parse owner .takeRelay).server.savedStream = w.server.savedStream ∧
      (w.step parse owner .takeRelay).asked = w.asked ∧
      (w.step parse owner .takeRelay).pairings = w.pairings := by
  simp only [step]
  split
  case h_1 conn backlog hw hb =>
    refine ⟨?_, rfl, rfl⟩
    simp only [Server.step, hw, Server.await_savedStream]
  case h_2 conn backlog streamA hw hb =>
    refine ⟨?_, rfl, rfl⟩
    simp only [Server.step, hw, Server.await_savedStream]
  case h_3 => exact ⟨rfl, rfl, rfl⟩

omit [DecidableEq Client] in
theorem join_frame (e : Event Addr Conn) :
    (w.join e).asked = w.asked ∧ ∀ p ∈ (w.join e).pairings, ∃ q ∈ w.pairings,
      q.asked = p.asked ∧ q.requester = p.requester := by
  unfold join
  split
  · split
    case h_1 q qs hw hpairings =>
      refine ⟨rfl, fun p hp => ?_⟩
      rw [hpairings]
      rcases List.mem_cons.mp hp with rfl | hp
      · exact ⟨q, List.mem_cons_self, rfl, rfl⟩
      · exact ⟨p, List.mem_cons_of_mem q hp, rfl, rfl⟩
    case h_2 => exact ⟨rfl, fun p hp => ⟨p, hp, rfl, rfl⟩⟩
  · exact ⟨rfl, fun p hp => ⟨p, hp, rfl, rfl⟩⟩

/-! ## Who is answered -/

/-- The saved stream is the requester of the latest request that was passed on,
and so is whoever was answered. -/
structure Addressed (w : Sessions Addr Conn Client) : Prop where
  saved : ∀ requester, w.server.savedStream = some requester →
    ∃ addr, w.asked = some (requester, addr)
  answered : ∀ p ∈ w.pairings, ∃ addr, p.asked = some (p.requester, addr)

theorem addressed_event (h : Addressed w) {e : Event Addr Conn}
    (he : ∀ conn, e ≠ .relayAccept (.ok conn)) :
    Addressed (w.step parse owner (.event e)) := by
  rcases Server.message_cases parse w.server e with ⟨stream, ph, hm⟩ | ⟨stream, m, hm⟩ | hm
  · rw [step_message hm, Server.step_request hm]
    cases hl : w.server.idMap.lookup ph.id with
    | none =>
        simp only [note, Server.punchHoleRequest, hl]
        exact ⟨h.saved, h.answered⟩
    | some addr =>
        simp only [note, Server.punchHoleRequest, hl]
        refine ⟨?_, h.answered⟩
        rintro requester ⟨⟩
        exact ⟨addr, rfl⟩
  · rw [step_message hm, Server.step_response hm]
    cases hs : w.server.savedStream with
    | none =>
        simp only [note, Server.relayResponse, hs]
        refine ⟨fun requester hsaved => ?_, h.answered⟩
        rw [Server.await_savedStream, hs] at hsaved
        cases hsaved
    | some requester =>
        simp only [note, Server.relayResponse, hs]
        constructor
        · intro requester hsaved
          cases hsaved
        · intro p hp
          rcases List.mem_cons.mp hp with rfl | hp
          · exact h.saved requester hs
          · exact h.answered p hp
  · rw [step_event he, note_unrelated hm]
    obtain ⟨hasked, hpairings⟩ := join_frame (w := w) e
    constructor
    · intro requester hsaved
      rw [(Server.step_unrelated hm).1] at hsaved
      obtain ⟨addr, haddr⟩ := h.saved requester hsaved
      exact ⟨addr, hasked.trans haddr⟩
    · intro p hp
      obtain ⟨q, hq, hqasked, hqrequester⟩ := hpairings p hp
      rw [← hqasked, ← hqrequester]
      exact h.answered q hq

theorem addressed_step (h : Addressed w) (e : SessionEvent Addr Conn) :
    Addressed (w.step parse owner e) := by
  cases e with
  | dial conn => exact ⟨h.saved, h.answered⟩
  | takeRelay =>
      obtain ⟨hsaved, hasked, hpairings⟩ := takeRelay_frame parse owner w
      constructor
      · rw [hsaved, hasked]
        exact h.saved
      · rw [hpairings]
        exact h.answered
  | event e =>
      by_cases he : ∃ conn, e = .relayAccept (.ok conn)
      · obtain ⟨conn, rfl⟩ := he
        exact h
      · exact addressed_event h (fun conn hc => he ⟨conn, hc⟩)

/-! ## What an orderly run keeps -/

structure Tidy (owner : Owners Addr Conn Client) (w : Sessions Addr Conn Client) : Prop where
  integrity : w.Integrity owner
  phase : Phase owner w

theorem tidy_request (h : Tidy owner w) {stream : Conn} {ph : PunchHoleRequest}
    {e : Event Addr Conn}
    (hm : w.server.firstMessage parse e = some (stream, .punchHoleRequest ph))
    (hmay : w.mayHandle owner (some (stream, .punchHoleRequest ph)) = true) :
    Tidy owner (w.step parse owner (.event e)) := by
  rw [step_message hm, Server.step_request hm]
  rw [mayHandle, Bool.or_eq_true, Option.isNone_iff_eq_none] at hmay
  cases hl : w.server.idMap.lookup ph.id with
  | none =>
      simp only [note, Server.punchHoleRequest, hl]
      refine ⟨h.integrity, ?_⟩
      cases h.phase with
      | closed saved held => exact .closed saved rfl
      | waiting requester addr saved held asked owed clients =>
          exact .waiting requester addr saved rfl asked owed clients
      | answered p ps addr conns saved held =>
          rw [Server.firstMessage_held hm] at held
          cases held
  | some addr =>
      -- a request for a registered client opens a session, so none is open now
      have hquiet : w.quiet = true := by
        rcases hmay with hnone | hquiet
        · rw [hl] at hnone
          cases hnone
        · exact hquiet
      simp only [quiet, Bool.and_eq_true, List.isEmpty_iff] at hquiet
      obtain ⟨⟨howed, hmayDial⟩, hbacklog⟩ := hquiet
      simp only [note, Server.punchHoleRequest, hl, howed, hmayDial]
      refine ⟨h.integrity, .waiting stream addr rfl rfl rfl rfl ?_⟩
      show (w.backlog.map owner.conn ++ [owner.addr addr]).Perm _
      rw [hbacklog]
      exact List.Perm.refl _

theorem tidy_response (h : Tidy owner w) {stream : Conn} {m : RelayResponse}
    {e : Event Addr Conn}
    (hm : w.server.firstMessage parse e = some (stream, .relayResponse m))
    (hmay : w.mayHandle owner (some (stream, .relayResponse m)) = true) :
    Tidy owner (w.step parse owner (.event e)) := by
  rw [step_message hm, Server.step_response hm]
  rw [mayHandle, decide_eq_true_eq] at hmay
  cases h.phase with
  | closed saved held =>
      simp only [note, Server.relayResponse, saved]
      exact ⟨h.integrity, .closed saved rfl⟩
  | waiting requester addr saved held asked owed clients =>
      -- the only client that owes a response is the one of the open session
      rw [owed, List.mem_singleton] at hmay
      simp only [note, Server.relayResponse, saved]
      constructor
      · intro p hp
        rcases List.mem_cons.mp hp with rfl | hp
        · exact ⟨addr, asked, hmay, by intro a b hjoined; cases hjoined⟩
        · exact h.integrity p hp
      · refine .answered _ _ addr [] rfl rfl rfl asked ?_
        show (w.backlog.map owner.conn ++ (owner.conn requester :: w.mayDial)).Perm _
        refine List.perm_middle.trans ((clients.cons _).trans ?_)
        exact List.Perm.swap _ _ _
  | answered p ps addr conns saved held =>
      rw [Server.firstMessage_held hm] at held
      cases held

/-- Anything that is not a message of a session, while none is set up. -/
theorem tidy_unrelated (h : Tidy owner w) (hheld : w.server.wait.held = none)
    {e : Event Addr Conn} (he : ∀ conn, e ≠ .relayAccept (.ok conn))
    (hm : Server.Unrelated parse w.server e) :
    Tidy owner (w.step parse owner (.event e)) := by
  obtain ⟨hsaved, hkept⟩ := Server.step_unrelated hm
  have hheld' := hkept hheld
  rw [step_outside hheld he, note_unrelated hm]
  refine ⟨h.integrity, ?_⟩
  cases h.phase with
  | closed saved held => exact .closed (hsaved.trans saved) hheld'
  | waiting requester addr saved held asked owed clients =>
      exact .waiting requester addr (hsaved.trans saved) hheld' asked owed clients
  | answered p ps addr conns saved held =>
      rw [hheld] at held
      cases held

omit [DecidableEq Client] in
theorem perm_pair {a b x y : Client} {rest : List Client}
    (h : ([a, b] ++ rest).Perm [x, y]) : [a, b].Perm [x, y] := by
  have hlen := h.length_eq
  rw [List.length_append] at hlen
  have hrest : rest = [] := by
    apply List.eq_nil_of_length_eq_zero
    simp only [List.length_cons, List.length_nil] at hlen
    omega
  rw [hrest, List.append_nil] at h
  exact h

omit [DecidableEq Client] in
theorem join_early {e : Event Addr Conn} (h : ∀ streamA streamB res,
    w.server.wait = .handshakeB streamA streamB → e ≠ .nextTimeout res) : w.join e = w := by
  unfold join
  split
  case h_1 res =>
    split
    case h_1 streamA streamB p ps hw _ => exact absurd rfl (h streamA streamB res hw)
    case h_2 => rfl
  case h_2 => rfl

theorem note_setup {conns : List Conn} (hheld : w.server.wait.held = some conns)
    (e : Event Addr Conn) : w.note owner (w.server.firstMessage parse e) = w := by
  cases hm : w.server.firstMessage parse e with
  | none => rfl
  | some m =>
      rw [Server.firstMessage_held hm] at hheld
      cases hheld

/-- The last await of a set-up: the two accepted connections are all that is
left of the session's clients. -/
theorem tidy_joined (h : Tidy owner w) {streamA streamB : Conn}
    (hw : w.server.wait = .handshakeB streamA streamB)
    (res : Option (Except IoError Bytes)) :
    Tidy owner (w.step parse owner (.event (.nextTimeout res))) := by
  have hheld : w.server.wait.held = some [streamA, streamB] := by rw [hw]; rfl
  rw [step_event (by intro conn he; cases he), note_setup hheld]
  cases h.phase with
  | closed saved held =>
      rw [hheld] at held
      cases held
  | waiting requester addr saved held =>
      rw [hheld] at held
      cases held
  | answered p ps addr conns saved held pairings asked clients =>
      rw [hheld] at held
      cases held
      simp only [join, Server.step, hw, pairings]
      refine ⟨?_, .closed saved rfl⟩
      intro q hq
      rcases List.mem_cons.mp hq with rfl | hq
      · obtain ⟨addr', hasked, hresponder, -⟩ := h.integrity p
          (by rw [pairings]; exact List.mem_cons_self)
        rw [asked] at hasked
        cases hasked
        refine ⟨addr, asked, hresponder, ?_⟩
        rintro a b ⟨rfl, rfl⟩
        exact perm_pair clients
      · exact h.integrity q (by rw [pairings]; exact List.mem_cons_of_mem p hq)

/-- While a session is set up no first message is read. -/
theorem tidy_setup (h : Tidy owner w) {conns : List Conn}
    (hheld : w.server.wait.held = some conns) {e : Event Addr Conn}
    (he : ∀ conn, e ≠ .relayAccept (.ok conn)) :
    Tidy owner (w.step parse owner (.event e)) := by
  by_cases hend : ∃ streamA streamB res,
      w.server.wait = .handshakeB streamA streamB ∧ e = .nextTimeout res
  · obtain ⟨streamA, streamB, res, hw, rfl⟩ := hend
    exact tidy_joined h hw res
  have hjoin : w.join e = w :=
    join_early fun streamA streamB res hw hres => hend ⟨streamA, streamB, res, hw, hres⟩
  obtain ⟨hsaved, hafter⟩ := Server.step_setup parse hheld he
  rw [step_event he, note_setup hheld, hjoin]
  refine ⟨h.integrity, ?_⟩
  cases h.phase with
  | closed saved held =>
      rw [hheld] at held
      cases held
  | waiting requester addr saved held =>
      rw [hheld] at held
      cases held
  | answered p ps addr conns' saved held pairings asked clients =>
      rw [hheld] at held
      cases held
      rcases hafter with hkept | hended
      · exact .answered p ps addr conns (hsaved.trans saved) hkept pairings asked clients
      · exact .closed (hsaved.trans saved) hended

theorem tidy_event (h : Tidy owner w) {e : Event Addr Conn}
    (hmay : w.mayHandle owner (w.server.firstMessage parse e) = true)
    (he : ∀ conn, e ≠ .relayAccept (.ok conn)) :
    Tidy owner (w.step parse owner (.event e)) := by
  cases hheld : w.server.wait.held with
  | some conns => exact tidy_setup h hheld he
  | none =>
      rcases Server.message_cases parse w.server e with ⟨stream, ph, hm⟩ | ⟨stream, m, hm⟩ | hm
      · rw [hm] at hmay
        exact tidy_request h hm hmay
      · rw [hm] at hmay
        exact tidy_response h hm hmay
      · exact tidy_unrelated h hheld he hm

theorem tidy_step (h : Tidy owner w) {e : SessionEvent Addr Conn}
    (hord : w.orderly parse owner e = true) : Tidy owner (w.step parse owner e) := by
  cases e with
  | dial conn => exact ⟨h.integrity, phase_dial h.phase (of_decide_eq_true hord)⟩
  | takeRelay =>
      refine ⟨?_, phase_takeRelay h.phase⟩
      rw [Integrity, (takeRelay_frame parse owner w).2.2]
      exact h.integrity
  | event e =>
      by_cases he : ∃ conn, e = .relayAccept (.ok conn)
      · obtain ⟨conn, rfl⟩ := he
        exact h
      · exact tidy_event h hord (fun conn hc => he ⟨conn, hc⟩)

/-- **Which clients a session pairs.** In every run a relay response goes to the
requester of the latest request that was passed on. If the clients keep to one
session at a time, any number of clients and of sessions one after the other and
whatever fails on the way, its sender is the client that was asked by this
request, and the two connections joined after it are the relay-port connections
of these two clients. -/
theorem sessions_integrity (parse : Parser) (owner : Owners Addr Conn Client)
    (relayServer : String) (events : List (SessionEvent Addr Conn)) :
    Always (step parse owner) Addressed (start relayServer) events ∧
      (Along (step parse owner) (fun w e => w.orderly parse owner e = true)
          (start relayServer) events →
        Always (step parse owner) (Integrity owner) (start relayServer) events) := by
  constructor
  · have hstart : Addressed (start relayServer : Sessions Addr Conn Client) :=
      ⟨nofun, List.forall_mem_nil _⟩
    exact always_of_step (fun w e h => addressed_step h e) events hstart
  · intro hruns
    have hstart : Tidy owner (start relayServer) :=
      ⟨List.forall_mem_nil _, .closed rfl rfl⟩
    have htidy : Always (step parse owner) (Tidy owner) (start relayServer) events :=
      always_of_along (fun w e h hord => tidy_step h hord) hstart hruns
    exact htidy.mono fun w h => h.integrity

/-- The last digit of a connection or an address tells the client. -/
def byDigit : Owners ℕ ℕ ℕ := ⟨(· % 10), (· % 10)⟩

/-- Client 7 is registered as `x`; client 1 asks for it, and both connect. -/
def oneSession : List (SessionEvent ℕ ℕ) :=
  [.event (.udp (some (.ok ([0x32, 3, 0x0a, 1, 0x78], 7)))),
    .event (.accept (.ok 1)), .event (.nextTimeout (some (.ok [0x42, 3, 0x0a, 1, 0x78]))),
    .event (.accept (.ok 17)), .dial 27, .event (.nextTimeout (some (.ok [0x9a, 1, 0]))),
    .dial 11, .takeRelay, .event (.nextTimeout none), .takeRelay, .event (.nextTimeout none)]

theorem sessions_integrity_one :
    (oneSession.foldl (step parseShort byDigit) (start "127.0.0.1")).pairings =
        [⟨1, some (1, 7), 17, some (27, 11)⟩] ∧
      Always (step parseShort byDigit) (Integrity byDigit) (start "127.0.0.1") oneSession :=
  ⟨by decide, (sessions_integrity parseShort byDigit "127.0.0.1" oneSession).2 (by decide)⟩

/-- Clients 1 and 2 ask for the clients 7 and 8, and 7 is the first to respond. -/
def twoRequests : List (SessionEvent ℕ ℕ) :=
  [.event (.udp (some (.ok ([0x32, 3, 0x0a, 1, 0x78], 7)))),
    .event (.udp (some (.ok ([0x32, 3, 0x0a, 1, 0x79], 8)))),
    .event (.accept (.ok 1)), .event (.nextTimeout (some (.ok [0x42, 3, 0x0a, 1, 0x78]))),
    .event (.accept (.ok 2)), .event (.nextTimeout (some (.ok [0x42, 3, 0x0a, 1, 0x79]))),
    .event (.accept (.ok 17)), .event (.nextTimeout (some (.ok [0x9a, 1, 0])))]

/-- Its response goes to client 2. -/
theorem response_crossed :
    (twoRequests.foldl (step parseShort byDigit) (start "127.0.0.1")).pairings =
        [⟨2, some (2, 8), 17, none⟩] ∧
      ¬ Always (step parseShort byDigit) (Integrity byDigit) (start "127.0.0.1") twoRequests := by
  have hpairings : (twoRequests.foldl (step parseShort byDigit) (start "127.0.0.1")).pairings =
      [⟨2, some (2, 8), 17, none⟩] := by decide
  refine ⟨hpairings, fun h => ?_⟩
  have hlast := h.final twoRequests
  rw [Integrity, hpairings] at hlast
  obtain ⟨addr, hasked, hresponder, -⟩ := hlast _ List.mem_cons_self
  cases hasked
  cases hresponder

end Sessions

end RustdeskServer.Rendezvous
