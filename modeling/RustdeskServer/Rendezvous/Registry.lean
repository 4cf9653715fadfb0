import RustdeskServer.Rendezvous.Registration
import RustdeskServer.Rendezvous.Sessions

/-!
# Requests go to the latest registration

The registry is written by one handler, which both selects of the server call: a
datagram taken in `main` or in `relay` registers its sender under the id it
names. `step_idMap` says that nothing else ever changes the registry; the
addresses in it are therefore those of the latest registrations, in every state
of every run, and requests are passed on to these.
-/

namespace RustdeskServer.Rendezvous

open RustdeskServer.Framework RustdeskServer.Codec

variable {Addr Conn : Type}

/-- The registration that is handled: what a datagram that is taken registers,
and the address it came from. -/
def Server.registration (parse : Parser) (s : Server Addr Conn) :
    Event Addr Conn → Option (String × Addr)
  | .udp (some (.ok (bytes, addr))) =>
      match s.wait.polls, parse bytes with
      | true, some ⟨some (.registerPeer rp)⟩ => some (rp.id, addr)
      | _, _ => none
  | _ => none

/-- The address an id was registered from last. -/
def latest (registrations : List (String × Addr)) (id : String) : Option Addr :=
  ((registrations.filter fun r => r.1 = id).getLast?).map Prod.snd

/-- The server, and the registrations it has handled. -/
structure Registry (Addr Conn : Type) where
  server : Server Addr Conn
  handled : List (String × Addr)

namespace Registry

def start (relayServer : String) : Registry Addr Conn := ⟨.start relayServer, []⟩

def step (parse : Parser) (r : Registry Addr Conn) (e : Event Addr Conn) : Registry Addr Conn :=
  ⟨r.server.step parse e, r.handled ++ (r.server.registration parse e).toList⟩

/-- Every id has the address of its latest registration. -/
def UpToDate (r : Registry Addr Conn) : Prop :=
  ∀ id, r.server.idMap.lookup id = latest r.handled id

/-- What a step does for a request, and to the registry. -/
structure Routed (parse : Parser) (r : Registry Addr Conn) (e : Event Addr Conn) : Prop where
  registered : ∀ stream ph addr,
    r.server.firstMessage parse e = some (stream, .punchHoleRequest ph) →
    latest r.handled ph.id = some addr →
      (r.server.step parse e).sent = r.server.sent ++
          [.datagram (.requestRelay { relayServer := r.server.relayServer }) addr] ∧
        (r.server.step parse e).savedStream = some stream
  unknown : ∀ stream ph,
    r.server.firstMessage parse e = some (stream, .punchHoleRequest ph) →
    latest r.handled ph.id = none →
      (r.server.step parse e).sent = r.server.sent ∧
        (r.server.step parse e).idMap = r.server.idMap ∧
        (r.server.step parse e).savedStream = r.server.savedStream
  registry : r.server.registration parse e = none →
    (r.server.step parse e).idMap = r.server.idMap

end Registry

/-! ## The registry -/

namespace Server

variable (parse : Parser) (s : Server Addr Conn)

theorem punchHoleRequest_idMap (stream : Conn) (ph : PunchHoleRequest) :
    (s.punchHoleRequest stream ph).idMap = s.idMap := by
  unfold punchHoleRequest
  split
  · rfl
  · rfl

theorem relayResponse_idMap : s.relayResponse.idMap = s.idMap := by
  unfold relayResponse
  split
  · rfl
  · rfl

theorem handleFirst_idMap (stream : Conn) (res : Option (Except IoError Bytes)) :
    (s.handleFirst parse stream res).idMap = s.idMap := by
  unfold handleFirst
  split
  · split
    · exact punchHoleRequest_idMap s _ _
    · exact relayResponse_idMap s
    · rfl
  · rfl

variable {parse s}

theorem registration_eq {e : Event Addr Conn} {id : String} {addr : Addr}
    (h : s.registration parse e = some (id, addr)) :
    s.wait.polls = true ∧ ∃ bytes, e = .udp (some (.ok (bytes, addr))) ∧
      parse bytes = some ⟨some (.registerPeer ⟨id⟩)⟩ := by
  unfold registration at h
  split at h
  · split at h
    case h_1 rp hpolls hparse =>
      cases h
      exact ⟨hpolls, _, rfl, hparse⟩
    · cases h
  · cases h

theorem registration_polls (hw : s.wait.polls = true) {bytes : Bytes} {rp : RegisterPeer}
    (hparse : parse bytes = some ⟨some (.registerPeer rp)⟩) (addr : Addr) :
    s.registration parse (.udp (some (.ok (bytes, addr)))) = some (rp.id, addr) := by
  simp only [registration, hw, hparse]

/-- A datagram that is taken and registers nothing. -/
theorem handleUdp_idMap (hw : s.wait.polls = true) {bytes : Bytes} {addr : Addr}
    (h : s.registration parse (.udp (some (.ok (bytes, addr)))) = none) :
    (s.handleUdp parse bytes addr).idMap = s.idMap := by
  unfold handleUdp
  split
  case h_1 rp hparse =>
    rw [registration_polls hw hparse] at h
    cases h
  · rfl
  · rfl

/-- **Only registrations write the registry**, in either select. -/
theorem step_idMap {e : Event Addr Conn} (h : s.registration parse e = none) :
    (s.step parse e).idMap = s.idMap := by
  have hstep := step_stepped parse s e
  generalize s.step parse e = s' at hstep
  cases hstep with
  | datagram bytes addr hw | relayDatagram bytes addr hw =>
      rw [await_idMap]
      exact handleUdp_idMap (by rw [hw]; rfl) h
  | first res hw => exact handleFirst_idMap parse s _ res
  | _ => rfl

theorem step_registered {e : Event Addr Conn} {id : String} {addr : Addr}
    (h : s.registration parse e = some (id, addr)) :
    (s.step parse e).idMap = s.idMap.insert id addr := by
  obtain ⟨hpolls, bytes, rfl, hparse⟩ := registration_eq h
  rw [(Host.polls_datagram (h := ⟨s, [], []⟩) hpolls bytes addr).2]
  exact handleUdp_register parse s hparse addr

end Server

/-! ## Every run -/

theorem latest_concat (registrations : List (String × Addr)) (id id' : String) (addr : Addr) :
    latest (registrations ++ [(id, addr)]) id' =
      if id = id' then some addr else latest registrations id' := by
  unfold latest
  rw [List.filter_append]
  by_cases h : id = id'
  · rw [if_pos h, List.filter_cons_of_pos (p := fun r : String × Addr => decide (r.1 = id'))
      (decide_eq_true h), List.filter_nil, List.getLast?_concat]
    rfl
  · rw [if_neg h, List.filter_cons_of_neg (p := fun r : String × Addr => decide (r.1 = id'))
      (by simpa using h), List.filter_nil, List.append_nil]

namespace Registry

variable {parse : Parser} {r : Registry Addr Conn}

theorem upToDate_step (h : r.UpToDate) (e : Event Addr Conn) : (r.step parse e).UpToDate := by
  intro id
  simp only [step]
  cases hreg : r.server.registration parse e with
  | none =>
      rw [Server.step_idMap hreg, Option.toList_none, List.append_nil]
      exact h id
  | some registered =>
      obtain ⟨id', addr⟩ := registered
      rw [Server.step_registered hreg, Option.toList_some, latest_concat]
      by_cases hid : id' = id
      · rw [if_pos hid, hid, Finmap.lookup_insert]
      · rw [if_neg hid, Finmap.lookup_insert_of_ne _ (Ne.symm hid)]
        exact h id

theorem routed_of_upToDate (h : r.UpToDate) (e : Event Addr Conn) : r.Routed parse e := by
  constructor
  · intro stream ph addr hm hlatest
    have hlookup : r.server.idMap.lookup ph.id = some addr := (h ph.id).trans hlatest
    rw [Server.step_request hm, Server.punchHoleRequest, hlookup]
    exact ⟨rfl, rfl⟩
  · intro stream ph hm hlatest
    have hlookup : r.server.idMap.lookup ph.id = none := (h ph.id).trans hlatest
    rw [Server.step_request hm, Server.punchHoleRequest, hlookup]
    exact ⟨rfl, rfl, rfl⟩
  · exact Server.step_idMap

/-- **Requests go to the latest registration.** In every run, whatever is
interleaved and in whichever select datagrams are taken, a request for an id is
passed on, once, to the address of the latest registration of this id; without
one nothing is sent, and neither the registry nor the saved requester changes.
Nothing but a registration ever changes the registry. -/
theorem requests_routed (parse : Parser) (relayServer : String)
    (events : List (Event Addr Conn)) :
    Always (step parse) UpToDate (start relayServer) events ∧
      Along (step parse) (Routed parse) (start relayServer) events := by
  have hstart : (start relayServer : Registry Addr Conn).UpToDate := fun id => rfl
  have hdate : Always (step parse) UpToDate (start relayServer) events :=
    always_of_step (fun r e h => upToDate_step h e) events hstart
  exact ⟨hdate, along_of_always (fun r e h => routed_of_upToDate h e) hdate⟩

/-- `x` is registered at 7 and then, inside `relay`, at 8. -/
example : (List.foldl (step parseShort) (start "127.0.0.1" : Registry ℕ ℕ)
    [.udp (some (.ok ([0x32, 3, 0x0a, 1, 0x78], 7))),
      .accept (.ok 1), .nextTimeout (some (.ok [0x42, 3, 0x0a, 1, 0x78])),
      .accept (.ok 2), .nextTimeout (some (.ok [0x9a, 1, 0])),
      .relayAccept (.ok 3), .nextTimeout none, .relayAccept (.ok 4), .nextTimeout none,
      .udp (some (.ok ([0x32, 3, 0x0a, 1, 0x78], 8))), .relayNext .peer none,
      .accept (.ok 5), .nextTimeout (some (.ok [0x42, 3, 0x0a, 1, 0x78]))]).server.sent.getLast? =
    some (.datagram (.requestRelay { relayServer := "127.0.0.1" }) 8) := by decide

end Registry

end RustdeskServer.Rendezvous
