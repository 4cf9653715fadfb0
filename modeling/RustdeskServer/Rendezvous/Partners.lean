import RustdeskServer.Rendezvous.Isolation

/-!
# Who gets whose bytes

`Sessions.lean` says which clients a session pairs, `Isolation.lean` that bytes do not leave
a pair of connections. Together: as long as the clients keep to one session at a time, what
a client gets over the relay port was sent by the client of the same session, whom it has
asked for or who has asked for it.

`Watched` notes what `relay` has passed on, from which connection and to which. A pair of
connections is in the history of the sessions as soon as `relay` runs with it, and stays
there, since only the latest pairing changes and only until its connections are joined.
-/

namespace RustdeskServer.Rendezvous

open RustdeskServer.Framework RustdeskServer.Codec

variable {Addr Conn Client : Type}

/-- Bytes that `relay` has read from one connection and sent on another one. -/
structure Passed (Conn : Type) where
  source : Conn
  target : Conn
  bytes : Bytes
deriving DecidableEq

/-- What `relay` passes on in a step. -/
def Server.passes (s : Server Addr Conn) : Event Addr Conn → Option (Passed Conn)
  | .relayNext side (some (.ok bytes)) =>
      match s.wait with
      | .relay stream peer _ => some ⟨otherEnd peer stream side, otherEnd stream peer side, bytes⟩
      | _ => none
  | _ => none

def Sessions.passes (w : Sessions Addr Conn Client) : SessionEvent Addr Conn → List (Passed Conn)
  | .event e => (w.server.passes e).toList
  | _ => []

/-- The sessions, and all that `relay` has passed on. -/
structure Watched (Addr Conn Client : Type) where
  sessions : Sessions Addr Conn Client
  passed : List (Passed Conn)

/-- The bytes of clients that were put on the connection. -/
def relayedTo [DecidableEq Conn] (sent : List (Sent Addr Conn)) (conn : Conn) : List Bytes :=
  (putOn sent conn).filterMap Sum.getRight?

/-- The bytes that were passed on to the connection. -/
def passedTo [DecidableEq Conn] (passed : List (Passed Conn)) (conn : Conn) : List Bytes :=
  passed.filterMap fun x => if x.target = conn then some x.bytes else none

/-- The two ends of what was passed on are the connections of the answer, in one order or
the other. -/
def Passed.Between (x : Passed Conn) (p : Pairing Addr Conn) : Prop :=
  p.joined = some (x.source, x.target) ∨ p.joined = some (x.target, x.source)

namespace Watched

def start (relayServer : String) : Watched Addr Conn Client := ⟨.start relayServer, []⟩

variable [DecidableEq Client] (parse : Parser) (owner : Owners Addr Conn Client)

def step (w : Watched Addr Conn Client) (e : SessionEvent Addr Conn) : Watched Addr Conn Client where
  sessions := w.sessions.step parse owner e
  passed := w.passed ++ w.sessions.passes e

/-- All that was put on connections of clients was passed on, and between two clients of
which one was asked for the other. -/
structure Private [DecidableEq Conn] (w : Watched Addr Conn Client) : Prop where
  logged : ∀ conn, relayedTo w.sessions.server.sent conn = passedTo w.passed conn
  partners : ∀ x ∈ w.passed, ∃ p ∈ w.sessions.pairings, x.Between p ∧
    ∃ addr, p.asked = some (p.requester, addr) ∧
      [owner.conn x.source, owner.conn x.target].Perm [owner.addr addr, owner.conn p.requester]

end Watched

/-! ## What a step does to the pairings -/

/-- `relay` goes on with the connections it was called with. -/
theorem Server.relay_kept [DecidableEq Conn] (parse : Parser) {s : Server Addr Conn}
    {e : Event Addr Conn} (hjoins : s.joins e = none) {stream peer : Conn} {udp : Bool}
    (hw : (s.step parse e).wait = .relay stream peer udp) :
    ∃ udp, s.wait = .relay stream peer udp := by
  have hcarries := step_carries parse s e
  rw [hjoins] at hcarries
  generalize s.step parse e = s' at hcarries hw
  generalize s.reads e = reads at hcarries
  cases hcarries with
  | passed stream' peer' udp' side bytes hbefore hafter =>
      rw [hafter] at hw
      cases hw
      exact ⟨udp', hbefore⟩
  | answered requester msg _ _ _ _ hrelay => exact absurd hw (hrelay _ _ _)
  | accepted conn _ _ _ hrelay => exact absurd hw (hrelay _ _ _)
  | other _ _ hrelay => exact hrelay _ _ _ hw

namespace Sessions

variable {w w' : Sessions Addr Conn Client}

/-- While a session is set up, the latest pairing is its own and is not joined. -/
def Opening (w : Sessions Addr Conn Client) : Prop :=
  w.server.wait.held ≠ none → ∃ p ps, w.pairings = p :: ps ∧ p.joined = none

/-- The pair that `relay` runs with is in the history. -/
def Current (w : Sessions Addr Conn Client) : Prop :=
  ∀ stream peer udp, w.server.wait = .relay stream peer udp →
    ∃ p ∈ w.pairings, p.joined = some (stream, peer)

/-- What becomes of the pairings: nothing, a new one is noted, or the connections of the
latest one are joined. -/
inductive Recorded (w w' : Sessions Addr Conn Client) : Prop where
  | same : w'.pairings = w.pairings →
      (w'.server.wait.held ≠ none → w.server.wait.held ≠ none) →
      (∀ stream peer udp, w'.server.wait = .relay stream peer udp →
        ∃ udp, w.server.wait = .relay stream peer udp) → Recorded w w'
  | answered (p : Pairing Addr Conn) : p.joined = none → w'.pairings = p :: w.pairings →
      (∀ stream peer udp, w'.server.wait ≠ .relay stream peer udp) → Recorded w w'
  | joined (p : Pairing Addr Conn) (ps : List (Pairing Addr Conn)) (streamA streamB : Conn) :
      w.pairings = p :: ps → p.joined = none →
      w'.pairings = { p with joined := some (streamA, streamB) } :: ps →
      w'.server.wait = .relay streamA streamB true → Recorded w w'

theorem Recorded.opening (hrecorded : Recorded w w') (h : Opening w) : Opening w' := by
  intro hheld
  cases hrecorded with
  | same hpairings hkept _ =>
      rw [hpairings]
      exact h (hkept hheld)
  | answered p hfree hpairings _ => exact ⟨p, _, hpairings, hfree⟩
  | joined p ps streamA streamB _ _ _ hwait =>
      rw [hwait] at hheld
      exact absurd rfl hheld

/-- A pairing that is joined stays in the history. -/
theorem Recorded.kept (hrecorded : Recorded w w') {p : Pairing Addr Conn}
    (hp : p ∈ w.pairings) (hjoined : p.joined ≠ none) : p ∈ w'.pairings := by
  cases hrecorded with
  | same hpairings _ _ =>
      rw [hpairings]
      exact hp
  | answered q _ hpairings _ =>
      rw [hpairings]
      exact List.mem_cons_of_mem q hp
  | joined q qs streamA streamB hold hfree hpairings _ =>
      rw [hold] at hp
      rw [hpairings]
      rcases List.mem_cons.mp hp with rfl | hp
      · exact absurd hfree hjoined
      · exact List.mem_cons_of_mem _ hp

theorem Recorded.current (hrecorded : Recorded w w') (h : Current w) : Current w' := by
  intro stream peer udp hw
  cases hrecorded with
  | same hpairings _ hrelay =>
      rw [hpairings]
      obtain ⟨udp', hw'⟩ := hrelay stream peer udp hw
      exact h stream peer udp' hw'
  | answered p _ _ hrelay => exact absurd hw (hrelay _ _ _)
  | joined p ps streamA streamB _ _ hpairings hwait =>
      rw [hwait] at hw
      cases hw
      rw [hpairings]
      exact ⟨_, List.mem_cons_self, rfl⟩

variable [DecidableEq Client] [DecidableEq Conn] {parse : Parser}
  {owner : Owners Addr Conn Client}

theorem recorded_event (h : Opening w) {e : Event Addr Conn}
    (he : ∀ conn, e ≠ .relayAccept (.ok conn)) : Recorded w (w.step parse owner (.event e)) := by
  cases hheld : w.server.wait.held with
  | some conns =>
      rw [step_event he, note_setup hheld]
      cases hjoins : w.server.joins e with
      | none =>
          have hjoin : w.join e = w := by
            apply join_early
            rintro streamA streamB res hw rfl
            simp [Server.joins, hw] at hjoins
          rw [hjoin]
          refine .same rfl ?_ fun _ _ _ hw => Server.relay_kept parse hjoins hw
          intro _ hnone
          rw [hheld] at hnone
          cases hnone
      | some pair =>
          obtain ⟨streamA, streamB⟩ := pair
          obtain ⟨hw, res, rfl⟩ := Server.joins_eq hjoins
          obtain ⟨p, ps, hpairings, hfree⟩ := h (by simp [hheld])
          refine .joined p ps streamA streamB hpairings hfree ?_ ?_
          · simp [join, hw, hpairings]
          · simp [Server.step, hw]
  | none =>
      have hjoins : w.server.joins e = none := by
        by_contra hsome
        obtain ⟨⟨streamA, streamB⟩, hpair⟩ := Option.ne_none_iff_exists'.mp hsome
        rw [(Server.joins_eq hpair).1] at hheld
        cases hheld
      rcases Server.message_cases parse w.server e with ⟨stream, ph, hm⟩ | ⟨stream, m, hm⟩ | hm
      · rw [step_message hm]
        refine .same ?_ ?_ fun _ _ _ hw => Server.relay_kept parse hjoins hw
        · unfold note
          dsimp only
          split <;> rfl
        · intro hnew
          rw [Server.step_request hm, Server.punchHoleRequest_wait] at hnew
          exact absurd rfl hnew
      · rw [step_message hm]
        cases hsaved : w.server.savedStream with
        | some requester =>
            refine .answered ⟨requester, w.asked, stream, none⟩ rfl ?_ ?_
            · simp [note, hsaved]
            · intro stream' peer udp hw
              rw [Server.step_response hm] at hw
              rcases Server.relayResponse_wait w.server with hwait | hwait <;>
                rw [hwait] at hw <;> cases hw
        | none =>
            refine .same ?_ ?_ fun _ _ _ hw => Server.relay_kept parse hjoins hw
            · simp [note, hsaved]
            · intro hnew
              simp [Server.step_response hm, Server.relayResponse, hsaved, Wait.held] at hnew
      · rw [step_outside hheld he, note_unrelated hm]
        refine .same rfl ?_ fun _ _ _ hw => Server.relay_kept parse hjoins hw
        intro hnew
        exact absurd ((Server.step_unrelated hm).2 hheld) hnew

theorem recorded (h : Opening w) (e : SessionEvent Addr Conn) :
    Recorded w (w.step parse owner e) := by
  cases e with
  | dial conn => exact .same rfl id fun _ _ udp hw => ⟨udp, hw⟩
  | takeRelay =>
      refine .same (takeRelay_frame parse owner w).2.2 ?_ ?_
      · intro hnew hheld
        rw [takeRelay_closed hheld] at hnew
        exact hnew hheld
      · intro stream peer udp hw
        simp only [step] at hw
        split at hw
        case h_1 conn backlog hwait hb => simp [Server.step, hwait] at hw
        case h_2 conn backlog streamA hwait hb => simp [Server.step, hwait] at hw
        case h_3 => exact ⟨udp, hw⟩
  | event e =>
      by_cases he : ∃ conn, e = .relayAccept (.ok conn)
      · obtain ⟨conn, rfl⟩ := he
        exact .same rfl id fun _ _ udp hw => ⟨udp, hw⟩
      · exact recorded_event h fun conn hc => he ⟨conn, hc⟩

end Sessions

/-! ## What a step passes on -/

section

variable [DecidableEq Conn] {s : Server Addr Conn} {e : Event Addr Conn}

theorem relayedTo_append (sent outs : List (Sent Addr Conn)) (conn : Conn) :
    relayedTo (sent ++ outs) conn = relayedTo sent conn ++ relayedTo outs conn := by
  simp [relayedTo, putOn_append]

theorem passedTo_append (passed more : List (Passed Conn)) (conn : Conn) :
    passedTo (passed ++ more) conn = passedTo passed conn ++ passedTo more conn := by
  simp [passedTo]

omit [DecidableEq Conn] in
theorem Server.passes_none (h : s.reads e = none) : s.passes e = none := by
  unfold reads at h
  unfold passes
  split
  · dsimp only at h
    split
    · rename_i hw
      rw [hw] at h
      cases h
    · rfl
  · rfl

omit [DecidableEq Conn] in
theorem Server.passes_eq {x : Passed Conn} (h : s.passes e = some x) :
    ∃ udp, s.wait = .relay x.source x.target udp ∨ s.wait = .relay x.target x.source udp := by
  unfold passes at h
  split at h
  · split at h
    · rename_i stream peer udp hw
      rename Side => side
      cases h
      cases side with
      | stream => exact ⟨udp, Or.inl hw⟩
      | peer => exact ⟨udp, Or.inr hw⟩
    · cases h
  · cases h

/-- Bytes are put on a connection only as they are passed on. -/
theorem relayedTo_step (parse : Parser) (s : Server Addr Conn) (e : Event Addr Conn)
    (conn : Conn) :
    relayedTo (s.step parse e).sent conn =
      relayedTo s.sent conn ++ passedTo (s.passes e).toList conn := by
  have hcarries := Server.step_carries parse s e
  cases hreads : s.reads e with
  | none =>
      rw [hreads] at hcarries
      rw [Server.passes_none hreads]
      generalize s.step parse e = s' at hcarries
      generalize s.joins e = joins at hcarries
      cases hcarries with
      | joined _ _ _ _ _ _ hsent => simp [hsent, passedTo]
      | answered requester msg _ _ _ _ _ hsent =>
          rw [hsent, relayedTo_append]
          simp [relayedTo, putOn, Sent.puts, passedTo]
      | accepted _ _ _ _ _ hsent => simp [hsent, passedTo]
      | other _ _ _ hput => simp [relayedTo, hput, passedTo]
  | some r =>
      obtain ⟨source, bytes⟩ := r
      obtain ⟨stream, peer, udp, side, hw, rfl, rfl⟩ := Server.reads_eq hreads
      simp only [Server.step, hw, Server.passes, Server.await_sent, Server.send_sent,
        relayedTo_append]
      by_cases htarget : Server.otherEnd stream peer side = conn
      · simp [relayedTo, putOn, Sent.puts, passedTo, htarget]
      · simp [relayedTo, putOn, Sent.puts, passedTo, htarget]

end

/-- Only a pair that is joined has something between its connections. -/
theorem Passed.Between.joined {x : Passed Conn} {p : Pairing Addr Conn} (h : x.Between p) :
    p.joined ≠ none := by
  rcases h with h | h <;> simp [h]

/-- What is passed on is between the two connections of the pairing that `relay` runs for. -/
theorem Sessions.Current.between {w : Sessions Addr Conn Client} (h : w.Current)
    {e : SessionEvent Addr Conn} {x : Passed Conn} (hx : x ∈ w.passes e) :
    ∃ p ∈ w.pairings, x.Between p := by
  cases e with
  | event e =>
      obtain ⟨udp, hw | hw⟩ := Server.passes_eq (Option.mem_toList.mp hx)
      · obtain ⟨p, hp, hjoined⟩ := h _ _ _ hw
        exact ⟨p, hp, Or.inl hjoined⟩
      · obtain ⟨p, hp, hjoined⟩ := h _ _ _ hw
        exact ⟨p, hp, Or.inr hjoined⟩
  | dial => cases hx
  | takeRelay => cases hx

section

variable [DecidableEq Client] [DecidableEq Conn] {parse : Parser}
  {owner : Owners Addr Conn Client}

theorem Sessions.relayedTo_step (w : Sessions Addr Conn Client) (e : SessionEvent Addr Conn)
    (conn : Conn) :
    relayedTo (w.step parse owner e).server.sent conn =
      relayedTo w.server.sent conn ++ passedTo (w.passes e) conn := by
  cases e with
  | dial conn' => simp [step, passes, passedTo]
  | takeRelay =>
      have hpasses : passedTo (w.passes .takeRelay) conn = [] := rfl
      rw [hpasses, List.append_nil]
      simp only [step]
      split
      case h_1 conn' backlog hw hb => simp [Server.step, hw]
      case h_2 conn' backlog streamA hw hb => simp [Server.step, hw]
      case h_3 => rfl
  | event e =>
      by_cases he : ∃ conn, e = .relayAccept (.ok conn)
      · obtain ⟨conn', rfl⟩ := he
        simp [step, passes, Server.passes, passedTo]
      · rw [step_event fun conn hc => he ⟨conn, hc⟩]
        exact Rendezvous.relayedTo_step parse w.server e conn

end

namespace Watched

variable [DecidableEq Client] [DecidableEq Conn] {parse : Parser}
  {owner : Owners Addr Conn Client} {w : Watched Addr Conn Client}

/-- What every run keeps. -/
structure Kept (w : Watched Addr Conn Client) : Prop where
  opening : w.sessions.Opening
  current : w.sessions.Current
  logged : ∀ conn, relayedTo w.sessions.server.sent conn = passedTo w.passed conn
  between : ∀ x ∈ w.passed, ∃ p ∈ w.sessions.pairings, x.Between p

theorem Kept.step (h : w.Kept) (e : SessionEvent Addr Conn) : (w.step parse owner e).Kept := by
  have hrecorded : Sessions.Recorded w.sessions (w.sessions.step parse owner e) :=
    Sessions.recorded h.opening e
  constructor
  · exact hrecorded.opening h.opening
  · exact hrecorded.current h.current
  · intro conn
    show relayedTo (w.sessions.step parse owner e).server.sent conn =
      passedTo (w.passed ++ w.sessions.passes e) conn
    rw [Sessions.relayedTo_step, h.logged, passedTo_append]
  · intro x hx
    have hbefore : ∃ p ∈ w.sessions.pairings, x.Between p := by
      rcases List.mem_append.mp hx with hold | hnew
      · exact h.between x hold
      · exact h.current.between hnew
    obtain ⟨p, hp, hbetween⟩ := hbefore
    exact ⟨p, hrecorded.kept hp hbetween.joined, hbetween⟩

omit [DecidableEq Client] in
theorem Kept.isPrivate (h : w.Kept) (hintegrity : w.sessions.Integrity owner) :
    w.Private owner := by
  refine ⟨h.logged, ?_⟩
  intro x hx
  obtain ⟨p, hp, hbetween⟩ := h.between x hx
  obtain ⟨addr, hasked, -, hclients⟩ := hintegrity p hp
  refine ⟨p, hp, hbetween, addr, hasked, ?_⟩
  rcases hbetween with hjoined | hjoined
  · exact hclients _ _ hjoined
  · exact (List.Perm.swap _ _ _).trans (hclients _ _ hjoined)

omit [DecidableEq Conn] in
theorem sessions_foldl (w : Watched Addr Conn Client) (events : List (SessionEvent Addr Conn)) :
    (events.foldl (step parse owner) w).sessions =
      events.foldl (Sessions.step parse owner) w.sessions := by
  induction events generalizing w with
  | nil => rfl
  | cons e events ih => exact ih _

/-- **What a client gets is from the client of its session.** In every run in which the
clients keep to one session at a time, whatever else happens in between: all bytes that the
server puts on a connection were read by `relay` from another one, and the two are the
relay-port connections of a client that asked for another one, and of that client. -/
theorem passed_between_partners (parse : Parser) (owner : Owners Addr Conn Client)
    (relayServer : String) (events : List (SessionEvent Addr Conn))
    (horderly : Along (Sessions.step parse owner) (fun w e => w.orderly parse owner e = true)
      (.start relayServer) events) :
    (events.foldl (step parse owner) (start relayServer)).Private owner := by
  have hkept : Always (step parse owner) Kept (start relayServer) events := by
    apply always_of_step fun w e h => h.step e
    refine ⟨fun hheld => absurd rfl hheld, ?_, fun _ => rfl, ?_⟩
    · intro stream peer udp hw
      cases hw
    · exact List.forall_mem_nil _
  have htidy : Always (Sessions.step parse owner) (Sessions.Tidy owner) (.start relayServer)
      events := by
    apply always_of_along (fun w e h hord => Sessions.tidy_step h hord) _ horderly
    exact ⟨List.forall_mem_nil _, .closed rfl rfl⟩
  apply (hkept.final events).isPrivate
  rw [sessions_foldl]
  exact (htidy.final events).integrity

/-- The session of clients 1 and 7, in which both send something. -/
def bothTalk : List (SessionEvent ℕ ℕ) :=
  Sessions.oneSession ++
    [.event (.relayNext .stream (some (.ok [1]))), .event (.relayNext .peer (some (.ok [2])))]

theorem passed_between_partners_both :
    (bothTalk.foldl (step parseShort Sessions.byDigit) (start "127.0.0.1")).passed =
        [⟨27, 11, [1]⟩, ⟨11, 27, [2]⟩] ∧
      (bothTalk.foldl (step parseShort Sessions.byDigit) (start "127.0.0.1")).Private
        Sessions.byDigit :=
  ⟨by decide, passed_between_partners parseShort Sessions.byDigit "127.0.0.1" bothTalk
    (by decide)⟩

end Watched

end RustdeskServer.Rendezvous
