import RustdeskServer.Rendezvous.Sessions

/-!
# At most one answer, to the waiting requester

The saved slot is set by a request that is passed on, overwritten by the next and
taken by a relay response. `History` numbers the connections of a run in the
order they are accepted and notes what was handled and what was sent; the saved
slot can then be read off the notes (`Kept.saved`): it holds a connection just
while its request is the last message of a session that was handled.

No connection is saved twice, since the first frame of a connection is read once.
-/

namespace RustdeskServer.Rendezvous

open RustdeskServer.Framework RustdeskServer.Codec

variable {Addr Conn : Type}

/-- A note in the history of a run: a request whose id was registered, or a relay
response, was the first message of a connection; a relay response was sent to a
connection; a connection to the relay port was accepted. -/
inductive Mark (Conn : Type) where
  | request (stream : Conn)
  | response (stream : Conn)
  | answer (stream : Conn)
  | accepted (conn : Conn)
deriving DecidableEq

/-- A message of a session was handled. -/
def Mark.isMessage : Mark Conn → Bool
  | .request _ => true
  | .response _ => true
  | .answer _ => false
  | .accepted _ => false

def Mark.isAnswer : Mark Conn → Bool
  | .answer _ => true
  | _ => false

def Mark.isAccepted : Mark Conn → Bool
  | .accepted _ => true
  | _ => false

/-- To whom relay responses were sent. -/
def answered (sent : List (Sent Addr Conn)) : List Conn :=
  sent.filterMap fun
    | .message stream (.relayResponse _) => some stream
    | _ => none

/-- The last message of a session is the request of `stream`: no request that was
passed on came after it, and no response. -/
def Waiting (marks : List (Mark Conn)) (stream : Conn) : Prop :=
  (marks.filter Mark.isMessage).getLast? = some (.request stream)

/-- What was noted since the last answer, the latest first. -/
def sinceAnswer (marks : List (Mark Conn)) : List (Mark Conn) :=
  marks.reverse.takeWhile fun m => !m.isAnswer

namespace Server

variable (parse : Parser) (s : Server Addr Conn)

def messageMarks (e : Event Addr Conn) : List (Mark Conn) :=
  match s.firstMessage parse e with
  | some (stream, .punchHoleRequest ph) =>
      if (s.idMap.lookup ph.id).isSome then [.request stream] else []
  | some (stream, .relayResponse _) => [.response stream]
  | _ => []

/-- The connections a step sends a relay response to. -/
def answers (e : Event Addr Conn) : List Conn :=
  answered ((s.step parse e).sent.drop s.sent.length)

def acceptedMarks (e : Event Addr Conn) : List (Mark Conn) :=
  match s.wait, e with
  | .acceptA, .relayAccept (.ok conn) => [.accepted conn]
  | .acceptB _, .relayAccept (.ok conn) => [.accepted conn]
  | _, _ => []

/-- What a step adds to the history. -/
def marks (e : Event Addr Conn) : List (Mark Conn) :=
  s.messageMarks parse e ++ (s.answers parse e).map Mark.answer ++ s.acceptedMarks e

end Server

/-- Every accepted connection is a new one. -/
def Event.number (conn : ℕ) : Event Addr Unit → Event Addr ℕ
  | .udp res => .udp res
  | .accept res => .accept (res.map fun _ => conn)
  | .relayAccept res => .relayAccept (res.map fun _ => conn)
  | .nextTimeout res => .nextTimeout res
  | .relayNext side res => .relayNext side res

structure History (Addr : Type) where
  server : Server Addr ℕ
  next : ℕ
  marks : List (Mark ℕ)

namespace History

def start (relayServer : String) : History Addr := ⟨.start relayServer, 0, []⟩

def step (parse : Parser) (h : History Addr) (e : Event Addr Unit) : History Addr where
  server := h.server.step parse (e.number h.next)
  next := h.next + 1
  marks := h.marks ++ h.server.marks parse (e.number h.next)

/-- No connection was answered twice, and since the last answer at most two
connections to the relay port were accepted. -/
structure Modest (h : History Addr) : Prop where
  once : (answered h.server.sent).Nodup
  two : (sinceAnswer h.marks).countP Mark.isAccepted ≤ 2

/-- What a step does for those who wait: an answer goes to the requester that
waits, the relay port accepts only after an answer, and a response while nobody
waits leads back to the select and changes nothing else. -/
structure Answering (parse : Parser) (h : History Addr) (e : Event Addr Unit) : Prop where
  answer : ∀ stream ∈ h.server.answers parse (e.number h.next), Waiting h.marks stream
  accept : h.server.acceptedMarks (e.number h.next) ≠ [] → ∃ stream, .answer stream ∈ h.marks
  idle : ∀ stream m,
    h.server.firstMessage parse (e.number h.next) = some (stream, .relayResponse m) →
    (∀ requester, ¬ Waiting h.marks requester) →
      h.server.step parse (e.number h.next) = h.server.await .round

end History

/-! ## What a step adds to the history -/

/-- The connection whose first frame is waited for. -/
def Wait.first : Wait Conn → Option Conn
  | .firstFrame stream => some stream
  | _ => none

/-- How many connections the relay port may still accept for the last answer. -/
def Wait.mayAccept : Wait Conn → ℕ
  | .acceptA => 2
  | .handshakeA _ => 1
  | .acceptB _ => 1
  | _ => 0

namespace Server

/-- The ways the history can grow: a request is passed on, a response is answered
or finds nobody, the relay port accepts, or none of these. -/
inductive Noted (s : Server Addr Conn) (e : Event Addr Conn) (s' : Server Addr Conn) :
    List (Mark Conn) → Prop
  | request (stream : Conn) : s.wait.first = some stream → s'.wait = .round →
      s'.savedStream = some stream → answered s'.sent = answered s.sent →
      Noted s e s' [.request stream]
  | answered (stream requester : Conn) : s.wait.first = some stream →
      s.savedStream = some requester → s'.wait = .acceptA → s'.savedStream = none →
      answered s'.sent = answered s.sent ++ [requester] →
      Noted s e s' [.response stream, .answer requester]
  | idle (stream : Conn) : s.savedStream = none → s' = s.await .round →
      Noted s e s' [.response stream]
  | accepted (conn : Conn) : s'.savedStream = s.savedStream →
      answered s'.sent = answered s.sent → s'.wait.first = none →
      s'.wait.mayAccept + 1 ≤ s.wait.mayAccept → Noted s e s' [.accepted conn]
  | other : s'.savedStream = s.savedStream → answered s'.sent = answered s.sent →
      (s'.wait.first = none ∨ s'.wait.first = s.wait.first ∨
        ∃ conn, e = .accept (.ok conn) ∧ s'.wait.first = some conn) →
      s'.wait.mayAccept ≤ s.wait.mayAccept → Noted s e s' []

variable {parse : Parser} {s : Server Addr Conn} {e : Event Addr Conn}

theorem answered_append (sent outs : List (Sent Addr Conn)) :
    Rendezvous.answered (sent ++ outs) = Rendezvous.answered sent ++ Rendezvous.answered outs :=
  List.filterMap_append

theorem answers_eq {outs : List (Sent Addr Conn)}
    (h : (s.step parse e).sent = s.sent ++ outs) :
    s.answers parse e = Rendezvous.answered outs := by
  rw [answers, h, List.drop_left]

theorem acceptedMarks_first {stream : Conn} {u : Union}
    (h : s.firstMessage parse e = some (stream, u)) : s.acceptedMarks e = [] := by
  obtain ⟨-, bytes, rfl, -⟩ := firstMessage_eq h
  unfold acceptedMarks
  split
  case h_1 conn hw he => cases he
  case h_2 streamA conn hw he => cases he
  case h_3 => rfl

theorem messageMarks_unrelated (h : Unrelated parse s e) : s.messageMarks parse e = [] := by
  unfold messageMarks
  split
  case h_1 stream ph hm => exact absurd hm (h.request stream ph)
  case h_2 stream m hm => exact absurd hm (h.response stream m)
  case h_3 => rfl

theorem noted_request {stream : Conn} {ph : PunchHoleRequest}
    (hm : s.firstMessage parse e = some (stream, .punchHoleRequest ph)) :
    Noted s e (s.step parse e) (s.marks parse e) := by
  have hfirst : s.wait.first = some stream := by
    rw [(firstMessage_eq hm).1]
    rfl
  have hstep := step_request hm
  cases hl : s.idMap.lookup ph.id with
  | none =>
      rw [punchHoleRequest, hl] at hstep
      have hsent : (s.step parse e).sent = s.sent ++ [] := by
        rw [hstep, List.append_nil]
        rfl
      have hmarks : s.marks parse e = [] := by
        simp only [marks, messageMarks, hm, hl, answers_eq hsent, acceptedMarks_first hm]
        rfl
      rw [hmarks, hstep]
      exact .other rfl rfl (Or.inl rfl) (Nat.zero_le _)
  | some addr =>
      rw [punchHoleRequest, hl] at hstep
      have hsent : (s.step parse e).sent = s.sent ++
          [.datagram (.requestRelay { relayServer := s.relayServer }) addr] := by
        rw [hstep]
        rfl
      have hmarks : s.marks parse e = [.request stream] := by
        simp only [marks, messageMarks, hm, hl, answers_eq hsent, acceptedMarks_first hm]
        rfl
      rw [hmarks]
      refine .request stream hfirst ?_ ?_ ?_
      · rw [hstep]
        rfl
      · rw [hstep]
        rfl
      · rw [hsent, answered_append]
        exact List.append_nil _

theorem noted_response {stream : Conn} {m : RelayResponse}
    (hm : s.firstMessage parse e = some (stream, .relayResponse m)) :
    Noted s e (s.step parse e) (s.marks parse e) := by
  have hfirst : s.wait.first = some stream := by
    rw [(firstMessage_eq hm).1]
    rfl
  have hstep := step_response hm
  cases hs : s.savedStream with
  | none =>
      rw [relayResponse, hs] at hstep
      have hsent : (s.step parse e).sent = s.sent ++ [] := by
        rw [hstep, List.append_nil]
        rfl
      have hmarks : s.marks parse e = [.response stream] := by
        simp only [marks, messageMarks, hm, answers_eq hsent, acceptedMarks_first hm]
        rfl
      rw [hmarks]
      exact .idle stream hs hstep
  | some requester =>
      rw [relayResponse, hs] at hstep
      have hsent : (s.step parse e).sent = s.sent ++
          [.message requester (.relayResponse { relayServer := s.relayServer })] := by
        rw [hstep]
        rfl
      have hmarks : s.marks parse e = [.response stream, .answer requester] := by
        simp only [marks, messageMarks, hm, answers_eq hsent, acceptedMarks_first hm]
        rfl
      rw [hmarks]
      refine .answered stream requester hfirst hs ?_ ?_ ?_
      · rw [hstep]
        rfl
      · rw [hstep]
        rfl
      · rw [hsent, answered_append]
        rfl

/-- No message of a session: nobody is answered. -/
theorem unrelated_sent (h : Unrelated parse s e) :
    ∃ outs, (s.step parse e).sent = s.sent ++ outs ∧ Rendezvous.answered outs = [] := by
  have hstep := step_stepped parse s e
  generalize s.step parse e = s' at hstep
  cases hstep with
  | datagram bytes addr | relayDatagram bytes addr =>
      rcases (handleUdp_frame parse s bytes addr).2 with hsent | ⟨msg, hsent⟩
      · exact ⟨[], by rw [await_sent, hsent, List.append_nil], rfl⟩
      · exact ⟨[.datagram msg addr], hsent, rfl⟩
  | first res hw =>
      rw [handleFirst_unrelated hw h]
      exact ⟨[], (List.append_nil _).symm, rfl⟩
  | relayed side bytes => exact ⟨[.bytes _ bytes], rfl, rfl⟩
  | _ => exact ⟨[], (List.append_nil _).symm, rfl⟩

theorem unrelated_wait (h : Unrelated parse s e) :
    ((s.step parse e).wait.first = none ∨ (s.step parse e).wait.first = s.wait.first ∨
        ∃ conn, e = .accept (.ok conn) ∧ (s.step parse e).wait.first = some conn) ∧
      (s.step parse e).wait.mayAccept ≤ s.wait.mayAccept := by
  have hstep := step_stepped parse s e
  generalize s.step parse e = s' at hstep
  cases hstep with
  | ignored => exact ⟨Or.inr (Or.inl rfl), le_refl _⟩
  | datagram _ _ hw | relayDatagram _ _ hw => exact ⟨Or.inl rfl, Nat.zero_le _⟩
  | @udpFails accept => cases accept <;> exact ⟨Or.inl rfl, Nat.zero_le _⟩
  | @acceptFails udp => cases udp <;> exact ⟨Or.inl rfl, Nat.zero_le _⟩
  | accepted stream => exact ⟨Or.inr (Or.inr ⟨stream, rfl, rfl⟩), Nat.zero_le _⟩
  | first res hw =>
      rw [handleFirst_unrelated hw h]
      exact ⟨Or.inl rfl, Nat.zero_le _⟩
  | acceptedA streamA hw =>
      rw [hw]
      exact ⟨Or.inl rfl, Nat.le_succ 1⟩
  | handshakeA res hw =>
      rw [hw]
      exact ⟨Or.inl rfl, le_refl 1⟩
  | _ => exact ⟨Or.inl rfl, Nat.zero_le _⟩

theorem acceptedMarks_cases (s : Server Addr Conn) (e : Event Addr Conn) :
    s.acceptedMarks e = [] ∨ ∃ conn, e = .relayAccept (.ok conn) ∧
      s.acceptedMarks e = [.accepted conn] ∧
      (s.wait = .acceptA ∨ ∃ streamA, s.wait = .acceptB streamA) := by
  unfold acceptedMarks
  split
  case h_1 conn hw => exact Or.inr ⟨conn, rfl, rfl, Or.inl hw⟩
  case h_2 streamA conn hw => exact Or.inr ⟨conn, rfl, rfl, Or.inr ⟨streamA, hw⟩⟩
  case h_3 => exact Or.inl rfl

theorem noted_unrelated (h : Unrelated parse s e) :
    Noted s e (s.step parse e) (s.marks parse e) := by
  obtain ⟨outs, hsent, houts⟩ := unrelated_sent h
  have hsaved := (step_unrelated h).1
  have hanswered : Rendezvous.answered (s.step parse e).sent = Rendezvous.answered s.sent := by
    rw [hsent, answered_append, houts, List.append_nil]
  have hmarks : s.marks parse e = s.acceptedMarks e := by
    rw [marks, messageMarks_unrelated h, answers_eq hsent, houts]
    rfl
  rw [hmarks]
  rcases acceptedMarks_cases s e with hnone | ⟨conn, rfl, hconn, hwait⟩
  · rw [hnone]
    exact .other hsaved hanswered (unrelated_wait h).1 (unrelated_wait h).2
  · rw [hconn]
    refine .accepted conn hsaved hanswered ?_ ?_
    · rcases hwait with hw | ⟨streamA, hw⟩
      · simp only [step, hw]
        rfl
      · simp only [step, hw]
        rfl
    · rcases hwait with hw | ⟨streamA, hw⟩
      · simp only [step, hw]
        exact le_refl 2
      · simp only [step, hw]
        exact le_refl 1

/-- Only the saved requester is answered. -/
theorem noted_answer {s' : Server Addr Conn} {marks : List (Mark Conn)} {stream : Conn}
    (h : Noted s e s' marks) (hin : .answer stream ∈ marks) : s.savedStream = some stream := by
  cases h with
  | answered sender requester _ hsaved =>
      rcases List.mem_pair.mp hin with heq | heq
      · cases heq
      · cases heq
        exact hsaved
  | request | idle | accepted => cases List.mem_singleton.mp hin
  | other => cases hin

theorem acceptedMarks_mayAccept (h : s.acceptedMarks e ≠ []) : 0 < s.wait.mayAccept := by
  rcases acceptedMarks_cases s e with hnone | ⟨conn, -, -, hw | ⟨streamA, hw⟩⟩
  · exact absurd hnone h
  · rw [hw]
    exact Nat.zero_lt_two
  · rw [hw]
    exact Nat.one_pos

theorem step_noted (parse : Parser) (s : Server Addr Conn) (e : Event Addr Conn) :
    Noted s e (s.step parse e) (s.marks parse e) := by
  rcases message_cases parse s e with ⟨stream, ph, hm⟩ | ⟨stream, m, hm⟩ | h
  · exact noted_request hm
  · exact noted_response hm
  · exact noted_unrelated h

end Server

/-! ## The saved slot and the history -/

section Marks

variable {marks : List (Mark Conn)} {m : Mark Conn} {stream requester : Conn}

theorem waiting_concat (hm : m.isMessage = false) :
    Waiting (marks ++ [m]) stream ↔ Waiting marks stream := by
  rw [Waiting, List.filter_append, List.filter_cons_of_neg (by rw [hm]; exact Bool.false_ne_true),
    List.filter_nil, List.append_nil]
  rfl

theorem waiting_message (hm : m.isMessage = true) :
    Waiting (marks ++ [m]) stream ↔ m = .request stream := by
  rw [Waiting, List.filter_append, List.filter_cons_of_pos hm, List.filter_nil,
    List.getLast?_concat, Option.some_inj]

theorem sinceAnswer_concat : sinceAnswer (marks ++ [m]) =
    if m.isAnswer then [] else m :: sinceAnswer marks := by
  rw [sinceAnswer, List.reverse_append, List.reverse_singleton, List.singleton_append,
    List.takeWhile_cons]
  cases hm : m.isAnswer <;> rfl

end Marks

namespace History

/-- The connections whose first frame is waited for, that are saved, and that
were answered. A connection goes from one of these places to the next. -/
def held (h : History Addr) : List ℕ :=
  h.server.wait.first.toList ++ (h.server.savedStream.toList ++ answered h.server.sent)

/-- What the saved slot and the relay port have to do with the history. -/
structure Kept (h : History Addr) : Prop where
  saved : ∀ stream, h.server.savedStream = some stream ↔ Waiting h.marks stream
  distinct : h.held.Nodup
  known : ∀ stream ∈ h.held, stream < h.next
  two : (sinceAnswer h.marks).countP Mark.isAccepted + h.server.wait.mayAccept ≤ 2
  answer : 0 < h.server.wait.mayAccept → ∃ stream, .answer stream ∈ h.marks

variable {parse : Parser} {h : History Addr}

/-- The number of a connection is that of the event that accepted it. -/
theorem number_accept {e : Event Addr Unit} {next conn : ℕ}
    (he : e.number next = .accept (.ok conn)) : conn = next := by
  cases e with
  | accept res =>
      cases res with
      | error err => cases he
      | ok u =>
          cases he
          rfl
  | _ => cases he

theorem step_grown (parse : Parser) (h : History Addr) (e : Event Addr Unit) :
    ∃ s' marks, h.step parse e = ⟨s', h.next + 1, h.marks ++ marks⟩ ∧
      Server.Noted h.server (e.number h.next) s' marks :=
  ⟨_, _, rfl, Server.step_noted parse h.server (e.number h.next)⟩

/-- The held connections after a step were held before, except for a new one. -/
theorem held_step (parse : Parser) (h : History Addr) (e : Event Addr Unit) :
    (h.step parse e).held.Subperm (h.next :: h.held) := by
  obtain ⟨s', marks, hstep, hnoted⟩ := step_grown parse h e
  simp only [hstep, held]
  cases hnoted with
  | request stream hfirst hwait hsaved hsent =>
      rw [hfirst, hwait, hsaved, hsent]
      have hsub : ([stream] ++ answered h.server.sent).Sublist
          ([stream] ++ (h.server.savedStream.toList ++ answered h.server.sent)) :=
        (List.sublist_append_right _ _).append_left [stream]
      exact (hsub.cons h.next).subperm
  | answered stream requester hfirst hold hwait hsaved hsent =>
      rw [hfirst, hold, hwait, hsaved, hsent]
      have hsub : ([requester] ++ answered h.server.sent).Sublist
          (stream :: ([requester] ++ answered h.server.sent)) := List.sublist_cons_self _ _
      have hperm : (answered h.server.sent ++ [requester]).Subperm
          ([requester] ++ answered h.server.sent) := List.perm_append_comm.subperm
      exact hperm.trans (hsub.cons h.next).subperm
  | idle stream hold hs' =>
      subst hs'
      exact ((List.sublist_append_right _ _).cons _).subperm
  | accepted conn hsaved hsent hfirst =>
      rw [hsaved, hsent, hfirst]
      exact ((List.sublist_append_right _ _).cons _).subperm
  | other hsaved hsent hfirst =>
      rw [hsaved, hsent]
      rcases hfirst with hnone | hsame | ⟨conn, he, hfirst⟩
      · rw [hnone]
        exact ((List.sublist_append_right _ _).cons _).subperm
      · rw [hsame]
        exact (List.sublist_cons_self _ _).subperm
      · rw [hfirst, number_accept he]
        exact (List.Sublist.cons_cons _ (List.sublist_append_right _ _)).subperm

theorem saved_step (hsaved : ∀ stream, h.server.savedStream = some stream ↔
    Waiting h.marks stream) (e : Event Addr Unit) (stream : ℕ) :
    (h.step parse e).server.savedStream = some stream ↔
      Waiting (h.step parse e).marks stream := by
  obtain ⟨s', marks, hstep, hnoted⟩ := step_grown parse h e
  simp only [hstep]
  cases hnoted with
  | request requester _ _ hnew =>
      rw [hnew, waiting_message rfl, Option.some_inj, Mark.request.injEq]
  | answered sender requester _ _ _ hnew =>
      rw [hnew, List.append_cons, waiting_concat rfl, waiting_message rfl]
      constructor
      · intro hsaved
        cases hsaved
      · intro hlast
        cases hlast
  | idle sender hold hs' =>
      subst hs'
      rw [Server.await_savedStream, hold, waiting_message rfl]
      constructor
      · intro hsaved
        cases hsaved
      · intro hlast
        cases hlast
  | accepted conn hnew =>
      rw [hnew, waiting_concat rfl]
      exact hsaved stream
  | other hnew =>
      rw [hnew, List.append_nil]
      exact hsaved stream

theorem two_step (htwo : (sinceAnswer h.marks).countP Mark.isAccepted +
    h.server.wait.mayAccept ≤ 2) (e : Event Addr Unit) :
    (sinceAnswer (h.step parse e).marks).countP Mark.isAccepted +
      (h.step parse e).server.wait.mayAccept ≤ 2 := by
  obtain ⟨s', marks, hstep, hnoted⟩ := step_grown parse h e
  simp only [hstep]
  cases hnoted with
  | request requester _ hwait =>
      rw [hwait, sinceAnswer_concat]
      exact le_trans (Nat.le_add_right _ _) htwo
  | answered sender requester _ _ hwait =>
      -- from the answer on the relay port accepts two connections
      rw [hwait, List.append_cons, sinceAnswer_concat]
      exact le_refl 2
  | idle sender hold hs' =>
      subst hs'
      rw [sinceAnswer_concat]
      exact le_trans (Nat.le_add_right _ _) htwo
  | accepted conn _ _ _ hless =>
      rw [sinceAnswer_concat]
      show ((Mark.accepted conn :: sinceAnswer h.marks).countP Mark.isAccepted) + _ ≤ 2
      rw [List.countP_cons_of_pos rfl]
      omega
  | other _ _ _ hless =>
      rw [List.append_nil]
      omega

theorem answer_step (hanswer : 0 < h.server.wait.mayAccept → ∃ stream, .answer stream ∈ h.marks)
    (e : Event Addr Unit) (hmay : 0 < (h.step parse e).server.wait.mayAccept) :
    ∃ stream, .answer stream ∈ (h.step parse e).marks := by
  obtain ⟨s', marks, hstep, hnoted⟩ := step_grown parse h e
  simp only [hstep] at hmay ⊢
  cases hnoted with
  | request requester _ hwait =>
      rw [hwait] at hmay
      cases hmay
  | answered sender requester =>
      exact ⟨requester, List.mem_append_right _ (by simp)⟩
  | idle sender hold hs' =>
      subst hs'
      cases hmay
  | accepted conn _ _ _ hless =>
      obtain ⟨stream, hin⟩ := hanswer (by omega)
      exact ⟨stream, List.mem_append_left _ hin⟩
  | other _ _ _ hless =>
      obtain ⟨stream, hin⟩ := hanswer (by omega)
      exact ⟨stream, List.mem_append_left _ hin⟩

theorem kept_step (hk : h.Kept) (e : Event Addr Unit) : (h.step parse e).Kept := by
  have hheld := held_step parse h e
  have hfresh : h.next ∉ h.held := fun hin => lt_irrefl _ (hk.known h.next hin)
  constructor
  · exact saved_step hk.saved e
  · obtain ⟨l, hperm, hsub⟩ := hheld
    exact hperm.nodup_iff.mp ((List.nodup_cons.mpr ⟨hfresh, hk.distinct⟩).sublist hsub)
  · intro stream hin
    rcases List.mem_cons.mp (hheld.subset hin) with rfl | hold
    · exact Nat.lt_succ_self _
    · exact Nat.lt_succ_of_lt (hk.known stream hold)
  · exact two_step hk.two e
  · exact answer_step hk.answer e

theorem Kept.modest (hk : h.Kept) : h.Modest :=
  ⟨(List.nodup_append.mp (List.nodup_append.mp hk.distinct).2.1).2.1,
    le_trans (Nat.le_add_right _ _) hk.two⟩

theorem Kept.answering (hk : h.Kept) (e : Event Addr Unit) : h.Answering parse e := by
  constructor
  · intro stream hin
    have hmark : .answer stream ∈ h.server.marks parse (e.number h.next) :=
      List.mem_append_left _ (List.mem_append_right _ (List.mem_map_of_mem hin))
    exact (hk.saved stream).mp
      (Server.noted_answer (Server.step_noted parse h.server (e.number h.next)) hmark)
  · exact fun haccept => hk.answer (Server.acceptedMarks_mayAccept haccept)
  · intro stream m hm hnobody
    have hsaved : h.server.savedStream = none := by
      cases hs : h.server.savedStream with
      | none => rfl
      | some requester => exact absurd ((hk.saved requester).mp hs) (hnobody requester)
    rw [Server.step_response hm, Server.relayResponse, hsaved]

/-- **At most one answer, and only to the requester that waits.** In every run,
whatever requesters, responses and relay sessions are interleaved: a connection is
sent at most one relay response, and only while its request, for an id that was
registered when it was handled, is the last message of a session; connections to
the relay port are accepted only after an answer, at most two for each; and a
response while nobody waits changes nothing. -/
theorem answers_sound (parse : Parser) (relayServer : String)
    (events : List (Event Addr Unit)) :
    Always (step parse) Modest (start relayServer) events ∧
      Along (step parse) (Answering parse) (start relayServer) events := by
  have hstart : (start relayServer : History Addr).Kept := by
    constructor
    · exact fun stream => ⟨nofun, nofun⟩
    · exact List.nodup_nil
    · exact List.forall_mem_nil _
    · exact Nat.zero_le 2
    · exact fun hmay => absurd hmay (lt_irrefl 0)
  have hkept : Always (step parse) Kept (start relayServer) events :=
    always_of_step (fun h e hk => kept_step hk e) events hstart
  exact ⟨hkept.mono fun h hk => hk.modest, along_of_always (fun h e hk => hk.answering e) hkept⟩

/-- Two requesters wait, the second in place of the first, and two responses come. -/
example : (List.foldl (step parseShort) (start "127.0.0.1" : History ℕ)
    [.udp (some (.ok ([0x32, 3, 0x0a, 1, 0x78], 7))),
      .accept (.ok ()), .nextTimeout (some (.ok [0x42, 3, 0x0a, 1, 0x78])),
      .accept (.ok ()), .nextTimeout (some (.ok [0x42, 3, 0x0a, 1, 0x78])),
      .accept (.ok ()), .nextTimeout (some (.ok [0x9a, 1, 0])), .relayAccept (.error ⟨.other, ""⟩),
      .accept (.ok ()), .nextTimeout (some (.ok [0x9a, 1, 0]))]).marks =
    [.request 1, .request 3, .response 5, .answer 3, .response 8] := by decide

end History

end RustdeskServer.Rendezvous
