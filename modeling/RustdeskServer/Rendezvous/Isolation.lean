import RustdeskServer.Rendezvous.Answers

/-!
# Relay sessions are isolated

`relay` takes its two connections by value, so a connection that was joined once
cannot be met again, and the server never puts a message of its own on a
connection of the relay port. `Traffic` notes, over a whole run, which connections
were accepted at which port, which were joined and what was read from which of
them; `sessions_isolated` reads off the log of sends that every connection that was
joined gets the bytes of the one it was joined with, and nothing else, and every
other connection relay responses at most.
-/

namespace RustdeskServer.Rendezvous

open RustdeskServer.Framework RustdeskServer.Codec

variable {Addr Conn : Type}

/-- The two listeners, `listener` and `rlistener`. -/
inductive Port where
  | main
  | relay
deriving DecidableEq

/-- A run whose connections are numbered as they are accepted, the pairs that
`relay` was called with, what it has read from which connection, and which
connections were accepted at which port. -/
structure Traffic (Addr : Type) where
  server : Server Addr ℕ
  next : ℕ
  joined : List (ℕ × ℕ)
  reads : List (ℕ × Bytes)
  accepted : List (Port × ℕ)

/-- What a send puts on the connection `conn`: a message, or bytes of a client. -/
def Sent.puts [DecidableEq Conn] (conn : Conn) : Sent Addr Conn → Option (Union ⊕ Bytes)
  | .message stream msg => if stream = conn then some (.inl msg) else none
  | .bytes stream chunk => if stream = conn then some (.inr chunk) else none
  | .datagram _ _ => none

/-- What was put on the connection `conn`, in order. -/
def putOn [DecidableEq Conn] (sent : List (Sent Addr Conn)) (conn : Conn) :
    List (Union ⊕ Bytes) := sent.filterMap (Sent.puts conn)

def readFrom [DecidableEq Conn] (reads : List (Conn × Bytes)) (conn : Conn) : List Bytes :=
  reads.filterMap fun r => if r.1 = conn then some r.2 else none

/-- The connections of these pairs. -/
def members (joined : List (Conn × Conn)) : List Conn := joined.flatMap fun p => [p.1, p.2]

namespace Server

variable (s : Server Addr Conn)

/-- `relay` is called. -/
def joins : Event Addr Conn → Option (Conn × Conn)
  | .nextTimeout _ =>
      match s.wait with
      | .handshakeB streamA streamB => some (streamA, streamB)
      | _ => none
  | _ => none

/-- `relay` reads bytes, and from which connection. -/
def reads : Event Addr Conn → Option (Conn × Bytes)
  | .relayNext side (some (.ok bytes)) =>
      match s.wait with
      | .relay stream peer _ => some (otherEnd peer stream side, bytes)
      | _ => none
  | _ => none

/-- A listener accepts a connection. -/
def accepts : Event Addr Conn → Option (Port × Conn)
  | .accept (.ok conn) =>
      match s.wait with
      | .select _ true => some (.main, conn)
      | _ => none
  | .relayAccept (.ok conn) =>
      match s.wait with
      | .acceptA | .acceptB _ => some (.relay, conn)
      | _ => none
  | _ => none

/-- The connections of the main port the server still has. -/
def front : List Conn := s.wait.first.toList ++ s.savedStream.toList

/-- The connections of the relay port that were accepted and not joined. -/
def met : List Conn := s.wait.held.getD []

end Server

namespace Traffic

def start (relayServer : String) : Traffic Addr := ⟨.start relayServer, 0, [], [], []⟩

def step (parse : Parser) (t : Traffic Addr) (e : Event Addr Unit) : Traffic Addr where
  server := t.server.step parse (e.number t.next)
  next := t.next + 1
  joined := t.joined ++ (t.server.joins (e.number t.next)).toList
  reads := t.reads ++ (t.server.reads (e.number t.next)).toList
  accepted := t.accepted ++ (t.server.accepts (e.number t.next)).toList

/-- No connection was joined twice or with itself, and all that were joined are of
the relay port; what was put on a connection that was joined is what was read from
its partner, in order; the bytes of a client were put on no other connection; and
the server's own messages are relay responses, on connections of the main port. -/
structure Isolated (t : Traffic Addr) : Prop where
  distinct : (members t.joined).Nodup
  dialled : ∀ conn ∈ members t.joined, (.relay, conn) ∈ t.accepted
  exchange : ∀ p ∈ t.joined,
    putOn t.server.sent p.1 = (readFrom t.reads p.2).map .inr ∧
      putOn t.server.sent p.2 = (readFrom t.reads p.1).map .inr
  apart : ∀ conn bytes, .inr bytes ∈ putOn t.server.sent conn → conn ∈ members t.joined
  own : ∀ conn msg, .inl msg ∈ putOn t.server.sent conn →
    (∃ response, msg = .relayResponse response) ∧ (.main, conn) ∈ t.accepted

end Traffic

/-! ## What a step puts where -/

section Lists

variable [DecidableEq Conn]

theorem putOn_append (sent outs : List (Sent Addr Conn)) (conn : Conn) :
    putOn (sent ++ outs) conn = putOn sent conn ++ putOn outs conn := List.filterMap_append

theorem readFrom_append (reads more : List (Conn × Bytes)) (conn : Conn) :
    readFrom (reads ++ more) conn = readFrom reads conn ++ readFrom more conn :=
  List.filterMap_append

theorem putOn_bytes (stream : Conn) (bytes : Bytes) (conn : Conn) :
    putOn [(.bytes stream bytes : Sent Addr Conn)] conn =
      if stream = conn then [.inr bytes] else [] := by
  by_cases h : stream = conn <;> simp [putOn, Sent.puts, h]

theorem putOn_message (stream : Conn) (msg : Union) (conn : Conn) :
    putOn [(.message stream msg : Sent Addr Conn)] conn =
      if stream = conn then [.inl msg] else [] := by
  by_cases h : stream = conn <;> simp [putOn, Sent.puts, h]

theorem readFrom_singleton (stream : Conn) (bytes : Bytes) (conn : Conn) :
    readFrom [(stream, bytes)] conn = if stream = conn then [bytes] else [] := by
  by_cases h : stream = conn <;> simp [readFrom, h]

omit [DecidableEq Conn] in
theorem members_append (joined more : List (Conn × Conn)) :
    members (joined ++ more) = members joined ++ members more := List.flatMap_append

omit [DecidableEq Conn] in
theorem mem_members {joined : List (Conn × Conn)} {conn : Conn} :
    conn ∈ members joined ↔ ∃ p ∈ joined, conn = p.1 ∨ conn = p.2 := by
  simp only [members, List.mem_flatMap, List.mem_cons, List.not_mem_nil, or_false]

end Lists

namespace Server

/-- What a step can do for the traffic: it joins two connections, passes on what
it read, answers the saved requester, accepts at the relay port, or does nothing
of this. -/
inductive Carries [DecidableEq Conn] (s : Server Addr Conn) (e : Event Addr Conn)
    (s' : Server Addr Conn) : Option (Conn × Conn) → Option (Conn × Bytes) → Prop
  | joined (streamA streamB : Conn) : s.met = [streamA, streamB] → s'.met = [] →
      s'.wait = .relay streamA streamB true → s'.front = s.savedStream.toList →
      s'.sent = s.sent → Carries s e s' (some (streamA, streamB)) none
  | passed (stream peer : Conn) (udp : Bool) (side : Side) (bytes : Bytes) :
      s.wait = .relay stream peer udp → s'.wait = .relay stream peer true →
      s'.front = s.savedStream.toList →
      s'.sent = s.sent ++ [.bytes (otherEnd stream peer side) bytes] →
      Carries s e s' none (some (otherEnd peer stream side, bytes))
  | answered (requester : Conn) (response : RelayResponse) : requester ∈ s.front →
      s.met = [] → s'.met = [] → s'.front = [] →
      (∀ stream peer udp, s'.wait ≠ .relay stream peer udp) →
      s'.sent = s.sent ++ [.message requester (.relayResponse response)] →
      Carries s e s' none none
  | accepted (conn : Conn) : s.accepts e = some (.relay, conn) → s'.met = s.met ++ [conn] →
      s'.front = s.savedStream.toList → (∀ stream peer udp, s'.wait ≠ .relay stream peer udp) →
      s'.sent = s.sent → Carries s e s' none none
  | other : s'.met.Sublist s.met →
      (∀ conn ∈ s'.front, conn ∈ s.front ∨ s.accepts e = some (.main, conn)) →
      (∀ stream peer udp, s'.wait = .relay stream peer udp →
        ∃ udp, s.wait = .relay stream peer udp) →
      (∀ conn, putOn s'.sent conn = putOn s.sent conn) → Carries s e s' none none

variable [DecidableEq Conn] {parse : Parser} {s : Server Addr Conn} {e : Event Addr Conn}

theorem putOn_handleUdp (parse : Parser) (s : Server Addr Conn) (bytes : Bytes) (addr : Addr)
    (conn : Conn) : putOn (s.handleUdp parse bytes addr).sent conn = putOn s.sent conn := by
  rcases (handleUdp_frame parse s bytes addr).2 with hsent | ⟨msg, hsent⟩
  · rw [hsent]
  · rw [hsent, putOn_append]
    exact List.append_nil _

omit [DecidableEq Conn] in
theorem joins_eq {streamA streamB : Conn} (h : s.joins e = some (streamA, streamB)) :
    s.wait = .handshakeB streamA streamB ∧ ∃ res, e = .nextTimeout res := by
  unfold joins at h
  split at h
  · split at h
    · cases h
      exact ⟨by assumption, _, rfl⟩
    · cases h
  · cases h

omit [DecidableEq Conn] in
theorem accepts_eq {port : Port} {conn : Conn} (h : s.accepts e = some (port, conn)) :
    e = .accept (.ok conn) ∨ e = .relayAccept (.ok conn) := by
  unfold accepts at h
  split at h
  · split at h
    · cases h
      exact Or.inl rfl
    · cases h
  · split at h
    · cases h
      exact Or.inr rfl
    · cases h
      exact Or.inr rfl
    · cases h
  · cases h

omit [DecidableEq Conn] in
theorem reads_eq {conn : Conn} {bytes : Bytes} (h : s.reads e = some (conn, bytes)) :
    ∃ stream peer udp side, s.wait = .relay stream peer udp ∧
      e = .relayNext side (some (.ok bytes)) ∧ conn = otherEnd peer stream side := by
  unfold reads at h
  split at h
  · split at h
    · cases h
      exact ⟨_, _, _, _, by assumption, rfl, rfl⟩
    · cases h
  · cases h

/-- Going on to another await. -/
theorem carries_await {w : Wait Conn} (hfirst : w.first = none)
    (hmet : (w.held.getD []).Sublist s.met)
    (hrelay : ∀ stream peer udp, w = .relay stream peer udp →
      ∃ udp, s.wait = .relay stream peer udp) : Carries s e (s.await w) none none := by
  refine .other hmet ?_ hrelay fun _ => rfl
  intro conn hin
  have hsaved : conn ∈ w.first.toList ++ s.savedStream.toList := hin
  rw [hfirst] at hsaved
  exact Or.inl (List.mem_append_right _ hsaved)

/-- A datagram is handled, and the await that took it goes on. -/
theorem carries_datagram (parse : Parser) (bytes : Bytes) (addr : Addr) {w : Wait Conn}
    (hfirst : w.first = none) (hheld : w.held = none)
    (hrelay : ∀ stream peer udp, w = .relay stream peer udp →
      ∃ udp, s.wait = .relay stream peer udp) :
    Carries s e ((s.handleUdp parse bytes addr).await w) none none := by
  refine .other ?_ ?_ hrelay fun conn => putOn_handleUdp parse s bytes addr conn
  · rw [met, await_wait, hheld]
    exact List.nil_sublist _
  · intro conn hin
    rw [front, await_wait, hfirst, await_savedStream, (handleUdp_frame parse s bytes addr).1] at hin
    exact Or.inl (List.mem_append_right _ hin)

theorem carries_first (parse : Parser) {stream : Conn} (hw : s.wait = .firstFrame stream)
    (res : Option (Except IoError Bytes)) :
    Carries s e (s.handleFirst parse stream res) none none := by
  have hfront : s.front = stream :: s.savedStream.toList := by
    rw [front, hw]
    rfl
  have hback : Carries s e (s.await .round) none none :=
    carries_await rfl (List.nil_sublist _) nofun
  unfold handleFirst
  split
  · split
    · -- the requester is saved, and nothing is put on a connection
      rename_i ph hparse
      unfold punchHoleRequest
      split
      · refine .other (List.nil_sublist _) ?_ nofun fun conn => ?_
        · intro conn hin
          rw [hfront]
          exact Or.inl (List.mem_cons.mpr (Or.inl (List.mem_singleton.mp hin)))
        · show putOn (s.sent ++ [_]) conn = _
          rw [putOn_append]
          exact List.append_nil _
      · exact hback
    · unfold relayResponse
      split
      case h_1 requester hsaved =>
        refine .answered requester _ ?_ ?_ rfl rfl nofun rfl
        · rw [hfront, hsaved]
          exact List.mem_cons_of_mem _ (List.mem_singleton_self _)
        · rw [met, hw]
          rfl
      case h_2 => exact hback
    · exact hback
  · exact hback

/-- No connection is joined and nothing is read by `relay`. -/
theorem step_carries_none (parse : Parser) (hjoins : s.joins e = none)
    (hreads : s.reads e = none) : Carries s e (s.step parse e) none none := by
  have hstep := step_stepped parse s e
  generalize s.step parse e = s' at hstep
  cases hstep with
  | ignored =>
      exact .other (List.Sublist.refl _) (fun _ => Or.inl) (fun _ _ udp h => ⟨udp, h⟩) fun _ => rfl
  | datagram bytes addr hw => exact carries_datagram parse bytes addr rfl rfl nofun
  | @udpFails accept res hw hres =>
      cases accept with
      | true => exact carries_await rfl (List.nil_sublist _) nofun
      | false => exact carries_await rfl (List.nil_sublist _) nofun
  | accepted stream hw =>
      refine .other (List.nil_sublist _) ?_ nofun fun _ => rfl
      intro conn hin
      rcases List.mem_cons.mp hin with rfl | hsaved
      · exact Or.inr (by simp only [accepts, hw])
      · exact Or.inl (List.mem_append_right _ hsaved)
  | @acceptFails udp err hw =>
      cases udp with
      | true => exact carries_await rfl (List.nil_sublist _) nofun
      | false => exact carries_await rfl (List.nil_sublist _) nofun
  | first res hw => exact carries_first parse hw res
  | acceptedA streamA hw =>
      refine .accepted streamA (by simp only [accepts, hw]) ?_ rfl nofun rfl
      rw [met, met, hw]
      rfl
  | acceptedB streamB hw =>
      refine .accepted streamB (by simp only [accepts, hw]) ?_ rfl nofun rfl
      rw [met, met, hw]
      rfl
  | handshakeA res hw =>
      refine carries_await rfl ?_ nofun
      rw [met, hw]
      exact List.Sublist.refl _
  | handshakeB res hw =>
      simp only [joins, hw] at hjoins
      cases hjoins
  | relayDatagram bytes addr hw =>
      exact carries_datagram parse bytes addr rfl rfl fun _ _ _ h => by cases h; exact ⟨true, hw⟩
  | relayUdpFails hw hres =>
      exact carries_await rfl (List.nil_sublist _) fun _ _ _ h => by cases h; exact ⟨true, hw⟩
  | relayed side bytes hw =>
      simp only [reads, hw] at hreads
      cases hreads
  | acceptAFails | acceptBFails | relayEnds =>
      exact carries_await rfl (List.nil_sublist _) nofun

theorem step_carries (parse : Parser) (s : Server Addr Conn) (e : Event Addr Conn) :
    Carries s e (s.step parse e) (s.joins e) (s.reads e) := by
  cases hjoins : s.joins e with
  | some p =>
      obtain ⟨streamA, streamB⟩ := p
      obtain ⟨hw, res, rfl⟩ := joins_eq hjoins
      have hstep : s.step parse (.nextTimeout res) = s.await (.relay streamA streamB true) := by
        simp only [step, hw]
      rw [hstep]
      refine .joined streamA streamB ?_ rfl rfl rfl rfl
      rw [met, hw]
      rfl
  | none =>
      cases hreads : s.reads e with
      | none => exact step_carries_none parse hjoins hreads
      | some r =>
          obtain ⟨conn, bytes⟩ := r
          obtain ⟨stream, peer, udp, side, hw, rfl, rfl⟩ := reads_eq hreads
          have hstep : s.step parse (.relayNext side (some (.ok bytes))) =
              (s.send (.bytes (otherEnd stream peer side) bytes)).await
                (.relay stream peer true) := by
            simp only [step, hw]
          rw [hstep]
          exact .passed stream peer udp side bytes hw rfl rfl rfl

end Server

/-! ## Every connection has its place -/

/-- Two pairs with a connection in common are the same pair. -/
theorem pair_unique {joined : List (Conn × Conn)} (h : (members joined).Nodup)
    {p q : Conn × Conn} (hp : p ∈ joined) (hq : q ∈ joined) {conn : Conn}
    (hcp : conn = p.1 ∨ conn = p.2) (hcq : conn = q.1 ∨ conn = q.2) : p = q := by
  by_contra hne
  have hapart := (List.nodup_flatMap.mp h).2
  have hsymm : Std.Symm (Function.onFun List.Disjoint fun p : Conn × Conn => [p.1, p.2]) :=
    ⟨fun _ _ hd => List.Disjoint.symm hd⟩
  have hdisjoint : List.Disjoint [p.1, p.2] [q.1, q.2] := hapart.forall hp hq hne
  exact hdisjoint (by simpa using hcp) (by simpa using hcq)

theorem pair_ne {joined : List (Conn × Conn)} (h : (members joined).Nodup)
    {p : Conn × Conn} (hp : p ∈ joined) : p.1 ≠ p.2 := by
  have hnodup := (List.nodup_flatMap.mp h).1 p hp
  simpa using hnodup

namespace Traffic

/-- The connections of the relay port, met or joined. -/
def dialled (t : Traffic Addr) : List ℕ := t.server.met ++ members t.joined

/-- The connections of the relay port are distinct and none is one of the main
port; `relay` runs with a pair that was joined; messages are put on connections of
the main port only, and bytes on, and read from, joined ones. -/
structure Placed (t : Traffic Addr) : Prop where
  distinct : t.dialled.Nodup
  known : ∀ conn ∈ t.dialled, conn < t.next
  front : ∀ conn ∈ t.server.front, conn < t.next ∧ conn ∉ t.dialled
  current : ∀ stream peer udp, t.server.wait = .relay stream peer udp →
    (stream, peer) ∈ t.joined
  exchange : ∀ p ∈ t.joined,
    putOn t.server.sent p.1 = (readFrom t.reads p.2).map .inr ∧
      putOn t.server.sent p.2 = (readFrom t.reads p.1).map .inr
  message : ∀ conn msg, .inl msg ∈ putOn t.server.sent conn →
    conn < t.next ∧ conn ∉ t.dialled
  apart : ∀ conn bytes, .inr bytes ∈ putOn t.server.sent conn → conn ∈ members t.joined
  read : ∀ conn, readFrom t.reads conn ≠ [] → conn ∈ members t.joined

variable {t : Traffic Addr}

/-- A connection that was met has seen nothing yet. -/
theorem Placed.untouched (h : t.Placed) {conn : ℕ} (hin : conn ∈ t.server.met) :
    putOn t.server.sent conn = [] ∧ readFrom t.reads conn = [] := by
  have hfree : conn ∉ members t.joined :=
    List.disjoint_of_nodup_append h.distinct hin
  constructor
  · rw [List.eq_nil_iff_forall_not_mem]
    rintro (msg | bytes) hput
    · exact (h.message conn msg hput).2 (List.mem_append_left _ hin)
    · exact hfree (h.apart conn bytes hput)
  · by_contra hread
    exact hfree (h.read conn hread)

theorem Placed.nodup_members (h : t.Placed) : (members t.joined).Nodup :=
  (List.nodup_append.mp h.distinct).2.1

/-- Two connections are joined: they move from those met to those joined. -/
theorem Placed.join (h : t.Placed) {s' : Server Addr ℕ} {accepted : List (Port × ℕ)}
    {streamA streamB : ℕ}
    (hmet : t.server.met = [streamA, streamB]) (hmet' : s'.met = [])
    (hwait : s'.wait = .relay streamA streamB true)
    (hfront : s'.front = t.server.savedStream.toList) (hsent : s'.sent = t.server.sent) :
    Placed ⟨s', t.next + 1, t.joined ++ [(streamA, streamB)], t.reads, accepted⟩ := by
  have hperm : (dialled ⟨s', t.next + 1, t.joined ++ [(streamA, streamB)], t.reads, accepted⟩).Perm
      t.dialled := by
    rw [dialled, hmet', List.nil_append, members_append, dialled, hmet]
    exact List.perm_append_comm
  have hin : ∀ conn, conn = streamA ∨ conn = streamB → conn ∈ t.server.met := by
    intro conn hconn
    rw [hmet]
    simpa using hconn
  constructor
  · exact hperm.nodup_iff.mpr h.distinct
  · intro conn hconn
    exact Nat.lt_succ_of_lt (h.known conn (hperm.mem_iff.mp hconn))
  · intro conn hconn
    rw [hfront] at hconn
    obtain ⟨hlt, hnot⟩ := h.front conn (List.mem_append_right _ hconn)
    exact ⟨Nat.lt_succ_of_lt hlt, fun h => hnot (hperm.mem_iff.mp h)⟩
  · intro stream peer udp hw
    rw [hwait] at hw
    cases hw
    exact List.mem_append_right _ (List.mem_singleton_self _)
  · intro p hp
    rw [hsent]
    rcases List.mem_append.mp hp with hp | hp
    · exact h.exchange p hp
    · obtain rfl := List.mem_singleton.mp hp
      obtain ⟨hputA, hreadA⟩ := h.untouched (hin streamA (Or.inl rfl))
      obtain ⟨hputB, hreadB⟩ := h.untouched (hin streamB (Or.inr rfl))
      rw [hputA, hputB, hreadA, hreadB]
      exact ⟨rfl, rfl⟩
  · intro conn msg hput
    rw [hsent] at hput
    obtain ⟨hlt, hnot⟩ := h.message conn msg hput
    exact ⟨Nat.lt_succ_of_lt hlt, fun h => hnot (hperm.mem_iff.mp h)⟩
  · intro conn bytes hput
    rw [hsent] at hput
    rw [members_append]
    exact List.mem_append_left _ (h.apart conn bytes hput)
  · intro conn hread
    rw [members_append]
    exact List.mem_append_left _ (h.read conn hread)

/-- What was read from one of a joined pair is put on the other. -/
theorem Placed.pass (h : t.Placed) {s' : Server Addr ℕ} {accepted : List (Port × ℕ)}
    {stream peer : ℕ} {udp : Bool} (side : Side) (bytes : Bytes) (hw : t.server.wait = .relay stream peer udp)
    (hwait : s'.wait = .relay stream peer true)
    (hfront : s'.front = t.server.savedStream.toList)
    (hsent : s'.sent =
      t.server.sent ++ [.bytes (Server.otherEnd stream peer side) bytes]) :
    Placed ⟨s', t.next + 1, t.joined,
      t.reads ++ [(Server.otherEnd peer stream side, bytes)], accepted⟩ := by
  have hjoined := h.current stream peer udp hw
  have hmembers := h.nodup_members
  have hne : stream ≠ peer := pair_ne hmembers hjoined
  have hmet : s'.met = t.server.met := by
    rw [Server.met, Server.met, hw, hwait]
    rfl
  have hdialled : dialled ⟨s', t.next + 1, t.joined,
      t.reads ++ [(Server.otherEnd peer stream side, bytes)], accepted⟩ = t.dialled := by
    rw [dialled, hmet, dialled]
  have hput : ∀ conn, putOn s'.sent conn = putOn t.server.sent conn ++
      if Server.otherEnd stream peer side = conn then [.inr bytes] else [] := by
    intro conn
    rw [hsent, putOn_append, putOn_bytes]
  have hread : ∀ conn, readFrom (t.reads ++ [(Server.otherEnd peer stream side, bytes)]) conn =
      readFrom t.reads conn ++ if Server.otherEnd peer stream side = conn then [bytes] else [] := by
    intro conn
    rw [readFrom_append, readFrom_singleton]
  have hends : ∀ conn, Server.otherEnd stream peer side = conn ∨
      Server.otherEnd peer stream side = conn → conn = stream ∨ conn = peer := by
    intro conn hconn
    cases side <;> rcases hconn with rfl | rfl <;> simp [Server.otherEnd]
  have hpair : ∀ conn, conn = stream ∨ conn = peer → conn ∈ members t.joined :=
    fun conn hconn => mem_members.mpr ⟨_, hjoined, hconn⟩
  constructor
  · rw [hdialled]
    exact h.distinct
  · rw [hdialled]
    exact fun conn hconn => Nat.lt_succ_of_lt (h.known conn hconn)
  · intro conn hconn
    rw [hfront] at hconn
    rw [hdialled]
    obtain ⟨hlt, hnot⟩ := h.front conn (List.mem_append_right _ hconn)
    exact ⟨Nat.lt_succ_of_lt hlt, hnot⟩
  · intro stream' peer' udp' hw'
    rw [hwait] at hw'
    cases hw'
    exact hjoined
  · intro p hp
    obtain ⟨hfirst, hsecond⟩ := h.exchange p hp
    simp only [hput, hread, hfirst, hsecond]
    by_cases hsame : p = (stream, peer)
    · subst hsame
      cases side <;> simp [Server.otherEnd, hne, hne.symm]
    · -- another pair has none of the two
      have hout : ∀ conn, conn = p.1 ∨ conn = p.2 →
          Server.otherEnd stream peer side ≠ conn ∧ Server.otherEnd peer stream side ≠ conn := by
        intro conn hconn
        have hnot : ¬ (conn = stream ∨ conn = peer) :=
          fun hboth => hsame (pair_unique hmembers hp hjoined hconn hboth)
        exact ⟨fun heq => hnot (hends conn (Or.inl heq)),
          fun heq => hnot (hends conn (Or.inr heq))⟩
      obtain ⟨hto, hfrom⟩ := hout p.1 (Or.inl rfl)
      obtain ⟨hto', hfrom'⟩ := hout p.2 (Or.inr rfl)
      simp [hto, hfrom, hto', hfrom']
  · intro conn msg hin
    rw [hdialled]
    rw [hput] at hin
    rcases List.mem_append.mp hin with hin | hin
    · obtain ⟨hlt, hnot⟩ := h.message conn msg hin
      exact ⟨Nat.lt_succ_of_lt hlt, hnot⟩
    · split at hin <;> simp at hin
  · intro conn bytes' hin
    rw [hput] at hin
    rcases List.mem_append.mp hin with hin | hin
    · exact h.apart conn bytes' hin
    · split at hin
      case isTrue heq => exact hpair conn (hends conn (Or.inl heq))
      case isFalse => cases hin
  · intro conn hin
    rw [hread] at hin
    by_cases heq : Server.otherEnd peer stream side = conn
    · exact hpair conn (hends conn (Or.inr heq))
    · rw [if_neg heq, List.append_nil] at hin
      exact h.read conn hin

/-- Nothing is joined or passed on: a connection may be accepted, on one of the
two ports, and a connection of the main port may be answered. -/
theorem Placed.keep (h : t.Placed) {s' : Server Addr ℕ} {accepted : List (Port × ℕ)}
    (hmet : s'.met.Sublist t.server.met ∨ s'.met = t.server.met ++ [t.next])
    (hfront : ∀ conn ∈ s'.front, conn ∈ t.server.front ∨
      conn = t.next ∧ s'.met.Sublist t.server.met)
    (hrelay : ∀ stream peer udp, s'.wait = .relay stream peer udp →
      ∃ udp, t.server.wait = .relay stream peer udp)
    (hput : ∀ conn, putOn s'.sent conn = putOn t.server.sent conn ∨
      ∃ msg, conn ∈ t.server.front ∧
        putOn s'.sent conn = putOn t.server.sent conn ++ [.inl msg]) :
    Placed ⟨s', t.next + 1, t.joined, t.reads, accepted⟩ := by
  have hfresh : t.next ∉ t.dialled := fun hin => lt_irrefl _ (h.known _ hin)
  have hin : ∀ conn, conn ∈ dialled ⟨s', t.next + 1, t.joined, t.reads, accepted⟩ →
      conn ∈ t.dialled ∨ conn = t.next ∧ ¬ s'.met.Sublist t.server.met := by
    intro conn hconn
    rcases List.mem_append.mp hconn with hconn | hconn
    · rcases hmet with hsub | hnew
      · exact Or.inl (List.mem_append_left _ (hsub.subset hconn))
      · have hlonger : ¬ s'.met.Sublist t.server.met := by
          intro hsub
          have hlen := hsub.length_le
          rw [hnew, List.length_append, List.length_singleton] at hlen
          omega
        rw [hnew] at hconn
        rcases List.mem_append.mp hconn with hconn | hconn
        · exact Or.inl (List.mem_append_left _ hconn)
        · exact Or.inr ⟨List.mem_singleton.mp hconn, hlonger⟩
    · exact Or.inl (List.mem_append_right _ hconn)
  have hout : ∀ conn, conn < t.next → conn ∉ t.dialled →
      conn ∉ dialled ⟨s', t.next + 1, t.joined, t.reads, accepted⟩ := by
    intro conn hlt hnot hconn
    rcases hin conn hconn with hold | ⟨rfl, -⟩
    · exact hnot hold
    · exact lt_irrefl _ hlt
  constructor
  · rcases hmet with hsub | hnew
    · exact h.distinct.sublist (hsub.append_right _)
    · have hnodup : (t.next :: t.dialled).Nodup := List.nodup_cons.mpr ⟨hfresh, h.distinct⟩
      refine (List.Perm.nodup_iff ?_).mp hnodup
      show (t.next :: (t.server.met ++ members t.joined)).Perm (s'.met ++ members t.joined)
      rw [hnew, List.append_assoc]
      exact List.perm_middle.symm
  · intro conn hconn
    rcases hin conn hconn with hold | ⟨rfl, -⟩
    · exact Nat.lt_succ_of_lt (h.known conn hold)
    · exact Nat.lt_succ_self _
  · intro conn hconn
    rcases hfront conn hconn with hold | ⟨rfl, hsub⟩
    · obtain ⟨hlt, hnot⟩ := h.front conn hold
      exact ⟨Nat.lt_succ_of_lt hlt, hout conn hlt hnot⟩
    · refine ⟨Nat.lt_succ_self _, fun hnew => ?_⟩
      rcases hin _ hnew with hold | ⟨-, hnot⟩
      · exact hfresh hold
      · exact hnot hsub
  · intro stream peer udp hw
    obtain ⟨udp', hw'⟩ := hrelay stream peer udp hw
    exact h.current stream peer udp' hw'
  · intro p hp
    have hquiet : ∀ conn, conn = p.1 ∨ conn = p.2 →
        putOn s'.sent conn = putOn t.server.sent conn := by
      intro conn hconn
      rcases hput conn with hsame | ⟨msg, hanswered, -⟩
      · exact hsame
      · refine absurd (List.mem_append_right _ ?_) (h.front conn hanswered).2
        exact mem_members.mpr ⟨p, hp, hconn⟩
    rw [hquiet p.1 (Or.inl rfl), hquiet p.2 (Or.inr rfl)]
    exact h.exchange p hp
  · intro conn msg hmsg
    have hplace : conn < t.next ∧ conn ∉ t.dialled := by
      rcases hput conn with hsame | ⟨msg', hanswered, -⟩
      · exact h.message conn msg (hsame ▸ hmsg)
      · exact h.front conn hanswered
    exact ⟨Nat.lt_succ_of_lt hplace.1, hout conn hplace.1 hplace.2⟩
  · intro conn bytes hbytes
    rcases hput conn with hsame | ⟨msg, -, hmore⟩
    · exact h.apart conn bytes (hsame ▸ hbytes)
    · rw [hmore] at hbytes
      rcases List.mem_append.mp hbytes with hbytes | hbytes
      · exact h.apart conn bytes hbytes
      · cases List.mem_singleton.mp hbytes
  · exact h.read

theorem number_relayAccept {e : Event Addr Unit} {next conn : ℕ}
    (he : e.number next = .relayAccept (.ok conn)) : conn = next := by
  cases e with
  | relayAccept res =>
      cases res with
      | error err => cases he
      | ok u =>
          cases he
          rfl
  | _ => cases he

theorem accepts_number {s : Server Addr ℕ} {e : Event Addr Unit} {next conn : ℕ} {port : Port}
    (he : s.accepts (e.number next) = some (port, conn)) : conn = next := by
  rcases Server.accepts_eq he with he | he
  · exact History.number_accept he
  · exact number_relayAccept he

theorem Placed.step (h : t.Placed) (parse : Parser) (e : Event Addr Unit) :
    (t.step parse e).Placed := by
  have hcarries := Server.step_carries parse t.server (e.number t.next)
  rw [Traffic.step]
  generalize t.server.step parse (e.number t.next) = s' at hcarries ⊢
  generalize t.server.joins (e.number t.next) = joins at hcarries ⊢
  generalize t.server.reads (e.number t.next) = reads at hcarries ⊢
  have hsaved : ∀ conn ∈ t.server.savedStream.toList, conn ∈ t.server.front :=
    fun conn hin => List.mem_append_right _ hin
  cases hcarries with
  | joined streamA streamB hmet hmet' hwait hfront hsent =>
      simp only [Option.toList_some, Option.toList_none, List.append_nil]
      exact h.join hmet hmet' hwait hfront hsent
  | passed stream peer udp side bytes hw hwait hfront hsent =>
      simp only [Option.toList_some, Option.toList_none, List.append_nil]
      exact h.pass side bytes hw hwait hfront hsent
  | answered requester response hrequester hmet hmet' hfront hrelay hsent =>
      simp only [Option.toList_none, List.append_nil]
      refine h.keep (Or.inl ?_) ?_ (fun _ _ _ hw => absurd hw (hrelay _ _ _)) ?_
      · rw [hmet']
        exact List.nil_sublist _
      · rw [hfront]
        exact List.forall_mem_nil _
      · intro conn
        rw [hsent, putOn_append, putOn_message]
        split
        case isTrue heq => exact Or.inr ⟨_, heq ▸ hrequester, rfl⟩
        case isFalse => exact Or.inl (List.append_nil _)
  | accepted conn he hmet hfront hrelay hsent =>
      obtain rfl := accepts_number he
      simp only [Option.toList_none, List.append_nil]
      refine h.keep (Or.inr hmet) ?_ (fun _ _ _ hw => absurd hw (hrelay _ _ _)) ?_
      · rw [hfront]
        exact fun conn hin => Or.inl (hsaved conn hin)
      · exact fun conn => Or.inl (by rw [hsent])
  | other hmet hfront hrelay hput =>
      simp only [Option.toList_none, List.append_nil]
      refine h.keep (Or.inl hmet) ?_ hrelay fun conn => Or.inl (hput conn)
      intro conn hin
      rcases hfront conn hin with hold | he
      · exact Or.inl hold
      · exact Or.inr ⟨accepts_number he, hmet⟩

/-- The connections that were met or joined are of the relay port, those the server
still has otherwise of the main one, and it answers on the latter only. -/
structure Ported (t : Traffic Addr) : Prop where
  relay : ∀ conn ∈ t.dialled, (.relay, conn) ∈ t.accepted
  main : ∀ conn ∈ t.server.front, (.main, conn) ∈ t.accepted
  own : ∀ conn msg, .inl msg ∈ putOn t.server.sent conn →
    (∃ response, msg = .relayResponse response) ∧ (.main, conn) ∈ t.accepted

/-- What is dialled or on the main port was so before or was just accepted there, and a
message is new only as an answer. -/
theorem Ported.keep (h : t.Ported) {s' : Server Addr ℕ} {joined : List (ℕ × ℕ)}
    {reads : List (ℕ × Bytes)} {accepted : Option (Port × ℕ)}
    (hdialled : ∀ conn ∈ s'.met ++ members joined,
      conn ∈ t.dialled ∨ accepted = some (.relay, conn))
    (hfront : ∀ conn ∈ s'.front, conn ∈ t.server.front ∨ accepted = some (.main, conn))
    (hput : ∀ conn msg, .inl msg ∈ putOn s'.sent conn → .inl msg ∈ putOn t.server.sent conn ∨
      (∃ response, msg = .relayResponse response) ∧ conn ∈ t.server.front) :
    Ported ⟨s', t.next + 1, joined, reads, t.accepted ++ accepted.toList⟩ := by
  have hold : ∀ p ∈ t.accepted, p ∈ t.accepted ++ accepted.toList :=
    fun p hp => List.mem_append_left _ hp
  have hnew : ∀ p, accepted = some p → p ∈ t.accepted ++ accepted.toList := by
    rintro p rfl
    exact List.mem_append_right _ (List.mem_singleton_self p)
  constructor
  · intro conn hconn
    rcases hdialled conn hconn with hconn | hconn
    · exact hold _ (h.relay conn hconn)
    · exact hnew _ hconn
  · intro conn hconn
    rcases hfront conn hconn with hconn | hconn
    · exact hold _ (h.main conn hconn)
    · exact hnew _ hconn
  · intro conn msg hmsg
    rcases hput conn msg hmsg with hmsg | ⟨hresponse, hconn⟩
    · exact (h.own conn msg hmsg).imp_right (hold _)
    · exact ⟨hresponse, hold _ (h.main conn hconn)⟩

theorem Ported.step (h : t.Ported) (parse : Parser) (e : Event Addr Unit) :
    (t.step parse e).Ported := by
  have hcarries := Server.step_carries parse t.server (e.number t.next)
  rw [Traffic.step]
  generalize t.server.step parse (e.number t.next) = s' at hcarries ⊢
  generalize t.server.joins (e.number t.next) = joins at hcarries ⊢
  generalize t.server.reads (e.number t.next) = reads at hcarries ⊢
  have hsaved : ∀ conn ∈ t.server.savedStream.toList, conn ∈ t.server.front :=
    fun conn hin => List.mem_append_right _ hin
  cases hcarries with
  | joined streamA streamB hmet hmet' hwait hfront hsent =>
      apply h.keep
      · intro conn hconn
        rw [hmet', List.nil_append, Option.toList_some, members_append] at hconn
        refine Or.inl (List.mem_append.mpr ((List.mem_append.mp hconn).symm.imp_left ?_))
        intro hpair
        rw [hmet]
        exact hpair
      · exact fun conn hconn => Or.inl (hsaved conn (hfront ▸ hconn))
      · exact fun conn msg hmsg => Or.inl (hsent ▸ hmsg)
  | passed stream peer udp side bytes hw hwait hfront hsent =>
      apply h.keep
      · intro conn hconn
        rw [Server.met, hwait, Option.toList_none, List.append_nil] at hconn
        exact Or.inl (List.mem_append_right _ hconn)
      · exact fun conn hconn => Or.inl (hsaved conn (hfront ▸ hconn))
      · intro conn msg hmsg
        rw [hsent, putOn_append, putOn_bytes] at hmsg
        rcases List.mem_append.mp hmsg with hmsg | hmsg
        · exact Or.inl hmsg
        · split at hmsg <;> simp at hmsg
  | answered requester response hrequester hmet hmet' hfront hrelay hsent =>
      apply h.keep
      · intro conn hconn
        rw [hmet', List.nil_append, Option.toList_none, List.append_nil] at hconn
        exact Or.inl (List.mem_append_right _ hconn)
      · rw [hfront]
        exact List.forall_mem_nil _
      · intro conn msg hmsg
        rw [hsent, putOn_append, putOn_message] at hmsg
        rcases List.mem_append.mp hmsg with hmsg | hmsg
        · exact Or.inl hmsg
        · split at hmsg
          case isTrue heq =>
            cases List.mem_singleton.mp hmsg
            exact Or.inr ⟨⟨response, rfl⟩, heq ▸ hrequester⟩
          case isFalse => cases hmsg
  | accepted conn' he hmet hfront hrelay hsent =>
      apply h.keep
      · intro conn hconn
        rw [hmet, Option.toList_none, List.append_nil, List.append_assoc] at hconn
        rcases List.mem_append.mp hconn with hconn | hconn
        · exact Or.inl (List.mem_append_left _ hconn)
        · rcases List.mem_append.mp hconn with hconn | hconn
          · exact Or.inr (List.mem_singleton.mp hconn ▸ he)
          · exact Or.inl (List.mem_append_right _ hconn)
      · exact fun conn hconn => Or.inl (hsaved conn (hfront ▸ hconn))
      · exact fun conn msg hmsg => Or.inl (hsent ▸ hmsg)
  | other hmet hfront hrelay hput =>
      apply h.keep
      · intro conn hconn
        rw [Option.toList_none, List.append_nil] at hconn
        refine Or.inl (List.mem_append.mpr ((List.mem_append.mp hconn).imp_left ?_))
        exact fun hin => hmet.subset hin
      · exact hfront
      · exact fun conn msg hmsg => Or.inl (hput conn ▸ hmsg)

theorem Placed.isolated (h : t.Placed) (hported : t.Ported) : t.Isolated where
  distinct := h.nodup_members
  dialled conn hconn := hported.relay conn (List.mem_append_right _ hconn)
  exchange := h.exchange
  apart := h.apart
  own := hported.own

/-- **Relay sessions are isolated.** In every run, whatever clients connect to
either port, whatever is read from them, and whatever datagrams come in between:
no connection takes part in two sessions or twice in one; everything the server
puts on a connection that was joined is what it read from its partner, in order
and with nothing of its own in between; no other connection gets a byte that
was read by `relay`; and what the server itself has to say is a relay response, on
a connection of the main port. -/
theorem sessions_isolated (parse : Parser) (relayServer : String)
    (events : List (Event Addr Unit)) :
    Always (step parse) Isolated (start relayServer) events := by
  have hplaced : (start relayServer : Traffic Addr).Placed := by
    constructor
    · exact List.nodup_nil
    · exact List.forall_mem_nil _
    · exact List.forall_mem_nil _
    · nofun
    · exact List.forall_mem_nil _
    · nofun
    · nofun
    · exact fun conn hread => absurd rfl hread
  have hported : (start relayServer : Traffic Addr).Ported := by
    constructor
    · exact List.forall_mem_nil _
    · exact List.forall_mem_nil _
    · nofun
  have hboth : Always (step parse) (fun t => t.Placed ∧ t.Ported) (start relayServer) events :=
    always_of_step (fun t e h => ⟨h.1.step parse e, h.2.step parse e⟩) events ⟨hplaced, hported⟩
  exact hboth.mono fun t h => h.1.isolated h.2

/-- Connections 5 and 7 are joined; what 5 sends is put on 7. -/
example : putOn (List.foldl (step parseShort) (start "127.0.0.1" : Traffic ℕ)
    [.udp (some (.ok ([0x32, 3, 0x0a, 1, 0x78], 7))),
      .accept (.ok ()), .nextTimeout (some (.ok [0x42, 3, 0x0a, 1, 0x78])),
      .accept (.ok ()), .nextTimeout (some (.ok [0x9a, 1, 0])),
      .relayAccept (.ok ()), .nextTimeout none, .relayAccept (.ok ()), .nextTimeout none,
      .relayNext .stream (some (.ok [1])), .relayNext .peer none]).server.sent 7 =
    [.inr [1]] := by decide

end Traffic

end RustdeskServer.Rendezvous
