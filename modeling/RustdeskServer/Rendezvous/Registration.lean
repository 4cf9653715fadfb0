import RustdeskServer.Rendezvous.SelectRounds

/-!
# Which registrations are handled

The server polls its socket only in the two selects. A datagram that arrives
while it waits elsewhere stays in the socket's buffer, `inbox`, until the server
comes back to one of them. `future` lets the server do what it can on its own:
it takes datagrams, or the timer of a read fires; datagrams arrive on any
schedule, and no client does anything.

`deaf` waits are never left for a select that polls the socket: an accept on the
relay port, which has no timer, and a select whose branch for the socket is
disabled. What carries `registration_handled_iff` is that a datagram is taken
unless the server is deaf, or becomes so by a failure in front of it.
-/

namespace RustdeskServer.Rendezvous

open RustdeskServer.Framework RustdeskServer.Codec

variable {Addr Conn : Type}

/-- The server and its socket: what waits in the socket's buffer, and what
`socket.next()` has returned so far. -/
structure Host (Addr Conn : Type) where
  server : Server Addr Conn
  inbox : List (Datagram Addr)
  handled : List (Datagram Addr)

/-- A datagram arrives, the socket is polled, or anything else happens. -/
inductive Action (Addr Conn : Type) where
  | arrive (d : Datagram Addr)
  | receive
  | event (e : Event Addr Conn)

/-- The current await polls the socket. -/
def Wait.polls : Wait Conn → Bool
  | .select udp _ => udp
  | .relay _ _ udp => udp
  | _ => false

/-- On its own the server does not come back to a select that polls. -/
def Wait.deaf : Wait Conn → Bool
  | .select udp _ => !udp
  | .relay _ _ udp => !udp
  | .acceptA => true
  | .handshakeA _ => true
  | .acceptB _ => true
  | .panicked => true
  | .firstFrame _ => false
  | .handshakeB _ _ => false

namespace Host

def start (relayServer : String) : Host Addr Conn := ⟨.start relayServer, [], []⟩

def arrive (h : Host Addr Conn) (ds : List (Datagram Addr)) : Host Addr Conn :=
  { h with inbox := h.inbox ++ ds }

/-- `socket.next()`, if it is polled. -/
def receive (parse : Parser) (h : Host Addr Conn) : Host Addr Conn :=
  match h.server.wait.polls, h.inbox with
  | true, d :: inbox => ⟨h.server.step parse (.udp d), inbox, h.handled ++ [d]⟩
  | _, _ => h

/-- Datagrams come in through the socket only. -/
def step (parse : Parser) (h : Host Addr Conn) : Action Addr Conn → Host Addr Conn
  | .arrive d => h.arrive [d]
  | .receive => h.receive parse
  | .event (.udp _) => h
  | .event e => { h with server := h.server.step parse e }

/-- What the server does while the clients are quiet: it polls its socket, or
the timer of the read it waits for fires. -/
def advance (parse : Parser) (h : Host Addr Conn) : Host Addr Conn :=
  if h.server.wait.polls then h.receive parse
  else { h with server := h.server.step parse (.nextTimeout none) }

/-- `n` steps while only datagrams arrive. -/
def future (parse : Parser) (h : Host Addr Conn) (arrivals : ℕ → List (Datagram Addr)) :
    ℕ → Host Addr Conn
  | 0 => h
  | n + 1 => ((h.arrive (arrivals 0)).advance parse).future parse (fun i => arrivals (i + 1)) n

/-- The registration `rp` that arrives from `addr` now is handled after finitely
many steps: it is taken behind what came before it, and then its id has its
address. -/
def Registered (parse : Parser) (h : Host Addr Conn) (bytes : Bytes) (rp : RegisterPeer)
    (addr : Addr) (arrivals : ℕ → List (Datagram Addr)) : Prop :=
  ∃ n, let later := (h.arrive [some (.ok (bytes, addr))]).future parse arrivals n
    later.handled = h.handled ++ h.inbox ++ [some (.ok (bytes, addr))] ∧
      later.server.idMap.lookup rp.id = some addr

/-- The server is not deaf, and no failure of the socket waits to be taken. -/
def Attentive (h : Host Addr Conn) : Prop :=
  h.server.wait.deaf = false ∧ ∀ d ∈ h.inbox, ¬ d.Fails

variable {parse : Parser} {h : Host Addr Conn}

/-! ## One step -/

theorem polls_select (hw : h.server.wait.polls = true) :
    (∃ accept, h.server.wait = .select true accept) ∨
      ∃ stream peer, h.server.wait = .relay stream peer true := by
  cases hs : h.server.wait with
  | select udp accept =>
      rw [hs] at hw
      obtain rfl : udp = true := hw
      exact Or.inl ⟨accept, rfl⟩
  | relay stream peer udp =>
      rw [hs] at hw
      obtain rfl : udp = true := hw
      exact Or.inr ⟨stream, peer, rfl⟩
  | _ =>
      rw [hs] at hw
      cases hw

/-- A datagram goes to its handler, and the socket is polled again. -/
theorem polls_datagram (hw : h.server.wait.polls = true) (bytes : Bytes) (addr : Addr) :
    (h.server.step parse (.udp (some (.ok (bytes, addr))))).wait.polls = true ∧
      (h.server.step parse (.udp (some (.ok (bytes, addr))))).idMap =
        (h.server.handleUdp parse bytes addr).idMap := by
  rcases polls_select hw with ⟨accept, hs⟩ | ⟨stream, peer, hs⟩
  · simp only [Server.step, hs]
    exact ⟨rfl, rfl⟩
  · simp only [Server.step, hs]
    exact ⟨rfl, rfl⟩

/-- A failure of the socket makes the server deaf. -/
theorem polls_failure (hw : h.server.wait.polls = true) {d : Datagram Addr} (hd : d.Fails) :
    (h.server.step parse (.udp d)).wait.deaf = true := by
  rcases polls_select hw with ⟨accept, hs⟩ | ⟨stream, peer, hs⟩
  · rw [Server.step_udp_fails hs hd]
    cases accept with
    | true => rfl
    | false => rfl
  · cases d with
    | none =>
        simp only [Server.step, hs]
        rfl
    | some r =>
        cases r with
        | ok d => exact absurd rfl (hd d)
        | error err =>
            simp only [Server.step, hs]
            rfl

theorem advance_deaf (parse : Parser) (hd : h.server.wait.deaf = true) :
    (h.advance parse).server.wait.deaf = true ∧ (h.advance parse).handled = h.handled := by
  cases hs : h.server.wait with
  | select udp accept =>
      rw [hs] at hd
      obtain rfl : udp = false := by simpa [Wait.deaf] using hd
      simp [advance, hs, Wait.polls, Wait.deaf, Server.step]
  | relay stream peer udp =>
      rw [hs] at hd
      obtain rfl : udp = false := by simpa [Wait.deaf] using hd
      simp [advance, hs, Wait.polls, Wait.deaf, Server.step]
  | firstFrame stream =>
      rw [hs] at hd
      cases hd
  | handshakeB streamA streamB =>
      rw [hs] at hd
      cases hd
  | _ => simp [advance, hs, Wait.polls, Wait.deaf, Server.step]

/-- A read that times out brings the server back to a select. -/
theorem advance_timer (parse : Parser) (hp : h.server.wait.polls = false)
    (hd : h.server.wait.deaf = false) :
    (h.advance parse).server.wait.polls = true ∧ (h.advance parse).inbox = h.inbox ∧
      (h.advance parse).handled = h.handled := by
  cases hs : h.server.wait with
  | firstFrame stream =>
      simp [advance, hs, Wait.polls, Server.step, Server.handleFirst]
  | handshakeB streamA streamB => simp [advance, hs, Wait.polls, Server.step]
  | select udp accept =>
      rw [hs] at hp hd
      rw [Wait.polls] at hp
      rw [Wait.deaf, hp] at hd
      cases hd
  | relay stream peer udp =>
      rw [hs] at hp hd
      rw [Wait.polls] at hp
      rw [Wait.deaf, hp] at hd
      cases hd
  | _ =>
      rw [hs] at hd
      cases hd

/-! ## The server left to itself -/

theorem future_deaf (parse : Parser) (hd : h.server.wait.deaf = true)
    (arrivals : ℕ → List (Datagram Addr)) (n : ℕ) :
    (h.future parse arrivals n).handled = h.handled := by
  induction n generalizing h arrivals with
  | zero => rfl
  | succ n ih =>
      obtain ⟨hdeaf, hhandled⟩ := advance_deaf (h := h.arrive (arrivals 0)) parse hd
      rw [future, ih hdeaf, hhandled]
      rfl

theorem future_receive {arrivals : ℕ → List (Datagram Addr)} {d : Datagram Addr}
    {inbox : List (Datagram Addr)} (hw : h.server.wait.polls = true)
    (hin : h.inbox ++ arrivals 0 = d :: inbox) (n : ℕ) :
    h.future parse arrivals (n + 1) =
      future parse ⟨h.server.step parse (.udp d), inbox, h.handled ++ [d]⟩
        (fun i => arrivals (i + 1)) n := by
  have hpolls : (h.arrive (arrivals 0)).server.wait.polls = true := hw
  have hinbox : (h.arrive (arrivals 0)).inbox = d :: inbox := hin
  rw [future, advance, if_pos hpolls, receive, hpolls, hinbox]
  rfl

/-- Nothing behind a failure is taken. -/
theorem future_failure (parse : Parser) {before after : List (Datagram Addr)} {d : Datagram Addr}
    (hin : h.inbox = before ++ d :: after) (hd : d.Fails)
    (arrivals : ℕ → List (Datagram Addr)) (n : ℕ) :
    (h.future parse arrivals n).handled.length ≤ h.handled.length + before.length + 1 := by
  induction n generalizing h arrivals before after with
  | zero =>
      rw [future]
      omega
  | succ n ih =>
      by_cases hdeaf : h.server.wait.deaf = true
      · rw [future_deaf parse hdeaf]
        omega
      have hin' : h.inbox ++ arrivals 0 = before ++ d :: (after ++ arrivals 0) := by
        rw [hin, List.append_assoc, List.cons_append]
      by_cases hp : h.server.wait.polls = true
      · cases before with
        | nil =>
            -- the failure itself is taken, and nothing after it
            rw [future_receive hp hin', future_deaf parse (polls_failure hp hd), List.length_append]
            exact Nat.le_refl _
        | cons b bs =>
            rw [future_receive hp hin']
            refine (ih rfl _).trans (Nat.le_of_eq ?_)
            simp only [List.length_append, List.length_cons, List.length_nil]
            omega
      · obtain ⟨-, hkept, hhandled⟩ := advance_timer (h := h.arrive (arrivals 0))
          parse (Bool.eq_false_iff.mpr hp) (Bool.eq_false_iff.mpr hdeaf)
        have hle := ih (hkept.trans hin') (fun i => arrivals (i + 1))
        rw [hhandled] at hle
        exact hle

/-- A server that polls takes everything up to the first failure. -/
theorem future_polls {bytes : Bytes} {rp : RegisterPeer}
    (hreg : parse bytes = some ⟨some (.registerPeer rp)⟩) (addr : Addr)
    (before after : List (Datagram Addr)) (hw : h.server.wait.polls = true)
    (hin : h.inbox = before ++ some (.ok (bytes, addr)) :: after)
    (hbefore : ∀ d ∈ before, ¬ d.Fails) (arrivals : ℕ → List (Datagram Addr)) :
    ∃ n, (h.future parse arrivals n).handled =
        h.handled ++ before ++ [some (.ok (bytes, addr))] ∧
      (h.future parse arrivals n).server.idMap.lookup rp.id = some addr := by
  induction before generalizing h after arrivals with
  | nil =>
      refine ⟨1, ?_⟩
      rw [future_receive hw (by rw [hin]; rfl), List.append_nil]
      refine ⟨rfl, ?_⟩
      rw [future, (polls_datagram hw bytes addr).2, Server.handleUdp_register parse _ hreg,
        Finmap.lookup_insert]
  | cons b bs ih =>
      obtain ⟨⟨bytes', addr'⟩, rfl⟩ := not_forall_not.mp (hbefore b List.mem_cons_self)
      have hin' : h.inbox ++ arrivals 0 = some (.ok (bytes', addr')) ::
          (bs ++ some (.ok (bytes, addr)) :: (after ++ arrivals 0)) := by
        rw [hin]
        simp only [List.cons_append, List.append_assoc]
      have hrest : ∀ d ∈ bs, ¬ d.Fails := fun d hd => hbefore d (List.mem_cons_of_mem _ hd)
      obtain ⟨n, hhandled, hlookup⟩ := ih _ (polls_datagram hw bytes' addr').1 rfl hrest
        (h := ⟨h.server.step parse (.udp (some (.ok (bytes', addr')))), _,
          h.handled ++ [some (.ok (bytes', addr'))]⟩) (fun i => arrivals (i + 1))
      refine ⟨n + 1, ?_⟩
      rw [future_receive hw hin']
      refine ⟨hhandled.trans ?_, hlookup⟩
      rw [List.append_assoc h.handled, List.singleton_append]

theorem registered_of_attentive (hatt : h.Attentive) {bytes : Bytes} {rp : RegisterPeer}
    (hreg : parse bytes = some ⟨some (.registerPeer rp)⟩) (addr : Addr)
    (arrivals : ℕ → List (Datagram Addr)) : h.Registered parse bytes rp addr arrivals := by
  obtain ⟨hdeaf, hinbox⟩ := hatt
  cases hp : h.server.wait.polls with
  | true =>
      -- the select takes the datagrams one by one
      exact future_polls (h := h.arrive [some (.ok (bytes, addr))]) hreg addr h.inbox [] hp rfl
        hinbox arrivals
  | false =>
      -- a read is waited for: its timer comes first
      obtain ⟨hpolls, hkept, hhandled⟩ := advance_timer
        (h := (h.arrive [some (.ok (bytes, addr))]).arrive (arrivals 0)) parse hp hdeaf
      have hin : (((h.arrive [some (.ok (bytes, addr))]).arrive (arrivals 0)).advance
          parse).inbox = h.inbox ++ some (.ok (bytes, addr)) :: arrivals 0 := by
        rw [hkept]
        exact List.append_assoc _ _ _
      obtain ⟨n, hn, hlookup⟩ := future_polls hreg addr h.inbox (arrivals 0) hpolls hin hinbox
        (fun i => arrivals (i + 1))
      refine ⟨n + 1, ?_, hlookup⟩
      rw [hhandled] at hn
      exact hn

theorem attentive_of_registered {bytes : Bytes} {rp : RegisterPeer} {addr : Addr}
    {arrivals : ℕ → List (Datagram Addr)} (hreg : h.Registered parse bytes rp addr arrivals) :
    h.Attentive := by
  obtain ⟨n, hhandled, -⟩ := hreg
  have hlen := congrArg List.length hhandled
  rw [List.length_append, List.length_append, List.length_singleton] at hlen
  constructor
  · cases hdeaf : h.server.wait.deaf with
    | false => rfl
    | true =>
        have hsame := future_deaf (h := h.arrive [some (.ok (bytes, addr))]) parse
          hdeaf arrivals n
        have hkept : (h.arrive [some (.ok (bytes, addr))]).handled = h.handled := rfl
        rw [hsame, hkept] at hlen
        omega
  · intro d hd hfails
    obtain ⟨before, after, hin⟩ := List.append_of_mem hd
    have hin' : (h.arrive [some (.ok (bytes, addr))]).inbox =
        before ++ d :: (after ++ [some (.ok (bytes, addr))]) := by
      rw [arrive, hin, List.append_assoc, List.cons_append]
    have hle := future_failure parse hin' hfails arrivals n
    have hkept : (h.arrive [some (.ok (bytes, addr))]).handled = h.handled := rfl
    rw [hin, List.length_append, List.length_cons] at hlen
    rw [hkept] at hle
    omega

/-- **Which states starve registrations.** From whatever state a run of the
server has reached, let only timers fire and datagrams arrive, on any schedule.
A valid registration that arrives then is handled after finitely many steps if
and only if the server is not deaf and no failure of the socket is in front. -/
theorem registration_handled_iff (parse : Parser) (relayServer : String)
    (actions : List (Action Addr Conn)) {bytes : Bytes} {rp : RegisterPeer}
    (hreg : parse bytes = some ⟨some (.registerPeer rp)⟩) (addr : Addr)
    (arrivals : ℕ → List (Datagram Addr)) :
    (actions.foldl (step parse) (start relayServer)).Registered parse bytes rp addr arrivals ↔
      (actions.foldl (step parse) (start relayServer)).Attentive :=
  ⟨attentive_of_registered, fun hatt => registered_of_attentive hatt hreg addr arrivals⟩

/-- The registration of `y` from address 8. -/
theorem registration_handled_iff_fresh :
    parseShort [0x32, 3, 0x0a, 1, 0x79] = some ⟨some (.registerPeer ⟨"y"⟩)⟩ ∧
      ((start "127.0.0.1" : Host ℕ ℕ).Registered parseShort [0x32, 3, 0x0a, 1, 0x79] ⟨"y"⟩ 8
          (fun _ => []) ↔
        (start "127.0.0.1" : Host ℕ ℕ).Attentive) :=
  ⟨rfl, registration_handled_iff parseShort "127.0.0.1" [] rfl 8 (fun _ => [])⟩

/-- `x` is registered at 7 and asked for by connection 1, and connection 2
answers. -/
def answeredRequest : List (Action ℕ ℕ) :=
  [.arrive (some (.ok ([0x32, 3, 0x0a, 1, 0x78], 7))), .receive,
    .event (.accept (.ok 1)), .event (.nextTimeout (some (.ok [0x42, 3, 0x0a, 1, 0x78]))),
    .event (.accept (.ok 2)), .event (.nextTimeout (some (.ok [0x9a, 1, 0])))]

/-- Neither of the two connects to the relay port: `y` is not registered any
more. -/
theorem answeredRequest_starves :
    (answeredRequest.foldl (step parseShort) (start "127.0.0.1")).server.wait = .acceptA ∧
      parseShort [0x32, 3, 0x0a, 1, 0x79] = some ⟨some (.registerPeer ⟨"y"⟩)⟩ ∧
      ∀ arrivals, ¬ (answeredRequest.foldl (step parseShort) (start "127.0.0.1")).Registered
        parseShort [0x32, 3, 0x0a, 1, 0x79] ⟨"y"⟩ 8 arrivals := by
  have hwait : (answeredRequest.foldl (step parseShort) (start "127.0.0.1")).server.wait =
      .acceptA := by decide
  refine ⟨hwait, rfl, fun arrivals hreg => ?_⟩
  have hdeaf := (attentive_of_registered hreg).1
  rw [hwait] at hdeaf
  cases hdeaf

end Host

end RustdeskServer.Rendezvous
