import RustdeskServer.Rendezvous.Server
import RustdeskServer.Framework.Runs

/-!
# Which runs of the server panic

Both branches of the select in `main` are refutable and the select has no
`else`, so a round in which the socket fails and the listener fails, in either
order and with nothing else completing in between, ends in a panic. In `relay`
only the socket's branch is refutable. Nothing else on the way can panic, and
the loop of `main` has no exit: every wait but `panicked` is inside it.
-/

namespace RustdeskServer.Rendezvous

open RustdeskServer.Framework RustdeskServer.Codec

variable {Addr Conn : Type}

namespace Server

variable {parse : Parser} {s : Server Addr Conn} {e : Event Addr Conn}

/-- The server has not panicked, hence is still in its loop. -/
def Running (s : Server Addr Conn) : Prop := s.wait ≠ .panicked

/-- In this round of the select in `main` one branch has failed before, and now
the other one does. -/
def BothFail (s : Server Addr Conn) (e : Event Addr Conn) : Prop :=
  (s.wait = .select true false ∧ ∃ res : Datagram Addr, e = .udp res ∧ res.Fails) ∨
    (s.wait = .select false true ∧ ∃ err, e = .accept (.error err))

theorem step_udp_fails {accept : Bool} (hw : s.wait = .select true accept)
    {res : Datagram Addr} (hres : res.Fails) :
    s.step parse (.udp res) = s.await (if accept then .select false true else .panicked) := by
  cases res with
  | none => simp only [step, hw]
  | some r =>
      cases r with
      | ok d => exact absurd rfl (hres d)
      | error err => simp only [step, hw]

theorem bothFail_panics (h : BothFail s e) : (s.step parse e).wait = .panicked := by
  rcases h with ⟨hw, res, rfl, hres⟩ | ⟨hw, err, rfl⟩
  · rw [step_udp_fails hw hres]
    rfl
  · simp only [step, hw]
    rfl

/-- Nothing else panics, the select of `relay` included. -/
theorem bothFail_of_panicked (hs : s.Running) (h : (s.step parse e).wait = .panicked) :
    BothFail s e := by
  have hstep := step_stepped parse s e
  generalize s.step parse e = s' at hstep h
  cases hstep with
  | ignored => exact absurd h hs
  | @udpFails accept res hw hres =>
      cases accept with
      | true => cases h
      | false => exact Or.inl ⟨hw, res, rfl, hres⟩
  | @acceptFails udp err hw =>
      cases udp with
      | true => cases h
      | false => exact Or.inr ⟨hw, err, rfl⟩
  | @first stream res hw =>
      rcases handleFirst_wait parse s stream res with hr | hr
      · rw [hr] at h
        cases h
      · rw [hr] at h
        cases h
  | _ => cases h

theorem panics_iff (hs : s.Running) : ¬ (s.step parse e).Running ↔ BothFail s e := by
  constructor
  · intro hpanic
    exact bothFail_of_panicked hs (not_not.mp hpanic)
  · intro hboth hrun
    exact hrun (bothFail_panics hboth)

/-- **When the server panics.** Whatever the sockets, the listeners and the
clients do, and in any order: the server keeps running if and only if in no
round of the select in `main` both the socket and the listener fail. -/
theorem running_iff (parse : Parser) (relayServer : String)
    (events : List (Event Addr Conn)) :
    Always (step parse) Running (start relayServer) events ↔
      Along (step parse) (fun s e => ¬ BothFail s e) (start relayServer) events := by
  refine always_iff_along (B := fun _ => True) (fun _ _ _ _ => trivial) ?_
    (along_true events) trivial (by intro h; cases h)
  intro s e _ _ hs
  rw [← panics_iff hs, not_not]

/-- An empty datagram, and then an accept that fails for want of descriptors. -/
def failingRound : List (Event ℕ ℕ) := [.udp none, .accept (.error ⟨.other, "EMFILE"⟩)]

theorem failingRound_panics :
    (failingRound.foldl (step parseShort) (start "127.0.0.1")).wait = .panicked ∧
      ¬ Always (step parseShort) Running (start "127.0.0.1") failingRound := by
  have hpanic : (failingRound.foldl (step parseShort) (start "127.0.0.1")).wait = .panicked := rfl
  exact ⟨hpanic, fun h => h.final failingRound hpanic⟩

end Server

end RustdeskServer.Rendezvous
