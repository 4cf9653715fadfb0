import RustdeskServer.Configuration.Config
import RustdeskServer.Framework.Runs

/-!
# Memory and files agree

`Synced` says that both files hold what memory holds. Every mutator of the
common shape keeps it. `set_option` keeps it unless it clears the remembered
rendezvous server and then finds the option unchanged: that branch leaves
without storing. `synced_iff` says that this is the only way to lose the
agreement, over all call sequences.
-/

namespace RustdeskServer.Configuration

open RustdeskServer.Framework

structure Synced (g : Globals) : Prop where
  config : g.file = g.config
  config2 : g.file2 = g.config2

/-- `set_option` leaves the record as stored: it does not clear a remembered
server while leaving the option as it was. -/
def StoresWhatItClears (g : Globals) : Call → Prop
  | .setOption k v =>
      ¬ (k = Globals.customRendezvousServer ∧ g.config2.rendezvousServer ≠ "" ∧
        g.config2.options.lookup k = if v.isEmpty then none else some v)
  | _ => True

theorem Synced.updateConfig {g : Globals} (h : Synced g) (same : Config → Bool)
    (f : Config → Config) : Synced (g.updateConfig same f) := by
  unfold Globals.updateConfig
  split_ifs
  · exact h
  · exact ⟨rfl, h.config2⟩

theorem Synced.updateConfig2 {g : Globals} (h : Synced g) (same : Config2 → Bool)
    (f : Config2 → Config2) : Synced (g.updateConfig2 same f) := by
  unfold Globals.updateConfig2
  split_ifs
  · exact h
  · exact ⟨h.config, rfl⟩

theorem Synced.getId {g : Globals} (h : Synced g) (autoId : Option String) :
    Synced (g.getId autoId) := by
  unfold Globals.getId
  split_ifs
  · cases autoId with
    | none => exact h
    | some tmp => exact h.updateConfig _ _
  · exact h

theorem Synced.updateLatency {g : Globals} (h : Synced g) (host : String) (latency : Int)
    (order : IterOrder) : Synced (g.updateLatency host latency order) := by
  have hon : Synced { g with online := g.online.insert host latency } :=
    ⟨h.config, h.config2⟩
  unfold Globals.updateLatency
  dsimp only
  split_ifs
  · exact hon.updateConfig2 _ _
  · exact hon

/-- The value `set_option` compares with. -/
def wanted (v : String) : Option String := if v.isEmpty then none else some v

theorem storeOption_same {g : Globals} {k v : String}
    (h : g.config2.options.lookup k = wanted v) : g.storeOption k v = g := by
  unfold Globals.storeOption
  rw [h]
  exact if_neg (not_not.mpr rfl)

theorem storeOption_ne {g : Globals} {k v : String}
    (hne : g.config2.options.lookup k ≠ wanted v) :
    g.storeOption k v =
      { g with
        config2 := { g.config2 with
          options :=
            if (wanted v).isNone then g.config2.options.erase k
            else g.config2.options.insert k v } }.store2 := if_pos hne.symm

theorem Synced.storeOption_changed {g : Globals} (h : g.file = g.config) {k v : String}
    (hne : g.config2.options.lookup k ≠ wanted v) : Synced (g.storeOption k v) := by
  unfold Globals.storeOption
  have hne' : (if v.isEmpty then none else some v) ≠ g.config2.options.lookup k := hne.symm
  dsimp only
  rw [if_pos hne']
  exact ⟨h, rfl⟩

theorem synced_setOption_iff {g : Globals} (h : Synced g) (k v : String) :
    Synced (g.setOption k v) ↔ StoresWhatItClears g (.setOption k v) := by
  show _ ↔ ¬ (_ ∧ _ ∧ g.config2.options.lookup k = wanted v)
  unfold Globals.setOption
  by_cases hsame : g.config2.options.lookup k = wanted v
  · by_cases hk : k = Globals.customRendezvousServer
    · -- nothing is stored: the clearing must have changed nothing
      rw [if_pos hk, storeOption_same (g := g.forgetServer) hsame]
      constructor
      · rintro ⟨-, h2⟩ ⟨-, hne, -⟩
        have hfile : g.file2 = g.forgetServer.config2 := h2
        rw [h.config2] at hfile
        exact hne (congrArg Config2.rendezvousServer hfile)
      · intro hnot
        have hempty : g.config2.rendezvousServer = "" := by
          by_contra hne
          exact hnot ⟨hk, hne, hsame⟩
        refine ⟨h.config, h.config2.trans ?_⟩
        rw [Globals.forgetServer, ← hempty]
    · rw [if_neg hk, storeOption_same hsame]
      constructor
      · intro _ hbad
        exact hk hbad.1
      · intro _
        exact h
  · constructor
    · intro _ hbad
      exact hsame hbad.2.2
    · intro _
      split_ifs
      · exact Synced.storeOption_changed (g := g.forgetServer) h.config hsame
      · exact Synced.storeOption_changed h.config hsame

theorem synced_step_iff {g : Globals} (h : Synced g) (call : Call) :
    Synced (step g call) ↔ StoresWhatItClears g call := by
  cases call with
  | setOption k v => exact synced_setOption_iff h k v
  | updateId autoId newId =>
      refine ⟨fun _ => trivial, fun _ => ?_⟩
      dsimp only [step, Globals.updateId]
      exact (h.getId autoId).updateConfig _ _
  | updateLatency host latency order =>
      exact ⟨fun _ => trivial, fun _ => h.updateLatency host latency order⟩
  | resetOnline => exact ⟨fun _ => trivial, fun _ => ⟨h.config, h.config2⟩⟩
  | setId | setPassword | setSalt | setKeyPair | getKeyPair | setKeyConfirmed
  | setHostKeyConfirmed =>
      refine ⟨fun _ => trivial, fun _ => ?_⟩
      dsimp only [step]
      exact h.updateConfig _ _
  | setNatType | setSerial | setSize | setRemoteId | setOptions =>
      refine ⟨fun _ => trivial, fun _ => ?_⟩
      dsimp only [step]
      exact h.updateConfig2 _ _

/-- **Write-through, exactly.** From agreeing memory and files, they agree after
every call of a sequence if and only if no call clears a remembered server
without changing the option. -/
theorem synced_iff (g : Globals) (hg : Synced g) (calls : List Call) :
    Always step Synced g calls ↔ Along step StoresWhatItClears g calls :=
  always_iff_along (B := fun _ => True) (fun _ _ _ _ => trivial)
    (fun _ call _ _ h => synced_step_iff h call) (along_true calls) trivial hg

/-- A fresh installation that has found a server by latency. -/
def remembered : Globals :=
  let config2 := { Config2.default with rendezvousServer := "rs-sg.rustdesk.com" }
  ⟨Config.default, config2, ∅, Config.default, config2⟩

theorem synced_iff_remembered :
    Synced remembered ∧
      (Always step Synced remembered [.setId "1", .setOption "a" "b"] ↔
        Along step StoresWhatItClears remembered [.setId "1", .setOption "a" "b"]) :=
  ⟨⟨rfl, rfl⟩, synced_iff remembered ⟨rfl, rfl⟩ _⟩

/-- Clearing an option that is not set forgets the remembered server in memory
and keeps it in the file. -/
theorem cleared_server_not_stored :
    Synced remembered ∧
      (step remembered (.setOption "custom-rendezvous-server" "")).config2.rendezvousServer
        = "" ∧
      (step remembered (.setOption "custom-rendezvous-server" "")).file2.rendezvousServer
        = "rs-sg.rustdesk.com" ∧
      ¬ Synced (step remembered (.setOption "custom-rendezvous-server" "")) := by
  have hmem : (step remembered
      (.setOption "custom-rendezvous-server" "")).config2.rendezvousServer = "" := by decide
  have hfile : (step remembered
      (.setOption "custom-rendezvous-server" "")).file2.rendezvousServer =
        "rs-sg.rustdesk.com" := by decide
  refine ⟨⟨rfl, rfl⟩, hmem, hfile, fun h => ?_⟩
  rw [h.config2, hmem] at hfile
  exact absurd hfile (by decide)

end RustdeskServer.Configuration
