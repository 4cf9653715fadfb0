import RustdeskServer.Configuration.Config
import RustdeskServer.Framework.Runs

/-!
# Confirmations of the key

A server that has stored the public key confirms it: `key_confirmed` is one flag
for all, `keys_confirmed` has one for each host. `hostConfirmed_step` and
`keyConfirmed_step` say what every call does to them.

Two laws are examined over all call sequences. Withdrawing the confirmation
(`set_key_confirmed(false)`) should withdraw it for every host; the call returns
early when the flag is down already, and then the hosts keep theirs
(`revoked_iff`). A confirmation should be one of the key pair that is stored;
no operation on the key pair touches the flags, so this is up to the callers
(`confirmations_current_iff`).
-/

namespace RustdeskServer.Configuration

open RustdeskServer.Framework RustdeskServer.Codec

/-- A fresh installation. -/
def Globals.fresh : Globals := ⟨.default, .default, ∅, .default, .default⟩

/-- `made` is among the calls, and `undone` is not among those after it. -/
def Stands (calls : List Call) (made undone : Call) : Prop :=
  ∃ before after, calls = before ++ made :: after ∧ undone ∉ after

/-- The configuration with the calls made so far, and those among them that were
made since the stored key pair last changed its value. -/
structure History where
  globals : Globals
  calls : List Call
  sinceKey : List Call

namespace History

def start (globals : Globals) : History := ⟨globals, [], []⟩

def step (w : History) (call : Call) : History :=
  let globals := Configuration.step w.globals call
  { globals
    calls := w.calls ++ [call]
    sinceKey := if globals.config.keyPair = w.globals.config.keyPair then
      w.sinceKey ++ [call] else [] }

/-- `get_key_confirmed`. -/
def keyConfirmed (w : History) : Bool := w.globals.config.keyConfirmed

/-- `get_host_key_confirmed`. -/
def hostConfirmed (w : History) (host : String) : Bool :=
  Globals.getHostKeyConfirmed w.globals.config host

end History

/-! ## What the calls do to the flags -/

theorem getHostKeyConfirmed_insert (c : Config) (host host' : String) (v : Bool) :
    Globals.getHostKeyConfirmed { c with keysConfirmed := c.keysConfirmed.insert host v } host' =
      if host' = host then v else Globals.getHostKeyConfirmed c host' := by
  unfold Globals.getHostKeyConfirmed
  by_cases hhost : host' = host
  · rw [if_pos hhost, hhost, Finmap.lookup_insert]
    cases v <;> rfl
  · rw [if_neg hhost, Finmap.lookup_insert_of_ne _ hhost]

/-- The call is one of those about the key pair and its confirmations. -/
def Call.AboutKeys : Call → Prop
  | .setKeyPair _ | .getKeyPair _ | .setKeyConfirmed _ | .setHostKeyConfirmed _ _ => True
  | _ => False

/-- The key pair and the flags are the same. -/
structure SameKeys (c c' : Config) : Prop where
  keyPair : c'.keyPair = c.keyPair
  keyConfirmed : c'.keyConfirmed = c.keyConfirmed
  keysConfirmed : c'.keysConfirmed = c.keysConfirmed

theorem SameKeys.updateConfig (g : Globals) (same : Config → Bool) {f : Config → Config}
    (hf : SameKeys g.config (f g.config)) : SameKeys g.config (g.updateConfig same f).config := by
  rw [Globals.config_updateConfig]
  split
  · exact ⟨rfl, rfl, rfl⟩
  · exact hf

theorem SameKeys.trans {c c' c'' : Config} (h : SameKeys c c') (h' : SameKeys c' c'') :
    SameKeys c c'' :=
  ⟨h'.keyPair.trans h.keyPair, h'.keyConfirmed.trans h.keyConfirmed,
    h'.keysConfirmed.trans h.keysConfirmed⟩

theorem SameKeys.of_config {c c' : Config} (h : c' = c) : SameKeys c c' := h ▸ ⟨rfl, rfl, rfl⟩

theorem SameKeys.host_eq {c c' : Config} (h : SameKeys c c') (host : String) :
    Globals.getHostKeyConfirmed c' host = Globals.getHostKeyConfirmed c host := by
  unfold Globals.getHostKeyConfirmed
  rw [h.keysConfirmed]

theorem sameKeys_getId (g : Globals) (autoId : Option String) :
    SameKeys g.config (g.getId autoId).config := by
  unfold Globals.getId
  split
  · cases autoId with
    | none => exact .of_config rfl
    | some tmp => exact .updateConfig g _ ⟨rfl, rfl, rfl⟩
  · exact .of_config rfl

theorem config_storeOption (g : Globals) (k v : String) :
    (g.storeOption k v).config = g.config := by
  unfold Globals.storeOption
  dsimp only
  split_ifs <;> rfl

theorem config_setOption (g : Globals) (k v : String) : (g.setOption k v).config = g.config := by
  unfold Globals.setOption
  rw [config_storeOption]
  split <;> rfl

theorem config_updateLatency (g : Globals) (host : String) (latency : Int) (order : IterOrder) :
    (g.updateLatency host latency order).config = g.config := by
  unfold Globals.updateLatency
  dsimp only
  split
  · rw [Globals.config_updateConfig2]
  · rfl

theorem sameKeys_step (g : Globals) {call : Call} (h : ¬ call.AboutKeys) :
    SameKeys g.config (step g call).config := by
  cases call with
  | setKeyPair | getKeyPair | setKeyConfirmed | setHostKeyConfirmed => exact absurd trivial h
  | setId | setPassword | setSalt => exact .updateConfig g _ ⟨rfl, rfl, rfl⟩
  | updateId autoId newId =>
      exact (sameKeys_getId g autoId).trans (.updateConfig _ _ ⟨rfl, rfl, rfl⟩)
  | setNatType | setSerial | setSize | setRemoteId | setOptions =>
      exact .of_config (Globals.config_updateConfig2 g _ _)
  | setOption k v => exact .of_config (config_setOption g k v)
  | updateLatency host latency order => exact .of_config (config_updateLatency g host latency order)
  | resetOnline => exact .of_config rfl

theorem keyConfirmed_step (g : Globals) (call : Call) :
    (step g call).config.keyConfirmed =
      match call with
      | .setKeyConfirmed v => v
      | _ => g.config.keyConfirmed := by
  cases call with
  | setKeyConfirmed v =>
      dsimp only [step, Globals.setKeyConfirmed]
      rw [Globals.config_updateConfig]
      split
      · rename_i hsame
        exact of_decide_eq_true hsame
      · rfl
  | setKeyPair | getKeyPair | setHostKeyConfirmed =>
      dsimp only [step, Globals.setKeyPair, Globals.getKeyPair, Globals.setHostKeyConfirmed]
      rw [Globals.config_updateConfig]
      split <;> rfl
  | _ =>
      refine (sameKeys_step g ?_).keyConfirmed
      exact not_false

/-- Withdrawing a confirmation that does not stand leaves the hosts theirs. -/
theorem hostConfirmed_step (g : Globals) (call : Call) (host : String) :
    Globals.getHostKeyConfirmed (step g call).config host =
      match call with
      | .setKeyConfirmed v =>
          if g.config.keyConfirmed = true ∧ v = false then false
          else Globals.getHostKeyConfirmed g.config host
      | .setHostKeyConfirmed host' v =>
          if host = host' then v else Globals.getHostKeyConfirmed g.config host
      | _ => Globals.getHostKeyConfirmed g.config host := by
  cases call with
  | setKeyConfirmed v =>
      dsimp only [step, Globals.setKeyConfirmed]
      rw [Globals.config_updateConfig]
      cases g.config.keyConfirmed <;> cases v <;> rfl
  | setHostKeyConfirmed host' v =>
      dsimp only [step, Globals.setHostKeyConfirmed]
      rw [Globals.config_updateConfig]
      split
      · rename_i hsame
        split
        · rename_i hhost
          rw [hhost]
          exact of_decide_eq_true hsame
        · rfl
      · exact getHostKeyConfirmed_insert g.config host' host v
  | setKeyPair | getKeyPair =>
      dsimp only [step, Globals.setKeyPair, Globals.getKeyPair]
      rw [Globals.config_updateConfig]
      split <;> rfl
  | _ =>
      refine (sameKeys_step g ?_).host_eq host
      exact not_false

theorem stands_iff_since {calls : List Call} {made undone : Call} :
    Stands calls made undone ↔ Since calls (fun call => call = made) fun call => call ≠ undone := by
  constructor
  · rintro ⟨before, after, heq, hnot⟩
    refine ⟨before, made, after, heq, rfl, ?_⟩
    rintro call hcall rfl
    exact hnot hcall
  · rintro ⟨before, _, after, heq, rfl, hkept⟩
    refine ⟨before, after, heq, ?_⟩
    intro hmem
    exact hkept undone hmem rfl

theorem stands_concat {calls : List Call} {call made undone : Call} :
    Stands (calls ++ [call]) made undone ↔
      call = made ∨ (Stands calls made undone ∧ call ≠ undone) := by
  rw [stands_iff_since, since_concat, ← stands_iff_since]

namespace History

/-! ## Withdrawing the confirmation -/

/-- No host is confirmed unless it was after all confirmations were last
withdrawn. -/
def Revoked (w : History) : Prop :=
  ∀ host, Stands w.calls (.setKeyConfirmed false) (.setHostKeyConfirmed host true) →
    w.hostConfirmed host = false

/-- A call that withdraws all confirmations finds the flag up, or no host
confirmed. -/
def Withdraws (w : History) : Call → Prop
  | .setKeyConfirmed false => w.keyConfirmed = true ∨ ∀ host, w.hostConfirmed host = false
  | _ => True

theorem hostConfirmed_withdrawn (w : History) (host : String) :
    (w.step (.setKeyConfirmed false)).hostConfirmed host =
      if w.keyConfirmed = true then false else w.hostConfirmed host := by
  refine (hostConfirmed_step w.globals (.setKeyConfirmed false) host).trans ?_
  simp only [and_true]
  rfl

theorem revoked_step_iff {w : History} (h : w.Revoked) (call : Call) :
    (w.step call).Revoked ↔ w.Withdraws call := by
  by_cases hcall : call = .setKeyConfirmed false
  · subst hcall
    constructor
    · intro hrevoked
      by_cases hflag : w.keyConfirmed = true
      · exact Or.inl hflag
      · refine Or.inr fun host => ?_
        have hhost := hrevoked host ⟨w.calls, [], rfl, List.not_mem_nil⟩
        rw [hostConfirmed_withdrawn, if_neg hflag] at hhost
        exact hhost
    · intro hwithdraws host _
      rw [hostConfirmed_withdrawn]
      split
      · rfl
      · rename_i hflag
        exact hwithdraws.resolve_left hflag host
  · have hright : w.Withdraws call := by
      unfold Withdraws
      split
      · exact absurd rfl hcall
      · trivial
    refine ⟨fun _ => hright, fun _ host hstands => ?_⟩
    obtain ⟨hbefore, hne⟩ := (stands_concat.mp hstands).resolve_left hcall
    have hhost : w.hostConfirmed host = false := h host hbefore
    refine (hostConfirmed_step w.globals call host).trans ?_
    cases call with
    | setKeyConfirmed v =>
        dsimp only
        split
        · rfl
        · exact hhost
    | setHostKeyConfirmed host' v =>
        dsimp only
        split
        · rename_i heq
          subst heq
          cases v with
          | false => rfl
          | true => exact absurd rfl hne
        · exact hhost
    | _ => exact hhost

/-- **When withdrawing reaches every host.** From any configuration and over any
calls, no host is confirmed from the withdrawal of all confirmations until it is
confirmed again, if and only if every such withdrawal finds the flag up or no
host confirmed. -/
theorem revoked_iff (globals : Globals) (calls : List Call) :
    Always step Revoked (start globals) calls ↔ Along step Withdraws (start globals) calls := by
  have hstart : (start globals).Revoked := by
    rintro host ⟨before, after, heq, -⟩
    exact absurd heq (by simp [start])
  exact always_iff_along (B := fun _ => True) (fun _ _ _ _ => trivial)
    (fun _ call _ _ h => revoked_step_iff h call) (along_true calls) trivial hstart

/-- A host alone is confirmed, and then all confirmations are withdrawn. -/
def hostAlone : List Call := [.setHostKeyConfirmed "h" true, .setKeyConfirmed false]

/-- The host stays confirmed. -/
theorem withdrawal_skipped :
    (hostAlone.foldl step (start .fresh)).hostConfirmed "h" = true ∧
      ¬ Always step Revoked (start .fresh) hostAlone := by
  have hhost : (hostAlone.foldl step (start .fresh)).hostConfirmed "h" = true := by decide
  refine ⟨hhost, fun h => ?_⟩
  have hnot := h.final hostAlone "h" ⟨[_], [], rfl, List.not_mem_nil⟩
  rw [hhost] at hnot
  cases hnot

/-! ## Confirmations and the key pair -/

/-- A flag is up only if it was raised and not lowered since. -/
def Confirmed (w : History) : Prop :=
  (w.keyConfirmed = true → Stands w.calls (.setKeyConfirmed true) (.setKeyConfirmed false)) ∧
    ∀ host, w.hostConfirmed host = true →
      Stands w.calls (.setHostKeyConfirmed host true) (.setHostKeyConfirmed host false)

/-- A flag is up only if it was raised since the key pair last changed. -/
def Current (w : History) : Prop :=
  (w.keyConfirmed = true → .setKeyConfirmed true ∈ w.sinceKey) ∧
    ∀ host, w.hostConfirmed host = true → .setHostKeyConfirmed host true ∈ w.sinceKey

/-- The call stores a key pair with another value than the stored one. -/
def ReplacesKey (w : History) : Call → Prop
  | .setKeyPair pair => pair ≠ w.globals.config.keyPair
  | .getKeyPair gen =>
      w.globals.config.keyPair.1 = [] ∧ (gen.2, gen.1) ≠ w.globals.config.keyPair
  | _ => False

/-- The key pair is not replaced while a flag is up. -/
def ReplacesUnconfirmed (w : History) (call : Call) : Prop :=
  w.ReplacesKey call → w.keyConfirmed = false ∧ ∀ host, w.hostConfirmed host = false

theorem keyPair_step_iff (w : History) (call : Call) :
    (Configuration.step w.globals call).config.keyPair = w.globals.config.keyPair ↔
      ¬ w.ReplacesKey call := by
  cases call with
  | setKeyPair pair => exact not_not.symm
  | getKeyPair gen =>
      dsimp only [Configuration.step, Globals.getKeyPair]
      rw [Globals.config_updateConfig]
      unfold ReplacesKey
      cases hsk : w.globals.config.keyPair.1 with
      | nil => simp
      | cons b bs => simp
  | setKeyConfirmed v =>
      refine ⟨fun _ => not_false, fun _ => ?_⟩
      dsimp only [Configuration.step, Globals.setKeyConfirmed]
      rw [Globals.config_updateConfig]
      split <;> rfl
  | setHostKeyConfirmed host v =>
      refine ⟨fun _ => not_false, fun _ => ?_⟩
      dsimp only [Configuration.step, Globals.setHostKeyConfirmed]
      rw [Globals.config_updateConfig]
      split <;> rfl
  | _ =>
      refine ⟨fun _ => not_false, fun _ => (sameKeys_step w.globals ?_).keyPair⟩
      exact not_false

/-- What raises a flag. -/
theorem keyConfirmed_raised {w : History} {call : Call}
    (h : (w.step call).keyConfirmed = true) :
    call = .setKeyConfirmed true ∨ (w.keyConfirmed = true ∧ call ≠ .setKeyConfirmed false) := by
  have hflag := (keyConfirmed_step w.globals call).symm.trans h
  cases call with
  | setKeyConfirmed v =>
      obtain rfl : v = true := hflag
      exact Or.inl rfl
  | _ => exact Or.inr ⟨hflag, Call.noConfusion⟩

theorem hostConfirmed_raised {w : History} {call : Call} {host : String}
    (h : (w.step call).hostConfirmed host = true) :
    call = .setHostKeyConfirmed host true ∨
      (w.hostConfirmed host = true ∧ call ≠ .setHostKeyConfirmed host false) := by
  have hflag := (hostConfirmed_step w.globals call host).symm.trans h
  cases call with
  | setKeyConfirmed v =>
      dsimp only at hflag
      split at hflag
      · cases hflag
      · exact Or.inr ⟨hflag, Call.noConfusion⟩
  | setHostKeyConfirmed host' v =>
      dsimp only at hflag
      split at hflag
      · rename_i heq
        subst heq hflag
        exact Or.inl rfl
      · rename_i hne
        exact Or.inr ⟨hflag, fun heq => hne (Call.setHostKeyConfirmed.inj heq).1.symm⟩
  | _ => exact Or.inr ⟨hflag, Call.noConfusion⟩

theorem confirmed_step {w : History} (h : w.Confirmed) (call : Call) :
    (w.step call).Confirmed := by
  constructor
  · intro hflag
    rcases keyConfirmed_raised hflag with hcall | ⟨hbefore, hne⟩
    · exact stands_concat.mpr (Or.inl hcall)
    · exact stands_concat.mpr (Or.inr ⟨h.1 hbefore, hne⟩)
  · intro host hflag
    rcases hostConfirmed_raised hflag with hcall | ⟨hbefore, hne⟩
    · exact stands_concat.mpr (Or.inl hcall)
    · exact stands_concat.mpr (Or.inr ⟨h.2 host hbefore, hne⟩)

/-- The flags as they are when the key pair is replaced. -/
theorem flags_replaced {w : History} {call : Call} (h : w.ReplacesKey call) :
    (w.step call).keyConfirmed = w.keyConfirmed ∧
      ∀ host, (w.step call).hostConfirmed host = w.hostConfirmed host := by
  cases call with
  | setKeyPair pair => exact ⟨rfl, fun _ => rfl⟩
  | getKeyPair gen =>
      exact ⟨keyConfirmed_step w.globals (.getKeyPair gen),
        hostConfirmed_step w.globals (.getKeyPair gen)⟩
  | _ => exact absurd h not_false

theorem current_step_iff {w : History} (h : w.Current) (call : Call) :
    (w.step call).Current ↔ w.ReplacesUnconfirmed call := by
  by_cases hreplaces : w.ReplacesKey call
  · -- nothing has been confirmed for the new pair yet
    have hsince : (w.step call).sinceKey = [] :=
      if_neg fun hsame => (keyPair_step_iff w call).mp hsame hreplaces
    obtain ⟨hkey, hhost⟩ := flags_replaced hreplaces
    unfold Current ReplacesUnconfirmed
    simp only [hsince, hkey, hhost, List.not_mem_nil, imp_false, Bool.not_eq_true, hreplaces,
      forall_const]
  · have hsince : (w.step call).sinceKey = w.sinceKey ++ [call] :=
      if_pos ((keyPair_step_iff w call).mpr hreplaces)
    refine ⟨fun _ hbad => absurd hbad hreplaces, fun _ => ?_⟩
    unfold Current
    rw [hsince]
    constructor
    · intro hflag
      rcases keyConfirmed_raised hflag with rfl | ⟨hbefore, -⟩
      · exact List.mem_append_right _ (List.mem_singleton_self _)
      · exact List.mem_append_left _ (h.1 hbefore)
    · intro host hflag
      rcases hostConfirmed_raised hflag with rfl | ⟨hbefore, -⟩
      · exact List.mem_append_right _ (List.mem_singleton_self _)
      · exact List.mem_append_left _ (h.2 host hbefore)

theorem unconfirmed_fresh :
    (start .fresh).keyConfirmed = false ∧
      ∀ host, (start .fresh).hostConfirmed host = false := by
  refine ⟨rfl, fun host => ?_⟩
  have hnone : Config.default.keysConfirmed.lookup host = none := Finmap.lookup_empty host
  show Globals.getHostKeyConfirmed .default host = false
  unfold Globals.getHostKeyConfirmed
  rw [hnone]

/-- **Whose confirmation a flag is.** From a fresh configuration and over any
calls, a flag is up only if it was raised and not lowered since; and it was
raised for the stored key pair, throughout the run, if and only if no call
replaces the key pair while a flag is up. -/
theorem confirmations_current_iff (calls : List Call) :
    Always step Confirmed (start .fresh) calls ∧
      (Always step Current (start .fresh) calls ↔
        Along step ReplacesUnconfirmed (start .fresh) calls) := by
  obtain ⟨hkey, hhost⟩ := unconfirmed_fresh
  have hconfirmed : (start .fresh).Confirmed := by
    constructor
    · intro hflag
      rw [hkey] at hflag
      cases hflag
    · intro host hflag
      rw [hhost host] at hflag
      cases hflag
  have hcurrent : (start .fresh).Current := by
    constructor
    · intro hflag
      rw [hkey] at hflag
      cases hflag
    · intro host hflag
      rw [hhost host] at hflag
      cases hflag
  constructor
  · exact always_of_step (fun _ call h => confirmed_step h call) calls hconfirmed
  · exact always_iff_along (B := fun _ => True) (fun _ _ _ _ => trivial)
      (fun _ call _ _ h => current_step_iff h call) (along_true calls) trivial hcurrent

/-- The key is confirmed and then replaced. -/
def replacedKey : List Call := [.setKeyConfirmed true, .setKeyPair ([1], [2])]

/-- The new key is taken for confirmed. -/
theorem stale_confirmation :
    (replacedKey.foldl step (start .fresh)).keyConfirmed = true ∧
      ¬ Always step Current (start .fresh) replacedKey := by
  refine ⟨rfl, fun h => ?_⟩
  have hmem := (h.final replacedKey).1 rfl
  exact absurd hmem List.not_mem_nil

end History

end RustdeskServer.Configuration
