import RustdeskServer.Configuration.Options
import RustdeskServer.Configuration.PeerConfig
import RustdeskServer.Framework.Simulation
import RustdeskServer.Framework.Text

/-!
# The configuration over restarts, saved and imported

`CONFIG` and `CONFIG2` are read from their files when they are first used, and a process
that ends loses `ONLINE` and whatever it has not stored. `save_tmp` copies the two files,
and `import` copies two files over them, whose second name it makes from the first one.

An `Installation` is a process with the files it works on. Its `view` is the machine of
`Config.lean`, in which nothing is ever loaded: what a record that was not used yet will
be is what its file holds. `view_call` says that a call does to the view what it does
there; a restart then takes the view back to the files, and `Tracked` says how little is
lost by that: the remembered server at most. Stores succeed, and so do copies of files that
are there.
-/

namespace RustdeskServer.Configuration

open RustdeskServer.Framework

/-! ## Files -/

namespace Config

/-- `Config::file_` -/
def file (dir : PathBuf) (suffix : List Char) : PathBuf :=
  (PeerConfig.configPath dir ("RustDesk".toList ++ suffix)).withExtension PeerConfig.toml

/-- `format!("{}_tmp", path)` -/
def tmpFile (dir : PathBuf) (suffix : List Char) : PathBuf := file dir suffix ++ "_tmp".toList

/-- `from.replace(".toml", "2.toml")` -/
def secondFile (source : PathBuf) : PathBuf :=
  replaceAll ".toml".toList "2.toml".toList source

end Config

def Config2.withoutServer (c : Config2) : Config2 := { c with rendezvousServer := "" }

/-- What `load_` makes of the text of a file, for either record; of a text that cannot be
read it makes the default record. -/
structure Content where
  config : Config
  config2 : Config2

/-- What `load_` makes of the text of the other record. -/
structure Toml where
  asConfig : Config2 → Config
  asConfig2 : Config → Config2

/-- A process and the files: `globals.file` and `globals.file2` are what `load_` makes of
the two files of the configuration, `others` is what it would make of any other file. -/
structure Installation where
  globals : Globals
  loaded : Bool -- `CONFIG` was used
  loaded2 : Bool -- `CONFIG2` was used
  stored : Bool -- the file of `CONFIG` is there
  stored2 : Bool -- the file of `CONFIG2` is there
  others : PathBuf → Option Content

namespace Globals

/-- What a new process finds. -/
def reload (g : Globals) : Globals :=
  { g with config := g.file, config2 := g.file2, online := ∅ }

/-- Another `CONFIG` and another file of it. -/
def withRecord (config file : Config) (g : Globals) : Globals :=
  { g with config := config, file := file }

/-- Another `CONFIG2` and another file of it. -/
def withRecord2 (config2 file2 : Config2) (g : Globals) : Globals :=
  { g with config2 := config2, file2 := file2 }

end Globals

/-- Which of `CONFIG` and `CONFIG2` a call uses. -/
def uses (online : HashMap Int) : Call → Bool × Bool
  | .setId _ | .updateId _ _ | .setPassword _ | .setSalt _ | .setKeyPair _ | .getKeyPair _
  | .setKeyConfirmed _ | .setHostKeyConfirmed _ _ => (true, false)
  | .setNatType _ | .setSerial _ | .setSize _ _ _ _ | .setRemoteId _ | .setOptions _
  | .setOption _ _ => (false, true)
  | .updateLatency host latency order =>
      let best := (order.iter (online.insert host latency)).foldl Globals.fasterHost
        ("", Globals.maxDelay)
      (false, !best.1.isEmpty)
  | .resetOnline => (false, false)

namespace Installation

/-- A use of `CONFIG`; the first one loads it. -/
def useConfig (confy : Confy) (h : Installation) : Installation :=
  if h.loaded then h
  else
    { h with
      globals := { h.globals with config := h.globals.file }
      loaded := true
      stored := h.stored || confy.storesDefault }

/-- A use of `CONFIG2`; the first one loads it. -/
def useConfig2 (confy : Confy) (h : Installation) : Installation :=
  if h.loaded2 then h
  else
    { h with
      globals := { h.globals with config2 := h.globals.file2 }
      loaded2 := true
      stored2 := h.stored2 || confy.storesDefault }

/-- A file that the call has changed is there. -/
def call (confy : Confy) (c : Call) (h : Installation) : Installation :=
  let used := uses h.globals.online c
  let h := if used.1 then h.useConfig confy else h
  let h := if used.2 then h.useConfig2 confy else h
  let globals := Configuration.step h.globals c
  { h with
    globals := globals
    stored := h.stored || globals.file ≠ h.globals.file
    stored2 := h.stored2 || globals.file2 ≠ h.globals.file2 }

/-- The process ends and another one starts. -/
def restart (h : Installation) : Installation :=
  { h with globals := { h.globals with online := ∅ }, loaded := false, loaded2 := false }

/-- `save_tmp`: the second file is copied first. A copy of a file that is not there fails,
which is logged only. -/
def saveTmp (confy : Confy) (toml : Toml) (dir : PathBuf) (h : Installation) : Installation :=
  let h := h.useConfig confy
  let others :=
    if h.stored2 then
      Function.update h.others (Config.tmpFile dir ['2'])
        (some ⟨toml.asConfig h.globals.file2, h.globals.file2⟩)
    else h.others
  { h with
    others :=
      if h.stored then
        Function.update others (Config.tmpFile dir [])
          (some ⟨h.globals.file, toml.asConfig2 h.globals.file⟩)
      else others }

/-- `import`, from a path that is not of this configuration. It loads `CONFIG` first, which
may make the file. -/
def importFrom (confy : Confy) (source : PathBuf) (h : Installation) : Installation :=
  let h := { h with stored := h.stored || confy.storesDefault }
  let h :=
    match h.others source with
    | some content =>
        { h with globals := { h.globals with file := content.config }, stored := true }
    | none => h
  match h.others (Config.secondFile source) with
  | some content =>
      { h with globals := { h.globals with file2 := content.config2 }, stored2 := true }
  | none => h

/-- What the two records are, or will be when they are used. -/
def view (h : Installation) : Globals :=
  h.globals
    |>.withRecord (if h.loaded then h.globals.config else h.globals.file) h.globals.file
    |>.withRecord2 (if h.loaded2 then h.globals.config2 else h.globals.file2) h.globals.file2

end Installation

/-- What may happen: a call, a getter of either record, the end of the process, `save_tmp`
or `import`. -/
inductive Action where
  | call (c : Call)
  | get
  | get2
  | restart
  | saveTmp
  | importFrom (source : PathBuf)

def Installation.step (confy : Confy) (toml : Toml) (dir : PathBuf) (h : Installation) :
    Action → Installation
  | .call c => h.call confy c
  | .get => h.useConfig confy
  | .get2 => h.useConfig2 confy
  | .restart => h.restart
  | .saveTmp => h.saveTmp confy toml dir
  | .importFrom source => h.importFrom confy source

/-- The calls among the actions. -/
def Action.calls : Action → List Call
  | .call c => [c]
  | _ => []

def Action.isImport : Action → Bool
  | .importFrom _ => true
  | _ => false

/-! ## A record that is not used stays out of it -/

namespace Globals

variable (g : Globals)

theorem updateConfig2_apart (same : Config2 → Bool) (f : Config2 → Config2) (config file : Config) :
    updateConfig2 same f (g.withRecord config file) =
      (updateConfig2 same f g).withRecord config file := by
  unfold updateConfig2
  split_ifs with h h' h'
  · rfl
  · exact absurd h h'
  · exact absurd h' h
  · rfl

theorem updateConfig_apart (same : Config → Bool) (f : Config → Config) (config2 file2 : Config2) :
    updateConfig same f (g.withRecord2 config2 file2) =
      (updateConfig same f g).withRecord2 config2 file2 := by
  unfold updateConfig
  split_ifs with h h' h'
  · rfl
  · exact absurd h h'
  · exact absurd h' h
  · rfl

theorem storeOption_apart (k v : String) (config file : Config) :
    storeOption k v (g.withRecord config file) = (storeOption k v g).withRecord config file := by
  unfold storeOption
  dsimp only [withRecord]
  split_ifs <;> rfl

theorem setOption_apart (k v : String) (config file : Config) :
    setOption k v (g.withRecord config file) = (setOption k v g).withRecord config file := by
  unfold setOption
  split_ifs
  · exact g.forgetServer.storeOption_apart k v config file
  · exact g.storeOption_apart k v config file

theorem updateLatency_apart (host : String) (latency : Int) (order : IterOrder)
    (config file : Config) :
    updateLatency host latency order (g.withRecord config file) =
      (updateLatency host latency order g).withRecord config file := by
  unfold updateLatency
  dsimp only
  split_ifs with h h' h'
  · exact updateConfig2_apart { g with online := g.online.insert host latency } _ _ config file
  · exact absurd h h'
  · exact absurd h' h
  · rfl

theorem config2_updateConfig (same : Config → Bool) (f : Config → Config) :
    (updateConfig same f g).config2 = g.config2 := by
  unfold updateConfig
  split_ifs <;> rfl

theorem getId_apart (autoId : Option String) (config2 file2 : Config2) :
    getId autoId (g.withRecord2 config2 file2) = (getId autoId g).withRecord2 config2 file2 := by
  unfold getId
  split_ifs with h h' h'
  · cases autoId with
    | none => rfl
    | some tmp => exact g.updateConfig_apart _ _ config2 file2
  · exact absurd h h'
  · exact absurd h' h
  · rfl

end Globals

theorem step_apart {g : Globals} {c : Call} (huses : (uses g.online c).1 = false)
    (config file : Config) :
    step (g.withRecord config file) c = (step g c).withRecord config file := by
  cases c with
  | setNatType | setSerial | setSize | setRemoteId | setOptions =>
      dsimp only [step]
      exact g.updateConfig2_apart _ _ config file
  | setOption k v => exact g.setOption_apart k v config file
  | updateLatency host latency order => exact g.updateLatency_apart host latency order config file
  | resetOnline => rfl
  | _ => simp [uses] at huses

theorem step_apart2 {g : Globals} {c : Call} (huses : (uses g.online c).2 = false)
    (config2 file2 : Config2) :
    step (g.withRecord2 config2 file2) c = (step g c).withRecord2 config2 file2 := by
  cases c with
  | setId | setPassword | setSalt | setKeyPair | getKeyPair | setKeyConfirmed
  | setHostKeyConfirmed =>
      dsimp only [step]
      exact g.updateConfig_apart _ _ config2 file2
  | updateId autoId newId =>
      simp only [step, Globals.updateId, Globals.getId_apart]
      exact Globals.updateConfig_apart _ _ _ config2 file2
  | updateLatency host latency order =>
      -- no host answers, and only `ONLINE` changes
      have hquiet : ∀ g' : Globals, g'.online = g.online →
          g'.updateLatency host latency order =
            { g' with online := g.online.insert host latency } := by
        rintro g' honline
        unfold Globals.updateLatency
        rw [honline]
        exact if_neg (Bool.eq_false_iff.mp huses)
      rw [step, step, hquiet g rfl, hquiet (g.withRecord2 config2 file2) rfl]
      rfl
  | resetOnline => rfl
  | _ => simp [uses] at huses

theorem step_record {g : Globals} {c : Call} {loaded : Bool}
    (hused : (uses g.online c).1 = true → loaded = true) :
    step (g.withRecord (if loaded then g.config else g.file) g.file) c =
      (step g c).withRecord (if loaded then (step g c).config else (step g c).file)
        (step g c).file := by
  cases loaded with
  | true => rfl
  | false =>
      have hunused : (uses g.online c).1 = false := by simpa using hused
      have hsame : step g c = (step g c).withRecord g.config g.file :=
        step_apart hunused g.config g.file
      have hfile : (step g c).file = g.file := by
        rw [hsame]
        rfl
      rw [hfile]
      exact step_apart hunused g.file g.file

theorem step_record2 {g : Globals} {c : Call} {loaded2 : Bool}
    (hused : (uses g.online c).2 = true → loaded2 = true) :
    step (g.withRecord2 (if loaded2 then g.config2 else g.file2) g.file2) c =
      (step g c).withRecord2 (if loaded2 then (step g c).config2 else (step g c).file2)
        (step g c).file2 := by
  cases loaded2 with
  | true => rfl
  | false =>
      have hunused : (uses g.online c).2 = false := by simpa using hused
      have hsame : step g c = (step g c).withRecord2 g.config2 g.file2 :=
        step_apart2 hunused g.config2 g.file2
      have hfile : (step g c).file2 = g.file2 := by
        rw [hsame]
        rfl
      rw [hfile]
      exact step_apart2 hunused g.file2 g.file2

namespace Installation

variable (confy : Confy) (h : Installation)

@[simp] theorem view_useConfig : (h.useConfig confy).view = h.view := by
  cases hloaded : h.loaded with
  | true => simp [useConfig, hloaded]
  | false => simp [useConfig, view, hloaded, Globals.withRecord, Globals.withRecord2]

@[simp] theorem view_useConfig2 : (h.useConfig2 confy).view = h.view := by
  cases hloaded : h.loaded2 with
  | true => simp [useConfig2, hloaded]
  | false => simp [useConfig2, view, hloaded, Globals.withRecord, Globals.withRecord2]

theorem view_step {c : Call} (hused : (uses h.globals.online c).1 = true → h.loaded = true)
    (hused2 : (uses h.globals.online c).2 = true → h.loaded2 = true) :
    ∀ stored stored2, { h with globals := Configuration.step h.globals c, stored, stored2 }.view =
      Configuration.step h.view c := by
  intro stored stored2
  have hfirst := step_record hused
  have hsecond := @step_record2 (h.globals.withRecord (if h.loaded then h.globals.config
    else h.globals.file) h.globals.file) c h.loaded2 hused2
  rw [hfirst] at hsecond
  exact hsecond.symm

@[simp] theorem online_useConfig : (h.useConfig confy).globals.online = h.globals.online := by
  unfold useConfig
  split_ifs <;> rfl

@[simp] theorem online_useConfig2 : (h.useConfig2 confy).globals.online = h.globals.online := by
  unfold useConfig2
  split_ifs <;> rfl

@[simp] theorem loaded_useConfig : (h.useConfig confy).loaded = true := by
  unfold useConfig
  split_ifs with hloaded
  · exact hloaded
  · rfl

@[simp] theorem loaded2_useConfig2 : (h.useConfig2 confy).loaded2 = true := by
  unfold useConfig2
  split_ifs with hloaded
  · exact hloaded
  · rfl

@[simp] theorem loaded_useConfig2 : (h.useConfig2 confy).loaded = h.loaded := by
  unfold useConfig2
  split_ifs <;> rfl

/-- **A call does to the view** what it does to a process that has loaded everything. -/
theorem view_call (c : Call) : (h.call confy c).view = Configuration.step h.view c := by
  cases hused : (uses h.globals.online c).1 with
  | true =>
      cases hused2 : (uses h.globals.online c).2 with
      | true =>
          simp only [call, hused, hused2, if_true]
          rw [view_step] <;> simp
      | false =>
          simp only [call, hused, hused2, if_true]
          rw [view_step] <;> simp [hused2]
  | false =>
      cases hused2 : (uses h.globals.online c).2 with
      | true =>
          simp only [call, hused, hused2, if_true]
          rw [view_step] <;> simp [hused]
      | false =>
          simp only [call, hused, hused2]
          rw [view_step] <;> simp [hused, hused2]

/-- A process that ends goes back to the files. -/
theorem view_restart : h.restart.view = h.view.reload := rfl

theorem view_saveTmp (toml : Toml) (dir : PathBuf) :
    (h.saveTmp confy toml dir).view = h.view := h.view_useConfig confy

end Installation

/-! ## What a restart may change -/

/-- Everything but the remembered server. -/
structure Alike (g g' : Globals) : Prop where
  config : g.config = g'.config
  config2 : g.config2.withoutServer = g'.config2.withoutServer

/-- The files have what memory has, the remembered server aside. -/
def Tracked (g : Globals) : Prop := Alike g.reload g

section

variable {g g' g'' : Globals}

theorem Alike.refl (g : Globals) : Alike g g := ⟨rfl, rfl⟩

theorem Alike.trans (h : Alike g g') (h' : Alike g' g'') : Alike g g'' :=
  ⟨h.config.trans h'.config, h.config2.trans h'.config2⟩

theorem Alike.updateConfig (h : Alike g g') (same : Config → Bool) (f : Config → Config) :
    Alike (g.updateConfig same f) (g'.updateConfig same f) := by
  constructor
  · rw [Globals.config_updateConfig, Globals.config_updateConfig, h.config]
  · rw [Globals.config2_updateConfig, Globals.config2_updateConfig]
    exact h.config2

theorem Tracked.updateConfig (h : Tracked g) (same : Config → Bool) (f : Config → Config) :
    Tracked (g.updateConfig same f) := by
  unfold Globals.updateConfig
  split_ifs
  · exact h
  · exact ⟨rfl, h.config2⟩

/-- A change that neither looks at the remembered server nor makes one. -/
theorem Alike.updateConfig2 (h : Alike g g') {same : Config2 → Bool} {f : Config2 → Config2}
    (hsame : ∀ c, same c = same c.withoutServer)
    (hf : ∀ c, (f c).withoutServer = (f c.withoutServer).withoutServer) :
    Alike (g.updateConfig2 same f) (g'.updateConfig2 same f) := by
  unfold Globals.updateConfig2
  rw [hsame, hsame g'.config2, h.config2]
  split_ifs
  · exact h
  · constructor
    · exact h.config
    · show (f g.config2).withoutServer = (f g'.config2).withoutServer
      rw [hf, hf g'.config2, h.config2]

theorem Tracked.updateConfig2 (h : Tracked g) (same : Config2 → Bool) (f : Config2 → Config2) :
    Tracked (g.updateConfig2 same f) := by
  unfold Globals.updateConfig2
  split_ifs
  · exact h
  · exact ⟨h.config, rfl⟩

theorem Alike.storeOption (h : Alike g g') (k v : String) :
    Alike (g.storeOption k v) (g'.storeOption k v) := by
  have hoptions : g.config2.options = g'.config2.options := by
    have hall := congrArg Config2.options h.config2
    exact hall
  by_cases hsame : g.config2.options.lookup k = wanted v
  · rw [storeOption_same hsame, storeOption_same (hoptions ▸ hsame)]
    exact h
  · rw [storeOption_ne hsame, storeOption_ne (hoptions ▸ hsame), hoptions]
    constructor
    · exact h.config
    · have hchanged := congrArg (fun c : Config2 => { c with
        options :=
          if (wanted v).isNone then g'.config2.options.erase k
          else g'.config2.options.insert k v }) h.config2
      exact hchanged

theorem Tracked.storeOption (h : Tracked g) (k v : String) : Tracked (g.storeOption k v) := by
  by_cases hsame : g.config2.options.lookup k = wanted v
  · rw [storeOption_same hsame]
    exact h
  · rw [storeOption_ne hsame]
    exact ⟨h.config, rfl⟩

theorem alike_updateLatency (g : Globals) (host : String) (latency : Int) (order : IterOrder) :
    Alike (g.updateLatency host latency order) g := by
  unfold Globals.updateLatency Globals.updateConfig2
  dsimp only
  split_ifs <;> exact ⟨rfl, rfl⟩

theorem Alike.getId (h : Alike g g') (autoId : Option String) :
    Alike (g.getId autoId) (g'.getId autoId) := by
  unfold Globals.getId
  rw [h.config]
  split_ifs
  · cases autoId with
    | none => exact h
    | some tmp => exact h.updateConfig _ _
  · exact h

theorem Tracked.getId (h : Tracked g) (autoId : Option String) : Tracked (g.getId autoId) := by
  unfold Globals.getId
  split_ifs
  · cases autoId with
    | none => exact h
    | some tmp => exact h.updateConfig _ _
  · exact h

/-- **What is alike stays alike**: no call makes anything else of the remembered server
than a remembered server. -/
theorem Alike.step (h : Alike g g') (c : Call) :
    Alike (Configuration.step g c) (Configuration.step g' c) := by
  cases c with
  | setId | setPassword | setSalt | setKeyPair | getKeyPair | setKeyConfirmed
  | setHostKeyConfirmed =>
      dsimp only [Configuration.step]
      exact h.updateConfig _ _
  | setNatType | setSerial | setSize | setRemoteId | setOptions =>
      dsimp only [Configuration.step]
      exact h.updateConfig2 (fun _ => rfl) (fun _ => rfl)
  | updateId autoId newId =>
      dsimp only [Configuration.step, Globals.updateId]
      exact (h.getId autoId).updateConfig _ _
  | setOption k v =>
      dsimp only [Configuration.step, Globals.setOption]
      split_ifs
      · have hforgotten : Alike g.forgetServer g'.forgetServer := ⟨h.config, h.config2⟩
        exact hforgotten.storeOption k v
      · exact h.storeOption k v
  | updateLatency host latency order =>
      have hleft := alike_updateLatency g host latency order
      have hright := alike_updateLatency g' host latency order
      exact (hleft.trans h).trans ⟨hright.config.symm, hright.config2.symm⟩
  | resetOnline => exact ⟨h.config, h.config2⟩

theorem Tracked.step (h : Tracked g) (c : Call) : Tracked (Configuration.step g c) := by
  cases c with
  | setId | setPassword | setSalt | setKeyPair | getKeyPair | setKeyConfirmed
  | setHostKeyConfirmed =>
      dsimp only [Configuration.step]
      exact h.updateConfig _ _
  | setNatType | setSerial | setSize | setRemoteId | setOptions =>
      dsimp only [Configuration.step]
      exact h.updateConfig2 _ _
  | updateId autoId newId => exact (h.getId autoId).updateConfig _ _
  | setOption k v =>
      dsimp only [Configuration.step, Globals.setOption]
      split_ifs
      · have hforgotten : Tracked g.forgetServer := ⟨h.config, h.config2⟩
        exact hforgotten.storeOption k v
      · exact h.storeOption k v
  | updateLatency host latency order =>
      have honline : Tracked { g with online := g.online.insert host latency } :=
        ⟨h.config, h.config2⟩
      dsimp only [Configuration.step, Globals.updateLatency]
      split_ifs
      · exact honline.updateConfig2 _ _
      · exact honline
  | resetOnline => exact ⟨h.config, h.config2⟩

theorem Alike.servers (h : Alike g g') :
    g.config2.getRendezvousServers = g'.config2.getRendezvousServers := by
  have hall := congrArg Config2.getRendezvousServers h.config2
  exact hall

/-- A custom server is the server. -/
theorem Alike.server (h : Alike g g')
    (hcustom : g'.config2.getOption Globals.customRendezvousServer ≠ "") :
    g.config2.getRendezvousServer = g'.config2.getRendezvousServer := by
  have hoption : g.config2.getOption Globals.customRendezvousServer =
      g'.config2.getOption Globals.customRendezvousServer := by
    have hall := congrArg (Config2.getOption · Globals.customRendezvousServer) h.config2
    exact hall
  simp [Config2.getRendezvousServer, hoption, hcustom]

end

/-! ## Runs with restarts -/

/-- The installation is where a process that never ends is, the remembered server aside. -/
structure Follows (h : Installation) (g : Globals) : Prop where
  alike : Alike h.view g
  tracked : Tracked h.view

theorem Follows.step {h : Installation} {g : Globals} (hfollows : Follows h g) (confy : Confy)
    (toml : Toml) (dir : PathBuf) {a : Action} (hno : a.isImport = false) :
    Follows (h.step confy toml dir a) (a.calls.foldl Configuration.step g) := by
  obtain ⟨halike, htracked⟩ := hfollows
  cases a with
  | call c =>
      constructor
      · rw [Installation.step, Installation.view_call]
        exact halike.step c
      · rw [Installation.step, Installation.view_call]
        exact htracked.step c
  | get =>
      constructor
      · simpa [Installation.step, Action.calls] using halike
      · simpa [Installation.step] using htracked
  | get2 =>
      constructor
      · simpa [Installation.step, Action.calls] using halike
      · simpa [Installation.step] using htracked
  | restart => exact ⟨htracked.trans halike, .refl _⟩
  | saveTmp =>
      constructor
      · rw [Installation.step, Installation.view_saveTmp]
        exact halike
      · rw [Installation.step, Installation.view_saveTmp]
        exact htracked
  | importFrom source => cases hno

/-- **A restart loses the remembered server at most.** From files that have what memory
has, after every run of calls, getters, restarts and `save_tmp` in any order, whatever was
loaded when: the records are those of one process that made the same calls, the remembered
server aside, and so is the list of servers, and the server itself if a custom one is set.
The files have what memory has, again but for the remembered server. -/
theorem restarts_keep_configuration (confy : Confy) (toml : Toml) (dir : PathBuf)
    (h : Installation) (htracked : Tracked h.view) (actions : List Action)
    (hno : ∀ a ∈ actions, a.isImport = false) :
    ∀ after once : Globals, after = (actions.foldl (Installation.step confy toml dir) h).view →
      once = (actions.flatMap Action.calls).foldl step h.view →
      after.config = once.config ∧ after.config2.withoutServer = once.config2.withoutServer ∧
        after.config2.getRendezvousServers = once.config2.getRendezvousServers ∧
        (once.config2.getOption Globals.customRendezvousServer ≠ "" →
          after.config2.getRendezvousServer = once.config2.getRendezvousServer) ∧
        after.file = after.config ∧ after.file2.withoutServer = after.config2.withoutServer := by
  rintro _ _ rfl rfl
  have hfollows : Follows (actions.foldl (Installation.step confy toml dir) h)
      ((actions.flatMap Action.calls).foldl step h.view) := by
    apply run_of_answers (fun h a g hfollows hno => hfollows.step confy toml dir hno)
    · exact ⟨.refl _, htracked⟩
    · exact along_of_forall hno
  obtain ⟨halike, hfiles⟩ := hfollows
  exact ⟨halike.config, halike.config2, halike.servers, halike.server, hfiles.config,
    hfiles.config2⟩

/-- Before anything was configured. -/
def freshInstallation : Installation :=
  ⟨⟨.default, .default, ∅, .default, .default⟩, false, false, false, false, fun _ => none⟩

def restartedCalls : List Action :=
  [.call (.setId "1"), .restart, .get2, .call (.setOption "a" "b"), .restart,
    .call (.setPassword "p")]

theorem restarts_keep_configuration_fresh :
    Tracked freshInstallation.view ∧ (∀ a ∈ restartedCalls, a.isImport = false) ∧
      ∀ after once : Globals,
        after = (restartedCalls.foldl (Installation.step ⟨true⟩ ⟨fun _ => .default, fun _ => .default⟩
          "/c".toList) freshInstallation).view →
        once = (restartedCalls.flatMap Action.calls).foldl step freshInstallation.view →
        after.config = once.config ∧
          after.config2.withoutServer = once.config2.withoutServer := by
  have htracked : Tracked freshInstallation.view := .refl _
  have hno : ∀ a ∈ restartedCalls, a.isImport = false := by decide
  refine ⟨htracked, hno, ?_⟩
  intro after once hafter honce
  obtain ⟨hconfig, hconfig2, -⟩ := restarts_keep_configuration _ _ "/c".toList freshInstallation
    htracked restartedCalls hno after once hafter honce
  exact ⟨hconfig, hconfig2⟩

/-! ## What `save_tmp` leaves for `import` -/

/-- Behind the directory there is a separator, if there is a directory. -/
theorem file_front (dir : PathBuf) :
    ∃ front : PathBuf, (front = [] ∨ ∃ before, before <+: dir ∧ front = before ++ ['/']) ∧
      Config.file dir [] = front ++ "RustDesk.toml".toList ∧
      Config.file dir ['2'] = front ++ "RustDesk2.toml".toList := by
  by_cases hdir : dir = []
  · subst hdir
    exact ⟨[], Or.inl rfl, by decide, by decide⟩
  · have hjoin : ∃ before, before <+: dir ∧ ∀ name : PathBuf, name.isAbsolute = false →
        dir.join name = before ++ '/' :: name := by
      by_cases hslash : dir.getLast? = some '/'
      · obtain ⟨before, rfl⟩ := List.getLast?_eq_some_iff.mp hslash
        refine ⟨before, List.prefix_append _ _, ?_⟩
        intro name hname
        rw [PathBuf.join_relative hname, if_pos (Or.inr hslash), List.append_assoc]
        rfl
      · refine ⟨dir, List.prefix_rfl, ?_⟩
        intro name hname
        rw [PathBuf.join_relative hname, if_neg (not_or.mpr ⟨hdir, hslash⟩)]
    obtain ⟨before, hbefore, hjoin⟩ := hjoin
    refine ⟨before ++ ['/'], Or.inr ⟨before, hbefore, rfl⟩, ?_, ?_⟩
    · have hplain : PathBuf.Plain ("RustDesk".toList ++ []) := by constructor <;> decide
      rw [Config.file, PeerConfig.configPath, hjoin _ (by decide),
        PathBuf.withExtension_slash before hplain, List.append_assoc]
      rfl
    · have hplain : PathBuf.Plain ("RustDesk".toList ++ ['2']) := by constructor <;> decide
      rw [Config.file, PeerConfig.configPath, hjoin _ (by decide),
        PathBuf.withExtension_slash before hplain, List.append_assoc]
      rfl

/-- **`import` finds both files** that `save_tmp` left: the name of the second is made of
the name of the first, if the directory's own path does not have what is replaced in it. -/
theorem secondFile_tmpFile {dir : PathBuf} (hdir : ¬ ".toml".toList <:+: dir) :
    Config.secondFile (Config.tmpFile dir []) = Config.tmpFile dir ['2'] := by
  obtain ⟨front, hfront, hfile, hfile2⟩ := file_front dir
  unfold Config.secondFile Config.tmpFile
  rw [hfile, hfile2]
  rcases hfront with rfl | ⟨before, hbefore, rfl⟩
  · decide
  · have hbefore : ¬ ".toml".toList <:+: before :=
      fun hpart => hdir (hpart.trans hbefore.isInfix)
    have hname : replaceAll ".toml".toList "2.toml".toList
        ("RustDesk.toml".toList ++ "_tmp".toList) = "RustDesk2.toml".toList ++ "_tmp".toList := by
      decide
    have hcut := @replaceAll_before ".toml".toList "2.toml".toList before
      ("RustDesk.toml".toList ++ "_tmp".toList) '/' (by decide) (by decide)
    simp only [List.append_assoc, List.cons_append, List.nil_append]
    rw [hcut, replaceAll_of_not_infix hbefore, hname]

example : Config.secondFile (Config.tmpFile "/a.toml".toList []) ≠
    Config.tmpFile "/a.toml".toList ['2'] := by decide

theorem tmpFile_ne (dir : PathBuf) : Config.tmpFile dir ['2'] ≠ Config.tmpFile dir [] := by
  obtain ⟨front, -, hfile, hfile2⟩ := file_front dir
  unfold Config.tmpFile
  rw [hfile, hfile2, List.append_assoc, List.append_assoc]
  simp

namespace Installation

variable (confy : Confy) (h : Installation)

@[simp] theorem others_useConfig : (h.useConfig confy).others = h.others := by
  unfold useConfig
  split_ifs <;> rfl

@[simp] theorem others_useConfig2 : (h.useConfig2 confy).others = h.others := by
  unfold useConfig2
  split_ifs <;> rfl

/-- Only `save_tmp` writes other files. -/
theorem others_step (toml : Toml) (dir : PathBuf) {a : Action} (hno : a ≠ .saveTmp) :
    (h.step confy toml dir a).others = h.others := by
  cases a with
  | call c =>
      simp only [step, call]
      split_ifs <;> simp
  | get => simp [step]
  | get2 => simp [step]
  | restart => rfl
  | saveTmp => exact absurd rfl hno
  | importFrom source =>
      simp only [step, importFrom]
      split <;> split <;> rfl

theorem others_run (toml : Toml) (dir : PathBuf) {actions : List Action}
    (hno : ∀ a ∈ actions, a ≠ .saveTmp) :
    (actions.foldl (step confy toml dir) h).others = h.others := by
  have hstep : ∀ (h' : Installation) (a : Action), h'.others = h.others → a ≠ .saveTmp →
      (step confy toml dir h' a).others = h.others := by
    intro h' a hothers hno
    rw [others_step confy h' toml dir hno, hothers]
  exact (always_of_along hstep rfl (along_of_forall hno)).final

theorem file_useConfig : (h.useConfig confy).globals.file = h.globals.file ∧
    (h.useConfig confy).globals.file2 = h.globals.file2 ∧
    (h.useConfig confy).stored2 = h.stored2 := by
  unfold useConfig
  split_ifs <;> exact ⟨rfl, rfl, rfl⟩

theorem stored_useConfig (hstored : h.stored = true) : (h.useConfig confy).stored = true := by
  unfold useConfig
  split_ifs <;> simp [hstored]

/-- The copies that `save_tmp` makes. -/
theorem others_saveTmp (toml : Toml) (dir : PathBuf) (hstored : h.stored = true)
    (hstored2 : h.stored2 = true) :
    (h.saveTmp confy toml dir).others (Config.tmpFile dir []) =
        some ⟨h.globals.file, toml.asConfig2 h.globals.file⟩ ∧
      (h.saveTmp confy toml dir).others (Config.tmpFile dir ['2']) =
        some ⟨toml.asConfig h.globals.file2, h.globals.file2⟩ := by
  obtain ⟨hfile, hfile2, hsame⟩ := h.file_useConfig confy
  have hthere := h.stored_useConfig confy hstored
  simp [saveTmp, hfile, hfile2, hsame, hthere, hstored2, tmpFile_ne]

end Installation

/-- **`import` brings back what `save_tmp` saved.** From files that are there and have what
memory has, in a directory whose path does not have `.toml` in it: after
every run of calls, getters, restarts and imports, an import of what `save_tmp` left and
a restart bring both records back, the remembered server aside. Without the restart only a
record that the process has not used yet is the saved one. -/
theorem saved_configuration_restored (confy : Confy) (toml : Toml) {dir : PathBuf}
    (hdir : ¬ ".toml".toList <:+: dir) (h : Installation) (htracked : Tracked h.view)
    (hstored : h.stored = true) (hstored2 : h.stored2 = true) (actions : List Action)
    (hno : ∀ a ∈ actions, a ≠ .saveTmp) :
    ∀ later imported : Installation,
      later = actions.foldl (Installation.step confy toml dir) (h.saveTmp confy toml dir) →
      imported = later.importFrom confy (Config.tmpFile dir []) →
      imported.restart.view.config = h.view.config ∧
        imported.restart.view.config2.withoutServer = h.view.config2.withoutServer ∧
        imported.view.config = (if later.loaded then later.view.config else h.view.config) ∧
        imported.view.config2.withoutServer =
          (if later.loaded2 then later.view.config2 else h.view.config2).withoutServer := by
  rintro later _ hlater rfl
  obtain ⟨hfirst, hsecond⟩ := h.others_saveTmp confy toml dir hstored hstored2
  have hothers : later.others = (h.saveTmp confy toml dir).others := by
    rw [hlater]
    exact Installation.others_run confy _ toml dir hno
  rw [← hothers] at hfirst hsecond
  have himported : later.importFrom confy (Config.tmpFile dir []) =
      { later with
        globals := { later.globals with file := h.globals.file, file2 := h.globals.file2 }
        stored := true
        stored2 := true } := by
    unfold Installation.importFrom
    dsimp only
    rw [hfirst]
    dsimp only
    rw [secondFile_tmpFile hdir, hsecond]
  rw [himported]
  refine ⟨htracked.config, htracked.config2, ?_, ?_⟩
  · cases hloaded : later.loaded with
    | true => simp [Installation.view, hloaded, Globals.withRecord, Globals.withRecord2]
    | false =>
        rw [if_neg Bool.false_ne_true, ← htracked.config]
        simp [Installation.view, Globals.withRecord, Globals.withRecord2, Globals.reload]
  · cases hloaded : later.loaded2 with
    | true => simp [Installation.view, hloaded, Globals.withRecord, Globals.withRecord2]
    | false =>
        rw [if_neg Bool.false_ne_true, ← htracked.config2]
        simp [Installation.view, Globals.withRecord, Globals.withRecord2, Globals.reload]

/-- An installation with an id, an option and both files. -/
def namedInstallation : Installation :=
  let config := { Config.default with id := "1" }
  let config2 := { Config2.default with options := .singleton "a" "b" }
  ⟨⟨config, config2, ∅, config, config2⟩, true, true, true, true, fun _ => none⟩

def renamed : List Action := [.call (.setId "2"), .call (.setOption "a" ""), .restart, .get2]

theorem saved_configuration_restored_named :
    ¬ ".toml".toList <:+: "/c".toList ∧ Tracked namedInstallation.view ∧
      ∀ later imported : Installation,
        later = renamed.foldl (Installation.step ⟨true⟩ ⟨fun _ => .default, fun _ => .default⟩ "/c".toList)
          (namedInstallation.saveTmp ⟨true⟩ ⟨fun _ => .default, fun _ => .default⟩ "/c".toList) →
        imported = later.importFrom ⟨true⟩ (Config.tmpFile "/c".toList []) →
        imported.restart.view.config = namedInstallation.view.config ∧
          imported.restart.view.config2.withoutServer =
            namedInstallation.view.config2.withoutServer := by
  have hdir : ¬ ".toml".toList <:+: "/c".toList := by decide
  have htracked : Tracked namedInstallation.view := .refl _
  refine ⟨hdir, htracked, ?_⟩
  intro later imported hlater himported
  obtain ⟨hconfig, hconfig2, -⟩ := saved_configuration_restored _ _ hdir namedInstallation
    htracked rfl rfl renamed (by simp [renamed]) later imported hlater himported
  exact ⟨hconfig, hconfig2⟩

end RustdeskServer.Configuration
