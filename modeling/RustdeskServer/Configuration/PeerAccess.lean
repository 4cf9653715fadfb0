import RustdeskServer.Configuration.PeerMap
import RustdeskServer.Framework.Runs

/-!
# Peer configurations in several threads

`load` and `store` take the lock of `CONFIG` "for lock", but bind the guard to
`_`: it is dropped in the same statement, before the file is touched, and it is a
shared guard anyway. So every operation on a file is a step of its own, and any
threads interleave between them. A store truncates the file and then writes it;
a file that is empty reads as the default configuration, and `peers` removes a
file whose configuration has no platform.

`peer_access_iff` says what the lock would have had to prevent: all loads return
configurations of their peer, and `peers` removes no peer's file that it should
keep, if and only if no load reads a file that is empty or gone at that moment
(or the default configuration is one of the peer's own).
-/

namespace RustdeskServer.Configuration.PeerAccess

open RustdeskServer.Framework PeerConfig

/-- A file of the peers' directory. `config` is `none` while the file is empty;
`ino` tells the file apart from others that have been at its path. -/
structure SharedFile where
  ino : ℕ
  config : Option PeerConfig
  modified : ℕ

/-- What a thread that loads goes on with: `load` returns, `peers` goes on with
the file `p` it has loaded for. -/
inductive Return where
  | load
  | peers (p : PathBuf) (time : ℕ) (rest : List PathBuf) (entries : List PeerEntry)

/-- The next operation of a call in progress, a lock or a file operation. -/
inductive Next where
  | storeLock (id : List Char) (config : PeerConfig)
  -- `confy::store_path`, for `store` or, with a default, for a load
  | truncate (id : List Char) (config : PeerConfig) (after : Option Return)
  | write (id : List Char) (config : PeerConfig) (ino : ℕ) (after : Option Return)
  | loadLock (id : List Char) (after : Return)
  | read (id : List Char) (after : Return)
  | readDir
  | isFile (rest : List PathBuf) (entries : List PeerEntry)
  | metadata (p : PathBuf) (rest : List PathBuf) (entries : List PeerEntry)
  | removeFile (p : PathBuf) (rest : List PathBuf) (entries : List PeerEntry)

inductive Request where
  | store (id : List Char) (config : PeerConfig)
  | load (id : List Char)
  | peers

/-- A thread makes a call, or the next operation of the call it has in progress
at the time `now`; `listing` is what `read_dir` lists then. -/
inductive Event (T : Type) where
  | call (thread : T) (request : Request)
  | resume (thread : T) (now : ℕ) (listing : List PathBuf)

/-- The files and the threads. `stored` are the configurations given to `store`,
`loaded` what `load` returned, `removed` the files that `peers` removed and
`listed` what it returned. -/
structure World (T : Type) where
  files : PathBuf → Option SharedFile
  fresh : ℕ
  tasks : T → Option Next
  stored : List (List Char × PeerConfig)
  loaded : List (List Char × PeerConfig)
  removed : List PathBuf
  listed : List (List PeerEntry)

namespace World

variable {T : Type}

def start (files : Files) : World T where
  files p := (files.lookup p).map fun file => ⟨0, some file.config, file.modified⟩
  fresh := 1
  tasks _ := none
  stored := []
  loaded := []
  removed := []
  listed := []

def setFile (w : World T) (p : PathBuf) (file : Option SharedFile) : World T :=
  { w with files := Function.update w.files p file }

/-- Opening a file for writing: it is truncated, or made empty. -/
def truncateFile (w : World T) (p : PathBuf) (now : ℕ) : World T × ℕ :=
  match w.files p with
  | some file => (w.setFile p (some { file with config := none, modified := now }), file.ino)
  | none => ({ w with fresh := w.fresh + 1 }.setFile p (some ⟨w.fresh, none, now⟩), w.fresh)

/-- Writing to the open file: what is written to a file that was removed
meanwhile is gone with it. -/
def writeFile (w : World T) (p : PathBuf) (ino : ℕ) (config : PeerConfig) (now : ℕ) : World T :=
  match w.files p with
  | some file =>
      if file.ino = ino then
        w.setFile p (some { file with config := some config, modified := now })
      else w
  | none => w

variable [DecidableEq T]

/-- The thread's next operation, or the end of its call. -/
def goOn (w : World T) (t : T) (next : Option Next) : World T :=
  { w with tasks := Function.update w.tasks t next }

def request (w : World T) (t : T) : Request → World T
  | .store id config =>
      { w with stored := w.stored ++ [(id, config)] }.goOn t (some (.storeLock id config))
  | .load id => w.goOn t (some (.loadLock id .load))
  | .peers => w.goOn t (some .readDir)

/-- The load of `id` returns `config`. -/
def loads (w : World T) (id : List Char) (config : PeerConfig) : World T :=
  { w with loaded := w.loaded ++ [(id, config)] }

def returned (w : World T) (t : T) (id : List Char) (config : PeerConfig) : Return → World T
  | .load => w.goOn t none
  | .peers p time rest entries =>
      let entries := entries ++ [⟨id, time, config.info⟩]
      w.goOn t (some (if config.info.platform = "" then .removeFile p rest entries
        else .isFile rest entries))

variable (confy : Confy) (dir : PathBuf)

def advance (w : World T) (t : T) (now : ℕ) (listing : List PathBuf) : Next → World T
  -- the guard is dropped at once
  | .storeLock id config => w.goOn t (some (.truncate id config none))
  | .truncate id config after =>
      let (w, ino) := w.truncateFile (path dir id) now
      w.goOn t (some (.write id config ino after))
  | .write id config ino after =>
      let w := w.writeFile (path dir id) ino config now
      match after with
      | none => w.goOn t none
      | some after => w.returned t id config after
  | .loadLock id after => w.goOn t (some (.read id after))
  | .read id after =>
      match w.files (path dir id) with
      | some file =>
          let config := file.config.getD .default
          (w.loads id config).returned t id config after
      | none =>
          let w := w.loads id .default
          if confy.storesDefault then w.goOn t (some (.truncate id .default (some after)))
          else w.returned t id .default after
  | .readDir => w.goOn t (some (.isFile listing []))
  | .isFile [] entries =>
      let entries := (entries.filter fun e => e.info.platform ≠ "").mergeSort
        fun a b => b.time ≤ a.time
      { w with listed := w.listed ++ [entries] }.goOn t none
  | .isFile (p :: rest) entries =>
      w.goOn t (some (if (w.files p).isSome ∧ p.extension = some toml then
        .metadata p rest entries else .isFile rest entries))
  | .metadata p rest entries =>
      let time := ((w.files p).map SharedFile.modified).getD 0
      w.goOn t (some (.loadLock (p.fileStem.getD []) (.peers p time rest entries)))
  | .removeFile p rest entries =>
      let removed := if (w.files p).isSome then w.removed ++ [p] else w.removed
      ({ w with removed }.setFile p none).goOn t (some (.isFile rest entries))

def step (w : World T) : Event T → World T
  | .call t r =>
      match w.tasks t with
      | none => w.request t r
      | some _ => w
  | .resume t now listing =>
      match w.tasks t with
      | none => w
      | some next => w.advance confy dir t now listing next

end World

/-! ## What is asked of a run -/

/-- What a peer's file holds at the start, if there is one. -/
def initialConfig (dir : PathBuf) (files : Files) (id : List Char) : Option PeerConfig :=
  (files.lookup (path dir id)).map PeerFile.config

section
variable {T : Type} (dir : PathBuf) (files : Files) (initial : List Char → Option PeerConfig)

/-- The configuration is the peer's initial one, or was stored under its id. -/
def Own (stored : List (List Char × PeerConfig)) (id : List Char) (config : PeerConfig) : Prop :=
  initial id = some config ∨ (id, config) ∈ stored

/-- All configurations of the peer, the initial one if there is one and those stored,
have a platform. -/
def HasPlatform (stored : List (List Char × PeerConfig)) (id : List Char) : Prop :=
  ∀ config, Own initial stored id config → config.info.platform ≠ ""

/-- Loads have returned configurations of their peers, and no file was removed
of a peer whose configurations all have a platform. -/
structure Kept (ids : Set (List Char)) (w : World T) : Prop where
  loaded : ∀ l ∈ w.loaded, Own initial w.stored l.1 l.2
  removed : ∀ id ∈ ids, HasPlatform initial w.stored id → path dir id ∉ w.removed

/-- A load finds the file there and not empty, unless the default configuration
is the peer's initial one or was stored under its id. -/
def ReadsWhole (w : World T) : Event T → Prop
  | .call _ _ => True
  | .resume t _ _ => ∀ id after, w.tasks t = some (.read id after) →
      (∃ file config, w.files (path dir id) = some file ∧ file.config = some config) ∨
        Own initial w.stored id .default

/-- `read_dir` lists the files of the directory, each once, in some order. -/
structure Listed (w : World T) (listing : List PathBuf) : Prop where
  nodup : listing.Nodup
  mem_iff : ∀ p, p ∈ listing ↔
    (w.files p).isSome ∧ p.parent = some (configPath dir peersName).components

def Request.Names (ids : Set (List Char)) : Request → Prop
  | .store id _ | .load id => id ∈ ids
  | .peers => True

/-- Calls are about these ids, and directories are listed as they are. -/
def Admissible (ids : Set (List Char)) (w : World T) : Event T → Prop
  | .call _ r => r.Names ids
  | .resume t _ listing => w.tasks t = some .readDir → Listed dir w listing

/-- The ids are file names of their own: none has a separator, or a dot after
its first character, and every file of a peer belongs to one of them. -/
structure Named (ids : Set (List Char)) : Prop where
  plain : ∀ id ∈ ids, PathBuf.Plain id
  dotless : ∀ id ∈ ids, Dotless id
  known : ∀ p, p ∈ files → p.parent = some (configPath dir peersName).components →
    p.extension = some toml → ∃ id ∈ ids, p = path dir id

/-! ## The invariant -/

variable (ids : Set (List Char))

/-- The files of peers among these paths have ids. -/
def Owned (ps : List PathBuf) : Prop :=
  ∀ p ∈ ps, p.extension = some toml → ∃ id ∈ ids, p = path dir id

def Return.Sound (id : List Char) : Return → Prop
  | .load => True
  | .peers p _ rest _ => p = path dir id ∧ Owned dir ids rest

/-- What is about to be written is the peer's own, and `peers` is about to
remove a file that had no platform. -/
def Next.Sound (stored : List (List Char × PeerConfig)) : Next → Prop
  | .storeLock id config => id ∈ ids ∧ Own initial stored id config
  | .truncate id config after | .write id config _ after =>
      id ∈ ids ∧ Own initial stored id config ∧
        ∀ ret, after = some ret → ret.Sound dir ids id
  | .loadLock id after | .read id after => id ∈ ids ∧ after.Sound dir ids id
  | .readDir => True
  | .isFile rest _ => Owned dir ids rest
  | .metadata p rest _ => (∃ id ∈ ids, p = path dir id) ∧ Owned dir ids rest
  | .removeFile p rest _ =>
      (∃ id ∈ ids, p = path dir id ∧ ¬ HasPlatform initial stored id) ∧ Owned dir ids rest

/-- Every file of a peer belongs to an id and holds, if it is not empty, a
configuration of that peer. -/
structure World.Sound (w : World T) : Prop where
  owned : ∀ p, (w.files p).isSome → p.parent = some (configPath dir peersName).components →
    p.extension = some toml → ∃ id ∈ ids, p = path dir id
  own : ∀ id ∈ ids, ∀ file config, w.files (path dir id) = some file →
    file.config = some config → Own initial w.stored id config
  tasks : ∀ t next, w.tasks t = some next → next.Sound dir initial ids w.stored

variable {dir files initial ids}

theorem Own.mono {stored : List (List Char × PeerConfig)} {id : List Char}
    {config : PeerConfig} (h : Own initial stored id config)
    (more : List (List Char × PeerConfig)) : Own initial (stored ++ more) id config :=
  h.imp_right (List.mem_append_left more)

theorem HasPlatform.of_append {stored more : List (List Char × PeerConfig)} {id : List Char}
    (h : HasPlatform initial (stored ++ more) id) : HasPlatform initial stored id :=
  fun config hown => h config (hown.mono more)

theorem Next.Sound.mono {stored : List (List Char × PeerConfig)} {next : Next}
    (h : next.Sound dir initial ids stored) (more : List (List Char × PeerConfig)) :
    next.Sound dir initial ids (stored ++ more) := by
  cases next with
  | storeLock id config => exact ⟨h.1, h.2.mono more⟩
  | truncate id config after | write id config ino after => exact ⟨h.1, h.2.1.mono more, h.2.2⟩
  | loadLock id after | read id after => exact h
  | readDir => trivial
  | isFile rest entries | metadata p rest entries => exact h
  | removeFile p rest entries =>
      obtain ⟨⟨id, hid, hp, hnone⟩, hrest⟩ := h
      exact ⟨⟨id, hid, hp, fun hall => hnone hall.of_append⟩, hrest⟩

namespace World

variable {w : World T}

/-! ## What the operations leave alone -/

/-- The history is the same. -/
structure SameHistory (w w' : World T) : Prop where
  stored : w'.stored = w.stored
  loaded : w'.loaded = w.loaded
  removed : w'.removed = w.removed

theorem SameHistory.kept {w' : World T} (hsame : SameHistory w w') (h : Kept dir initial ids w) :
    Kept dir initial ids w' := by
  obtain ⟨hstored, hloaded, hremoved⟩ := hsame
  constructor
  · rw [hstored, hloaded]
    exact h.loaded
  · rw [hstored, hremoved]
    exact h.removed

theorem SameHistory.trans {w₁ w₂ w₃ : World T} (h : SameHistory w₁ w₂) (h' : SameHistory w₂ w₃) :
    SameHistory w₁ w₃ :=
  ⟨h'.stored.trans h.stored, h'.loaded.trans h.loaded, h'.removed.trans h.removed⟩

theorem sameHistory_goOn [DecidableEq T] (w : World T) (t : T) (next : Option Next) :
    SameHistory w (w.goOn t next) := ⟨rfl, rfl, rfl⟩

theorem sameHistory_returned [DecidableEq T] (w : World T) (t : T) (id : List Char)
    (config : PeerConfig) (after : Return) : SameHistory w (w.returned t id config after) := by
  cases after <;> exact ⟨rfl, rfl, rfl⟩

theorem sameHistory_truncateFile (w : World T) (p : PathBuf) (now : ℕ) :
    SameHistory w (w.truncateFile p now).1 := by
  unfold World.truncateFile
  split <;> exact ⟨rfl, rfl, rfl⟩

theorem sameHistory_writeFile (w : World T) (p : PathBuf) (ino : ℕ) (config : PeerConfig)
    (now : ℕ) : SameHistory w (w.writeFile p ino config now) := by
  unfold World.writeFile
  split
  · split <;> exact ⟨rfl, rfl, rfl⟩
  · exact ⟨rfl, rfl, rfl⟩

/-! ## What the operations keep -/

theorem Sound.goOn [DecidableEq T] (h : w.Sound dir initial ids) (t : T) {next : Option Next}
    (hnext : ∀ n, next = some n → n.Sound dir initial ids w.stored) :
    (w.goOn t next).Sound dir initial ids where
  owned := h.owned
  own := h.own
  tasks t' n ht' := by
    change Function.update w.tasks t next t' = some n at ht'
    by_cases htt : t' = t
    · rw [htt, Function.update_self] at ht'
      exact hnext n ht'
    · rw [Function.update_of_ne htt] at ht'
      exact h.tasks t' n ht'

theorem setFile_self (w : World T) (p : PathBuf) (file : Option SharedFile) :
    (w.setFile p file).files p = file := Function.update_self ..

theorem setFile_ne (w : World T) {p q : PathBuf} (h : q ≠ p) (file : Option SharedFile) :
    (w.setFile p file).files q = w.files q := Function.update_of_ne h ..

/-- A file of a peer is changed, or removed. -/
theorem Sound.setFile (hnamed : Named dir files ids) (h : w.Sound dir initial ids) {id : List Char}
    (hid : id ∈ ids) {file : Option SharedFile}
    (hfile : ∀ f config, file = some f → f.config = some config →
      Own initial w.stored id config) : (w.setFile (path dir id) file).Sound dir initial ids where
  owned p hp hparent hext := by
    by_cases heq : p = path dir id
    · exact ⟨id, hid, heq⟩
    · rw [setFile_ne w heq] at hp
      exact h.owned p hp hparent hext
  own id' hid' f config hf hconfig := by
    by_cases heq : path dir id' = path dir id
    · rw [heq, setFile_self] at hf
      obtain rfl := path_injective dir (hnamed.plain id' hid') (hnamed.plain id hid)
        (hnamed.dotless id' hid') (hnamed.dotless id hid) heq
      exact hfile f config hf hconfig
    · rw [setFile_ne w heq] at hf
      exact h.own id' hid' f config hf hconfig
  tasks := h.tasks

theorem Sound.truncateFile (hnamed : Named dir files ids) (h : w.Sound dir initial ids)
    {id : List Char} (hid : id ∈ ids) (now : ℕ) :
    (w.truncateFile (path dir id) now).1.Sound dir initial ids := by
  unfold World.truncateFile
  split
  · exact h.setFile hnamed hid (by rintro f config ⟨⟩ ⟨⟩)
  · have hfresh : Sound dir initial ids { w with fresh := w.fresh + 1 } := ⟨h.owned, h.own, h.tasks⟩
    exact hfresh.setFile hnamed hid (by rintro f config ⟨⟩ ⟨⟩)

theorem Sound.writeFile (hnamed : Named dir files ids) (h : w.Sound dir initial ids)
    {id : List Char} (hid : id ∈ ids) (ino : ℕ) {config : PeerConfig}
    (hown : Own initial w.stored id config) (now : ℕ) :
    (w.writeFile (path dir id) ino config now).Sound dir initial ids := by
  unfold World.writeFile
  split
  · split
    · refine h.setFile hnamed hid ?_
      rintro f config' ⟨⟩ ⟨⟩
      exact hown
    · exact h
  · exact h

theorem Sound.loads (h : w.Sound dir initial ids) (id : List Char) (config : PeerConfig) :
    (w.loads id config).Sound dir initial ids := ⟨h.owned, h.own, h.tasks⟩

theorem Sound.returned [DecidableEq T] (h : w.Sound dir initial ids) (t : T) {id : List Char}
    (hid : id ∈ ids) {config : PeerConfig} (hown : Own initial w.stored id config)
    {after : Return} (hafter : after.Sound dir ids id) :
    (w.returned t id config after).Sound dir initial ids := by
  cases after with
  | load => exact h.goOn t (by rintro n ⟨⟩)
  | peers p time rest entries =>
      refine h.goOn t ?_
      rintro n ⟨⟩
      split
      · rename_i hnone
        exact ⟨⟨id, hid, hafter.1, fun hall => hall config hown hnone⟩, hafter.2⟩
      · exact hafter.2

/-! ## One operation -/

theorem Sound.request [DecidableEq T] (h : w.Sound dir initial ids) (t : T) {r : Request}
    (hr : r.Names ids) : (w.request t r).Sound dir initial ids := by
  cases r with
  | store id config =>
      have hstored : Sound dir initial ids { w with stored := w.stored ++ [(id, config)] } :=
        ⟨h.owned, fun id' hid' file config' hf hc => (h.own id' hid' file config' hf hc).mono _,
          fun t' n ht' => (h.tasks t' n ht').mono _⟩
      refine hstored.goOn t ?_
      rintro n ⟨⟩
      exact ⟨hr, Or.inr (List.mem_append_right _ (List.mem_singleton_self _))⟩
  | load id =>
      refine h.goOn t ?_
      rintro n ⟨⟩
      exact ⟨hr, trivial⟩
  | peers =>
      refine h.goOn t ?_
      rintro n ⟨⟩
      trivial

theorem kept_request [DecidableEq T] (h : Kept dir initial ids w) (t : T) (r : Request) :
    Kept dir initial ids (w.request t r) := by
  cases r with
  | store id config =>
      exact ⟨fun l hl => (h.loaded l hl).mono _,
        fun id' hid' hall => h.removed id' hid' hall.of_append⟩
  | load id => exact (sameHistory_goOn w t _).kept h
  | peers => exact (sameHistory_goOn w t _).kept h

/-- A load is right exactly when what it read is the peer's own. -/
theorem kept_loads_iff (h : Kept dir initial ids w) (id : List Char) (config : PeerConfig) :
    Kept dir initial ids (w.loads id config) ↔ Own initial w.stored id config := by
  constructor
  · intro hkept
    exact hkept.loaded (id, config) (List.mem_append_right _ (List.mem_singleton_self _))
  · intro hown
    refine ⟨fun l hl => ?_, h.removed⟩
    rcases List.mem_append.mp hl with hl | hl
    · exact h.loaded l hl
    · cases List.mem_singleton.mp hl
      exact hown

theorem SameHistory.kept_iff {w' : World T} (hsame : SameHistory w w') :
    Kept dir initial ids w' ↔ Kept dir initial ids w :=
  ⟨SameHistory.kept ⟨hsame.stored.symm, hsame.loaded.symm, hsame.removed.symm⟩, hsame.kept⟩

theorem fileStem_owned (hnamed : Named dir files ids) {id : List Char} (hid : id ∈ ids) :
    (path dir id).fileStem.getD [] = id := by
  rw [fileStem_path dir (hnamed.plain id hid), Option.getD_some,
    (PathBuf.stem_eq_self_iff id).mpr (hnamed.dotless id hid)]

variable [DecidableEq T] {confy : Confy}

theorem advance_read_some {w : World T} {id : List Char} {file : SharedFile}
    (h : w.files (path dir id) = some file) (t : T) (now : ℕ) (listing : List PathBuf)
    (after : Return) :
    w.advance confy dir t now listing (.read id after) =
      (w.loads id (file.config.getD .default)).returned t id (file.config.getD .default) after := by
  simp only [World.advance, h]

theorem advance_read_none {w : World T} {id : List Char} (h : w.files (path dir id) = none)
    (t : T) (now : ℕ) (listing : List PathBuf) (after : Return) :
    w.advance confy dir t now listing (.read id after) =
      if confy.storesDefault then
        (w.loads id .default).goOn t (some (.truncate id .default (some after)))
      else (w.loads id .default).returned t id .default after := by
  simp only [World.advance, h]

/-- What a `read` leaves: the history has the configuration that was read. -/
theorem sameHistory_read (confy : Confy) (dir : PathBuf) (w : World T) (t : T) (now : ℕ)
    (listing : List PathBuf) (id : List Char) (after : Return) :
    SameHistory (w.loads id (((w.files (path dir id)).bind SharedFile.config).getD .default))
      (w.advance confy dir t now listing (.read id after)) := by
  cases hfile : w.files (path dir id) with
  | some file =>
      rw [advance_read_some hfile]
      exact sameHistory_returned _ t id _ after
  | none =>
      rw [advance_read_none hfile]
      split
      · exact sameHistory_goOn _ t _
      · exact sameHistory_returned _ t id _ after

theorem kept_read_iff (h : w.Sound dir initial ids) (hk : Kept dir initial ids w) (t : T) (now : ℕ)
    (listing : List PathBuf) {id : List Char} (hid : id ∈ ids) (after : Return) :
    Kept dir initial ids (w.advance confy dir t now listing (.read id after)) ↔
      (∃ file config, w.files (path dir id) = some file ∧ file.config = some config) ∨
        Own initial w.stored id .default := by
  rw [(sameHistory_read confy dir w t now listing id after).kept_iff, kept_loads_iff hk]
  cases hfile : w.files (path dir id) with
  | none => simp
  | some file =>
      cases hconfig : file.config with
      | none => simp [hconfig]
      | some config =>
          have hown := h.own id hid file config hfile hconfig
          simp [hconfig, hown]

/-- Any other operation returns nothing, and removes what had no platform. -/
theorem kept_other (hnamed : Named dir files ids) (hk : Kept dir initial ids w) (t : T) (now : ℕ)
    (listing : List PathBuf) {next : Next} (hnext : next.Sound dir initial ids w.stored)
    (hread : ∀ id after, next ≠ .read id after) :
    Kept dir initial ids (w.advance confy dir t now listing next) := by
  cases next with
  | read id after => exact absurd rfl (hread id after)
  | storeLock | loadLock | readDir | metadata => exact (sameHistory_goOn w t _).kept hk
  | truncate id config after =>
      exact ((sameHistory_truncateFile w _ now).trans (sameHistory_goOn _ t _)).kept hk
  | write id config ino after =>
      have hwritten := sameHistory_writeFile w (path dir id) ino config now
      cases after with
      | none => exact (hwritten.trans (sameHistory_goOn _ t _)).kept hk
      | some after => exact (hwritten.trans (sameHistory_returned _ t id config after)).kept hk
  | isFile rest entries =>
      cases rest with
      | nil =>
          have hsame : SameHistory w (w.advance confy dir t now listing (.isFile [] entries)) :=
            ⟨rfl, rfl, rfl⟩
          exact hsame.kept hk
      | cons p rest => exact (sameHistory_goOn w t _).kept hk
  | removeFile p rest entries =>
      obtain ⟨⟨id, hid, rfl, hnone⟩, -⟩ := hnext
      refine ⟨hk.loaded, fun id' hid' hall hmem => ?_⟩
      change path dir id' ∈ (if _ then w.removed ++ [path dir id] else w.removed) at hmem
      have hbefore := hk.removed id' hid' hall
      split at hmem
      · rcases List.mem_append.mp hmem with hmem | hmem
        · exact hbefore hmem
        · obtain rfl := path_injective dir (hnamed.plain id' hid') (hnamed.plain id hid)
            (hnamed.dotless id' hid') (hnamed.dotless id hid) (List.mem_singleton.mp hmem)
          exact hnone hall
      · exact hbefore hmem

theorem Sound.read (h : w.Sound dir initial ids) (t : T) (now : ℕ) (listing : List PathBuf)
    {id : List Char} (hid : id ∈ ids) {after : Return}
    (hafter : after.Sound dir ids id)
    (hkept : Kept dir initial ids (w.advance confy dir t now listing (.read id after))) :
    (w.advance confy dir t now listing (.read id after)).Sound dir initial ids := by
  have hsame := sameHistory_read confy dir w t now listing id after
  have hown : Own initial w.stored id
      (((w.files (path dir id)).bind SharedFile.config).getD .default) := by
    have hloaded := (hsame.kept_iff.mp hkept).loaded
    exact hloaded (id, _) (List.mem_append_right _ (List.mem_singleton_self _))
  cases hfile : w.files (path dir id) with
  | some file =>
      rw [hfile] at hown
      rw [advance_read_some hfile]
      exact (h.loads id _).returned t hid hown hafter
  | none =>
      rw [hfile] at hown
      rw [advance_read_none hfile]
      split
      · refine (h.loads id _).goOn t ?_
        rintro n ⟨⟩
        refine ⟨hid, hown, ?_⟩
        rintro ret ⟨⟩
        exact hafter
      · exact (h.loads id _).returned t hid hown hafter

theorem Sound.other (hnamed : Named dir files ids) (h : w.Sound dir initial ids) (t : T) (now : ℕ)
    {listing : List PathBuf} {next : Next} (hnext : next.Sound dir initial ids w.stored)
    (hread : ∀ id after, next ≠ .read id after)
    (hlisted : next = .readDir → Listed dir w listing) :
    (w.advance confy dir t now listing next).Sound dir initial ids := by
  cases next with
  | read id after => exact absurd rfl (hread id after)
  | storeLock id config =>
      refine h.goOn t ?_
      rintro n ⟨⟩
      exact ⟨hnext.1, hnext.2, by rintro ret ⟨⟩⟩
  | truncate id config after =>
      refine (h.truncateFile hnamed hnext.1 now).goOn t ?_
      rintro n ⟨⟩
      rw [(sameHistory_truncateFile w (path dir id) now).stored]
      exact hnext
  | write id config ino after =>
      obtain ⟨hid, hown, hafter⟩ := hnext
      have hwritten := h.writeFile hnamed hid ino hown now
      rw [← (sameHistory_writeFile w (path dir id) ino config now).stored] at hown
      cases after with
      | none => exact hwritten.goOn t (by rintro n ⟨⟩)
      | some after => exact hwritten.returned t hid hown (hafter after rfl)
  | loadLock id after =>
      refine h.goOn t ?_
      rintro n ⟨⟩
      exact hnext
  | readDir =>
      refine h.goOn t ?_
      rintro n ⟨⟩ p hp hext
      obtain ⟨hexists, hparent⟩ := ((hlisted rfl).mem_iff p).mp hp
      exact h.owned p hexists hparent hext
  | isFile rest entries =>
      cases rest with
      | nil =>
          have hlist : ∀ listed, Sound dir initial ids { w with listed } :=
            fun _ => ⟨h.owned, h.own, h.tasks⟩
          exact (hlist _).goOn t (by rintro n ⟨⟩)
      | cons p rest =>
          have hrest : Owned dir ids rest := fun q hq => hnext q (List.mem_cons_of_mem _ hq)
          refine h.goOn t ?_
          rintro n ⟨⟩
          split
          · rename_i hfile
            exact ⟨hnext p List.mem_cons_self hfile.2, hrest⟩
          · exact hrest
  | metadata p rest entries =>
      obtain ⟨⟨id, hid, rfl⟩, hrest⟩ := hnext
      refine h.goOn t ?_
      rintro n ⟨⟩
      -- the file is loaded under the id it is named by
      rw [fileStem_owned hnamed hid]
      exact ⟨hid, rfl, hrest⟩
  | removeFile p rest entries =>
      obtain ⟨⟨id, hid, rfl, -⟩, hrest⟩ := hnext
      have hremoved : ∀ removed, Sound dir initial ids { w with removed } :=
        fun _ => ⟨h.owned, h.own, h.tasks⟩
      refine ((hremoved _).setFile hnamed hid (by rintro f config ⟨⟩)).goOn t ?_
      rintro n ⟨⟩
      exact hrest

/-! ## One step -/

theorem Next.isRead (next : Next) :
    (∃ id after, next = .read id after) ∨ ∀ id after, next ≠ .read id after := by
  cases next with
  | read id after => exact Or.inl ⟨id, after, rfl⟩
  | _ => exact Or.inr nofun

theorem step_busy {t : T} {next : Next} (ht : w.tasks t = some next) (r : Request) :
    w.step confy dir (.call t r) = w := by
  simp only [World.step, ht]

theorem step_call {t : T} (ht : w.tasks t = none) (r : Request) :
    w.step confy dir (.call t r) = w.request t r := by
  simp only [World.step, ht]

theorem step_idle {t : T} (ht : w.tasks t = none) (now : ℕ) (listing : List PathBuf) :
    w.step confy dir (.resume t now listing) = w := by
  simp only [World.step, ht]

theorem step_resume {t : T} {next : Next} (ht : w.tasks t = some next) (now : ℕ)
    (listing : List PathBuf) :
    w.step confy dir (.resume t now listing) = w.advance confy dir t now listing next := by
  simp only [World.step, ht]

theorem kept_step_iff (hnamed : Named dir files ids) (h : w.Sound dir initial ids)
    (hk : Kept dir initial ids w) (e : Event T) :
    Kept dir initial ids (w.step confy dir e) ↔ ReadsWhole dir initial w e := by
  cases e with
  | call t r =>
      refine ⟨fun _ => trivial, fun _ => ?_⟩
      cases ht : w.tasks t with
      | none =>
          rw [step_call ht]
          exact kept_request hk t r
      | some next =>
          rw [step_busy ht]
          exact hk
  | resume t now listing =>
      cases ht : w.tasks t with
      | none =>
          rw [step_idle ht]
          refine ⟨fun _ id after heq => ?_, fun _ => hk⟩
          rw [ht] at heq
          cases heq
      | some next =>
          rw [step_resume ht]
          simp only [ReadsWhole, ht]
          rcases Next.isRead next with ⟨id, after, rfl⟩ | hread
          · rw [kept_read_iff h hk t now listing (h.tasks t _ ht).1 after]
            constructor
            · rintro hwhole _ _ ⟨⟩
              exact hwhole
            · intro hall
              exact hall id after rfl
          · refine ⟨fun _ id after heq => ?_, fun _ => ?_⟩
            · exact absurd (Option.some.inj heq) (hread id after)
            · exact kept_other hnamed hk t now listing (h.tasks t next ht) hread

theorem Sound.step (hnamed : Named dir files ids) (h : w.Sound dir initial ids) {e : Event T}
    (hadm : Admissible dir ids w e) (hkept : Kept dir initial ids (w.step confy dir e)) :
    (w.step confy dir e).Sound dir initial ids := by
  cases e with
  | call t r =>
      cases ht : w.tasks t with
      | none =>
          rw [step_call ht]
          exact h.request t hadm
      | some next =>
          rw [step_busy ht]
          exact h
  | resume t now listing =>
      cases ht : w.tasks t with
      | none =>
          rw [step_idle ht]
          exact h
      | some next =>
          have hnext := h.tasks t next ht
          rw [step_resume ht] at hkept ⊢
          rcases Next.isRead next with ⟨id, after, rfl⟩ | hread
          · exact h.read t now listing hnext.1 hnext.2 hkept
          · exact h.other hnamed t now hnext hread fun heq => hadm (heq ▸ ht)

/-! ## Runs -/

/-- The same for anything that is taken for the peers' configurations at the start, if
only it is what their files hold: a peer without a file may have none, or the default
one, which is what a load of it gives. -/
theorem access_iff (confy : Confy) (hnamed : Named dir files ids)
    (hinitial : ∀ id ∈ ids, ∀ file, files.lookup (path dir id) = some file →
      initial id = some file.config)
    {events : List (Event T)}
    (hevents : Along (step confy dir) (Admissible dir ids) (start files) events) :
    Always (step confy dir) (Kept dir initial ids) (start files) events ↔
      Along (step confy dir) (ReadsWhole dir initial) (start files) events := by
  have hsound : (start (T := T) files).Sound dir initial ids := by
    refine ⟨fun p hp hparent hext => ?_, fun id hid file config hfile hconfig => ?_,
      fun t next ht => ?_⟩
    · refine hnamed.known p ?_ hparent hext
      rw [← Finmap.lookup_isSome]
      rwa [start, Option.isSome_map] at hp
    · obtain ⟨f, hf, rfl⟩ := Option.map_eq_some_iff.mp hfile
      obtain rfl := Option.some.inj hconfig
      exact Or.inl (hinitial id hid f hf)
    · cases ht
  have hkept : Kept dir initial ids (start (T := T) files) := by
    constructor
    · intro l hl
      cases hl
    · intro id _ _ hmem
      cases hmem
  refine always_iff_along_of_kept (B := World.Sound dir initial ids) ?_ ?_ hevents hsound hkept
  · intro w e h hadm hkept'
    exact h.step hnamed hadm hkept'
  · intro w e h _ hk
    exact kept_step_iff hnamed h hk e

/-- **What the threads can do to each other.** Take any threads that load, store
and list the configurations of peers with ids of their own, any files at the
start and any interleaving. All loads return configurations of their peers, and
`peers` removes no file of a peer whose configurations have a platform, if and
only if no load finds a file empty or gone, unless the default configuration is
one of the peer's. A peer without a file has the configurations that were stored. -/
theorem peer_access_iff (T : Type) [DecidableEq T] (confy : Confy) (dir : PathBuf)
    (files : Files) (ids : Set (List Char)) (hnamed : Named dir files ids)
    (events : List (Event T))
    (hevents : Along (step confy dir) (Admissible dir ids) (start files) events) :
    Always (step confy dir) (Kept dir (initialConfig dir files) ids) (start files) events ↔
      Along (step confy dir) (ReadsWhole dir (initialConfig dir files)) (start files) events := by
  refine access_iff confy hnamed ?_ hevents
  intro id _ file hfile
  rw [initialConfig, hfile, Option.map_some]

/-- A peer with a number for an id, and its file. -/
def numeric : List Char := "123456789".toList

def numericFile : Files :=
  (∅ : Files).insert (path "/c".toList numeric) ⟨onLinux, 5⟩

/-- A peer without a file. -/
def newcomer : List Char := "987654321".toList

theorem numeric_named : Named "/c".toList numericFile {numeric, newcomer} where
  plain := by
    rintro id (rfl | rfl)
    · exact ⟨by decide, by decide, by decide, by decide⟩
    · exact ⟨by decide, by decide, by decide, by decide⟩
  dotless := by
    rintro id (rfl | rfl)
    · exact (by decide : '.' ∉ numeric.tail)
    · exact (by decide : '.' ∉ newcomer.tail)
  known p hp _ _ := by
    rcases Finmap.mem_insert.mp hp with hp | hp
    · exact ⟨numeric, Or.inl rfl, hp⟩
    · exact absurd hp Finmap.notMem_empty

def bothFiles : List PathBuf := [path "/c".toList numeric, path "/c".toList newcomer]

omit [DecidableEq T] in
theorem listed_both {w : World T} (hin : ∀ p ∈ bothFiles, (w.files p).isSome)
    (hout : ∀ p, p ∉ bothFiles → w.files p = none) : Listed "/c".toList w bothFiles where
  nodup := by decide
  mem_iff p := by
    have hparent : ∀ p ∈ bothFiles,
        p.parent = some (configPath "/c".toList peersName).components := by decide
    constructor
    · exact fun hp => ⟨hin p hp, hparent p hp⟩
    · rintro ⟨hfile, -⟩
      by_contra hp
      rw [hout p hp] at hfile
      cases hfile

/-- One thread stores the newcomer and then the other peer again, one loads both, and
one lists them. -/
def threeThreads : List (Event (Fin 3)) :=
  [.call 0 (.store newcomer onLinux), .call 1 (.load numeric), .resume 0 6 [], .resume 1 6 [],
    .resume 0 6 [], .resume 1 6 [], .call 2 .peers, .resume 0 7 [], .call 1 (.load newcomer),
    .resume 2 7 bothFiles, .call 0 (.store numeric onLinux), .resume 2 7 [], .resume 1 7 [],
    .resume 2 7 [], .resume 1 7 [], .resume 2 7 [], .resume 0 7 [], .resume 2 7 [],
    .resume 0 8 [], .resume 2 8 [], .resume 2 8 [], .resume 2 8 [], .resume 2 8 [],
    .resume 0 8 [], .resume 2 8 []]

theorem threeThreads_admissible :
    Along (step ⟨true⟩ "/c".toList) (Admissible "/c".toList {numeric, newcomer})
      (start numericFile) threeThreads := by
  refine ⟨Or.inr rfl, Or.inl rfl, nofun, nofun, nofun, nofun, trivial, nofun, Or.inr rfl,
    fun _ => listed_both ?_ ?_, Or.inl rfl, nofun, nofun, nofun, nofun, nofun, nofun, nofun,
    nofun, nofun, nofun, nofun, nofun, nofun, nofun, trivial⟩
  · decide
  · intro p hp
    have hnumeric : p ≠ path "/c".toList numeric := fun heq => hp (heq ▸ by decide)
    have hnewcomer : p ≠ path "/c".toList newcomer := fun heq => hp (heq ▸ by decide)
    change Function.update (Function.update (start (T := Fin 3) numericFile).files
      (path "/c".toList newcomer) (some ⟨1, none, 6⟩)) (path "/c".toList newcomer)
      (some ⟨1, some onLinux, 7⟩) p = none
    rw [Function.update_of_ne hnewcomer, Function.update_of_ne hnewcomer]
    show (numericFile.lookup p).map _ = none
    rw [numericFile, Finmap.lookup_insert_of_ne _ hnumeric, Finmap.lookup_empty]
    rfl

/-- Everything is loaded as it was stored, and nothing is removed. -/
theorem peer_access_iff_three :
    Named "/c".toList numericFile {numeric, newcomer} ∧
      Along (step ⟨true⟩ "/c".toList) (Admissible "/c".toList {numeric, newcomer})
        (start numericFile) threeThreads ∧
      (Always (step ⟨true⟩ "/c".toList)
          (Kept "/c".toList (initialConfig "/c".toList numericFile) {numeric, newcomer})
          (start numericFile) threeThreads ↔
        Along (step ⟨true⟩ "/c".toList)
          (ReadsWhole "/c".toList (initialConfig "/c".toList numericFile))
          (start numericFile) threeThreads) ∧
      (threeThreads.foldl (step ⟨true⟩ "/c".toList) (start numericFile)).loaded =
        [(numeric, onLinux), (newcomer, onLinux), (numeric, onLinux), (newcomer, onLinux)] ∧
      (threeThreads.foldl (step ⟨true⟩ "/c".toList) (start numericFile)).removed = [] :=
  ⟨numeric_named, threeThreads_admissible,
    peer_access_iff (Fin 3) ⟨true⟩ "/c".toList numericFile {numeric, newcomer} numeric_named _
      threeThreads_admissible, by decide, by decide⟩

/-- One thread stores a peer's configuration and has truncated the file; another one
lists the peers. -/
def listedMeanwhile (id : List Char) : List (Event Bool) :=
  [.call false (.store id onLinux), .resume false 6 [], .resume false 6 [],
    .call true .peers, .resume true 7 [path "/c".toList id], .resume true 7 [],
    .resume true 7 [], .resume true 7 [], .resume true 7 [], .resume true 7 [],
    .resume false 8 []]

/-- The file of a peer with a platform is removed, after its load has returned the
default configuration, which was never stored. -/
theorem listing_removes_peer :
    ((listedMeanwhile numeric).foldl (step ⟨true⟩ "/c".toList) (start numericFile)).stored =
        [(numeric, onLinux)] ∧
      initialConfig "/c".toList numericFile numeric = some onLinux ∧
      ((listedMeanwhile numeric).foldl (step ⟨true⟩ "/c".toList) (start numericFile)).loaded =
        [(numeric, .default)] ∧
      ((listedMeanwhile numeric).foldl (step ⟨true⟩ "/c".toList) (start numericFile)).removed =
        [path "/c".toList numeric] ∧
      ¬ Always (step ⟨true⟩ "/c".toList)
        (Kept "/c".toList (initialConfig "/c".toList numericFile) {numeric})
        (start numericFile) (listedMeanwhile numeric) := by
  have hstored : ((listedMeanwhile numeric).foldl (step ⟨true⟩ "/c".toList)
      (start numericFile)).stored = [(numeric, onLinux)] := by decide
  have hinitial : initialConfig "/c".toList numericFile numeric = some onLinux := by decide
  have hloaded : ((listedMeanwhile numeric).foldl (step ⟨true⟩ "/c".toList)
      (start numericFile)).loaded = [(numeric, .default)] := by decide
  have hremoved : ((listedMeanwhile numeric).foldl (step ⟨true⟩ "/c".toList)
      (start numericFile)).removed = [path "/c".toList numeric] := by decide
  refine ⟨hstored, hinitial, hloaded, hremoved, fun hall => ?_⟩
  have hkept := (hall.final (listedMeanwhile numeric)).removed numeric rfl
  rw [hremoved, hstored] at hkept
  refine hkept ?_ (List.mem_singleton_self _)
  have hplatform : onLinux.info.platform ≠ "" := by decide
  rintro config (hsame | hmem)
  · rw [hinitial] at hsame
    cases hsame
    exact hplatform
  · cases List.mem_singleton.mp hmem
    exact hplatform

/-- A peer that is stored for the first time is lost in the same way. -/
example : ((listedMeanwhile newcomer).foldl (step ⟨true⟩ "/c".toList) (start ∅)).files
      (path "/c".toList newcomer) = none ∧
    ((listedMeanwhile newcomer).foldl (step ⟨true⟩ "/c".toList) (start ∅)).removed =
      [path "/c".toList newcomer] := by decide

end World

end

end RustdeskServer.Configuration.PeerAccess
