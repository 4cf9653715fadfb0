import RustdeskServer.Configuration.Config
import RustdeskServer.Framework.Path

/-!
# Peer configurations (`config.rs`)

Every peer has a file of its own in the directory `peers`, named by its id with
the extension `toml`; `with_extension` replaces what follows the last dot of
the id, if there is one. `Confy` is the library that reads and writes the
files: a file holds the record last stored under its path, and reading a
missing file gives the default record, which the library may also store.
-/

namespace RustdeskServer.Configuration

open RustdeskServer.Framework RustdeskServer.Codec

structure PeerInfoSerde where
  username : String
  hostname : String
  platform : String
deriving DecidableEq

structure PeerConfig where
  password : Bytes
  size : Size
  sizeFt : Size
  sizePf : Size
  viewStyle : String -- original (default), scale
  imageQuality : String
  customImageQuality : List Int
  showRemoteCursor : Bool
  lockAfterSessionEnd : Bool
  privacyMode : Bool
  portForwards : List (Int × String × Int)
  directFailures : Int
  disableAudio : Bool
  disableClipboard : Bool
  options : HashMap String
  info : PeerInfoSerde
deriving DecidableEq

def PeerConfig.default : PeerConfig :=
  ⟨[], (0, 0, 0, 0), (0, 0, 0, 0), (0, 0, 0, 0), "", "", [], false, false, false, [], 0, false,
    false, ∅, ⟨"", "", ""⟩⟩

structure PeerFile where
  config : PeerConfig
  modified : ℕ
deriving DecidableEq

/-- The files the process sees, by their paths. -/
abbrev Files : Type := Finmap fun _ : PathBuf => PeerFile

/-- The library's one choice: whether reading a missing file stores a default. -/
structure Confy where
  storesDefault : Bool

def Confy.loadPath (confy : Confy) (files : Files) (path : PathBuf) (now : ℕ) :
    PeerConfig × Files :=
  match files.lookup path with
  | some file => (file.config, files)
  | none =>
      (.default, if confy.storesDefault then files.insert path ⟨.default, now⟩ else files)

namespace PeerConfig

/-- `Config::path`, given the project's directory. -/
def configPath (dir p : PathBuf) : PathBuf := dir.join p

def peersName : PathBuf := "peers".toList

def toml : List Char := "toml".toList

def path (dir : PathBuf) (id : List Char) : PathBuf :=
  (configPath dir (peersName.join id)).withExtension toml

def load (confy : Confy) (dir : PathBuf) (files : Files) (id : List Char) (now : ℕ) :
    PeerConfig × Files :=
  confy.loadPath files (path dir id) now

def store (dir : PathBuf) (files : Files) (id : List Char) (config : PeerConfig) (now : ℕ) :
    Files :=
  files.insert (path dir id) ⟨config, now⟩

def remove (dir : PathBuf) (files : Files) (id : List Char) : Files :=
  files.erase (path dir id)

structure PeerEntry where
  id : List Char
  time : ℕ
  info : PeerInfoSerde
deriving DecidableEq

/-- The loop of `peers` over the directory. -/
def peersLoop (confy : Confy) (dir : PathBuf) (now : ℕ) :
    List PathBuf → Files → List PeerEntry × Files
  | [], files => ([], files)
  | p :: ps, files =>
      match files.lookup p with
      | none => peersLoop confy dir now ps files
      | some file =>
          if p.extension = some toml then
            let id := p.fileStem.getD []
            let (config, files) := load confy dir files id now
            let files := if config.info.platform = "" then files.erase p else files
            let (rest, files) := peersLoop confy dir now ps files
            (⟨id, file.modified, config.info⟩ :: rest, files)
          else peersLoop confy dir now ps files

/-- `peers`, given what `read_dir` lists. -/
def peers (confy : Confy) (dir : PathBuf) (files : Files) (listing : List PathBuf) (now : ℕ) :
    List PeerEntry × Files :=
  let (entries, files) := peersLoop confy dir now listing files
  ((entries.filter fun e => e.info.platform ≠ "").mergeSort fun a b => b.time ≤ a.time, files)

/-- `read_dir` lists the files of the peers' directory, each once, in some order. -/
structure Lists (dir : PathBuf) (files : Files) (listing : List PathBuf) : Prop where
  nodup : listing.Nodup
  mem : ∀ p, p ∈ listing ↔
    p ∈ files ∧ p.parent = some (configPath dir peersName).components

end PeerConfig

inductive PeerCall where
  | store (id : List Char) (config : PeerConfig) (now : ℕ)
  | remove (id : List Char)
  | load (id : List Char) (now : ℕ)

namespace PeerCall

def id : PeerCall → List Char
  | .store id _ _ | .remove id | .load id _ => id

def step (confy : Confy) (dir : PathBuf) (files : Files) : PeerCall → Files
  | .store id config now => PeerConfig.store dir files id config now
  | .remove id => PeerConfig.remove dir files id
  | .load id now => (PeerConfig.load confy dir files id now).2

end PeerCall

end RustdeskServer.Configuration
