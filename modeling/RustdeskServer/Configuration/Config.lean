import RustdeskServer.Codec.BytesCodec
import Mathlib.Data.Finmap

/-!
# The configuration store (`config.rs`)

Two records are kept in memory (`CONFIG`, `CONFIG2`) and in two files, and one
map in memory only (`ONLINE`). Most mutators have one shape: compare, and if
something changes, change it and write the file; they are instances of
`updateConfig` and `updateConfig2`. `set_option` compares one thing and changes
two, and keeps its own body.

A `HashMap` is a finite map; where the source iterates over one, the order is
an argument (`IterOrder`). Random values, the MAC-derived id and generated key
pairs are arguments too. Writing a file succeeds; its content is the record
last stored. (Of a failure the source makes a line in the log, and memory keeps the
change: what is said of files does not cover that.)
-/

namespace RustdeskServer.Configuration

open RustdeskServer.Codec

abbrev HashMap (V : Type) : Type := Finmap fun _ : String => V

abbrev Size : Type := Int × Int × Int × Int

structure Config where
  id : String
  password : String
  salt : String
  keyPair : Bytes × Bytes -- sk, pk
  keyConfirmed : Bool
  keysConfirmed : HashMap Bool
deriving DecidableEq

structure Config2 where
  remoteId : String -- latest used one
  size : Size
  rendezvousServer : String
  natType : Int
  serial : Int
  options : HashMap String
deriving DecidableEq

def Config.default : Config := ⟨"", "", "", ([], []), false, ∅⟩

def Config2.default : Config2 := ⟨"", (0, 0, 0, 0), "", 0, 0, ∅⟩

/-- The statics of `config.rs` and the contents of the two files. -/
structure Globals where
  config : Config
  config2 : Config2
  online : HashMap Int
  file : Config
  file2 : Config2

/-- An order in which a `HashMap`'s entries are visited: each of them once. -/
structure IterOrder where
  iter : HashMap Int → List (Σ _ : String, Int)
  iter_entries : ∀ m, (iter m : Multiset (Σ _ : String, Int)) = m.entries

namespace Globals

/-- `Config::store`. -/
def store (g : Globals) : Globals := { g with file := g.config }

/-- `Config2::store`. -/
def store2 (g : Globals) : Globals := { g with file2 := g.config2 }

/-- The common shape of the mutators of `CONFIG`: return if `same`, else change
the record and store it. -/
def updateConfig (same : Config → Bool) (f : Config → Config) (g : Globals) : Globals :=
  if same g.config then g else { g with config := f g.config }.store

/-- The same shape for `CONFIG2`. -/
def updateConfig2 (same : Config2 → Bool) (f : Config2 → Config2) (g : Globals) :
    Globals :=
  if same g.config2 then g else { g with config2 := f g.config2 }.store2

/-! ## `CONFIG` -/

def setId (id : String) : Globals → Globals :=
  updateConfig (fun c => id = c.id) fun c => { c with id := id }

def setPassword (password : String) : Globals → Globals :=
  updateConfig (fun c => password = c.password) fun c => { c with password := password }

def setSalt (salt : String) : Globals → Globals :=
  updateConfig (fun c => salt = c.salt) fun c => { c with salt := salt }

def setKeyPair (pair : Bytes × Bytes) : Globals → Globals :=
  updateConfig (fun _ => false) fun c => { c with keyPair := pair }

/-- `gen` is what `sign::gen_keypair` returns, the public key first. -/
def getKeyPair (gen : Bytes × Bytes) : Globals → Globals :=
  updateConfig (fun c => !c.keyPair.1.isEmpty) fun c => { c with keyPair := (gen.2, gen.1) }

def setKeyConfirmed (v : Bool) : Globals → Globals :=
  updateConfig (fun c => c.keyConfirmed = v) fun c =>
    { c with keyConfirmed := v, keysConfirmed := if !v then ∅ else c.keysConfirmed }

def getHostKeyConfirmed (c : Config) (host : String) : Bool :=
  match c.keysConfirmed.lookup host with
  | some true => true
  | _ => false

def setHostKeyConfirmed (host : String) (v : Bool) : Globals → Globals :=
  updateConfig (fun c => getHostKeyConfirmed c host = v) fun c =>
    { c with keysConfirmed := c.keysConfirmed.insert host v }

/-- `get_id`, with its side effect: an empty id is replaced by the automatic
one, if there is one. -/
def getId (autoId : Option String) (g : Globals) : Globals :=
  if g.config.id.isEmpty then
    match autoId with
    | some tmp => g.setId tmp
    | none => g
  else g

def updateId (autoId : Option String) (newId : String) (g : Globals) : Globals :=
  (g.getId autoId).setId newId

/-! ## `CONFIG2` and `ONLINE` -/

def setNatType (natType : Int) : Globals → Globals :=
  updateConfig2 (fun c => natType = c.natType) fun c => { c with natType := natType }

def setSerial (serial : Int) : Globals → Globals :=
  updateConfig2 (fun c => serial = c.serial) fun c => { c with serial := serial }

def setSize (x y w h : Int) : Globals → Globals :=
  updateConfig2 (fun c => (x, y, w, h) = c.size || w < 300 || h < 300) fun c =>
    { c with size := (x, y, w, h) }

def setRemoteId (remoteId : String) : Globals → Globals :=
  updateConfig2 (fun c => remoteId = c.remoteId) fun c => { c with remoteId := remoteId }

def setOptions (v : HashMap String) : Globals → Globals :=
  updateConfig2 (fun _ => false) fun c => { c with options := v }

def customRendezvousServer : String := "custom-rendezvous-server"

/-- The second half of `set_option`: an empty value means removal, and only a
change is stored. -/
def storeOption (k v : String) (g : Globals) : Globals :=
  let v2 := if v.isEmpty then none else some v
  if v2 ≠ g.config2.options.lookup k then
    let options :=
      if v2.isNone then g.config2.options.erase k else g.config2.options.insert k v
    { g with config2 := { g.config2 with options := options } }.store2
  else g

/-- `config.rendezvous_server = "".to_owned()`. -/
def forgetServer (g : Globals) : Globals :=
  { g with config2 := { g.config2 with rendezvousServer := "" } }

/-- `set_option`. The remembered server is cleared before the comparison that
decides whether anything is stored. -/
def setOption (k v : String) (g : Globals) : Globals :=
  storeOption k v (if k = customRendezvousServer then g.forgetServer else g)

def resetOnline (g : Globals) : Globals := { g with online := ∅ }

/-- `i64::MAX`. -/
def maxDelay : Int := 2 ^ 63 - 1

/-- One iteration of the loop in `update_latency`, over `(host, delay)`. -/
def fasterHost (best : String × Int) (entry : Σ _ : String, Int) : String × Int :=
  if entry.2 > 0 ∧ entry.2 < best.2 then (entry.1, entry.2) else best

def updateLatency (host : String) (latency : Int) (order : IterOrder) (g : Globals) :
    Globals :=
  let g := { g with online := g.online.insert host latency }
  let host := ((order.iter g.online).foldl fasterHost ("", maxDelay)).1
  if !host.isEmpty then
    updateConfig2 (fun c => host = c.rendezvousServer)
      (fun c => { c with rendezvousServer := host }) g
  else g

/-! ## What the two shapes do to the records -/

theorem config_updateConfig (g : Globals) (same : Config → Bool) (f : Config → Config) :
    (g.updateConfig same f).config = if same g.config then g.config else f g.config := by
  unfold updateConfig
  split <;> rfl

theorem config_updateConfig2 (g : Globals) (same : Config2 → Bool) (f : Config2 → Config2) :
    (g.updateConfig2 same f).config = g.config := by
  unfold updateConfig2
  split <;> rfl

end Globals

/-- The calls that may change a configuration, with the values the environment
supplies. -/
inductive Call where
  | setId (id : String)
  | updateId (autoId : Option String) (newId : String)
  | setPassword (password : String)
  | setSalt (salt : String)
  | setKeyPair (pair : Bytes × Bytes)
  | getKeyPair (gen : Bytes × Bytes)
  | setKeyConfirmed (v : Bool)
  | setHostKeyConfirmed (host : String) (v : Bool)
  | setNatType (natType : Int)
  | setSerial (serial : Int)
  | setSize (x y w h : Int)
  | setRemoteId (remoteId : String)
  | setOptions (v : HashMap String)
  | setOption (k v : String)
  | updateLatency (host : String) (latency : Int) (order : IterOrder)
  | resetOnline

def step (g : Globals) : Call → Globals
  | .setId id => g.setId id
  | .updateId autoId newId => g.updateId autoId newId
  | .setPassword password => g.setPassword password
  | .setSalt salt => g.setSalt salt
  | .setKeyPair pair => g.setKeyPair pair
  | .getKeyPair gen => g.getKeyPair gen
  | .setKeyConfirmed v => g.setKeyConfirmed v
  | .setHostKeyConfirmed host v => g.setHostKeyConfirmed host v
  | .setNatType natType => g.setNatType natType
  | .setSerial serial => g.setSerial serial
  | .setSize x y w h => g.setSize x y w h
  | .setRemoteId remoteId => g.setRemoteId remoteId
  | .setOptions v => g.setOptions v
  | .setOption k v => g.setOption k v
  | .updateLatency host latency order => g.updateLatency host latency order
  | .resetOnline => g.resetOnline

end RustdeskServer.Configuration
