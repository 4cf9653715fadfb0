import RustdeskServer.Configuration.Options
import RustdeskServer.Framework.Locks

/-!
# The configuration under threads

In `Config.lean` a call is one step. Here it is what `config.rs` does: it takes `CONFIG`,
`CONFIG2` or `ONLINE`, looks, changes a field, truncates the file and writes it, and gives
the lock back; some calls do so more than once, and what they saw the first time may be
old the second time. Any number of threads make any calls, and take turns after every
such step.

The locks are taken in one order, because only `update_latency` takes one while it has
another. A store happens under the lock of its record, so a file is whole whenever that
lock is not held for writing. `save_tmp` holds `CONFIG` while it copies both files, which
guards one of the two copies. As in `Config.lean`, what is written gets to the file.
-/

namespace RustdeskServer.Configuration

open RustdeskServer.Framework

/-- `CONFIG` and `CONFIG2` are read-write locks, `ONLINE` is a mutex. -/
inductive StaticLock where
  | config
  | config2
  | online
deriving DecidableEq, Repr

def StaticLock.rank : StaticLock → ℕ
  | .config => 0
  | .config2 => 1
  | .online => 2

/-- What the locks guard, and the files; a file that was truncated and is not written yet
holds nothing. -/
structure SharedData where
  config : Config
  config2 : Config2
  online : HashMap Int
  file : Option Config
  file2 : Option Config2
  saved : List (Option Config × Config) -- copies of the file, and what was in memory
  saved2 : List (Option Config2) -- copies of the second file
  pairs : List (Codec.Bytes × Codec.Bytes) -- what `get_key_pair` returned

/-- Before any thread has done anything. -/
def SharedData.of (g : Globals) : SharedData :=
  ⟨g.config, g.config2, g.online, some g.file, some g.file2, [], [], []⟩

instance : Inhabited SharedData :=
  ⟨.of ⟨Config.default, Config2.default, ∅, Config.default, Config2.default⟩⟩

abbrev Script : Type := Prog StaticLock SharedData

namespace Script

def look (f : SharedData → Script) : Script := .act id f

def change (f : SharedData → SharedData) (next : Script) : Script := .act f fun _ => next

/-- `Config::store`: `confy::store_path` opens the file, which truncates it, and writes it. -/
def store (next : Script) : Script :=
  change (fun d => { d with file := none }) <| change (fun d => { d with file := some d.config })
    next

/-- `Config2::store`. -/
def store2 (next : Script) : Script :=
  change (fun d => { d with file2 := none }) <|
    change (fun d => { d with file2 := some d.config2 }) next

/-- `CONFIG.read()` for one look. -/
def readConfig (f : Config → Script) : Script :=
  .acquire .config .shared <| look fun d => .release .config (f d.config)

/-- `CONFIG2` for one look. -/
def lookConfig2 (m : Mode) (f : Config2 → Script) : Script :=
  .acquire .config2 m <| look fun d => .release .config2 (f d.config2)

/-- `CONFIG2.read()` for one look. -/
def readConfig2 : (Config2 → Script) → Script := lookConfig2 .shared

/-- The common shape of the mutators of `CONFIG`. -/
def updateConfig (same : Config → Bool) (f : Config → Config) (next : Script) : Script :=
  .acquire .config .exclusive <| look fun d =>
    if same d.config then .release .config next
    else change (fun d => { d with config := f d.config }) <| store <| .release .config next

/-- The same shape for `CONFIG2`. -/
def updateConfig2 (same : Config2 → Bool) (f : Config2 → Config2) (next : Script) : Script :=
  .acquire .config2 .exclusive <| look fun d =>
    if same d.config2 then .release .config2 next
    else change (fun d => { d with config2 := f d.config2 }) <| store2 <| .release .config2 next

/-! ## `CONFIG` -/

def setId (id : String) : Script → Script :=
  updateConfig (fun c => id = c.id) fun c => { c with id := id }

def setPassword (password : String) : Script → Script :=
  updateConfig (fun c => password = c.password) fun c => { c with password := password }

def setSalt (salt : String) : Script → Script :=
  updateConfig (fun c => salt = c.salt) fun c => { c with salt := salt }

def setKeyPair (pair : Codec.Bytes × Codec.Bytes) : Script → Script :=
  updateConfig (fun _ => false) fun c => { c with keyPair := pair }

/-- `config.key_pair.clone()`, and the lock is given back. -/
def clonePair (next : Script) : Script :=
  change (fun d => { d with pairs := d.pairs ++ [d.config.keyPair] }) <| .release .config next

/-- `get_key_pair` keeps the lock until it has cloned the pair. -/
def getKeyPair (gen : Codec.Bytes × Codec.Bytes) (next : Script) : Script :=
  .acquire .config .exclusive <| look fun d =>
    if d.config.keyPair.1.isEmpty then
      change (fun d => { d with config := { d.config with keyPair := (gen.2, gen.1) } }) <|
      store <| clonePair next
    else clonePair next

def setKeyConfirmed (v : Bool) : Script → Script :=
  updateConfig (fun c => c.keyConfirmed = v) fun c =>
    { c with keyConfirmed := v, keysConfirmed := if !v then ∅ else c.keysConfirmed }

/-- `set_host_key_confirmed` compares before it takes the lock for writing. -/
def setHostKeyConfirmed (host : String) (v : Bool) (next : Script) : Script :=
  readConfig fun c =>
    if Globals.getHostKeyConfirmed c host = v then next
    else
      updateConfig (fun _ => false)
        (fun c => { c with keysConfirmed := c.keysConfirmed.insert host v }) next

/-- `get_key_confirmed`, `get_host_key_confirmed` -/
def getConfirmed (next : Script) : Script := readConfig fun _ => next

def getId (autoId : Option String) (next : Script) : Script :=
  readConfig fun c =>
    if c.id.isEmpty then
      match autoId with
      | some tmp => setId tmp next
      | none => next
    else next

def updateId (autoId : Option String) (newId : String) (next : Script) : Script :=
  getId autoId (setId newId next)

def getPassword (auto : String) (next : Script) : Script :=
  readConfig fun c => if c.password.isEmpty then setPassword auto next else next

def getSalt (auto : String) (next : Script) : Script :=
  readConfig fun c => if c.salt.isEmpty then setSalt auto next else next

/-- `save_tmp` holds `CONFIG` for reading while it copies the second file and the first. -/
def saveTmp (next : Script) : Script :=
  .acquire .config .shared <|
    change (fun d => { d with saved2 := d.saved2 ++ [d.file2] }) <|
    change (fun d => { d with saved := d.saved ++ [(d.file, d.config)] }) <|
    .release .config next

/-- `PeerConfig::load` and `PeerConfig::store`: the guard is dropped at once. -/
def peerFile (next : Script) : Script := .acquire .config .shared <| .release .config next

/-! ## `CONFIG2` and `ONLINE` -/

def setNatType (natType : Int) : Script → Script :=
  updateConfig2 (fun c => natType = c.natType) fun c => { c with natType := natType }

def setSerial (serial : Int) : Script → Script :=
  updateConfig2 (fun c => serial = c.serial) fun c => { c with serial := serial }

def setSize (x y w h : Int) : Script → Script :=
  updateConfig2 (fun c => (x, y, w, h) = c.size || w < 300 || h < 300) fun c =>
    { c with size := (x, y, w, h) }

def setRemoteId (remoteId : String) : Script → Script :=
  updateConfig2 (fun c => remoteId = c.remoteId) fun c => { c with remoteId := remoteId }

def setOptions (v : HashMap String) : Script → Script :=
  updateConfig2 (fun _ => false) fun c => { c with options := v }

/-- `get_nat_type`, `get_serial`, `get_options`, `get_size`, `get_remote_id` -/
def getField (next : Script) : Script := readConfig2 fun _ => next

/-- `set_option` forgets the remembered server before it compares. -/
def setOption (k v : String) (next : Script) : Script :=
  .acquire .config2 .exclusive <|
    change (fun d =>
      { d with
        config2 :=
          if k = Globals.customRendezvousServer then { d.config2 with rendezvousServer := "" }
          else d.config2 }) <|
    look fun d =>
      if wanted v ≠ d.config2.options.lookup k then
        change (fun d =>
          { d with
            config2 := { d.config2 with
              options :=
                if (wanted v).isNone then d.config2.options.erase k
                else d.config2.options.insert k v } }) <|
        store2 <| .release .config2 next
      else .release .config2 next

def getOption (k : String) (f : String → Script) : Script := readConfig2 fun c => f (c.getOption k)

def getRendezvousServers (f : List String → Script) : Script :=
  getOption Globals.customRendezvousServer fun s =>
    if s ≠ "" then f [s]
    else readConfig2 fun c =>
      if c.serial > currentSerial then
        getOption "rendezvous-servers" fun servers => f (serverList c.serial servers)
      else f rendezvousServers

/-- `get_rendezvous_server` up to the resolution of the name. It takes `CONFIG2` for
writing to read the remembered server. -/
def getRendezvousServer (next : Script) : Script :=
  getOption Globals.customRendezvousServer fun server =>
    if server = "" then
      lookConfig2 .exclusive fun c =>
        if c.rendezvousServer = "" then getRendezvousServers fun _ => next else next
    else next

def resetOnline (next : Script) : Script :=
  .acquire .online .exclusive <| change (fun d => { d with online := ∅ }) <| .release .online next

/-- The log line of `update_latency`, which shows `ONLINE` if it is written at all. -/
def logOnline (debug : Bool) (next : Script) : Script :=
  if debug then .acquire .online .exclusive <| look fun _ => .release .online next else next

/-- What the loop of `update_latency` leaves in `host`. -/
def fastest (order : IterOrder) (online : HashMap Int) : String :=
  ((order.iter online).foldl Globals.fasterHost ("", Globals.maxDelay)).1

/-- The second half of `update_latency`, under `CONFIG2`. -/
def rememberServer (host : String) (debug : Bool) (next : Script) : Script :=
  .acquire .config2 .exclusive <| look fun d =>
    if host = d.config2.rendezvousServer then .release .config2 next
    else
      logOnline debug <|
      change (fun d => { d with config2 := { d.config2 with rendezvousServer := host } }) <|
      store2 <| .release .config2 next

/-- `update_latency` takes `ONLINE` twice, and again under `CONFIG2` for the log line. -/
def updateLatency (host : String) (latency : Int) (order : IterOrder) (debug : Bool)
    (next : Script) : Script :=
  .acquire .online .exclusive <|
    change (fun d => { d with online := d.online.insert host latency }) <|
    .release .online <|
    .acquire .online .exclusive <| look fun d =>
      let host := fastest order d.online
      .release .online <| if host.isEmpty then next else rememberServer host debug next

end Script

/-- The calls, with the values the environment supplies. -/
inductive ApiCall where
  | setId (id : String)
  | getId (autoId : Option String)
  | updateId (autoId : Option String) (newId : String)
  | setPassword (password : String)
  | getPassword (auto : String)
  | setSalt (salt : String)
  | getSalt (auto : String)
  | setKeyPair (pair : Codec.Bytes × Codec.Bytes)
  | getKeyPair (gen : Codec.Bytes × Codec.Bytes)
  | setKeyConfirmed (v : Bool)
  | setHostKeyConfirmed (host : String) (v : Bool)
  | getConfirmed
  | saveTmp
  | peerFile
  | setNatType (natType : Int)
  | setSerial (serial : Int)
  | setSize (x y w h : Int)
  | setRemoteId (remoteId : String)
  | setOptions (v : HashMap String)
  | setOption (k v : String)
  | getOption (k : String)
  | getField
  | getRendezvousServers
  | getRendezvousServer
  | updateLatency (host : String) (latency : Int) (order : IterOrder) (debug : Bool)
  | resetOnline

def ApiCall.script : ApiCall → Script → Script
  | .setId id => .setId id
  | .getId autoId => .getId autoId
  | .updateId autoId newId => .updateId autoId newId
  | .setPassword password => .setPassword password
  | .getPassword auto => .getPassword auto
  | .setSalt salt => .setSalt salt
  | .getSalt auto => .getSalt auto
  | .setKeyPair pair => .setKeyPair pair
  | .getKeyPair gen => .getKeyPair gen
  | .setKeyConfirmed v => .setKeyConfirmed v
  | .setHostKeyConfirmed host v => .setHostKeyConfirmed host v
  | .getConfirmed => .getConfirmed
  | .saveTmp => .saveTmp
  | .peerFile => .peerFile
  | .setNatType natType => .setNatType natType
  | .setSerial serial => .setSerial serial
  | .setSize x y w h => .setSize x y w h
  | .setRemoteId remoteId => .setRemoteId remoteId
  | .setOptions v => .setOptions v
  | .setOption k v => .setOption k v
  | .getOption k => fun next => .getOption k fun _ => next
  | .getField => .getField
  | .getRendezvousServers => fun next => .getRendezvousServers fun _ => next
  | .getRendezvousServer => .getRendezvousServer
  | .updateLatency host latency order debug => .updateLatency host latency order debug
  | .resetOnline => .resetOnline

/-- A thread makes its calls one after the other. -/
def thread (calls : List ApiCall) : Script := calls.foldr ApiCall.script .done

/-! ## One rule for every call -/

namespace Script

/-- `P n` holds of a script with so much to do, and goes through every step that a script
takes; of `get_key_pair` and `set_key_pair` the steps of the allowed calls only. -/
structure Respects (allowed : ApiCall → Prop) (P : ℕ → Script → Prop) : Prop where
  mono {n k p} : P n p → n ≤ k → P k p
  readConfig {n f} : (∀ c, P n (f c)) → P (n + 3) (readConfig f)
  lookConfig2 {n f} (m) : (∀ c, P n (f c)) → P (n + 3) (lookConfig2 m f)
  updateConfig {n p} (same f) : (∀ c, (f c).keyPair = c.keyPair) → P n p →
    P (n + 6) (updateConfig same f p)
  updateConfig2 {n p} (same f) : P n p → P (n + 6) (updateConfig2 same f p)
  setKeyPair {n p} (pair) : allowed (.setKeyPair pair) → P n p → P (n + 6) (setKeyPair pair p)
  getKeyPair {n p} (gen) : allowed (.getKeyPair gen) → P n p → P (n + 7) (getKeyPair gen p)
  saveTmp {n p} : P n p → P (n + 4) (saveTmp p)
  peerFile {n p} : P n p → P (n + 2) (peerFile p)
  setOption {n p} (k v) : P n p → P (n + 7) (setOption k v p)
  resetOnline {n p} : P n p → P (n + 3) (resetOnline p)
  updateLatency {n p} (host latency order debug) : P n p →
    P (n + 15) (updateLatency host latency order debug p)

namespace Respects

variable {allowed : ApiCall → Prop} {P : ℕ → Script → Prop} {n : ℕ} {next : Script}

theorem setId (h : Respects allowed P) (id : String) (hnext : P n next) :
    P (n + 6) (setId id next) :=
  h.updateConfig _ _ (fun _ => rfl) hnext

theorem getId (h : Respects allowed P) (autoId : Option String) (hnext : P n next) :
    P (n + 9) (getId autoId next) := by
  apply h.readConfig
  intro c
  split_ifs
  · cases autoId with
    | none => exact h.mono hnext (by omega)
    | some tmp => exact h.setId tmp hnext
  · exact h.mono hnext (by omega)

theorem setHostKeyConfirmed (h : Respects allowed P) (host : String) (v : Bool)
    (hnext : P n next) : P (n + 9) (setHostKeyConfirmed host v next) := by
  apply h.readConfig
  intro c
  split_ifs
  · exact h.mono hnext (by omega)
  · apply h.updateConfig
    · exact fun _ => rfl
    · exact hnext

theorem getPassword (h : Respects allowed P) (auto : String) (hnext : P n next) :
    P (n + 9) (getPassword auto next) := by
  apply h.readConfig
  intro c
  split_ifs
  · apply h.updateConfig
    · exact fun _ => rfl
    · exact hnext
  · exact h.mono hnext (by omega)

theorem getSalt (h : Respects allowed P) (auto : String) (hnext : P n next) :
    P (n + 9) (getSalt auto next) := by
  apply h.readConfig
  intro c
  split_ifs
  · apply h.updateConfig
    · exact fun _ => rfl
    · exact hnext
  · exact h.mono hnext (by omega)

theorem getRendezvousServers (h : Respects allowed P) {f : List String → Script}
    (hnext : ∀ ss, P n (f ss)) : P (n + 9) (getRendezvousServers f) := by
  unfold Script.getRendezvousServers getOption readConfig2
  apply h.lookConfig2
  intro c
  dsimp only
  split_ifs
  · exact h.mono (hnext _) (by omega)
  · apply h.lookConfig2
    intro c
    split_ifs
    · apply h.lookConfig2
      intro c'
      apply hnext
    · exact h.mono (hnext _) (by omega)

theorem getRendezvousServer (h : Respects allowed P) (hnext : P n next) :
    P (n + 15) (getRendezvousServer next) := by
  unfold Script.getRendezvousServer getOption readConfig2
  apply h.lookConfig2
  intro c
  dsimp only
  split_ifs
  · apply h.lookConfig2
    intro c'
    split_ifs
    · apply h.getRendezvousServers
      intro ss
      exact hnext
    · exact h.mono hnext (by omega)
  · exact h.mono hnext (by omega)

/-- No call does more than fifteen things. -/
theorem script (h : Respects allowed P) {c : ApiCall} (hallowed : allowed c) (hnext : P n next) :
    P (n + 15) (c.script next) := by
  have hfew : ∀ k ≤ 15, ∀ {p : Script}, P (n + k) p → P (n + 15) p :=
    fun k hk _ hp => h.mono hp (by omega)
  cases c with
  | setId id => exact hfew 6 (by decide) (h.setId id hnext)
  | getId autoId => exact hfew 9 (by decide) (h.getId autoId hnext)
  | updateId autoId newId => exact h.getId autoId (h.setId newId hnext)
  | setPassword password =>
      show P (n + 15) (Script.setPassword password next)
      exact hfew 6 (by decide) (h.updateConfig _ _ (fun _ => rfl) hnext)
  | getPassword auto => exact hfew 9 (by decide) (h.getPassword auto hnext)
  | setSalt salt =>
      show P (n + 15) (Script.setSalt salt next)
      exact hfew 6 (by decide) (h.updateConfig _ _ (fun _ => rfl) hnext)
  | getSalt auto => exact hfew 9 (by decide) (h.getSalt auto hnext)
  | setKeyPair pair => exact hfew 6 (by decide) (h.setKeyPair pair hallowed hnext)
  | getKeyPair gen => exact hfew 7 (by decide) (h.getKeyPair gen hallowed hnext)
  | setKeyConfirmed v =>
      show P (n + 15) (Script.setKeyConfirmed v next)
      exact hfew 6 (by decide) (h.updateConfig _ _ (fun _ => rfl) hnext)
  | setHostKeyConfirmed host v => exact hfew 9 (by decide) (h.setHostKeyConfirmed host v hnext)
  | getConfirmed => exact hfew 3 (by decide) (h.readConfig fun _ => hnext)
  | saveTmp => exact hfew 4 (by decide) (h.saveTmp hnext)
  | peerFile => exact hfew 2 (by decide) (h.peerFile hnext)
  | setNatType natType =>
      show P (n + 15) (Script.setNatType natType next)
      exact hfew 6 (by decide) (h.updateConfig2 _ _ hnext)
  | setSerial serial =>
      show P (n + 15) (Script.setSerial serial next)
      exact hfew 6 (by decide) (h.updateConfig2 _ _ hnext)
  | setSize x y w h' =>
      show P (n + 15) (Script.setSize x y w h' next)
      exact hfew 6 (by decide) (h.updateConfig2 _ _ hnext)
  | setRemoteId remoteId =>
      show P (n + 15) (Script.setRemoteId remoteId next)
      exact hfew 6 (by decide) (h.updateConfig2 _ _ hnext)
  | setOptions v =>
      show P (n + 15) (Script.setOptions v next)
      exact hfew 6 (by decide) (h.updateConfig2 _ _ hnext)
  | setOption k v => exact hfew 7 (by decide) (h.setOption k v hnext)
  | getOption k => exact hfew 3 (by decide) (h.lookConfig2 _ fun _ => hnext)
  | getField => exact hfew 3 (by decide) (h.lookConfig2 _ fun _ => hnext)
  | getRendezvousServers => exact hfew 9 (by decide) (h.getRendezvousServers fun _ => hnext)
  | getRendezvousServer => exact h.getRendezvousServer hnext
  | updateLatency host latency order debug =>
      exact h.updateLatency host latency order debug hnext
  | resetOnline => exact hfew 3 (by decide) (h.resetOnline hnext)

theorem thread (h : Respects allowed P) (hdone : P 0 .done) {calls : List ApiCall}
    (hallowed : ∀ c ∈ calls, allowed c) : P (15 * calls.length) (thread calls) := by
  induction calls with
  | nil => exact hdone
  | cons c calls ih =>
      rw [List.forall_mem_cons] at hallowed
      exact h.script hallowed.1 (ih hallowed.2)

end Respects

/-! ## The order of the locks -/

/-- No lock at all. -/
def free : StaticLock → Option Mode := fun _ => none

@[simp] theorem free_apply (l : StaticLock) : free l = none := rfl

@[simp] theorem update_free (l : StaticLock) : Function.update free l none = free :=
  Function.update_eq_self l free

/-- The script takes its locks in order when it starts with none. -/
abbrev InOrder (p : Script) : Prop := Prog.Ordered StaticLock.rank p free

/-- `CONFIG2` comes before `ONLINE`. -/
theorem inOrder_updateLatency {next : Script} (host : String) (latency : Int) (order : IterOrder)
    (debug : Bool) (h : next.InOrder) : (updateLatency host latency order debug next).InOrder := by
  simp only [updateLatency, rememberServer, InOrder, change, look, Prog.Ordered,
    Function.update_idem, update_free]
  refine ⟨by simp, fun _ => ⟨by simp, fun d => ?_⟩⟩
  split_ifs
  · exact h
  · refine ⟨by simp, fun d' => ?_⟩
    dsimp only
    split_ifs
    · simpa [Prog.Ordered] using h
    · cases debug with
      | false => simpa [logOnline, store2, change, Prog.Ordered] using h
      | true =>
          -- the one lock that is taken under another one
          have hrank : ∀ l, Function.update free .config2 (some .exclusive) l ≠ none →
              l.rank < StaticLock.online.rank := by
            intro l hheld
            cases l with
            | config => decide
            | config2 => decide
            | online => simp at hheld
          have hback : Function.update (Function.update free .config2 (some .exclusive))
              .online none = Function.update free .config2 (some .exclusive) :=
            Function.update_eq_self _ _
          simp only [logOnline, if_true, look, store2, change, Prog.Ordered, Function.update_idem,
            hback, update_free]
          exact ⟨hrank, fun _ _ _ _ => h⟩

theorem respects_inOrder : Respects (fun _ => True) fun _ p => p.InOrder where
  mono hp _ := hp
  readConfig h := by simpa [readConfig, look, Prog.Ordered] using fun d : SharedData => h d.config
  lookConfig2 m h := by
    simpa [lookConfig2, look, Prog.Ordered] using fun d : SharedData => h d.config2
  updateConfig same f _ h := by
    constructor
    · simp
    · intro d
      dsimp only
      split_ifs
      · simpa [Prog.Ordered] using h
      · simpa [change, store, Prog.Ordered] using h
  updateConfig2 same f h := by
    constructor
    · simp
    · intro d
      dsimp only
      split_ifs
      · simpa [Prog.Ordered] using h
      · simpa [change, store2, Prog.Ordered] using h
  setKeyPair pair _ h := by
    simpa [setKeyPair, Script.updateConfig, look, change, store, Prog.Ordered] using h
  getKeyPair gen _ h := by
    constructor
    · simp
    · intro d
      dsimp only
      split_ifs
      · simpa [change, store, clonePair, Prog.Ordered] using h
      · simpa [change, clonePair, Prog.Ordered] using h
  saveTmp h := by simpa [saveTmp, change, Prog.Ordered] using h
  peerFile h := by simpa [peerFile, Prog.Ordered] using h
  setOption k v h := by
    constructor
    · simp
    · intro d d'
      dsimp only
      by_cases hchanged : wanted v ≠ d'.config2.options.lookup k
      · rw [if_pos hchanged]
        simpa [change, store2, Prog.Ordered] using h
      · rw [if_neg hchanged]
        simpa [Prog.Ordered] using h
  resetOnline h := by simpa [resetOnline, change, Prog.Ordered] using h
  updateLatency host latency order debug h := inOrder_updateLatency host latency order debug h

theorem respects_within : Respects (fun _ => True) fun n p => p.Within n where
  mono := Prog.Within.mono
  readConfig h := by simpa [readConfig, look, Prog.Within] using fun d : SharedData => h d.config
  lookConfig2 m h := by
    simpa [lookConfig2, look, Prog.Within] using fun d : SharedData => h d.config2
  updateConfig same f _ h := by
    refine ⟨by omega, by omega, ?_⟩
    intro d
    dsimp only
    split_ifs
    · exact ⟨by omega, h.mono (by omega)⟩
    · simpa [change, store, Prog.Within] using h
  updateConfig2 same f h := by
    refine ⟨by omega, by omega, ?_⟩
    intro d
    dsimp only
    split_ifs
    · exact ⟨by omega, h.mono (by omega)⟩
    · simpa [change, store2, Prog.Within] using h
  setKeyPair pair _ h := by
    simpa [setKeyPair, Script.updateConfig, look, change, store, Prog.Within] using h
  getKeyPair gen _ h := by
    refine ⟨by omega, by omega, ?_⟩
    intro d
    dsimp only
    split_ifs
    · simpa [change, store, clonePair, Prog.Within] using h
    · exact ⟨by omega, fun _ => ⟨by omega, h.mono (by omega)⟩⟩
  saveTmp h := by simpa [saveTmp, change, Prog.Within] using h
  peerFile h := by simpa [peerFile, Prog.Within] using h
  setOption k v h := by
    refine ⟨by omega, by omega, ?_⟩
    intro d
    refine ⟨by omega, ?_⟩
    intro d'
    dsimp only
    by_cases hchanged : wanted v ≠ d'.config2.options.lookup k
    · rw [if_pos hchanged]
      simpa [change, store2, Prog.Within] using h
    · rw [if_neg hchanged]
      exact ⟨by omega, h.mono (by omega)⟩
  resetOnline h := by simpa [resetOnline, change, Prog.Within] using h
  updateLatency host latency order debug h := by
    refine ⟨by omega, by omega, ?_⟩
    intro _
    refine ⟨by omega, by omega, by omega, ?_⟩
    intro d
    refine ⟨by omega, ?_⟩
    split_ifs
    · exact h.mono (by omega)
    · refine ⟨by omega, by omega, ?_⟩
      intro d'
      dsimp only
      split_ifs
      · exact ⟨by omega, h.mono (by omega)⟩
      · cases debug with
        | false =>
            simpa [logOnline, change, store2, Prog.Within] using h.mono (Nat.le_add_right _ 3)
        | true => simpa [logOnline, look, change, store2, Prog.Within] using h

end Script

section

variable {I : Type} [Fintype I] [DecidableEq I]

/-- Threads that each make these calls. -/
def startThreads (d : SharedData) (calls : I → List ApiCall) :
    Threads I StaticLock SharedData :=
  .start d fun i => thread (calls i)

omit [Fintype I] [DecidableEq I] in
theorem ordered_startThreads (d : SharedData) (calls : I → List ApiCall) :
    (startThreads d calls).Ordered StaticLock.rank := by
  intro i
  exact Script.respects_inOrder.thread (fun _ => rfl) fun _ _ => trivial

/-- **Every call returns.** However the threads take turns, together they do no more than
fifteen things for each call; and as long as one of them has something to do, one that the
locks let in can go on. -/
theorem config_calls_return (d : SharedData) (calls : I → List ApiCall) (is : List I)
    (h : Along Threads.step Threads.Ready (startThreads d calls) is) :
    is.length ≤ 15 * ∑ i, (calls i).length ∧
      ∀ reached, reached = is.foldl Threads.step (startThreads d calls) →
        (∃ i, reached.prog i ≠ .done) →
        ∀ grants, reached.LetsIn grants →
          ∃ i, reached.Ready i ∧ ∀ l, reached.Waits i l → grants i := by
  constructor
  · rw [Finset.mul_sum]
    apply Threads.length_le_of_within _ h
    intro i
    exact Script.respects_within.thread trivial fun _ _ => trivial
  · intro reached hreached hsome grants hgrants
    have hordered := (ordered_startThreads d calls).run is
    rw [← hreached] at hordered
    exact hordered.no_deadlock hgrants hsome

/-- Two threads that need `CONFIG2`. -/
def contending : Bool → List ApiCall
  | false => [.setNatType 1]
  | true => [.setSerial 2, .saveTmp]

theorem config_calls_return_contending :
    [false, false, false].length ≤ 15 * ∑ i, (contending i).length ∧
      ∀ reached, reached = [false, false, false].foldl Threads.step
          (startThreads default contending) →
        (∃ i, reached.prog i ≠ .done) →
        ∀ grants, reached.LetsIn grants →
          ∃ i, reached.Ready i ∧ ∀ l, reached.Waits i l → grants i :=
  config_calls_return default contending [false, false, false] (by decide)

end

end RustdeskServer.Configuration
