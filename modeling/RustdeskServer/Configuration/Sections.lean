import RustdeskServer.Configuration.InTurn
import RustdeskServer.Configuration.Guarded
import RustdeskServer.Framework.Sections

/-!
# The calls of all threads in one order

Between two lock operations a call of `config.rs` does what a step of `Config.lean` does,
or it looks. For any threads and any order of their turns there is one order of all these
sections: everything that is looked at is as the sections before it have left it, and a
record and its file are what the sections leave whenever nobody has the lock. No update of
a record is lost, and no store.

A call of more than one section can still act on what has changed since: `get_password`
looks at the password and sets another one, later.
-/

namespace RustdeskServer.Configuration

open RustdeskServer.Framework

/-- What a call does, or sees, under a lock. -/
inductive ApiStep where
  | call (c : ApiCall) -- of one section
  | confirmHost (host : String) (v : Bool)
  | noteLatency (host : String) (latency : Int)
  | rememberServer (host : String)
  | sees (c : Config)
  | sees2 (c : Config2)
  | seesOnline (online : HashMap Int)

def ApiStep.run (g : Globals) : ApiStep → Globals
  | .call c => c.run g
  | .confirmHost host v =>
      g.updateConfig (fun _ => false) fun c =>
        { c with keysConfirmed := c.keysConfirmed.insert host v }
  | .noteLatency host latency => { g with online := g.online.insert host latency }
  | .rememberServer host =>
      g.updateConfig2 (fun c => host = c.rendezvousServer) fun c =>
        { c with rendezvousServer := host }
  | .sees _ | .sees2 _ | .seesOnline _ => g

/-- What is seen is what is there. -/
def ApiStep.May (g : Globals) : ApiStep → Prop
  | .sees c => g.config = c
  | .sees2 c => g.config2 = c
  | .seesOnline online => g.online = online
  | .call _ | .confirmHost _ _ | .noteLatency _ _ | .rememberServer _ => True

def seeing (words : Config → Language ApiStep) : Language ApiStep :=
  {es | ∃ c, ∃ rest ∈ words c, es = .sees c :: rest}

def seeing2 (words : Config2 → Language ApiStep) : Language ApiStep :=
  {es | ∃ c, ∃ rest ∈ words c, es = .sees2 c :: rest}

def seeingOnline (words : HashMap Int → Language ApiStep) : Language ApiStep :=
  {es | ∃ online, ∃ rest ∈ words online, es = .seesOnline online :: rest}

namespace ApiCall

def getIdSections (autoId : Option String) : Language ApiStep :=
  seeing fun c =>
    if c.id.isEmpty then {(autoId.map fun tmp => ApiStep.call (.setId tmp)).toList} else 1

def getRendezvousServersSections : Language ApiStep :=
  seeing2 fun c =>
    if c.getOption Globals.customRendezvousServer ≠ "" then 1
    else seeing2 fun c => if c.serial > currentSerial then seeing2 fun _ => 1 else 1

/-- The sections of a call, with all that it may see. -/
def sections : ApiCall → Language ApiStep
  | .getId autoId => getIdSections autoId
  | .updateId autoId newId => getIdSections autoId * {[.call (.setId newId)]}
  | .getPassword auto =>
      seeing fun c => if c.password.isEmpty then {[.call (.setPassword auto)]} else 1
  | .getSalt auto => seeing fun c => if c.salt.isEmpty then {[.call (.setSalt auto)]} else 1
  | .setHostKeyConfirmed host v =>
      seeing fun c =>
        if Globals.getHostKeyConfirmed c host = v then 1 else {[.confirmHost host v]}
  | .getConfirmed => seeing fun _ => 1
  | .saveTmp => seeing fun _ => 1
  | .peerFile => 1
  | .getOption _ => seeing2 fun _ => 1
  | .getField => seeing2 fun _ => 1
  | .getRendezvousServers => getRendezvousServersSections
  | .getRendezvousServer =>
      seeing2 fun c =>
        if c.getOption Globals.customRendezvousServer = "" then
          seeing2 fun c => if c.rendezvousServer = "" then getRendezvousServersSections else 1
        else 1
  | .updateLatency host latency order _ =>
      {[.noteLatency host latency]} * seeingOnline fun online =>
        if (Script.fastest order online).isEmpty then 1
        else {[.rememberServer (Script.fastest order online)]}
  | c => {[.call c]}

end ApiCall

/-- What a lock guards: its record, and the file of the record. -/
def StaticLock.Part : StaticLock → Type
  | .config => Config × Option Config
  | .config2 => Config2 × Option Config2
  | .online => HashMap Int

def SharedData.part (d : SharedData) : (l : StaticLock) → l.Part
  | .config => (d.config, d.file)
  | .config2 => (d.config2, d.file2)
  | .online => d.online

def Globals.part (g : Globals) : (l : StaticLock) → l.Part
  | .config => (g.config, some g.file)
  | .config2 => (g.config2, some g.file2)
  | .online => g.online

/-- `Config.lean`, section by section. -/
def sectionMachine : Machine StaticLock SharedData StaticLock.Part Globals ApiStep :=
  ⟨SharedData.part, Globals.part, ApiStep.run, ApiStep.May⟩

/-! ## The sections of a call -/

/-- What comes after the sections of one of the words. -/
theorem serial_rest {p : Script} {K words : Language ApiStep} {es : List ApiStep}
    (h : Prog.Serial sectionMachine p unheld K) (hes : es ∈ words) :
    Prog.Serial sectionMachine p unheld {rest | es ++ rest ∈ words * K} :=
  h.mono fun rest hrest => Language.mem_mul.mpr ⟨es, hes, rest, hrest, rfl⟩

/-- What comes after a look, when the rest of the word depends on it. -/
theorem serial_seen {p : Script} {K words words' : Language ApiStep} {e : ApiStep}
    (h : Prog.Serial sectionMachine p unheld (words' * K)) (he : ∀ es ∈ words', e :: es ∈ words) :
    Prog.Serial sectionMachine p unheld {rest | [e] ++ rest ∈ words * K} := by
  apply h.mono
  intro es hes
  obtain ⟨mine, hmine, rest, hrest, rfl⟩ := Language.mem_mul.mp hes
  exact Language.mem_mul.mpr ⟨e :: mine, he mine hmine, rest, hrest, rfl⟩

/-- What a thread finds under the lock it has. -/
theorem found_of_fits {l : StaticLock} {h : Hold l.Part} {d : SharedData}
    (hfits : ∀ l', (Function.update unheld l h l').Fits (d.part l')) : h.Fits (d.part l) := by
  have hl := hfits l
  rw [Function.update_self] at hl
  exact hl

namespace Script

/-- The script does the sections of a word, and then what comes next. -/
def Performs (script : Script → Script) (words : Language ApiStep) : Prop :=
  ∀ next K, Prog.Serial sectionMachine next unheld K →
    Prog.Serial sectionMachine (script next) unheld (words * K)

variable {script script' : Script → Script} {words words' : Language ApiStep}

theorem Performs.comp (h : Performs script words) (h' : Performs script' words') :
    Performs (fun next => script (script' next)) (words * words') := by
  intro next K hnext
  rw [mul_assoc]
  exact h _ _ (h' next K hnext)

theorem performs_nothing : Performs (fun next => next) 1 := by
  intro next K hnext
  rw [one_mul]
  exact hnext

/-- A look at `CONFIG`, on which depends what comes next. -/
theorem performs_readConfig {script : Config → Script → Script}
    {words : Config → Language ApiStep} (h : ∀ c, Performs (script c) (words c)) :
    Performs (fun next => readConfig fun c => script c next) (seeing words) := by
  intro next K hnext v
  apply Prog.Serial.keep (fun _ => rfl)
  intro d hfits
  have hd : d.part .config = v := found_of_fits hfits
  apply Prog.Serial.closeSame [.sees d.config]
  · intro t ht
    exact ⟨⟨congrArg Prod.fst (ht.trans hd.symm), trivial⟩, rfl⟩
  · rw [update_unheld]
    exact serial_seen (h d.config next K hnext) fun es hes => ⟨d.config, es, hes, rfl⟩

/-- A look at `CONFIG2`, in whatever mode. -/
theorem performs_lookConfig2 (m : Mode) {f : Config2 → Script → Script}
    {words : Config2 → Language ApiStep} (h : ∀ c, Performs (f c) (words c)) :
    Performs (fun next => lookConfig2 m fun c => f c next) (seeing2 words) := by
  intro next K hnext v
  apply Prog.Serial.keep (fun _ => rfl)
  intro d hfits
  have hd : d.part .config2 = v := found_of_fits hfits
  apply Prog.Serial.closeSame [.sees2 d.config2]
  · intro t ht
    exact ⟨⟨congrArg Prod.fst (ht.trans hd.symm), trivial⟩, rfl⟩
  · rw [update_unheld]
    exact serial_seen (h d.config2 next K hnext) fun es hes => ⟨d.config2, es, hes, rfl⟩

/-- The end of a section of one action. -/
theorem serial_release {l : StaticLock} {next : Script} {before now : l.Part} {e : ApiStep}
    {K : Language ApiStep} (hmay : ∀ g, ApiStep.May g e)
    (hrun : ∀ g : Globals, g.part l = before →
      (ApiStep.run g e).part = Function.update g.part l now)
    (h : Prog.Serial sectionMachine next unheld K) :
    Prog.Serial sectionMachine (.release l next)
      (Function.update unheld l (.on .exclusive before now)) ({[e]} * K) := by
  apply Prog.Serial.close [e]
  · exact fun g hg => ⟨⟨hmay g, trivial⟩, hrun g hg⟩
  · rw [update_unheld]
    exact serial_rest h (Set.mem_singleton [e])

/-- The end of a section of one action that has nothing to change. -/
theorem serial_release_same {l : StaticLock} {next : Script} {v : l.Part} {e : ApiStep}
    {K : Language ApiStep} (hmay : ∀ g, ApiStep.May g e)
    (hrun : ∀ g : Globals, g.part l = v → ApiStep.run g e = g)
    (h : Prog.Serial sectionMachine next unheld K) :
    Prog.Serial sectionMachine (.release l next)
      (Function.update unheld l (.on .exclusive v v)) ({[e]} * K) := by
  apply Prog.Serial.closeSame [e]
  · exact fun g hg => ⟨⟨hmay g, trivial⟩, hrun g hg⟩
  · rw [update_unheld]
    exact serial_rest h (Set.mem_singleton [e])

/-- What is left to do with `CONFIG` held for writing. -/
abbrev WithConfig (p : Script) (before now : Config × Option Config) (K : Language ApiStep) :
    Prop :=
  Prog.Serial sectionMachine p
    (Function.update unheld .config (.on .exclusive before now : Hold StaticLock.config.Part)) K

/-- What is left to do with `CONFIG2` held for writing. -/
abbrev WithConfig2 (p : Script) (before now : Config2 × Option Config2) (K : Language ApiStep) :
    Prop :=
  Prog.Serial sectionMachine p
    (Function.update unheld .config2 (.on .exclusive before now : Hold StaticLock.config2.Part)) K

theorem withConfig_change {next : Script} {f : Config → Config} {before : Config × Option Config}
    {c : Config} {file : Option Config} {K : Language ApiStep}
    (h : WithConfig next before (f c, file) K) :
    WithConfig (change (fun d => { d with config := f d.config }) next) before (c, file) K := by
  refine Prog.Serial.write _ ?_ h
  intro d hd
  obtain ⟨rfl, rfl⟩ := Prod.mk.inj hd
  funext l
  cases l <;> rfl

theorem withConfig_store {next : Script} {before : Config × Option Config} {c : Config}
    {file : Option Config} {K : Language ApiStep}
    (h : WithConfig next before (c, some c) K) :
    WithConfig (store next) before (c, file) K := by
  have htruncate : WithConfig (change (fun d => { d with file := some d.config }) next) before
      (c, none) K := by
    refine Prog.Serial.write _ ?_ h
    intro d hd
    obtain ⟨rfl, -⟩ := Prod.mk.inj hd
    funext l
    cases l <;> rfl
  refine Prog.Serial.write _ ?_ htruncate
  intro d hd
  obtain ⟨rfl, -⟩ := Prod.mk.inj hd
  funext l
  cases l <;> rfl

/-- A mutator of `CONFIG` is one section. -/
theorem performs_updateConfig (same : Config → Bool) (f : Config → Config) {e : ApiStep}
    (hrun : ∀ g, ApiStep.run g e = g.updateConfig same f) (hmay : ∀ g, ApiStep.May g e) :
    Performs (updateConfig same f) {[e]} := by
  rintro next K hnext ⟨c, file⟩
  apply Prog.Serial.keep (fun _ => rfl)
  intro d hfits
  obtain ⟨rfl, -⟩ := Prod.mk.inj (found_of_fits hfits)
  unfold Globals.updateConfig at hrun
  split_ifs with hsame
  · refine serial_release_same hmay ?_ hnext
    intro g hg
    obtain ⟨hc, -⟩ := Prod.mk.inj hg
    rw [hrun, hc, if_pos hsame]
  · apply withConfig_change
    apply withConfig_store
    refine serial_release hmay ?_ hnext
    intro g hg
    obtain ⟨hc, -⟩ := Prod.mk.inj hg
    rw [hrun, hc, if_neg hsame]
    funext l
    cases l <;> rfl

theorem withConfig2_change {next : Script} {f : Config2 → Config2}
    {before : Config2 × Option Config2} {c : Config2} {file : Option Config2}
    {K : Language ApiStep} (h : WithConfig2 next before (f c, file) K) :
    WithConfig2 (change (fun d => { d with config2 := f d.config2 }) next) before (c, file)
      K := by
  refine Prog.Serial.write _ ?_ h
  intro d hd
  obtain ⟨rfl, rfl⟩ := Prod.mk.inj hd
  funext l
  cases l <;> rfl

theorem withConfig2_store {next : Script} {before : Config2 × Option Config2} {c : Config2}
    {file : Option Config2} {K : Language ApiStep}
    (h : WithConfig2 next before (c, some c) K) :
    WithConfig2 (store2 next) before (c, file) K := by
  have htruncate : WithConfig2 (change (fun d => { d with file2 := some d.config2 }) next) before
      (c, none) K := by
    refine Prog.Serial.write _ ?_ h
    intro d hd
    obtain ⟨rfl, -⟩ := Prod.mk.inj hd
    funext l
    cases l <;> rfl
  refine Prog.Serial.write _ ?_ htruncate
  intro d hd
  obtain ⟨rfl, -⟩ := Prod.mk.inj hd
  funext l
  cases l <;> rfl

theorem performs_updateConfig2 (same : Config2 → Bool) (f : Config2 → Config2) {e : ApiStep}
    (hrun : ∀ g, ApiStep.run g e = g.updateConfig2 same f) (hmay : ∀ g, ApiStep.May g e) :
    Performs (updateConfig2 same f) {[e]} := by
  rintro next K hnext ⟨c, file⟩
  apply Prog.Serial.keep (fun _ => rfl)
  intro d hfits
  obtain ⟨rfl, -⟩ := Prod.mk.inj (found_of_fits hfits)
  unfold Globals.updateConfig2 at hrun
  split_ifs with hsame
  · refine serial_release_same hmay ?_ hnext
    intro g hg
    obtain ⟨hc, -⟩ := Prod.mk.inj hg
    rw [hrun, hc, if_pos hsame]
  · apply withConfig2_change
    apply withConfig2_store
    refine serial_release hmay ?_ hnext
    intro g hg
    obtain ⟨hc, -⟩ := Prod.mk.inj hg
    rw [hrun, hc, if_neg hsame]
    funext l
    cases l <;> rfl

theorem performs_getKeyPair (gen : Codec.Bytes × Codec.Bytes) :
    Performs (getKeyPair gen) {[.call (.getKeyPair gen)]} := by
  rintro next K hnext ⟨c, file⟩
  apply Prog.Serial.keep (fun _ => rfl)
  intro d hfits
  obtain ⟨rfl, -⟩ := Prod.mk.inj (found_of_fits hfits)
  -- the pair is cloned under the same lock
  have hclone : ∀ before now : Config × Option Config,
      WithConfig (.release .config next) before now ({[.call (.getKeyPair gen)]} * K) →
        WithConfig (clonePair next) before now ({[.call (.getKeyPair gen)]} * K) := by
    intro before now hrelease
    exact Prog.Serial.keep (fun _ => rfl) fun _ _ => hrelease
  split_ifs with hempty
  · apply withConfig_change (f := fun c => { c with keyPair := (gen.2, gen.1) })
    apply withConfig_store
    apply hclone
    refine serial_release (fun _ => trivial) ?_ hnext
    intro g hg
    obtain ⟨hc, -⟩ := Prod.mk.inj hg
    have hstored : ApiStep.run g (.call (.getKeyPair gen)) =
        { g with config := { g.config with keyPair := (gen.2, gen.1) } }.store := by
      show g.getKeyPair gen = _
      simp [Globals.getKeyPair, Globals.updateConfig, hc, hempty]
    rw [hstored, hc]
    funext l
    cases l <;> rfl
  · apply hclone
    refine serial_release_same (fun _ => trivial) ?_ hnext
    intro g hg
    obtain ⟨hc, -⟩ := Prod.mk.inj hg
    show g.getKeyPair gen = g
    simp [Globals.getKeyPair, Globals.updateConfig, hc, hempty]

/-- `save_tmp` sees `CONFIG`; of the second file it may see anything. -/
theorem performs_saveTmp : Performs saveTmp (seeing fun _ => 1) := by
  intro next K hnext v
  apply Prog.Serial.keep (fun _ => rfl)
  intro d hfits
  apply Prog.Serial.keep (fun _ => rfl)
  intro d' _
  have hd : d.part .config = v := found_of_fits hfits
  apply Prog.Serial.closeSame [.sees d.config]
  · intro t ht
    exact ⟨⟨congrArg Prod.fst (ht.trans hd.symm), trivial⟩, rfl⟩
  · rw [update_unheld]
    exact serial_seen (performs_nothing next K hnext) fun es hes => ⟨d.config, es, hes, rfl⟩

theorem performs_peerFile : Performs peerFile 1 := by
  intro next K hnext v
  apply Prog.Serial.closeSame []
  · exact fun _ _ => ⟨trivial, rfl⟩
  · rw [update_unheld]
    exact serial_rest hnext (Set.mem_singleton [])

theorem performs_setOption (k v : String) :
    Performs (setOption k v) {[.call (.setOption k v)]} := by
  rintro next K hnext ⟨c, file⟩
  -- the server is forgotten first, also when nothing is stored then
  apply withConfig2_change (f := fun c =>
    if k = Globals.customRendezvousServer then { c with rendezvousServer := "" } else c)
  apply Prog.Serial.keep (fun _ => rfl)
  intro d hfits
  obtain ⟨hd, -⟩ := Prod.mk.inj (found_of_fits hfits)
  have hforget : ∀ g : Globals, g.config2 = c →
      (if k = Globals.customRendezvousServer then g.forgetServer else g) =
        { g with config2 := d.config2 } := by
    rintro g rfl
    rw [hd]
    split_ifs <;> rfl
  by_cases hsame : d.config2.options.lookup k = wanted v
  · rw [if_neg (not_not.mpr hsame.symm), ← hd]
    refine serial_release (fun _ => trivial) ?_ hnext
    intro g hg
    obtain ⟨hc, hfile⟩ := Prod.mk.inj hg
    have hrun : ApiStep.run g (.call (.setOption k v)) = { g with config2 := d.config2 } := by
      show g.setOption k v = _
      unfold Globals.setOption
      rw [hforget g hc]
      exact storeOption_same hsame
    rw [hrun, ← hfile]
    funext l
    cases l <;> rfl
  · rw [if_pos (Ne.symm hsame), ← hd]
    apply withConfig2_change (f := fun c => { c with
      options := if (wanted v).isNone then c.options.erase k else c.options.insert k v })
    apply withConfig2_store
    refine serial_release (fun _ => trivial) ?_ hnext
    intro g hg
    obtain ⟨hc, -⟩ := Prod.mk.inj hg
    have hrun : ApiStep.run g (.call (.setOption k v)) =
        Globals.storeOption k v { g with config2 := d.config2 } := by
      show g.setOption k v = _
      unfold Globals.setOption
      rw [hforget g hc]
    rw [hrun, storeOption_ne hsame]
    funext l
    cases l <;> rfl

/-- What is left to do with `ONLINE` held. -/
abbrev WithOnline (p : Script) (before now : HashMap Int) (K : Language ApiStep) : Prop :=
  Prog.Serial sectionMachine p
    (Function.update unheld .online (.on .exclusive before now : Hold StaticLock.online.Part)) K

theorem withOnline_change {next : Script} {f : HashMap Int → HashMap Int}
    {before online : HashMap Int} {K : Language ApiStep}
    (h : WithOnline next before (f online) K) :
    WithOnline (change (fun d => { d with online := f d.online }) next) before online K := by
  refine Prog.Serial.write _ ?_ h
  rintro d rfl
  funext l
  cases l <;> rfl

theorem performs_resetOnline : Performs resetOnline {[.call .resetOnline]} := by
  intro next K hnext online
  apply withOnline_change (f := fun _ => ∅)
  refine serial_release (fun _ => trivial) ?_ hnext
  intro g _
  funext l
  cases l <;> rfl

theorem performs_noteLatency (host : String) (latency : Int) :
    Performs (fun next => .acquire .online .exclusive <|
      change (fun d => { d with online := d.online.insert host latency }) <|
      .release .online next) {[.noteLatency host latency]} := by
  intro next K hnext online
  apply withOnline_change (f := fun online => online.insert host latency)
  refine serial_release (fun _ => trivial) ?_ hnext
  rintro g rfl
  funext l
  cases l <;> rfl

theorem performs_lookOnline {script : HashMap Int → Script → Script}
    {words : HashMap Int → Language ApiStep}
    (h : ∀ online, Performs (script online) (words online)) :
    Performs (fun next => .acquire .online .exclusive <|
      look fun d => .release .online (script d.online next)) (seeingOnline words) := by
  intro next K hnext v
  apply Prog.Serial.keep (fun _ => rfl)
  intro d hfits
  have hd : d.part .online = v := found_of_fits hfits
  apply Prog.Serial.closeSame [.seesOnline d.online]
  · intro t ht
    exact ⟨⟨ht.trans hd.symm, trivial⟩, rfl⟩
  · rw [update_unheld]
    exact serial_seen (h d.online next K hnext) fun es hes => ⟨d.online, es, hes, rfl⟩

/-- The log line takes `ONLINE` under `CONFIG2`, and changes nothing. -/
theorem withConfig2_logOnline {next : Script} {before now : Config2 × Option Config2}
    {K : Language ApiStep} (debug : Bool) (h : WithConfig2 next before now K) :
    WithConfig2 (logOnline debug next) before now K := by
  cases debug with
  | false => exact h
  | true =>
      -- a section inside the section, of no action
      intro online
      apply Prog.Serial.keep (fun _ => rfl)
      intro d _
      apply Prog.Serial.closeSame []
      · exact fun _ _ => ⟨trivial, rfl⟩
      · have hback : ∀ held : Hold StaticLock.config2.Part,
            Function.update (Function.update (unheld (V := StaticLock.Part)) StaticLock.config2
              held) StaticLock.online .off = Function.update unheld StaticLock.config2 held :=
          fun held => Function.update_eq_self StaticLock.online _
        rw [hback]
        exact h

theorem performs_rememberServer (host : String) (debug : Bool) :
    Performs (rememberServer host debug) {[.rememberServer host]} := by
  rintro next K hnext ⟨c, file⟩
  apply Prog.Serial.keep (fun _ => rfl)
  intro d hfits
  obtain ⟨rfl, -⟩ := Prod.mk.inj (found_of_fits hfits)
  split_ifs with hsame
  · refine serial_release_same (fun _ => trivial) ?_ hnext
    intro g hg
    obtain ⟨hc, -⟩ := Prod.mk.inj hg
    simp [ApiStep.run, Globals.updateConfig2, hc, hsame]
  · apply withConfig2_logOnline
    apply withConfig2_change (f := fun c => { c with rendezvousServer := host })
    apply withConfig2_store
    refine serial_release (fun _ => trivial) ?_ hnext
    intro g hg
    obtain ⟨hc, -⟩ := Prod.mk.inj hg
    have hstored : ApiStep.run g (.rememberServer host) =
        { g with config2 := { g.config2 with rendezvousServer := host } }.store2 := by
      simp [ApiStep.run, Globals.updateConfig2, hc, hsame]
    rw [hstored, hc]
    funext l
    cases l <;> rfl

theorem performs_updateLatency (host : String) (latency : Int) (order : IterOrder)
    (debug : Bool) :
    Performs (updateLatency host latency order debug)
      (ApiCall.updateLatency host latency order debug).sections := by
  have hlook : ∀ online, Performs (fun next =>
      if (fastest order online).isEmpty then next
      else rememberServer (fastest order online) debug next)
      (if (fastest order online).isEmpty then 1
        else {[.rememberServer (fastest order online)]}) := by
    intro online
    split_ifs
    · exact performs_nothing
    · exact performs_rememberServer _ debug
  exact (performs_noteLatency host latency).comp (performs_lookOnline hlook)

theorem performs_setId (id : String) : Performs (setId id) {[.call (.setId id)]} :=
  performs_updateConfig _ _ (fun _ => rfl) fun _ => trivial

theorem performs_getId (autoId : Option String) :
    Performs (getId autoId) (ApiCall.getIdSections autoId) := by
  apply performs_readConfig
  intro c
  split_ifs
  · cases autoId with
    | none => exact performs_nothing
    | some tmp => exact performs_setId tmp
  · exact performs_nothing

/-- `get_password` and `get_salt`: a look, and a mutator if it is empty. -/
theorem performs_lookThen {script : Script → Script} {words : Language ApiStep} (p : Config → Bool)
    (h : Performs script words) :
    Performs (fun next => readConfig fun c => if p c then script next else next)
      (seeing fun c => if p c then words else 1) := by
  apply performs_readConfig
  intro c
  split_ifs
  · exact h
  · exact performs_nothing

theorem performs_setHostKeyConfirmed (host : String) (v : Bool) :
    Performs (setHostKeyConfirmed host v) (ApiCall.setHostKeyConfirmed host v).sections := by
  apply performs_readConfig
  intro c
  split_ifs
  · exact performs_nothing
  · exact performs_updateConfig _ _ (fun _ => rfl) fun _ => trivial

theorem performs_getRendezvousServers :
    Performs (fun next => getRendezvousServers fun _ => next)
      ApiCall.getRendezvousServersSections := by
  refine performs_lookConfig2 .shared (f := fun c next =>
    if c.getOption Globals.customRendezvousServer ≠ "" then next
    else readConfig2 fun c =>
      if c.serial > currentSerial then readConfig2 fun _ => next else next) ?_
  intro c
  split_ifs
  · exact performs_nothing
  · refine performs_lookConfig2 .shared (f := fun c next =>
      if c.serial > currentSerial then readConfig2 fun _ => next else next) ?_
    intro c'
    split_ifs
    · exact performs_lookConfig2 .shared fun _ => performs_nothing
    · exact performs_nothing

theorem performs_getRendezvousServer :
    Performs getRendezvousServer ApiCall.getRendezvousServer.sections := by
  refine performs_lookConfig2 .shared (f := fun c next =>
    if c.getOption Globals.customRendezvousServer = "" then
      lookConfig2 .exclusive fun c =>
        if c.rendezvousServer = "" then getRendezvousServers fun _ => next else next
    else next) ?_
  intro c
  split_ifs
  · refine performs_lookConfig2 .exclusive (f := fun c next =>
      if c.rendezvousServer = "" then getRendezvousServers fun _ => next else next) ?_
    intro c'
    split_ifs
    · exact performs_getRendezvousServers
    · exact performs_nothing
  · exact performs_nothing

/-- **Every call does its sections**, whatever the others do in between. -/
theorem performs_script (c : ApiCall) : Performs c.script c.sections := by
  cases c with
  | setId id => exact performs_setId id
  | getId autoId => exact performs_getId autoId
  | updateId autoId newId => exact (performs_getId autoId).comp (performs_setId newId)
  | setPassword password =>
      show Performs (Script.setPassword password) _
      exact performs_updateConfig _ _ (fun _ => rfl) fun _ => trivial
  | getPassword auto =>
      exact performs_lookThen (fun c => c.password.isEmpty)
        (performs_updateConfig _ _ (fun _ => rfl) fun _ => trivial)
  | setSalt salt =>
      show Performs (Script.setSalt salt) _
      exact performs_updateConfig _ _ (fun _ => rfl) fun _ => trivial
  | getSalt auto =>
      exact performs_lookThen (fun c => c.salt.isEmpty)
        (performs_updateConfig _ _ (fun _ => rfl) fun _ => trivial)
  | setKeyPair pair =>
      show Performs (Script.setKeyPair pair) _
      exact performs_updateConfig _ _ (fun _ => rfl) fun _ => trivial
  | getKeyPair gen => exact performs_getKeyPair gen
  | setKeyConfirmed v =>
      show Performs (Script.setKeyConfirmed v) _
      exact performs_updateConfig _ _ (fun _ => rfl) fun _ => trivial
  | setHostKeyConfirmed host v => exact performs_setHostKeyConfirmed host v
  | getConfirmed => exact performs_readConfig fun _ => performs_nothing
  | saveTmp => exact performs_saveTmp
  | peerFile => exact performs_peerFile
  | setNatType natType =>
      show Performs (Script.setNatType natType) _
      exact performs_updateConfig2 _ _ (fun _ => rfl) fun _ => trivial
  | setSerial serial =>
      show Performs (Script.setSerial serial) _
      exact performs_updateConfig2 _ _ (fun _ => rfl) fun _ => trivial
  | setSize x y w h =>
      show Performs (Script.setSize x y w h) _
      exact performs_updateConfig2 _ _ (fun _ => rfl) fun _ => trivial
  | setRemoteId remoteId =>
      show Performs (Script.setRemoteId remoteId) _
      exact performs_updateConfig2 _ _ (fun _ => rfl) fun _ => trivial
  | setOptions v =>
      show Performs (Script.setOptions v) _
      exact performs_updateConfig2 _ _ (fun _ => rfl) fun _ => trivial
  | setOption k v => exact performs_setOption k v
  | getOption k => exact performs_lookConfig2 _ fun _ => performs_nothing
  | getField => exact performs_lookConfig2 _ fun _ => performs_nothing
  | getRendezvousServers => exact performs_getRendezvousServers
  | getRendezvousServer => exact performs_getRendezvousServer
  | updateLatency host latency order debug =>
      exact performs_updateLatency host latency order debug
  | resetOnline => exact performs_resetOnline

theorem serial_thread (calls : List ApiCall) :
    Prog.Serial sectionMachine (thread calls) unheld (calls.map ApiCall.sections).prod := by
  induction calls with
  | nil => exact Set.mem_singleton []
  | cons c calls ih =>
      rw [List.map_cons, List.prod_cons]
      exact performs_script c _ _ ih

end Script

/-! ## One order -/

section

variable {I : Type} [Fintype I] [DecidableEq I]

/-- All sections in one order account for what the threads have done: what each call sees is
what is there, each thread has come to where it is, and what nobody has for itself is as the
sections leave it. -/
structure Explains (g : Globals) (calls : I → List ApiCall) (order : List (I × ApiStep))
    (s : Threads I StaticLock SharedData) : Prop where
  seen : Along ApiStep.run ApiStep.May g (order.map Prod.snd)
  begun : ∀ i, ∃ rest, doneBy i order ++ rest ∈ ((calls i).map ApiCall.sections).prod
  returned : ∀ i, s.prog i = .done → doneBy i order ∈ ((calls i).map ApiCall.sections).prod
  parts : ∀ l, s.Open l → s.data.part l = ((order.map Prod.snd).foldl ApiStep.run g).part l
  final : (∀ i, s.prog i = .done) → s.data.Shows ((order.map Prod.snd).foldl ApiStep.run g)

omit [Fintype I] in
theorem serialized_startThreads (g : Globals) (calls : I → List ApiCall) :
    Serialized sectionMachine g (fun i => ((calls i).map ApiCall.sections).prod)
      (startThreads (.of g) calls) [] := by
  apply Serialized.start
  · funext l
    cases l <;> rfl
  · exact fun i => Script.serial_thread (calls i)

omit [Fintype I] in
theorem explains_of_serialized {g : Globals} {calls : I → List ApiCall}
    {order : List (I × ApiStep)} {s : Threads I StaticLock SharedData}
    (h : Serialized sectionMachine g (fun i => ((calls i).map ApiCall.sections).prod) s order)
    (hordered : s.Ordered StaticLock.rank) : Explains g calls order s where
  seen := h.may
  begun i := (h.completes i).1
  returned i := (h.completes i).2
  parts := h.parts
  final hdone := by
    have hopen := hordered.open_of_done hdone
    obtain ⟨hconfig, hfile⟩ := Prod.mk.inj (h.parts .config (hopen .config))
    obtain ⟨hconfig2, hfile2⟩ := Prod.mk.inj (h.parts .config2 (hopen .config2))
    exact ⟨hconfig, hconfig2, h.parts .online (hopen .online), hfile, hfile2⟩

end

/-! ## Options of one thread -/

/-- What a call makes of the option. -/
def ApiCall.optionAfter (k : String) (o : Option String) : ApiCall → Option String
  | .setOption k' v => if k = k' then wanted v else o
  | .setOptions v => v.lookup k
  | _ => o

def ApiStep.optionAfter (k : String) (o : Option String) : ApiStep → Option String
  | .call c => c.optionAfter k o
  | _ => o

/-- The option stays, whatever it is. -/
def ApiStep.KeepsOptions (e : ApiStep) : Prop := ∀ k o, e.optionAfter k o = o

/-- No section of these words changes an option. -/
def KeepOptions (words : Language ApiStep) : Prop := ∀ es ∈ words, ∀ e ∈ es, e.KeepsOptions

theorem keepOptions_one : KeepOptions 1 := by
  rintro es hes
  rw [Language.mem_one] at hes
  rw [hes]
  exact List.forall_mem_nil _

theorem keepOptions_single {e : ApiStep} (h : e.KeepsOptions) : KeepOptions {[e]} := by
  intro es hes
  rw [Set.mem_singleton_iff.mp hes]
  exact List.forall_mem_singleton.mpr h

theorem keepOptions_mul {words words' : Language ApiStep} (h : KeepOptions words)
    (h' : KeepOptions words') : KeepOptions (words * words') := by
  intro es hes
  obtain ⟨xs, hxs, ys, hys, rfl⟩ := Language.mem_mul.mp hes
  exact List.forall_mem_append.mpr ⟨h xs hxs, h' ys hys⟩

theorem keepOptions_seeing {words : Config → Language ApiStep} (h : ∀ c, KeepOptions (words c)) :
    KeepOptions (seeing words) := by
  rintro es ⟨c, rest, hrest, rfl⟩
  exact List.forall_mem_cons.mpr ⟨fun _ _ => rfl, h c rest hrest⟩

theorem keepOptions_seeing2 {words : Config2 → Language ApiStep}
    (h : ∀ c, KeepOptions (words c)) : KeepOptions (seeing2 words) := by
  rintro es ⟨c, rest, hrest, rfl⟩
  exact List.forall_mem_cons.mpr ⟨fun _ _ => rfl, h c rest hrest⟩

theorem keepOptions_seeingOnline {words : HashMap Int → Language ApiStep}
    (h : ∀ online, KeepOptions (words online)) : KeepOptions (seeingOnline words) := by
  rintro es ⟨online, rest, hrest, rfl⟩
  exact List.forall_mem_cons.mpr ⟨fun _ _ => rfl, h online rest hrest⟩

theorem keepOptions_ite {p : Prop} [Decidable p] {words words' : Language ApiStep}
    (h : KeepOptions words) (h' : KeepOptions words') :
    KeepOptions (if p then words else words') := by
  split_ifs
  · exact h
  · exact h'

theorem keepOptions_getId (autoId : Option String) :
    KeepOptions (ApiCall.getIdSections autoId) := by
  apply keepOptions_seeing
  intro c
  apply keepOptions_ite _ keepOptions_one
  cases autoId with
  | none => exact keepOptions_one
  | some tmp => exact keepOptions_single fun _ _ => rfl

theorem keepOptions_getRendezvousServers :
    KeepOptions ApiCall.getRendezvousServersSections :=
  keepOptions_seeing2 fun _ => keepOptions_ite keepOptions_one <|
    keepOptions_seeing2 fun _ =>
      keepOptions_ite (keepOptions_seeing2 fun _ => keepOptions_one) keepOptions_one

/-- A call is one section, or it keeps all options. -/
theorem sections_single_or_keep (c : ApiCall) :
    c.sections = {[.call c]} ∨ KeepOptions c.sections ∧ ∀ k o, c.optionAfter k o = o := by
  cases c with
  | getId autoId => exact Or.inr ⟨keepOptions_getId autoId, fun _ _ => rfl⟩
  | updateId autoId newId =>
      refine Or.inr ⟨?_, fun _ _ => rfl⟩
      exact keepOptions_mul (keepOptions_getId autoId) (keepOptions_single fun _ _ => rfl)
  | getPassword auto =>
      refine Or.inr ⟨keepOptions_seeing fun c => ?_, fun _ _ => rfl⟩
      exact keepOptions_ite (keepOptions_single fun _ _ => rfl) keepOptions_one
  | getSalt auto =>
      refine Or.inr ⟨keepOptions_seeing fun c => ?_, fun _ _ => rfl⟩
      exact keepOptions_ite (keepOptions_single fun _ _ => rfl) keepOptions_one
  | setHostKeyConfirmed host v =>
      refine Or.inr ⟨keepOptions_seeing fun c => ?_, fun _ _ => rfl⟩
      exact keepOptions_ite keepOptions_one (keepOptions_single fun _ _ => rfl)
  | getConfirmed => exact Or.inr ⟨keepOptions_seeing fun _ => keepOptions_one, fun _ _ => rfl⟩
  | saveTmp => exact Or.inr ⟨keepOptions_seeing fun _ => keepOptions_one, fun _ _ => rfl⟩
  | peerFile => exact Or.inr ⟨keepOptions_one, fun _ _ => rfl⟩
  | getOption k => exact Or.inr ⟨keepOptions_seeing2 fun _ => keepOptions_one, fun _ _ => rfl⟩
  | getField => exact Or.inr ⟨keepOptions_seeing2 fun _ => keepOptions_one, fun _ _ => rfl⟩
  | getRendezvousServers => exact Or.inr ⟨keepOptions_getRendezvousServers, fun _ _ => rfl⟩
  | getRendezvousServer =>
      refine Or.inr ⟨keepOptions_seeing2 fun c => ?_, fun _ _ => rfl⟩
      apply keepOptions_ite _ keepOptions_one
      exact keepOptions_seeing2 fun c =>
        keepOptions_ite keepOptions_getRendezvousServers keepOptions_one
  | updateLatency host latency order debug =>
      refine Or.inr ⟨?_, fun _ _ => rfl⟩
      apply keepOptions_mul (keepOptions_single fun _ _ => rfl)
      exact keepOptions_seeingOnline fun online =>
        keepOptions_ite keepOptions_one (keepOptions_single fun _ _ => rfl)
  | _ => exact Or.inl rfl

theorem options_updateConfig2 (g : Globals) (same : Config2 → Bool) {f : Config2 → Config2}
    (hf : ∀ c, (f c).options = c.options) :
    (g.updateConfig2 same f).config2.options = g.config2.options := by
  unfold Globals.updateConfig2
  split_ifs
  · rfl
  · exact hf _

/-- What a call makes of an option when nobody comes in between. -/
theorem lookup_run_call (k : String) (g : Globals) (c : ApiCall) :
    (c.run g).config2.options.lookup k = c.optionAfter k (g.config2.options.lookup k) := by
  have hsame : ∀ {g' : Globals}, g'.config2 = g.config2 →
      g'.config2.options.lookup k = g.config2.options.lookup k := fun h => by rw [h]
  have hoptions : ∀ {g' : Globals}, g'.config2.options = g.config2.options →
      g'.config2.options.lookup k = g.config2.options.lookup k := fun h => by rw [h]
  have hgetId : ∀ autoId, (g.getId autoId).config2 = g.config2 := by
    intro autoId
    unfold Globals.getId
    split_ifs
    · cases autoId with
      | none => rfl
      | some tmp => exact Globals.config2_updateConfig _ _ _
    · rfl
  cases c with
  | setId id => exact hsame (Globals.config2_updateConfig _ _ _)
  | getId autoId => exact hsame (hgetId autoId)
  | updateId autoId newId =>
      have hset : (Globals.setId newId (g.getId autoId)).config2 = (g.getId autoId).config2 :=
        Globals.config2_updateConfig _ _ _
      exact hsame (hset.trans (hgetId autoId))
  | setPassword password => exact hsame (Globals.config2_updateConfig _ _ _)
  | getPassword auto =>
      apply hsame
      show (if g.config.password.isEmpty then g.setPassword auto else g).config2 = _
      split_ifs
      · exact Globals.config2_updateConfig _ _ _
      · rfl
  | setSalt salt => exact hsame (Globals.config2_updateConfig _ _ _)
  | getSalt auto =>
      apply hsame
      show (if g.config.salt.isEmpty then g.setSalt auto else g).config2 = _
      split_ifs
      · exact Globals.config2_updateConfig _ _ _
      · rfl
  | setKeyPair pair => exact hsame (Globals.config2_updateConfig _ _ _)
  | getKeyPair gen => exact hsame (Globals.config2_updateConfig _ _ _)
  | setKeyConfirmed v => exact hsame (Globals.config2_updateConfig _ _ _)
  | setHostKeyConfirmed host v => exact hsame (Globals.config2_updateConfig _ _ _)
  | setNatType natType => exact hoptions (options_updateConfig2 _ _ fun _ => rfl)
  | setSerial serial => exact hoptions (options_updateConfig2 _ _ fun _ => rfl)
  | setSize x y w h => exact hoptions (options_updateConfig2 _ _ fun _ => rfl)
  | setRemoteId remoteId => exact hoptions (options_updateConfig2 _ _ fun _ => rfl)
  | setOptions v => rfl
  | setOption k' v => exact Globals.lookup_setOption g k' v k
  | updateLatency host latency order debug =>
      apply hoptions
      show (Globals.updateLatency host latency order g).config2.options = _
      unfold Globals.updateLatency
      dsimp only
      split_ifs
      · exact options_updateConfig2 _ _ fun _ => rfl
      · rfl
  | _ => rfl

theorem lookup_run (k : String) (g : Globals) (e : ApiStep) :
    (ApiStep.run g e).config2.options.lookup k =
      e.optionAfter k (g.config2.options.lookup k) := by
  cases e with
  | call c => exact lookup_run_call k g c
  | confirmHost host v =>
      show (Globals.updateConfig _ _ g).config2.options.lookup k = _
      rw [Globals.config2_updateConfig]
      rfl
  | rememberServer host =>
      have hoptions : (ApiStep.run g (.rememberServer host)).config2.options = g.config2.options :=
        options_updateConfig2 _ _ fun _ => rfl
      rw [hoptions]
      rfl
  | _ => rfl

theorem foldl_keepsOptions {k : String} {es : List ApiStep} (h : ∀ e ∈ es, e.KeepsOptions)
    (o : Option String) : es.foldl (ApiStep.optionAfter k) o = o := by
  induction es with
  | nil => rfl
  | cons e es ih =>
      rw [List.forall_mem_cons] at h
      rw [List.foldl_cons, h.1]
      exact ih h.2

/-- The sections of the calls make of an option what the calls make of it. -/
theorem foldl_optionAfter {k : String} {calls : List ApiCall} {es : List ApiStep}
    (hes : es ∈ (calls.map ApiCall.sections).prod) (o : Option String) :
    es.foldl (ApiStep.optionAfter k) o = calls.foldl (ApiCall.optionAfter k) o := by
  induction calls generalizing es o with
  | nil =>
      rw [Set.mem_singleton_iff.mp hes]
      rfl
  | cons c calls ih =>
      rw [List.map_cons, List.prod_cons] at hes
      obtain ⟨mine, hmine, rest, hrest, rfl⟩ := Language.mem_mul.mp hes
      rw [List.foldl_append, ih hrest, List.foldl_cons]
      rcases sections_single_or_keep c with hsingle | ⟨hkeep, hsame⟩
      · rw [hsingle] at hmine
        rw [Set.mem_singleton_iff.mp hmine]
        rfl
      · rw [foldl_keepsOptions (hkeep mine hmine), hsame]

theorem optionAfter_of_ne {k : String} {c : ApiCall} (hset : ∀ v, c ≠ .setOption k v)
    (hall : ∀ m, c ≠ .setOptions m) (o : Option String) : c.optionAfter k o = o := by
  cases c with
  | setOption k' v =>
      have hk : k ≠ k' := by
        rintro rfl
        exact hset v rfl
      exact if_neg hk
  | setOptions m => exact absurd rfl (hall m)
  | _ => rfl

/-- Calls that are not about the option keep it, section by section. -/
theorem optionAfter_of_calls {k : String} {calls : List ApiCall} {es : List ApiStep}
    (hes : es ∈ (calls.map ApiCall.sections).prod)
    (hcalls : ∀ c ∈ calls, ∀ o, c.optionAfter k o = o) :
    ∀ e ∈ es, ∀ o, e.optionAfter k o = o := by
  induction calls generalizing es with
  | nil =>
      rw [Set.mem_singleton_iff.mp hes]
      exact List.forall_mem_nil _
  | cons c calls ih =>
      rw [List.map_cons, List.prod_cons] at hes
      rw [List.forall_mem_cons] at hcalls
      obtain ⟨mine, hmine, rest, hrest, rfl⟩ := Language.mem_mul.mp hes
      rw [List.forall_mem_append]
      refine ⟨?_, ih hrest hcalls.2⟩
      rcases sections_single_or_keep c with hsingle | ⟨hkeep, -⟩
      · rw [hsingle] at hmine
        rw [Set.mem_singleton_iff.mp hmine]
        exact List.forall_mem_singleton.mpr hcalls.1
      · exact fun e he o => hkeep mine hmine e he k o

section

variable {I : Type} [Fintype I] [DecidableEq I]

/-- **No option is lost.** If only one thread sets an option, then once every call has
returned, in memory and in the file, it is what that thread's calls alone make of it,
whatever the other threads have called in the meantime. -/
theorem option_of_its_thread {g : Globals} (h : Tracked g) (calls : I → List ApiCall)
    (k : String) (i : I)
    (hothers : ∀ j, j ≠ i → ∀ c ∈ calls j, (∀ v, c ≠ .setOption k v) ∧ ∀ m, c ≠ .setOptions m)
    (is : List I) (s : Threads I StaticLock SharedData)
    (hs : s = is.foldl Threads.step (startThreads (.of g) calls))
    (hdone : ∀ j, s.prog j = .done) :
    s.data.config2.options.lookup k =
        (calls i).foldl (ApiCall.optionAfter k) (g.config2.options.lookup k) ∧
      ∃ c, s.data.file2 = some c ∧ c.options = s.data.config2.options := by
  have hordered := (ordered_startThreads (.of g) calls).run is
  obtain ⟨order, hserialized⟩ := (serialized_startThreads g calls).run is
  rw [← hs] at hordered hserialized
  -- a section of another thread is of a call that is not about the option
  have hexplains := explains_of_serialized hserialized hordered
  have hkept : ∀ e ∈ ([] ++ order), e.1 ≠ i → ∀ t : Globals,
      (ApiStep.run t e.2).config2.options.lookup k = t.config2.options.lookup k := by
    intro e he hne t
    have hcalls : ∀ c ∈ calls e.1, ∀ o, c.optionAfter k o = o := by
      intro c hc o
      obtain ⟨hset, hall⟩ := hothers e.1 hne c hc
      exact optionAfter_of_ne hset hall o
    have hmine : e.2 ∈ doneBy e.1 ([] ++ order) := by
      apply List.mem_map_of_mem
      simpa using he
    rw [lookup_run]
    exact optionAfter_of_calls (hexplains.returned e.1 (hdone e.1)) hcalls e.2 hmine _
  constructor
  · rw [(hexplains.final hdone).config2]
    have hafter := after_of_others (a := sectionMachine)
      (f := fun t : Globals => t.config2.options.lookup k) (r := ApiStep.optionAfter k)
      hkept (fun e _ _ t => lookup_run k t e.2) g
    rw [foldl_optionAfter (hexplains.returned i (hdone i))] at hafter
    exact hafter
  · have hconfig2 := guarded_reached Script.respects_config2Guard (d := .of g)
      trivial ⟨g.file2, rfl, h.config2⟩ (fun _ _ _ => trivial) hs
    obtain ⟨c, hfile, hc⟩ := hconfig2.2 (hordered.open_of_done hdone _)
    have hoptions : c.withoutServer.options = s.data.config2.withoutServer.options :=
      congrArg Config2.options hc
    exact ⟨c, hfile, hoptions⟩

end

/-- Two threads that set one option each, and one of them generates the password. -/
def twoOptions : Bool → List ApiCall
  | false => [.setOption "a" "1", .setOption "a" "2"]
  | true => [.setOption "b" "3", .getPassword "k7m2p9"]

/-- The second thread waits for the lock while the first one stores its option. -/
def twoOptionsSet : Threads Bool StaticLock SharedData :=
  ([false, false, true] ++ List.replicate 5 false ++ [true, true, false] ++
    List.replicate 14 true ++ List.replicate 7 false).foldl Threads.step
    (startThreads (.of firstGlobals) twoOptions)

theorem twoOptionsSet_done : ∀ j, twoOptionsSet.prog j = .done := by
  intro j
  cases j <;> rfl

theorem option_of_its_thread_two :
    twoOptionsSet.data.config2.options.lookup "a" =
        (twoOptions false).foldl (ApiCall.optionAfter "a")
          (firstGlobals.config2.options.lookup "a") ∧
      ∃ c, twoOptionsSet.data.file2 = some c ∧ c.options = twoOptionsSet.data.config2.options :=
  option_of_its_thread tracked_firstGlobals twoOptions "a" false
    (by
      intro j hj c hc
      cases j with
      | false => exact absurd rfl hj
      | true =>
          simp only [twoOptions, List.mem_cons, List.not_mem_nil, or_false] at hc
          rcases hc with rfl | rfl <;> simp)
    _ twoOptionsSet rfl twoOptionsSet_done

end RustdeskServer.Configuration
