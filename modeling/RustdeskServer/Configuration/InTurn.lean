import RustdeskServer.Configuration.Threads

/-!
# Calls that nobody comes in between

A thread that takes its turns alone does, call after call, what the calls of `Config.lean`
do in one step each: there the critical sections of one call are one step, and here it is
proved that they may be, as long as nobody comes in between.
-/

namespace RustdeskServer.Configuration

open RustdeskServer.Framework

namespace Script

/-! ## A call that nobody comes in between -/

variable {next : Script} {d : SharedData}

@[simp] theorem exec_readConfig (f : Config → Script) (d : SharedData) :
    (readConfig f).exec d = (f d.config).exec d := rfl

@[simp] theorem exec_lookConfig2 (m : Mode) (f : Config2 → Script) (d : SharedData) :
    (lookConfig2 m f).exec d = (f d.config2).exec d := rfl

@[simp] theorem exec_change (f : SharedData → SharedData) (d : SharedData) :
    (change f next).exec d = next.exec (f d) := rfl

@[simp] theorem exec_updateConfig (same : Config → Bool) (f : Config → Config) (d : SharedData) :
    (updateConfig same f next).exec d =
      next.exec (if same d.config then d
        else { d with config := f d.config, file := some (f d.config) }) := by
  show (if same d.config then Prog.release StaticLock.config next else _ : Script).exec d = _
  split_ifs <;> rfl

@[simp] theorem exec_updateConfig2 (same : Config2 → Bool) (f : Config2 → Config2)
    (d : SharedData) :
    (updateConfig2 same f next).exec d =
      next.exec (if same d.config2 then d
        else { d with config2 := f d.config2, file2 := some (f d.config2) }) := by
  show (if same d.config2 then Prog.release StaticLock.config2 next else _ : Script).exec d = _
  split_ifs <;> rfl

theorem exec_getRendezvousServers (f : List String → Script) (d : SharedData) :
    (getRendezvousServers f).exec d = (f d.config2.getRendezvousServers).exec d := by
  unfold getRendezvousServers getOption readConfig2 Config2.getRendezvousServers
  rw [exec_lookConfig2]
  dsimp only
  split_ifs
  · rfl
  · rw [exec_lookConfig2]
    split_ifs with hserial
    · rfl
    · simp [serverList, hserial]

theorem exec_getRendezvousServer (d : SharedData) :
    (getRendezvousServer next).exec d = next.exec d := by
  unfold getRendezvousServer getOption readConfig2
  rw [exec_lookConfig2]
  dsimp only
  split_ifs
  · rw [exec_lookConfig2]
    split_ifs
    · exact exec_getRendezvousServers _ d
    · rfl
  · rfl

end Script

/-- The call in one step, as in `Config.lean`; the calls that only read change nothing. -/
def ApiCall.run : ApiCall → Globals → Globals
  | .setId id => .setId id
  | .getId autoId => .getId autoId
  | .updateId autoId newId => .updateId autoId newId
  | .setPassword password => .setPassword password
  | .getPassword auto => fun g => if g.config.password.isEmpty then g.setPassword auto else g
  | .setSalt salt => .setSalt salt
  | .getSalt auto => fun g => if g.config.salt.isEmpty then g.setSalt auto else g
  | .setKeyPair pair => .setKeyPair pair
  | .getKeyPair gen => .getKeyPair gen
  | .setKeyConfirmed v => .setKeyConfirmed v
  | .setHostKeyConfirmed host v => .setHostKeyConfirmed host v
  | .setNatType natType => .setNatType natType
  | .setSerial serial => .setSerial serial
  | .setSize x y w h => .setSize x y w h
  | .setRemoteId remoteId => .setRemoteId remoteId
  | .setOptions v => .setOptions v
  | .setOption k v => .setOption k v
  | .updateLatency host latency order _ => .updateLatency host latency order
  | .resetOnline => .resetOnline
  | .getConfirmed | .saveTmp | .peerFile | .getOption _ | .getField | .getRendezvousServers
  | .getRendezvousServer => id

namespace SharedData

/-- The statics and the files are these, and both files are whole. -/
structure Shows (d : SharedData) (g : Globals) : Prop where
  config : d.config = g.config
  config2 : d.config2 = g.config2
  online : d.online = g.online
  file : d.file = some g.file
  file2 : d.file2 = some g.file2

theorem shows_of (g : Globals) : (SharedData.of g).Shows g := ⟨rfl, rfl, rfl, rfl, rfl⟩

variable {d : SharedData} {g : Globals}

theorem Shows.updateConfig (h : d.Shows g) (same : Config → Bool) (f : Config → Config) :
    Shows (if same d.config then d
      else { d with config := f d.config, file := some (f d.config) })
      (g.updateConfig same f) := by
  unfold Globals.updateConfig
  rw [h.config]
  split_ifs
  · exact h
  · exact ⟨rfl, h.config2, h.online, rfl, h.file2⟩

theorem Shows.updateConfig2 (h : d.Shows g) (same : Config2 → Bool) (f : Config2 → Config2) :
    Shows (if same d.config2 then d
      else { d with config2 := f d.config2, file2 := some (f d.config2) })
      (g.updateConfig2 same f) := by
  unfold Globals.updateConfig2
  rw [h.config2]
  split_ifs
  · exact h
  · exact ⟨h.config, rfl, h.online, h.file, rfl⟩

end SharedData

namespace Script

/-- With nobody in between, what comes after the script finds what `f` leaves. -/
def Does (script : Script → Script) (f : Globals → Globals) : Prop :=
  ∀ d g, d.Shows g → ∃ d', d'.Shows (f g) ∧ ∀ next, (script next).exec d = next.exec d'

theorem does_nothing {script : Script → Script} (h : ∀ next d, (script next).exec d = next.exec d) :
    Does script id :=
  fun d _ hshows => ⟨d, hshows, fun next => h next d⟩

theorem does_updateConfig (same : Config → Bool) (f : Config → Config) :
    Does (updateConfig same f) (Globals.updateConfig same f) :=
  fun d _ hshows => ⟨_, hshows.updateConfig same f, fun _ => exec_updateConfig same f d⟩

theorem does_updateConfig2 (same : Config2 → Bool) (f : Config2 → Config2) :
    Does (updateConfig2 same f) (Globals.updateConfig2 same f) :=
  fun d _ hshows => ⟨_, hshows.updateConfig2 same f, fun _ => exec_updateConfig2 same f d⟩

/-- `get_password` and `get_salt`: read, and store if it is empty. -/
theorem does_readConfig {script : Script → Script} {f : Globals → Globals} (h : Does script f)
    (p : Config → Bool) :
    Does (fun next => readConfig fun c => if p c then script next else next)
      fun g => if p g.config then f g else g := by
  intro d g hshows
  simp only [exec_readConfig, hshows.config]
  cases p g.config with
  | true => exact h d g hshows
  | false => exact ⟨d, hshows, fun _ => rfl⟩

theorem does_setId (id : String) : Does (setId id) (Globals.setId id) := does_updateConfig _ _

theorem does_getId (autoId : Option String) : Does (getId autoId) (Globals.getId autoId) := by
  cases autoId with
  | none =>
      intro d g hshows
      refine ⟨d, ?_, ?_⟩
      · simpa [Globals.getId] using hshows
      · intro next
        simp [getId]
  | some tmp => exact does_readConfig (does_setId tmp) fun c => c.id.isEmpty

theorem does_updateId (autoId : Option String) (newId : String) :
    Does (updateId autoId newId) (Globals.updateId autoId newId) := by
  intro d g hshows
  obtain ⟨d', hshows', hget⟩ := does_getId autoId d g hshows
  obtain ⟨d'', hshows'', hset⟩ := does_setId newId d' _ hshows'
  exact ⟨d'', hshows'', fun next => (hget _).trans (hset next)⟩

theorem does_setHostKeyConfirmed (host : String) (v : Bool) :
    Does (setHostKeyConfirmed host v) (Globals.setHostKeyConfirmed host v) := by
  intro d g hshows
  unfold setHostKeyConfirmed Globals.setHostKeyConfirmed Globals.updateConfig
  simp only [exec_readConfig, hshows.config]
  by_cases hsame : Globals.getHostKeyConfirmed g.config host = v
  · exact ⟨d, by simpa [hsame] using hshows, fun _ => by rw [if_pos hsame]⟩
  · obtain ⟨d', hshows', hset⟩ := does_updateConfig (fun _ => false)
      (fun c => { c with keysConfirmed := c.keysConfirmed.insert host v }) d g hshows
    refine ⟨d', ?_, ?_⟩
    · simpa [Globals.updateConfig, hsame] using hshows'
    · intro next
      rw [if_neg hsame, hset]

theorem does_getKeyPair (gen : Codec.Bytes × Codec.Bytes) :
    Does (getKeyPair gen) (Globals.getKeyPair gen) := by
  intro d g hshows
  have hupdate := hshows.updateConfig (fun c => !c.keyPair.1.isEmpty)
    fun c => { c with keyPair := (gen.2, gen.1) }
  have hrecorded : ∀ {d : SharedData} {g : Globals} (pairs), d.Shows g →
      SharedData.Shows { d with pairs := pairs } g :=
    fun _ h => ⟨h.config, h.config2, h.online, h.file, h.file2⟩
  unfold getKeyPair
  cases hempty : d.config.keyPair.1.isEmpty with
  | true =>
      simp only [hempty, Bool.not_true, Bool.false_eq_true, if_false] at hupdate
      refine ⟨_, hrecorded (d.pairs ++ [(gen.2, gen.1)]) hupdate, ?_⟩
      intro next
      simp only [look, Prog.exec, id_eq, hempty, if_true]
      rfl
  | false =>
      simp only [hempty, Bool.not_false, if_true] at hupdate
      refine ⟨_, hrecorded (d.pairs ++ [d.config.keyPair]) hupdate, ?_⟩
      intro next
      simp only [look, Prog.exec, id_eq, hempty]
      rfl

theorem does_storeOption (k v : String) :
    Does (fun next => look fun d =>
      if wanted v ≠ d.config2.options.lookup k then
        change (fun d =>
          { d with
            config2 := { d.config2 with
              options :=
                if (wanted v).isNone then d.config2.options.erase k
                else d.config2.options.insert k v } }) <|
        store2 <| .release .config2 next
      else .release .config2 next) (Globals.storeOption k v) := by
  intro d g hshows
  by_cases hsame : g.config2.options.lookup k = wanted v
  · rw [storeOption_same hsame]
    refine ⟨d, hshows, ?_⟩
    intro next
    simp only [look, Prog.exec, id_eq, hshows.config2, hsame]
    simp [Prog.exec]
  · obtain ⟨options, hoptions⟩ : ∃ options, options =
        if (wanted v).isNone then d.config2.options.erase k
        else d.config2.options.insert k v := ⟨_, rfl⟩
    refine ⟨{ d with
      config2 := { d.config2 with options := options }
      file2 := some { d.config2 with options := options } }, ?_, ?_⟩
    · rw [storeOption_ne hsame, ← hshows.config2, ← hoptions]
      exact ⟨hshows.config, rfl, hshows.online, hshows.file, rfl⟩
    · intro next
      have hchanged : wanted v ≠ d.config2.options.lookup k := by
        rw [hshows.config2]
        exact Ne.symm hsame
      simp only [look, Prog.exec, id_eq]
      rw [if_pos hchanged, hoptions]
      rfl

theorem does_setOption (k v : String) : Does (setOption k v) (Globals.setOption k v) := by
  intro d g hshows
  have hforget : SharedData.Shows
      { d with
        config2 :=
          if k = Globals.customRendezvousServer then { d.config2 with rendezvousServer := "" }
          else d.config2 }
      (if k = Globals.customRendezvousServer then g.forgetServer else g) := by
    split_ifs
    · refine ⟨hshows.config, ?_, hshows.online, hshows.file, hshows.file2⟩
      simp [Globals.forgetServer, hshows.config2]
    · exact ⟨hshows.config, hshows.config2, hshows.online, hshows.file, hshows.file2⟩
  obtain ⟨d', hshows', hstore⟩ := does_storeOption k v _ _ hforget
  exact ⟨d', hshows', hstore⟩

theorem does_updateLatency (host : String) (latency : Int) (order : IterOrder) (debug : Bool) :
    Does (updateLatency host latency order debug) (Globals.updateLatency host latency order) := by
  intro d g hshows
  have honline : SharedData.Shows { d with online := d.online.insert host latency }
      { g with online := g.online.insert host latency } := by
    refine ⟨hshows.config, hshows.config2, ?_, hshows.file, hshows.file2⟩
    simp [hshows.online]
  unfold Globals.updateLatency
  dsimp only
  obtain ⟨best, hbest⟩ : ∃ best, best = fastest order (g.online.insert host latency) := ⟨_, rfl⟩
  have hloop : ((order.iter (g.online.insert host latency)).foldl Globals.fasterHost
      ("", Globals.maxDelay)).1 = best := hbest.symm
  rw [hloop]
  have hlog : ∀ (next : Script) (d : SharedData), (logOnline debug next).exec d = next.exec d := by
    intro next d
    cases debug <;> rfl
  cases hempty : best.isEmpty with
  | true =>
      refine ⟨_, honline, ?_⟩
      intro next
      simp only [updateLatency, look, change, Prog.exec, id_eq, hshows.online, ← hbest, hempty,
        if_true]
  | false =>
      have hupdate := honline.updateConfig2 (fun c => best = c.rendezvousServer)
        fun c => { c with rendezvousServer := best }
      refine ⟨_, hupdate, ?_⟩
      intro next
      simp only [updateLatency, rememberServer, look, change, Prog.exec, id_eq, hshows.online,
        ← hbest, hempty]
      by_cases hsame : best = d.config2.rendezvousServer
      · simp [hsame, Prog.exec]
      · simp [hsame, Prog.exec, hlog, store2, change]

/-- **A call that nobody comes in between** does what the call of `Config.lean` does. -/
theorem does_script (c : ApiCall) : Does c.script c.run := by
  cases c with
  | setId id => exact does_setId id
  | getId autoId => exact does_getId autoId
  | updateId autoId newId => exact does_updateId autoId newId
  | setPassword password =>
      show Does (Script.setPassword password) (Globals.setPassword password)
      exact does_updateConfig _ _
  | getPassword auto => exact does_readConfig (does_updateConfig _ _) fun c => c.password.isEmpty
  | setSalt salt =>
      show Does (Script.setSalt salt) (Globals.setSalt salt)
      exact does_updateConfig _ _
  | getSalt auto => exact does_readConfig (does_updateConfig _ _) fun c => c.salt.isEmpty
  | setKeyPair pair =>
      show Does (Script.setKeyPair pair) (Globals.setKeyPair pair)
      exact does_updateConfig _ _
  | getKeyPair gen => exact does_getKeyPair gen
  | setKeyConfirmed v =>
      show Does (Script.setKeyConfirmed v) (Globals.setKeyConfirmed v)
      exact does_updateConfig _ _
  | setHostKeyConfirmed host v => exact does_setHostKeyConfirmed host v
  | setNatType natType =>
      show Does (Script.setNatType natType) (Globals.setNatType natType)
      exact does_updateConfig2 _ _
  | setSerial serial =>
      show Does (Script.setSerial serial) (Globals.setSerial serial)
      exact does_updateConfig2 _ _
  | setSize x y w h =>
      show Does (Script.setSize x y w h) (Globals.setSize x y w h)
      exact does_updateConfig2 _ _
  | setRemoteId remoteId =>
      show Does (Script.setRemoteId remoteId) (Globals.setRemoteId remoteId)
      exact does_updateConfig2 _ _
  | setOptions v =>
      show Does (Script.setOptions v) (Globals.setOptions v)
      exact does_updateConfig2 _ _
  | setOption k v => exact does_setOption k v
  | updateLatency host latency order debug => exact does_updateLatency host latency order debug
  | getRendezvousServers => exact does_nothing fun next => exec_getRendezvousServers fun _ => next
  | getRendezvousServer => exact does_nothing fun _ => exec_getRendezvousServer
  | getConfirmed => exact does_nothing fun _ _ => rfl
  | peerFile => exact does_nothing fun _ _ => rfl
  | getOption k => exact does_nothing fun _ _ => rfl
  | getField => exact does_nothing fun _ _ => rfl
  | saveTmp =>
      intro d g hshows
      exact ⟨{ d with saved2 := d.saved2 ++ [d.file2], saved := d.saved ++ [(d.file, d.config)] },
        ⟨hshows.config, hshows.config2, hshows.online, hshows.file, hshows.file2⟩, fun _ => rfl⟩
  | resetOnline =>
      intro d g hshows
      exact ⟨{ d with online := ∅ },
        ⟨hshows.config, hshows.config2, rfl, hshows.file, hshows.file2⟩, fun _ => rfl⟩

theorem shows_thread {calls : List ApiCall} {d : SharedData} {g : Globals} (h : d.Shows g) :
    ((thread calls).exec d).Shows (calls.foldl (fun g c => c.run g) g) := by
  induction calls generalizing d g with
  | nil => exact h
  | cons c calls ih =>
      obtain ⟨d', hshows, hexec⟩ := does_script c d g h
      show ((c.script (thread calls)).exec d).Shows _
      rw [hexec]
      exact ih hshows

end Script

section

variable {I : Type} [Fintype I] [DecidableEq I]

/-- The threads of `front` have run one after the other: their calls have returned, the data is
what these calls leave, and the other threads have not begun. -/
structure RanInTurn (calls : I → List ApiCall) (g : Globals) (front : List I)
    (s : Threads I StaticLock SharedData) : Prop where
  done : ∀ i ∈ front, s.prog i = .done
  data : s.data.Shows ((front.flatMap calls).foldl (fun g c => c.run g) g)
  others : ∀ j, j ∉ front → s.prog j = thread (calls j)

theorem exists_turns {calls : I → List ApiCall} {ran is : List I} (hnodup : (ran ++ is).Nodup)
    {s : Threads I StaticLock SharedData} {g : Globals} (hordered : s.Ordered StaticLock.rank)
    (hheld : ∀ i l, s.held i l = none) (hran : RanInTurn calls g ran s) :
    ∃ n : I → ℕ, ∀ front, front <+: is → RanInTurn calls g (ran ++ front)
      ((front.flatMap fun i => List.replicate (n i) i).foldl Threads.step s) := by
  induction is generalizing ran s with
  | nil =>
      refine ⟨fun _ => 0, ?_⟩
      rintro front hfront
      rw [List.prefix_nil.mp hfront, List.append_nil]
      exact hran
  | cons i is ih =>
      have hout : i ∉ ran := fun hin =>
        List.disjoint_of_nodup_append hnodup hin List.mem_cons_self
      obtain ⟨k, hfinished⟩ := hordered.alone (i := i) fun j _ l => hheld j l
      have hdata := hfinished.data
      rw [hran.others i hout] at hdata
      have hnext : RanInTurn calls g (ran ++ [i]) ((List.replicate k i).foldl Threads.step s) := by
        constructor
        · intro j hj
          rw [hfinished.prog]
          by_cases hji : j = i
          · rw [hji, Function.update_self]
          · rw [Function.update_of_ne hji]
            rcases List.mem_append.mp hj with hj | hj
            · exact hran.done j hj
            · exact absurd (List.mem_singleton.mp hj) hji
        · rw [hdata, List.flatMap_append, List.foldl_append, List.flatMap_singleton]
          exact Script.shows_thread hran.data
        · intro j hj
          rw [List.mem_append, not_or, List.mem_singleton] at hj
          rw [hfinished.prog, Function.update_of_ne hj.2]
          exact hran.others j hj.1
      rw [List.append_cons] at hnodup
      obtain ⟨n, hn⟩ := ih hnodup (hordered.run _) hfinished.held hnext
      have hlater : i ∉ is := fun hin => by
        refine List.disjoint_of_nodup_append hnodup ?_ hin
        exact List.mem_append_right _ (List.mem_singleton_self i)
      refine ⟨Function.update n i k, ?_⟩
      intro front hfront
      rcases List.prefix_cons_iff.mp hfront with rfl | ⟨rest, rfl, hrest⟩
      · rw [List.append_nil]
        exact hran
      · have hsame : (rest.flatMap fun j => List.replicate (Function.update n i k j) j) =
            rest.flatMap fun j => List.replicate (n j) j := by
          apply List.flatMap_congr
          intro j hj
          have hne : j ≠ i := fun heq => hlater (heq ▸ hrest.subset hj)
          rw [Function.update_of_ne hne]
        rw [List.flatMap_cons, List.foldl_append, Function.update_self, hsame, List.append_cons]
        exact hn rest hrest

/-- **Whole threads one after the other**, in any order: each needs so many turns, and whenever
the first of them have had theirs, their calls have returned and have done what they do one
after the other, and no other thread has begun. -/
theorem threads_in_turn (g : Globals) (calls : I → List ApiCall) {is : List I} (h : is.Nodup) :
    ∃ n : I → ℕ, ∀ front, front <+: is → RanInTurn calls g front
      ((front.flatMap fun i => List.replicate (n i) i).foldl Threads.step
        (startThreads (.of g) calls)) := by
  have hnone : RanInTurn calls g [] (startThreads (.of g) calls) :=
    ⟨List.forall_mem_nil _, SharedData.shows_of g, fun _ _ => rfl⟩
  have hnodup : ([] ++ is).Nodup := h
  exact exists_turns hnodup (ordered_startThreads _ calls) (fun _ _ => rfl) hnone

/-- One thread asks for the password twice, the other one sets it. -/
def passwordCalls : Bool → List ApiCall
  | false => [.getPassword "k7m2p9", .getPassword "x3c8r4"]
  | true => [.setPassword "secret", .setNatType 1]

theorem threads_in_turn_password :
    [true, false].Nodup ∧ ∃ n : Bool → ℕ, ∀ front, front <+: [true, false] →
      RanInTurn passwordCalls ⟨.default, .default, ∅, .default, .default⟩ front
        ((front.flatMap fun i => List.replicate (n i) i).foldl Threads.step
          (startThreads (.of ⟨.default, .default, ∅, .default, .default⟩) passwordCalls)) := by
  have h : [true, false].Nodup := by decide
  exact ⟨h, threads_in_turn _ passwordCalls h⟩

end

end RustdeskServer.Configuration
