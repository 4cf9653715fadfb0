import RustdeskServer.Configuration.Threads
import RustdeskServer.Configuration.Restart

/-!
# What the locks of the configuration guard

`config.rs` stores a record under the lock of the record; under `CONFIG` it also makes the
key pair and copies both files. For any threads and any order of their turns, a file is
whole and up to date whenever its lock is open (`stored_files_whole`), and there is one key
pair (`key_pairs_agree`). The copy of the second file is made under the lock of the first,
so that it may be of a file that is just being written.

Each of the three is a guard of `Framework.Locks`, and what the calls have to do for it is
one rule for every call.
-/

namespace RustdeskServer.Configuration

open RustdeskServer.Framework

/-- Every copy of the file is what was in memory then. -/
def CopiedWhole (saved : List (Option Config × Config)) : Prop := ∀ e ∈ saved, e.1 = some e.2

/-- Everybody got this pair, and it is not the empty one. -/
def HandedOut (pair : Codec.Bytes × Codec.Bytes) (pairs : List (Codec.Bytes × Codec.Bytes)) :
    Prop :=
  ∀ k ∈ pairs, k = pair ∧ k.1 ≠ []

/-- Everybody got the same pair. -/
def AllSame (pairs : List (Codec.Bytes × Codec.Bytes)) : Prop := ∃ pair, HandedOut pair pairs

theorem CopiedWhole.concat {saved : List (Option Config × Config)} (h : CopiedWhole saved)
    (c : Config) : CopiedWhole (saved ++ [(some c, c)]) := by
  intro e he
  rcases List.mem_append.mp he with hold | hnew
  · exact h e hold
  · rw [List.mem_singleton.mp hnew]

theorem HandedOut.concat {pair : Codec.Bytes × Codec.Bytes}
    {pairs : List (Codec.Bytes × Codec.Bytes)} (h : HandedOut pair pairs) (hpair : pair.1 ≠ []) :
    HandedOut pair (pairs ++ [pair]) := by
  intro k hk
  rcases List.mem_append.mp hk with hold | hnew
  · exact h k hold
  · rw [List.mem_singleton.mp hnew]
    exact ⟨rfl, hpair⟩

/-- While the pair is empty nobody has got one. -/
theorem HandedOut.eq_nil {pair : Codec.Bytes × Codec.Bytes}
    {pairs : List (Codec.Bytes × Codec.Bytes)} (h : HandedOut pair pairs) (hpair : pair.1 = []) :
    pairs = [] := by
  apply List.eq_nil_iff_forall_not_mem.mpr
  intro k hk
  obtain ⟨heq, hne⟩ := h k hk
  exact hne (heq ▸ hpair)

theorem withoutServer_forget (c : Config2) (p : Prop) [Decidable p] :
    (if p then { c with rendezvousServer := "" } else c).withoutServer = c.withoutServer := by
  split_ifs <;> rfl

/-- Under `CONFIG`: the first record and its file, of which copies are made. -/
def configGuard : Guard StaticLock SharedData (Config × Option Config) where
  lock := .config
  part d := (d.config, d.file)
  rests p := p.2 = some p.1
  always d := CopiedWhole d.saved

/-- Under `CONFIG2`: the second record and its file, the remembered server aside. -/
def config2Guard : Guard StaticLock SharedData (Config2 × Option Config2) where
  lock := .config2
  part d := (d.config2, d.file2)
  rests p := ∃ c, p.2 = some c ∧ c.withoutServer = p.1.withoutServer
  always _ := True

/-- Under `CONFIG` too: the key pair, and who got it. -/
def pairGuard : Guard StaticLock SharedData
    ((Codec.Bytes × Codec.Bytes) × List (Codec.Bytes × Codec.Bytes)) where
  lock := .config
  part d := (d.config.keyPair, d.pairs)
  rests p := HandedOut p.1 p.2
  always d := AllSame d.pairs

/-- No pair is set, and what is generated is a pair. -/
def OnlyGenerated (c : ApiCall) : Prop :=
  (∀ pair, c ≠ .setKeyPair pair) ∧ ∀ gen, c = .getKeyPair gen → gen.2 ≠ []

section

variable {d : SharedData}

@[simp] theorem configGuard_lock : configGuard.lock = .config := rfl
@[simp] theorem configGuard_part : configGuard.part d = (d.config, d.file) := rfl
@[simp] theorem configGuard_rests {p : Config × Option Config} :
    configGuard.rests p ↔ p.2 = some p.1 := Iff.rfl
@[simp] theorem configGuard_always : configGuard.always d ↔ CopiedWhole d.saved := Iff.rfl

@[simp] theorem config2Guard_lock : config2Guard.lock = .config2 := rfl
@[simp] theorem config2Guard_part : config2Guard.part d = (d.config2, d.file2) := rfl
@[simp] theorem config2Guard_rests {p : Config2 × Option Config2} :
    config2Guard.rests p ↔ ∃ c, p.2 = some c ∧ c.withoutServer = p.1.withoutServer := Iff.rfl
@[simp] theorem config2Guard_always : config2Guard.always d := trivial

@[simp] theorem pairGuard_lock : pairGuard.lock = .config := rfl
@[simp] theorem pairGuard_part : pairGuard.part d = (d.config.keyPair, d.pairs) := rfl
@[simp] theorem pairGuard_rests
    {p : (Codec.Bytes × Codec.Bytes) × List (Codec.Bytes × Codec.Bytes)} :
    pairGuard.rests p ↔ HandedOut p.1 p.2 := Iff.rfl
@[simp] theorem pairGuard_always : pairGuard.always d ↔ AllSame d.pairs := Iff.rfl

end

namespace Script

section

variable {P : Type} {g : Guard StaticLock SharedData P} {c : Prop} [Decidable c] {p q : Script}
  {grip : Grip P}

theorem guarded_ite :
    Prog.Guarded g (if c then p else q) grip ↔
      (c → Prog.Guarded g p grip) ∧ (¬ c → Prog.Guarded g q grip) := by
  split_ifs with h <;> simp [h]

end

attribute [local simp] Prog.Guarded guarded_ite gripOf Grip.Fits Grip.update look change store
  store2

theorem respects_configGuard :
    Respects (fun _ => True) fun _ p => Prog.Guarded configGuard p .off where
  mono hp _ := hp
  readConfig h := by simp +contextual [readConfig, h]
  lookConfig2 m h := by simp +contextual [lookConfig2, h]
  updateConfig same f _ h := by simp +contextual [Script.updateConfig, h]
  updateConfig2 same f h := by simp +contextual [Script.updateConfig2, h]
  setKeyPair pair _ h := by simp +contextual [setKeyPair, Script.updateConfig, h]
  getKeyPair gen _ h := by simp +contextual [getKeyPair, clonePair, h]
  saveTmp h := by simp +contextual [saveTmp, h, CopiedWhole.concat]
  peerFile h := by simp [peerFile, h]
  setOption k v h := by simp +contextual [setOption, h]
  resetOnline h := by simp +contextual [resetOnline, h]
  updateLatency {n p} host latency order debug h := by
    have hremember : ∀ host, Prog.Guarded configGuard (rememberServer host debug p) .off := by
      intro host
      cases debug <;> simp +contextual [rememberServer, logOnline, h]
    simp +contextual [updateLatency, h, hremember]

theorem respects_config2Guard :
    Respects (fun _ => True) fun _ p => Prog.Guarded config2Guard p .off where
  mono hp _ := hp
  readConfig h := by simp +contextual [readConfig, h]
  lookConfig2 m h := by cases m <;> simp +contextual [lookConfig2, h]
  updateConfig same f _ h := by simp +contextual [Script.updateConfig, h]
  updateConfig2 same f h := by simp +contextual [Script.updateConfig2, h]
  setKeyPair pair _ h := by simp +contextual [setKeyPair, Script.updateConfig, h]
  getKeyPair gen _ h := by simp +contextual [getKeyPair, clonePair, h]
  saveTmp h := by simp +contextual [saveTmp, h]
  peerFile h := by simp [peerFile, h]
  setOption k v h := by simp +contextual [setOption, h, withoutServer_forget]
  resetOnline h := by simp +contextual [resetOnline, h]
  updateLatency {n p} host latency order debug h := by
    have hremember : ∀ host, Prog.Guarded config2Guard (rememberServer host debug p) .off := by
      intro host
      cases debug <;> simp +contextual [rememberServer, logOnline, h]
    simp +contextual [updateLatency, h, hremember]

theorem guarded_clonePair {next : Script} (h : Prog.Guarded pairGuard next .off)
    {pair : Codec.Bytes × Codec.Bytes} {pairs : List (Codec.Bytes × Codec.Bytes)}
    (hhanded : HandedOut pair pairs) (hpair : pair.1 ≠ []) :
    Prog.Guarded pairGuard (clonePair next) (.exclusive (pair, pairs)) := by
  have hconcat := hhanded.concat hpair
  have hsame : AllSame (pairs ++ [pair]) := ⟨pair, hconcat⟩
  simp +contextual [clonePair, h, hconcat, hsame]

theorem respects_pairGuard :
    Respects OnlyGenerated fun _ p => Prog.Guarded pairGuard p .off where
  mono hp _ := hp
  readConfig h := by simp +contextual [readConfig, h]
  lookConfig2 m h := by simp +contextual [lookConfig2, h]
  updateConfig same f hf h := by simp +contextual [Script.updateConfig, h, hf]
  updateConfig2 same f h := by simp +contextual [Script.updateConfig2, h]
  setKeyPair pair hset _ := absurd rfl (hset.1 pair)
  getKeyPair gen hgen h := by
    constructor
    · rintro - ⟨pair, pairs⟩ hhanded d hsame hfits
      cases hfits
      refine ⟨hsame, fun _ => rfl, ?_⟩
      dsimp only
      split_ifs with hempty
      · have hnil : d.pairs = [] := hhanded.eq_nil (List.isEmpty_iff.mp hempty)
        have hnobody : HandedOut (gen.2, gen.1) [] := by simp [HandedOut]
        have hsame : AllSame [] := ⟨_, hnobody⟩
        simp +contextual [hnil, hsame, guarded_clonePair h hnobody (hgen.2 gen rfl)]
      · apply guarded_clonePair h hhanded
        simpa using hempty
    · simp
  saveTmp h := by simp +contextual [saveTmp, h]
  peerFile h := by simp [peerFile, h]
  setOption k v h := by simp +contextual [setOption, h]
  resetOnline h := by simp +contextual [resetOnline, h]
  updateLatency {n p} host latency order debug h := by
    have hremember : ∀ host, Prog.Guarded pairGuard (rememberServer host debug p) .off := by
      intro host
      cases debug <;> simp +contextual [rememberServer, logOnline, h]
    simp +contextual [updateLatency, h, hremember]

end Script

section

variable {I : Type} [Fintype I] [DecidableEq I]

/-- What the rule of guarded data says after any schedule. -/
theorem guarded_reached {P : Type} {g : Guard StaticLock SharedData P} {allowed : ApiCall → Prop}
    (hrespects : Script.Respects allowed fun _ p => Prog.Guarded g p .off) {d : SharedData}
    (halways : g.always d) (hrests : g.rests (g.part d)) {calls : I → List ApiCall}
    (hallowed : ∀ i, ∀ c ∈ calls i, allowed c) {is : List I} {s : Threads I StaticLock SharedData}
    (hs : s = is.foldl Threads.step (startThreads d calls)) :
    g.always s.data ∧ (s.Open g.lock → g.rests (g.part s.data)) := by
  rw [hs]
  have hprogs : ∀ i, Prog.Guarded g (thread (calls i)) .off := fun i =>
    hrespects.thread trivial (hallowed i)
  exact Always.final is (Threads.Guarded.always_rests d _ halways hrests hprogs is)

/-- **The files are whole.** However the threads take turns: whenever nobody has `CONFIG` for
itself, its file holds the record, and whenever nobody has `CONFIG2` for itself, its file
holds the record but for the remembered server; so do both once every call has returned. A
copy that `save_tmp` makes of the first file is what was in memory. -/
theorem stored_files_whole {g : Globals} (h : Tracked g) (calls : I → List ApiCall)
    (is : List I) (s : Threads I StaticLock SharedData)
    (hs : s = is.foldl Threads.step (startThreads (.of g) calls)) :
    (s.Open .config → s.data.file = some s.data.config) ∧
      (s.Open .config2 →
        ∃ c, s.data.file2 = some c ∧ c.withoutServer = s.data.config2.withoutServer) ∧
      ((∀ i, s.prog i = .done) → s.Open .config ∧ s.Open .config2) ∧
      ∀ e ∈ s.data.saved, e.1 = some e.2 := by
  have hconfig := guarded_reached Script.respects_configGuard (d := .of g)
    (fun _ he => nomatch he) (congrArg some h.config) (fun _ _ _ => trivial) hs
  have hconfig2 := guarded_reached Script.respects_config2Guard (d := .of g)
    trivial ⟨g.file2, rfl, h.config2⟩ (fun _ _ _ => trivial) hs
  refine ⟨hconfig.2, hconfig2.2, ?_, hconfig.1⟩
  intro hdone
  have hordered := (ordered_startThreads (.of g) calls).run is
  rw [← hs] at hordered
  exact ⟨hordered.open_of_done hdone .config, hordered.open_of_done hdone .config2⟩

/-- One thread stores the second record, and another one copies the files. -/
def storeAndCopy : Bool → List ApiCall
  | false => [.setNatType 1]
  | true => [.saveTmp]

/-- A process that has just been started for the first time. -/
def firstGlobals : Globals :=
  ⟨Config.default, Config2.default, ∅, Config.default, Config2.default⟩

theorem tracked_firstGlobals : Tracked firstGlobals := ⟨rfl, rfl⟩

/-- The second file is stored while the first one is copied. -/
def copied : Threads Bool StaticLock SharedData :=
  [false, false, true, true, false, true, true].foldl Threads.step
    (startThreads (.of firstGlobals) storeAndCopy)

theorem stored_files_whole_copied :
    (copied.Open .config → copied.data.file = some copied.data.config) ∧
      (copied.Open .config2 → ∃ c, copied.data.file2 = some c ∧
        c.withoutServer = copied.data.config2.withoutServer) ∧
      ((∀ i, copied.prog i = .done) → copied.Open .config ∧ copied.Open .config2) ∧
      ∀ e ∈ copied.data.saved, e.1 = some e.2 :=
  stored_files_whole tracked_firstGlobals storeAndCopy _ copied rfl

/-- The copy of the second file is made without its lock, and may find the file truncated. -/
example : ([false, false, false, false, true, true].foldl Threads.step
    (startThreads (.of firstGlobals) storeAndCopy)).data.saved2 = [none] := by
  rfl

/-- **There is one key pair.** If none is set, all that `get_key_pair` returns, in whatever
thread, is one pair; it is the pair of the record and of the file whenever nobody has
`CONFIG` for itself. -/
theorem key_pairs_agree {g : Globals} (h : Tracked g) (calls : I → List ApiCall)
    (hcalls : ∀ i, ∀ c ∈ calls i, OnlyGenerated c) (is : List I)
    (s : Threads I StaticLock SharedData)
    (hs : s = is.foldl Threads.step (startThreads (.of g) calls)) :
    (∀ k ∈ s.data.pairs, ∀ k' ∈ s.data.pairs, k = k') ∧
      (s.Open .config → ∀ k ∈ s.data.pairs,
        s.data.config.keyPair = k ∧ ∃ c, s.data.file = some c ∧ c.keyPair = k) := by
  have hconfig := guarded_reached Script.respects_configGuard (d := .of g)
    (fun _ he => nomatch he) (congrArg some h.config) (fun _ _ _ => trivial) hs
  have hpair := guarded_reached Script.respects_pairGuard (d := .of g)
    ⟨g.config.keyPair, fun _ hk => nomatch hk⟩ (fun _ hk => nomatch hk) hcalls hs
  constructor
  · obtain ⟨pair, hsame⟩ := hpair.1
    intro k hk k' hk'
    exact (hsame k hk).1.trans (hsame k' hk').1.symm
  · intro hopen k hk
    have hk' : k = s.data.config.keyPair := (hpair.2 hopen k hk).1
    exact ⟨hk'.symm, s.data.config, hconfig.2 hopen, hk'.symm⟩

/-- Both threads have generated a pair when they get the lock. -/
def bothGenerate : Bool → List ApiCall
  | false => [.getKeyPair ([1], [2])]
  | true => [.getKeyPair ([3], [4]), .setSerial 2]

theorem onlyGenerated_bothGenerate (i : Bool) : ∀ c ∈ bothGenerate i, OnlyGenerated c := by
  intro c hc
  cases i with
  | false =>
      simp only [bothGenerate, List.mem_singleton] at hc
      subst hc
      simp [OnlyGenerated]
  | true =>
      simp only [bothGenerate, List.mem_cons, List.not_mem_nil, or_false] at hc
      rcases hc with rfl | rfl <;> simp [OnlyGenerated]

/-- Each of them has called `get_key_pair` to its end. -/
def generated : Threads Bool StaticLock SharedData :=
  (List.replicate 8 false ++ List.replicate 8 true).foldl Threads.step
    (startThreads (.of firstGlobals) bothGenerate)

theorem key_pairs_agree_both :
    (∀ k ∈ generated.data.pairs, ∀ k' ∈ generated.data.pairs, k = k') ∧
      (generated.Open .config → ∀ k ∈ generated.data.pairs,
        generated.data.config.keyPair = k ∧ ∃ c, generated.data.file = some c ∧ c.keyPair = k) :=
  key_pairs_agree tracked_firstGlobals bothGenerate onlyGenerated_bothGenerate _ generated rfl

/-- The second pair was not needed. -/
example : generated.data.pairs = [([2], [1]), ([2], [1])] := by rfl

end

end RustdeskServer.Configuration
