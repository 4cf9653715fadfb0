import RustdeskServer.Configuration.PeerConfig

/-!
# Peer configurations as a map

`lastStored` is what the calls say: the configuration last stored under an id
and not removed since. `Keyed` says that the files answer for it, in `load` and
in `peers`. They do for ids without a dot after their first character, whose
file names are the ids with `.toml` and lead back to the ids; any other id is
not listed under its own name. `keyed_iff` puts both together.
-/

namespace RustdeskServer.Configuration

open RustdeskServer.Framework RustdeskServer.Codec PeerConfig

/-- What the calls say is stored: under an id, the configuration last stored
and not removed since. -/
def record (stored : List Char → Option PeerConfig) :
    PeerCall → List Char → Option PeerConfig
  | .store id config _ => Function.update stored id (some config)
  | .remove id => Function.update stored id none
  | .load _ _ => stored

def lastStored (calls : List PeerCall) : List Char → Option PeerConfig :=
  calls.foldl record fun _ => none

/-- The files answer for what was stored under these ids, and for nothing else. -/
structure Keyed (confy : Confy) (dir : PathBuf) (ids : Set (List Char))
    (stored : List Char → Option PeerConfig) (files : Files) : Prop where
  load : ∀ id ∈ ids, ∀ config, stored id = some config → ∀ now,
    (PeerConfig.load confy dir files id now).1 = config
  peers : ∀ listing, Lists dir files listing → ∀ now id info,
    (∃ time, ⟨id, time, info⟩ ∈ (PeerConfig.peers confy dir files listing now).1) ↔
      id ∈ ids ∧ ∃ config, stored id = some config ∧ config.info = info ∧ info.platform ≠ ""
  once : ∀ listing, Lists dir files listing → ∀ now,
    ((PeerConfig.peers confy dir files listing now).1.map PeerEntry.id).Nodup

/-- The id has no dot after its first character. -/
def Dotless (id : List Char) : Prop := '.' ∉ id.tail

/-! ## Paths -/

theorem peersDir_ne_nil (dir : PathBuf) : configPath dir peersName ≠ [] := by
  unfold configPath
  rw [PathBuf.join_relative (by decide)]
  split_ifs <;> simp [peersName]

theorem fileName_eq_slash (dir : PathBuf) {id : List Char} (h : PathBuf.Plain id) :
    configPath dir (peersName.join id) = configPath dir peersName ++ '/' :: id := by
  have hrel : PathBuf.isAbsolute id = false := by
    cases id with
    | nil => rfl
    | cons c id =>
        have hc : c ≠ '/' := fun hslash => h.no_slash (hslash ▸ List.mem_cons_self)
        simpa [PathBuf.isAbsolute] using hc
  have hjoin : peersName.join id = peersName ++ '/' :: id := by
    rw [PathBuf.join_relative hrel, if_neg (by decide)]
  rw [configPath, hjoin, PathBuf.join_append (by decide)]
  rfl

theorem path_eq (dir : PathBuf) {id : List Char} (h : PathBuf.Plain id) :
    path dir id =
      configPath dir peersName ++ '/' :: ((PathBuf.splitAtDot id).1 ++ '.' :: toml) := by
  rw [path, fileName_eq_slash dir h, PathBuf.withExtension_slash _ h]

theorem plain_fileName {id : List Char} (h : PathBuf.Plain id) :
    PathBuf.Plain ((PathBuf.splitAtDot id).1 ++ '.' :: toml) where
  ne_nil := by simp
  no_slash hmem := by
    rcases List.mem_append.mp hmem with hstem | hext
    · exact h.no_slash (PathBuf.mem_of_mem_stem hstem)
    · exact absurd hext (by decide)
  ne_dot heq := absurd (congrArg List.length heq) (by simp [toml])
  ne_dots heq := absurd (congrArg List.length heq) (by simp [toml])

theorem parent_path (dir : PathBuf) {id : List Char} (h : PathBuf.Plain id) :
    (path dir id).parent = some (configPath dir peersName).components := by
  rw [path_eq dir h]
  exact PathBuf.parent_slash (peersDir_ne_nil dir) (plain_fileName h)

theorem splitAtDot_fileName {id : List Char} (h : PathBuf.Plain id) :
    PathBuf.splitAtDot ((PathBuf.splitAtDot id).1 ++ '.' :: toml) =
      ((PathBuf.splitAtDot id).1, some toml) :=
  PathBuf.splitAtDot_withExtension (PathBuf.stem_ne_nil h.ne_nil) (by decide)

theorem extension_path (dir : PathBuf) {id : List Char} (h : PathBuf.Plain id) :
    (path dir id).extension = some toml := by
  rw [PathBuf.extension, path_eq dir h, PathBuf.fileName_slash _ (plain_fileName h),
    Option.bind_some, splitAtDot_fileName h]

/-- **The id a file is listed under** is what the last dot of its id leaves. -/
theorem fileStem_path (dir : PathBuf) {id : List Char} (h : PathBuf.Plain id) :
    (path dir id).fileStem = some (PathBuf.splitAtDot id).1 := by
  rw [PathBuf.fileStem, path_eq dir h, PathBuf.fileName_slash _ (plain_fileName h),
    Option.map_some, splitAtDot_fileName h]

/-- Ids without dots have files of their own. -/
theorem path_injective (dir : PathBuf) {a b : List Char} (ha : PathBuf.Plain a)
    (hb : PathBuf.Plain b) (hadot : Dotless a) (hbdot : Dotless b)
    (h : path dir a = path dir b) : a = b := by
  have hstem := congrArg PathBuf.fileStem h
  rw [fileStem_path dir ha, fileStem_path dir hb] at hstem
  rw [← (PathBuf.stem_eq_self_iff a).mpr hadot, ← (PathBuf.stem_eq_self_iff b).mpr hbdot]
  exact Option.some.inj hstem

/-! ## Files that represent what is stored -/

/-- What is stored under an id is in its file; an id with nothing stored may
have a default record there. -/
def Answers (file : Option PeerFile) : Option PeerConfig → Prop
  | some config => ∃ time, file = some ⟨config, time⟩
  | none => ∀ f, file = some f → f.config = .default

/-- The files hold what is stored, and otherwise default records only. -/
structure Represents (dir : PathBuf) (ids : Set (List Char))
    (stored : List Char → Option PeerConfig) (files : Files) : Prop where
  known : ∀ p ∈ files, ∃ id ∈ ids, p = path dir id
  answers : ∀ id ∈ ids, Answers (files.lookup (path dir id)) (stored id)
  outside : ∀ id, id ∉ ids → stored id = none

section
variable {confy : Confy} {dir : PathBuf} {ids : Set (List Char)}
  {stored : List Char → Option PeerConfig} {files : Files}

theorem represents_empty : Represents dir ids (fun _ => none) ∅ where
  known p hp := absurd hp Finmap.notMem_empty
  answers id _ f h := by rw [Finmap.lookup_empty] at h; cases h
  outside _ _ := rfl

/-- A change of one id's file is a change of what is stored under that id. -/
theorem Represents.change (hplain : ∀ id ∈ ids, PathBuf.Plain id)
    (hdotless : ∀ id ∈ ids, Dotless id) (h : Represents dir ids stored files)
    {id : List Char} (hid : id ∈ ids) {files' : Files} {config : Option PeerConfig}
    (hother : ∀ p, p ≠ path dir id → files'.lookup p = files.lookup p)
    (hhere : Answers (files'.lookup (path dir id)) config) :
    Represents dir ids (Function.update stored id config) files' where
  known p hp := by
    by_cases hpath : p = path dir id
    · exact ⟨id, hid, hpath⟩
    · rw [← Finmap.lookup_isSome, hother p hpath, Finmap.lookup_isSome] at hp
      exact h.known p hp
  answers id' hid' := by
    by_cases heq : id' = id
    · rw [heq, Function.update_self]
      exact hhere
    · have hpath : path dir id' ≠ path dir id := fun hp => heq (path_injective dir
        (hplain id' hid') (hplain id hid) (hdotless id' hid') (hdotless id hid) hp)
      rw [Function.update_of_ne heq, hother _ hpath]
      exact h.answers id' hid'
  outside id' hid' := by
    have hne : id' ≠ id := fun heq => hid' (heq ▸ hid)
    rw [Function.update_of_ne hne]
    exact h.outside id' hid'

theorem represents_step (hplain : ∀ id ∈ ids, PathBuf.Plain id)
    (hdotless : ∀ id ∈ ids, Dotless id) (h : Represents dir ids stored files)
    {call : PeerCall} (hcall : call.id ∈ ids) :
    Represents dir ids (record stored call) (call.step confy dir files) := by
  cases call with
  | store id config now =>
      exact h.change hplain hdotless hcall (fun p hp => Finmap.lookup_insert_of_ne _ hp)
        ⟨now, Finmap.lookup_insert _⟩
  | remove id =>
      exact h.change hplain hdotless hcall (fun p hp => Finmap.lookup_erase_ne hp)
        fun f hf => nomatch hf.symm.trans (Finmap.lookup_erase _ files)
  | load id now =>
      show Represents dir ids stored (confy.loadPath files (path dir id) now).2
      unfold Confy.loadPath
      cases hfile : files.lookup (path dir id) with
      | some file => exact h
      | none =>
          -- reading a missing file: nothing is stored under the id
          dsimp only
          split_ifs
          · have hnone : stored id = none := by
              have hanswers := h.answers id hcall
              cases hstored : stored id with
              | none => rfl
              | some config =>
                  rw [hstored, hfile] at hanswers
                  obtain ⟨time, htime⟩ := hanswers
                  cases htime
            rw [← Function.update_eq_self id stored, hnone]
            refine h.change hplain hdotless hcall
              (fun p hp => Finmap.lookup_insert_of_ne _ hp) fun f hf => ?_
            obtain rfl := Option.some.inj (hf.symm.trans (Finmap.lookup_insert files))
            rfl
          · exact h

/-! ## Listing -/

/-- The loop lists files in turn, each under what its file's name leads back to. -/
theorem ids_sublist {now : ℕ} (ps : List PathBuf) (files : Files) :
    ((peersLoop confy dir now ps files).1.map PeerEntry.id).Sublist
      (ps.map fun p => p.fileStem.getD []) := by
  induction ps generalizing files with
  | nil => exact List.Sublist.refl _
  | cons p ps ih =>
      unfold peersLoop
      cases files.lookup p with
      | none => exact (ih files).cons _
      | some file =>
          dsimp only
          by_cases hext : p.extension = some toml
          · rw [if_pos hext]
            exact (ih _).cons_cons _
          · rw [if_neg hext]
            exact (ih files).cons _

/-- When every file belongs to a dotless id, the loop lists each of them with
what it holds. -/
theorem mem_peersLoop (hplain : ∀ id ∈ ids, PathBuf.Plain id)
    (hdotless : ∀ id ∈ ids, Dotless id) {now : ℕ} {e : PeerEntry} (ps : List PathBuf)
    (files : Files) (hnodup : ps.Nodup) (hknown : ∀ p ∈ ps, ∃ id ∈ ids, p = path dir id) :
    e ∈ (peersLoop confy dir now ps files).1 ↔
      ∃ id ∈ ids, ∃ file, path dir id ∈ ps ∧ files.lookup (path dir id) = some file ∧
        e = ⟨id, file.modified, file.config.info⟩ := by
  induction ps generalizing files with
  | nil =>
      constructor
      · intro h
        cases h
      · rintro ⟨_, _, _, h, _⟩
        cases h
  | cons p ps ih =>
      obtain ⟨id, hid, rfl⟩ := hknown p List.mem_cons_self
      obtain ⟨hnotin, hrest⟩ := List.nodup_cons.mp hnodup
      have hknown' : ∀ q ∈ ps, ∃ id ∈ ids, q = path dir id :=
        fun q hq => hknown q (List.mem_cons_of_mem _ hq)
      unfold peersLoop
      cases hfile : files.lookup (path dir id) with
      | none =>
          dsimp only
          rw [ih files hrest hknown']
          constructor
          · rintro ⟨id', hid', file, hmem, hlookup, he⟩
            exact ⟨id', hid', file, List.mem_cons_of_mem _ hmem, hlookup, he⟩
          · rintro ⟨id', hid', file, hmem, hlookup, he⟩
            rcases List.mem_cons.mp hmem with heq | hmem
            · rw [heq, hfile] at hlookup
              cases hlookup
            · exact ⟨id', hid', file, hmem, hlookup, he⟩
      | some file =>
          have hstem : (path dir id).fileStem.getD [] = id := by
            rw [fileStem_path dir (hplain id hid), Option.getD_some,
              (PathBuf.stem_eq_self_iff id).mpr (hdotless id hid)]
          have hload : PeerConfig.load confy dir files id now = (file.config, files) := by
            rw [PeerConfig.load, Confy.loadPath, hfile]
          dsimp only
          rw [if_pos (extension_path dir (hplain id hid)), hstem, hload]
          dsimp only
          -- removing this file leaves what the others hold
          have hother : ∀ q ∈ ps, (if file.config.info.platform = "" then
              files.erase (path dir id) else files).lookup q = files.lookup q := by
            intro q hq
            have hne : q ≠ path dir id := fun heq => hnotin (heq ▸ hq)
            split_ifs
            · exact Finmap.lookup_erase_ne hne
            · rfl
          rw [List.mem_cons, ih _ hrest hknown']
          constructor
          · rintro (rfl | ⟨id', hid', file', hmem, hlookup, he⟩)
            · exact ⟨id, hid, file, List.mem_cons_self, hfile, rfl⟩
            · rw [hother _ hmem] at hlookup
              exact ⟨id', hid', file', List.mem_cons_of_mem _ hmem, hlookup, he⟩
          · rintro ⟨id', hid', file', hmem, hlookup, he⟩
            rcases List.mem_cons.mp hmem with heq | hmem
            · obtain rfl := path_injective dir (hplain id' hid') (hplain id hid)
                (hdotless id' hid') (hdotless id hid) heq
              rw [hfile] at hlookup
              cases hlookup
              exact .inl he
            · exact .inr ⟨id', hid', file', hmem, (hother _ hmem).trans hlookup, he⟩

theorem mem_peers {now : ℕ} {listing : List PathBuf} {e : PeerEntry} :
    e ∈ (PeerConfig.peers confy dir files listing now).1 ↔
      e ∈ (peersLoop confy dir now listing files).1 ∧ e.info.platform ≠ "" := by
  show e ∈ List.mergeSort _ _ ↔ _
  rw [(List.mergeSort_perm _ _).mem_iff, List.mem_filter, decide_eq_true_eq]

theorem Represents.listed (h : Represents dir ids stored files) {listing : List PathBuf}
    (hlists : Lists dir files listing) : ∀ p ∈ listing, ∃ id ∈ ids, p = path dir id :=
  fun p hp => h.known p ((hlists.mem p).mp hp).1

theorem Represents.mem_listing (hplain : ∀ id ∈ ids, PathBuf.Plain id) {listing : List PathBuf}
    (hlists : Lists dir files listing) {id : List Char} (hid : id ∈ ids) {file : PeerFile}
    (hfile : files.lookup (path dir id) = some file) : path dir id ∈ listing :=
  (hlists.mem _).mpr ⟨Finmap.mem_of_lookup_eq_some hfile, parent_path dir (hplain id hid)⟩

/-- Files that represent what is stored answer for it. -/
theorem Represents.keyed (hplain : ∀ id ∈ ids, PathBuf.Plain id)
    (hdotless : ∀ id ∈ ids, Dotless id) (h : Represents dir ids stored files) :
    Keyed confy dir ids stored files where
  load id hid config hstored now := by
    have hanswers := h.answers id hid
    rw [hstored] at hanswers
    obtain ⟨time, hfile⟩ := hanswers
    rw [PeerConfig.load, Confy.loadPath, hfile]
  peers listing hlists now id info := by
    have hloop : ∀ e, e ∈ (peersLoop confy dir now listing files).1 ↔ _ := fun e =>
      mem_peersLoop hplain hdotless listing files hlists.nodup (h.listed hlists)
    constructor
    · rintro ⟨time, hmem⟩
      obtain ⟨hmem, hplatform⟩ := mem_peers.mp hmem
      obtain ⟨id', hid', file, -, hfile, he⟩ := (hloop _).mp hmem
      obtain ⟨rfl, -, rfl⟩ := PeerEntry.mk.inj he
      refine ⟨hid', file.config, ?_, rfl, hplatform⟩
      have hanswers := h.answers id hid'
      cases hstored : stored id with
      | none =>
          rw [hstored] at hanswers
          rw [hanswers file hfile] at hplatform
          exact absurd rfl hplatform
      | some config =>
          rw [hstored] at hanswers
          obtain ⟨time, htime⟩ := hanswers
          obtain rfl := Option.some.inj (hfile.symm.trans htime)
          rfl
    · rintro ⟨hid, config, hstored, rfl, hplatform⟩
      have hanswers := h.answers id hid
      rw [hstored] at hanswers
      obtain ⟨time, hfile⟩ := hanswers
      refine ⟨time, mem_peers.mpr ⟨(hloop _).mpr ?_, hplatform⟩⟩
      exact ⟨id, hid, _, mem_listing hplain hlists hid hfile, hfile, rfl⟩
  once listing hlists now := by
    have hstems : (listing.map fun p => p.fileStem.getD []).Nodup := by
      refine List.Nodup.map_on (fun p hp q hq heq => ?_) hlists.nodup
      obtain ⟨a, ha, rfl⟩ := h.listed hlists p hp
      obtain ⟨b, hb, rfl⟩ := h.listed hlists q hq
      rw [fileStem_path dir (hplain a ha), fileStem_path dir (hplain b hb), Option.getD_some,
        Option.getD_some, (PathBuf.stem_eq_self_iff a).mpr (hdotless a ha),
        (PathBuf.stem_eq_self_iff b).mpr (hdotless b hb)] at heq
      rw [heq]
    have hperm := (List.mergeSort_perm ((peersLoop confy dir now listing files).1.filter
      fun e => e.info.platform ≠ "") fun a b => b.time ≤ a.time).map PeerEntry.id
    exact hperm.nodup_iff.mpr ((hstems.sublist (ids_sublist listing files)).sublist
      (List.filter_sublist.map _))

/-! ## All call sequences -/

theorem represents_run (hplain : ∀ id ∈ ids, PathBuf.Plain id)
    (hdotless : ∀ id ∈ ids, Dotless id) (calls : List PeerCall)
    (hcalls : ∀ call ∈ calls, call.id ∈ ids) (h : Represents dir ids stored files) :
    Represents dir ids (calls.foldl record stored)
      (calls.foldl (PeerCall.step confy dir) files) := by
  induction calls generalizing stored files with
  | nil => exact h
  | cons call calls ih =>
      apply ih
      · intro c hc
        exact hcalls c (List.mem_cons_of_mem _ hc)
      · exact represents_step hplain hdotless h (hcalls call List.mem_cons_self)

end

/-- A configuration that `peers` lists. -/
def onLinux : PeerConfig := { PeerConfig.default with info := ⟨"u", "h", "Linux"⟩ }

/-- An id that is listed under its own name has no further dot. -/
theorem dotless_of_listed (confy : Confy) (dir : PathBuf) {ids : Set (List Char)}
    {id : List Char} (hplain : PathBuf.Plain id)
    (h : Keyed confy dir ids (lastStored [.store id onLinux 0])
      (PeerConfig.store dir ∅ id onLinux 0)) (hid : id ∈ ids) : Dotless id := by
  have hlists : Lists dir (PeerConfig.store dir ∅ id onLinux 0) [path dir id] := by
    refine ⟨List.nodup_singleton _, fun p => ?_⟩
    rw [List.mem_singleton, PeerConfig.store, Finmap.mem_insert]
    constructor
    · rintro rfl
      exact ⟨.inl rfl, parent_path dir hplain⟩
    · rintro ⟨rfl | hnone, -⟩
      · rfl
      · exact absurd hnone Finmap.notMem_empty
  have hstored : lastStored [.store id onLinux 0] id = some onLinux := by
    show Function.update (fun _ => none) id (some onLinux) id = _
    exact Function.update_self ..
  obtain ⟨time, hmem⟩ := (h.peers _ hlists 0 id onLinux.info).mpr
    ⟨hid, onLinux, hstored, rfl, by decide⟩
  have hsub := (ids_sublist _ _).subset (List.mem_map_of_mem (mem_peers.mp hmem).1)
  rw [List.map_singleton, List.mem_singleton, fileStem_path dir hplain, Option.getD_some] at hsub
  exact (PathBuf.stem_eq_self_iff id).mp hsub.symm

/-- **A map keyed by id, exactly.** The files answer for what was stored, after
every sequence of calls for these ids, if and only if none of the ids has a dot
after its first character. -/
theorem keyed_iff (confy : Confy) (dir : PathBuf) (ids : Set (List Char))
    (hplain : ∀ id ∈ ids, PathBuf.Plain id) :
    (∀ calls : List PeerCall, (∀ call ∈ calls, call.id ∈ ids) →
      Keyed confy dir ids (lastStored calls) (calls.foldl (PeerCall.step confy dir) ∅)) ↔
      ∀ id ∈ ids, Dotless id := by
  constructor
  · intro hkeyed id hid
    refine dotless_of_listed confy dir (hplain id hid) (hkeyed [.store id onLinux 0] ?_) hid
    rintro call hcall
    obtain rfl := List.mem_singleton.mp hcall
    exact hid
  · intro hdotless calls hcalls
    exact (represents_run hplain hdotless calls hcalls represents_empty).keyed hplain hdotless

/-- Two numbers, a name and one that begins with a dot. -/
def severalIds : Set (List Char) :=
  {"123456789".toList, "987654321".toList, "office".toList, ".lab".toList}

theorem keyed_iff_several :
    (∀ id ∈ severalIds, PathBuf.Plain id) ∧
      ((∀ calls : List PeerCall, (∀ call ∈ calls, call.id ∈ severalIds) →
        Keyed ⟨true⟩ "/c".toList severalIds (lastStored calls)
          (calls.foldl (PeerCall.step ⟨true⟩ "/c".toList) ∅)) ↔
        ∀ id ∈ severalIds, Dotless id) := by
  have hplain : ∀ id ∈ severalIds, PathBuf.Plain id := by
    rintro id (rfl | rfl | rfl | rfl) <;> exact ⟨by decide, by decide, by decide, by decide⟩
  exact ⟨hplain, keyed_iff ⟨true⟩ "/c".toList severalIds hplain⟩

/-- Two peers of one network, by their addresses. -/
def twoAddresses : List PeerCall :=
  [.store "192.168.1.10".toList onLinux 0, .store "192.168.1.11".toList .default 1]

/-- Both addresses lead to the file `192.168.1.toml`: the second peer's
configuration is loaded for the first. -/
theorem addresses_share_file :
    lastStored twoAddresses "192.168.1.10".toList = some onLinux ∧
      (PeerConfig.load ⟨true⟩ "/c".toList
        (twoAddresses.foldl (PeerCall.step ⟨true⟩ "/c".toList) ∅) "192.168.1.10".toList 2).1
        ≠ onLinux := by
  constructor
  · decide
  · decide

end RustdeskServer.Configuration
