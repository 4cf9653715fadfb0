import RustdeskServer.Configuration.PeerMap

/-!
# Listing a directory of damaged files

`PeerConfig::load` turns an error into the default configuration, and `peers`
takes a configuration without a platform as the sign of a file that is not
wanted. Here a file of the directory may be unreadable or not parse, may not be a
regular file, and may have a name that is not UTF-8 or that its id does not lead
back to.

`peers_careful_iff` says for which directories `peers` removes only what it has
loaded and found empty. `peersLoop_embed` connects this listing with the one of
`PeerConfig`, where every file loads.
-/

namespace RustdeskServer.Configuration.PeerListing

open RustdeskServer.Framework RustdeskServer.Codec
open PeerConfig (PeerEntry toml path)

/-! ## Files -/

/-- A path of the directory: text, or a file name that is not UTF-8. -/
inductive OsPath where
  | utf8 (p : PathBuf)
  | raw (name : Bytes)
deriving DecidableEq

/-- `.toml` -/
def tomlBytes : Bytes := [0x2e, 0x74, 0x6f, 0x6d, 0x6c]

namespace OsPath

/-- `p.extension().map(|p| p.to_str().unwrap_or("")) == Some("toml")` -/
def isToml : OsPath → Bool
  | .utf8 p => p.extension = some toml
  | .raw name => tomlBytes.isSuffixOf name

/-- `p.file_stem().map(|p| p.to_str().unwrap_or("")).unwrap_or("")` -/
def stem : OsPath → List Char
  | .utf8 p => p.fileStem.getD []
  | .raw _ => []

end OsPath

/-- Why `confy::load_path` fails on a file. -/
inductive LoadError where
  | read
  | parse
deriving DecidableEq

/-- `contents` is what loading the file gives. -/
structure StoredFile where
  isFile : Bool
  contents : Except LoadError PeerConfig
  modified : ℕ

abbrev Files : Type := OsPath → Option StoredFile

section
variable (confy : Confy) (dir : PathBuf) (files : Files)

def loadPath (p : PathBuf) (now : ℕ) : Except LoadError PeerConfig × Files :=
  match files (.utf8 p) with
  | some file => (file.contents, files)
  | none =>
      (.ok .default,
        if confy.storesDefault then
          Function.update files (.utf8 p) (some ⟨true, .ok .default, now⟩)
        else files)

def load (id : List Char) (now : ℕ) : PeerConfig × Files :=
  match loadPath confy files (path dir id) now with
  | (.ok config, files) => (config, files)
  -- the error is logged
  | (.error _, files) => (.default, files)

/-- What the loop leaves: the entries with the files they were made for, and the
files that were removed. -/
structure Pass where
  entries : List (OsPath × PeerEntry)
  removed : List OsPath
  files : Files

/-- The entry made for `p`, which was removed if it has no platform. -/
def Pass.add (pass : Pass) (p : OsPath) (entry : PeerEntry) : Pass :=
  { pass with
    entries := (p, entry) :: pass.entries
    removed := if entry.info.platform = "" then p :: pass.removed else pass.removed }

end

/-- The closure that `peers` maps over the directory. -/
def peersLoop (confy : Confy) (dir : PathBuf) (now : ℕ) : List OsPath → Files → Pass
  | [], files => ⟨[], [], files⟩
  | p :: ps, files =>
      match files p with
      | none => peersLoop confy dir now ps files
      | some file =>
          if file.isFile ∧ p.isToml then
            let (config, files) := load confy dir files p.stem now
            let files := if config.info.platform = "" then Function.update files p none else files
            (peersLoop confy dir now ps files).add p ⟨p.stem, file.modified, config.info⟩
          else peersLoop confy dir now ps files

/-- `peers`, given what `read_dir` lists. -/
def peers (confy : Confy) (dir : PathBuf) (files : Files) (listing : List OsPath) (now : ℕ) :
    Pass :=
  let pass := peersLoop confy dir now listing files
  { pass with
    entries := (pass.entries.filter fun e => e.2.info.platform ≠ "").mergeSort
      fun a b => b.2.time ≤ a.2.time }

/-! ## What is asked of a listing -/

/-- The id of the file leads back to it. -/
def Own (dir : PathBuf) (p : OsPath) : Prop := p = .utf8 (path dir p.stem)

/-- The file is one that `peers` looks at. -/
def Candidate (files : Files) (p : OsPath) (file : StoredFile) : Prop :=
  files p = some file ∧ file.isFile = true ∧ p.isToml = true

/-- That very file was loaded. -/
structure Loads (dir : PathBuf) (files : Files) (p : OsPath) (file : StoredFile)
    (config : PeerConfig) : Prop where
  candidate : Candidate files p file
  own : Own dir p
  contents : file.contents = .ok config

/-- Only files are removed that were loaded and have no platform, files that could
not be loaded are kept, and the list has those that were loaded and have a
platform, each once, the latest first. -/
structure Careful (dir : PathBuf) (files : Files) (listing : List OsPath) (pass : Pass) :
    Prop where
  removed : ∀ p ∈ pass.removed, ∃ file config, Loads dir files p file config ∧
    config.info.platform = ""
  kept : ∀ p file err, files p = some file → file.contents = .error err →
    pass.files p = some file
  listed : ∀ p entry, (p, entry) ∈ pass.entries ↔ p ∈ listing ∧ ∃ file config,
    Loads dir files p file config ∧ config.info.platform ≠ "" ∧
      entry = ⟨p.stem, file.modified, config.info⟩
  nodup : (pass.entries.map Prod.fst).Nodup
  sorted : pass.entries.Pairwise fun a b => b.2.time ≤ a.2.time

/-- Every file that `peers` looks at is named by its id, and loads. -/
def AllLoad (dir : PathBuf) (files : Files) (listing : List OsPath) : Prop :=
  ∀ p ∈ listing, ∀ file, Candidate files p file →
    Own dir p ∧ ∃ config, file.contents = .ok config

variable {confy : Confy} {dir : PathBuf} {files : Files} {now : ℕ} {p q : OsPath}
  {ps : List OsPath} {file : StoredFile}

/-! ## One file -/

/-- A load changes no file that is there. -/
theorem load_kept (confy : Confy) (dir : PathBuf) (id : List Char) (now : ℕ)
    (h : files q = some file) : (load confy dir files id now).2 q = some file := by
  unfold load loadPath
  cases hid : files (.utf8 (path dir id)) with
  | some found =>
      cases hcontents : found.contents with
      | ok config => simpa only [hcontents] using h
      | error err => simpa only [hcontents] using h
  | none =>
      have hne : q ≠ .utf8 (path dir id) := by
        rintro rfl
        rw [hid] at h
        cases h
      dsimp only
      split
      · rw [Function.update_of_ne hne, h]
      · exact h

theorem load_own {config : PeerConfig} (h : Loads dir files p file config) :
    load confy dir files p.stem now = (config, files) := by
  have hthere : files (.utf8 (path dir p.stem)) = some file := by
    rw [← h.own]
    exact h.candidate.1
  unfold load loadPath
  rw [hthere]
  dsimp only
  rw [h.contents]

theorem peersLoop_other (h : ∀ file, ¬ Candidate files p file) :
    peersLoop confy dir now (p :: ps) files = peersLoop confy dir now ps files := by
  rw [peersLoop]
  cases hp : files p with
  | none => rfl
  | some file => exact if_neg fun hboth => h file ⟨hp, hboth.1, hboth.2⟩

/-- The files after `p` was loaded, and perhaps removed. -/
def afterLoad (confy : Confy) (dir : PathBuf) (now : ℕ) (files : Files) (p : OsPath) : Files :=
  let (config, files) := load confy dir files p.stem now
  if config.info.platform = "" then Function.update files p none else files

theorem peersLoop_candidate (h : Candidate files p file) :
    peersLoop confy dir now (p :: ps) files =
      (peersLoop confy dir now ps (afterLoad confy dir now files p)).add p
        ⟨p.stem, file.modified, (load confy dir files p.stem now).1.info⟩ := by
  rw [peersLoop, h.1]
  exact if_pos h.2

theorem mem_removed_add {pass : Pass} {entry : PeerEntry} :
    q ∈ (pass.add p entry).removed ↔ q = p ∧ entry.info.platform = "" ∨ q ∈ pass.removed := by
  unfold Pass.add
  dsimp only
  split
  case isTrue hempty => rw [List.mem_cons, and_iff_left hempty]
  case isFalse hsome => rw [or_iff_right fun h => hsome h.2]

theorem afterLoad_kept (confy : Confy) (dir : PathBuf) (now : ℕ) (hne : q ≠ p)
    (h : files q = some file) :
    afterLoad confy dir now files p q = some file := by
  unfold afterLoad
  dsimp only
  split
  · rw [Function.update_of_ne hne, load_kept confy dir p.stem now h]
  · exact load_kept confy dir p.stem now h

/-! ## The loop -/

/-- Nothing is overlooked: a file is listed or was removed. -/
theorem mem_entries_of_candidate (hnodup : ps.Nodup) (hp : p ∈ ps) (h : Candidate files p file) :
    ∃ entry, (p, entry) ∈ (peersLoop confy dir now ps files).entries ∧
      (entry.info.platform = "" → p ∈ (peersLoop confy dir now ps files).removed) := by
  induction ps generalizing files with
  | nil => cases hp
  | cons first ps ih =>
      obtain ⟨hnew, hnodup⟩ := List.nodup_cons.mp hnodup
      by_cases hfirst : ∃ found, Candidate files first found
      · obtain ⟨found, hfound⟩ := hfirst
        rw [peersLoop_candidate hfound]
        rcases List.mem_cons.mp hp with rfl | hp
        · exact ⟨_, List.mem_cons_self, fun hempty => mem_removed_add.mpr (Or.inl ⟨rfl, hempty⟩)⟩
        · have hne : p ≠ first := fun heq => hnew (heq ▸ hp)
          obtain ⟨entry, hin, hremoved⟩ :=
            ih hnodup hp ⟨afterLoad_kept confy dir now hne h.1, h.2⟩
          exact ⟨entry, List.mem_cons_of_mem _ hin,
            fun hempty => mem_removed_add.mpr (Or.inr (hremoved hempty))⟩
      · rw [peersLoop_other (not_exists.mp hfirst)]
        rcases List.mem_cons.mp hp with rfl | hp
        · exact absurd ⟨file, h⟩ hfirst
        · exact ih hnodup hp h

theorem keys_sublist (confy : Confy) (dir : PathBuf) (now : ℕ) (ps : List OsPath)
    (files : Files) :
    ((peersLoop confy dir now ps files).entries.map Prod.fst).Sublist ps := by
  induction ps generalizing files with
  | nil => exact List.Sublist.refl []
  | cons p ps ih =>
      by_cases hp : ∃ file, Candidate files p file
      · obtain ⟨file, hfile⟩ := hp
        rw [peersLoop_candidate hfile]
        exact (ih _).cons_cons p
      · rw [peersLoop_other (not_exists.mp hp)]
        exact (ih files).cons p

/-- What the loop leaves when every file is named by its id and loads. -/
structure Exact (dir : PathBuf) (files : Files) (ps : List OsPath) (pass : Pass) : Prop where
  entries : ∀ p entry, (p, entry) ∈ pass.entries ↔ p ∈ ps ∧ ∃ file config,
    Loads dir files p file config ∧ entry = ⟨p.stem, file.modified, config.info⟩
  removed : ∀ p ∈ pass.removed, ∃ file config, Loads dir files p file config ∧
    config.info.platform = ""
  kept : ∀ p file err, files p = some file → file.contents = .error err → pass.files p = some file

theorem Loads.mono {files' : Files} {config : PeerConfig} (h : Loads dir files p file config)
    (hfile : files' p = some file) : Loads dir files' p file config :=
  ⟨⟨hfile, h.candidate.2⟩, h.own, h.contents⟩

/-- The load of a file that is named by its id leaves the other files alone. -/
theorem afterLoad_other {config : PeerConfig} (h : Loads dir files p file config) (hne : q ≠ p) :
    afterLoad confy dir now files p q = files q := by
  unfold afterLoad
  rw [load_own h]
  dsimp only
  split
  · exact Function.update_of_ne hne _ _
  · rfl

theorem of_afterLoad {config : PeerConfig} (h : Loads dir files p file config) {found : StoredFile}
    (hq : afterLoad confy dir now files p q = some found) : files q = some found := by
  by_cases hne : q = p
  · rw [hne] at hq ⊢
    unfold afterLoad at hq
    rw [load_own h] at hq
    dsimp only at hq
    split at hq
    · rw [Function.update_self] at hq
      cases hq
    · exact hq
  · rw [← afterLoad_other h hne, hq]

theorem Exact.add {config : PeerConfig} (hloads : Loads dir files p file config)
    (hnew : p ∉ ps) {rest : Pass}
    (hrest : Exact dir (afterLoad confy dir now files p) ps rest) :
    Exact dir files (p :: ps) (rest.add p ⟨p.stem, file.modified, config.info⟩) := by
  constructor
  · intro q entry
    constructor
    · intro hin
      rcases List.mem_cons.mp hin with heq | hin
      · cases heq
        exact ⟨List.mem_cons_self, file, config, hloads, rfl⟩
      · obtain ⟨hq, found, config', hfound, hentry⟩ := (hrest.entries q entry).mp hin
        exact ⟨List.mem_cons_of_mem p hq, found, config',
          hfound.mono (of_afterLoad hloads hfound.candidate.1), hentry⟩
    · rintro ⟨hq, found, config', hfound, rfl⟩
      rcases List.mem_cons.mp hq with rfl | hq
      · obtain rfl : file = found :=
          Option.some.inj (hloads.candidate.1.symm.trans hfound.candidate.1)
        obtain rfl : config = config' :=
          Except.ok.inj (hloads.contents.symm.trans hfound.contents)
        exact List.mem_cons_self
      · have hne : q ≠ p := fun heq => hnew (heq ▸ hq)
        have hsame : afterLoad confy dir now files p q = some found :=
          (afterLoad_other hloads hne).trans hfound.candidate.1
        exact List.mem_cons_of_mem _ ((hrest.entries q _).mpr
          ⟨hq, found, config', hfound.mono hsame, rfl⟩)
  · intro q hq
    rcases mem_removed_add.mp hq with ⟨rfl, hempty⟩ | hq
    · exact ⟨file, config, hloads, hempty⟩
    · obtain ⟨found, config', hfound, hempty⟩ := hrest.removed q hq
      exact ⟨found, config', hfound.mono (of_afterLoad hloads hfound.candidate.1), hempty⟩
  · intro q found err hq herr
    have hne : q ≠ p := by
      rintro rfl
      rw [Option.some.inj (hq.symm.trans hloads.candidate.1), hloads.contents] at herr
      cases herr
    have hsame : afterLoad confy dir now files p q = some found :=
      (afterLoad_other hloads hne).trans hq
    exact hrest.kept q found err hsame herr

theorem exact_loop (confy : Confy) (now : ℕ) (hnodup : ps.Nodup)
    (hall : AllLoad dir files ps) :
    Exact dir files ps (peersLoop confy dir now ps files) := by
  induction ps generalizing files with
  | nil =>
      constructor
      · exact fun p entry => ⟨nofun, fun h => absurd h.1 List.not_mem_nil⟩
      · exact nofun
      · exact fun p file err hp _ => hp
  | cons p ps ih =>
      obtain ⟨hnew, hnodup⟩ := List.nodup_cons.mp hnodup
      by_cases hp : ∃ file, Candidate files p file
      · obtain ⟨file, hfile⟩ := hp
        obtain ⟨hown, config, hcontents⟩ := hall p List.mem_cons_self file hfile
        have hloads : Loads dir files p file config := ⟨hfile, hown, hcontents⟩
        have hrest : AllLoad dir (afterLoad confy dir now files p) ps := fun q hq found hfound =>
          hall q (List.mem_cons_of_mem p hq) found ⟨of_afterLoad hloads hfound.1, hfound.2⟩
        rw [peersLoop_candidate hfile, load_own hloads]
        exact Exact.add hloads hnew (ih hnodup hrest)
      · rw [peersLoop_other (not_exists.mp hp)]
        have hrest := ih hnodup fun q hq file hfile =>
          hall q (List.mem_cons_of_mem p hq) file hfile
        refine ⟨fun q entry => ?_, hrest.removed, hrest.kept⟩
        rw [hrest.entries, List.mem_cons]
        constructor
        · exact fun ⟨hq, hloads⟩ => ⟨Or.inr hq, hloads⟩
        · rintro ⟨rfl | hq, file, config, hloads, hentry⟩
          · exact absurd ⟨file, hloads.candidate⟩ hp
          · exact ⟨hq, file, config, hloads, hentry⟩

theorem latest_first (entries : List (OsPath × PeerEntry)) :
    (entries.mergeSort fun a b => b.2.time ≤ a.2.time).Pairwise
      fun a b => b.2.time ≤ a.2.time := by
  have hsorted : (entries.mergeSort fun a b => decide (b.2.time ≤ a.2.time)).Pairwise
      fun a b => decide (b.2.time ≤ a.2.time) = true := by
    apply List.pairwise_mergeSort
    · intro a b c hab hbc
      exact decide_eq_true ((of_decide_eq_true hbc).trans (of_decide_eq_true hab))
    · intro a b
      simpa using Nat.le_total b.2.time a.2.time
  exact hsorted.imp fun h => of_decide_eq_true h

/-- **When listing is careful.** For every directory, whatever its files hold and
are called: `peers` removes only files it has loaded and found without a platform,
keeps what it could not load and lists the rest, if and only if every file it looks
at is named by its id and loads. -/
theorem peers_careful_iff (confy : Confy) (dir : PathBuf) (files : Files)
    (listing : List OsPath) (now : ℕ) (hnodup : listing.Nodup) :
    Careful dir files listing (peers confy dir files listing now) ↔
      AllLoad dir files listing := by
  have hentries : ∀ e, e ∈ (peers confy dir files listing now).entries ↔
      e ∈ (peersLoop confy dir now listing files).entries ∧ e.2.info.platform ≠ "" := by
    intro e
    rw [peers, List.mem_mergeSort, List.mem_filter, decide_eq_true_iff]
  constructor
  · intro hcareful p hp file hfile
    obtain ⟨entry, hin, hremoved⟩ := mem_entries_of_candidate hnodup hp hfile
    have hloads : ∃ found config, Loads dir files p found config := by
      by_cases hempty : entry.info.platform = ""
      · obtain ⟨found, config, hfound, -⟩ := hcareful.removed p (hremoved hempty)
        exact ⟨found, config, hfound⟩
      · obtain ⟨-, found, config, hfound, -⟩ :=
          (hcareful.listed p entry).mp ((hentries _).mpr ⟨hin, hempty⟩)
        exact ⟨found, config, hfound⟩
    obtain ⟨found, config, hfound⟩ := hloads
    obtain rfl : found = file := Option.some.inj (hfound.candidate.1.symm.trans hfile.1)
    exact ⟨hfound.own, config, hfound.contents⟩
  · intro hall
    have hexact := exact_loop confy now hnodup hall
    constructor
    · exact hexact.removed
    · exact hexact.kept
    · intro p entry
      rw [hentries, hexact.entries]
      constructor
      · rintro ⟨⟨hp, file, config, hloads, rfl⟩, hplatform⟩
        exact ⟨hp, file, config, hloads, hplatform, rfl⟩
      · rintro ⟨hp, file, config, hloads, hplatform, rfl⟩
        exact ⟨⟨hp, file, config, hloads, rfl⟩, hplatform⟩
    · have hkeys := (List.filter_sublist (p := fun e : OsPath × PeerEntry =>
        decide (e.2.info.platform ≠ ""))).map Prod.fst |>.trans
          (keys_sublist confy dir now listing files)
      exact ((List.mergeSort_perm _ _).map Prod.fst).nodup_iff.mpr (hnodup.sublist hkeys)
    · exact latest_first _

def exampleDir : PathBuf := "/c".toList

/-- The file of a peer. -/
def exampleFile (id : String) : OsPath := .utf8 (path exampleDir id.toList)

/-- A directory with a peer on Linux, one without a platform and one whose file does not
parse. -/
def mixed : Files := fun p =>
  if p = exampleFile "1" then some ⟨true, .ok onLinux, 5⟩
  else if p = exampleFile "2" then some ⟨true, .ok .default, 6⟩
  else if p = exampleFile "3" then some ⟨true, .error .parse, 7⟩
  else none

def mixedListing : List OsPath := [exampleFile "3", exampleFile "1", exampleFile "2"]

/-- The first is listed, and both others are removed. -/
theorem peers_careful_iff_mixed : mixedListing.Nodup ∧
    (Careful exampleDir mixed mixedListing (peers ⟨false⟩ exampleDir mixed mixedListing 8) ↔
      AllLoad exampleDir mixed mixedListing) ∧
    (peers ⟨false⟩ exampleDir mixed mixedListing 8).entries =
      [(exampleFile "1", ⟨['1'], 5, onLinux.info⟩)] ∧
    (peers ⟨false⟩ exampleDir mixed mixedListing 8).removed =
      [exampleFile "3", exampleFile "2"] := by
  have hnodup : mixedListing.Nodup := by decide
  refine ⟨hnodup, peers_careful_iff ⟨false⟩ exampleDir mixed mixedListing 8 hnodup, ?_, by decide⟩
  have hfound : ((peersLoop ⟨false⟩ exampleDir 8 mixedListing mixed).entries.filter
      fun e => e.2.info.platform ≠ "") = [(exampleFile "1", ⟨['1'], 5, onLinux.info⟩)] := by
    decide
  rw [peers, hfound, List.mergeSort_singleton]

/-- A directory with one file, which does not parse. -/
def damaged : Files := fun p =>
  if p = exampleFile "123456789" then some ⟨true, .error .parse, 0⟩ else none

/-- The damaged file is removed. -/
theorem damaged_file_removed :
    ¬ Careful exampleDir damaged [exampleFile "123456789"]
        (peers ⟨false⟩ exampleDir damaged [exampleFile "123456789"] 1) ∧
      (peers ⟨false⟩ exampleDir damaged [exampleFile "123456789"] 1).files
        (exampleFile "123456789") = none := by
  have hgone : (peers ⟨false⟩ exampleDir damaged [exampleFile "123456789"] 1).files
      (exampleFile "123456789") = none := by decide
  refine ⟨fun h => ?_, hgone⟩
  have hkept := h.kept (exampleFile "123456789") ⟨true, .error .parse, 0⟩ .parse (if_pos rfl) rfl
  rw [hgone] at hkept
  cases hkept

/-! ## Directories where every file loads -/

/-- Regular files with names in UTF-8, all of which load. -/
def embed (files : Configuration.Files) : Files
  | .utf8 p => (files.lookup p).map fun file => ⟨true, .ok file.config, file.modified⟩
  | .raw _ => none

/-- A change of one file is the same change among the files seen as stored. -/
theorem embed_change {files files' : Configuration.Files} {p : PathBuf}
    (hother : ∀ q, q ≠ p → files'.lookup q = files.lookup q) :
    embed files' = Function.update (embed files) (.utf8 p) (embed files' (.utf8 p)) := by
  funext q
  by_cases hq : q = .utf8 p
  · rw [hq, Function.update_self]
  · rw [Function.update_of_ne hq]
    cases q with
    | raw name => rfl
    | utf8 q => rw [embed, hother q fun heq => hq (congrArg OsPath.utf8 heq), embed]

theorem embed_insert (files : Configuration.Files) (p : PathBuf) (file : PeerFile) :
    embed (files.insert p file) =
      Function.update (embed files) (.utf8 p) (some ⟨true, .ok file.config, file.modified⟩) := by
  rw [embed_change fun q hq => Finmap.lookup_insert_of_ne files hq]
  rw [embed, Finmap.lookup_insert, Option.map_some]

theorem embed_erase (files : Configuration.Files) (p : PathBuf) :
    embed (files.erase p) = Function.update (embed files) (.utf8 p) none := by
  rw [embed_change fun q hq => Finmap.lookup_erase_ne hq]
  rw [embed, Finmap.lookup_erase, Option.map_none]

theorem load_embed (confy : Confy) (dir : PathBuf) (files : Configuration.Files)
    (id : List Char) (now : ℕ) :
    load confy dir (embed files) id now =
      ((PeerConfig.load confy dir files id now).1,
        embed (PeerConfig.load confy dir files id now).2) := by
  unfold load loadPath PeerConfig.load Confy.loadPath
  rw [embed]
  cases hfile : files.lookup (path dir id) with
  | some file => rfl
  | none =>
      dsimp only [Option.map_none]
      by_cases hstores : confy.storesDefault
      · rw [if_pos hstores, if_pos hstores, embed_insert]
      · rw [if_neg hstores, if_neg hstores]

/-- **The plain listing is a case of this one**: where every file loads, both loops
find the same entries and leave the same files. -/
theorem peersLoop_embed (confy : Confy) (dir : PathBuf) (now : ℕ) (ps : List PathBuf)
    (files : Configuration.Files) :
    (peersLoop confy dir now (ps.map .utf8) (embed files)).entries.map Prod.snd =
        (PeerConfig.peersLoop confy dir now ps files).1 ∧
      (peersLoop confy dir now (ps.map .utf8) (embed files)).files =
        embed (PeerConfig.peersLoop confy dir now ps files).2 := by
  induction ps generalizing files with
  | nil => exact ⟨rfl, rfl⟩
  | cons p ps ih =>
      rw [List.map_cons]
      cases hp : files.lookup p with
      | none =>
          have hnone : embed files (.utf8 p) = none := by rw [embed, hp, Option.map_none]
          have hskip : ∀ file, ¬ Candidate (embed files) (.utf8 p) file := by
            intro file hfile
            rw [hfile.1] at hnone
            cases hnone
          rw [peersLoop_other hskip, PeerConfig.peersLoop, hp]
          exact ih files
      | some file =>
          have hsome : embed files (.utf8 p) = some ⟨true, .ok file.config, file.modified⟩ := by
            rw [embed, hp, Option.map_some]
          by_cases hext : p.extension = some toml
          · have hcandidate : Candidate (embed files) (.utf8 p)
                ⟨true, .ok file.config, file.modified⟩ :=
              ⟨hsome, rfl, decide_eq_true hext⟩
            have hafter : afterLoad confy dir now (embed files) (.utf8 p) = embed
                (if (PeerConfig.load confy dir files (p.fileStem.getD []) now).1.info.platform = ""
                then (PeerConfig.load confy dir files (p.fileStem.getD []) now).2.erase p
                else (PeerConfig.load confy dir files (p.fileStem.getD []) now).2) := by
              rw [afterLoad, OsPath.stem, load_embed, apply_ite embed, embed_erase]
            rw [peersLoop_candidate hcandidate, hafter, OsPath.stem, load_embed,
              PeerConfig.peersLoop, hp]
            dsimp only
            rw [if_pos hext]
            obtain ⟨hentries, hfiles⟩ := ih (if (PeerConfig.load confy dir files
              (p.fileStem.getD []) now).1.info.platform = "" then
                (PeerConfig.load confy dir files (p.fileStem.getD []) now).2.erase p
              else (PeerConfig.load confy dir files (p.fileStem.getD []) now).2)
            exact ⟨congrArg (List.cons _) hentries, hfiles⟩
          · have hskip : ∀ file, ¬ Candidate (embed files) (.utf8 p) file :=
              fun file hfile => hext (of_decide_eq_true hfile.2.2)
            rw [peersLoop_other hskip, PeerConfig.peersLoop, hp]
            dsimp only
            rw [if_neg hext]
            exact ih files

end RustdeskServer.Configuration.PeerListing
