import RustdeskServer.Transfer.Listing
import RustdeskServer.Transfer.Together

/-!
# Copying a directory

`new_read` makes its list with `get_recursive_files`, and the transfer of the list
puts every entry at its name under the destination. The names are relative and lead
down, so different files have different places there (`locate_under`), and a file's
temporary place is another file's place only if that one is called like it with
`.download` behind (`clashFree_of_apart`).

`directory_copied` puts the two together: what can be reached in the source
directory is there under the destination, with its content, and nothing else has
changed.
-/

namespace RustdeskServer.Transfer

open RustdeskServer.Codec RustdeskServer.Framework

/-! ## Places under a directory -/

theorem body_ofNames {names : List (List Char)} (h : ∀ name ∈ names, PathBuf.Plain name) :
    (PathBuf.ofNames names).body = names.map .normal := by
  induction names using List.reverseRecOn with
  | nil => rfl
  | append_singleton names name ih =>
      have hname : PathBuf.Plain name := h name (by simp)
      have hparts : PathBuf.parts name = [name] := List.splitOn_eq_singleton hname.no_slash
      rw [PathBuf.ofNames_concat, PathBuf.body_join hname.isAbsolute,
        ih fun name' hin => h name' (List.mem_append_left _ hin), PathBuf.body, hparts]
      simp [hname.partComponent_eq]

theorem foldl_push_normal (stack : List Component) (names : List (List Char)) :
    (names.map Component.normal).foldl push stack = stack ++ names.map .normal := by
  induction names generalizing stack with
  | nil => exact (List.append_nil stack).symm
  | cons name names ih =>
      rw [List.map_cons, List.foldl_cons, ih, push, List.append_assoc]
      rfl

/-- Names joined to a path lead down from it. -/
theorem locate_under (dest : PathBuf) {names : List (List Char)}
    (h : ∀ name ∈ names, PathBuf.Plain name) (hne : names ≠ []) :
    Paths.lexical.locate (dest.join (PathBuf.ofNames names)) =
      Paths.lexical.locate dest ++ names.map .normal := by
  obtain ⟨-, hrelative, -⟩ := PathBuf.ofNames_spec h hne
  have habsolute : (dest.join (PathBuf.ofNames names)).isAbsolute = dest.isAbsolute := by
    by_cases hdest : dest = []
    · rw [hdest, PathBuf.join_relative hrelative, if_pos (Or.inl rfl)]
      exact hrelative
    · exact PathBuf.isAbsolute_join hdest hrelative
  show resolve (PathBuf.components _) = resolve dest.components ++ _
  rw [PathBuf.resolve_components, PathBuf.resolve_components, PathBuf.body_join hrelative,
    List.foldl_append, body_ofNames h, foldl_push_normal, habsolute]

/-- The temporary place of a file is that of a file called like it with `.download`
behind. -/
theorem ofNames_download (front : List (List Char)) {last : List Char} (hne : last ≠ []) :
    PathBuf.ofNames (front ++ [last]) ++ download =
      PathBuf.ofNames (front ++ [last ++ download]) := by
  rw [PathBuf.ofNames_concat, PathBuf.ofNames_concat, PathBuf.join_append hne]

theorem plain_download {name : List Char} (h : PathBuf.Plain name) :
    PathBuf.Plain (name ++ download) := by
  have hlong : 2 < (name ++ download).length := by
    rw [List.length_append]
    exact Nat.lt_of_lt_of_le (by decide) (Nat.le_add_left download.length _)
  refine ⟨?_, ?_, ?_, ?_⟩
  · exact List.append_ne_nil_of_left_ne_nil h.ne_nil _
  · rw [List.mem_append, not_or]
    exact ⟨h.no_slash, by decide⟩
  · intro hdot
    rw [hdot] at hlong
    exact absurd hlong (by decide)
  · intro hdots
    rw [hdots] at hlong
    exact absurd hlong (by decide)

/-! ## The list of a directory -/

/-- No file to be listed is called like another one with `.download` behind. -/
def NoDownloads (t : FileTree) (includeHidden : Bool) (dir : Location) : Prop :=
  ∀ front last names, Reachable t includeHidden dir (front ++ [last]) →
    Reachable t includeHidden dir names → names ≠ front ++ [last ++ download]

/-- The sending end reads from the files of the tree. -/
def ReadsFrom {Loc : Type*} (src : Paths Loc) (source : FileStore Loc) (t : FileTree)
    (includeHidden : Bool) (path : PathBuf) (dir : Location) : Prop :=
  ∀ names content, Reachable t includeHidden dir names →
    t.node (under dir names) = some (.file content) →
      source.read (src.locate (path.join (PathBuf.ofNames names))) = some content

/-- The files that can be reached from `dir` are under `dest`, at the same names and
with their content, without temporary files, and every other place is as it was. -/
structure Copied (t : FileTree) (includeHidden : Bool) (dir : Location) (dest : PathBuf)
    (before after : FileStore (List Component)) : Prop where
  files : ∀ names content, Reachable t includeHidden dir names →
    t.node (under dir names) = some (.file content) →
      after.read (Paths.lexical.locate (dest.join (PathBuf.ofNames names))) = some content
  temps : ∀ names, Reachable t includeHidden dir names →
    after.read (Paths.lexical.locate (dest.join (PathBuf.ofNames names) ++ download)) = none
  others : ∀ l, (∀ names, Reachable t includeHidden dir names →
      l ≠ Paths.lexical.locate (dest.join (PathBuf.ofNames names)) ∧
        l ≠ Paths.lexical.locate (dest.join (PathBuf.ofNames names) ++ download)) →
    after.lookup l = before.lookup l

/-- The request for what `get_recursive_files` returned. -/
def copyOf (id : Int32) (path dest : PathBuf) (files : List DirEntry) : Request :=
  ⟨id, path, dest, files.map DirEntry.toFileEntry⟩

/-- The machines, if there are no links at the receiving one. -/
def linkless {Loc : Type*} (src : Paths Loc) (source : FileStore Loc) (z : Zstd) :
    Ends Loc (List Component) := ⟨src, source, .lexical, z⟩

section
variable {Loc : Type*} {src : Paths Loc} {source : FileStore Loc} {z : Zstd} {t : FileTree}
  {includeHidden : Bool} {dir : Location} {path dest : PathBuf} {id : Int32}
  {names : List (List Char)} {files : List DirEntry}

theorem listedEntry_path (h : Reachable t includeHidden dir names) (base : PathBuf) :
    entryPath base (listedEntry t [] dir names).toFileEntry =
      base.join (PathBuf.ofNames names) := by
  obtain ⟨hne, -, -⟩ := PathBuf.ofNames_spec h.plain h.ne_nil
  exact if_neg hne

theorem final_listed (h : Reachable t includeHidden dir names) :
    ((linkless src source z).link (copyOf id path dest files)).final
        (listedEntry t [] dir names).toFileEntry =
      Paths.lexical.locate dest ++ names.map .normal := by
  show Paths.lexical.locate (entryPath dest _) = _
  rw [listedEntry_path h, locate_under dest h.plain h.ne_nil]

theorem temp_listed {front : List (List Char)} {last : List Char}
    (h : Reachable t includeHidden dir (front ++ [last])) :
    ((linkless src source z).link (copyOf id path dest files)).temp
        (listedEntry t [] dir (front ++ [last])).toFileEntry =
      Paths.lexical.locate dest ++ (front ++ [last ++ download]).map .normal := by
  have hlast : PathBuf.Plain last := h.plain last (by simp)
  obtain ⟨hne, -, -⟩ := PathBuf.ofNames_spec h.plain h.ne_nil
  have hplain : ∀ name ∈ front ++ [last ++ download], PathBuf.Plain name := by
    intro name hname
    rcases List.mem_append.mp hname with hname | hname
    · exact h.plain name (List.mem_append_left _ hname)
    · rw [List.mem_singleton.mp hname]
      exact plain_download hlast
  show Paths.lexical.locate (entryPath dest _ ++ download) = _
  rw [listedEntry_path h, ← PathBuf.join_append hne, ofNames_download front hlast.ne_nil,
    locate_under dest hplain (by simp)]

theorem content_listed (hreads : ReadsFrom src source t includeHidden path dir)
    (h : Reachable t includeHidden dir names) {content : Bytes}
    (hnode : t.node (under dir names) = some (.file content)) :
    ((linkless src source z).link (copyOf id path dest files)).content
        (listedEntry t [] dir names).toFileEntry = some content := by
  show source.read (src.locate (entryPath path _)) = _
  rw [listedEntry_path h]
  exact hreads names content h hnode

/-- Such a list can be received. -/
theorem clashFree_of_apart (hdownloads : NoDownloads t includeHidden dir)
    {found : List (List (List Char))}
    (hfound : ∀ names ∈ found, Reachable t includeHidden dir names) :
    ((linkless src source z).link
      (copyOf id path dest (found.map (listedEntry t [] dir)))).ClashFree := by
  have hlisted : ∀ entry ∈ (copyOf id path dest (found.map (listedEntry t [] dir))).files,
      ∃ names, Reachable t includeHidden dir names ∧
        entry = (listedEntry t [] dir names).toFileEntry := by
    intro entry hentry
    obtain ⟨listed, hlisted, rfl⟩ := List.mem_map.mp hentry
    obtain ⟨names, hnames, rfl⟩ := List.mem_map.mp hlisted
    exact ⟨names, hfound names hnames, rfl⟩
  constructor
  · intro a ha b hb hsame
    obtain ⟨names, hreach, rfl⟩ := hlisted a ha
    obtain ⟨names', hreach', rfl⟩ := hlisted b hb
    obtain ⟨front, last, rfl⟩ := List.eq_nil_or_concat' names' |>.resolve_left hreach'.ne_nil
    rw [final_listed hreach, temp_listed hreach', List.append_cancel_left_eq] at hsame
    refine hdownloads front last names hreach' hreach ?_
    exact List.map_injective_iff.mpr (fun _ _ => Component.normal.inj) hsame
  · intro a ha b hb hsame
    obtain ⟨names, hreach, rfl⟩ := hlisted a ha
    obtain ⟨names', hreach', rfl⟩ := hlisted b hb
    rw [final_listed hreach, final_listed hreach', List.append_cancel_left_eq] at hsame
    obtain rfl : names = names' :=
      List.map_injective_iff.mpr (fun _ _ => Component.normal.inj) hsame
    rfl

theorem copy_ready (hz : z.Lawful) (hreads : ReadsFrom src source t includeHidden path dir)
    (hdownloads : NoDownloads t includeHidden dir) {found : List (List (List Char))}
    (hfound : ∀ names ∈ found, Reachable t includeHidden dir names)
    (hshort : found.length < 2 ^ 31) :
    (linkless src source z).Ready [copyOf id path dest (found.map (listedEntry t [] dir))] where
  lawful := hz
  short := by
    refine List.forall_mem_singleton.mpr ?_
    show ((found.map _).map _).length < _
    rwa [List.length_map, List.length_map]
  present := by
    refine List.forall_mem_singleton.mpr fun entry hentry => ?_
    obtain ⟨listed, hlisted, rfl⟩ := List.mem_map.mp hentry
    obtain ⟨names, hnames, rfl⟩ := List.mem_map.mp hlisted
    have hreach := hfound names hnames
    obtain ⟨-, content, hnode⟩ := hreach.walk 0
    rw [content_listed hreads hreach hnode]
    rfl
  clashFree := List.forall_mem_singleton.mpr (clashFree_of_apart hdownloads hfound)
  ids := List.nodup_singleton id
  apart := by
    intro r hr r' hr' hne
    rw [List.mem_singleton.mp hr, List.mem_singleton.mp hr'] at hne
    exact absurd rfl hne

end

/-- **A directory is copied.** `get_recursive_files` lists a readable directory of a
tree, a read job sends the list to a write job at a destination without links, and
nothing fails. If no file to be listed is called like another one with `.download`
behind, then after so many calls of `handle_read_jobs` the queue is empty and every
block was taken; and when the write job has come to its last `modify_time`, the
directory has been copied. -/
theorem directory_copied {Loc : Type*} (t : FileTree) (cwd : Location) (includeHidden : Bool)
    {path : PathBuf} {dir : Location} {searchable : Bool} (hpath : t.locate cwd path = some dir)
    (hdir : t.node dir = some (.dir true searchable))
    (hdownloads : NoDownloads t includeHidden dir) (src : Paths Loc) (source : FileStore Loc)
    (hreads : ReadsFrom src source t includeHidden path dir) (z : Zstd) (hz : z.Lawful)
    (id : Int32) (dest : PathBuf) (store : FileStore (List Component)) (clock : ℕ → Int)
    (io : ℕ → ℕ → ReadIo) (hok : ∀ i tag, (io i tag).Ok) (now : Int) :
    ∃ files, (∀ fuel, t.depth < fuel →
        getRecursiveFiles t cwd includeHidden fuel path = some (.ok files)) ∧
      (files.length < 2 ^ 31 → ∀ ends requests after, ends = linkless src source z →
        requests = [copyOf id path dest files] →
        after = Transfers.after ends clock requests store io (ends.calls requests) →
        after.queue.jobs = [] ∧ after.downloads.lost = [] ∧
          Copied t includeHidden dir dest store (after.downloads.finish ends now).store) := by
  obtain ⟨found, -, hmem, hfiles⟩ := getRecursiveFiles_found includeHidden hpath hdir
  refine ⟨found.map (listedEntry t [] dir), hfiles, ?_⟩
  · rintro hshort _ _ _ rfl rfl rfl
    rw [List.length_map] at hshort
    have hready : (linkless src source z).Ready
        [copyOf id path dest (found.map (listedEntry t [] dir))] :=
      copy_ready hz hreads hdownloads (fun names hnames => (hmem names).mp hnames) hshort
    obtain ⟨σ, left, hend, hzero⟩ := Transfers.ended hready store clock hok
    obtain ⟨hlost, hplaces, hothers⟩ := hend.downloads.complete hready hzero now
    refine ⟨hend.queue_empty hzero, hlost, ?_⟩
    have hplace : ∀ names, Reachable t includeHidden dir names → _ := fun names hreach =>
      hplaces _ List.mem_cons_self (listedEntry t [] dir names).toFileEntry
        (List.mem_map_of_mem (List.mem_map_of_mem ((hmem names).mpr hreach)))
    constructor
    · intro names content hreach hnode
      rw [← listedEntry_path hreach dest, ← content_listed hreads hreach hnode]
      exact (hplace names hreach).1
    · intro names hreach
      rw [← listedEntry_path hreach dest]
      exact (hplace names hreach).2
    · intro l hl
      refine hothers l (List.forall_mem_singleton.mpr fun entry hentry => ?_)
      obtain ⟨listed, hlisted, rfl⟩ := List.mem_map.mp hentry
      obtain ⟨names, hnames, rfl⟩ := List.mem_map.mp hlisted
      have hreach := (hmem names).mp hnames
      have hne := hl names hreach
      rw [← listedEntry_path hreach dest] at hne
      exact hne

/-! ## The sample directory -/

theorem sample_path : sampleTree.locate [] "/d".toList = some [.text ['d']] := by decide

theorem sample_dir : sampleTree.node [.text ['d']] = some (.dir true true) := by decide

/-- What is listed there. -/
def sampleList : List DirEntry :=
  [⟨⟨"a".toList, 2, 5⟩, .file, false⟩, ⟨⟨"s/b".toList, 1, 0⟩, .file, false⟩]

theorem sample_listed : readDirRecursive sampleTree [] false 4 "/d".toList [] =
    some (.ok sampleList) := rfl

theorem sample_reachable {names : List (List Char)}
    (h : Reachable sampleTree false [.text ['d']] names) :
    names = [['a']] ∨ names = [['s'], ['b']] := by
  obtain ⟨⟨found, hfound, -, hmem⟩, -⟩ :=
    readDirRecursive_finds false 4 [] sample_path sample_dir (by decide)
  rw [sample_listed] at hfound
  have hnames : ∀ {other : List (List Char)}, (∀ name ∈ other, PathBuf.Plain name) →
      PathBuf.ofNames names = PathBuf.ofNames other → names = other :=
    fun hother => PathBuf.ofNames_inj h.plain hother
  have hin : listedEntry sampleTree [] [.text ['d']] names ∈ found.map _ :=
    List.mem_map_of_mem ((hmem names).mpr h)
  rw [← Option.some.inj hfound] at hin
  rcases List.mem_cons.mp hin with hfirst | hin
  · exact .inl (hnames (by decide) (congrArg (fun e : DirEntry => e.name) hfirst))
  · have hsecond := List.mem_singleton.mp hin
    exact .inr (hnames (by decide) (congrArg (fun e : DirEntry => e.name) hsecond))

theorem sample_noDownloads : NoDownloads sampleTree false [.text ['d']] := by
  intro front last names _ hnames heq
  have hlast := congrArg (fun names => (names.getLast?.elim 0 List.length)) heq
  simp only [List.getLast?_concat, Option.elim_some, List.length_append] at hlast
  have hlong : download.length = 9 := rfl
  rcases sample_reachable hnames with rfl | rfl
  · simp at hlast
    omega
  · simp at hlast
    omega

/-- The files of the sample directory. -/
def sampleFiles : FileStore (List Component) :=
  filesAt [("/d/a".toList, [1, 2]), ("/d/s/b".toList, [3])]

theorem sample_reads :
    ReadsFrom .lexical sampleFiles sampleTree false "/d".toList [.text ['d']] := by
  intro names content hreach hnode
  rcases sample_reachable hreach with rfl | rfl
  · have hfile : sampleTree.node (under [.text ['d']] [['a']]) = some (.file [1, 2]) := by decide
    rw [hfile] at hnode
    cases hnode
    decide
  · have hfile : sampleTree.node (under [.text ['d']] [['s'], ['b']]) = some (.file [3]) := by
      decide
    rw [hfile] at hnode
    cases hnode
    decide

theorem directory_copied_sample :
    getRecursiveFiles sampleTree [] false 4 "/d".toList = some (.ok sampleList) ∧
      ∀ ends requests after, ends = linkless .lexical sampleFiles .framed →
        requests = [copyOf 1 "/d".toList "e".toList sampleList] →
        after = Transfers.after ends (fun _ => 0) requests .empty (fun _ _ => ⟨true, []⟩)
          (ends.calls requests) →
        after.queue.jobs = [] ∧ after.downloads.lost = [] ∧
          Copied sampleTree false [.text ['d']] "e".toList .empty
            (after.downloads.finish ends 0).store := by
  obtain ⟨files, hlist, hcopied⟩ := directory_copied sampleTree [] false sample_path sample_dir
    sample_noDownloads .lexical sampleFiles sample_reads .framed Zstd.framed_lawful 1 "e".toList
    .empty (fun _ => 0) (fun _ _ => ⟨true, []⟩) (fun _ _ => ⟨rfl, by decide⟩) 0
  obtain rfl : sampleList = files :=
    Except.ok.inj (Option.some.inj (sample_listed.symm.trans (hlist 4 (by decide))))
  exact ⟨sample_listed, hcopied (by decide)⟩

end RustdeskServer.Transfer
