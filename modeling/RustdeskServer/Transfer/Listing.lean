import RustdeskServer.Framework.FileTree
import RustdeskServer.Framework.Fuel
import RustdeskServer.Transfer.TransferJob

/-!
# The files under a directory (`get_recursive_files`)

`read_dir` lists a directory and says of each entry what it is; whether it is a
directory is asked of what a link leads to, whether it is a link of the entry
itself. `read_dir_recursive` goes into directories and leaves out links, and what it
cannot read below the first directory.

`Reachable` is what it is for: the names that lead to a regular file through
directories. `get_recursive_files_exact` says that these files are listed, each once.
-/

namespace RustdeskServer.Transfer

open RustdeskServer.Framework

/-! ## Directories -/

inductive FileType where
  | dir
  | dirLink
  | dirDrive
  | file
  | fileLink
deriving DecidableEq

structure DirEntry extends FileEntry where
  entryType : FileType
  isHidden : Bool
deriving DecidableEq

/-- `name.find('.').unwrap_or(usize::MAX) == 0` -/
def startsWithDot (name : List Char) : Bool := name.head? = some '.'

/-- Seconds since the epoch, or none before it. -/
def asSecs (modified : Int) : UInt64 := UInt64.ofNat modified.toNat

/-- `meta.len()` of a file -/
def fileLen : Node → UInt64
  | .file content => UInt64.ofNat content.length
  | _ => 0

section
variable (t : FileTree) (cwd : Location) (includeHidden : Bool)

/-- What `read_dir` makes of one name. -/
def readEntry (path : PathBuf) : FileName → Option DirEntry
  -- `to_str` gives nothing, and an empty name is passed over
  | .bytes _ => none
  | .text name =>
      if name = [] then none
      else
        let p := path.join name
        match t.symlinkMetadata cwd p with
        | none => none
        | some (node, modified) =>
            let isHidden := startsWithDot name
            if isHidden && !includeHidden then none
            else
              let (entryType, size) :=
                if t.isDir cwd p then
                  if node.isLink then (FileType.dirLink, 0) else (FileType.dir, 0)
                else if node.isLink then (FileType.fileLink, 0)
                else (FileType.file, fileLen node)
              some ⟨⟨name, size, asSecs modified⟩, entryType, isHidden⟩

def readDir (path : PathBuf) : Except TransferError (List DirEntry) :=
  match t.readNames cwd path with
  | none => .error .io
  | some names => .ok (names.filterMap (readEntry t cwd includeHidden path))

end

/-- What `read_dir_recursive` returned, or nothing for an error. -/
def okFiles : Except TransferError (List DirEntry) → List DirEntry
  | .ok files => files
  | .error _ => []

/-- The files that the loop of `read_dir_recursive` takes from one entry, given the
recursive call. -/
def filesOf (recurse : PathBuf → PathBuf → Option (Except TransferError (List DirEntry)))
    (path pfx : PathBuf) (entry : DirEntry) : Option (List DirEntry) :=
  match entry.entryType with
  | .file => some [{ entry with name := pfx.join entry.name }]
  | .dir => (recurse (path.join entry.name) (pfx.join entry.name)).map okFiles
  | _ => some []

section
variable (t : FileTree) (cwd : Location) (includeHidden : Bool)

/-- `read_dir_recursive`, which goes so many directories deep. -/
def readDirRecursive : ℕ → PathBuf → PathBuf → Option (Except TransferError (List DirEntry))
  | 0, _, _ => none
  | fuel + 1, path, pfx =>
      if t.isDir cwd path then
        match readDir t cwd includeHidden path with
        | .error err => some (.error err)
        | .ok entries =>
            (entries.mapM (filesOf (readDirRecursive fuel) path pfx)).map
              fun files => .ok files.flatten
      else if t.isFile cwd path then
        let (size, modifiedTime) :=
          match t.metadata cwd path with
          | some (node, modified) => (fileLen node, asSecs modified)
          | none => (0, 0)
        some (.ok [⟨⟨[], size, modifiedTime⟩, .file, false⟩])
      else some (.error (.bail "Not exists"))

def getRecursiveFiles (fuel : ℕ) (path : PathBuf) :
    Option (Except TransferError (List DirEntry)) :=
  readDirRecursive t cwd includeHidden fuel path []

end

/-! ## What is to be listed -/

/-- The names lead from the directory to a regular file, through directories that may
be read and searched, and none of them is hidden. -/
inductive Reachable (t : FileTree) (includeHidden : Bool) : Location → List (List Char) → Prop
  | file {dir : Location} {name : List Char} {content : List UInt8} :
      t.node dir = some (.dir true true) → (startsWithDot name && !includeHidden) = false →
      t.node (dir ++ [.text name]) = some (.file content) → Reachable t includeHidden dir [name]
  | deeper {dir : Location} {name : List Char} {names : List (List Char)} :
      t.node dir = some (.dir true true) → (startsWithDot name && !includeHidden) = false →
      Reachable t includeHidden (dir ++ [.text name]) names →
      Reachable t includeHidden dir (name :: names)

/-- Where names lead from a directory. -/
def under (dir : Location) (names : List (List Char)) : Location := dir ++ names.map .text

/-- The entry for the file at the end of these names, which are below `pfx`. -/
def listedEntry (t : FileTree) (pfx : PathBuf) (dir : Location) (names : List (List Char)) :
    DirEntry where
  name := names.foldl PathBuf.join pfx
  size := (t.node (under dir names)).elim 0 fileLen
  modifiedTime := asSecs (t.modified (under dir names))
  entryType := .file
  isHidden := names.getLast?.elim false startsWithDot

section
variable {t : FileTree} {cwd : Location} {includeHidden : Bool} {dir : Location}
  {path pfx : PathBuf} {name : List Char}

/-! ## One name -/

theorem Reachable.readable {names : List (List Char)} (h : Reachable t includeHidden dir names) :
    t.node dir = some (.dir true true) := by
  cases h with
  | file hdir => exact hdir
  | deeper hdir => exact hdir

/-- Where the names behind a first one can lead. -/
theorem reachable_head_iff (hdir : t.node dir = some (.dir true true)) {names : List (List Char)} :
    Reachable t includeHidden dir names ∧ names.head? = some name ↔
      (startsWithDot name && !includeHidden) = false ∧
        (names = [name] ∧ (∃ content, t.node (dir ++ [.text name]) = some (.file content)) ∨
          ∃ rest, names = name :: rest ∧ Reachable t includeHidden (dir ++ [.text name]) rest) := by
  constructor
  · rintro ⟨hreach, hhead⟩
    obtain ⟨rest, rfl⟩ := List.head?_eq_some_iff.mp hhead
    cases hreach with
    | file _ hvisible hfile => exact ⟨hvisible, .inl ⟨rfl, _, hfile⟩⟩
    | deeper _ hvisible hrest => exact ⟨hvisible, .inr ⟨rest, rfl, hrest⟩⟩
  · rintro ⟨hvisible, ⟨rfl, content, hfile⟩ | ⟨rest, rfl, hrest⟩⟩
    · exact ⟨.file hdir hvisible hfile, rfl⟩
    · exact ⟨.deeper hdir hvisible hrest, rfl⟩

theorem plain_of_mem (h : .text name ∈ t.names dir) : PathBuf.Plain name :=
  t.ordinary dir _ h

theorem isDir_of_locate {loc : Location} {node : Node} (h : t.locate cwd path = some loc)
    (hnode : t.node loc = some node) : t.isDir cwd path = node.isDir := by
  rw [FileTree.isDir, FileTree.metadata, h, Option.bind_some, FileTree.stat, hnode]
  rfl

/-- What `read_dir` makes of a name, by what has it. -/
theorem readEntry_of_node (h : t.locate cwd path = some dir)
    (hdir : t.node dir = some (.dir true true)) (hname : .text name ∈ t.names dir) {node : Node}
    (hnode : t.node (dir ++ [.text name]) = some node)
    (hvisible : (startsWithDot name && !includeHidden) = false) :
    ∃ entryType size, readEntry t cwd includeHidden path (.text name) =
        some ⟨⟨name, size, asSecs (t.modified (dir ++ [.text name]))⟩, entryType,
          startsWithDot name⟩ ∧
      match node with
      | .file content => entryType = .file ∧ size = fileLen (.file content)
      | .dir _ _ => entryType = .dir
      | .link _ _ => entryType = .dirLink ∨ entryType = .fileLink := by
  have hplain := plain_of_mem hname
  have hmeta : t.symlinkMetadata cwd (path.join name) =
      some (node, t.modified (dir ++ [.text name])) := by
    rw [FileTree.symlinkMetadata_join h hplain, FileTree.child_of hdir hname, Option.bind_some,
      FileTree.stat, hnode, Option.map_some]
  rw [readEntry, if_neg hplain.ne_nil]
  dsimp only
  rw [hmeta]
  dsimp only
  rw [hvisible, if_neg Bool.false_ne_true]
  cases node with
  | file content =>
      have hisDir := isDir_of_locate (FileTree.locate_join_name h hplain hdir hnode rfl) hnode
      rw [hisDir]
      exact ⟨_, _, rfl, rfl, rfl⟩
  | dir readable searchable =>
      have hisDir := isDir_of_locate (FileTree.locate_join_name h hplain hdir hnode rfl) hnode
      rw [hisDir]
      exact ⟨_, _, rfl, rfl⟩
  | link absolute target =>
      -- what the link leads to decides between two kinds, neither of which is gone into
      cases t.isDir cwd (path.join name) with
      | true => exact ⟨_, _, rfl, Or.inl rfl⟩
      | false => exact ⟨_, _, rfl, Or.inr rfl⟩

theorem readEntry_hidden (path : PathBuf)
    (hhidden : (startsWithDot name && !includeHidden) = true) :
    readEntry t cwd includeHidden path (.text name) = none := by
  rw [readEntry]
  split_ifs with hnil
  · rfl
  · dsimp only
    split
    · rfl
    · rw [hhidden, if_pos rfl]

theorem readEntry_unsearchable {readable : Bool} (h : t.locate cwd path = some dir)
    (hdir : t.node dir = some (.dir readable false)) {entry : FileName}
    (hentry : entry ∈ t.names dir) : readEntry t cwd includeHidden path entry = none := by
  cases entry with
  | bytes raw => rfl
  | text name =>
      have hplain := plain_of_mem hentry
      have hmeta : t.symlinkMetadata cwd (path.join name) = none := by
        rw [FileTree.symlinkMetadata_join h hplain, FileTree.child_of_unsearchable hdir,
          Option.bind_none]
      rw [readEntry, if_neg hplain.ne_nil]
      dsimp only
      rw [hmeta]

/-! ## The loop -/

theorem under_cons (dir : Location) (name : List Char) (names : List (List Char)) :
    under (dir ++ [.text name]) names = under dir (name :: names) := List.append_assoc _ _ _

theorem listedEntry_cons (t : FileTree) (pfx : PathBuf) (dir : Location) (name : List Char)
    {names : List (List Char)} (hne : names ≠ []) :
    listedEntry t (pfx.join name) (dir ++ [.text name]) names =
      listedEntry t pfx dir (name :: names) := by
  rw [listedEntry, listedEntry, under_cons, List.getLast?_cons_of_ne_nil hne]
  rfl

theorem Reachable.ne_nil {names : List (List Char)} (h : Reachable t includeHidden dir names) :
    names ≠ [] := by
  cases h with
  | file => exact List.cons_ne_nil _ _
  | deeper => exact List.cons_ne_nil _ _

/-- What the recursive call finds in a directory. -/
def Finds (t : FileTree) (includeHidden : Bool) (dir : Location) (pfx : PathBuf)
    (result : Option (Except TransferError (List DirEntry))) : Prop :=
  ∃ found : List (List (List Char)), result.map okFiles = some (found.map (listedEntry t pfx dir)) ∧
    found.Nodup ∧ ∀ names, names ∈ found ↔ Reachable t includeHidden dir names

variable {recurse : PathBuf → PathBuf → Option (Except TransferError (List DirEntry))}

/-- **The files behind one name** of the directory. -/
theorem found_of_name (h : t.locate cwd path = some dir)
    (hdir : t.node dir = some (.dir true true)) (hname : .text name ∈ t.names dir)
    (hrec : ∀ readable searchable,
      t.node (dir ++ [.text name]) = some (.dir readable searchable) →
        Finds t includeHidden (dir ++ [.text name]) (pfx.join name)
          (recurse (path.join name) (pfx.join name))) :
    ∃ found : List (List (List Char)),
      (readEntry t cwd includeHidden path (.text name)).elim (some [])
          (filesOf recurse path pfx) = some (found.map (listedEntry t pfx dir)) ∧
        found.Nodup ∧
        ∀ names, names ∈ found ↔ Reachable t includeHidden dir names ∧ names.head? = some name := by
  simp only [reachable_head_iff hdir]
  cases hvisible : startsWithDot name && !includeHidden with
  | true =>
      refine ⟨[], by rw [readEntry_hidden path hvisible]; rfl, List.nodup_nil, ?_⟩
      simp
  | false =>
      obtain ⟨node, hnode⟩ := Option.ne_none_iff_exists'.mp ((t.mem_names dir _).mp hname)
      obtain ⟨entryType, size, hentry, htype⟩ :=
        readEntry_of_node h hdir hname hnode hvisible
      have hbelow {rest : List (List Char)}
          (hrest : Reachable t includeHidden (dir ++ [.text name]) rest) :
          node = .dir true true := by
        rw [hrest.readable] at hnode
        exact (Option.some.inj hnode).symm
      rw [hentry, Option.elim_some, filesOf]
      cases node with
      | file content =>
          obtain ⟨rfl, rfl⟩ := htype
          refine ⟨[[name]], ?_, List.nodup_singleton _, fun names => ?_⟩
          · have hunder : under dir [name] = dir ++ [.text name] := rfl
            rw [List.map_singleton, listedEntry, hunder, hnode]
            rfl
          · rw [List.mem_singleton]
            constructor
            · rintro rfl
              exact ⟨rfl, .inl ⟨rfl, content, hnode⟩⟩
            · rintro ⟨-, ⟨hnames, -⟩ | ⟨rest, -, hrest⟩⟩
              · exact hnames
              · cases hbelow hrest
      | dir readable searchable =>
          obtain rfl := htype
          obtain ⟨found, hfound, hnodup, hmem⟩ := hrec readable searchable hnode
          refine ⟨found.map (List.cons name), ?_, hnodup.map List.cons_injective, fun names => ?_⟩
          · dsimp only
            rw [hfound, List.map_map]
            refine congrArg some (List.map_congr_left fun names hin => ?_)
            exact listedEntry_cons t pfx dir name ((hmem names).mp hin).ne_nil
          · rw [List.mem_map]
            constructor
            · rintro ⟨rest, hin, rfl⟩
              exact ⟨rfl, .inr ⟨rest, rfl, (hmem rest).mp hin⟩⟩
            · rintro ⟨-, ⟨-, content, hfile⟩ | ⟨rest, rfl, hrest⟩⟩
              · rw [hfile] at hnode
                cases hnode
              · exact ⟨rest, (hmem rest).mpr hrest, rfl⟩
      | link absolute target =>
          refine ⟨[], ?_, List.nodup_nil, fun names => iff_of_false List.not_mem_nil ?_⟩
          · rcases htype with rfl | rfl <;> rfl
          · rintro ⟨-, ⟨-, content, hfile⟩ | ⟨rest, -, hrest⟩⟩
            · rw [hfile] at hnode
              cases hnode
            · cases hbelow hrest

/-- The loop over the names of a directory. -/
def filesOfNames (t : FileTree) (cwd : Location) (includeHidden : Bool)
    (recurse : PathBuf → PathBuf → Option (Except TransferError (List DirEntry)))
    (path pfx : PathBuf) (names : List FileName) : Option (List DirEntry) :=
  ((names.filterMap (readEntry t cwd includeHidden path)).mapM
    (filesOf recurse path pfx)).map List.flatten

theorem filesOfNames_cons (first : FileName) (rest : List FileName) :
    filesOfNames t cwd includeHidden recurse path pfx (first :: rest) =
      ((readEntry t cwd includeHidden path first).elim (some [])
        (filesOf recurse path pfx)).bind fun files =>
          (filesOfNames t cwd includeHidden recurse path pfx rest).map (files ++ ·) := by
  unfold filesOfNames
  rw [List.filterMap_cons]
  cases readEntry t cwd includeHidden path first with
  | none =>
      dsimp only [Option.elim_none, Option.bind_some]
      rw [Option.map_map]
      rfl
  | some entry =>
      dsimp only [Option.elim_some]
      rw [List.mapM_cons]
      cases filesOf recurse path pfx entry with
      | none => rfl
      | some files =>
          dsimp only [Option.bind_some, Option.bind_eq_bind]
          cases (rest.filterMap (readEntry t cwd includeHidden path)).mapM
            (filesOf recurse path pfx) with
          | none => rfl
          | some lists => rfl

theorem found_of_names (includeHidden : Bool)
    (recurse : PathBuf → PathBuf → Option (Except TransferError (List DirEntry))) (pfx : PathBuf)
    (h : t.locate cwd path = some dir) (hdir : t.node dir = some (.dir true true))
    (names : List FileName)
    (hsub : ∀ name ∈ names, name ∈ t.names dir) (hnodup : names.Nodup)
    (hrec : ∀ name readable searchable,
      t.node (dir ++ [.text name]) = some (.dir readable searchable) →
        Finds t includeHidden (dir ++ [.text name]) (pfx.join name)
          (recurse (path.join name) (pfx.join name))) :
    ∃ found : List (List (List Char)),
      filesOfNames t cwd includeHidden recurse path pfx names =
          some (found.map (listedEntry t pfx dir)) ∧
        found.Nodup ∧
        ∀ ns, ns ∈ found ↔ Reachable t includeHidden dir ns ∧
          ∃ name, .text name ∈ names ∧ ns.head? = some name := by
  induction names with
  | nil => exact ⟨[], rfl, List.nodup_nil, fun ns => by simp⟩
  | cons first rest ih =>
      obtain ⟨hnew, hrest⟩ := List.nodup_cons.mp hnodup
      obtain ⟨found, hfound, hfoundNodup, hmem⟩ :=
        ih (fun name hname => hsub name (List.mem_cons_of_mem first hname)) hrest
      rw [filesOfNames_cons, hfound]
      cases first with
      | bytes raw =>
          refine ⟨found, rfl, hfoundNodup, fun ns => ?_⟩
          simp [hmem]
      | text name =>
          obtain ⟨here, hhere, hhereNodup, hmemHere⟩ :=
            found_of_name h hdir (hsub _ List.mem_cons_self) (hrec name)
          refine ⟨here ++ found, ?_, ?_, fun ns => ?_⟩
          · rw [hhere, Option.bind_some, Option.map_some, List.map_append]
          · refine List.nodup_append'.mpr ⟨hhereNodup, hfoundNodup, fun ns hin hin' => ?_⟩
            obtain ⟨-, hhead⟩ := (hmemHere ns).mp hin
            obtain ⟨-, name', hname', hhead'⟩ := (hmem ns).mp hin'
            rw [hhead] at hhead'
            cases hhead'
            exact hnew hname'
          · rw [List.mem_append, hmemHere, hmem, ← and_or_left]
            simp only [List.mem_cons, FileName.text.injEq, or_and_right, exists_or,
              exists_eq_left]

/-! ## The recursion -/

theorem readNames_of_locate (h : t.locate cwd path = some dir) {readable searchable : Bool}
    (hdir : t.node dir = some (.dir readable searchable)) :
    t.readNames cwd path = if readable then some (t.names dir) else none := by
  rw [FileTree.readNames, h, Option.bind_some, hdir]
  cases readable <;> rfl

/-- A call for a directory is its loop, or the error of `read_dir`. -/
theorem readDirRecursive_dir (fuel : ℕ) (h : t.locate cwd path = some dir)
    {readable searchable : Bool} (hdir : t.node dir = some (.dir readable searchable)) :
    readDirRecursive t cwd includeHidden (fuel + 1) path pfx =
      if readable then
        (filesOfNames t cwd includeHidden (readDirRecursive t cwd includeHidden fuel) path pfx
          (t.names dir)).map .ok
      else some (.error .io) := by
  have hisDir : t.isDir cwd path = true := isDir_of_locate h hdir
  rw [readDirRecursive, if_pos hisDir, readDir, readNames_of_locate h hdir]
  cases readable with
  | false => rfl
  | true =>
      rw [if_pos rfl, if_pos rfl, filesOfNames, Option.map_map]
      rfl

theorem not_reachable {readable searchable : Bool}
    (hdir : t.node dir = some (.dir readable searchable))
    (hmode : ¬ (readable = true ∧ searchable = true)) (names : List (List Char)) :
    ¬ Reachable t includeHidden dir names := by
  intro hreach
  have hmodes := hreach.readable
  rw [hdir] at hmodes
  cases hmodes
  exact hmode ⟨rfl, rfl⟩

theorem finds_nothing {result : Except TransferError (List DirEntry)} (hnone : okFiles result = [])
    (hreach : ∀ names, ¬ Reachable t includeHidden dir names) :
    Finds t includeHidden dir pfx (some result) :=
  ⟨[], congrArg some hnone, List.nodup_nil,
    fun names => iff_of_false List.not_mem_nil (hreach names)⟩

/-- **What the recursion finds**, given as many levels as the tree is deep. -/
theorem readDirRecursive_finds (includeHidden : Bool) (fuel : ℕ) (pfx : PathBuf)
    (h : t.locate cwd path = some dir) {readable searchable : Bool}
    (hdir : t.node dir = some (.dir readable searchable)) (hfuel : t.depth < dir.length + fuel) :
    Finds t includeHidden dir pfx (readDirRecursive t cwd includeHidden fuel path pfx) ∧
      (readable = true →
        ∃ files, readDirRecursive t cwd includeHidden fuel path pfx = some (.ok files)) := by
  induction fuel generalizing pfx path dir readable searchable with
  | zero =>
      have hdepth := t.bounded dir (by rw [hdir]; exact Option.some_ne_none _)
      omega
  | succ fuel ih =>
      rw [readDirRecursive_dir fuel h hdir]
      cases readable with
      | false =>
          exact ⟨finds_nothing rfl (not_reachable hdir fun hmode => Bool.noConfusion hmode.1),
            fun hreadable => Bool.noConfusion hreadable⟩
      | true =>
          rw [if_pos rfl]
          cases searchable with
          | false =>
              -- every `lstat` in the directory fails
              have hnone : (t.names dir).filterMap (readEntry t cwd includeHidden path) = [] :=
                List.filterMap_eq_nil_iff.mpr fun entry hentry =>
                  readEntry_unsearchable h hdir hentry
              rw [filesOfNames, hnone]
              exact ⟨finds_nothing rfl (not_reachable hdir fun hmode => Bool.noConfusion hmode.2),
                fun _ => ⟨[], rfl⟩⟩
          | true =>
              have hrec : ∀ name readable searchable,
                  t.node (dir ++ [.text name]) = some (.dir readable searchable) →
                    Finds t includeHidden (dir ++ [.text name]) (pfx.join name)
                      (readDirRecursive t cwd includeHidden fuel (path.join name)
                        (pfx.join name)) := by
                intro name readable searchable hnode
                have hplain := plain_of_mem (FileTree.mem_names_of_node hnode)
                have hlocate := FileTree.locate_join_name h hplain hdir hnode rfl
                refine (ih (pfx.join name) hlocate hnode ?_).1
                rw [List.length_append, List.length_singleton]
                omega
              obtain ⟨found, hfound, hnodup, hmem⟩ := found_of_names includeHidden
                (readDirRecursive t cwd includeHidden fuel) pfx h hdir (t.names dir)
                (fun _ hname => hname) (t.nodup dir) hrec
              rw [hfound]
              refine ⟨⟨found, rfl, hnodup, fun names => ?_⟩, fun _ => ⟨_, rfl⟩⟩
              rw [hmem, and_iff_left_iff_imp]
              intro hreach
              cases hreach with
              | file _ _ hfile => exact ⟨_, FileTree.mem_names_of_node hfile, rfl⟩
              | deeper _ _ hrest => exact ⟨_, FileTree.mem_names_of_node hrest.readable, rfl⟩

/-! ## More fuel -/

theorem filesOf_extends
    {recurse' : PathBuf → PathBuf → Option (Except TransferError (List DirEntry))}
    (h : ∀ p q, Extends (recurse p q) (recurse' p q)) (path pfx : PathBuf) (entry : DirEntry) :
    Extends (filesOf recurse path pfx entry) (filesOf recurse' path pfx entry) := by
  unfold filesOf
  split
  · exact .refl _
  · exact (h _ _).map okFiles
  · exact .refl _

/-- One more level finds the same files. -/
theorem readDirRecursive_extends (t : FileTree) (cwd : Location) (includeHidden : Bool)
    (fuel : ℕ) (path pfx : PathBuf) :
    Extends (readDirRecursive t cwd includeHidden fuel path pfx)
      (readDirRecursive t cwd includeHidden (fuel + 1) path pfx) := by
  induction fuel generalizing path pfx with
  | zero => exact .of_none _
  | succ fuel ih =>
      unfold readDirRecursive
      split_ifs
      · cases readDir t cwd includeHidden path with
        | error err => exact .refl _
        | ok entries =>
            apply Extends.map
            apply Extends.mapM
            exact filesOf_extends ih path pfx
      · exact .refl _
      · exact .refl _

/-- **What a listing finds**, whatever the fuel. -/
theorem getRecursiveFiles_found (includeHidden : Bool) (h : t.locate cwd path = some dir)
    {searchable : Bool} (hdir : t.node dir = some (.dir true searchable)) :
    ∃ found : List (List (List Char)), found.Nodup ∧
      (∀ names, names ∈ found ↔ Reachable t includeHidden dir names) ∧
      ∀ fuel, t.depth < fuel → getRecursiveFiles t cwd includeHidden fuel path =
        some (.ok (found.map (listedEntry t [] dir))) := by
  have hdeep : t.depth < dir.length + (t.depth + 1) := by omega
  obtain ⟨⟨found, hfound, hnodup, hmem⟩, hok⟩ :=
    readDirRecursive_finds includeHidden (t.depth + 1) [] h hdir hdeep
  obtain ⟨files, hfiles⟩ := hok rfl
  rw [hfiles] at hfound
  obtain rfl := Option.some.inj hfound
  refine ⟨found, hnodup, hmem, ?_⟩
  intro fuel hfuel
  exact Extends.of_le (fun fuel => readDirRecursive_extends t cwd includeHidden fuel path [])
    hfuel _ hfiles

/-! ## The listed paths -/

theorem Reachable.plain {names : List (List Char)} (h : Reachable t includeHidden dir names) :
    ∀ name ∈ names, PathBuf.Plain name := by
  induction h with
  | file _ _ hfile =>
      intro name hname
      obtain rfl := List.mem_singleton.mp hname
      exact plain_of_mem (FileTree.mem_names_of_node hfile)
  | deeper _ _ hrest ih =>
      intro name hname
      rcases List.mem_cons.mp hname with rfl | hname
      · exact plain_of_mem (FileTree.mem_names_of_node hrest.readable)
      · exact ih name hname

/-- The way to a reachable file follows no link. -/
theorem Reachable.walk {names : List (List Char)} (h : Reachable t includeHidden dir names)
    (budget : ℕ) :
    t.walk budget dir (names.map fun name => .down (.text name)) =
        some (under dir names, budget) ∧
      ∃ content, t.node (under dir names) = some (.file content) := by
  induction h with
  | file hdir _ hfile => exact ⟨FileTree.walk_down budget hdir hfile rfl, _, hfile⟩
  | @deeper dir name names hdir _ hrest ih =>
      obtain ⟨hwalk, hfile⟩ := ih
      rw [List.map_cons, ← List.singleton_append, FileTree.walk_append,
        FileTree.walk_down budget hdir hrest.readable rfl, Option.bind_some, hwalk, ← under_cons]
      exact ⟨rfl, hfile⟩

/-- A listed name joined to the path denotes the file. -/
theorem Reachable.locate {names : List (List Char)} (h : Reachable t includeHidden dir names)
    (hpath : t.locate cwd path = some dir) :
    t.locate cwd (path.join (PathBuf.ofNames names)) = some (under dir names) := by
  obtain ⟨hne, hrelative, hlast⟩ := PathBuf.ofNames_spec h.plain h.ne_nil
  obtain ⟨budget, hlocate⟩ := FileTree.locate_join hpath hrelative
    ((PathBuf.getLast_join path hrelative hne).symm ▸ hlast)
  rw [hlocate, PathBuf.hops_ofNames h.plain, (h.walk budget).1, Option.map_some]

end

/-- **The list has the files that can be transferred.** For every tree and every
readable directory of it, however the path leads there: given as many levels as the
tree is deep, the recursion ends and returns the files that are reachable from the
directory, each once and under a name of its own, which joined to the path as the job
does it denotes that file. -/
theorem get_recursive_files_exact (t : FileTree) (cwd : Location) (includeHidden : Bool)
    {path : PathBuf} {dir : Location} {searchable : Bool} (hpath : t.locate cwd path = some dir)
    (hdir : t.node dir = some (.dir true searchable)) :
    ∃ found : List (List (List Char)),
      (∀ fuel, t.depth < fuel → getRecursiveFiles t cwd includeHidden fuel path =
        some (.ok (found.map (listedEntry t [] dir)))) ∧
      found.Nodup ∧ (∀ names, names ∈ found ↔ Reachable t includeHidden dir names) ∧
      (found.map fun names => (listedEntry t [] dir names).name).Nodup ∧
      ∀ names ∈ found, ∀ id files, ∃ content,
        t.locate cwd ((TransferJob.newRead id path files).join (listedEntry t [] dir names).name) =
            some (under dir names) ∧
          t.node (under dir names) = some (.file content) := by
  obtain ⟨⟨found, hfound, hnodup, hmem⟩, hok⟩ := readDirRecursive_finds includeHidden
    (t.depth + 1) [] hpath hdir (by omega)
  obtain ⟨files, hfiles⟩ := hok rfl
  rw [hfiles] at hfound
  obtain rfl := Option.some.inj hfound
  have hmore : ∀ fuel, t.depth < fuel → getRecursiveFiles t cwd includeHidden fuel path =
      some (.ok (found.map (listedEntry t [] dir))) := by
    intro fuel hfuel
    exact Extends.of_le (fun fuel => readDirRecursive_extends t cwd includeHidden fuel path [])
      hfuel _ hfiles
  refine ⟨found, hmore, hnodup, hmem, ?_, ?_⟩
  · refine hnodup.map_on fun names hin names' hin' heq => ?_
    exact PathBuf.ofNames_inj ((hmem names).mp hin).plain ((hmem names').mp hin').plain heq
  · intro names hin id jobFiles
    have hreach := (hmem names).mp hin
    obtain ⟨-, content, hcontent⟩ := hreach.walk 0
    refine ⟨content, ?_, hcontent⟩
    have hne : (listedEntry t [] dir names).name ≠ [] :=
      (PathBuf.ofNames_spec hreach.plain hreach.ne_nil).1
    rw [TransferJob.join, if_neg hne]
    exact hreach.locate hpath

/-- The directory `/d` with a file `a`, a directory `s` with a file `b`, a hidden file, a
link back to `/d` and a file whose name is not UTF-8. -/
def sampleTree : FileTree :=
  let d : Location := [.text ['d']]
  let s : Location := [.text ['d'], .text ['s']]
  FileTree.empty
    |>.insert [] (.text ['d']) (.dir true true) 0
    |>.insert d (.text ['a']) (.file [1, 2]) 5
    |>.insert d (.text ['s']) (.dir true true) 0
    |>.insert d (.text ['.', 'h']) (.file []) 0
    |>.insert d (.text ['l']) (.link true [.down (.text ['d'])]) 0
    |>.insert d (.bytes [255]) (.file []) 0
    |>.insert s (.text ['b']) (.file [3]) (-1)

theorem get_recursive_files_exact_sample :
    sampleTree.locate [] "/d".toList = some [.text ['d']] ∧
      sampleTree.node [.text ['d']] = some (.dir true true) ∧
      ∃ found : List (List (List Char)), (∀ fuel, sampleTree.depth < fuel →
          getRecursiveFiles sampleTree [] false fuel "/d".toList =
            some (.ok (found.map (listedEntry sampleTree [] [.text ['d']])))) ∧
        ∀ names, names ∈ found ↔ Reachable sampleTree false [.text ['d']] names := by
  have hpath : sampleTree.locate [] "/d".toList = some [.text ['d']] := by decide
  have hdir : sampleTree.node [.text ['d']] = some (.dir true true) := by decide
  obtain ⟨found, hfound, -, hmem, -⟩ := get_recursive_files_exact sampleTree [] false hpath hdir
  exact ⟨hpath, hdir, found, hfound, hmem⟩

/-- The two visible files are listed, and what the link leads to is not. -/
example : getRecursiveFiles sampleTree [] false 3 "/d".toList =
    some (.ok [⟨⟨"a".toList, 2, 5⟩, .file, false⟩, ⟨⟨"s/b".toList, 1, 0⟩, .file, false⟩]) := by
  rfl

end RustdeskServer.Transfer
