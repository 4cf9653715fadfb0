import RustdeskServer.Transfer.EmptyDirs

/-!
# Listing a directory that was cleaned

`remove_all_empty_dir` takes away what `get_recursive_files` passes over: links and
directories without a file. So a listing gives the same files before and after, with
the same sizes and times, and a second call has nothing to do. `Lighter` is what every
removal keeps, whatever path it is called with; where the recursion may remove something
is `Pruned`, and a listing needs both.
-/

namespace RustdeskServer.Transfer

open RustdeskServer.Framework FileTree

section

variable {t t' t'' : FileTree} {cwd dir loc : Location} {path : PathBuf} {name : FileName}
  {includeHidden : Bool}

/-! ## What every call keeps -/

theorem lighter_foldlM {α : Type} {f : FileTree → α → Option FileTree}
    (hf : ∀ t a t', f t a = some t' → Lighter t t') {as : List α}
    (h : as.foldlM f t = some t') : Lighter t t' := by
  induction as generalizing t with
  | nil =>
      obtain rfl := Option.some.inj h
      exact .refl t
  | cons a as ih =>
      rw [List.foldlM_cons] at h
      obtain ⟨t₁, hfirst, hrest⟩ := Option.bind_eq_some_iff.mp h
      exact (hf t a t₁ hfirst).trans (ih hrest)

theorem lighter_emptyEntry {recurse : PathBuf → FileTree → Option FileTree}
    (hrec : ∀ p t t', recurse p t = some t' → Lighter t t') (now : Int) (entry : DirEntry)
    (h : emptyEntry recurse cwd path now t entry = some t') : Lighter t t' := by
  unfold emptyEntry at h
  split at h
  · exact hrec _ _ _ h
  · obtain rfl := Option.some.inj h
    exact lighter_unlink t cwd _ now
  · obtain rfl := Option.some.inj h
    exact lighter_unlink t cwd _ now
  · obtain rfl := Option.some.inj h
    exact .refl t

/-- **Whatever the path**, the call only removes. -/
theorem removeAllEmptyDir_lighter (now : Int) {fuel : ℕ} {result : Except TransferError Unit}
    (h : removeAllEmptyDir cwd now fuel path t = some (result, t')) : Lighter t t' := by
  induction fuel generalizing path t result t' with
  | zero => cases h
  | succ fuel ih =>
      unfold removeAllEmptyDir at h
      cases hread : readDir t cwd true path with
      | error err =>
          rw [hread] at h
          cases h
          exact .refl t
      | ok entries =>
          rw [hread] at h
          obtain ⟨t₁, hloop, hend⟩ := Option.map_eq_some_iff.mp h
          cases hend
          have hlighter : Lighter t t₁ := by
            apply lighter_foldlM _ hloop
            intro t entry t₂ hentry
            apply lighter_emptyEntry _ now entry hentry
            intro p t t₃ hcall
            obtain ⟨⟨result, t₄⟩, hresult, rfl⟩ := Option.map_eq_some_iff.mp hcall
            exact ih hresult
          exact hlighter.trans (lighter_rmdir t₁ cwd path now)

theorem removeAllEmptyDir_any (now : Int) (hsteady : Steady t cwd path dir name)
    (hopen : Open t (dir ++ [name])) {readable searchable : Bool}
    (hroot : t.node (dir ++ [name]) = some (.dir readable searchable)) :
    ∃ t', Pruned t [dir ++ [name]] t' ∧ ∀ fuel, t.depth < fuel →
      removeAllEmptyDir cwd now fuel path t = some (.ok (), t') := by
  have hdeep : t.depth < (dir ++ [name]).length + (t.depth + 1) := by omega
  obtain ⟨t', hresult, hpruned⟩ := removeAllEmptyDir_pruned now hdeep hsteady hopen t.bounded hroot
  refine ⟨t', hpruned, ?_⟩
  intro fuel hfuel
  exact Extends.of_le (fun fuel => removeAllEmptyDir_extends cwd now fuel path t) hfuel _ hresult

/-! ## What a listing finds -/

theorem Reachable.hasFile {names : List (List Char)} (h : Reachable t includeHidden dir names) :
    HasFile t dir := by
  obtain ⟨-, content, hfile⟩ := h.walk 0
  exact ⟨names.map .text, content, hfile⟩

theorem Reachable.of_part (hpart : t'.Part t) {names : List (List Char)}
    (h : Reachable t' includeHidden dir names) : Reachable t includeHidden dir names := by
  induction h with
  | file hdir hvisible hfile => exact .file (hpart _ _ hdir) hvisible (hpart _ _ hfile)
  | deeper hdir hvisible _ ih => exact .deeper (hpart _ _ hdir) hvisible ih

/-- Every directory on the way to a file stays. -/
theorem Reachable.pruned {tops : List Location} (hpruned : Pruned t tops t')
    {names : List (List Char)} (h : Reachable t includeHidden dir names) :
    Reachable t' includeHidden dir names := by
  have hkept : ∀ loc, HasFile t loc → t'.node loc = t.node loc :=
    fun loc hfile => hpruned.kept loc fun _ _ _ => hfile
  induction h with
  | file hdir hvisible hfile =>
      have hthere := (Reachable.file hdir hvisible hfile).hasFile
      apply Reachable.file _ hvisible
      · rw [hkept _ ⟨[], _, by rw [List.append_nil, hfile]⟩, hfile]
      · rw [hkept _ hthere, hdir]
  | deeper hdir hvisible hrest ih =>
      apply Reachable.deeper _ hvisible ih
      rw [hkept _ (Reachable.deeper hdir hvisible hrest).hasFile, hdir]

theorem listedEntry_kept (hlighter : Lighter t t') (pfx : PathBuf) {names : List (List Char)}
    (h : Reachable t' includeHidden dir names) :
    listedEntry t' pfx dir names = listedEntry t pfx dir names := by
  obtain ⟨-, content, hfile⟩ := h.walk 0
  simp [listedEntry, hfile, hlighter.part _ _ hfile, hlighter.modified _ _ hfile]

/-! ## The pruned directory -/

theorem Pruned.same_around {top : Location} (h : Pruned t [top] t') (hfile : HasFile t top) :
    SameAround t top t' := by
  intro loc hloc
  apply h.kept
  intro top' htop hbelow
  obtain rfl := List.mem_singleton.mp htop
  rcases hloc hbelow with rfl | hthere
  · exact hfile
  · exact hthere

theorem Pruned.around_trans {top : Location} (h : Pruned t [top] t') (hfile : HasFile t top)
    (h' : SameAround t' top t'') : SameAround t top t'' := by
  intro loc hloc
  rw [h' loc, h.same_around hfile loc hloc]
  intro hbelow
  simpa only [h.hasFile_iff] using hloc hbelow

/-- There is nothing left to prune. -/
theorem Pruned.again {top : Location} (h : Pruned t [top] t') (h' : Pruned t' [top] t'') :
    t''.node = t'.node := by
  ext1 loc
  by_cases hall : ∀ top' ∈ [top], top' <+: loc → HasFile t' loc
  · exact h'.kept loc hall
  · push Not at hall
    obtain ⟨top', htop, hbelow, hno⟩ := hall
    rw [h'.gone top' htop loc hbelow hno, h.gone top' htop loc hbelow]
    rwa [← h.hasFile_iff]

/-- A path that led to what was removed leads nowhere. -/
theorem gone_of_locate {cwd : Location} (hlighter : Lighter t t') {top : Location}
    (hlocate : t.locate cwd path = some top) (hgone : t'.node top = none) :
    t'.metadata cwd path = none ∧ t'.readNames cwd path = none := by
  cases hloc : t'.locate cwd path with
  | none => simp [metadata, readNames, hloc]
  | some loc =>
      obtain rfl : loc = top := by
        rw [hlighter.part.locate hloc] at hlocate
        exact Option.some.inj hlocate
      simp [metadata, readNames, stat, hloc, hgone]

/-- Only the order of the names may be another one. -/
theorem files_perm (hlighter : Lighter t t') {tops : List Location} (hpruned : Pruned t tops t')
    {found found' : List (List (List Char))} (hnodup : found.Nodup) (hnodup' : found'.Nodup)
    (hmem : ∀ names, names ∈ found ↔ Reachable t includeHidden dir names)
    (hmem' : ∀ names, names ∈ found' ↔ Reachable t' includeHidden dir names) (pfx : PathBuf) :
    (found'.map (listedEntry t' pfx dir)).Perm (found.map (listedEntry t pfx dir)) := by
  have hsame : found'.map (listedEntry t' pfx dir) = found'.map (listedEntry t pfx dir) := by
    apply List.map_congr_left
    intro names hnames
    exact listedEntry_kept hlighter pfx ((hmem' names).mp hnames)
  rw [hsame]
  apply List.Perm.map
  apply (List.perm_ext_iff_of_nodup hnodup' hnodup).mpr
  intro names
  rw [hmem, hmem']
  exact ⟨.of_part hlighter.part, .pruned hpruned⟩

end

/-- **Cleaning a directory and listing it.** For every tree and every directory of it whose
path ends in its name and does not lead through what is removed: if there is a regular
file below it, a listing after `remove_all_empty_dir` has the entries that one before has,
up to their order, and further calls change nothing. If there is none, the listing was
empty, and afterwards every call with the path is an error and changes nothing. -/
theorem cleaning_keeps_listing (t : FileTree) (cwd : Location) (now : Int) (includeHidden : Bool)
    {path : PathBuf} {dir : Location} {name : FileName} (hsteady : Steady t cwd path dir name)
    (hopen : Open t (dir ++ [name])) {readable searchable : Bool}
    (hroot : t.node (dir ++ [name]) = some (.dir readable searchable)) :
    ∃ t', (∀ fuel, t.depth < fuel →
        removeAllEmptyDir cwd now fuel path t = some (.ok (), t')) ∧
      (HasFile t (dir ++ [name]) →
        (∃ files files', files'.Perm files ∧ ∀ fuel, t.depth < fuel →
          getRecursiveFiles t cwd includeHidden fuel path = some (.ok files) ∧
            getRecursiveFiles t' cwd includeHidden fuel path = some (.ok files')) ∧
        ∀ later, ∃ t'', t''.node = t'.node ∧ ∀ fuel, t.depth < fuel →
          removeAllEmptyDir cwd later fuel path t' = some (.ok (), t'')) ∧
      (¬ HasFile t (dir ++ [name]) → ∀ fuel, t.depth < fuel →
        getRecursiveFiles t cwd includeHidden fuel path = some (.ok []) ∧
          getRecursiveFiles t' cwd includeHidden fuel path =
            some (.error (.bail "Not exists")) ∧
          ∀ later, removeAllEmptyDir cwd later fuel path t' = some (.error .io, t')) := by
  obtain ⟨rfl, rfl⟩ := hopen.modes _ _ _ List.prefix_rfl hroot
  have hlocate : t.locate cwd path = some (dir ++ [name]) := hsteady.locate (.refl t _) hroot
  obtain ⟨found, hnodup, hmem, hfiles⟩ := getRecursiveFiles_found includeHidden hlocate hroot
  obtain ⟨t', hpruned, hcall⟩ := removeAllEmptyDir_any now hsteady hopen hroot
  have hlighter : Lighter t t' := removeAllEmptyDir_lighter now (hcall _ (Nat.lt_succ_self _))
  refine ⟨t', hcall, ?_, ?_⟩
  · intro hfile
    have haround : SameAround t (dir ++ [name]) t' := hpruned.same_around hfile
    have hroot' : t'.node (dir ++ [name]) = some (.dir true true) := haround.top_eq.trans hroot
    obtain ⟨found', hnodup', hmem', hfiles'⟩ :=
      getRecursiveFiles_found includeHidden (hsteady.locate haround hroot) hroot'
    rw [hlighter.depth] at hfiles'
    refine ⟨⟨_, _, files_perm hlighter hpruned hnodup hnodup' hmem hmem' [],
      fun fuel hfuel => ⟨hfiles fuel hfuel, hfiles' fuel hfuel⟩⟩, ?_⟩
    intro later
    have hsteady' : Steady t' cwd path dir name :=
      fun t'' h => hsteady t'' (hpruned.around_trans hfile h)
    obtain ⟨t'', hpruned', hcall'⟩ :=
      removeAllEmptyDir_any later hsteady' (hpruned.open hopen) hroot'
    rw [hlighter.depth] at hcall'
    exact ⟨t'', hpruned.again hpruned', hcall'⟩
  · intro hno fuel hfuel
    have hgone : t'.node (dir ++ [name]) = none :=
      hpruned.gone _ (List.mem_singleton_self _) _ List.prefix_rfl hno
    obtain ⟨hmetadata, hnames⟩ := gone_of_locate hlighter hlocate hgone
    obtain ⟨fuel, rfl⟩ := Nat.exists_eq_succ_of_ne_zero (Nat.ne_zero_of_lt hfuel)
    refine ⟨?_, ?_, ?_⟩
    · have hfound : found = [] := by
        apply List.eq_nil_iff_forall_not_mem.mpr
        intro names hnames
        exact hno ((hmem names).mp hnames).hasFile
      rw [hfiles _ hfuel, hfound, List.map_nil]
    · simp [getRecursiveFiles, readDirRecursive, isDir, isFile, hmetadata]
    · intro later
      rw [removeAllEmptyDir, readDir, hnames]

/-- `linkTree` with a file beside its link and its empty directory. -/
def keptTree : FileTree := linkTree.insert [.text ['d']] (.text ['a']) (.file [1]) 5

theorem cleaning_keeps_listing_kept :
    HasFile keptTree [.text ['d']] ∧ ∃ t', (∀ fuel, keptTree.depth < fuel →
        removeAllEmptyDir [] 0 fuel "/d".toList keptTree = some (.ok (), t')) ∧
      (∃ files files', files'.Perm files ∧ ∀ fuel, keptTree.depth < fuel →
        getRecursiveFiles keptTree [] false fuel "/d".toList = some (.ok files) ∧
          getRecursiveFiles t' [] false fuel "/d".toList = some (.ok files')) ∧
      ∀ later, ∃ t'', t''.node = t'.node ∧ ∀ fuel, keptTree.depth < fuel →
        removeAllEmptyDir [] later fuel "/d".toList t' = some (.ok (), t'') := by
  have hroot : keptTree.node [.text ['d']] = some (.dir true true) := by decide
  have hfile : HasFile keptTree [.text ['d']] := ⟨[.text ['a']], [1], by decide⟩
  have hsteady : Steady keptTree [] "/d".toList [] (.text ['d']) := by
    apply steady_absolute [] []
    · decide
    · intro front hfront
      rw [List.prefix_nil.mp hfront]
      exact ⟨true, by decide⟩
    · decide
  have hopen : Open keptTree [.text ['d']] := by
    apply (open_linkTree _).insert
    intro readable searchable hdir
    cases hdir
  obtain ⟨t', hcall, hkept, -⟩ := cleaning_keeps_listing keptTree [] 0 false hsteady hopen hroot
  obtain ⟨hlisting, hagain⟩ := hkept hfile
  exact ⟨hfile, t', hcall, hlisting, hagain⟩

end RustdeskServer.Transfer
