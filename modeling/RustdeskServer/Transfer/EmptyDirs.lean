import RustdeskServer.Transfer.Listing

/-!
# Removing empty directories (`remove_all_empty_dir`)

The recursion goes through a directory as it was listed at first, removes the links
in it, goes into its directories and at last asks for the directory itself to be
removed, which the system does if it is empty by then.

`Pruned` is what is left: everything that is not below certain locations, and below
them the files and the directories on the way to a file. `Steady` says that the path
does not lead through what is to be removed.
-/

namespace RustdeskServer.Transfer

open RustdeskServer.Framework

/-! ## The call -/

/-- What `remove_all_empty_dir` does with one entry, given the recursive call. -/
def emptyEntry (recurse : PathBuf → FileTree → Option FileTree) (cwd : Location) (path : PathBuf)
    (now : Int) (t : FileTree) (entry : DirEntry) : Option FileTree :=
  match entry.entryType with
  | .dir => recurse (path.join entry.name) t
  | .dirLink | .fileLink => some (t.unlink cwd (path.join entry.name) now)
  | _ => some t

/-- `remove_all_empty_dir`, which goes so many directories deep. -/
def removeAllEmptyDir (cwd : Location) (now : Int) :
    ℕ → PathBuf → FileTree → Option (Except TransferError Unit × FileTree)
  | 0, _, _ => none
  | fuel + 1, path, t =>
      match readDir t cwd true path with
      | .error err => some (.error err, t)
      | .ok entries =>
          (entries.foldlM (emptyEntry (fun path t =>
            (removeAllEmptyDir cwd now fuel path t).map Prod.snd) cwd path now) t).map
              fun t => (.ok (), t.rmdir cwd path now)

/-! ## What is left -/

/-- A regular file at the location or below it. -/
def HasFile (t : FileTree) (loc : Location) : Prop :=
  ∃ below content, t.node (loc ++ below) = some (.file content)

/-- Below these locations only files and what leads to them is left, and the rest is
as it was. -/
structure Pruned (t : FileTree) (tops : List Location) (t' : FileTree) : Prop where
  kept : ∀ loc, (∀ top ∈ tops, top <+: loc → HasFile t loc) → t'.node loc = t.node loc
  gone : ∀ top ∈ tops, ∀ loc, top <+: loc → ¬ HasFile t loc → t'.node loc = none

/-- The trees differ below the location at most, and there not in what has a file. -/
def SameAround (t : FileTree) (top : Location) (t' : FileTree) : Prop :=
  ∀ loc, (top <+: loc → loc = top ∨ HasFile t loc) → t'.node loc = t.node loc

/-- The path ends in the name of a directory's entry, and no link and no directory
without a file that is below that entry decides where it leads. -/
def Steady (t : FileTree) (cwd : Location) (path : PathBuf) (dir : Location)
    (name : FileName) : Prop :=
  ∀ t', SameAround t (dir ++ [name]) t' → t'.entryOf cwd path = some (dir, name)

/-- Below the location every directory may be read and searched, and every name is
text. -/
structure Open (t : FileTree) (top : Location) : Prop where
  modes : ∀ loc readable searchable, top <+: loc →
    t.node loc = some (.dir readable searchable) → readable = true ∧ searchable = true
  text : ∀ loc, top <+: loc → ∀ name ∈ t.names loc, ∃ text, name = .text text

variable {t t' t'' : FileTree} {tops tops' : List Location} {top loc : Location}

/-! ## Files and pruning -/

theorem HasFile.mono {below : Location} (h : HasFile t (loc ++ below)) : HasFile t loc := by
  obtain ⟨rest, content, hfile⟩ := h
  exact ⟨below ++ rest, content, by rw [← List.append_assoc, hfile]⟩

/-- What is below something is below a directory. -/
theorem isDir_of_below {name : FileName} {rest : Location}
    (h : t.node (loc ++ name :: rest) ≠ none) :
    ∃ readable searchable, t.node loc = some (.dir readable searchable) := by
  induction rest using List.reverseRecOn with
  | nil => exact t.parent loc name h
  | append_singleton rest last ih =>
      apply ih
      rw [← List.cons_append, ← List.append_assoc] at h
      obtain ⟨readable, searchable, hdir⟩ := t.parent _ _ h
      rw [hdir]
      exact Option.some_ne_none _

/-- Whatever is above something is there too. -/
theorem node_above_ne_none {rest : Location} (h : t.node (loc ++ rest) ≠ none) :
    t.node loc ≠ none := by
  cases rest with
  | nil => rwa [List.append_nil] at h
  | cons name rest =>
      obtain ⟨readable, searchable, hdir⟩ := isDir_of_below h
      rw [hdir]
      exact Option.some_ne_none _

theorem Pruned.kept_or_gone (h : Pruned t tops t') (loc : Location) :
    t'.node loc = t.node loc ∨ t'.node loc = none := by
  by_cases hall : ∀ top ∈ tops, top <+: loc → HasFile t loc
  · exact Or.inl (h.kept loc hall)
  · push Not at hall
    obtain ⟨top, htop, hbelow, hno⟩ := hall
    exact Or.inr (h.gone top htop loc hbelow hno)

theorem Pruned.node_eq (h : Pruned t tops t') (hnode : t'.node loc ≠ none) :
    t'.node loc = t.node loc := (h.kept_or_gone loc).resolve_right hnode

/-- Pruning loses no file. -/
theorem Pruned.hasFile_iff (h : Pruned t tops t') (loc : Location) :
    HasFile t' loc ↔ HasFile t loc := by
  constructor
  · rintro ⟨below, content, hfile⟩
    have hnode : t'.node (loc ++ below) ≠ none := by
      rw [hfile]
      exact Option.some_ne_none _
    exact ⟨below, content, (h.node_eq hnode).symm.trans hfile⟩
  · rintro ⟨below, content, hfile⟩
    refine ⟨below, content, ?_⟩
    rw [h.kept _ fun _ _ _ => ⟨[], content, by rw [List.append_nil, hfile]⟩, hfile]

theorem Pruned.refl (t : FileTree) : Pruned t [] t where
  kept _ _ := rfl
  gone _ h := by cases h

theorem Pruned.trans (h : Pruned t tops t') (h' : Pruned t' tops' t'') :
    Pruned t (tops ++ tops') t'' where
  kept loc hall := by
    rw [h'.kept loc, h.kept loc]
    · exact fun top htop => hall top (List.mem_append_left _ htop)
    · exact fun top htop hbelow =>
        (h.hasFile_iff loc).mpr (hall top (List.mem_append_right _ htop) hbelow)
  gone top htop loc hbelow hno := by
    rcases List.mem_append.mp htop with htop | htop
    · have hnone := h.gone top htop loc hbelow hno
      rcases h'.kept_or_gone loc with hsame | hgone
      · rw [hsame, hnone]
      · exact hgone
    · exact h'.gone top htop loc hbelow (mt (h.hasFile_iff loc).mp hno)

theorem Pruned.open (h : Pruned t tops t') (hopen : Open t top) : Open t' top where
  modes loc readable searchable hbelow hdir := by
    have hnode : t'.node loc ≠ none := by
      rw [hdir]
      exact Option.some_ne_none _
    exact hopen.modes loc readable searchable hbelow ((h.node_eq hnode).symm.trans hdir)
  text loc hbelow name hname := by
    refine hopen.text loc hbelow name ((t.mem_names loc name).mpr ?_)
    have hnode := (t'.mem_names loc name).mp hname
    rw [← h.node_eq hnode]
    exact hnode

/-- A location with a file or a link at it: nothing is below it. -/
theorem node_below_leaf {node : Node} (hnode : t.node top = some node) (hleaf : node.isDir = false)
    (hbelow : top <+: loc) (hne : loc ≠ top) : t.node loc = none := by
  obtain ⟨rest, rfl⟩ := hbelow
  cases rest with
  | nil => exact absurd (List.append_nil _) hne
  | cons name rest =>
      by_contra hsome
      obtain ⟨readable, searchable, hdir⟩ := isDir_of_below hsome
      rw [hnode] at hdir
      cases hdir
      cases hleaf

/-! ## One entry -/

theorem pruned_file {content : List UInt8} (hnode : t.node top = some (.file content)) :
    Pruned t [top] t where
  kept _ _ := rfl
  gone top' htop loc hbelow hno := by
    obtain rfl := List.mem_singleton.mp htop
    by_cases hloc : loc = top'
    · rw [hloc] at hno
      exact absurd ⟨[], content, by rw [List.append_nil, hnode]⟩ hno
    · exact node_below_leaf hnode rfl hbelow hloc

theorem pruned_remove {dir : Location} {name : FileName} (hnames : t.names (dir ++ [name]) = [])
    (hno : ¬ HasFile t (dir ++ [name])) (now : Int) :
    Pruned t [dir ++ [name]] (t.remove dir name now) where
  kept loc hall := by
    have hne : loc ≠ dir ++ [name] := by
      rintro rfl
      exact hno (hall _ (List.mem_singleton_self _) List.prefix_rfl)
    rw [FileTree.node_remove hnames, Function.update_of_ne hne]
  gone top htop loc hbelow _ := by
    obtain rfl := List.mem_singleton.mp htop
    rw [FileTree.node_remove hnames]
    by_cases hloc : loc = dir ++ [name]
    · rw [hloc, Function.update_self]
    · rw [Function.update_of_ne hloc]
      by_contra hsome
      obtain ⟨rest, rfl⟩ := hbelow
      cases rest with
      | nil => exact hloc (List.append_nil _)
      | cons below rest =>
          rw [List.append_cons _ below] at hsome
          have hmem := (t.mem_names _ below).mpr (node_above_ne_none hsome)
          rw [hnames] at hmem
          cases hmem

theorem not_hasFile_link {absolute : Bool} {target : List Hop}
    (hnode : t.node top = some (.link absolute target)) : ¬ HasFile t top := by
  rintro ⟨below, content, hfile⟩
  by_cases hne : below = []
  · rw [hne, List.append_nil, hnode] at hfile
    cases hfile
  · rw [node_below_leaf hnode rfl (List.prefix_append _ _) (by simpa using hne)] at hfile
    cases hfile

section
variable {cwd : Location} {path : PathBuf} {dir : Location} {name : FileName}
  {recurse : PathBuf → FileTree → Option FileTree}

theorem SameAround.refl (t : FileTree) (top : Location) : SameAround t top t := fun _ _ => rfl

theorem SameAround.top_eq (h : SameAround t top t') : t'.node top = t.node top :=
  h top fun _ => Or.inl rfl

theorem SameAround.hasFile (h : SameAround t top t') (hfile : HasFile t loc) :
    HasFile t' loc := by
  obtain ⟨below, content, hnode⟩ := hfile
  refine ⟨below, content, (h _ fun _ => Or.inr ⟨[], content, ?_⟩).trans hnode⟩
  rw [List.append_nil, hnode]

/-- A location is not below an entry of it. -/
theorem not_below_child (top : Location) (n : FileName) : ¬ top ++ [n] <+: top := by
  intro hbelow
  have hlength := hbelow.length_le
  simp at hlength

/-- What is the same around an entry of the directory is the same around the directory. -/
theorem SameAround.trans_child {n : FileName} (h : SameAround t top t')
    (h' : SameAround t' (top ++ [n]) t'') : SameAround t top t'' := by
  intro loc hloc
  rw [h' loc, h loc hloc]
  intro hbelow
  rcases hloc ((List.prefix_append _ _).trans hbelow) with rfl | hfile
  · exact absurd hbelow (not_below_child loc n)
  · exact Or.inr (h.hasFile hfile)

theorem Steady.locate (h : Steady t cwd path dir name)
    (haround : SameAround t (dir ++ [name]) t') {readable searchable : Bool}
    (hroot : t.node (dir ++ [name]) = some (.dir readable searchable)) :
    t'.locate cwd path = some (dir ++ [name]) := by
  have hnode : t'.node (dir ++ [name]) = some (.dir readable searchable) :=
    haround.top_eq.trans hroot
  exact FileTree.locate_of_entryOf (h t' haround) hnode

/-- The path of a directory in the directory is as steady. -/
theorem Steady.join (h : Steady t cwd path dir name) (haround : SameAround t (dir ++ [name]) t')
    (hroot : t.node (dir ++ [name]) = some (.dir true true)) {text : List Char}
    (hmem : .text text ∈ t.names (dir ++ [name])) (hsame : t'.node (dir ++ [name] ++ [.text text]) =
      t.node (dir ++ [name] ++ [.text text])) :
    Steady t' cwd (path.join text) (dir ++ [name]) (.text text) := by
  intro t'' haround'
  have habove : SameAround t (dir ++ [name]) t'' := haround.trans_child haround'
  have hnode : t''.node (dir ++ [name]) = some (.dir true true) := habove.top_eq.trans hroot
  have hmem' : .text text ∈ t''.names (dir ++ [name]) := by
    rw [FileTree.mem_names, haround'.top_eq, hsame]
    exact (t.mem_names _ _).mp hmem
  rw [FileTree.entryOf_join (h.locate habove hroot) (plain_of_mem hmem),
    FileTree.child_of hnode hmem']

/-- **What is done with one entry** prunes it. -/
theorem emptyEntry_pruned (now : Int) (hsteady : Steady t cwd path dir name)
    (hroot : t.node (dir ++ [name]) = some (.dir true true))
    (haround : SameAround t (dir ++ [name]) t') {text : List Char}
    (hmem : .text text ∈ t.names (dir ++ [name]))
    (hsame : t'.node (dir ++ [name] ++ [.text text]) = t.node (dir ++ [name] ++ [.text text]))
    (hrec : ∀ readable searchable,
      t.node (dir ++ [name] ++ [.text text]) = some (.dir readable searchable) →
        ∃ t'', recurse (path.join text) t' = some t'' ∧
          Pruned t' [dir ++ [name] ++ [.text text]] t'') :
    ∃ entry t'', readEntry t cwd true path (.text text) = some entry ∧
      emptyEntry recurse cwd path now t' entry = some t'' ∧
        Pruned t' [dir ++ [name] ++ [.text text]] t'' := by
  have hlocate := hsteady.locate (.refl t _) hroot
  obtain ⟨node, hnode⟩ := Option.ne_none_iff_exists'.mp ((t.mem_names _ _).mp hmem)
  have hvisible : (startsWithDot text && !true) = false := Bool.and_false _
  obtain ⟨entryType, size, hentry, htype⟩ := readEntry_of_node hlocate hroot hmem hnode hvisible
  rw [hnode] at hsame
  cases node with
  | file content =>
      obtain ⟨rfl, -⟩ := htype
      exact ⟨_, t', hentry, rfl, pruned_file hsame⟩
  | dir readable searchable =>
      obtain rfl := htype
      obtain ⟨t'', hresult, hpruned⟩ := hrec readable searchable hnode
      exact ⟨_, t'', hentry, hresult, hpruned⟩
  | link absolute target =>
      have hnode' : t'.node (dir ++ [name]) = some (.dir true true) :=
        haround.top_eq.trans hroot
      have hentryOf : t'.entryOf cwd (path.join text) = some (dir ++ [name], .text text) := by
        rw [FileTree.entryOf_join (hsteady.locate haround hroot) (plain_of_mem hmem)]
        exact FileTree.child_of hnode' (FileTree.mem_names_of_node hsame)
      have hunlink : t'.unlink cwd (path.join text) now =
          t'.remove (dir ++ [name]) (.text text) now := by
        rw [FileTree.unlink, hentryOf]
        dsimp only
        rw [if_neg]
        rintro (hslash | hdir)
        · exact PathBuf.join_getLast (plain_of_mem hmem) hslash
        · rw [hsame] at hdir
          cases hdir
      refine ⟨_, t'.remove (dir ++ [name]) (.text text) now, hentry, ?_, ?_⟩
      · rcases htype with rfl | rfl <;> exact congrArg some hunlink
      · have hnames : t'.names (dir ++ [name] ++ [.text text]) = [] :=
          FileTree.names_eq_nil (by rw [hsame]; rfl)
        exact pruned_remove hnames (not_hasFile_link hsame) now

/-! ## The loop and the recursion -/

/-- The locations of these names in a directory. -/
def children (top : Location) (names : List FileName) : List Location :=
  names.map fun name => top ++ [name]

theorem prefix_of_children {names : List FileName} {below : Location}
    (h : below ∈ children top names) (hloc : below <+: loc) : top <+: loc := by
  obtain ⟨n, -, rfl⟩ := List.mem_map.mp h
  exact (List.prefix_append _ _).trans hloc

theorem child_prefix_inj {n n' : FileName} (h : top ++ [n] <+: loc) (h' : top ++ [n'] <+: loc) :
    n = n' := by
  obtain ⟨rest, rfl⟩ := h
  obtain ⟨rest', heq⟩ := h'
  rw [List.append_assoc, List.append_assoc, List.append_cancel_left_eq] at heq
  exact (List.cons.inj heq).1.symm

/-- Around a directory of which entries were pruned nothing has changed. -/
theorem Pruned.around {names : List FileName} (h : Pruned t (children top names) t') :
    SameAround t top t' := by
  intro loc hloc
  refine h.kept loc fun below hbelow hprefix => ?_
  obtain ⟨n, -, rfl⟩ := List.mem_map.mp hbelow
  rcases hloc ((List.prefix_append _ _).trans hprefix) with rfl | hfile
  · exact absurd hprefix (not_below_child loc n)
  · exact hfile

/-- Nor has it behind the other entries. -/
theorem Pruned.others {names : List FileName} (h : Pruned t (children top names) t')
    {n : FileName} (hn : n ∉ names) (hloc : top ++ [n] <+: loc) : t'.node loc = t.node loc := by
  refine h.kept loc fun below hbelow hprefix => ?_
  obtain ⟨n', hn', rfl⟩ := List.mem_map.mp hbelow
  exact absurd (child_prefix_inj hprefix hloc ▸ hn') hn

theorem Open.child {n : FileName} (h : Open t top) : Open t (top ++ [n]) where
  modes loc readable searchable hbelow :=
    h.modes loc readable searchable ((List.prefix_append _ _).trans hbelow)
  text loc hbelow := h.text loc ((List.prefix_append _ _).trans hbelow)

/-- What the recursive call is to do with a directory. -/
def Prunes (cwd : Location) (recurse : PathBuf → FileTree → Option FileTree) (depth : ℕ)
    (path : PathBuf) (dir : Location) (name : FileName) : Prop :=
  ∀ t, Steady t cwd path dir name → Open t (dir ++ [name]) →
    (∀ loc, t.node loc ≠ none → loc.length ≤ depth) →
      (∃ readable searchable, t.node (dir ++ [name]) = some (.dir readable searchable)) →
        ∃ t', recurse path t = some t' ∧ Pruned t [dir ++ [name]] t'

/-- The loop over the names that were listed at first, of which some are done. -/
theorem loop_pruned (hsteady : Steady t cwd path dir name)
    (hroot : t.node (dir ++ [name]) = some (.dir true true)) (hopen : Open t (dir ++ [name]))
    {depth : ℕ} (hdepth : ∀ loc, t.node loc ≠ none → loc.length ≤ depth)
    (hrec : ∀ text, Prunes cwd recurse depth (path.join text) (dir ++ [name]) (.text text))
    (now : Int) (done rest : List FileName) (hsub : ∀ n ∈ rest, n ∈ t.names (dir ++ [name]))
    (hnodup : (done ++ rest).Nodup) (hdone : Pruned t (children (dir ++ [name]) done) t') :
    ∃ t'', (rest.filterMap (readEntry t cwd true path)).foldlM
        (emptyEntry recurse cwd path now) t' = some t'' ∧
      Pruned t (children (dir ++ [name]) (done ++ rest)) t'' := by
  induction rest generalizing done t' with
  | nil => exact ⟨t', rfl, by rw [List.append_nil]; exact hdone⟩
  | cons first rest ih =>
      have hfirst := hsub first List.mem_cons_self
      obtain ⟨text, rfl⟩ := hopen.text _ List.prefix_rfl first hfirst
      have hnew : .text text ∉ done := fun hin =>
        List.disjoint_of_nodup_append hnodup hin List.mem_cons_self
      have hsame := hdone.others hnew List.prefix_rfl
      have hless : ∀ loc, t'.node loc ≠ none → loc.length ≤ depth := fun loc hsome =>
        hdepth loc (hdone.node_eq hsome ▸ hsome)
      obtain ⟨entry, t₁, hentry, hresult, hpruned⟩ := emptyEntry_pruned now hsteady hroot
        hdone.around hfirst hsame fun readable searchable hnode =>
          hrec text t' (hsteady.join hdone.around hroot hfirst hsame) (hdone.open hopen).child hless
            ⟨readable, searchable, hsame.trans hnode⟩
      have hnext : Pruned t (children (dir ++ [name]) (done ++ [.text text])) t₁ := by
        rw [children, List.map_append]
        exact hdone.trans hpruned
      rw [List.append_cons done] at hnodup ⊢
      obtain ⟨t'', hloop, hall⟩ :=
        ih (done ++ [.text text]) (fun n hn => hsub n (List.mem_cons_of_mem _ hn)) hnodup hnext
      refine ⟨t'', ?_, hall⟩
      rw [List.filterMap_cons_some hentry, List.foldlM_cons, hresult]
      exact hloop

/-- A directory has a file if one of its entries has. -/
theorem hasFile_iff_child {readable searchable : Bool}
    (hnode : t.node top = some (.dir readable searchable)) :
    HasFile t top ↔ ∃ n ∈ t.names top, HasFile t (top ++ [n]) := by
  constructor
  · rintro ⟨below, content, hfile⟩
    cases below with
    | nil =>
        rw [List.append_nil, hnode] at hfile
        cases hfile
    | cons n below =>
        rw [List.append_cons] at hfile
        have hsome : t.node (top ++ [n] ++ below) ≠ none := by
          rw [hfile]
          exact Option.some_ne_none _
        exact ⟨n, (t.mem_names top n).mpr (node_above_ne_none hsome), below, content, hfile⟩
  · rintro ⟨n, -, hfile⟩
    exact hfile.mono

/-- **The directory itself**, once its entries are pruned: it is empty by then if it has
no file, and is removed. -/
theorem rmdir_pruned (hsteady : Steady t cwd path dir name)
    (hroot : t.node (dir ++ [name]) = some (.dir true true))
    (h : Pruned t (children (dir ++ [name]) (t.names (dir ++ [name]))) t') (now : Int) :
    Pruned t [dir ++ [name]] (t'.rmdir cwd path now) := by
  have hnode : t'.node (dir ++ [name]) = some (.dir true true) := h.around.top_eq.trans hroot
  have hrmdir : t'.rmdir cwd path now = t'.remove dir name now := by
    rw [FileTree.rmdir, hsteady t' h.around]
    dsimp only
    rw [hnode]
    exact if_pos rfl
  rw [hrmdir]
  by_cases hfile : HasFile t (dir ++ [name])
  · -- what leads to a file is still in the directory
    have hnames : t'.names (dir ++ [name]) ≠ [] := by
      obtain ⟨n, -, hchild⟩ := (hasFile_iff_child hroot).mp hfile
      obtain ⟨n', hn', -⟩ := (hasFile_iff_child hnode).mp
        (((h.hasFile_iff (dir ++ [name] ++ [n])).mpr hchild).mono)
      exact List.ne_nil_of_mem hn'
    rw [FileTree.remove_of_names hnames]
    constructor
    · intro loc hall
      refine h.kept loc fun below hbelow hprefix => ?_
      exact hall _ (List.mem_singleton_self _) (prefix_of_children hbelow hprefix)
    · intro top htop loc hbelow hno
      obtain rfl := List.mem_singleton.mp htop
      obtain ⟨below, rfl⟩ := hbelow
      cases below with
      | nil =>
          rw [List.append_nil] at hno
          exact absurd hfile hno
      | cons n below =>
          rw [List.append_cons] at hno ⊢
          by_cases hn : n ∈ t.names (dir ++ [name])
          · exact h.gone _ (List.mem_map_of_mem hn) _ (List.prefix_append _ _) hno
          · -- there was nothing of that name
            have hnone : t.node (dir ++ [name] ++ [n] ++ below) = none := by
              by_contra hsome
              exact hn ((t.mem_names _ n).mpr (node_above_ne_none hsome))
            exact (h.kept_or_gone _).elim (fun hsame => hsame.trans hnone) id
  · have hnames : t'.names (dir ++ [name]) = [] := by
      refine List.eq_nil_iff_forall_not_mem.mpr fun n hn => ?_
      have hsome := (t'.mem_names _ n).mp hn
      have hmem : n ∈ t.names (dir ++ [name]) :=
        (t.mem_names _ n).mpr (h.node_eq hsome ▸ hsome)
      exact hsome (h.gone _ (List.mem_map_of_mem hmem) _ List.prefix_rfl
        fun hchild => hfile hchild.mono)
    have hall := h.trans (pruned_remove hnames (mt (h.hasFile_iff _).mp hfile) now)
    constructor
    · intro loc hkept
      refine hall.kept loc fun below hbelow hprefix => ?_
      rcases List.mem_append.mp hbelow with hbelow | hbelow
      · exact hkept _ (List.mem_singleton_self _) (prefix_of_children hbelow hprefix)
      · exact hkept below hbelow hprefix
    · intro top htop loc hbelow hno
      exact hall.gone top (List.mem_append_right _ htop) loc hbelow hno

/-- **The recursion prunes the directory**, given as many levels as the tree is deep. -/
theorem removeAllEmptyDir_pruned (now : Int) {depth fuel : ℕ}
    (hfuel : depth < (dir ++ [name]).length + fuel) (hsteady : Steady t cwd path dir name)
    (hopen : Open t (dir ++ [name])) (hdepth : ∀ loc, t.node loc ≠ none → loc.length ≤ depth)
    {readable searchable : Bool}
    (hroot : t.node (dir ++ [name]) = some (.dir readable searchable)) :
    ∃ t', removeAllEmptyDir cwd now fuel path t = some (.ok (), t') ∧
      Pruned t [dir ++ [name]] t' := by
  induction fuel generalizing path dir name t readable searchable with
  | zero =>
      have hthere := hdepth (dir ++ [name]) (by rw [hroot]; exact Option.some_ne_none _)
      omega
  | succ fuel ih =>
      obtain ⟨rfl, rfl⟩ := hopen.modes _ _ _ List.prefix_rfl hroot
      have hrec : ∀ text, Prunes cwd
          (fun path t => (removeAllEmptyDir cwd now fuel path t).map Prod.snd) depth
          (path.join text) (dir ++ [name]) (.text text) := by
        intro text t' hsteady' hopen' hdepth' ⟨_, _, hdir⟩
        have hfuel' : depth < (dir ++ [name] ++ [FileName.text text]).length + fuel := by
          rw [List.length_append, List.length_singleton]
          omega
        obtain ⟨t'', hresult, hpruned⟩ := ih hfuel' hsteady' hopen' hdepth' hdir
        exact ⟨t'', congrArg (Option.map Prod.snd) hresult, hpruned⟩
      obtain ⟨t', hloop, hpruned⟩ := loop_pruned hsteady hroot hopen hdepth hrec now [] (t.names _)
        (fun _ hn => hn) (t.nodup _) (Pruned.refl t)
      have hlocate := hsteady.locate (.refl t _) hroot
      refine ⟨t'.rmdir cwd path now, ?_, rmdir_pruned hsteady hroot hpruned now⟩
      rw [removeAllEmptyDir, readDir, readNames_of_locate hlocate hroot, if_pos rfl]
      dsimp only
      rw [hloop, Option.map_some]

/-! ## More fuel -/

theorem emptyEntry_extends {recurse' : PathBuf → FileTree → Option FileTree}
    (h : ∀ p t, Extends (recurse p t) (recurse' p t)) (cwd : Location) (path : PathBuf) (now : Int)
    (t : FileTree) (entry : DirEntry) :
    Extends (emptyEntry recurse cwd path now t entry)
      (emptyEntry recurse' cwd path now t entry) := by
  unfold emptyEntry
  split
  · exact h _ _
  · exact .refl _
  · exact .refl _
  · exact .refl _

/-- One more level leaves the same tree. -/
theorem removeAllEmptyDir_extends (cwd : Location) (now : Int) (fuel : ℕ) (path : PathBuf)
    (t : FileTree) :
    Extends (removeAllEmptyDir cwd now fuel path t)
      (removeAllEmptyDir cwd now (fuel + 1) path t) := by
  induction fuel generalizing path t with
  | zero => exact .of_none _
  | succ fuel ih =>
      unfold removeAllEmptyDir
      cases readDir t cwd true path with
      | error err => exact .refl _
      | ok entries =>
          apply Extends.map
          apply Extends.foldlM
          apply emptyEntry_extends
          intro p t
          exact (ih p t).map Prod.snd

end

/-- **Only links and directories without files are removed.** For every tree and every
directory of it whose path ends in its name and does not lead through what is removed:
the recursion ends, every regular file and everything outside the directory is left as
it was, every link in it is gone, and a directory is still there, itself included, if
and only if there is a regular file below it. -/
theorem remove_all_empty_dir_exact (t : FileTree) (cwd : Location) (now : Int) {path : PathBuf}
    {dir : Location} {name : FileName} (hsteady : Steady t cwd path dir name)
    (hopen : Open t (dir ++ [name])) {readable searchable : Bool}
    (hroot : t.node (dir ++ [name]) = some (.dir readable searchable)) :
    ∃ t', (∀ fuel, t.depth < fuel →
        removeAllEmptyDir cwd now fuel path t = some (.ok (), t')) ∧
      (∀ loc content, t.node loc = some (.file content) → t'.node loc = t.node loc) ∧
      (∀ loc, ¬ dir ++ [name] <+: loc → t'.node loc = t.node loc) ∧
      (∀ loc absolute target, dir ++ [name] <+: loc →
        t.node loc = some (.link absolute target) → t'.node loc = none) ∧
      ∀ loc readable searchable, dir ++ [name] <+: loc →
        t.node loc = some (.dir readable searchable) →
          t'.node loc = t.node loc ∧ HasFile t loc ∨ t'.node loc = none ∧ ¬ HasFile t loc := by
  have hdeep : t.depth < (dir ++ [name]).length + (t.depth + 1) := by omega
  obtain ⟨t', hresult, hpruned⟩ := removeAllEmptyDir_pruned now hdeep hsteady hopen t.bounded hroot
  have hmore : ∀ fuel, t.depth < fuel →
      removeAllEmptyDir cwd now fuel path t = some (.ok (), t') := by
    intro fuel hfuel
    exact Extends.of_le (fun fuel => removeAllEmptyDir_extends cwd now fuel path t) hfuel _ hresult
  refine ⟨t', hmore, ?_, ?_, ?_, ?_⟩
  · intro loc content hfile
    exact hpruned.kept loc fun _ _ _ => ⟨[], content, by rw [List.append_nil, hfile]⟩
  · intro loc houtside
    refine hpruned.kept loc fun top htop hbelow => ?_
    obtain rfl := List.mem_singleton.mp htop
    exact absurd hbelow houtside
  · intro loc absolute target hbelow hlink
    exact hpruned.gone _ (List.mem_singleton_self _) loc hbelow (not_hasFile_link hlink)
  · intro loc _ _ hbelow _
    by_cases hfile : HasFile t loc
    · exact Or.inl ⟨hpruned.kept loc fun _ _ _ => hfile, hfile⟩
    · exact Or.inr ⟨hpruned.gone _ (List.mem_singleton_self _) loc hbelow hfile, hfile⟩

/-! ## Steady paths -/

/-- **Every absolute path of names**, through searchable directories and no link, is
steady. -/
theorem steady_absolute (cwd : Location) (names : List (List Char)) {text : List Char}
    (hplain : ∀ name ∈ names ++ [text], PathBuf.Plain name)
    (hdirs : ∀ front, front <+: names → ∃ readable,
      t.node (front.map .text) = some (.dir readable true))
    (hnode : t.node (names.map .text ++ [.text text]) ≠ none) :
    Steady t cwd ('/' :: PathBuf.ofNames (names ++ [text])) (names.map .text) (.text text) := by
  intro t' haround
  have hdirs' : ∀ front, front <+: names → ∃ readable,
      t'.node (front.map .text) = some (.dir readable true) := by
    intro front hprefix
    rw [haround]
    · exact hdirs front hprefix
    · -- the directories on the way are above the one that is called for
      intro hbelow
      have hlength := hbelow.length_le.trans (Nat.le_of_eq (List.length_map _))
      have hshort := hprefix.length_le
      simp at hlength
      omega
  obtain ⟨readable, hdir⟩ := hdirs' names List.prefix_rfl
  have hmem : .text text ∈ t'.names (names.map .text) := by
    rw [FileTree.mem_names, haround.top_eq]
    exact hnode
  have hhops : PathBuf.hops ('/' :: PathBuf.ofNames (names ++ [text])) =
      (names.map fun name => Hop.down (.text name)) ++ [.down (.text text)] := by
    rw [← List.map_singleton (f := fun name => Hop.down (.text name)), ← List.map_append,
      ← PathBuf.hops_ofNames hplain]
    exact PathBuf.hops_slash [] _
  rw [FileTree.entryOf, hhops, List.getLast?_concat]
  dsimp only
  rw [List.dropLast_concat]
  have hwalk := FileTree.walk_names maxLinks hdirs'
  have hstart : FileTree.start cwd ('/' :: PathBuf.ofNames (names ++ [text])) = [] := rfl
  rw [hstart, hwalk, Option.bind_some]
  exact FileTree.child_of hdir hmem

/-! ## A directory with a link and a directory in it -/

theorem Open.insert (h : Open t top) (dir : Location) (text : List Char) {node : Node} (now : Int)
    (hmode : ∀ readable searchable, node = .dir readable searchable →
      readable = true ∧ searchable = true) :
    Open (t.insert dir (.text text) node now) top := by
  rcases t.insert_cases dir (.text text) node now with hsame | ⟨hnode, hnames⟩
  · rw [hsame]
    exact h
  · constructor
    · intro loc readable searchable hbelow hdir
      rw [hnode] at hdir
      by_cases hloc : loc = dir ++ [.text text]
      · rw [hloc, Function.update_self] at hdir
        exact hmode readable searchable (Option.some.inj hdir)
      · rw [Function.update_of_ne hloc] at hdir
        exact h.modes loc readable searchable hbelow hdir
    · intro loc hbelow name hname
      rw [hnames] at hname
      by_cases hloc : loc = dir
      · subst hloc
        rw [Function.update_self, List.mem_append, List.mem_singleton] at hname
        rcases hname with hname | rfl
        · exact h.text loc hbelow name hname
        · exact ⟨text, rfl⟩
      · rw [Function.update_of_ne hloc] at hname
        exact h.text loc hbelow name hname

theorem open_empty (top : Location) : Open .empty top where
  modes loc readable searchable _ hdir := by
    unfold FileTree.empty at hdir
    dsimp only at hdir
    split_ifs at hdir
    cases hdir
    exact ⟨rfl, rfl⟩
  text loc _ name hname := by cases hname

/-- The directory `/d` with a link and an empty directory. -/
def linkTree : FileTree :=
  FileTree.empty
    |>.insert [] (.text ['d']) (.dir true true) 0
    |>.insert [.text ['d']] (.text ['l']) (.link true []) 0
    |>.insert [.text ['d']] (.text ['e']) (.dir true true) 0

theorem open_linkTree (top : Location) : Open linkTree top := by
  refine Open.insert (Open.insert (Open.insert (open_empty top) _ _ _ ?_) _ _ _ ?_) _ _ _ ?_
  · intro readable searchable hdir
    cases hdir
    exact ⟨rfl, rfl⟩
  · intro readable searchable hdir
    cases hdir
  · intro readable searchable hdir
    cases hdir
    exact ⟨rfl, rfl⟩

theorem remove_all_empty_dir_exact_link :
    Steady linkTree [] "/d".toList [] (.text ['d']) ∧ Open linkTree [.text ['d']] ∧
      linkTree.node [.text ['d']] = some (.dir true true) ∧
      ∃ t', (∀ fuel, linkTree.depth < fuel →
          removeAllEmptyDir [] 0 fuel "/d".toList linkTree = some (.ok (), t')) ∧
        t'.node [.text ['d'], .text ['l']] = none := by
  have hroot : linkTree.node [.text ['d']] = some (.dir true true) := by decide
  have hsteady : Steady linkTree [] "/d".toList [] (.text ['d']) :=
    steady_absolute [] [] (by decide) (fun front hprefix => ⟨true, by
      rw [List.prefix_nil.mp hprefix]
      decide⟩) (by decide)
  obtain ⟨t', hresult, -, -, hlinks, -⟩ :=
    remove_all_empty_dir_exact linkTree [] 0 hsteady (open_linkTree _) hroot
  exact ⟨hsteady, open_linkTree _, hroot, t', hresult,
    hlinks _ true [] ⟨[.text ['l']], rfl⟩ (by decide)⟩

theorem linkTree_no_file : ¬ HasFile linkTree [.text ['d']] := by
  have hroot : linkTree.node [.text ['d']] = some (.dir true true) := by decide
  have hnames : linkTree.names [.text ['d']] = [.text ['l'], .text ['e']] := by decide
  have hlink : linkTree.node ([.text ['d']] ++ [.text ['l']]) = some (.link true []) := by decide
  have hempty : linkTree.node ([.text ['d']] ++ [.text ['e']]) = some (.dir true true) := by decide
  have hnothing : linkTree.names ([.text ['d']] ++ [.text ['e']]) = [] := by decide
  rw [hasFile_iff_child hroot, hnames]
  rintro ⟨n, hn, hfile⟩
  rcases List.mem_pair.mp hn with rfl | rfl
  · exact not_hasFile_link hlink hfile
  · rw [hasFile_iff_child hempty, hnothing] at hfile
    obtain ⟨n, hn, -⟩ := hfile
    cases hn

/-- The directory has no file and is left there, though empty: called by the path `.`
from inside it, and called by a path through a directory in it. -/
theorem empty_directory_stays : ¬ HasFile linkTree [.text ['d']] ∧
    (linkTree.locate [.text ['d']] ".".toList = some [.text ['d']] ∧
      ∃ t', removeAllEmptyDir [.text ['d']] 0 3 ".".toList linkTree = some (.ok (), t') ∧
        t'.names [.text ['d']] = [] ∧ t'.node [.text ['d']] = some (.dir true true)) ∧
    linkTree.entryOf [] "/d/e/../../d".toList = some ([], .text ['d']) ∧
      ∃ t', removeAllEmptyDir [] 0 3 "/d/e/../../d".toList linkTree = some (.ok (), t') ∧
        t'.names [.text ['d']] = [] ∧ t'.node [.text ['d']] = some (.dir true true) :=
  ⟨linkTree_no_file, ⟨by decide, _, rfl, by decide, by decide⟩, by decide, _, rfl, by decide,
    by decide⟩

end RustdeskServer.Transfer
