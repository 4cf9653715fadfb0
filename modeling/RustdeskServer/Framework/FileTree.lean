import RustdeskServer.Framework.Path
import Mathlib.Data.List.Induction
import Mathlib.Data.List.Nodup
import Mathlib.Logic.Function.Basic

/-!
# A file system as a tree of names

Every file, directory and link has one location, the names from the root
directory down to it. A `FileTree` carries what makes it a tree: whatever exists is
in a directory, a directory lists each of its names once, names are ordinary, and
the tree has a bounded depth.

`walk` follows a path hop by hop and through the links on the way, of which it may
follow only so many. `walk_append` takes a walk apart; `locate_join` and
`entryOf_join` say where a name joined to a directory's path leads. The removals
keep the tree a tree, and `node_remove` says what they change.
-/

namespace RustdeskServer.Framework

/-! ## Trees -/

/-- A name in a directory: text, or bytes that are not UTF-8. -/
inductive FileName where
  | text (name : List Char)
  | bytes (raw : List UInt8)
deriving DecidableEq, Repr

def FileName.Ordinary : FileName → Prop
  | .text name => PathBuf.Plain name
  | .bytes _ => True

instance (name : List Char) : Decidable (PathBuf.Plain name) :=
  decidable_of_iff (name ≠ [] ∧ '/' ∉ name ∧ name ≠ ['.'] ∧ name ≠ ['.', '.'])
    ⟨fun h => ⟨h.1, h.2.1, h.2.2.1, h.2.2.2⟩, fun h => ⟨h.1, h.2, h.3, h.4⟩⟩

instance : DecidablePred FileName.Ordinary
  | .text name => inferInstanceAs (Decidable (PathBuf.Plain name))
  | .bytes _ => .isTrue trivial

/-- Names from the root directory down. -/
abbrev Location : Type := List FileName

/-- One step of a path. -/
inductive Hop where
  | here
  | up
  | down (name : FileName)
deriving DecidableEq, Repr

/-- A directory may be unreadable, which hides its names, or not searchable, which
bars the way through it. -/
inductive Node where
  | file (content : List UInt8)
  | dir (readable searchable : Bool)
  | link (absolute : Bool) (target : List Hop)
deriving DecidableEq, Repr

def Node.isDir : Node → Bool
  | .dir _ _ => true
  | _ => false

def Node.isFile : Node → Bool
  | .file _ => true
  | _ => false

def Node.isLink : Node → Bool
  | .link _ _ => true
  | _ => false

structure FileTree where
  node : Location → Option Node
  modified : Location → Int
  names : Location → List FileName
  depth : ℕ
  root : ∃ readable searchable, node [] = some (.dir readable searchable)
  parent : ∀ dir name, node (dir ++ [name]) ≠ none →
    ∃ readable searchable, node dir = some (.dir readable searchable)
  mem_names : ∀ dir name, name ∈ names dir ↔ node (dir ++ [name]) ≠ none
  nodup : ∀ dir, (names dir).Nodup
  ordinary : ∀ dir, ∀ name ∈ names dir, name.Ordinary
  bounded : ∀ loc, node loc ≠ none → loc.length ≤ depth

/-! Entries of different directories, or with different names, are at different locations. -/

theorem concat_ne_of_dir {dir dir' : Location} (h : dir' ≠ dir) (name name' : FileName) :
    dir' ++ [name'] ≠ dir ++ [name] := by
  intro heq
  apply h
  exact (List.append_inj' heq rfl).1

theorem concat_ne_of_name (dir : Location) {name name' : FileName} (h : name' ≠ name) :
    dir ++ [name'] ≠ dir ++ [name] := by simpa using h

theorem nil_ne_concat (dir : Location) (name : FileName) : [] ≠ dir ++ [name] := by simp

namespace FileTree

/-- A root directory with nothing in it. -/
def empty : FileTree where
  node loc := if loc = [] then some (.dir true true) else none
  modified _ := 0
  names _ := []
  depth := 0
  root := ⟨true, true, rfl⟩
  parent dir name h := by simp at h
  mem_names dir name := by simp
  nodup _ := List.nodup_nil
  ordinary _ _ h := by cases h
  bounded loc h := by
    by_cases hloc : loc = []
    · rw [hloc]
      exact Nat.le_refl 0
    · exact absurd (if_neg hloc) h

/-- Put a new node into a directory, if there is room for its name. -/
def insert (t : FileTree) (dir : Location) (name : FileName) (node : Node) (now : Int) :
    FileTree :=
  if h : ((t.node dir).elim false Node.isDir = true ∧ t.node (dir ++ [name]) = none) ∧
      name.Ordinary then
    { node := Function.update t.node (dir ++ [name]) (some node)
      modified := Function.update (Function.update t.modified dir now) (dir ++ [name]) now
      names := Function.update t.names dir (t.names dir ++ [name])
      depth := max t.depth (dir.length + 1)
      root := by
        rw [Function.update_of_ne (nil_ne_concat dir name)]
        exact t.root
      parent := fun dir' name' hnode => by
        have hdir : ∃ readable searchable, t.node dir' = some (.dir readable searchable) := by
          by_cases hsame : dir' ++ [name'] = dir ++ [name]
          · obtain ⟨rfl, -⟩ := List.append_inj' hsame rfl
            have hisDir := h.1.1
            cases hd : t.node dir' with
            | none => rw [hd] at hisDir; cases hisDir
            | some n =>
                cases n with
                | dir readable searchable => exact ⟨readable, searchable, rfl⟩
                | file _ => rw [hd] at hisDir; cases hisDir
                | link _ _ => rw [hd] at hisDir; cases hisDir
          · rw [Function.update_of_ne hsame] at hnode
            exact t.parent dir' name' hnode
        have hne : dir' ≠ dir ++ [name] := by
          rintro rfl
          rw [h.1.2] at hdir
          obtain ⟨_, _, hnone⟩ := hdir
          cases hnone
        rw [Function.update_of_ne hne]
        exact hdir
      mem_names := fun dir' name' => by
        by_cases hdir : dir' = dir
        · subst hdir
          rw [Function.update_self, List.mem_append, List.mem_singleton, t.mem_names]
          by_cases hname : name' = name
          · subst hname
            simp
          · rw [Function.update_of_ne (concat_ne_of_name dir' hname), or_iff_left hname]
        · rw [Function.update_of_ne hdir, Function.update_of_ne (concat_ne_of_dir hdir name name'),
            t.mem_names]
      nodup := fun dir' => by
        by_cases hdir : dir' = dir
        · subst hdir
          rw [Function.update_self]
          refine List.nodup_append_comm.mp (List.nodup_cons.mpr ⟨fun hmem => ?_, t.nodup dir'⟩)
          exact (t.mem_names dir' name).mp hmem h.1.2
        · rw [Function.update_of_ne hdir]
          exact t.nodup dir'
      ordinary := fun dir' name' hmem => by
        by_cases hdir : dir' = dir
        · subst hdir
          rw [Function.update_self, List.mem_append, List.mem_singleton] at hmem
          rcases hmem with hmem | rfl
          · exact t.ordinary dir' name' hmem
          · exact h.2
        · rw [Function.update_of_ne hdir] at hmem
          exact t.ordinary dir' name' hmem
      bounded := fun loc hloc => by
        by_cases hsame : loc = dir ++ [name]
        · rw [hsame, List.length_append, List.length_singleton]
          exact Nat.le_max_right _ _
        · rw [Function.update_of_ne hsame] at hloc
          exact Nat.le_trans (t.bounded loc hloc) (Nat.le_max_left _ _) }
  else t

/-- Take a name out of a directory, if nothing is below it. -/
def remove (t : FileTree) (dir : Location) (name : FileName) (now : Int) : FileTree :=
  if h : t.names (dir ++ [name]) = [] then
    { node := Function.update t.node (dir ++ [name]) none
      modified := Function.update t.modified dir now
      names := Function.update t.names dir ((t.names dir).erase name)
      depth := t.depth
      root := by
        rw [Function.update_of_ne (nil_ne_concat dir name)]
        exact t.root
      parent := fun dir' name' hnode => by
        have hold : t.node (dir' ++ [name']) ≠ none := by
          intro hnone
          by_cases hsame : dir' ++ [name'] = dir ++ [name]
          · rw [hsame, Function.update_self] at hnode
            exact hnode rfl
          · rw [Function.update_of_ne hsame] at hnode
            exact hnode hnone
        have hne : dir' ≠ dir ++ [name] := by
          rintro rfl
          have hmem := (t.mem_names _ _).mpr hold
          rw [h] at hmem
          cases hmem
        rw [Function.update_of_ne hne]
        exact t.parent dir' name' hold
      mem_names := fun dir' name' => by
        by_cases hdir : dir' = dir
        · subst hdir
          rw [Function.update_self, (t.nodup dir').mem_erase_iff, t.mem_names]
          by_cases hname : name' = name
          · subst hname
            simp
          · rw [Function.update_of_ne (concat_ne_of_name dir' hname), and_iff_right hname]
        · rw [Function.update_of_ne hdir, Function.update_of_ne (concat_ne_of_dir hdir name name'),
            t.mem_names]
      nodup := fun dir' => by
        by_cases hdir : dir' = dir
        · subst hdir
          rw [Function.update_self]
          exact (t.nodup dir').erase name
        · rw [Function.update_of_ne hdir]
          exact t.nodup dir'
      ordinary := fun dir' name' hmem => by
        by_cases hdir : dir' = dir
        · subst hdir
          rw [Function.update_self] at hmem
          exact t.ordinary dir' name' (List.mem_of_mem_erase hmem)
        · rw [Function.update_of_ne hdir] at hmem
          exact t.ordinary dir' name' hmem
      bounded := fun loc hloc => by
        by_cases hsame : loc = dir ++ [name]
        · rw [hsame, Function.update_self] at hloc
          exact absurd rfl hloc
        · rw [Function.update_of_ne hsame] at hloc
          exact t.bounded loc hloc }
  else t

end FileTree

/-! ## Paths -/

/-- The step that a part of a path stands for. -/
def hop (part : List Char) : Hop :=
  if part = ['.'] then .here
  else if part = ['.', '.'] then .up
  else .down (.text part)

/-- The steps of a path; separators in a row are one. -/
def PathBuf.hops (p : PathBuf) : List Hop := (p.parts.filter fun part => part ≠ []).map hop

/-- How far a walk gets without following a link. -/
inductive Way where
  | arrived (loc : Location)
  | link (dir : Location) (absolute : Bool) (target rest : List Hop)

/-- How many links a walk may follow. -/
def maxLinks : ℕ := 40

namespace FileTree

variable (t : FileTree)

/-- The entry of a directory that may be searched. -/
def child (dir : Location) (name : FileName) : Option (Location × FileName) :=
  match t.node dir with
  | some (.dir _ true) => if (t.node (dir ++ [name])).isSome then some (dir, name) else none
  | _ => none

def stroll : Location → List Hop → Option Way
  | loc, [] => some (.arrived loc)
  | loc, hop :: hops =>
      match t.node loc with
      | some (.dir _ true) =>
          match hop with
          | .here => stroll loc hops
          | .up => stroll loc.dropLast hops
          | .down name =>
              match t.node (loc ++ [name]) with
              | none => none
              | some (.link absolute target) => some (.link loc absolute target hops)
              | some _ => stroll (loc ++ [name]) hops
      | _ => none

/-- Where a path leads from a location, and how many more links may be followed. -/
def walk : ℕ → Location → List Hop → Option (Location × ℕ)
  | 0, loc, hops =>
      match t.stroll loc hops with
      | some (.arrived loc) => some (loc, 0)
      | _ => none
  | budget + 1, loc, hops =>
      match t.stroll loc hops with
      | some (.arrived loc) => some (loc, budget + 1)
      | some (.link dir absolute target rest) =>
          walk budget (if absolute then [] else dir) (target ++ rest)
      | none => none

variable (cwd : Location)

/-- Where a path starts. -/
def start (p : PathBuf) : Location := if p.isAbsolute then [] else cwd

/-- Where a path leads. Behind a separator there has to be a directory. -/
def locate (p : PathBuf) : Option Location :=
  if p = [] then none
  else
    match t.walk maxLinks (start cwd p) p.hops with
    | none => none
    | some (loc, _) =>
        if p.getLast? = some '/' then
          if (t.node loc).elim false Node.isDir then some loc else none
        else some loc

/-- The directory and the name that a path which ends in a name stands for; a link
of that name is not followed. -/
def entryOf (p : PathBuf) : Option (Location × FileName) :=
  match p.hops.getLast? with
  | some (.down name) =>
      (t.walk maxLinks (start cwd p) p.hops.dropLast).bind fun walked => t.child walked.1 name
  | _ => none

/-! ## Calls -/

/-- What is at a location, and when it was last modified. -/
def stat (loc : Location) : Option (Node × Int) :=
  (t.node loc).map fun node => (node, t.modified loc)

/-- `stat`, which follows links -/
def metadata (p : PathBuf) : Option (Node × Int) := (t.locate cwd p).bind t.stat

/-- `lstat`, which does not follow a link that the path ends in -/
def symlinkMetadata (p : PathBuf) : Option (Node × Int) :=
  if p.getLast? = some '/' then t.metadata cwd p
  else
    match p.hops.getLast? with
    | some (.down _) => (t.entryOf cwd p).bind fun entry => t.stat (entry.1 ++ [entry.2])
    | _ => t.metadata cwd p

def isDir (p : PathBuf) : Bool := (t.metadata cwd p).elim false fun found => found.1.isDir

def isFile (p : PathBuf) : Bool := (t.metadata cwd p).elim false fun found => found.1.isFile

/-- `readdir`: the names in a directory that may be read. -/
def readNames (p : PathBuf) : Option (List FileName) :=
  (t.locate cwd p).bind fun loc =>
    match t.node loc with
    | some (.dir true _) => some (t.names loc)
    | _ => none

/-- `unlink`, whose failure leaves the tree as it is -/
def unlink (p : PathBuf) (now : Int) : FileTree :=
  match t.entryOf cwd p with
  | none => t
  | some (dir, name) =>
      if p.getLast? = some '/' ∨ (t.node (dir ++ [name])).elim false Node.isDir then t
      else t.remove dir name now

/-- `rmdir`, whose failure leaves the tree as it is -/
def rmdir (p : PathBuf) (now : Int) : FileTree :=
  match t.entryOf cwd p with
  | none => t
  | some (dir, name) =>
      if (t.node (dir ++ [name])).elim false Node.isDir then t.remove dir name now else t

end FileTree

/-! ## Paths of joined names -/

namespace PathBuf

theorem hops_slash (p q : PathBuf) : hops (p ++ '/' :: q) = p.hops ++ q.hops := by
  rw [hops, parts_slash, List.filter_append, List.map_append, hops, hops]

theorem hops_join (p : PathBuf) {q : PathBuf} (hq : q.isAbsolute = false) :
    hops (p.join q) = p.hops ++ q.hops := by
  rw [join_relative hq]
  split_ifs with h
  · rcases h with rfl | hslash
    · rfl
    · -- `p` ends with the separator
      obtain ⟨front, rfl⟩ := List.getLast?_eq_some_iff.mp hslash
      rw [List.append_assoc, List.singleton_append, hops_slash, hops_slash]
      exact congrArg (· ++ q.hops) (List.append_nil _).symm
  · exact hops_slash p q

theorem Plain.isAbsolute {name : List Char} (h : Plain name) :
    PathBuf.isAbsolute name = false := by
  cases name with
  | nil => rfl
  | cons c name =>
      have hc : c ≠ '/' := fun hslash => h.no_slash (hslash ▸ List.mem_cons_self)
      simpa [PathBuf.isAbsolute] using hc

theorem Plain.hops {name : List Char} (h : Plain name) :
    PathBuf.hops name = [.down (.text name)] := by
  have hparts : parts name = [name] := List.splitOn_eq_singleton h.no_slash
  rw [PathBuf.hops, hparts, List.filter_singleton, decide_eq_true h.ne_nil]
  simp only [Bool.cond_true, List.map_singleton, hop, if_neg h.ne_dot, if_neg h.ne_dots]

theorem Plain.getLast {name : List Char} (h : Plain name) : name.getLast? ≠ some '/' :=
  fun hslash => h.no_slash (List.mem_of_getLast? hslash)

theorem getLast_join (p : PathBuf) {q : PathBuf} (hq : q.isAbsolute = false) (hne : q ≠ []) :
    (p.join q).getLast? = q.getLast? := by
  rw [join_relative hq]
  split_ifs
  · exact List.getLast?_append_of_ne_nil _ hne
  · rw [List.getLast?_append_of_ne_nil _ (List.cons_ne_nil _ _), List.getLast?_cons_of_ne_nil hne]

theorem join_getLast {p name : PathBuf} (h : Plain name) : (p.join name).getLast? ≠ some '/' := by
  rw [getLast_join p h.isAbsolute h.ne_nil]
  exact h.getLast

theorem join_ne_nil (p : PathBuf) {q : PathBuf} (hq : q.isAbsolute = false) (hne : q ≠ []) :
    p.join q ≠ [] := by
  rw [join_relative hq]
  split_ifs
  · exact List.append_ne_nil_of_right_ne_nil _ hne
  · exact List.append_ne_nil_of_right_ne_nil _ (List.cons_ne_nil _ _)

theorem isAbsolute_join {p q : PathBuf} (hp : p ≠ []) (hq : q.isAbsolute = false) :
    isAbsolute (p.join q) = p.isAbsolute := by
  rw [join_relative hq]
  split_ifs <;> exact isAbsolute_append hp _

/-- The path of these names, one below the other. -/
def ofNames (names : List (List Char)) : PathBuf := names.foldl join []

theorem ofNames_concat (names : List (List Char)) (name : List Char) :
    ofNames (names ++ [name]) = (ofNames names).join name := List.foldl_concat ..

theorem hops_ofNames {names : List (List Char)} (h : ∀ name ∈ names, Plain name) :
    hops (ofNames names) = names.map fun name => .down (.text name) := by
  induction names using List.reverseRecOn with
  | nil => rfl
  | append_singleton names name ih =>
      have hname : Plain name := h name (by simp)
      rw [ofNames_concat, hops_join _ hname.isAbsolute, hname.hops,
        ih fun name' hin => h name' (List.mem_append_left _ hin), List.map_append]
      rfl

/-- Such a path is a relative one and ends in a name. -/
theorem ofNames_spec {names : List (List Char)} (h : ∀ name ∈ names, Plain name)
    (hne : names ≠ []) : ofNames names ≠ [] ∧ isAbsolute (ofNames names) = false ∧
      (ofNames names).getLast? ≠ some '/' := by
  induction names using List.reverseRecOn with
  | nil => exact absurd rfl hne
  | append_singleton names name ih =>
      have hname : Plain name := h name (by simp)
      rw [ofNames_concat]
      refine ⟨join_ne_nil _ hname.isAbsolute hname.ne_nil, ?_, join_getLast hname⟩
      by_cases hnames : names = []
      · rw [hnames, ofNames, List.foldl_nil, join_relative hname.isAbsolute, if_pos (Or.inl rfl)]
        exact hname.isAbsolute
      · obtain ⟨hfront, hrelative, -⟩ :=
          ih (fun name' hin => h name' (List.mem_append_left _ hin)) hnames
        rw [isAbsolute_join hfront hname.isAbsolute, hrelative]

theorem ofNames_inj {names names' : List (List Char)} (h : ∀ name ∈ names, Plain name)
    (h' : ∀ name ∈ names', Plain name) (heq : ofNames names = ofNames names') :
    names = names' := by
  have hhops := congrArg hops heq
  rw [hops_ofNames h, hops_ofNames h'] at hhops
  refine List.map_injective_iff.mpr (fun a b hab => ?_) hhops
  cases hab
  rfl

end PathBuf

/-! ## Walks -/

namespace FileTree

variable {t : FileTree} {cwd : Location}

theorem stroll_append (t : FileTree) (loc : Location) (hops more : List Hop) :
    t.stroll loc (hops ++ more) =
      match t.stroll loc hops with
      | none => none
      | some (.arrived loc) => t.stroll loc more
      | some (.link dir absolute target rest) =>
          some (.link dir absolute target (rest ++ more)) := by
  induction hops generalizing loc with
  | nil => rfl
  | cons hop hops ih =>
      simp only [List.cons_append, stroll]
      split
      · cases hop with
        | here => exact ih loc
        | up => exact ih loc.dropLast
        | down name =>
            dsimp only
            split
            · rfl
            · rfl
            · exact ih (loc ++ [name])
      · rfl

/-- **A walk can be taken apart** where a path ends and the next one starts. -/
theorem walk_append (t : FileTree) (budget : ℕ) (loc : Location) (hops more : List Hop) :
    t.walk budget loc (hops ++ more) =
      (t.walk budget loc hops).bind fun walked => t.walk walked.2 walked.1 more := by
  induction budget generalizing loc hops with
  | zero =>
      rw [walk, walk, stroll_append]
      cases t.stroll loc hops with
      | none => rfl
      | some way => cases way <;> rfl
  | succ budget ih =>
      rw [walk, walk, stroll_append]
      cases t.stroll loc hops with
      | none => rfl
      | some way =>
          cases way with
          | arrived loc => rfl
          | link dir absolute target rest =>
              dsimp only
              rw [← List.append_assoc]
              exact ih _ _

theorem walk_nil (budget : ℕ) (loc : Location) : t.walk budget loc [] = some (loc, budget) := by
  cases budget <;> rfl

/-- Into a directory, a file or a directory in it. -/
theorem walk_down {dir : Location} {name : FileName} {readable : Bool} {node : Node} (budget : ℕ)
    (hdir : t.node dir = some (.dir readable true)) (hnode : t.node (dir ++ [name]) = some node)
    (hlink : node.isLink = false) :
    t.walk budget dir [.down name] = some (dir ++ [name], budget) := by
  have hstroll : t.stroll dir [.down name] = some (.arrived (dir ++ [name])) := by
    rw [stroll, hdir]
    dsimp only
    rw [hnode]
    cases node with
    | link => cases hlink
    | file => rfl
    | dir => rfl
  cases budget with
  | zero => rw [walk, hstroll]
  | succ budget => rw [walk, hstroll]

/-- From the root directory down through searchable directories. -/
theorem walk_names {names : List (List Char)} (budget : ℕ)
    (hdirs : ∀ front, front <+: names → ∃ readable,
      t.node (front.map .text) = some (.dir readable true)) :
    t.walk budget [] (names.map fun name => .down (.text name)) =
      some (names.map .text, budget) := by
  induction names using List.reverseRecOn with
  | nil => exact walk_nil budget []
  | append_singleton names name ih =>
      have hfront : ∀ front, front <+: names → ∃ readable,
          t.node (front.map .text) = some (.dir readable true) := by
        intro front habove
        apply hdirs
        exact habove.trans (List.prefix_append _ _)
      obtain ⟨readable, hdir⟩ := hfront names List.prefix_rfl
      obtain ⟨readable', hlast⟩ := hdirs _ List.prefix_rfl
      rw [List.map_append, List.map_singleton] at hlast
      rw [List.map_append, List.map_singleton, walk_append, ih hfront, Option.bind_some,
        walk_down budget hdir hlast rfl, List.map_append, List.map_singleton]

theorem mem_names_of_node {dir : Location} {name : FileName} {node : Node}
    (h : t.node (dir ++ [name]) = some node) : name ∈ t.names dir := by
  rw [t.mem_names, h]
  exact Option.some_ne_none node

theorem child_of {dir : Location} {name : FileName} {readable : Bool}
    (hdir : t.node dir = some (.dir readable true)) (hname : name ∈ t.names dir) :
    t.child dir name = some (dir, name) := by
  have hnode : (t.node (dir ++ [name])).isSome :=
    Option.isSome_iff_ne_none.mpr ((t.mem_names dir name).mp hname)
  rw [child, hdir]
  exact if_pos hnode

theorem child_of_unsearchable {dir : Location} {readable : Bool}
    (hdir : t.node dir = some (.dir readable false)) (name : FileName) :
    t.child dir name = none := by
  rw [child, hdir]

theorem child_eq_some {dir dir' : Location} {name name' : FileName}
    (h : t.child dir name = some (dir', name')) :
    dir' = dir ∧ name' = name ∧ ∃ readable, t.node dir = some (.dir readable true) := by
  unfold child at h
  split at h
  case h_1 readable hdir =>
    split_ifs at h
    cases h
    exact ⟨rfl, rfl, readable, hdir⟩
  case h_2 => cases h

/-! ## Where paths lead -/

theorem locate_eq_some {p : PathBuf} {loc : Location} (h : t.locate cwd p = some loc) :
    p ≠ [] ∧ ∃ budget, t.walk maxLinks (start cwd p) p.hops = some (loc, budget) := by
  unfold locate at h
  by_cases hp : p = []
  · rw [if_pos hp] at h
    cases h
  · rw [if_neg hp] at h
    cases hwalk : t.walk maxLinks (start cwd p) p.hops with
    | none =>
        rw [hwalk] at h
        cases h
    | some walked =>
        rw [hwalk] at h
        dsimp only at h
        split_ifs at h <;> cases h <;> exact ⟨hp, walked.2, rfl⟩

/-- The walk to a joined path goes on from where the base leads. -/
theorem locate_join {p q : PathBuf} {loc : Location} (h : t.locate cwd p = some loc)
    (hq : q.isAbsolute = false) (hlast : (p.join q).getLast? ≠ some '/') :
    ∃ budget, t.locate cwd (p.join q) = (t.walk budget loc q.hops).map Prod.fst := by
  obtain ⟨hp, budget, hwalk⟩ := locate_eq_some h
  have hjoin : p.join q ≠ [] := by
    rw [PathBuf.join_relative hq]
    split_ifs <;> exact List.append_ne_nil_of_left_ne_nil hp _
  refine ⟨budget, ?_⟩
  rw [locate, if_neg hjoin, start, PathBuf.isAbsolute_join hp hq, ← start,
    PathBuf.hops_join p hq, walk_append, hwalk, Option.bind_some]
  cases t.walk budget loc q.hops with
  | none => rfl
  | some walked => exact if_neg hlast

theorem locate_join_name {p : PathBuf} {name : List Char} {dir : Location} {readable : Bool}
    {node : Node} (h : t.locate cwd p = some dir) (hname : PathBuf.Plain name)
    (hdir : t.node dir = some (.dir readable true))
    (hnode : t.node (dir ++ [.text name]) = some node) (hlink : node.isLink = false) :
    t.locate cwd (p.join name) = some (dir ++ [.text name]) := by
  obtain ⟨budget, hlocate⟩ := locate_join h hname.isAbsolute (PathBuf.join_getLast hname)
  rw [hlocate, hname.hops, walk_down budget hdir hnode hlink, Option.map_some]

theorem entryOf_join {p : PathBuf} {name : List Char} {dir : Location}
    (h : t.locate cwd p = some dir) (hname : PathBuf.Plain name) :
    t.entryOf cwd (p.join name) = t.child dir (.text name) := by
  obtain ⟨hp, budget, hwalk⟩ := locate_eq_some h
  have hhops : (p.join name).hops = p.hops ++ [.down (.text name)] := by
    rw [PathBuf.hops_join p hname.isAbsolute, hname.hops]
  rw [entryOf, hhops, List.getLast?_concat]
  dsimp only
  rw [List.dropLast_concat, start, PathBuf.isAbsolute_join hp hname.isAbsolute, ← start, hwalk,
    Option.bind_some]

theorem symlinkMetadata_join {p : PathBuf} {name : List Char} {dir : Location}
    (h : t.locate cwd p = some dir) (hname : PathBuf.Plain name) :
    t.symlinkMetadata cwd (p.join name) =
      (t.child dir (.text name)).bind fun entry => t.stat (entry.1 ++ [entry.2]) := by
  have hhops : (p.join name).hops = p.hops ++ [.down (.text name)] := by
    rw [PathBuf.hops_join p hname.isAbsolute, hname.hops]
  rw [symlinkMetadata, if_neg (PathBuf.join_getLast hname), hhops, List.getLast?_concat]
  dsimp only
  rw [entryOf_join h hname]

/-- A path that ends in the name of a directory leads to it. -/
theorem locate_of_entryOf {p : PathBuf} {dir : Location} {name : FileName}
    {readable searchable : Bool} (h : t.entryOf cwd p = some (dir, name))
    (hnode : t.node (dir ++ [name]) = some (.dir readable searchable)) :
    t.locate cwd p = some (dir ++ [name]) := by
  unfold entryOf at h
  split at h
  case h_2 => cases h
  case h_1 last hlast =>
    obtain ⟨⟨dir', budget⟩, hwalk, hchild⟩ := Option.bind_eq_some_iff.mp h
    obtain ⟨rfl, rfl, readable', hdir⟩ := child_eq_some hchild
    have hhops : p.hops = p.hops.dropLast ++ [.down name] :=
      (List.dropLast_append_getLast? _ hlast).symm
    have hp : p ≠ [] := by
      rintro rfl
      cases hlast
    rw [locate, if_neg hp, hhops, walk_append, hwalk, Option.bind_some,
      walk_down budget hdir hnode rfl]
    dsimp only
    rw [hnode, Option.elim_some, if_pos (show Node.isDir _ = true from rfl)]
    exact ite_self _

/-! ## Changes -/

theorem insert_cases (t : FileTree) (dir : Location) (name : FileName) (node : Node) (now : Int) :
    t.insert dir name node now = t ∨
      (t.insert dir name node now).node =
          Function.update t.node (dir ++ [name]) (some node) ∧
        (t.insert dir name node now).names =
          Function.update t.names dir (t.names dir ++ [name]) := by
  unfold insert
  split_ifs
  · exact Or.inr ⟨rfl, rfl⟩
  · exact Or.inl rfl

theorem names_eq_nil {loc : Location} (h : (t.node loc).elim false Node.isDir = false) :
    t.names loc = [] := by
  refine List.eq_nil_iff_forall_not_mem.mpr fun name hname => ?_
  obtain ⟨readable, searchable, hdir⟩ := t.parent loc name ((t.mem_names loc name).mp hname)
  rw [hdir] at h
  cases h

theorem node_remove {dir : Location} {name : FileName} (h : t.names (dir ++ [name]) = [])
    (now : Int) :
    (t.remove dir name now).node = Function.update t.node (dir ++ [name]) none := by
  rw [remove, dif_pos h]

theorem remove_of_names {dir : Location} {name : FileName} (h : t.names (dir ++ [name]) ≠ [])
    (now : Int) : t.remove dir name now = t := dif_neg h

/-! ## A tree of which something was removed -/

/-- What is in the first tree is in the second. -/
def Part (t t' : FileTree) : Prop := ∀ loc node, t.node loc = some node → t'.node loc = some node

theorem Part.stroll (h : t.Part t') {loc : Location} {hops : List Hop} {way : Way}
    (hway : t.stroll loc hops = some way) : t'.stroll loc hops = some way := by
  induction hops generalizing loc with
  | nil => exact hway
  | cons hop hops ih =>
      simp only [FileTree.stroll] at hway ⊢
      split at hway
      case h_2 => cases hway
      case h_1 hdir =>
        rw [h _ _ hdir]
        cases hop with
        | here => exact ih hway
        | up => exact ih hway
        | down name =>
            dsimp only at hway ⊢
            cases hnode : t.node (loc ++ [name]) with
            | none =>
                rw [hnode] at hway
                cases hway
            | some node =>
                rw [hnode] at hway
                rw [h _ _ hnode]
                cases node with
                | link absolute target => exact hway
                | file content => exact ih hway
                | dir readable searchable => exact ih hway

theorem Part.walk (h : t.Part t') {budget : ℕ} {loc : Location} {hops : List Hop}
    {walked : Location × ℕ} (hwalk : t.walk budget loc hops = some walked) :
    t'.walk budget loc hops = some walked := by
  induction budget generalizing loc hops with
  | zero =>
      rw [FileTree.walk] at hwalk ⊢
      cases hway : t.stroll loc hops with
      | none =>
          rw [hway] at hwalk
          cases hwalk
      | some way =>
          rw [hway] at hwalk
          rw [h.stroll hway]
          exact hwalk
  | succ budget ih =>
      rw [FileTree.walk] at hwalk ⊢
      cases hway : t.stroll loc hops with
      | none =>
          rw [hway] at hwalk
          cases hwalk
      | some way =>
          rw [hway] at hwalk
          rw [h.stroll hway]
          cases way with
          | arrived loc => exact hwalk
          | link dir absolute target rest => exact ih hwalk

/-- **A path leads to the same place** in a tree of which the first is a part. -/
theorem Part.locate (h : t.Part t') {p : PathBuf} {loc : Location}
    (hloc : t.locate cwd p = some loc) : t'.locate cwd p = some loc := by
  obtain ⟨hp, budget, hwalk⟩ := locate_eq_some hloc
  rw [FileTree.locate, if_neg hp, hwalk] at hloc
  rw [FileTree.locate, if_neg hp, h.walk hwalk]
  dsimp only at hloc ⊢
  by_cases hslash : p.getLast? = some '/'
  · rw [if_pos hslash] at hloc ⊢
    cases hnode : t.node loc with
    | none => simp [hnode] at hloc
    | some node => simpa [h _ _ hnode, hnode] using hloc
  · rw [if_neg hslash]

/-- The directory that a path is an entry of is there. -/
theorem dir_of_entryOf {p : PathBuf} {dir : Location} {name : FileName}
    (h : t.entryOf cwd p = some (dir, name)) :
    ∃ readable, t.node dir = some (.dir readable true) := by
  unfold entryOf at h
  split at h
  case h_2 => cases h
  case h_1 =>
    obtain ⟨walked, -, hchild⟩ := Option.bind_eq_some_iff.mp h
    obtain ⟨rfl, -, hdir⟩ := child_eq_some hchild
    exact hdir

/-- What calls that remove something leave as it was: the files that are still there,
with their times. -/
structure Lighter (t t' : FileTree) : Prop where
  depth : t'.depth = t.depth
  part : t'.Part t
  modified : ∀ loc content, t'.node loc = some (.file content) → t'.modified loc = t.modified loc

theorem Lighter.refl (t : FileTree) : Lighter t t := ⟨rfl, fun _ _ h => h, fun _ _ _ => rfl⟩

theorem Lighter.trans {t'' : FileTree} (h : Lighter t t') (h' : Lighter t' t'') :
    Lighter t t'' where
  depth := h'.depth.trans h.depth
  part loc node hnode := h.part loc node (h'.part loc node hnode)
  modified loc content hfile := by
    rw [h'.modified loc content hfile, h.modified loc content (h'.part _ _ hfile)]

theorem lighter_remove {dir : Location} (name : FileName) (now : Int) {readable searchable : Bool}
    (hdir : t.node dir = some (.dir readable searchable)) :
    Lighter t (t.remove dir name now) := by
  by_cases h : t.names (dir ++ [name]) = []
  · have hpart : (t.remove dir name now).Part t := by
      intro loc node hnode
      rw [node_remove h] at hnode
      by_cases hloc : loc = dir ++ [name]
      · simp [hloc] at hnode
      · rwa [Function.update_of_ne hloc] at hnode
    have hmodified : (t.remove dir name now).modified = Function.update t.modified dir now := by
      rw [remove, dif_pos h]
    refine ⟨?_, hpart, ?_⟩
    · rw [remove, dif_pos h]
    · intro loc content hfile
      have hne : loc ≠ dir := by
        rintro rfl
        have hold := hpart _ _ hfile
        rw [hdir] at hold
        cases hold
      rw [hmodified, Function.update_of_ne hne]
  · rw [remove_of_names h]
    exact .refl t

theorem lighter_unlink (t : FileTree) (cwd : Location) (p : PathBuf) (now : Int) :
    Lighter t (t.unlink cwd p now) := by
  unfold unlink
  cases hentry : t.entryOf cwd p with
  | none => exact .refl t
  | some entry =>
      obtain ⟨readable, hdir⟩ := dir_of_entryOf hentry
      dsimp only
      split_ifs
      · exact .refl t
      · exact lighter_remove entry.2 now hdir

theorem lighter_rmdir (t : FileTree) (cwd : Location) (p : PathBuf) (now : Int) :
    Lighter t (t.rmdir cwd p now) := by
  unfold rmdir
  cases hentry : t.entryOf cwd p with
  | none => exact .refl t
  | some entry =>
      obtain ⟨readable, hdir⟩ := dir_of_entryOf hentry
      dsimp only
      split_ifs
      · exact lighter_remove entry.2 now hdir
      · exact .refl t

end FileTree

end RustdeskServer.Framework
