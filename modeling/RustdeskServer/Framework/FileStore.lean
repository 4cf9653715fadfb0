import Mathlib.Data.List.Basic
import Mathlib.Logic.Function.Basic

/-!
# A store of regular files

Locations name inodes, inodes carry content and modification time. A file that
is open is written through its inode, so what a handle writes follows the file
through a rename and survives its removal. The store carries two facts of its
own: every inode in use is below `fresh`, and no two locations share an inode
(there are no hard links).

`lookup` is what a location holds, `read` its bytes. The lemmas say what the
locations an operation names hold afterwards, and that it leaves the others
alone.
-/

namespace RustdeskServer.Framework

structure FileData where
  content : List UInt8
  mtime : Int
deriving DecidableEq, Repr

structure FileStore (Loc : Type*) where
  inode : Loc → Option ℕ
  data : ℕ → FileData
  fresh : ℕ
  bounded : ∀ l i, inode l = some i → i < fresh
  unshared : ∀ l l' i, inode l = some i → inode l' = some i → l = l'

/-- Writing `bytes` at `pos`: a gap is filled with zeros. -/
def splice (content : List UInt8) (pos : ℕ) (bytes : List UInt8) : List UInt8 :=
  if bytes = [] then content
  else content.take pos ++ List.replicate (pos - content.length) 0 ++ bytes ++
    content.drop (pos + bytes.length)

theorem splice_end (content bytes : List UInt8) :
    splice content content.length bytes = content ++ bytes := by
  unfold splice
  split_ifs with h
  · rw [h, List.append_nil]
  · simp

namespace FileStore

variable {Loc : Type*}

def lookup (s : FileStore Loc) (l : Loc) : Option FileData := (s.inode l).map s.data

/-- The bytes of the file at a location. -/
def read (s : FileStore Loc) (l : Loc) : Option (List UInt8) :=
  (s.lookup l).map FileData.content

def empty : FileStore Loc where
  inode _ := none
  data _ := ⟨[], 0⟩
  fresh := 0
  bounded _ _ h := nomatch h
  unshared _ _ _ h := nomatch h

/-- Change what an inode carries. -/
def modify (s : FileStore Loc) (ino : ℕ) (f : FileData → FileData) : FileStore Loc :=
  { s with data := Function.update s.data ino (f (s.data ino)) }

/-- Write through an open handle. -/
def writeAt (s : FileStore Loc) (ino pos : ℕ) (bytes : List UInt8) (now : Int) :
    FileStore Loc :=
  s.modify ino fun d => ⟨splice d.content pos bytes, now⟩

def setMtime (s : FileStore Loc) (l : Loc) (t : Int) : FileStore Loc :=
  match s.inode l with
  | none => s
  | some i => s.modify i fun d => { d with mtime := t }

variable [DecidableEq Loc]

/-- Remove the name; the inode lives on for handles that have it open. -/
def remove (s : FileStore Loc) (l : Loc) : FileStore Loc :=
  { s with
    inode := Function.update s.inode l none
    bounded := fun l' i h => by
      by_cases hl : l' = l
      · rw [hl, Function.update_self] at h; cases h
      · rw [Function.update_of_ne hl] at h; exact s.bounded l' i h
    unshared := fun l₁ l₂ i h₁ h₂ => by
      by_cases h1 : l₁ = l
      · rw [h1, Function.update_self] at h₁; cases h₁
      by_cases h2 : l₂ = l
      · rw [h2, Function.update_self] at h₂; cases h₂
      rw [Function.update_of_ne h1] at h₁
      rw [Function.update_of_ne h2] at h₂
      exact s.unshared l₁ l₂ i h₁ h₂ }

/-- Give an inode that has no other name the name `l`. -/
def link (s : FileStore Loc) (l : Loc) (ino : ℕ) (hlt : ino < s.fresh)
    (hfree : ∀ l', s.inode l' ≠ some ino) : FileStore Loc :=
  { s with
    inode := Function.update s.inode l (some ino)
    bounded := fun l' i h => by
      by_cases hl : l' = l
      · rw [hl, Function.update_self] at h; exact Option.some.inj h ▸ hlt
      · rw [Function.update_of_ne hl] at h; exact s.bounded l' i h
    unshared := fun l₁ l₂ i h₁ h₂ => by
      by_cases h1 : l₁ = l <;> by_cases h2 : l₂ = l
      · rw [h1, h2]
      · rw [h1, Function.update_self] at h₁
        rw [Function.update_of_ne h2, ← h₁] at h₂
        exact absurd h₂ (hfree l₂)
      · rw [h2, Function.update_self] at h₂
        rw [Function.update_of_ne h1, ← h₂] at h₁
        exact absurd h₁ (hfree l₁)
      · rw [Function.update_of_ne h1] at h₁
        rw [Function.update_of_ne h2] at h₂
        exact s.unshared l₁ l₂ i h₁ h₂ }

theorem not_inode_remove {s : FileStore Loc} {l : Loc} {i : ℕ} (h : s.inode l = some i)
    (l' : Loc) : (s.remove l).inode l' ≠ some i := by
  intro h'
  by_cases hl : l' = l
  · rw [hl] at h'
    exact absurd h' (by simp [remove])
  · have : s.inode l' = some i := by simpa [remove, Function.update_of_ne hl] using h'
    exact hl (s.unshared l' l i this h)

/-- `rename` replaces what is at the destination; without a source it does
nothing. -/
def rename (s : FileStore Loc) (src dst : Loc) : FileStore Loc :=
  match h : s.inode src with
  | none => s
  | some i =>
      if src = dst then s
      else (s.remove src).link dst i (s.bounded src i h) (not_inode_remove h)

/-- An inode number not in use, with an empty file on it. -/
def allocate (s : FileStore Loc) (now : Int) : FileStore Loc :=
  { s with
    data := Function.update s.data s.fresh ⟨[], now⟩
    fresh := s.fresh + 1
    bounded := fun l i h => Nat.lt_succ_of_lt (s.bounded l i h) }

/-- `File::create`: truncate the file at `l`, or make an empty one. -/
def create (s : FileStore Loc) (l : Loc) (now : Int) : FileStore Loc × ℕ :=
  match s.inode l with
  | some i => (s.modify i fun _ => ⟨[], now⟩, i)
  | none =>
      ((s.allocate now).link l s.fresh (Nat.lt_succ_self _)
        fun l' h => absurd (s.bounded l' s.fresh h) (Nat.lt_irrefl _), s.fresh)

/-! ## What the locations hold afterwards -/

section
omit [DecidableEq Loc]

theorem lookup_of_inode {s : FileStore Loc} {l : Loc} {i : ℕ} (h : s.inode l = some i) :
    s.lookup l = some (s.data i) := by
  rw [lookup, h, Option.map_some]

theorem lookup_eq_none {s : FileStore Loc} {l : Loc} : s.lookup l = none ↔ s.inode l = none := by
  rw [lookup, Option.map_eq_none_iff]

theorem read_eq_none {s : FileStore Loc} {l : Loc} : s.read l = none ↔ s.inode l = none := by
  rw [read, Option.map_eq_none_iff, lookup_eq_none]

theorem read_of_inode {s : FileStore Loc} {l : Loc} {i : ℕ} (h : s.inode l = some i) :
    s.read l = some (s.data i).content := by
  rw [read, lookup_of_inode h, Option.map_some]

theorem read_congr {s s' : FileStore Loc} {l : Loc} (h : s'.lookup l = s.lookup l) :
    s'.read l = s.read l := by
  rw [read, read, h]

theorem data_modify_self (s : FileStore Loc) (ino : ℕ) (f : FileData → FileData) :
    (s.modify ino f).data ino = f (s.data ino) := Function.update_self ..

theorem lookup_modify_of_ne {s : FileStore Loc} {l : Loc} {ino : ℕ}
    (h : s.inode l ≠ some ino) (f : FileData → FileData) :
    (s.modify ino f).lookup l = s.lookup l := by
  unfold lookup
  show (s.inode l).map _ = _
  cases hl : s.inode l with
  | none => rfl
  | some i =>
      have hne : i ≠ ino := fun e => h (by rw [hl, e])
      exact congrArg some (Function.update_of_ne hne ..)

/-- Only the location of the inode sees the change. -/
theorem lookup_modify_other {s : FileStore Loc} {l l' : Loc} {ino : ℕ}
    (h : s.inode l = some ino) (hl : l' ≠ l) (f : FileData → FileData) :
    (s.modify ino f).lookup l' = s.lookup l' :=
  lookup_modify_of_ne (fun h' => hl (s.unshared l' l ino h' h)) f

theorem inode_setMtime (s : FileStore Loc) (l : Loc) (t : Int) :
    (s.setMtime l t).inode = s.inode := by
  unfold setMtime
  split <;> rfl

theorem content_setMtime (s : FileStore Loc) (l : Loc) (t : Int) (i : ℕ) :
    ((s.setMtime l t).data i).content = (s.data i).content := by
  unfold setMtime
  split
  · rfl
  · rename_i ino _
    by_cases hi : i = ino
    · rw [hi, data_modify_self]
    · exact congrArg FileData.content (Function.update_of_ne hi ..)

theorem lookup_setMtime_other (s : FileStore Loc) {l l' : Loc} (h : l' ≠ l) (t : Int) :
    (s.setMtime l t).lookup l' = s.lookup l' := by
  unfold setMtime
  split
  · rfl
  · rename_i i hi
    exact lookup_modify_other hi h _

theorem read_setMtime (s : FileStore Loc) (l l' : Loc) (t : Int) :
    (s.setMtime l t).read l' = s.read l' := by
  cases h : s.inode l' with
  | none => rw [read_eq_none.mpr h, read_eq_none.mpr (by rw [inode_setMtime, h])]
  | some i =>
      rw [read_of_inode h, read_of_inode (i := i) (by rw [inode_setMtime, h]),
        content_setMtime]

end

theorem lookup_remove_self (s : FileStore Loc) (l : Loc) : (s.remove l).lookup l = none :=
  lookup_eq_none.mpr (Function.update_self ..)

theorem lookup_remove_other (s : FileStore Loc) {l l' : Loc} (h : l' ≠ l) :
    (s.remove l).lookup l' = s.lookup l' :=
  congrArg (Option.map s.data) (Function.update_of_ne h ..)

theorem rename_of_none {s : FileStore Loc} {src dst : Loc} (h : s.inode src = none) :
    s.rename src dst = s := by
  unfold rename
  split
  · rfl
  · rename_i i hi
    rw [h] at hi
    cases hi

theorem data_rename (s : FileStore Loc) (src dst : Loc) : (s.rename src dst).data = s.data := by
  unfold rename
  split
  · rfl
  · split_ifs <;> rfl

theorem inode_rename {s : FileStore Loc} {src dst : Loc} {i : ℕ} (h : s.inode src = some i)
    (hne : src ≠ dst) :
    (s.rename src dst).inode =
      Function.update (Function.update s.inode src none) dst (some i) := by
  unfold rename
  split
  · rename_i hnone
    rw [h] at hnone
    cases hnone
  · rename_i j hj
    rw [if_neg hne, show i = j from Option.some.inj (h.symm.trans hj)]
    rfl

theorem lookup_rename_other (s : FileStore Loc) {src dst l : Loc} (hsrc : l ≠ src)
    (hdst : l ≠ dst) : (s.rename src dst).lookup l = s.lookup l := by
  cases h : s.inode src with
  | none => rw [rename_of_none h]
  | some i =>
      by_cases hne : src = dst
      · unfold rename
        split
        · rfl
        · rw [if_pos hne]
      · unfold lookup
        rw [data_rename, inode_rename h hne, Function.update_of_ne hdst,
          Function.update_of_ne hsrc]

/-- **A rename moves the file.** -/
theorem lookup_rename_dst {s : FileStore Loc} {src dst : Loc} {i : ℕ}
    (h : s.inode src = some i) (hne : src ≠ dst) :
    (s.rename src dst).lookup dst = some (s.data i) := by
  unfold lookup
  rw [data_rename, inode_rename h hne, Function.update_self, Option.map_some]

/-- After a rename, successful or not, nothing is left at the source. -/
theorem inode_rename_src (s : FileStore Loc) {src dst : Loc} (hne : src ≠ dst) :
    (s.rename src dst).inode src = none := by
  cases h : s.inode src with
  | none => rw [rename_of_none h, h]
  | some i => rw [inode_rename h hne, Function.update_of_ne hne, Function.update_self]

/-- **A created file is empty, and is the handle's.** -/
theorem create_spec (s : FileStore Loc) (l : Loc) (now : Int) :
    (s.create l now).1.inode l = some (s.create l now).2 ∧
      (s.create l now).1.data (s.create l now).2 = ⟨[], now⟩ := by
  unfold create
  split
  · rename_i i h
    exact ⟨h, data_modify_self s i fun _ => ⟨[], now⟩⟩
  · exact ⟨Function.update_self .., Function.update_self ..⟩

theorem lookup_create_other (s : FileStore Loc) {l l' : Loc} (h : l' ≠ l) (now : Int) :
    (s.create l now).1.lookup l' = s.lookup l' := by
  unfold create
  split
  · rename_i i hi
    exact lookup_modify_other hi h _
  · show ((Function.update s.inode l (some s.fresh)) l').map _ = (s.inode l').map _
    rw [Function.update_of_ne h]
    cases hi : s.inode l' with
    | none => rfl
    | some i =>
        have hne : i ≠ s.fresh := Nat.ne_of_lt (s.bounded l' i hi)
        exact congrArg some (Function.update_of_ne hne ..)

/-- The location names the inode it named, and this one carries what it carried. -/
structure Agrees (s s' : FileStore Loc) (l : Loc) : Prop where
  inode : s'.inode l = s.inode l
  data : ∀ i, s.inode l = some i → s'.data i = s.data i

section
omit [DecidableEq Loc]

theorem Agrees.refl (s : FileStore Loc) (l : Loc) : Agrees s s l := ⟨rfl, fun _ _ => rfl⟩

theorem Agrees.trans {s s' s'' : FileStore Loc} {l : Loc} (h : Agrees s s' l)
    (h' : Agrees s' s'' l) : Agrees s s'' l where
  inode := h'.inode.trans h.inode
  data i hi := (h'.data i (h.inode.trans hi)).trans (h.data i hi)

theorem Agrees.lookup {s s' : FileStore Loc} {l : Loc} (h : Agrees s s' l) :
    s'.lookup l = s.lookup l := by
  unfold FileStore.lookup
  rw [h.inode]
  cases hi : s.inode l with
  | none => rfl
  | some i => exact congrArg some (h.data i hi)

theorem agrees_modify {s : FileStore Loc} {l : Loc} {ino : ℕ} (h : s.inode l ≠ some ino)
    (f : FileData → FileData) : Agrees s (s.modify ino f) l where
  inode := rfl
  data i hi := Function.update_of_ne (fun e => h (by rw [hi, e])) ..

/-- Writing to a file concerns its own location only. -/
theorem agrees_modify_other {s : FileStore Loc} {l l' : Loc} {ino : ℕ}
    (h : s.inode l = some ino) (hl : l' ≠ l) (f : FileData → FileData) :
    Agrees s (s.modify ino f) l' :=
  agrees_modify (fun h' => hl (s.unshared l' l ino h' h)) f

theorem agrees_setMtime (s : FileStore Loc) {l l' : Loc} (hl : l' ≠ l) (t : Int) :
    Agrees s (s.setMtime l t) l' := by
  unfold setMtime
  split
  · exact .refl s l'
  · rename_i i hi
    exact agrees_modify_other hi hl _

end

theorem agrees_rename (s : FileStore Loc) {src dst l : Loc} (hsrc : l ≠ src) (hdst : l ≠ dst) :
    Agrees s (s.rename src dst) l := by
  refine ⟨?_, fun i _ => by rw [data_rename]⟩
  cases h : s.inode src with
  | none => rw [rename_of_none h]
  | some i =>
      by_cases hne : src = dst
      · unfold rename
        split
        · rfl
        · rw [if_pos hne]
      · rw [inode_rename h hne, Function.update_of_ne hdst, Function.update_of_ne hsrc]

theorem agrees_create (s : FileStore Loc) {l l' : Loc} (hl : l' ≠ l) (now : Int) :
    Agrees s (s.create l now).1 l' := by
  unfold create
  split
  · rename_i i hi
    exact agrees_modify_other hi hl fun _ => ⟨[], now⟩
  · refine ⟨Function.update_of_ne hl .., fun i hi => Function.update_of_ne ?_ ..⟩
    exact Nat.ne_of_lt (s.bounded l' i hi)

end FileStore

end RustdeskServer.Framework
