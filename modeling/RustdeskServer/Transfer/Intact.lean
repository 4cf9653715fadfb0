import RustdeskServer.Framework.Runs
import RustdeskServer.Transfer.Delivery

/-!
# Files that have been received stay as they are

An `Inbox` is a receiving job together with what the blocks of an honest sender
have carried so far: `next` is the entry the sender is at, which it leaves with an
empty block, and `got` what has come in for each entry. Its calls succeed, and
`modify_time` may be called at any moment.

The file of an entry that the job has moved on from is at its final place, where
a later entry with the same place, or with that place for its temporary file,
would write over it. `completed_intact_iff` says that nothing else can.
-/

namespace RustdeskServer.Transfer

open RustdeskServer.Codec RustdeskServer.Framework TransferJob

structure Inbox (Loc : Type*) where
  receiver : Receiver Loc
  next : ℕ
  got : ℕ → Bytes

inductive Arrival where
  | block (block : FileTransferBlock) (now : Int)
  | modifyTime (now : Int)

namespace Inbox

variable {Loc : Type*} [DecidableEq Loc] (paths : Paths Loc) (z : Zstd)

def start (id : Int32) (path : PathBuf) (files : List FileEntry) (store : FileStore Loc) :
    Inbox Loc :=
  ⟨.start id path files store, 0, fun _ => []⟩

def step (s : Inbox Loc) : Arrival → Inbox Loc
  | .block block now =>
      { receiver := s.receiver.step paths z (.write block (.ok now))
        next := if block.bytes z = [] then s.next + 1 else s.next
        got := Function.update s.got s.next (s.got s.next ++ block.bytes z) }
  | .modifyTime now => { s with receiver := s.receiver.step paths z (.modifyTime (.ok now)) }

/-- The block is for this job and the entry the sender is at. -/
def Honest (s : Inbox Loc) : Arrival → Prop
  | .block block _ => block.id = s.receiver.job.id ∧ asUsize block.fileNum = s.next ∧
      s.next < s.receiver.job.files.length
  | .modifyTime _ => True

instance (s : Inbox Loc) (arrival : Arrival) : Decidable (s.Honest arrival) := by
  cases arrival <;> unfold Honest <;> infer_instance

/-- Every entry the job has moved on from is at its final place, as it came in. -/
def Intact (s : Inbox Loc) : Prop :=
  ∀ i entry, i < asUsize s.receiver.job.fileNum → s.receiver.job.files[i]? = some entry →
    s.receiver.disk.store.read (finalLoc paths s.receiver.job.path entry) = some (s.got i)

end Inbox

/-- No entry's final place is the final or the temporary place of a later entry. -/
def PlacesApart {Loc : Type*} (paths : Paths Loc) (path : PathBuf) (files : List FileEntry) :
    Prop :=
  ∀ i j a b, i < j → j < 2 ^ 31 → files[i]? = some a → files[j]? = some b →
    finalLoc paths path a ≠ finalLoc paths path b ∧ finalLoc paths path a ≠ tempLoc paths path b

variable {Loc : Type*} [DecidableEq Loc] {paths : Paths Loc} {z : Zstd}

/-! ## The entry that is coming in -/

/-- The job is at entry `k`, of which it has `got`: in the temporary place or, after
an early `modify_time`, already in the final one. -/
structure Arriving (paths : Paths Loc) (s : Receiver Loc) (k : ℕ) (entry : FileEntry)
    (got : Bytes) : Prop where
  num : asUsize s.job.fileNum = k
  entry_eq : s.job.files[k]? = some entry
  place : OpenAt s (tempLoc paths s.job.path entry) got ∨
    OpenAt s (finalLoc paths s.job.path entry) got ∧
      s.disk.store.inode (tempLoc paths s.job.path entry) = none

omit [DecidableEq Loc] in
theorem Receiving.arriving {s : Receiver Loc} {k : ℕ} {entry : FileEntry} {got : Bytes}
    (h : Receiving paths s k entry got) : Arriving paths s k entry got :=
  ⟨h.num, h.entry_eq, Or.inl h.file⟩

omit [DecidableEq Loc] in
theorem OpenAt.read {s : Receiver Loc} {l : Loc} {got : Bytes} (h : OpenAt s l got) :
    s.disk.store.read l = some got := by
  obtain ⟨file, -, hino, hgot, -⟩ := h
  rw [FileStore.read_of_inode hino, hgot]

section
variable {s : Receiver Loc} {k : ℕ} {entry : FileEntry} {got : Bytes}

/-- **A block of the entry** goes to where its file is. -/
theorem Arriving.write (h : Arriving paths s k entry got) {block : FileTransferBlock}
    (hid : block.id = s.job.id) (hnum : asUsize block.fileNum = k) (now : Int) :
    Arriving paths (s.write paths z block (.ok now)).2 k entry (got ++ block.bytes z) ∧
      SameList s.job (s.write paths z block (.ok now)).2.job ∧
      ∀ l, l ≠ tempLoc paths s.job.path entry → l ≠ finalLoc paths s.job.path entry →
        (s.write paths z block (.ok now)).2.disk.store.read l = s.disk.store.read l := by
  have haccepts : s.job.Accepts block entry := ⟨hid, hnum ▸ h.entry_eq⟩
  have hsame : asUsize block.fileNum = asUsize s.job.fileNum := hnum.trans h.num.symm
  rcases h.place with hopen | ⟨hopen, hnone⟩
  · obtain ⟨-, hfileNum, hcounted, hopen', -, hread⟩ :=
      write_appends paths hopen haccepts hsame (z := z) now
    refine ⟨⟨hfileNum ▸ h.num, hcounted.same.files ▸ h.entry_eq, Or.inl ?_⟩, hcounted.same,
      fun l htemp _ => hread l htemp⟩
    rw [hcounted.same.path]
    exact hopen'
  · obtain ⟨-, hfileNum, hcounted, hopen', hinode, hread⟩ :=
      write_appends paths hopen haccepts hsame (z := z) now
    refine ⟨⟨hfileNum ▸ h.num, hcounted.same.files ▸ h.entry_eq, Or.inr ?_⟩, hcounted.same,
      fun l _ hfinal => hread l hfinal⟩
    rw [hcounted.same.path, hinode]
    exact ⟨hopen', hnone⟩

theorem modifyTime_store (paths : Paths Loc) {job : TransferJob} (hnum : asUsize job.fileNum = k)
    (hentry : job.files[k]? = some entry) (disk : Disk Loc) (now : Int) :
    (job.modifyTime paths disk (.ok now)).store =
      (disk.store.rename (tempLoc paths job.path entry) (finalLoc paths job.path entry)).setMtime
        (finalLoc paths job.path entry) (unixTime entry.modifiedTime) := by
  unfold modifyTime
  rw [hnum, hentry]
  rfl

/-- **`modify_time`** moves the file to its final place, if it is not there already. -/
theorem Arriving.modifyTime (h : Arriving paths s k entry got) (now : Int) :
    Arriving paths { s with disk := s.job.modifyTime paths s.disk (.ok now) } k entry got ∧
      (s.job.modifyTime paths s.disk (.ok now)).store.read (finalLoc paths s.job.path entry) =
        some got := by
  have hne := tempLoc_ne_finalLoc paths s.job.path entry
  have hmoved : OpenAt { s with disk := s.job.modifyTime paths s.disk (.ok now) }
        (finalLoc paths s.job.path entry) got ∧
      (s.job.modifyTime paths s.disk (.ok now)).store.inode
        (tempLoc paths s.job.path entry) = none := by
    rw [modifyTime_store paths h.num h.entry_eq, FileStore.inode_setMtime]
    refine ⟨?_, FileStore.inode_rename_src _ hne⟩
    rcases h.place with ⟨file, hfile, hino, hgot, hpos⟩ | ⟨⟨file, hfile, hino, hgot, hpos⟩, hnone⟩
    · refine ⟨file, hfile, ?_, ?_, hpos⟩
      · rw [modifyTime_store paths h.num h.entry_eq, FileStore.inode_setMtime,
          FileStore.inode_rename hino hne, Function.update_self]
      · rw [modifyTime_store paths h.num h.entry_eq, FileStore.content_setMtime,
          FileStore.data_rename, hgot]
    · refine ⟨file, hfile, ?_, ?_, hpos⟩
      · rw [modifyTime_store paths h.num h.entry_eq, FileStore.inode_setMtime,
          FileStore.rename_of_none hnone, hino]
      · rw [modifyTime_store paths h.num h.entry_eq, FileStore.content_setMtime,
          FileStore.rename_of_none hnone, hgot]
  exact ⟨⟨h.num, h.entry_eq, Or.inr hmoved⟩, hmoved.1.read⟩

end

/-! ## All of the inbox -/

theorem asUsize_lt {x : Int32} (h : asUsize x ≤ 2 ^ 31) : asUsize x < 2 ^ 31 := by
  by_contra hle
  have hx : (x.toBitVec.signExtend 64).toNat = 2 ^ 31 := Nat.le_antisymm h (Nat.le_of_not_lt hle)
  have hlt := x.toBitVec.isLt
  rw [BitVec.toNat_signExtend, BitVec.toNat_setWidth, BitVec.msb_eq_decide] at hx
  split_ifs at hx with hmsb
  · omega
  · rw [decide_eq_true_eq] at hmsb
    omega

namespace Inbox

/-- What every reachable inbox has: no block has come yet, or the entry the job is at
is coming in and the sender is at it or at the next. -/
structure Invariant (paths : Paths Loc) (path : PathBuf) (files : List FileEntry)
    (s : Inbox Loc) : Prop where
  path_eq : s.receiver.job.path = path
  files_eq : s.receiver.job.files = files
  small : asUsize s.receiver.job.fileNum < 2 ^ 31
  ahead : ∀ i, asUsize s.receiver.job.fileNum < i → s.got i = []
  arriving : s.receiver.job.file = none ∧ asUsize s.receiver.job.fileNum = 0 ∧ s.next = 0 ∧
      s.got 0 = [] ∨
    ∃ entry, Arriving paths s.receiver (asUsize s.receiver.job.fileNum) entry
        (s.got (asUsize s.receiver.job.fileNum)) ∧
      (s.next = asUsize s.receiver.job.fileNum ∨
        s.next = asUsize s.receiver.job.fileNum + 1)
  intact : s.Intact paths

variable {path : PathBuf} {files : List FileEntry} {s : Inbox Loc}

omit [DecidableEq Loc] in
theorem invariant_start (paths : Paths Loc) (id : Int32) (path : PathBuf)
    (files : List FileEntry) (store : FileStore Loc) :
    Invariant paths path files (start id path files store) where
  path_eq := rfl
  files_eq := rfl
  small := by show asUsize 0 < 2 ^ 31; decide
  ahead _ _ := rfl
  arriving := Or.inl ⟨rfl, rfl, rfl, rfl⟩
  intact i _ hi := absurd hi (Nat.not_lt_zero i)

theorem got_block_self (s : Inbox Loc) (block : FileTransferBlock) (now : Int) :
    (s.step paths z (.block block now)).got s.next = s.got s.next ++ block.bytes z :=
  Function.update_self ..

theorem got_block_of_ne (block : FileTransferBlock) (now : Int) {i : ℕ} (hi : i ≠ s.next) :
    (s.step paths z (.block block now)).got i = s.got i := Function.update_of_ne hi _ _

/-- The sender stays at its entry or goes to the next one. -/
theorem next_block (s : Inbox Loc) (block : FileTransferBlock) (now : Int) :
    (s.step paths z (.block block now)).next = s.next ∨
      (s.step paths z (.block block now)).next = s.next + 1 := by
  unfold step
  dsimp only
  split_ifs
  · exact Or.inr rfl
  · exact Or.inl rfl

theorem Invariant.modifyTime (hapart : PlacesApart paths path files)
    (h : Invariant paths path files s) (now : Int) :
    Invariant paths path files (s.step paths z (.modifyTime now)) := by
  refine ⟨h.path_eq, h.files_eq, h.small, h.ahead, ?_, ?_⟩
  · rcases h.arriving with hfresh | ⟨entry, harriving, hnext⟩
    · exact Or.inl hfresh
    · exact Or.inr ⟨entry, (harriving.modifyTime now).1, hnext⟩
  · intro i a hi ha
    have hkeeps : (s.receiver.job.modifyTime paths s.receiver.disk (.ok now)).store.read
        (finalLoc paths s.receiver.job.path a) =
          s.receiver.disk.store.read (finalLoc paths s.receiver.job.path a) := by
      rcases h.arriving with ⟨-, hzero, -⟩ | ⟨entry, harriving, -⟩
      · exact absurd (hzero ▸ hi) (Nat.not_lt_zero i)
      · obtain ⟨hfinal, htemp⟩ := hapart i _ a entry hi h.small (h.files_eq ▸ ha)
          (h.files_eq ▸ harriving.entry_eq)
        rw [← h.path_eq] at hfinal htemp
        rw [read_modifyTime paths harriving.num harriving.entry_eq, if_neg hfinal, if_neg htemp]
    exact hkeeps.trans (h.intact i a hi ha)

/-- A block of the entry that is coming in. -/
theorem Invariant.block_same (hapart : PlacesApart paths path files)
    (h : Invariant paths path files s) {entry : FileEntry}
    (harriving : Arriving paths s.receiver (asUsize s.receiver.job.fileNum) entry
      (s.got (asUsize s.receiver.job.fileNum)))
    {block : FileTransferBlock} {now : Int} (hid : block.id = s.receiver.job.id)
    (hnum : asUsize block.fileNum = s.next) (hnext : s.next = asUsize s.receiver.job.fileNum) :
    Invariant paths path files (s.step paths z (.block block now)) := by
  obtain ⟨hafter, hsame, hread⟩ := harriving.write hid (hnum.trans hnext) (z := z) now
  have hat : asUsize (s.step paths z (.block block now)).receiver.job.fileNum =
      asUsize s.receiver.job.fileNum := hafter.num
  have hgot : ∀ i, i ≠ asUsize s.receiver.job.fileNum →
      (s.step paths z (.block block now)).got i = s.got i :=
    fun i hi => got_block_of_ne block now (hnext ▸ hi)
  refine ⟨hsame.path.trans h.path_eq, hsame.files.trans h.files_eq, hat ▸ h.small, ?_, ?_, ?_⟩
  · intro i hi
    rw [hat] at hi
    rw [hgot i (Nat.ne_of_gt hi), h.ahead i hi]
  · refine Or.inr ⟨entry, ?_, ?_⟩
    · have hself : (s.step paths z (.block block now)).got s.next = _ := got_block_self s block now
      rw [hnext] at hself
      rw [hat, hself]
      exact hafter
    · rw [hat, ← hnext]
      exact next_block s block now
  · intro i a hi ha
    rw [hat] at hi
    have ha : s.receiver.job.files[i]? = some a := hsame.files ▸ ha
    obtain ⟨hfinal, htemp⟩ := hapart i _ a entry hi h.small (h.files_eq ▸ ha)
      (h.files_eq ▸ harriving.entry_eq)
    rw [← h.path_eq] at hfinal htemp
    rw [hgot i (Nat.ne_of_lt hi), ← h.intact i a hi ha]
    show (s.receiver.write paths z block (.ok now)).2.disk.store.read
      (finalLoc paths (s.receiver.write paths z block (.ok now)).2.job.path a) = _
    rw [hsame.path]
    exact hread _ htemp hfinal

/-- A block of an entry that the job has to move to. -/
theorem Invariant.block_moves (hapart : PlacesApart paths path files)
    (h : Invariant paths path files s) {block : FileTransferBlock} {now : Int}
    (hid : block.id = s.receiver.job.id) (hnum : asUsize block.fileNum = s.next)
    (hlt : s.next < s.receiver.job.files.length)
    (hmoves : s.receiver.job.Moves block.fileNum) (hsmall : s.next < 2 ^ 31)
    (hahead : ∀ i, s.next ≤ i → s.got i = [])
    (hdone : ∀ i a, i < s.next → s.receiver.job.files[i]? = some a →
      (s.receiver.job.modifyTime paths s.receiver.disk (.ok now)).store.read
        (finalLoc paths s.receiver.job.path a) = some (s.got i)) :
    Invariant paths path files (s.step paths z (.block block now)) := by
  obtain ⟨entry, hentry⟩ : ∃ entry, s.receiver.job.files[s.next]? = some entry :=
    ⟨_, List.getElem?_eq_getElem hlt⟩
  obtain ⟨-, hcounted, hreceiving, hread⟩ :=
    write_switches paths hid hnum hentry hmoves (z := z) now
  have hat : asUsize (s.step paths z (.block block now)).receiver.job.fileNum = s.next :=
    hreceiving.num
  have hsame : SameList s.receiver.job (s.step paths z (.block block now)).receiver.job :=
    hcounted.same
  have hgot : ∀ i, i ≠ s.next → (s.step paths z (.block block now)).got i = s.got i :=
    fun i hi => got_block_of_ne block now hi
  refine ⟨hsame.path.trans h.path_eq, hsame.files.trans h.files_eq, hat ▸ hsmall, ?_, ?_, ?_⟩
  · intro i hi
    rw [hat] at hi
    rw [hgot i (Nat.ne_of_gt hi), hahead i (Nat.le_of_lt hi)]
  · refine Or.inr ⟨entry, ?_, ?_⟩
    · rw [hat, got_block_self, hahead s.next (Nat.le_refl _), List.nil_append]
      exact hreceiving.arriving
    · rw [hat]
      exact next_block s block now
  · intro i a hi ha
    rw [hat] at hi
    have ha : s.receiver.job.files[i]? = some a := hsame.files ▸ ha
    have htemp := (hapart i s.next a entry hi hsmall (h.files_eq ▸ ha) (h.files_eq ▸ hentry)).2
    rw [← h.path_eq] at htemp
    rw [hsame.path, hgot i (Nat.ne_of_lt hi), ← hdone i a hi ha]
    exact hread _ htemp

/-- **What a step keeps**, as long as no place is an earlier entry's final one. -/
theorem invariant_step (hapart : PlacesApart paths path files) (h : Invariant paths path files s)
    (arrival : Arrival) (hhonest : s.Honest arrival) :
    Invariant paths path files (s.step paths z arrival) := by
  cases arrival with
  | modifyTime now => exact h.modifyTime hapart now
  | block block now =>
      obtain ⟨hid, hnum, hlt⟩ := hhonest
      rcases h.arriving with ⟨hnone, hzero, hfirst, hgot⟩ | ⟨entry, harriving, hsame | hmoved⟩
      · refine h.block_moves hapart hid hnum hlt (Or.inl hnone) (by omega) ?_ ?_
        · intro i hi
          rcases Nat.eq_zero_or_pos i with rfl | hpos
          · exact hgot
          · exact h.ahead i (hzero.symm ▸ hpos)
        · intro i a hi
          omega
      · exact h.block_same hapart harriving hid hnum hsame
      · have hmoves : asUsize block.fileNum ≠ asUsize s.receiver.job.fileNum := by omega
        have hsmall : s.next < 2 ^ 31 := by
          rw [← hnum]
          apply asUsize_lt
          have hbefore := h.small
          omega
        refine h.block_moves hapart hid hnum hlt (Or.inr hmoves) hsmall
          (fun i hi => h.ahead i (by omega)) ?_
        intro i a hi ha
        rcases Nat.lt_or_ge i (asUsize s.receiver.job.fileNum) with hearlier | hcurrent
        · -- an entry that was there before
          have hkept := (h.modifyTime hapart (z := z) now).intact
          exact hkept i a hearlier ha
        · obtain rfl : i = asUsize s.receiver.job.fileNum := by omega
          obtain rfl : a = entry := Option.some.inj (ha.symm.trans harriving.entry_eq)
          exact (harriving.modifyTime now).2

/-! ## Runs that show a clash -/

/-- What the entries of the run hold: entry `i` one byte, the others another. -/
def mark (i m : ℕ) : Bytes := if m = i then [1] else [2]

def plainBlock (id : Int32) (m : ℕ) (data : Bytes) : FileTransferBlock :=
  ⟨id, Int32.ofNat m, data, false⟩

def markedBlock (id : Int32) (m : ℕ) (data : Bytes) : Arrival := .block (plainBlock id m data) 0

/-- The blocks of the first `n` entries, two for each. -/
def marked (id : Int32) (i : ℕ) : ℕ → List Arrival
  | 0 => []
  | n + 1 => marked id i n ++ [markedBlock id n (mark i n), markedBlock id n []]

/-- The state after `n` entries. -/
structure Marked (paths : Paths Loc) (id : Int32) (path : PathBuf) (files : List FileEntry)
    (i n : ℕ) (s : Inbox Loc) : Prop where
  same : SameList (newWrite id path files) s.receiver.job
  next : s.next = n
  got : ∀ m, s.got m = if m < n then mark i m else []
  receiving : s.receiver.job.file = none ∧ n = 0 ∨
    ∃ m entry, n = m + 1 ∧ Receiving paths s.receiver m entry (mark i m)

theorem next_markedBlock (s : Inbox Loc) (id : Int32) (m : ℕ) (data : Bytes) :
    (s.step paths z (markedBlock id m data)).next =
      if data = [] then s.next + 1 else s.next := rfl

theorem got_markedBlock (s : Inbox Loc) (id : Int32) (m : ℕ) (data : Bytes) :
    (s.step paths z (markedBlock id m data)).got =
      Function.update s.got s.next (s.got s.next ++ data) := rfl

theorem marked_block {id : Int32} {i n : ℕ} (h : Marked paths id path files i n s)
    (hlt : n < files.length) (hsmall : n < 2 ^ 31) :
    s.Honest (markedBlock id n (mark i n)) ∧
      (s.step paths z (markedBlock id n (mark i n))).Honest (markedBlock id n []) ∧
      Marked paths id path files i (n + 1)
        ((s.step paths z (markedBlock id n (mark i n))).step paths z (markedBlock id n [])) := by
  have hlength : n < s.receiver.job.files.length := by rw [h.same.files]; exact hlt
  obtain ⟨entry, hentry⟩ : ∃ entry, s.receiver.job.files[n]? = some entry :=
    ⟨_, List.getElem?_eq_getElem hlength⟩
  have hid : (plainBlock id n (mark i n)).id = s.receiver.job.id := h.same.id.symm
  have hnum : asUsize (plainBlock id n (mark i n)).fileNum = n := asUsize_ofNat hsmall
  have hmoves : s.receiver.job.Moves (Int32.ofNat n) := by
    rcases h.receiving with ⟨hnone, -⟩ | ⟨m, previous, rfl, hreceiving⟩
    · exact Or.inl hnone
    · refine Or.inr ?_
      rw [asUsize_ofNat hsmall, hreceiving.num]
      exact Nat.succ_ne_self m
  have hmark : mark i n ≠ [] := by
    unfold mark
    split_ifs <;> exact List.cons_ne_nil _ _
  obtain ⟨-, hcounted, hreceiving, -⟩ :=
    write_switches paths hid hnum hentry hmoves (z := z) 0
  have hnext : (s.step paths z (markedBlock id n (mark i n))).next = n := by
    rw [next_markedBlock, if_neg hmark, h.next]
  have hid' : (plainBlock id n []).id = _ := hid.trans hcounted.same.id.symm
  have hnum' : asUsize (plainBlock id n []).fileNum = n := asUsize_ofNat hsmall
  obtain ⟨-, hcounted', hreceiving', -⟩ := write_continues hreceiving hid' hnum' (z := z) 0
  refine ⟨⟨hid, hnum.trans h.next.symm, h.next ▸ hlength⟩,
    ⟨hid', hnum'.trans hnext.symm, ?_⟩, ⟨?_, ?_, ?_, ?_⟩⟩
  · rw [hnext]
    exact lt_of_lt_of_eq hlength (congrArg List.length hcounted.same.files.symm)
  · exact ⟨hcounted'.same.id.trans (hcounted.same.id.trans h.same.id),
      hcounted'.same.path.trans (hcounted.same.path.trans h.same.path),
      hcounted'.same.files.trans (hcounted.same.files.trans h.same.files)⟩
  · rw [next_markedBlock, if_pos rfl, hnext]
  · intro m
    rw [got_markedBlock, hnext, List.append_nil, Function.update_eq_self, got_markedBlock, h.next,
      h.got n, if_neg (Nat.lt_irrefl n), List.nil_append]
    rcases Nat.lt_trichotomy m n with hbefore | rfl | hafter
    · rw [Function.update_of_ne (Nat.ne_of_lt hbefore), h.got, if_pos hbefore,
        if_pos (Nat.lt_succ_of_lt hbefore)]
    · rw [Function.update_self, if_pos (Nat.lt_succ_self m)]
    · rw [Function.update_of_ne (Nat.ne_of_gt hafter), h.got, if_neg (Nat.lt_asymm hafter),
        if_neg (Nat.not_lt.mpr hafter)]
  · have hbytes : (plainBlock id n (mark i n)).bytes z ++ (plainBlock id n []).bytes z =
        mark i n := List.append_nil _
    rw [hbytes] at hreceiving'
    exact Or.inr ⟨n, entry, rfl, hreceiving'⟩

theorem marked_run (paths : Paths Loc) (z : Zstd) (id : Int32) (path : PathBuf)
    {files : List FileEntry} (i : ℕ) {n : ℕ} (hlen : n ≤ files.length) (hsmall : n ≤ 2 ^ 31) :
    Along (step paths z) Honest (start id path files .empty) (marked id i n) ∧
      Marked paths id path files i n
        ((marked id i n).foldl (step paths z) (start id path files .empty)) := by
  induction n with
  | zero =>
      refine ⟨trivial, SameList.refl _, rfl, fun m => ?_, Or.inl ⟨rfl, rfl⟩⟩
      exact (if_neg (Nat.not_lt_zero m)).symm
  | succ n ih =>
      obtain ⟨hhonest, hmarked⟩ := ih (Nat.le_of_succ_le hlen) (Nat.le_of_succ_le hsmall)
      obtain ⟨hfirst, hsecond, hafter⟩ := marked_block (z := z) hmarked hlen hsmall
      rw [marked, List.foldl_append, along_append]
      exact ⟨⟨hhonest, hfirst, hsecond, trivial⟩, hafter⟩

/-- Where the run ends up: entry `j` has come in, and an earlier one should be intact. -/
theorem marked_end (paths : Paths Loc) (z : Zstd) (id : Int32) (path : PathBuf)
    {files : List FileEntry} {i j : ℕ} {b : FileEntry} (hij : i < j) (hsmall : j < 2 ^ 31)
    (hb : files[j]? = some b) :
    ∃ s, Along (step paths z) Honest (start id path files .empty) (marked id i (j + 1)) ∧
      (marked id i (j + 1)).foldl (step paths z) (start id path files .empty) = s ∧
      SameList (newWrite id path files) s.receiver.job ∧ s.got i = [1] ∧
      Receiving paths s.receiver j b [2] := by
  have hlt : j < files.length := (List.getElem?_eq_some_iff.mp hb).1
  obtain ⟨hhonest, hmarked⟩ := marked_run paths z id path i hlt hsmall
  refine ⟨_, hhonest, rfl, hmarked.same, ?_, ?_⟩
  · rw [hmarked.got i, if_pos (Nat.lt_succ_of_lt hij), mark, if_pos rfl]
  · rcases hmarked.receiving with ⟨-, hzero⟩ | ⟨m, entry, hm, hreceiving⟩
    · cases hzero
    · obtain rfl : j = m := Nat.succ.inj hm
      obtain rfl : entry = b := by
        have hentry := hreceiving.entry_eq
        rw [hmarked.same.files] at hentry
        exact Option.some.inj (hentry.symm.trans hb)
      rw [mark, if_neg (Nat.ne_of_gt hij)] at hreceiving
      exact hreceiving

/-- **When what has been received stays as it is.** For every list of entries, every
content of the disk and every honest run, with `modify_time` called at any moment:
the entries the job has moved on from are at their final places, as they came in, if
and only if no entry's final place is the final or the temporary place of a later
one. -/
theorem completed_intact_iff (paths : Paths Loc) (z : Zstd) (id : Int32) (path : PathBuf)
    (files : List FileEntry) :
    (∀ store arrivals, Along (step paths z) Honest (start id path files store) arrivals →
      Always (step paths z) (Intact paths) (start id path files store) arrivals) ↔
      PlacesApart paths path files := by
  constructor
  · intro hintact i j a b hij hsmall ha hb
    obtain ⟨s, hhonest, hs, hsame, hgot, hreceiving⟩ :=
      marked_end paths z id path hij hsmall hb
    have hpath : s.receiver.job.path = path := hsame.path
    have ha' : s.receiver.job.files[i]? = some a := by rw [hsame.files]; exact ha
    have hi : i < asUsize s.receiver.job.fileNum := hreceiving.num.symm ▸ hij
    constructor
    · -- one more `modify_time` puts the later entry in the earlier one's place
      intro hfinal
      have hhonest' : Along (step paths z) Honest (start id path files .empty)
          (marked id i (j + 1) ++ [.modifyTime 0]) :=
        (along_append _ _).mpr ⟨hhonest, trivial, trivial⟩
      have hkept := (hintact _ _ hhonest').final
      rw [List.foldl_append, hs] at hkept
      have hread := hkept i a hi ha'
      have hread' := (hreceiving.arriving.modifyTime 0).2
      rw [hpath, ← hfinal] at hread'
      have heq : s.got i = [2] := by
        refine Option.some.inj (hread.symm.trans ?_)
        rw [← hread', ← hpath]
        rfl
      rw [hgot] at heq
      exact absurd heq (by decide)
    · intro htemp
      have hkept := (hintact _ _ hhonest).final
      rw [hs] at hkept
      have hread := hkept i a hi ha'
      rw [hpath, htemp, ← hpath, hreceiving.read_temp, hgot] at hread
      exact absurd (Option.some.inj hread) (by decide)
  · intro hapart store arrivals hhonest
    have hinv : Always (step paths z) (Invariant paths path files) (start id path files store)
        arrivals :=
      always_of_along (fun s arrival hs hh => invariant_step hapart hs arrival hh)
        (invariant_start paths id path files store) hhonest
    exact hinv.mono fun s hs => hs.intact

/-- Two names, the first of which is the second with the suffix. -/
def suffixed : List FileEntry := [⟨"f.download".toList, 1, 0⟩, ⟨"f".toList, 1, 0⟩]

/-- The first file has come in and been renamed; the first block of the second one
takes its place. -/
theorem completed_file_overwritten :
    (suffixed.map FileEntry.name).Nodup ∧
      Along (step .lexical .framed) Honest (start 1 "d".toList suffixed .empty)
        [markedBlock 1 0 [1], markedBlock 1 0 [], markedBlock 1 1 [2]] ∧
      ¬ Intact .lexical ([markedBlock 1 0 [1], markedBlock 1 0 [], markedBlock 1 1 [2]].foldl
        (step .lexical .framed) (start 1 "d".toList suffixed .empty)) := by
  refine ⟨by decide, by decide, fun h => ?_⟩
  have hread := h 0 ⟨"f.download".toList, 1, 0⟩ (by decide) rfl
  revert hread
  decide

end Inbox

end RustdeskServer.Transfer
