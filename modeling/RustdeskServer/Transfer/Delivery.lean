import RustdeskServer.Transfer.Receiver
import RustdeskServer.Transfer.Sender

/-!
# The receiving end when its own input and output succeed

`Receiving s k got` says that the receiver has the temporary file of entry `k`
open and has put `got` into it. A block of the same entry appends to it
(`write_continues`); a block of another entry commits what is in the temporary
file of the old one, a rename (`read_modifyTime`), and starts the new one
(`write_switches`).
-/

namespace RustdeskServer.Transfer

open RustdeskServer.Codec RustdeskServer.Framework TransferJob

variable {Loc : Type*} [DecidableEq Loc] (paths : Paths Loc)

/-- Where an entry ends up. -/
def finalLoc (path : PathBuf) (entry : FileEntry) : Loc :=
  paths.locate (entryPath path entry)

/-- Where an entry is while it is received. -/
def tempLoc (path : PathBuf) (entry : FileEntry) : Loc :=
  paths.locate (entryPath path entry ++ download)

structure Receiving (s : Receiver Loc) (k : ℕ) (entry : FileEntry) (got : Bytes) : Prop where
  num : asUsize s.job.fileNum = k
  entry_eq : s.job.files[k]? = some entry
  file : ∃ file, s.job.file = some file ∧
    s.disk.store.inode (tempLoc paths s.job.path entry) = some file.ino ∧
      (s.disk.store.data file.ino).content = got ∧ file.pos = got.length

variable {paths}

omit [DecidableEq Loc] in
theorem tempLoc_ne_finalLoc (paths : Paths Loc) (path : PathBuf) (entry : FileEntry) :
    tempLoc paths path entry ≠ finalLoc paths path entry :=
  paths.locate_download_ne _

omit [DecidableEq Loc] in
theorem Receiving.read_temp {s : Receiver Loc} {k : ℕ} {entry : FileEntry} {got : Bytes}
    (h : Receiving paths s k entry got) :
    s.disk.store.read (tempLoc paths s.job.path entry) = some got := by
  obtain ⟨file, -, hino, hgot, -⟩ := h.file
  rw [FileStore.read_of_inode hino, hgot]

/-- **What `modify_time` commits.** The temporary file of the current entry, if
there is one, takes the place of the final one; nothing else changes. -/
theorem read_modifyTime (paths : Paths Loc) {job : TransferJob} {k : ℕ} {entry : FileEntry}
    (hnum : asUsize job.fileNum = k) (hentry : job.files[k]? = some entry) (disk : Disk Loc)
    (now : Int) (l : Loc) :
    (job.modifyTime paths disk (.ok now)).store.read l =
      if l = finalLoc paths job.path entry then
        (disk.store.read (tempLoc paths job.path entry)).or (disk.store.read l)
      else if l = tempLoc paths job.path entry then none
      else disk.store.read l := by
  have hne := tempLoc_ne_finalLoc paths job.path entry
  unfold modifyTime
  rw [hnum, hentry]
  show (((disk.store.rename (tempLoc paths job.path entry) (finalLoc paths job.path entry)).setMtime
    _ _).read l) = _
  rw [FileStore.read_setMtime]
  split_ifs with hfinal htemp
  · rw [hfinal]
    cases hino : disk.store.inode (tempLoc paths job.path entry) with
    | none =>
        rw [FileStore.rename_of_none hino, FileStore.read_eq_none.mpr hino, Option.none_or]
    | some i =>
        rw [FileStore.read_of_inode hino, Option.some_or, FileStore.read,
          FileStore.lookup_rename_dst hino hne, Option.map_some]
  · rw [htemp]
    exact FileStore.read_eq_none.mpr (FileStore.inode_rename_src _ hne)
  · exact FileStore.read_congr (FileStore.lookup_rename_other _ htemp hfinal)

/-- What a successful `write` of a block does to the counters. -/
structure Counted (s s' : Receiver Loc) (z : Zstd) (block : FileTransferBlock) : Prop where
  same : SameList s.job s'.job
  finishedSize : s'.job.finishedSize =
    s.job.finishedSize + UInt64.ofNat (block.bytes z).length
  transfered : s'.job.transfered = s.job.transfered + UInt64.ofNat block.data.length

omit [DecidableEq Loc] in
theorem store_prepare (job : TransferJob) (disk : Disk Loc) (entry : FileEntry) :
    (job.prepare disk entry).store = disk.store := by
  unfold prepare Disk.createDirAll
  cases (job.join entry.name).parent <;> rfl

theorem store_leave (job : TransferJob) (disk : Disk Loc) (io : WriteIo) :
    (job.leave paths disk io).store = (job.modifyTime paths disk io).store := by
  unfold leave
  cases job.file <;> rfl

/-- The open file is at `l` and holds `got`, and the next bytes go behind it. -/
def OpenAt (s : Receiver Loc) (l : Loc) (got : Bytes) : Prop :=
  ∃ file, s.job.file = some file ∧ s.disk.store.inode l = some file.ino ∧
    (s.disk.store.data file.ino).content = got ∧ file.pos = got.length

omit [DecidableEq Loc] in
/-- Appending to the open file, wherever it is. -/
theorem appendBlock_ok {z : Zstd} {s : Receiver Loc} {l : Loc} {got : Bytes} {file : OpenFile}
    (hino : s.disk.store.inode l = some file.ino)
    (hgot : (s.disk.store.data file.ino).content = got) (hpos : file.pos = got.length)
    (block : FileTransferBlock) (now : Int) :
    let r := s.job.appendBlock s.disk file (block.bytes z) block (.ok now)
    r.1 = .ok () ∧ r.2.1.fileNum = s.job.fileNum ∧ Counted s ⟨r.2.1, r.2.2⟩ z block ∧
      OpenAt ⟨r.2.1, r.2.2⟩ l (got ++ block.bytes z) ∧
      r.2.2.store.inode = s.disk.store.inode ∧
      ∀ l', l' ≠ l → r.2.2.store.read l' = s.disk.store.read l' := by
  refine ⟨rfl, rfl, ⟨⟨rfl, rfl, rfl⟩, rfl, rfl⟩, ⟨_, rfl, hino, ?_, ?_⟩, rfl, ?_⟩
  · show ((s.disk.store.writeAt file.ino file.pos (block.bytes z) now).data
      file.ino).content = _
    rw [FileStore.writeAt, FileStore.data_modify_self, hgot, hpos, splice_end]
  · rw [List.length_append, ← hpos]
  · intro l' hl
    exact FileStore.read_congr (FileStore.lookup_modify_other hino hl _)

/-- A block of the entry the job is at is appended to the open file. -/
theorem write_appends (paths : Paths Loc) {z : Zstd} {s : Receiver Loc} {l : Loc} {got : Bytes}
    (h : OpenAt s l got) {block : FileTransferBlock} {entry : FileEntry}
    (haccepts : s.job.Accepts block entry)
    (hnum : asUsize block.fileNum = asUsize s.job.fileNum) (now : Int) :
    (s.write paths z block (.ok now)).1 = .ok () ∧
      (s.write paths z block (.ok now)).2.job.fileNum = s.job.fileNum ∧
      Counted s (s.write paths z block (.ok now)).2 z block ∧
      OpenAt (s.write paths z block (.ok now)).2 l (got ++ block.bytes z) ∧
      (s.write paths z block (.ok now)).2.disk.store.inode = s.disk.store.inode ∧
      ∀ l', l' ≠ l →
        (s.write paths z block (.ok now)).2.disk.store.read l' = s.disk.store.read l' := by
  obtain ⟨file, hfile, hino, hgot, hpos⟩ := h
  have ho : s.job.openFor paths s.disk block.fileNum entry (.ok now) =
      (.ok file, s.job, s.disk) := by
    unfold openFor
    rw [hfile]
    exact if_neg (not_not.mpr hnum)
  unfold Receiver.write
  rw [write_ok haccepts ho]
  exact appendBlock_ok hino hgot hpos block now

/-- A block of the entry being received is appended. -/
theorem write_continues {z : Zstd} {s : Receiver Loc} {k : ℕ} {entry : FileEntry}
    {got : Bytes} (h : Receiving paths s k entry got) {block : FileTransferBlock}
    (hid : block.id = s.job.id) (hnum : asUsize block.fileNum = k) (now : Int) :
    (s.write paths z block (.ok now)).1 = .ok () ∧
      Counted s (s.write paths z block (.ok now)).2 z block ∧
      Receiving paths (s.write paths z block (.ok now)).2 k entry (got ++ block.bytes z) ∧
      ∀ l, l ≠ tempLoc paths s.job.path entry →
        (s.write paths z block (.ok now)).2.disk.store.read l = s.disk.store.read l := by
  obtain ⟨hok, hfileNum, hcounted, hopen, -, hread⟩ := write_appends paths h.file
    ⟨hid, hnum ▸ h.entry_eq⟩ (hnum.trans h.num.symm) (z := z) now
  refine ⟨hok, hcounted, ⟨?_, ?_, ?_⟩, hread⟩
  · rw [hfileNum, h.num]
  · rw [hcounted.same.files, h.entry_eq]
  · rw [hcounted.same.path]
    exact hopen

/-- A created temporary file is empty and open. -/
theorem createDownload_receiving (paths : Paths Loc) {job : TransferJob} {k : ℕ} {entry : FileEntry}
    (hnum : asUsize job.fileNum = k) (hentry : job.files[k]? = some entry) (disk : Disk Loc)
    (now : Int) :
    ∃ file s₁, job.createDownload paths disk entry (.ok now) = (.ok file, s₁.job, s₁.disk) ∧
      s₁.job = { job with file := some file } ∧ Receiving paths s₁ k entry [] ∧
      ∀ l, l ≠ tempLoc paths job.path entry → s₁.disk.store.read l = disk.store.read l := by
  have hspec :=
    FileStore.create_spec (job.prepare disk entry).store (tempLoc paths job.path entry) now
  refine ⟨_, ⟨_, _⟩, createDownload_ok job disk entry rfl, rfl, ⟨hnum, hentry, ?_⟩, ?_⟩
  · exact ⟨_, rfl, hspec.1, congrArg FileData.content hspec.2, rfl⟩
  · intro l hl
    rw [← store_prepare job disk entry]
    exact FileStore.read_congr (FileStore.lookup_create_other _ hl _)

/-- A block of another entry commits the one being received and starts its own
temporary file. -/
theorem write_switches (paths : Paths Loc) {z : Zstd} {s : Receiver Loc} {block : FileTransferBlock}
    {entry : FileEntry} {k : ℕ} (hid : block.id = s.job.id) (hnum : asUsize block.fileNum = k)
    (hentry : s.job.files[k]? = some entry) (hmoves : s.job.Moves block.fileNum) (now : Int) :
    (s.write paths z block (.ok now)).1 = .ok () ∧
      Counted s (s.write paths z block (.ok now)).2 z block ∧
      Receiving paths (s.write paths z block (.ok now)).2 k entry (block.bytes z) ∧
      ∀ l, l ≠ tempLoc paths s.job.path entry →
        (s.write paths z block (.ok now)).2.disk.store.read l =
          (s.job.modifyTime paths s.disk (.ok now)).store.read l := by
  have haccepts : s.job.Accepts block entry := ⟨hid, hnum ▸ hentry⟩
  have ho : s.job.openFor paths s.disk block.fileNum entry (.ok now) =
      { s.job with fileNum := block.fileNum }.createDownload paths
        (s.job.leave paths s.disk (.ok now)) entry (.ok now) := by
    rcases openFor_cases paths s.job s.disk block.fileNum entry (.ok now) with
      ⟨file, hfile, hsame, -⟩ | ⟨file, -, -, hsync, -⟩ | ⟨-, -, ho⟩
    · rcases hmoves with hnone | hother
      · rw [hfile] at hnone
        cases hnone
      · exact absurd hsame hother
    · cases hsync
    · exact ho
  let job₀ : TransferJob := { s.job with fileNum := block.fileNum }
  obtain ⟨file, s₁, hmade, hjob, hreceiving, hread⟩ :=
    createDownload_receiving paths (show asUsize job₀.fileNum = k from hnum) hentry
      (s.job.leave paths s.disk (.ok now)) now
  obtain ⟨job₁, disk₁⟩ := s₁
  obtain rfl : job₁ = { job₀ with file := some file } := hjob
  obtain ⟨file', hfile', hino, hgot, hpos⟩ := hreceiving.file
  obtain rfl : file = file' := Option.some.inj hfile'
  obtain ⟨hres, -, hcount, hopen, -, hother⟩ :=
    appendBlock_ok (s := ⟨{ job₀ with file := some file }, disk₁⟩) (z := z) hino hgot hpos block now
  unfold Receiver.write
  rw [write_ok haccepts (ho.trans hmade)]
  refine ⟨hres, ⟨⟨hcount.same.id, hcount.same.path, hcount.same.files⟩,
    hcount.finishedSize, hcount.transfered⟩, ⟨hnum, hentry, hopen⟩, fun l hl => ?_⟩
  rw [← store_leave]
  exact (hother l hl).trans (hread l hl)

end RustdeskServer.Transfer
