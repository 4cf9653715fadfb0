import RustdeskServer.Transfer.TransferJob

/-!
# The receiving end as a machine

A receiver is a job with its disk; a call is `write`, `modify_time` or
`remove_download_file` with what the operating system answers. `openFor_cases`
says once what the file-switching part of `write` can do, `write_wrote` what
the whole call can do; the results about runs are read off these two.
-/

namespace RustdeskServer.Transfer

open RustdeskServer.Codec RustdeskServer.Framework

structure Receiver (Loc : Type*) where
  job : TransferJob
  disk : Disk Loc

inductive Call where
  | write (block : FileTransferBlock) (io : WriteIo)
  | modifyTime (io : WriteIo)
  | removeDownloadFile (io : WriteIo)

section
variable {Loc : Type*} [DecidableEq Loc] (paths : Paths Loc) (z : Zstd)

def Receiver.write (s : Receiver Loc) (block : FileTransferBlock) (io : WriteIo) :
    Except TransferError Unit × Receiver Loc :=
  let (res, job, disk) := s.job.write paths z s.disk block io
  (res, ⟨job, disk⟩)

def Receiver.step (s : Receiver Loc) : Call → Receiver Loc
  | .write block io => (s.write paths z block io).2
  | .modifyTime io => { s with disk := s.job.modifyTime paths s.disk io }
  | .removeDownloadFile io => { s with disk := s.job.removeDownloadFile paths s.disk io }

/-- A job made by `new_write` on a file system. -/
def Receiver.start (id : Int32) (path : PathBuf) (files : List FileEntry)
    (store : FileStore Loc) : Receiver Loc :=
  ⟨TransferJob.newWrite id path files, ⟨store, []⟩⟩

end

namespace TransferJob

variable {Loc : Type*} [DecidableEq Loc] {paths : Paths Loc} {z : Zstd}

/-- The disk once `write` has left the entry it was receiving. -/
def leave (paths : Paths Loc) (job : TransferJob) (disk : Disk Loc) (io : WriteIo) : Disk Loc :=
  match job.file with
  | none => job.modifyTime paths disk io
  | some file => (job.modifyTime paths disk io).logged (.syncAll file)

/-- The disk once `write` has asked for the entry's temporary file. -/
def prepare (job : TransferJob) (disk : Disk Loc) (entry : FileEntry) : Disk Loc :=
  (disk.createDirAll (job.join entry.name).parent).logged
    (.create (job.join entry.name ++ download))

theorem createDownload_ok (job : TransferJob) (disk : Disk Loc) (entry : FileEntry)
    {io : WriteIo} (h : io.creates = true) :
    job.createDownload paths disk entry io =
      let made := (job.prepare disk entry).store.create
        (paths.locate (job.join entry.name ++ download)) io.now
      let file : OpenFile := ⟨asUsize job.fileNum, made.2, 0⟩
      (.ok file, { job with file := some file },
        { job.prepare disk entry with store := made.1 }) := by
  unfold createDownload
  dsimp only
  rw [if_pos h]
  rfl

theorem createDownload_error (job : TransferJob) (disk : Disk Loc) (entry : FileEntry)
    {io : WriteIo} (h : io.creates = false) :
    job.createDownload paths disk entry io = (.error .io, job, job.prepare disk entry) := by
  unfold createDownload
  dsimp only
  rw [if_neg (by simp [h])]
  rfl

/-- `write` has to move to another entry's file. -/
def Moves (job : TransferJob) (fileNum : Int32) : Prop :=
  job.file = none ∨ asUsize fileNum ≠ asUsize job.fileNum

/-- **What opening can do.** It keeps the open file, or stops at a failed sync,
or leaves the entry and asks for the new one's temporary file. -/
theorem openFor_cases (paths : Paths Loc) (job : TransferJob) (disk : Disk Loc) (fileNum : Int32)
    (entry : FileEntry) (io : WriteIo) :
    (∃ file, job.file = some file ∧ asUsize fileNum = asUsize job.fileNum ∧
      job.openFor paths disk fileNum entry io = (.ok file, job, disk)) ∨
    (∃ file, job.file = some file ∧ asUsize fileNum ≠ asUsize job.fileNum ∧
      io.syncs = false ∧
      job.openFor paths disk fileNum entry io =
        (.error .io, job, job.leave paths disk io)) ∨
    (job.Moves fileNum ∧ (job.file = none ∨ io.syncs = true) ∧
      job.openFor paths disk fileNum entry io =
        { job with fileNum := fileNum }.createDownload paths (job.leave paths disk io)
          entry io) := by
  unfold openFor switchTo leave Moves
  cases hfile : job.file with
  | none => exact .inr (.inr ⟨.inl rfl, .inl rfl, rfl⟩)
  | some file =>
      dsimp only
      by_cases hnum : asUsize fileNum = asUsize job.fileNum
      · exact .inl ⟨file, rfl, hnum, if_neg (not_not.mpr hnum)⟩
      · rw [if_pos hnum]
        cases hsync : io.syncs with
        | true => exact .inr (.inr ⟨.inr hnum, .inr rfl, if_pos rfl⟩)
        | false => exact .inr (.inl ⟨file, rfl, hnum, rfl, if_neg (by simp)⟩)

/-- The block is for this job and one of its entries. -/
def Accepts (job : TransferJob) (block : FileTransferBlock) (entry : FileEntry) : Prop :=
  block.id = job.id ∧ job.files[asUsize block.fileNum]? = some entry

theorem write_not_accepted (paths : Paths Loc) (z : Zstd) {job : TransferJob}
    {block : FileTransferBlock} (h : ∀ entry, ¬ job.Accepts block entry) (disk : Disk Loc)
    (io : WriteIo) :
    ∃ err, job.write paths z disk block io = (.error err, job, disk) := by
  unfold write
  by_cases hid : block.id ≠ job.id
  · exact ⟨_, if_pos hid⟩
  · rw [if_neg hid]
    cases hentry : job.files[asUsize block.fileNum]? with
    | none => exact ⟨_, rfl⟩
    | some entry => exact absurd ⟨not_not.mp hid, hentry⟩ (h entry)

theorem write_refused {job : TransferJob} {disk : Disk Loc} {block : FileTransferBlock}
    {io : WriteIo} (h : ∀ entry, ¬ job.Accepts block entry) :
    (job.write paths z disk block io).2 = (job, disk) := by
  obtain ⟨err, hrefused⟩ := write_not_accepted paths z h disk io
  rw [hrefused]

theorem write_error {job job' : TransferJob} {disk disk' : Disk Loc} {err : TransferError}
    {block : FileTransferBlock} {entry : FileEntry} {io : WriteIo}
    (h : job.Accepts block entry)
    (ho : job.openFor paths disk block.fileNum entry io = (.error err, job', disk')) :
    job.write paths z disk block io = (.error err, job', disk') := by
  unfold write
  rw [if_neg (not_not.mpr h.1), h.2]
  dsimp only
  rw [ho]

theorem write_ok {job job' : TransferJob} {disk disk' : Disk Loc} {file : OpenFile}
    {block : FileTransferBlock} {entry : FileEntry} {io : WriteIo}
    (h : job.Accepts block entry)
    (ho : job.openFor paths disk block.fileNum entry io = (.ok file, job', disk')) :
    job.write paths z disk block io =
      job'.appendBlock disk' file (block.bytes z) block io := by
  unfold write
  rw [if_neg (not_not.mpr h.1), h.2]
  dsimp only
  rw [ho]

/-! ## What one `write` can do -/

/-- `job` after bytes went to `file` for the entry `fileNum`: the counters
apart, nothing else has changed. -/
structure Continues (job : TransferJob) (fileNum : Int32) (file : OpenFile) (bytes : Bytes)
    (job' : TransferJob) : Prop where
  id : job'.id = job.id
  path : job'.path = job.path
  files : job'.files = job.files
  fileNum : job'.fileNum = fileNum
  file : job'.file = some { file with pos := file.pos + bytes.length }

omit [DecidableEq Loc] in
theorem appendBlock_spec (job : TransferJob) (disk : Disk Loc) (file : OpenFile)
    (bytes : Bytes) (block : FileTransferBlock) (io : WriteIo) :
    ∃ written, Continues job job.fileNum file written
        (job.appendBlock disk file bytes block io).2.1 ∧
      (job.appendBlock disk file bytes block io).2.2 = disk.append file written io.now := by
  unfold appendBlock
  cases io.writes with
  | none => exact ⟨bytes, ⟨rfl, rfl, rfl, rfl, rfl⟩, rfl⟩
  | some n => exact ⟨bytes.take n, ⟨rfl, rfl, rfl, rfl, rfl⟩, rfl⟩

/-- The ways a `write` can end, by the job and the disk it leaves. -/
inductive Wrote (paths : Paths Loc) (job : TransferJob) (disk : Disk Loc)
    (block : FileTransferBlock) (io : WriteIo) : TransferJob → Disk Loc → Prop
  | refused : (∀ entry, ¬ job.Accepts block entry) → Wrote paths job disk block io job disk
  | notSynced (file : OpenFile) : job.file = some file →
      asUsize block.fileNum ≠ asUsize job.fileNum → io.syncs = false →
      Wrote paths job disk block io job (job.leave paths disk io)
  | notCreated (entry : FileEntry) : job.Accepts block entry → job.Moves block.fileNum →
      (job.file = none ∨ io.syncs = true) → io.creates = false →
      Wrote paths job disk block io { job with fileNum := block.fileNum }
        (job.prepare (job.leave paths disk io) entry)
  | appended (file : OpenFile) (entry : FileEntry) (bytes : Bytes) (job' : TransferJob) :
      job.Accepts block entry → job.file = some file →
      asUsize block.fileNum = asUsize job.fileNum →
      Continues job job.fileNum file bytes job' →
      Wrote paths job disk block io job' (disk.append file bytes io.now)
  | created (entry : FileEntry) (made : FileStore Loc × ℕ) (bytes : Bytes)
      (job' : TransferJob) : job.Accepts block entry → job.Moves block.fileNum →
      io.creates = true →
      Continues job block.fileNum ⟨asUsize block.fileNum, made.2, 0⟩ bytes job' →
      made = (job.prepare (job.leave paths disk io) entry).store.create
        (paths.locate (job.join entry.name ++ download)) io.now →
      Wrote paths job disk block io job'
        (({ job.prepare (job.leave paths disk io) entry with store := made.1 } :
          Disk Loc).append ⟨asUsize block.fileNum, made.2, 0⟩ bytes io.now)

theorem write_wrote (z : Zstd) (job : TransferJob) (disk : Disk Loc)
    (block : FileTransferBlock) (io : WriteIo) :
    Wrote paths job disk block io (job.write paths z disk block io).2.1
      (job.write paths z disk block io).2.2 := by
  by_cases hacc : ∃ entry, job.Accepts block entry
  · obtain ⟨entry, hentry⟩ := hacc
    rcases openFor_cases paths job disk block.fileNum entry io with
      ⟨file, hfile, hnum, ho⟩ | ⟨file, hfile, hnum, hsync, ho⟩ | ⟨hmoves, hsync, ho⟩
    · rw [write_ok hentry ho]
      obtain ⟨written, hjob, hdisk⟩ :=
        appendBlock_spec job disk file (block.bytes z) block io
      rw [hdisk]
      exact .appended file entry written _ hentry hfile hnum hjob
    · rw [write_error hentry ho]
      exact .notSynced file hfile hnum hsync
    · cases hcreates : io.creates with
      | true =>
          rw [createDownload_ok _ _ _ hcreates] at ho
          rw [write_ok hentry ho]
          obtain ⟨written, hjob, hdisk⟩ := appendBlock_spec _ _ _
            (block.bytes z) block io
          rw [hdisk]
          exact .created entry _ written _ hentry hmoves hcreates
            ⟨hjob.id, hjob.path, hjob.files, hjob.fileNum, hjob.file⟩ rfl
      | false =>
          rw [createDownload_error _ _ _ hcreates] at ho
          rw [write_error hentry ho]
          exact .notCreated entry hentry hmoves hsync hcreates
  · have hnone : ∀ entry, ¬ job.Accepts block entry := fun entry h => hacc ⟨entry, h⟩
    rw [write_refused hnone]
    exact .refused hnone

theorem wrote_same {job job' : TransferJob} {disk disk' : Disk Loc}
    {block : FileTransferBlock} {io : WriteIo} (h : Wrote paths job disk block io job' disk') :
    SameList job job' := by
  cases h with
  | refused | notSynced | notCreated => exact ⟨rfl, rfl, rfl⟩
  | appended _ _ _ _ _ _ _ hjob => exact ⟨hjob.id, hjob.path, hjob.files⟩
  | created _ _ _ _ _ _ _ hjob => exact ⟨hjob.id, hjob.path, hjob.files⟩

/-! ## What the operations ask of the file system -/

/-- The operations `modify_time` asks for on the current entry. -/
def modifyTimeOps (job : TransferJob) : List FsOp :=
  match job.files[asUsize job.fileNum]? with
  | none => []
  | some entry =>
      let path := job.join entry.name
      [.rename (path ++ download) path, .setMtime path (unixTime entry.modifiedTime)]

theorem log_modifyTime (job : TransferJob) (disk : Disk Loc) (io : WriteIo) :
    (job.modifyTime paths disk io).log = disk.log ++ job.modifyTimeOps := by
  unfold modifyTime modifyTimeOps
  cases job.files[asUsize job.fileNum]? with
  | none => exact (List.append_nil _).symm
  | some entry => exact List.append_assoc ..

theorem log_removeDownloadFile (job : TransferJob) (disk : Disk Loc) (io : WriteIo) :
    (job.removeDownloadFile paths disk io).log = disk.log ++
      match job.files[asUsize job.fileNum]? with
      | none => []
      | some entry => [.removeFile (job.join entry.name ++ download)] := by
  unfold removeDownloadFile
  cases job.files[asUsize job.fileNum]? with
  | none => exact (List.append_nil _).symm
  | some entry => rfl

def leaveOps (job : TransferJob) : List FsOp :=
  job.modifyTimeOps ++ (job.file.map FsOp.syncAll).toList

theorem log_leave (job : TransferJob) (disk : Disk Loc) (io : WriteIo) :
    (job.leave paths disk io).log = disk.log ++ job.leaveOps := by
  unfold leave leaveOps
  cases job.file with
  | none => rw [log_modifyTime, Option.map_none, Option.toList_none, List.append_nil]
  | some file => exact (congrArg (· ++ _) (log_modifyTime ..)).trans (List.append_assoc ..)

def prepareOps (job : TransferJob) (entry : FileEntry) : List FsOp :=
  ((job.join entry.name).parent.map FsOp.createDirAll).toList ++
    [.create (job.join entry.name ++ download)]

omit [DecidableEq Loc] in
theorem log_prepare (job : TransferJob) (disk : Disk Loc) (entry : FileEntry) :
    (job.prepare disk entry).log = disk.log ++ job.prepareOps entry := by
  unfold prepare prepareOps Disk.createDirAll
  cases (job.join entry.name).parent with
  | none => rfl
  | some dir => exact List.append_assoc ..

theorem log_prepare_leave (job : TransferJob) (disk : Disk Loc) (entry : FileEntry)
    (io : WriteIo) : (job.prepare (job.leave paths disk io) entry).log =
      disk.log ++ (job.leaveOps ++ job.prepareOps entry) := by
  rw [log_prepare, log_leave, List.append_assoc]

theorem log_created (job : TransferJob) (disk : Disk Loc) (entry : FileEntry) (io : WriteIo)
    (store : FileStore Loc) (file : OpenFile) (bytes : Bytes) :
    (({ job.prepare (job.leave paths disk io) entry with store := store } :
      Disk Loc).append file bytes io.now).log =
      disk.log ++ (job.leaveOps ++ job.prepareOps entry ++ [.append file bytes]) :=
  (congrArg (· ++ _) (log_prepare_leave job disk entry io)).trans (List.append_assoc ..)

/-- **What a `write` asks for**: closing the old entry, preparing the block's,
and appending. -/
theorem wrote_log {job job' : TransferJob} {disk disk' : Disk Loc}
    {block : FileTransferBlock} {io : WriteIo} (h : Wrote paths job disk block io job' disk') :
    ∃ ops, disk'.log = disk.log ++ ops ∧ ∀ op ∈ ops, op ∈ job.leaveOps ∨
      (∃ entry, job.Accepts block entry ∧ op ∈ job.prepareOps entry) ∨
        ∃ file bytes, op = .append file bytes := by
  cases h with
  | refused => exact ⟨[], (List.append_nil _).symm, fun op h => nomatch h⟩
  | notSynced => exact ⟨_, log_leave .., fun op h => .inl h⟩
  | notCreated entry hentry =>
      refine ⟨_, log_prepare_leave .., fun op h => ?_⟩
      exact (List.mem_append.mp h).imp_right fun hp => .inl ⟨entry, hentry, hp⟩
  | appended file entry bytes =>
      exact ⟨[.append file bytes], rfl, fun op h =>
        .inr (.inr ⟨file, bytes, List.mem_singleton.mp h⟩)⟩
  | created entry made bytes job' hentry =>
      refine ⟨_, log_created .., fun op h => ?_⟩
      rcases List.mem_append.mp h with h | h
      · exact (List.mem_append.mp h).imp_right fun hp => .inl ⟨entry, hentry, hp⟩
      · exact .inr (.inr ⟨_, bytes, List.mem_singleton.mp h⟩)

end TransferJob

theorem Receiver.step_wrote {Loc : Type*} [DecidableEq Loc] (paths : Paths Loc) (z : Zstd)
    (s : Receiver Loc) (block : FileTransferBlock) (io : WriteIo) :
    ∃ job' disk', s.step paths z (.write block io) = ⟨job', disk'⟩ ∧
      TransferJob.Wrote paths s.job s.disk block io job' disk' :=
  ⟨_, _, rfl, TransferJob.write_wrote z s.job s.disk block io⟩

end RustdeskServer.Transfer
