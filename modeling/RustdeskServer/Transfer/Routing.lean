import RustdeskServer.Framework.Runs
import RustdeskServer.Transfer.Receiver

/-!
# Blocks reach the file of their entry

`InStep` says that the open file is the one opened for the current entry.
`write` sets `file_num` before it creates the new temporary file and replaces
the handle only after; when the creation fails in between, the old handle stays
with the new number, and the next block of that number goes to the old file.
`routed_iff` says that this is the only way to send bytes astray: a run is
routed exactly when no creation fails at a switch with a file still open.
-/

namespace RustdeskServer.Transfer

open RustdeskServer.Codec RustdeskServer.Framework TransferJob

variable {Loc : Type*} [DecidableEq Loc] {paths : Paths Loc} {z : Zstd}

/-- The open file was opened for the current entry. -/
def InStep (s : Receiver Loc) : Prop :=
  ∀ file, s.job.file = some file → file.entry = asUsize s.job.fileNum

/-- The open file was created as the temporary file of the entry it is for. -/
def Opened (s : Receiver Loc) : Prop :=
  ∀ file, s.job.file = some file → ∃ entry, s.job.files[file.entry]? = some entry ∧
    .create (s.job.join entry.name ++ download) ∈ s.disk.log

/-- Bytes written during a call are those of a block, and go to the file that
was created as the temporary file of the block's entry. -/
def Routed (paths : Paths Loc) (z : Zstd) (s : Receiver Loc) (call : Call) : Prop :=
  ∀ file bytes, .append file bytes ∈ (s.step paths z call).disk.log.drop s.disk.log.length →
    ∃ block io entry, call = .write block io ∧ s.job.Accepts block entry ∧
      file.entry = asUsize block.fileNum ∧
      .create (s.job.join entry.name ++ download) ∈ (s.step paths z call).disk.log

/-- `File::create` does not fail at a switch that has a file still open. -/
def CreatesAtSwitch (s : Receiver Loc) : Call → Prop
  | .write block io => (∃ entry, s.job.Accepts block entry) → s.job.file ≠ none →
      asUsize block.fileNum ≠ asUsize s.job.fileNum → io.syncs = true → io.creates = true
  | _ => True

/-! ## One call -/

theorem inStep_write_iff {s : Receiver Loc} (h : InStep s) (block : FileTransferBlock)
    (io : WriteIo) :
    InStep (s.step paths z (.write block io)) ↔ CreatesAtSwitch s (.write block io) := by
  obtain ⟨job₁, disk₁, hstep, hwrote⟩ := s.step_wrote paths z block io
  rw [hstep]
  cases hwrote with
  | refused hnone =>
      constructor
      · rintro - ⟨entry, hentry⟩
        exact absurd hentry (hnone entry)
      · intro _
        exact h
  | notSynced file hfile hnum hsync =>
      constructor
      · intro _ _ _ _ hsynced
        rw [hsync] at hsynced
        cases hsynced
      · intro _
        exact h
  | notCreated entry hentry hmoves hsync hcreates =>
      -- the number has moved on, the handle has not
      constructor
      · intro hin _ hopen hnum
        obtain ⟨file, hfile⟩ := Option.ne_none_iff_exists'.mp hopen
        exact absurd ((hin file hfile).symm.trans (h file hfile)) hnum
      · intro hok file hfile
        have hopen : s.job.file ≠ none := Option.ne_none_iff_exists'.mpr ⟨file, hfile⟩
        have hmade := hok ⟨entry, hentry⟩ hopen (hmoves.resolve_left hopen)
          (hsync.resolve_left hopen)
        rw [hcreates] at hmade
        cases hmade
  | appended file entry bytes job' hentry hfile hnum hjob =>
      constructor
      · intro _ _ _ hne
        exact absurd hnum hne
      · intro _ file' hfile'
        rw [hjob.file] at hfile'
        cases hfile'
        rw [hjob.fileNum]
        exact h file hfile
  | created entry made bytes job' hentry hmoves hcreates hjob =>
      constructor
      · intro _ _ _ _ _
        exact hcreates
      · intro _ file' hfile'
        rw [hjob.file] at hfile'
        cases hfile'
        rw [hjob.fileNum]

theorem inStep_step_iff {s : Receiver Loc} (h : InStep s) (call : Call) :
    InStep (s.step paths z call) ↔ CreatesAtSwitch s call := by
  cases call with
  | write block io => exact inStep_write_iff h block io
  | modifyTime io => exact ⟨fun _ => trivial, fun _ => h⟩
  | removeDownloadFile io => exact ⟨fun _ => trivial, fun _ => h⟩

theorem append_notMem_leaveOps (job : TransferJob) (file : OpenFile) (bytes : Bytes) :
    .append file bytes ∉ job.leaveOps := by
  unfold leaveOps modifyTimeOps
  cases job.files[asUsize job.fileNum]? <;> cases job.file <;> simp

theorem append_notMem_prepareOps (job : TransferJob) (entry : FileEntry) (file : OpenFile)
    (bytes : Bytes) : .append file bytes ∉ job.prepareOps entry := by
  unfold prepareOps
  cases (job.join entry.name).parent <;> simp

omit [DecidableEq Loc] in
theorem Opened.extend {s : Receiver Loc} (h : Opened s) {disk' : Disk Loc} {ops : List FsOp}
    (hlog : disk'.log = s.disk.log ++ ops) : Opened ⟨s.job, disk'⟩ := by
  intro file hfile
  obtain ⟨entry, hentry, hmem⟩ := h file hfile
  exact ⟨entry, hentry, hlog ▸ List.mem_append_left _ hmem⟩

theorem create_mem_prepareOps (job : TransferJob) (entry : FileEntry) :
    .create (job.join entry.name ++ download) ∈ job.prepareOps entry :=
  List.mem_append_right _ (List.mem_singleton_self _)

theorem opened_step {s : Receiver Loc} (h : Opened s) (call : Call) :
    Opened (s.step paths z call) := by
  cases call with
  | modifyTime io => exact h.extend (log_modifyTime ..)
  | removeDownloadFile io => exact h.extend (log_removeDownloadFile ..)
  | write block io =>
      obtain ⟨job₁, disk₁, hstep, hwrote⟩ := s.step_wrote paths z block io
      obtain ⟨ops, hlog, -⟩ := wrote_log hwrote
      rw [hstep]
      cases hwrote with
      | refused | notSynced | notCreated => exact h.extend hlog
      | appended file entry bytes _ hentry hfile hnum hjob =>
          intro file' hfile'
          rw [hjob.file] at hfile'
          cases hfile'
          obtain ⟨entry', hentry', hmem⟩ := h.extend hlog file hfile
          refine ⟨entry', hjob.files ▸ hentry', ?_⟩
          rw [join, hjob.path]
          exact hmem
      | created entry made bytes _ hentry hmoves hcreates hjob =>
          intro file' hfile'
          rw [hjob.file] at hfile'
          cases hfile'
          refine ⟨entry, hjob.files ▸ hentry.2, ?_⟩
          rw [join, hjob.path, log_created]
          exact List.mem_append_right _ (List.mem_append_left _
            (List.mem_append_right _ (create_mem_prepareOps s.job entry)))

theorem routed_of_inStep {s : Receiver Loc} (ho : Opened s) (h : InStep s) (call : Call) :
    Routed paths z s call := by
  intro file bytes hmem
  cases call with
  | modifyTime io =>
      have hlog : (s.step paths z (.modifyTime io)).disk.log = _ := log_modifyTime ..
      rw [hlog, List.drop_left] at hmem
      exact absurd (List.mem_append_left _ hmem) (append_notMem_leaveOps s.job file bytes)
  | removeDownloadFile io =>
      have hlog : (s.step paths z (.removeDownloadFile io)).disk.log = _ :=
        log_removeDownloadFile ..
      rw [hlog, List.drop_left] at hmem
      cases hentry : s.job.files[asUsize s.job.fileNum]? with
      | none => rw [hentry] at hmem; cases hmem
      | some entry => rw [hentry] at hmem; simp at hmem
  | write block io =>
      obtain ⟨job₁, disk₁, hstep, hwrote⟩ := s.step_wrote paths z block io
      rw [hstep] at hmem ⊢
      cases hwrote with
      | refused => rw [List.drop_length] at hmem; cases hmem
      | notSynced =>
          rw [log_leave, List.drop_left] at hmem
          exact absurd hmem (append_notMem_leaveOps s.job file bytes)
      | notCreated entry =>
          rw [log_prepare_leave, List.drop_left] at hmem
          rcases List.mem_append.mp hmem with hmem | hmem
          · exact absurd hmem (append_notMem_leaveOps s.job file bytes)
          · exact absurd hmem (append_notMem_prepareOps s.job entry file bytes)
      | appended open' entry written _ hentry hfile hnum hjob =>
          have hlog : (s.disk.append open' written io.now).log =
            s.disk.log ++ [.append open' written] := rfl
          rw [hlog, List.drop_left] at hmem
          cases List.mem_singleton.mp hmem
          have hnum' : file.entry = asUsize block.fileNum := (h file hfile).trans hnum.symm
          obtain ⟨entry', hentry', hcreate⟩ := ho file hfile
          rw [hnum', hentry.2] at hentry'
          cases hentry'
          exact ⟨block, io, entry, rfl, hentry, hnum', List.mem_append_left _ hcreate⟩
      | created entry made written _ hentry hmoves hcreates hjob =>
          rw [log_created, List.drop_left] at hmem
          have hnew : FsOp.append file bytes =
              .append ⟨asUsize block.fileNum, made.2, 0⟩ written := by
            rcases List.mem_append.mp hmem with hmem | hmem
            · rcases List.mem_append.mp hmem with hmem | hmem
              · exact absurd hmem (append_notMem_leaveOps s.job file bytes)
              · exact absurd hmem (append_notMem_prepareOps s.job entry file bytes)
            · exact List.mem_singleton.mp hmem
          cases hnew
          refine ⟨block, io, entry, rfl, hentry, rfl, ?_⟩
          rw [log_created]
          exact List.mem_append_right _ (List.mem_append_left _
            (List.mem_append_right _ (create_mem_prepareOps s.job entry)))

/-! ## Runs -/

/-- **Routing, exactly.** Over every run of a job made by `new_write`, the open
file is the current entry's and all bytes go to the file created for their
block's entry, if and only if `File::create` never fails at a switch with a
file open. -/
theorem routed_iff (paths : Paths Loc) (z : Zstd) (id : Int32) (path : PathBuf)
    (files : List FileEntry) (store : FileStore Loc) (calls : List Call) :
    (Always (Receiver.step paths z) InStep (.start id path files store) calls ∧
      Along (Receiver.step paths z) (Routed paths z) (.start id path files store) calls) ↔
      Along (Receiver.step paths z) CreatesAtSwitch (.start id path files store) calls := by
  have hopened : Opened (Receiver.start id path files store) := fun _ h => nomatch h
  have hstart : InStep (Receiver.start id path files store) := fun _ h => nomatch h
  have hiff : Always (Receiver.step paths z) InStep (.start id path files store) calls ↔
      Along (Receiver.step paths z) CreatesAtSwitch (.start id path files store) calls :=
    always_iff_along (B := Opened) (fun _ call h _ => opened_step h call)
      (fun _ call _ _ h => inStep_step_iff h call) (along_true calls) hopened hstart
  constructor
  · rintro ⟨hinStep, -⟩
    exact hiff.mp hinStep
  · intro h
    have hboth : Always (Receiver.step paths z) (fun s => Opened s ∧ InStep s)
        (.start id path files store) calls := by
      apply always_of_along _ ⟨hopened, hstart⟩ h
      intro s call hs hc
      exact ⟨opened_step hs.1 call, (inStep_step_iff hs.2 call).mpr hc⟩
    refine ⟨hiff.mpr h, ?_⟩
    apply along_of_always _ hboth
    intro s call hs
    exact routed_of_inStep hs.1 hs.2 call

/-- A job for two files in the directory `d`. -/
def twoFiles : Receiver (List Component) :=
  .start 1 "d".toList [⟨"a".toList, 1, 0⟩, ⟨"b".toList, 1, 0⟩] .empty

/-- A block of each file; the second one's file cannot be created the first
time it arrives. -/
def createFails : List Call :=
  [.write ⟨1, 0, [1], false⟩ (.ok 0),
    .write ⟨1, 1, [2], false⟩ { WriteIo.ok 0 with creates := false },
    .write ⟨1, 1, [2], false⟩ (.ok 0)]

/-- The block of `b` that follows the failed creation is appended to `a`, which
already has its final name. -/
theorem block_in_other_file :
    ¬ Always (Receiver.step .lexical .framed) InStep twoFiles createFails ∧
      ¬ Along (Receiver.step .lexical .framed) (Routed .lexical .framed) twoFiles
        createFails ∧
      (createFails.foldl (Receiver.step .lexical .framed) twoFiles).disk.store.read
        (Paths.lexical.locate "d/a".toList) = some [1, 2] := by
  refine ⟨?_, ?_, by decide⟩
  · intro h
    have hnum := h.final createFails ⟨0, 0, 2⟩ (by decide)
    exact absurd hnum (by decide)
  · intro h
    obtain ⟨block, io, entry, hcall, -, hnum, -⟩ := h.2.2.1 ⟨0, 0, 1⟩ [2] (by decide)
    cases hcall
    exact absurd hnum (by decide)

end RustdeskServer.Transfer
