import RustdeskServer.Transfer.Completion
import RustdeskServer.Transfer.Pipe

/-!
# The numbers in the messages of a read job

A block carries the number of its entry from before `read` moves the job on; an
error is sent with the number the job has after it. Both ways in which a `read` can
fail move the job on first, so an error names the entry behind the one that failed.
-/

namespace RustdeskServer.Transfer

open RustdeskServer.Framework

/-! ## Numbers -/

theorem fileNum_succ_ne (x : Int32) : x + 1 ≠ x := by
  intro h
  have hbits : (x.toBitVec.toNat + 1) % 2 ^ 32 = x.toBitVec.toNat :=
    congrArg (fun y : Int32 => y.toBitVec.toNat) h
  have hlt := x.toBitVec.isLt
  omega

section
variable {Loc : Type*} {paths : Paths Loc} {z : Zstd} {source : FileStore Loc}

/-! ## One `read` -/

/-- A block has the number of the entry the job was at. -/
theorem read_block_fileNum {job : TransferJob} {io : ReadIo} {block : FileTransferBlock}
    (h : (job.read paths z source io).1 = .ok (some block)) : block.fileNum = job.fileNum := by
  generalize hres : job.read paths z source io = res at h
  cases took_of_read hres with
  | nothing | unopened | unread => cases h
  | ended =>
      cases h
      exact ofNat_asUsize job.fileNum
  | filled =>
      cases h
      exact ofNat_asUsize job.fileNum

/-- **Both error paths move on**: the job is behind the entry that failed. -/
theorem read_error_fileNum {job : TransferJob} {io : ReadIo} {err : TransferError}
    (h : (job.read paths z source io).1 = .error err) :
    (job.read paths z source io).2.fileNum = job.fileNum + 1 ∧ job.exhausted = false := by
  generalize hres : job.read paths z source io = res at h ⊢
  have hleft {entry : FileEntry} (hentry : job.files[asUsize job.fileNum]? = some entry) :
      job.exhausted = false := by
    rw [TransferJob.exhausted, hentry]
    rfl
  cases took_of_read hres with
  | nothing | ended | filled => cases h
  | unopened entry hentry => exact ⟨rfl, hleft hentry⟩
  | unread entry file hentry => exact ⟨rfl, hleft hentry⟩

/-! ## The messages of a call -/

/-- **An error names the next entry.** For every vector of jobs and every call: up to
the first send that fails, just one message is sent for each job, in order. Where the
job's `read` returned a block, that message has the number of the entry the block is of;
where an entry failed, whichever and however, the message is the error with the next
number, so it never has that of the entry. -/
theorem errors_name_next_entry (paths : Paths Loc) (z : Zstd) (source : FileStore Loc)
    (w : Queue) (io : ℕ → JobIo) :
    (handleReadJobs paths z source w io).sent =
        w.sent ++ (w.served io).map (QueuedJob.posted paths z source io) ∧
      ∀ q ∈ w.served io,
        (∀ block, (q.job.read paths z source (io q.tag).read).1 = .ok (some block) →
          (q.posted paths z source io).message = newBlock block ∧
            block.fileNum = q.job.fileNum) ∧
        ∀ err, (q.job.read paths z source (io q.tag).read).1 = .error err →
          q.job.exhausted = false ∧
            (q.posted paths z source io).message = newError q.job.id err (q.job.fileNum + 1) ∧
            q.job.fileNum + 1 ≠ q.job.fileNum := by
  refine ⟨sent_eq paths z source w io, fun q _ => ?_⟩
  refine ⟨fun block hread => ⟨?_, read_block_fileNum hread⟩, fun err hread => ?_⟩
  · rw [QueuedJob.posted]
    dsimp only
    rw [hread, TransferJob.response]
  · obtain ⟨hnum, hentry⟩ := read_error_fileNum hread
    refine ⟨hentry, ?_, fileNum_succ_ne _⟩
    rw [QueuedJob.posted]
    dsimp only
    rw [hread, TransferJob.response, hnum, read_id]

end

/-- A job whose first file is not there. -/
def firstMissing : TransferJob :=
  .newRead 1 "s".toList [⟨"a".toList, 1, 0⟩, ⟨"b".toList, 1, 0⟩]

/-- The file `a` is missing, and the error is for `b`, which is then sent. -/
theorem error_for_other_entry :
    ([fun _ => ⟨⟨true, []⟩, true⟩, fun _ => ⟨⟨true, []⟩, true⟩].foldl
      (handleReadJobs .lexical .framed (filesAt [("s/b".toList, [7])]))
      (.start [firstMissing])).sent.map Posted.message =
        [newError 1 .io 1, newBlock ⟨1, 1, [7], false⟩] := by decide

end RustdeskServer.Transfer
