import RustdeskServer.Framework.Runs
import RustdeskServer.Transfer.Receiver
import RustdeskServer.Transfer.Sender

/-!
# The total of a job (`set_files`, `total_size`)

The two constructors add the sizes of the list up, in a `u64`; `set_files` replaces
the list and leaves the total as it was. A `JobCall` is one of the three calls, with
all that it is given; none of them touches the total (`step_totalSize`), and
`always_exact_iff` says which calls keep it right. `Tallied` is what a `write` has done
to the counter.
-/

namespace RustdeskServer.Transfer

open RustdeskServer.Codec RustdeskServer.Framework

/-! ## Calls -/

def TransferJob.setFiles (job : TransferJob) (files : List FileEntry) : TransferJob :=
  { job with files := files }

/-- The jobs that a constructor makes of the list. -/
inductive Created (files : List FileEntry) : TransferJob → Prop
  | newWrite (id : Int32) (path : PathBuf) : Created files (.newWrite id path files)
  | newRead (id : Int32) (path : PathBuf) : Created files (.newRead id path files)

inductive JobCall (Loc : Type*) where
  | setFiles (files : List FileEntry)
  | read (store : FileStore Loc) (io : ReadIo)
  | write (disk : Disk Loc) (block : FileTransferBlock) (io : WriteIo)

section
variable {Loc : Type*} [DecidableEq Loc] (paths : Paths Loc) (z : Zstd)

/-- What the call returns, and the job after it. -/
def TransferJob.call (job : TransferJob) : JobCall Loc → ReadResult × TransferJob
  | .setFiles files => (.ok none, job.setFiles files)
  | .read store io => job.read paths z store io
  | .write disk block io =>
      let (res, job, _) := job.write paths z disk block io
      (res.map fun _ => none, job)

def TransferJob.step (job : TransferJob) (call : JobCall Loc) : TransferJob :=
  (job.call paths z call).2

/-- What the calls return, one after the other. -/
def TransferJob.outcomes (job : TransferJob) : List (JobCall Loc) → List ReadResult
  | [] => []
  | call :: calls => (job.call paths z call).1 :: (job.step paths z call).outcomes calls

/-- No call returns an error. -/
def TransferJob.ErrorFree (job : TransferJob) (calls : List (JobCall Loc)) : Prop :=
  ∀ res ∈ job.outcomes paths z calls, ∃ block, res = .ok block

end

/-! ## Sizes -/

/-- The sizes of the list, added up without a bound. -/
def sumSizes (files : List FileEntry) : ℕ := (files.map fun entry => entry.size.toNat).sum

/-- The total is the sum of the list's sizes. -/
def TransferJob.Exact (job : TransferJob) : Prop := job.totalSize.toNat = sumSizes job.files

instance (job : TransferJob) : Decidable job.Exact :=
  inferInstanceAs (Decidable (job.totalSize.toNat = sumSizes job.files))

theorem TransferJob.Exact.of_same {job job' : TransferJob} (h : job.Exact)
    (hsame : SameList job job') (htotal : job'.totalSize = job.totalSize) : job'.Exact := by
  unfold TransferJob.Exact at h ⊢
  rw [htotal, hsame.files, h]

theorem sumSizes_cons (entry : FileEntry) (files : List FileEntry) :
    sumSizes (entry :: files) = entry.size.toNat + sumSizes files := by
  simp [sumSizes]

theorem toNat_sum (files : List FileEntry) :
    (files.map FileEntry.size).sum.toNat = sumSizes files % 2 ^ 64 := by
  induction files with
  | nil => rfl
  | cons entry files ih =>
      rw [List.map_cons, List.sum_cons, UInt64.toNat_add, ih, sumSizes_cons, Nat.add_mod_mod]

section
variable {files : List FileEntry} {job : TransferJob}

/-- Nothing has been transferred yet. -/
theorem Created.fresh (h : Created files job) :
    job.files = files ∧ job.fileNum = 0 ∧ job.file = none ∧ job.finishedSize = 0 := by
  cases h with
  | newWrite id path => exact ⟨rfl, rfl, rfl, rfl⟩
  | newRead id path => exact ⟨rfl, rfl, rfl, rfl⟩

/-- The total of a constructor wraps. -/
theorem Created.totalSize (h : Created files job) :
    job.totalSize.toNat = sumSizes files % 2 ^ 64 := by
  cases h with
  | newWrite id path => exact toNat_sum files
  | newRead id path => exact toNat_sum files

theorem Created.exact_iff (h : Created files job) : job.Exact ↔ sumSizes files < 2 ^ 64 := by
  rw [TransferJob.Exact, h.fresh.1, h.totalSize]
  constructor
  · intro heq
    rw [← heq]
    exact Nat.mod_lt _ (by decide)
  · intro hlt
    exact Nat.mod_eq_of_lt hlt

end

/-! ## What a call changes -/

/-- `job'` has the list and the total of `job`, and has counted `n` bytes more. -/
structure Tallied (job job' : TransferJob) (n : ℕ) : Prop where
  same : SameList job job'
  totalSize : job'.totalSize = job.totalSize
  finishedSize : job'.finishedSize = job.finishedSize + UInt64.ofNat n

section
variable {Loc : Type*} [DecidableEq Loc] {paths : Paths Loc} {z : Zstd}

variable (paths z)

omit [DecidableEq Loc] in
theorem read_keeps (job : TransferJob) (store : FileStore Loc) (io : ReadIo) :
    SameList job (job.read paths z store io).2 ∧
      (job.read paths z store io).2.totalSize = job.totalSize := by
  generalize hread : job.read paths z store io = res
  cases took_of_read hread with
  | _ => exact ⟨⟨rfl, rfl, rfl⟩, rfl⟩

theorem openFor_tallied (job : TransferJob) (disk : Disk Loc) (fileNum : Int32)
    (entry : FileEntry) (io : WriteIo) :
    ∃ res job' disk', job.openFor paths disk fileNum entry io = (res, job', disk') ∧
      Tallied job job' 0 := by
  rcases TransferJob.openFor_cases paths job disk fileNum entry io with
    ⟨file, -, -, ho⟩ | ⟨file, -, -, -, ho⟩ | ⟨-, -, ho⟩
  · exact ⟨_, _, _, ho, ⟨rfl, rfl, rfl⟩, rfl, (UInt64.add_zero _).symm⟩
  · exact ⟨_, _, _, ho, ⟨rfl, rfl, rfl⟩, rfl, (UInt64.add_zero _).symm⟩
  · cases hcreates : io.creates with
    | true =>
        rw [TransferJob.createDownload_ok _ _ _ hcreates] at ho
        exact ⟨_, _, _, ho, ⟨rfl, rfl, rfl⟩, rfl, (UInt64.add_zero _).symm⟩
    | false =>
        rw [TransferJob.createDownload_error _ _ _ hcreates] at ho
        exact ⟨_, _, _, ho, ⟨rfl, rfl, rfl⟩, rfl, (UInt64.add_zero _).symm⟩

/-- **What a `write` counts.** All of the block's bytes when it succeeds, and nothing
otherwise. -/
theorem write_tallied (job : TransferJob) (disk : Disk Loc) (block : FileTransferBlock)
    (io : WriteIo) :
    (∃ err, (job.write paths z disk block io).1 = .error err) ∧
        Tallied job (job.write paths z disk block io).2.1 0 ∨
      (∃ entry, job.Accepts block entry) ∧ (job.write paths z disk block io).1 = .ok () ∧
        Tallied job (job.write paths z disk block io).2.1 (block.bytes z).length := by
  by_cases hacc : ∃ entry, job.Accepts block entry
  · obtain ⟨entry, hentry⟩ := hacc
    obtain ⟨res, job', disk', ho, htallied⟩ :=
      openFor_tallied paths job disk block.fileNum entry io
    have hsame := htallied.finishedSize.trans (UInt64.add_zero _)
    cases res with
    | error err =>
        rw [TransferJob.write_error hentry ho]
        exact .inl ⟨⟨err, rfl⟩, htallied⟩
    | ok file =>
        rw [TransferJob.write_ok hentry ho, TransferJob.appendBlock]
        cases io.writes with
        | none =>
            refine .inr ⟨⟨entry, hentry⟩, rfl, ⟨?_, ?_, ?_⟩, htallied.totalSize, ?_⟩
            · exact htallied.same.id
            · exact htallied.same.path
            · exact htallied.same.files
            · show job'.finishedSize + _ = _
              rw [hsame]
        | some n =>
            refine .inl ⟨⟨.io, rfl⟩, ⟨?_, ?_, ?_⟩, htallied.totalSize, htallied.finishedSize⟩
            · exact htallied.same.id
            · exact htallied.same.path
            · exact htallied.same.files
  · have hnone : ∀ entry, ¬ job.Accepts block entry := not_exists.mp hacc
    obtain ⟨err, hrefused⟩ := TransferJob.write_not_accepted paths z hnone disk io
    rw [hrefused]
    exact .inl ⟨⟨err, rfl⟩, .refl job, rfl, (UInt64.add_zero _).symm⟩

/-! ## The total -/

theorem write_keeps (job : TransferJob) (disk : Disk Loc) (block : FileTransferBlock)
    (io : WriteIo) : SameList job (job.write paths z disk block io).2.1 ∧
      (job.write paths z disk block io).2.1.totalSize = job.totalSize := by
  rcases write_tallied paths z job disk block io with
    ⟨-, htallied⟩ | ⟨-, -, htallied⟩
  · exact ⟨htallied.same, htallied.totalSize⟩
  · exact ⟨htallied.same, htallied.totalSize⟩

/-- No call touches the total. -/
theorem step_totalSize (job : TransferJob) (call : JobCall Loc) :
    (job.step paths z call).totalSize = job.totalSize := by
  cases call with
  | setFiles files => rfl
  | read store io => exact (read_keeps paths z job store io).2
  | write disk block io => exact (write_keeps paths z job disk block io).2

variable {paths z}

/-- A list given to `set_files` has the sum that the total is. -/
def JobCall.Matches (total : ℕ) : JobCall Loc → Prop
  | .setFiles files => sumSizes files = total
  | _ => True

instance JobCall.Matches.instDecidable (total : ℕ) :
    (call : JobCall Loc) → Decidable (call.Matches total)
  | .setFiles files => inferInstanceAs (Decidable (sumSizes files = total))
  | .read _ _ => .isTrue trivial
  | .write _ _ _ => .isTrue trivial

theorem step_exact_iff {job : TransferJob} (h : job.Exact) (call : JobCall Loc) :
    (job.step paths z call).Exact ↔ call.Matches job.totalSize.toNat := by
  cases call with
  | setFiles files => exact eq_comm
  | read store io =>
      obtain ⟨hsame, htotal⟩ := read_keeps paths z job store io
      exact iff_of_true (h.of_same hsame htotal) trivial
  | write disk block io =>
      obtain ⟨hsame, htotal⟩ := write_keeps paths z job disk block io
      exact iff_of_true (h.of_same hsame htotal) trivial

/-- **The total of a job**, once it is right, stays right just as long as the lists
that replace the first one have its sum. -/
theorem always_exact_iff {job : TransferJob} (h : job.Exact) (calls : List (JobCall Loc)) :
    Always (TransferJob.step paths z) TransferJob.Exact job calls ↔
      ∀ call ∈ calls, call.Matches (sumSizes job.files) := by
  have hkeeps : ∀ (job' : TransferJob) (call : JobCall Loc),
      job'.totalSize = job.totalSize → True →
        (job'.step paths z call).totalSize = job.totalSize := by
    intro job' call htotal _
    exact (step_totalSize paths z job' call).trans htotal
  have hstep : ∀ (job' : TransferJob) (call : JobCall Loc),
      job'.totalSize = job.totalSize → True → job'.Exact →
        ((job'.step paths z call).Exact ↔ call.Matches job.totalSize.toNat) := by
    intro job' call htotal _ hexact
    rw [step_exact_iff hexact, htotal]
  rw [always_iff_along hkeeps hstep (along_true calls) rfl h, along_iff_forall, h]

end

end RustdeskServer.Transfer
