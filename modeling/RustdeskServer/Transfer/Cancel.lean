import RustdeskServer.Transfer.Untouched

/-!
# What a cancelled job leaves behind

Cancelling a job removes the temporary file of the entry at `file_num()`. That is
all there is to remove: `write` renames the temporary file of the entry it leaves
before it moves the number on, so that a temporary file is always the current
entry's. The one exit between the two, a failed sync, comes after the rename.
-/

namespace RustdeskServer.Transfer

open RustdeskServer.Codec RustdeskServer.Framework TransferJob

variable {Loc : Type*}

/-- Temporary forms lead to one place only if the paths do. -/
def Paths.TempsApart (paths : Paths Loc) : Prop :=
  ∀ p q, paths.locate (p ++ download) = paths.locate (q ++ download) →
    paths.locate p = paths.locate q

theorem Paths.lexical_tempsApart : Paths.lexical.TempsApart :=
  fun _ _ => PathBuf.resolve_of_suffix download_suffix

def Call.io : Call → WriteIo
  | .write _ io => io
  | .modifyTime io => io
  | .removeDownloadFile io => io

variable (paths : Paths Loc)

/-- There is a file at the temporary place of the entry `k`. -/
def Leftover (job : TransferJob) (disk : Disk Loc) (k : ℕ) : Prop :=
  ∃ entry, job.files[k]? = some entry ∧
    disk.store.lookup (tempLoc paths job.path entry) ≠ none

/-- No temporary file but the current entry's. -/
def OnlyCurrent (s : Receiver Loc) : Prop :=
  ∀ k, Leftover paths s.job s.disk k → k = asUsize s.job.fileNum

/-- If the file of the current entry can be removed, no temporary file is left. -/
def Cancels [DecidableEq Loc] (s : Receiver Loc) : Prop :=
  ∀ io : WriteIo, io.removes = true →
    ∀ k, ¬ Leftover paths s.job (s.job.removeDownloadFile paths s.disk io) k

variable {paths}

/-! ## The places of different entries -/

theorem temp_ne_temp (hpaths : paths.TempsApart) {path : PathBuf} {files : List FileEntry}
    (h : DistinctPlaces paths path files) {i j : ℕ} {a b : FileEntry}
    (ha : files[i]? = some a) (hb : files[j]? = some b) (hne : i ≠ j) :
    tempLoc paths path a ≠ tempLoc paths path b :=
  fun hsame => hne (h.index ha hb (hpaths _ _ hsame))

variable [DecidableEq Loc]

theorem lookup_modifyTime_temp {job : TransferJob} {entry : FileEntry}
    (hentry : job.files[asUsize job.fileNum]? = some entry) (disk : Disk Loc) {io : WriteIo}
    (hrenames : io.renames = true) :
    (job.modifyTime paths disk io).store.lookup (tempLoc paths job.path entry) = none := by
  have hne := tempLoc_ne_finalLoc paths job.path entry
  have hmoved : (disk.rename paths (job.join entry.name ++ download) (job.join entry.name)
      io.renames).store.lookup (tempLoc paths job.path entry) = none := by
    rw [hrenames]
    exact FileStore.lookup_eq_none.mpr (disk.store.inode_rename_src hne)
  unfold modifyTime
  rw [hentry]
  cases hstamp : io.stamps with
  | false => exact hmoved
  | true => exact (FileStore.lookup_setMtime_other _ hne _).trans hmoved

/-- Once an entry has been left there is no temporary file at all. -/
theorem not_leftover_modifyTime (hpaths : paths.TempsApart) {s : Receiver Loc}
    (hplaces : DistinctPlaces paths s.job.path s.job.files) (h : OnlyCurrent paths s)
    {io : WriteIo} (hrenames : io.renames = true) (k : ℕ) :
    ¬ Leftover paths s.job (s.job.modifyTime paths s.disk io) k := by
  rintro ⟨entry, hentry, hleft⟩
  by_cases hk : k = asUsize s.job.fileNum
  · rw [hk] at hentry
    exact hleft (lookup_modifyTime_temp hentry s.disk hrenames)
  · -- a temporary file of another entry would have been there before
    refine hk (h k ⟨entry, hentry, ?_⟩)
    rw [← lookup_modifyTime_other paths _ s.disk io]
    · exact hleft
    · intro current hcurrent
      exact ⟨(hplaces.temps _ (List.mem_of_getElem? hcurrent) _
          (List.mem_of_getElem? hentry)).symm,
        temp_ne_temp hpaths hplaces hentry hcurrent hk⟩

/-! ## One call -/

omit [DecidableEq Loc] in
/-- A write through an open handle gives no place a file. -/
theorem lookup_append_eq_none (disk : Disk Loc) (file : OpenFile) (bytes : Bytes) (now : Int)
    (l : Loc) : (disk.append file bytes now).store.lookup l = none ↔
      disk.store.lookup l = none := by
  rw [FileStore.lookup_eq_none, FileStore.lookup_eq_none]
  exact Iff.rfl

theorem onlyCurrent_write (hpaths : paths.TempsApart) {z : Zstd} {s : Receiver Loc}
    (hplaces : DistinctPlaces paths s.job.path s.job.files) (h : OnlyCurrent paths s)
    (block : FileTransferBlock) {io : WriteIo} (hrenames : io.renames = true) :
    OnlyCurrent paths (s.step paths z (.write block io)) := by
  have hgone := not_leftover_modifyTime hpaths hplaces h hrenames
  obtain ⟨job', disk', hstep, hwrote⟩ := s.step_wrote paths z block io
  rw [hstep]
  cases hwrote with
  | refused => exact h
  | notSynced file =>
      rintro k ⟨entry, hentry, hleft⟩
      rw [store_leave] at hleft
      exact absurd ⟨entry, hentry, hleft⟩ (hgone k)
  | notCreated opened =>
      rintro k ⟨entry, hentry, hleft⟩
      rw [store_prepare, store_leave] at hleft
      exact absurd ⟨entry, hentry, hleft⟩ (hgone k)
  | appended file opened bytes _ hacc hfile hnum hjob =>
      rintro k ⟨entry, hentry, hleft⟩
      rw [hjob.files] at hentry
      rw [hjob.path, Ne, lookup_append_eq_none] at hleft
      rw [hjob.fileNum]
      exact h k ⟨entry, hentry, hleft⟩
  | created opened made bytes _ hacc hmoves hcreates hjob hmade =>
      rintro k ⟨entry, hentry, hleft⟩
      rw [hjob.files] at hentry
      rw [hjob.path, Ne, lookup_append_eq_none] at hleft
      rw [hjob.fileNum]
      by_contra hk
      -- nothing was left, and the file that was made is the block's
      have hother : tempLoc paths s.job.path entry ≠ tempLoc paths s.job.path opened :=
        temp_ne_temp hpaths hplaces hentry hacc.2 hk
      apply hleft
      have hkept : made.1.lookup (tempLoc paths s.job.path entry) =
          (s.job.prepare (s.job.leave paths s.disk io) opened).store.lookup
            (tempLoc paths s.job.path entry) := by
        rw [hmade]
        exact FileStore.lookup_create_other _ hother io.now
      refine hkept.trans ?_
      rw [store_prepare, store_leave]
      by_contra hsome
      exact hgone k ⟨entry, hentry, hsome⟩

theorem lookup_removeFile (disk : Disk Loc) (path : PathBuf) (ok : Bool) (l : Loc)
    (h : (disk.removeFile paths path ok).store.lookup l ≠ none) : disk.store.lookup l ≠ none := by
  cases ok with
  | false => exact h
  | true =>
      by_cases hl : l = paths.locate path
      · subst hl
        exact absurd (disk.store.lookup_remove_self _) h
      · intro hnone
        exact h ((disk.store.lookup_remove_other hl).trans hnone)

theorem leftover_remove {job : TransferJob} {disk : Disk Loc} {io : WriteIo} {k : ℕ}
    (h : Leftover paths job (job.removeDownloadFile paths disk io) k) :
    Leftover paths job disk k := by
  obtain ⟨entry, hentry, hleft⟩ := h
  refine ⟨entry, hentry, ?_⟩
  unfold removeDownloadFile at hleft
  cases hcurrent : job.files[asUsize job.fileNum]? with
  | none =>
      rw [hcurrent] at hleft
      exact hleft
  | some current =>
      rw [hcurrent] at hleft
      exact lookup_removeFile _ _ _ _ hleft

theorem OnlyCurrent.cancels {s : Receiver Loc} (h : OnlyCurrent paths s) : Cancels paths s := by
  rintro io hremoves k hleft
  -- what is left was left before, so it is the current entry's
  have hk := h k (leftover_remove hleft)
  obtain ⟨entry, hentry, hsome⟩ := hleft
  rw [hk] at hentry
  unfold removeDownloadFile at hsome
  rw [hentry, hremoves] at hsome
  exact hsome (s.disk.store.lookup_remove_self _)

/-! ## Runs -/

/-- A job whose entries have places of their own, at which only the current one
has a temporary file. -/
structure Tidy (paths : Paths Loc) (s : Receiver Loc) : Prop where
  places : DistinctPlaces paths s.job.path s.job.files
  current : OnlyCurrent paths s

theorem tidy_step (hpaths : paths.TempsApart) {z : Zstd} {s : Receiver Loc}
    (h : Tidy paths s) {call : Call} (hrenames : call.io.renames = true) :
    Tidy paths (s.step paths z call) := by
  cases call with
  | write block io =>
      obtain ⟨job', disk', hstep, hwrote⟩ := s.step_wrote paths z block io
      obtain ⟨-, hpath, hfiles⟩ := wrote_same hwrote
      refine ⟨?_, onlyCurrent_write hpaths h.places h.current block hrenames⟩
      rw [hstep, hpath, hfiles]
      exact h.places
  | modifyTime io =>
      refine ⟨h.places, fun k hleft => ?_⟩
      exact absurd hleft (not_leftover_modifyTime hpaths h.places h.current hrenames k)
  | removeDownloadFile io =>
      exact ⟨h.places, fun k hleft => h.current k (leftover_remove hleft)⟩

/-- **What cancelling leaves.** Over every run of a job whose entries have
distinct places, none of them a temporary one, and no temporary file at first:
whatever blocks arrive, in whatever order, and whatever creation, sync or write
fails, as long as renaming succeeds, there is at every moment no temporary file
but the one of entry `file_num()`, and removing it leaves none. -/
theorem cancel_leaves_none (paths : Paths Loc) (hpaths : paths.TempsApart) (z : Zstd)
    (id : Int32) (path : PathBuf) (files : List FileEntry) (store : FileStore Loc)
    (hplaces : DistinctPlaces paths path files)
    (hclean : ∀ entry ∈ files, store.lookup (tempLoc paths path entry) = none)
    (calls : List Call) (hrenames : ∀ call ∈ calls, call.io.renames = true) :
    Always (Receiver.step paths z) (fun s => OnlyCurrent paths s ∧ Cancels paths s)
      (.start id path files store) calls := by
  have hstart : Tidy paths (Receiver.start id path files store) := by
    refine ⟨hplaces, ?_⟩
    rintro k ⟨entry, hentry, hleft⟩
    exact absurd (hclean entry (List.mem_of_getElem? hentry)) hleft
  have hruns : Along (Receiver.step paths z) (fun _ call => call.io.renames = true)
      (.start id path files store) calls := along_of_forall hrenames
  have htidy : Always (Receiver.step paths z) (Tidy paths) (.start id path files store) calls :=
    always_of_along (fun _ _ h hcall => tidy_step hpaths h hcall) hstart hruns
  exact htidy.mono fun s h => ⟨h.current, h.current.cancels⟩

/-- Blocks of `b`, of `a` and of `b` again: a write fails, then a creation, then a
sync. -/
def failingBlocks : List Call :=
  [.write ⟨1, 1, [2], false⟩ { WriteIo.ok 0 with writes := some 0 },
    .write ⟨1, 0, [1], false⟩ { WriteIo.ok 0 with creates := false },
    .write ⟨1, 0, [1], false⟩ (.ok 0),
    .write ⟨1, 1, [2], false⟩ { WriteIo.ok 0 with syncs := false },
    .write ⟨1, 1, [2], false⟩ (.ok 0)]

theorem cancel_leaves_none_pair :
    (∀ call ∈ failingBlocks, call.io.renames = true) ∧
      Always (Receiver.step .lexical .framed)
        (fun s => OnlyCurrent .lexical s ∧ Cancels .lexical s)
        (.start 1 "d".toList plainPair .empty) failingBlocks := by
  have hrenames : ∀ call ∈ failingBlocks, call.io.renames = true := by
    intro call hcall
    simp only [failingBlocks, List.mem_cons, List.not_mem_nil, or_false] at hcall
    rcases hcall with rfl | rfl | rfl | rfl | rfl <;> rfl
  exact ⟨hrenames, cancel_leaves_none .lexical Paths.lexical_tempsApart .framed 1 "d".toList
    plainPair .empty plainPair_distinct (fun _ _ => rfl) failingBlocks hrenames⟩

end RustdeskServer.Transfer
