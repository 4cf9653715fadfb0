import RustdeskServer.Framework.Runs
import RustdeskServer.Transfer.Receiver

/-!
# What a receiving job touches

A job asks the file system only for its entries' paths, their temporary forms
and the directories above them (`Touches`). No name is checked or cleaned on
the way: `join` takes it as `Path::join` does, so an absolute name or one that
climbs with `..` leaves the destination. Names that do neither stay inside
(`confined`).
-/

namespace RustdeskServer.Transfer

open RustdeskServer.Codec RustdeskServer.Framework TransferJob

/-- The operation is one on an entry's path or its temporary form, or makes the
directories above one. -/
def Touches (dest : PathBuf) (files : List FileEntry) : FsOp → Prop
  | .rename src dst => ∃ entry ∈ files,
      src = entryPath dest entry ++ download ∧ dst = entryPath dest entry
  | .setMtime path _ => ∃ entry ∈ files, path = entryPath dest entry
  | .createDirAll dir => ∃ entry ∈ files, (entryPath dest entry).parent = some dir
  | .create path | .removeFile path => ∃ entry ∈ files,
      path = entryPath dest entry ++ download
  | .syncAll _ | .append _ _ => True

/-- The path leads to a place inside the destination, or is the destination's
own temporary form. -/
def Under (dest path : PathBuf) : Prop :=
  Inside dest.components path.components ∨ path = dest ++ download

/-- Files are under the destination; directories made are inside it or on the
way to it. -/
def Confined (dest : PathBuf) : FsOp → Prop
  | .rename src dst => Under dest src ∧ Under dest dst
  | .setMtime path _ | .create path | .removeFile path => Under dest path
  | .createDirAll dir => ∀ made, made <+: dir →
      made <+: dest.components ∨ Inside dest.components made
  | .syncAll _ | .append _ _ => True

/-! ## Names that stay -/

theorem inside_self (dest : PathBuf) : Inside dest.components dest.components :=
  ⟨[], by rw [List.map_nil, List.append_nil]⟩

theorem under_entryPath {dest : PathBuf} {entry : FileEntry}
    (h : PathBuf.Relative entry.name) : Under dest (entryPath dest entry) := by
  unfold entryPath
  split_ifs
  · exact .inl (inside_self dest)
  · exact .inl (PathBuf.inside_join dest h)

theorem under_download {dest : PathBuf} {entry : FileEntry}
    (h : PathBuf.Relative entry.name) : Under dest (entryPath dest entry ++ download) := by
  unfold entryPath
  split_ifs with hname
  · exact .inr rfl
  · exact .inl (PathBuf.inside_join_suffix dest h hname download_suffix)

theorem leads_of_parent {path : PathBuf} {dir : List Component} (h : path.parent = some dir) :
    dir <+: path.components := by
  unfold PathBuf.parent at h
  split at h
  · cases h
  · cases h
  · cases h
    exact List.dropLast_prefix _

theorem confined_parent {dest : PathBuf} {entry : FileEntry} {dir : List Component}
    (h : PathBuf.Relative entry.name) (hdir : (entryPath dest entry).parent = some dir) :
    Confined dest (.createDirAll dir) := by
  intro made hmade
  have hpath : made <+: (entryPath dest entry).components := hmade.trans (leads_of_parent hdir)
  unfold entryPath at hpath
  split_ifs at hpath
  · exact .inl hpath
  · exact PathBuf.leading_join dest h hpath

theorem Touches.stays {dest : PathBuf} {files : List FileEntry}
    (hrel : ∀ entry ∈ files, PathBuf.Relative entry.name) {op : FsOp}
    (h : Touches dest files op) : Confined dest op := by
  cases op with
  | rename src dst =>
      obtain ⟨entry, hmem, rfl, rfl⟩ := h
      exact ⟨under_download (hrel entry hmem), under_entryPath (hrel entry hmem)⟩
  | setMtime path time =>
      obtain ⟨entry, hmem, rfl⟩ := h
      exact under_entryPath (hrel entry hmem)
  | createDirAll dir =>
      obtain ⟨entry, hmem, hdir⟩ := h
      exact confined_parent (hrel entry hmem) hdir
  | create path | removeFile path =>
      obtain ⟨entry, hmem, rfl⟩ := h
      exact under_download (hrel entry hmem)
  | syncAll | append => trivial

/-! ## What each call asks for -/

section
variable {Loc : Type*} [DecidableEq Loc] {paths : Paths Loc} {z : Zstd}

/-- The receiver writes these entries under this destination, and has touched
nothing else. -/
structure Touching (dest : PathBuf) (files : List FileEntry) (s : Receiver Loc) : Prop where
  path_eq : s.job.path = dest
  files_eq : s.job.files = files
  log : ∀ op ∈ s.disk.log, Touches dest files op

theorem touches_leaveOps {job : TransferJob} {op : FsOp} (h : op ∈ job.leaveOps) :
    Touches job.path job.files op := by
  unfold leaveOps modifyTimeOps at h
  rcases List.mem_append.mp h with h | h
  · cases hentry : job.files[asUsize job.fileNum]? with
    | none => rw [hentry] at h; cases h
    | some entry =>
        have hmem := List.mem_of_getElem? hentry
        rw [hentry] at h
        rcases List.mem_cons.mp h with rfl | h
        · exact ⟨entry, hmem, rfl, rfl⟩
        · cases List.mem_singleton.mp h
          exact ⟨entry, hmem, rfl⟩
  · cases hfile : job.file with
    | none => rw [hfile] at h; cases h
    | some file =>
        rw [hfile] at h
        cases List.mem_singleton.mp h
        trivial

theorem touches_prepareOps {job : TransferJob} {entry : FileEntry} (hmem : entry ∈ job.files)
    {op : FsOp} (h : op ∈ job.prepareOps entry) : Touches job.path job.files op := by
  unfold prepareOps at h
  rcases List.mem_append.mp h with h | h
  · cases hdir : (job.join entry.name).parent with
    | none => rw [hdir] at h; cases h
    | some dir =>
        rw [hdir] at h
        cases List.mem_singleton.mp h
        exact ⟨entry, hmem, hdir⟩
  · cases List.mem_singleton.mp h
    exact ⟨entry, hmem, rfl⟩

theorem touching_step {dest : PathBuf} {files : List FileEntry} {s : Receiver Loc}
    (h : Touching dest files s) (call : Call) : Touching dest files (s.step paths z call) := by
  obtain ⟨rfl, rfl, hlog⟩ := h
  have hadd : ∀ {log ops : List FsOp}, log = s.disk.log ++ ops →
      (∀ op ∈ ops, Touches s.job.path s.job.files op) →
      ∀ op ∈ log, Touches s.job.path s.job.files op := by
    rintro log ops rfl hops op hop
    exact (List.mem_append.mp hop).elim (hlog op) (hops op)
  cases call with
  | write block io =>
      obtain ⟨job', disk', hstep, hwrote⟩ := s.step_wrote paths z block io
      obtain ⟨ops, hops, hasked⟩ := wrote_log hwrote
      have hsame := wrote_same hwrote
      rw [hstep]
      refine ⟨hsame.path, hsame.files, hadd hops fun op hop => ?_⟩
      rcases hasked op hop with h | ⟨entry, hentry, h⟩ | ⟨file, bytes, rfl⟩
      · exact touches_leaveOps h
      · exact touches_prepareOps (List.mem_of_getElem? hentry.2) h
      · trivial
  | modifyTime io =>
      exact ⟨rfl, rfl, hadd (log_modifyTime ..) fun op h =>
        touches_leaveOps (List.mem_append_left _ h)⟩
  | removeDownloadFile io =>
      refine ⟨rfl, rfl, hadd (log_removeDownloadFile ..) fun op h => ?_⟩
      cases hentry : s.job.files[asUsize s.job.fileNum]? with
      | none => rw [hentry] at h; cases h
      | some entry =>
          rw [hentry] at h
          cases List.mem_singleton.mp h
          exact ⟨entry, List.mem_of_getElem? hentry, rfl⟩

/-- **Confinement.** Over every run, a job touches its entries' paths, their
temporary forms and the directories above them only; when no name is absolute
or climbs above its start, all of these are under the destination. -/
theorem confined (paths : Paths Loc) (z : Zstd) (id : Int32) (dest : PathBuf)
    (files : List FileEntry) (store : FileStore Loc) (calls : List Call) :
    Always (Receiver.step paths z) (fun s => ∀ op ∈ s.disk.log, Touches dest files op)
        (.start id dest files store) calls ∧
      ((∀ entry ∈ files, PathBuf.Relative entry.name) →
        Always (Receiver.step paths z) (fun s => ∀ op ∈ s.disk.log, Confined dest op)
          (.start id dest files store) calls) := by
  have hstart : Touching dest files (Receiver.start id dest files store) :=
    ⟨rfl, rfl, fun op h => nomatch h⟩
  have hrun : Always (Receiver.step paths z) (Touching dest files)
      (.start id dest files store) calls := by
    apply always_of_step _ calls hstart
    intro s call hs
    exact touching_step hs call
  constructor
  · apply hrun.mono
    intro s hs
    exact hs.log
  · intro hrel
    apply hrun.mono
    intro s hs op hop
    exact (hs.log op hop).stays hrel

end

/-- A block of the first entry, then the last commit. -/
def oneBlock : List Call := [.write ⟨1, 0, [7], false⟩ (.ok 0), .modifyTime (.ok 0)]

theorem confined_nested :
    (∀ entry ∈ [(⟨"a/../b".toList, 1, 0⟩ : FileEntry)], PathBuf.Relative entry.name) ∧
      Always (Receiver.step .lexical .framed)
        (fun s => ∀ op ∈ s.disk.log, Confined "/d".toList op)
        (.start 1 "/d".toList [⟨"a/../b".toList, 1, 0⟩] .empty) oneBlock := by
  have hrel : ∀ entry ∈ [(⟨"a/../b".toList, 1, 0⟩ : FileEntry)],
      PathBuf.Relative entry.name := by decide
  exact ⟨hrel, (confined .lexical .framed 1 "/d".toList _ .empty oneBlock).2 hrel⟩

/-- A name with `..` makes a file beside the destination. -/
theorem name_climbs_out :
    ¬ Always (Receiver.step .lexical .framed)
        (fun s => ∀ op ∈ s.disk.log, Confined "/d".toList op)
        (.start 1 "/d".toList [⟨"../x".toList, 1, 0⟩] .empty) oneBlock ∧
      (oneBlock.foldl (Receiver.step .lexical .framed)
        (.start 1 "/d".toList [⟨"../x".toList, 1, 0⟩] .empty)).disk.store.read
        (Paths.lexical.locate "/x".toList) = some [7] := by
  refine ⟨?_, by decide⟩
  intro h
  have hunder : Under "/d".toList "/d/../x.download".toList :=
    h.final oneBlock (.create "/d/../x.download".toList) (by decide)
  have hbase : resolve (PathBuf.components "/d".toList) =
    [.rootDir, .normal "d".toList] := by decide
  have hout : resolve (PathBuf.components "/d/../x.download".toList) =
    [.rootDir, .normal "x.download".toList] := by decide
  rcases hunder with ⟨names, hnames⟩ | hself
  · rw [hbase, hout] at hnames
    exact absurd (congrArg (·[1]?) hnames) (by simp)
  · exact absurd hself (by decide)

end RustdeskServer.Transfer
