import Mathlib.Data.List.TakeWhile
import RustdeskServer.Transfer.ReadJobs

/-!
# When a read job leaves the vector

A job should leave in the call in which its `Done` is sent, and only then. Two
things stand between: the loop notes ids, which are the peer's choice, and a send
that fails returns before anything is removed. An id that is shared takes an
unfinished job along, and a job whose `Done` was sent before the failure stays and
sends another one.

`Uncontested` is the exact condition on a call, and `Accounted` what it gives for
runs: every job is in the vector or its `Done` was sent, once.
-/

namespace RustdeskServer.Transfer

open RustdeskServer.Framework

/-- The jobs whose `Done` was sent, one for each time. -/
def doneTags (sent : List Posted) : List ℕ :=
  (sent.filter fun p => p.message.isDone).map Posted.tag

def Queue.tags (w : Queue) : List ℕ := w.jobs.map QueuedJob.tag

/-- The jobs whose messages are sent: those before the first send that fails. -/
def Queue.served (w : Queue) (io : ℕ → JobIo) : List QueuedJob :=
  w.jobs.takeWhile fun q => (io q.tag).sends

/-- Each of the `n` jobs is in the vector or its `Done` has been sent, not both and
not twice. -/
def Accounted (n : ℕ) (w : Queue) : Prop := (doneTags w.sent ++ w.tags).Perm (List.range n)

/-- If all sends succeed, a job with the id of one that has come to its end has come
to its own; and no job before a send that fails has come to its end. -/
structure Uncontested (w : Queue) (io : ℕ → JobIo) : Prop where
  shared : (∀ q ∈ w.jobs, (io q.tag).sends = true) → ∀ q ∈ w.jobs, ∀ q' ∈ w.jobs,
    q'.job.id = q.job.id → q.job.exhausted = true → q'.job.exhausted = true
  failed : ¬ (∀ q ∈ w.jobs, (io q.tag).sends = true) →
    ∀ q ∈ w.served io, q.job.exhausted = false

section
variable {Loc : Type*} (paths : Paths Loc) (z : Zstd) (source : FileStore Loc)

/-- In this call a job is removed just if its `read` returned `Ok(None)` and its
`Done` was sent. -/
def LeavesWhenDone (w : Queue) (io : ℕ → JobIo) : Prop :=
  ∀ q ∈ w.jobs, q.tag ∉ (handleReadJobs paths z source w io).tags ↔
    (q.job.read paths z source (io q.tag).read).1 = .ok none ∧
      q.tag ∈ doneTags ((handleReadJobs paths z source w io).sent.drop w.sent.length)

variable {paths z source} {w : Queue} {io : ℕ → JobIo}

/-! ## One call -/

theorem served_all (h : ∀ q ∈ w.jobs, (io q.tag).sends = true) : w.served io = w.jobs :=
  List.takeWhile_eq_self_iff.mpr h

theorem mem_of_mem_served {q : QueuedJob} (h : q ∈ w.served io) : q ∈ w.jobs :=
  (List.takeWhile_sublist _).subset h

/-- The vector cut at the first send that fails. -/
theorem exists_failed (h : ¬ ∀ q ∈ w.jobs, (io q.tag).sends = true) :
    ∃ q after, w.jobs = w.served io ++ q :: after ∧ (io q.tag).sends = false := by
  have hsplit := List.takeWhile_append_dropWhile (p := fun q : QueuedJob => (io q.tag).sends)
    (l := w.jobs)
  cases hrest : w.jobs.dropWhile fun q => (io q.tag).sends with
  | nil =>
      rw [hrest, List.append_nil] at hsplit
      exact absurd (fun q hq => List.takeWhile_eq_self_iff.mp hsplit q hq) h
  | cons q after =>
      refine ⟨q, after, ?_, ?_⟩
      · rw [hrest] at hsplit
        exact hsplit.symm
      · have hhead := List.head?_dropWhile_not (fun q : QueuedJob => (io q.tag).sends) w.jobs
        rw [hrest] at hhead
        exact hhead

theorem mem_served_sends {q : QueuedJob} (h : q ∈ w.served io) : (io q.tag).sends = true :=
  List.mem_takeWhile_imp (p := fun q : QueuedJob => (io q.tag).sends) h

theorem sent_eq (paths : Paths Loc) (z : Zstd) (source : FileStore Loc) (w : Queue)
    (io : ℕ → JobIo) : (handleReadJobs paths z source w io).sent =
      w.sent ++ (w.served io).map (QueuedJob.posted paths z source io) := by
  by_cases hall : ∀ q ∈ w.jobs, (io q.tag).sends = true
  · rw [handleReadJobs_all hall, served_all hall]
  · obtain ⟨q, after, hjobs, hq⟩ := exists_failed hall
    rw [handleReadJobs_until hjobs (fun q hq => mem_served_sends hq) hq]

theorem tags_all (h : ∀ q ∈ w.jobs, (io q.tag).sends = true) :
    (handleReadJobs paths z source w io).tags =
      (w.jobs.filter fun q => q.job.id ∉ w.endedIds).map QueuedJob.tag := by
  rw [handleReadJobs_all h, Queue.tags, List.map_map]
  rfl

/-- A call in which a send fails removes nothing. -/
theorem tags_failed (h : ¬ ∀ q ∈ w.jobs, (io q.tag).sends = true) :
    (handleReadJobs paths z source w io).tags = w.tags := by
  obtain ⟨q, after, hjobs, hq⟩ := exists_failed h
  rw [handleReadJobs_until hjobs (fun q hq => mem_served_sends hq) hq, Queue.tags, Queue.tags,
    hjobs, List.map_append, List.map_append, List.map_map]
  rfl

theorem tags_sublist (paths : Paths Loc) (z : Zstd) (source : FileStore Loc) (w : Queue)
    (io : ℕ → JobIo) : (handleReadJobs paths z source w io).tags.Sublist w.tags := by
  by_cases hall : ∀ q ∈ w.jobs, (io q.tag).sends = true
  · rw [tags_all hall]
    exact List.filter_sublist.map _
  · rw [tags_failed hall]

/-- Whose `Done` a call sends: the jobs that are served and have come to their end. -/
theorem mem_newDone (htags : w.tags.Nodup) {q : QueuedJob} (hq : q ∈ w.jobs) :
    q.tag ∈ doneTags ((handleReadJobs paths z source w io).sent.drop w.sent.length) ↔
      q ∈ w.served io ∧ q.job.exhausted = true := by
  rw [sent_eq, List.drop_left, doneTags]
  constructor
  · intro hin
    obtain ⟨p, hp, htag⟩ := List.mem_map.mp hin
    obtain ⟨hp, hdone⟩ := List.mem_filter.mp hp
    obtain ⟨q', hq', rfl⟩ := List.mem_map.mp hp
    obtain rfl : q' = q :=
      List.inj_on_of_nodup_map htags (mem_of_mem_served hq') hq htag
    rw [posted_isDone] at hdone
    exact ⟨hq', hdone⟩
  · rintro ⟨hserved, hend⟩
    refine List.mem_map.mpr ⟨q.posted paths z source io, ?_, rfl⟩
    refine List.mem_filter.mpr ⟨List.mem_map_of_mem hserved, ?_⟩
    rw [posted_isDone]
    exact hend

/-- Who stays in a call whose sends all succeed. -/
theorem mem_tags_all (htags : w.tags.Nodup) (h : ∀ q ∈ w.jobs, (io q.tag).sends = true)
    {q : QueuedJob} (hq : q ∈ w.jobs) :
    q.tag ∈ (handleReadJobs paths z source w io).tags ↔ q.job.id ∉ w.endedIds := by
  rw [tags_all h]
  constructor
  · intro hin
    obtain ⟨q', hq', htag⟩ := List.mem_map.mp hin
    obtain ⟨hmem, hid⟩ := List.mem_filter.mp hq'
    obtain rfl : q' = q := List.inj_on_of_nodup_map htags hmem hq htag
    exact of_decide_eq_true hid
  · exact fun hid => List.mem_map.mpr ⟨q, List.mem_filter.mpr ⟨hq, decide_eq_true hid⟩, rfl⟩

theorem mem_endedIds {id : Int32} :
    id ∈ w.endedIds ↔ ∃ q ∈ w.jobs, q.job.exhausted = true ∧ q.job.id = id := by
  constructor
  · intro hin
    obtain ⟨q, hq, hid⟩ := List.mem_map.mp hin
    obtain ⟨hmem, hend⟩ := List.mem_filter.mp hq
    exact ⟨q, hmem, hend, hid⟩
  · rintro ⟨q, hmem, hend, hid⟩
    exact List.mem_map.mpr ⟨q, List.mem_filter.mpr ⟨hmem, hend⟩, hid⟩

/-- **One call, exactly.** -/
theorem leavesWhenDone_iff (htags : w.tags.Nodup) :
    LeavesWhenDone paths z source w io ↔ Uncontested w io := by
  by_cases hall : ∀ q ∈ w.jobs, (io q.tag).sends = true
  · have hcall : ∀ q ∈ w.jobs, (q.tag ∉ (handleReadJobs paths z source w io).tags ↔
        (q.job.read paths z source (io q.tag).read).1 = .ok none ∧
          q.tag ∈ doneTags ((handleReadJobs paths z source w io).sent.drop w.sent.length)) ↔
        (q.job.id ∈ w.endedIds ↔ q.job.exhausted = true) := by
      intro q hq
      rw [mem_tags_all htags hall hq, mem_newDone htags hq, read_ok_none_iff, served_all hall,
        not_not]
      have hboth : q.job.exhausted = true ∧ q ∈ w.jobs ∧ q.job.exhausted = true ↔
          q.job.exhausted = true := ⟨And.left, fun h => ⟨h, hq, h⟩⟩
      rw [hboth]
    constructor
    · intro h
      refine ⟨fun _ q hq q' hq' hid hend => ?_, fun hnot => absurd hall hnot⟩
      exact ((hcall q' hq').mp (h q' hq')).mp (mem_endedIds.mpr ⟨q, hq, hend, hid.symm⟩)
    · intro h q hq
      refine (hcall q hq).mpr ⟨fun hin => ?_, fun hend => mem_endedIds.mpr ⟨q, hq, hend, rfl⟩⟩
      obtain ⟨q', hq', hend, hid⟩ := mem_endedIds.mp hin
      exact h.shared hall q' hq' q hq hid.symm hend
  · -- nothing is removed, so no `Done` may have been sent
    have hcall : ∀ q ∈ w.jobs, (q.tag ∉ (handleReadJobs paths z source w io).tags ↔
        (q.job.read paths z source (io q.tag).read).1 = .ok none ∧
          q.tag ∈ doneTags ((handleReadJobs paths z source w io).sent.drop w.sent.length)) ↔
        ¬ (q ∈ w.served io ∧ q.job.exhausted = true) := by
      intro q hq
      have hin : q.tag ∈ w.tags := List.mem_map_of_mem hq
      rw [tags_failed hall, mem_newDone htags hq, read_ok_none_iff]
      tauto
    constructor
    · intro h
      refine ⟨fun h' => absurd h' hall, fun _ q hq => ?_⟩
      have hnot := (hcall q (mem_of_mem_served hq)).mp (h q (mem_of_mem_served hq))
      exact eq_false_of_ne_true fun hend => hnot ⟨hq, hend⟩
    · intro h q hq
      refine (hcall q hq).mpr ?_
      rintro ⟨hserved, hend⟩
      rw [h.failed hall q hserved] at hend
      cases hend

/-! ## Runs -/

theorem doneTags_append (sent sent' : List Posted) :
    doneTags (sent ++ sent') = doneTags sent ++ doneTags sent' := by
  rw [doneTags, List.filter_append, List.map_append]
  rfl

theorem newDone_sublist (paths : Paths Loc) (z : Zstd) (source : FileStore Loc) (w : Queue)
    (io : ℕ → JobIo) : (doneTags
      ((handleReadJobs paths z source w io).sent.drop w.sent.length)).Sublist w.tags := by
  have hserved : ((w.served io).map (QueuedJob.posted paths z source io)).map Posted.tag =
      (w.served io).map QueuedJob.tag := List.map_map
  rw [sent_eq, List.drop_left, doneTags]
  refine (List.filter_sublist.map Posted.tag).trans ?_
  rw [hserved]
  exact (List.takeWhile_sublist _).map QueuedJob.tag

theorem Accounted.nodup {n : ℕ} (h : Accounted n w) : w.tags.Nodup :=
  (List.nodup_append.mp (h.nodup_iff.mpr List.nodup_range)).2.1

/-- Whoever leaves when its `Done` is sent stays accounted for. -/
theorem accounted_step {n : ℕ} (h : Accounted n w) (hleaves : LeavesWhenDone paths z source w io) :
    Accounted n (handleReadJobs paths z source w io) := by
  have htags := h.nodup
  have hnew := newDone_sublist paths z source w io
  have hold := tags_sublist paths z source w io
  have hsent : doneTags (handleReadJobs paths z source w io).sent = doneTags w.sent ++
      doneTags ((handleReadJobs paths z source w io).sent.drop w.sent.length) := by
    rw [sent_eq, List.drop_left, doneTags_append]
  rw [Accounted, hsent, List.append_assoc]
  refine (List.Perm.append_left _ ?_).trans h
  refine (List.perm_ext_iff_of_nodup ?_ htags).mpr fun tag => ?_
  · refine List.nodup_append.mpr ⟨htags.sublist hnew, htags.sublist hold, ?_⟩
    rintro tag hdone _ hstays rfl
    obtain ⟨q, hq, rfl⟩ := List.mem_map.mp (hnew.subset hdone)
    have hread := (read_ok_none_iff paths z source q.job (io q.tag).read).mpr
      ((mem_newDone htags hq).mp hdone).2
    exact (hleaves q hq).mpr ⟨hread, hdone⟩ hstays
  · constructor
    · intro hin
      rcases List.mem_append.mp hin with hdone | hstays
      · exact hnew.subset hdone
      · exact hold.subset hstays
    · intro hin
      obtain ⟨q, hq, rfl⟩ := List.mem_map.mp hin
      by_cases hstays : q.tag ∈ (handleReadJobs paths z source w io).tags
      · exact List.mem_append_right _ hstays
      · exact List.mem_append_left _ ((hleaves q hq).mp hstays).2

theorem accounted_start (jobs : List TransferJob) : Accounted jobs.length (.start jobs) := by
  have htags : (Queue.start jobs).tags = List.range jobs.length := by
    rw [Queue.tags, Queue.start, List.map_map, List.range_eq_range', ← List.zipIdx_map_snd]
    rfl
  rw [Accounted, htags]
  exact List.Perm.refl _

/-- **When jobs leave, exactly.** Over every run of calls on a vector of jobs with
any ids, in every call the jobs that are removed are those that came to their end
and whose `Done` was sent, and every job is at every moment in the vector or its
`Done` was sent once, if and only if no call is contested. -/
theorem jobs_leave_when_done_iff (paths : Paths Loc) (z : Zstd) (source : FileStore Loc)
    (jobs : List TransferJob) (calls : List (ℕ → JobIo)) :
    (Along (handleReadJobs paths z source) (LeavesWhenDone paths z source) (.start jobs) calls ∧
      Always (handleReadJobs paths z source) (Accounted jobs.length) (.start jobs) calls) ↔
      Along (handleReadJobs paths z source) Uncontested (.start jobs) calls := by
  have hstart := accounted_start jobs
  constructor
  · rintro ⟨hleaves, -⟩
    exact along_of_along (fun _ _ h hl => accounted_step h hl)
      (fun _ _ h hl => (leavesWhenDone_iff h.nodup).mp hl) hstart hleaves
  · intro hcalls
    have hkept : ∀ (w : Queue) (io : ℕ → JobIo), Accounted jobs.length w → Uncontested w io →
        Accounted jobs.length (handleReadJobs paths z source w io) :=
      fun w io h hu => accounted_step h ((leavesWhenDone_iff h.nodup).mpr hu)
    exact ⟨along_of_along hkept (fun _ _ h hu => (leavesWhenDone_iff h.nodup).mpr hu) hstart
      hcalls, always_of_along hkept hstart hcalls⟩

end

/-- Two jobs with one id; the second has a file to send. -/
def sharedId : List TransferJob :=
  [.newRead 1 "s".toList [], .newRead 1 "s".toList [⟨"a".toList, 0, 0⟩]]

def reading : ℕ → JobIo := fun _ => ⟨⟨true, []⟩, true⟩

/-- The message of the second job cannot be sent. -/
def secondFails : ℕ → JobIo := fun tag => ⟨⟨true, []⟩, tag != 1⟩

/-- A job with nothing to send and one whose only file cannot be opened. -/
def twoJobs : List TransferJob :=
  [.newRead 1 "s".toList [], .newRead 2 "s".toList [⟨"a".toList, 0, 0⟩]]

/-- The end of the first job removes both; and a job whose `Done` was sent before
another job's message failed sends a second one. -/
theorem unfinished_removed_and_done_twice :
    (handleReadJobs .lexical .framed .empty (.start sharedId) reading).tags = [] ∧
      doneTags (handleReadJobs .lexical .framed .empty (.start sharedId) reading).sent = [0] ∧
      doneTags ([secondFails, reading].foldl (handleReadJobs .lexical .framed .empty)
        (.start twoJobs)).sent = [0, 0, 1] ∧
      ¬ Always (handleReadJobs .lexical .framed .empty) (Accounted 2) (.start sharedId)
        [reading] ∧
      ¬ Always (handleReadJobs .lexical .framed .empty) (Accounted 2) (.start twoJobs)
        [secondFails, reading] := by
  refine ⟨by decide, by decide, by decide, fun h => ?_, fun h => ?_⟩
  · exact absurd (h.final [reading]).length_eq (by decide)
  · have hlast := h.final [secondFails, reading]
    exact absurd (hlast.nodup_iff.mpr List.nodup_range) (by decide)

end RustdeskServer.Transfer
