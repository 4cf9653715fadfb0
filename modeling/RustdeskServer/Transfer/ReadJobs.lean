import RustdeskServer.Framework.Runs
import RustdeskServer.Transfer.Sender

/-!
# Read jobs in one vector (`handle_read_jobs`)

A call of `handle_read_jobs` reads once from every job of a vector and sends what
it read. The ids of the jobs that came to their end are collected on the way and
removed behind the loop; a send that fails returns before.

`readJobs_all` and `readJobs_until` say what the loop does when all sends succeed
and when one fails. If the ids are distinct, removing by id removes just the jobs
that came to their end, and the messages of a job are those it sends alone.
-/

namespace RustdeskServer.Transfer

open RustdeskServer.Framework

/-! ## Messages -/

/-- `FileResponse` (`message.proto`), as far as `handle_read_jobs` sends it. The
text of an error stands for itself; that of an I/O error is the system's. -/
inductive FileResponse where
  | error (id : Int32) (error : TransferError) (fileNum : Int32)
  | block (block : FileTransferBlock)
  | done (id fileNum : Int32)
deriving DecidableEq

def newError (id : Int32) (err : TransferError) (fileNum : Int32) : FileResponse :=
  .error id err fileNum

def newBlock (block : FileTransferBlock) : FileResponse := .block block

def newDone (id fileNum : Int32) : FileResponse := .done id fileNum

def FileResponse.id : FileResponse → Int32
  | .error id _ _ => id
  | .block b => b.id
  | .done id _ => id

def FileResponse.isDone : FileResponse → Bool
  | .done _ _ => true
  | _ => false

/-! ## The vector -/

/-- A job in the vector. `tag` is its place at the start: the code has no such
field and nothing reads it, it is there for the results to speak about. -/
structure QueuedJob where
  tag : ℕ
  job : TransferJob

/-- A message that was sent, and the job it was sent for. -/
structure Posted where
  tag : ℕ
  message : FileResponse
deriving DecidableEq

/-- What happens to a job during one call: what the operating system answers to
its `read`, and whether its message can be sent. -/
structure JobIo where
  read : ReadIo
  sends : Bool

/-- The vector, and what has been sent. -/
structure Queue where
  jobs : List QueuedJob
  sent : List Posted

/-- What the loop leaves. -/
structure Pass where
  jobs : List QueuedJob
  finished : List Int32
  sent : List Posted
  ok : Bool

/-- The message for what `read` returned; the job is the one after it. -/
def TransferJob.response (job : TransferJob) : ReadResult → FileResponse
  | .error err => newError job.id err job.fileNum
  | .ok (some block) => newBlock block
  | .ok none => newDone job.id job.fileNum

def removeJob (id : Int32) (jobs : List QueuedJob) : List QueuedJob :=
  jobs.filter fun q => q.job.id ≠ id

section
variable {Loc : Type*} (paths : Paths Loc) (z : Zstd) (source : FileStore Loc)

/-- The loop over the jobs. -/
def readJobs (io : ℕ → JobIo) : List QueuedJob → Pass
  | [] => ⟨[], [], [], true⟩
  | q :: jobs =>
      let (result, job) := q.job.read paths z source (io q.tag).read
      let finished := match result with
        | .ok none => [job.id]
        | _ => []
      if (io q.tag).sends then
        let rest := readJobs io jobs
        ⟨⟨q.tag, job⟩ :: rest.jobs, finished ++ rest.finished,
          ⟨q.tag, job.response result⟩ :: rest.sent, rest.ok⟩
      -- `send` returned an error: the jobs behind are not read
      else ⟨⟨q.tag, job⟩ :: jobs, finished, [], false⟩

def handleReadJobs (w : Queue) (io : ℕ → JobIo) : Queue :=
  let pass := readJobs paths z source io w.jobs
  { jobs :=
      if pass.ok then pass.finished.foldl (fun jobs id => removeJob id jobs) pass.jobs
      else pass.jobs
    sent := w.sent ++ pass.sent }

def Queue.start (jobs : List TransferJob) : Queue :=
  ⟨jobs.zipIdx.map fun job => ⟨job.2, job.1⟩, []⟩

/-- A job that is read, and sent for, until it comes to its end. -/
def TransferJob.alone (job : TransferJob) : List ReadIo → List FileResponse
  | [] => []
  | io :: ios =>
      let (result, job) := job.read paths z source io
      match result with
      | .ok none => [job.response result]
      | _ => job.response result :: job.alone ios

/-! ## One job in a call -/

/-- All entries have been read, or failed. -/
def TransferJob.exhausted (job : TransferJob) : Bool :=
  job.files[asUsize job.fileNum]?.isNone

namespace QueuedJob

def advance (io : ℕ → JobIo) (q : QueuedJob) : QueuedJob :=
  ⟨q.tag, (q.job.read paths z source (io q.tag).read).2⟩

def posted (io : ℕ → JobIo) (q : QueuedJob) : Posted :=
  let (result, job) := q.job.read paths z source (io q.tag).read
  ⟨q.tag, job.response result⟩

end QueuedJob

variable {paths z source}

theorem read_id (job : TransferJob) (io : ReadIo) :
    (job.read paths z source io).2.id = job.id := by
  generalize hread : job.read paths z source io = res
  cases took_of_read hread with
  | _ => rfl

/-- The message is for the job it was read from. -/
theorem response_id (job : TransferJob) (io : ReadIo) :
    ((job.read paths z source io).2.response (job.read paths z source io).1).id = job.id := by
  generalize hread : job.read paths z source io = res
  cases took_of_read hread with
  | _ => rfl

theorem exhausted_iff {job : TransferJob} :
    job.exhausted = true ↔ job.files[asUsize job.fileNum]? = none := by
  rw [TransferJob.exhausted, Option.isNone_iff_eq_none]

/-- `read` returns `Ok(None)` at the end of the list and nowhere else. -/
theorem read_ok_none_iff (paths : Paths Loc) (z : Zstd) (source : FileStore Loc)
    (job : TransferJob) (io : ReadIo) :
    (job.read paths z source io).1 = .ok none ↔ job.exhausted = true := by
  rw [exhausted_iff]
  constructor
  · intro hread
    generalize hres : job.read paths z source io = res at hread
    cases took_of_read hres with
    | nothing hend => exact hend
    | unopened | unread | ended | filled => cases hread
  · intro hend
    rw [read_of_none hend]

theorem response_isDone (job : TransferJob) (io : ReadIo) :
    ((job.read paths z source io).2.response (job.read paths z source io).1).isDone =
      job.exhausted := by
  rw [Bool.eq_iff_iff, ← read_ok_none_iff paths z source job io]
  cases (job.read paths z source io).1 with
  | error err => exact ⟨nofun, nofun⟩
  | ok block =>
      cases block with
      | none => exact ⟨fun _ => rfl, fun _ => rfl⟩
      | some block => exact ⟨nofun, nofun⟩

/-! ## The loop -/

/-- The ids the loop collects for a job. -/
theorem finished_eq (paths : Paths Loc) (z : Zstd) (source : FileStore Loc)
    (job : TransferJob) (io : ReadIo) :
    (match (job.read paths z source io).1 with
      | .ok none => [(job.read paths z source io).2.id]
      | _ => []) = if job.exhausted then [job.id] else [] := by
  rw [read_id]
  by_cases hend : job.exhausted = true
  · rw [if_pos hend, (read_ok_none_iff paths z source job io).mpr hend]
  · rw [if_neg hend]
    split
    case h_1 hread => exact absurd ((read_ok_none_iff paths z source job io).mp hread) hend
    case h_2 => rfl

theorem readJobs_sent {io : ℕ → JobIo} {q : QueuedJob} (h : (io q.tag).sends = true)
    (jobs : List QueuedJob) :
    readJobs paths z source io (q :: jobs) =
      ⟨q.advance paths z source io :: (readJobs paths z source io jobs).jobs,
        (if q.job.exhausted then [q.job.id] else []) ++
          (readJobs paths z source io jobs).finished,
        q.posted paths z source io :: (readJobs paths z source io jobs).sent,
        (readJobs paths z source io jobs).ok⟩ := by
  rw [← finished_eq paths z source q.job (io q.tag).read, readJobs]
  exact if_pos h

/-- All sends succeed: every job is read and sent for. -/
theorem readJobs_all {io : ℕ → JobIo} {jobs : List QueuedJob}
    (h : ∀ q ∈ jobs, (io q.tag).sends = true) :
    readJobs paths z source io jobs =
      ⟨jobs.map (QueuedJob.advance paths z source io),
        (jobs.filter fun q => q.job.exhausted).map fun q => q.job.id,
        jobs.map (QueuedJob.posted paths z source io), true⟩ := by
  induction jobs with
  | nil => rfl
  | cons q jobs ih =>
      rw [readJobs_sent (h q List.mem_cons_self),
        ih fun q' hq' => h q' (List.mem_cons_of_mem q hq'), List.filter_cons]
      cases hend : q.job.exhausted with
      | true => rfl
      | false => rfl

/-- A send fails: the jobs before were read and sent for, the job was read, and the
jobs behind were not. -/
theorem readJobs_until (paths : Paths Loc) (z : Zstd) (source : FileStore Loc)
    {io : ℕ → JobIo} {before : List QueuedJob} {q : QueuedJob} (after : List QueuedJob)
    (h : ∀ q ∈ before, (io q.tag).sends = true) (hq : (io q.tag).sends = false) :
    (readJobs paths z source io (before ++ q :: after)).jobs =
        before.map (QueuedJob.advance paths z source io) ++
          q.advance paths z source io :: after ∧
      (readJobs paths z source io (before ++ q :: after)).sent =
        before.map (QueuedJob.posted paths z source io) ∧
      (readJobs paths z source io (before ++ q :: after)).ok = false := by
  induction before with
  | nil =>
      have hfails : ¬ (io q.tag).sends = true := by
        rw [hq]
        exact Bool.false_ne_true
      rw [List.nil_append, readJobs]
      dsimp only
      rw [if_neg hfails]
      exact ⟨rfl, rfl, rfl⟩
  | cons q' before ih =>
      obtain ⟨hjobs, hsent, hok⟩ := ih fun q hq => h q (List.mem_cons_of_mem q' hq)
      rw [List.cons_append, readJobs_sent (h q' List.mem_cons_self), hjobs, hsent, hok]
      exact ⟨rfl, rfl, rfl⟩

theorem foldl_removeJob (ids : List Int32) (jobs : List QueuedJob) :
    ids.foldl (fun jobs id => removeJob id jobs) jobs = jobs.filter fun q => q.job.id ∉ ids := by
  induction ids generalizing jobs with
  | nil => simp
  | cons id ids ih =>
      rw [List.foldl_cons, ih, removeJob, List.filter_filter]
      refine List.filter_congr fun q _ => ?_
      simp only [List.mem_cons, not_or, Bool.decide_and, Bool.and_comm]

/-- The ids of the jobs that have come to their end. -/
def Queue.endedIds (w : Queue) : List Int32 :=
  (w.jobs.filter fun q => q.job.exhausted).map fun q => q.job.id

/-- A call whose sends all succeed. -/
theorem handleReadJobs_all {w : Queue} {io : ℕ → JobIo}
    (h : ∀ q ∈ w.jobs, (io q.tag).sends = true) :
    handleReadJobs paths z source w io =
      ⟨(w.jobs.filter fun q => q.job.id ∉ w.endedIds).map (QueuedJob.advance paths z source io),
        w.sent ++ w.jobs.map (QueuedJob.posted paths z source io)⟩ := by
  have hids : (fun q : QueuedJob => decide (q.job.id ∉ w.endedIds)) ∘
      QueuedJob.advance paths z source io = fun q => decide (q.job.id ∉ w.endedIds) := by
    funext q
    simp only [Function.comp_apply, QueuedJob.advance, read_id]
  rw [handleReadJobs, readJobs_all h]
  dsimp only
  rw [if_pos rfl, foldl_removeJob, List.filter_map, ← hids]
  rfl

/-- A call in which a send fails. -/
theorem handleReadJobs_until {w : Queue} {io : ℕ → JobIo} {before after : List QueuedJob}
    {q : QueuedJob} (hjobs : w.jobs = before ++ q :: after)
    (h : ∀ q ∈ before, (io q.tag).sends = true) (hq : (io q.tag).sends = false) :
    handleReadJobs paths z source w io =
      ⟨before.map (QueuedJob.advance paths z source io) ++ q.advance paths z source io :: after,
        w.sent ++ before.map (QueuedJob.posted paths z source io)⟩ := by
  obtain ⟨hleft, hsent, hok⟩ := readJobs_until paths z source after h hq
  rw [handleReadJobs, hjobs, hleft, hsent, hok, if_neg Bool.false_ne_true]

/-! ## Jobs with distinct ids -/

theorem filter_eq_singleton {jobs : List QueuedJob} {q : QueuedJob}
    (hids : (jobs.map fun q => q.job.id).Nodup) (hq : q ∈ jobs) :
    (jobs.filter fun q' => q'.job.id = q.job.id) = [q] := by
  have hmem : ∀ q', q' ∈ (jobs.filter fun q' => q'.job.id = q.job.id) ↔ q' ∈ [q] := by
    intro q'
    rw [List.mem_filter, List.mem_singleton, decide_eq_true_iff]
    constructor
    · rintro ⟨hq', hsame⟩
      exact List.inj_on_of_nodup_map hids hq' hq hsame
    · rintro rfl
      exact ⟨hq, rfl⟩
  have hperm : (jobs.filter fun q' => q'.job.id = q.job.id).Perm [q] :=
    (List.perm_ext_iff_of_nodup (hids.of_map.filter _) (List.nodup_singleton q)).mpr hmem
  exact List.perm_singleton.mp hperm

/-- With distinct ids, those whose id is collected are those that ended. -/
theorem ended_iff {w : Queue} (hids : (w.jobs.map fun q => q.job.id).Nodup) {q : QueuedJob}
    (hq : q ∈ w.jobs) : q.job.id ∈ w.endedIds ↔ q.job.exhausted = true := by
  constructor
  · intro hin
    obtain ⟨q', hq', hsame⟩ := List.mem_map.mp hin
    obtain ⟨hmem, hended⟩ := List.mem_filter.mp hq'
    rw [← List.inj_on_of_nodup_map hids hmem hq hsame]
    exact hended
  · exact fun hended => List.mem_map.mpr ⟨q, List.mem_filter.mpr ⟨hq, hended⟩, rfl⟩

/-- A call in which nothing fails: one message for each job, in order; the jobs
whose message is `Done` leave, and the others are where their own read left them. -/
structure Serves (paths : Paths Loc) (z : Zstd) (source : FileStore Loc) (w : Queue)
    (io : ℕ → JobIo) : Prop where
  sent : (handleReadJobs paths z source w io).sent =
    w.sent ++ w.jobs.map (QueuedJob.posted paths z source io)
  kept : (handleReadJobs paths z source w io).jobs =
    (w.jobs.filter fun q => !(q.posted paths z source io).message.isDone).map
      (QueuedJob.advance paths z source io)

theorem posted_isDone (io : ℕ → JobIo) (q : QueuedJob) :
    (q.posted paths z source io).message.isDone = q.job.exhausted :=
  response_isDone q.job (io q.tag).read

theorem serves_of_nodup {w : Queue} (hids : (w.jobs.map fun q => q.job.id).Nodup)
    {io : ℕ → JobIo} (h : ∀ tag, (io tag).sends = true) : Serves paths z source w io := by
  have hall : handleReadJobs paths z source w io = _ := handleReadJobs_all fun q _ => h q.tag
  constructor
  · rw [hall]
  · rw [hall]
    refine congrArg (List.map _) (List.filter_congr fun q hq => ?_)
    rw [posted_isDone, decide_not, Bool.not_inj_iff, Bool.eq_iff_iff, decide_eq_true_iff]
    exact ended_iff hids hq

theorem Serves.nodup {w : Queue} {io : ℕ → JobIo} (h : Serves paths z source w io)
    (hids : (w.jobs.map fun q => q.job.id).Nodup) :
    ((handleReadJobs paths z source w io).jobs.map fun q => q.job.id).Nodup := by
  rw [h.kept, List.map_map]
  have hid : (fun q : QueuedJob => q.job.id) ∘ QueuedJob.advance paths z source io =
      fun q => q.job.id := by
    funext q
    exact read_id q.job (io q.tag).read
  rw [hid]
  exact hids.sublist (List.filter_sublist.map _)

/-- The messages with an id. -/
def messagesFor (id : Int32) (sent : List Posted) : List FileResponse :=
  (sent.filter fun p => p.message.id = id).map Posted.message

theorem messagesFor_append (id : Int32) (sent sent' : List Posted) :
    messagesFor id (sent ++ sent') = messagesFor id sent ++ messagesFor id sent' := by
  rw [messagesFor, List.filter_append, List.map_append]
  rfl

theorem posted_id (io : ℕ → JobIo) (q : QueuedJob) :
    (q.posted paths z source io).message.id = q.job.id :=
  response_id q.job (io q.tag).read

theorem messagesFor_posted (io : ℕ → JobIo) (jobs : List QueuedJob) (id : Int32) :
    messagesFor id (jobs.map (QueuedJob.posted paths z source io)) =
      (jobs.filter fun q => q.job.id = id).map
        fun q => (q.posted paths z source io).message := by
  have hkey : (fun p : Posted => decide (p.message.id = id)) ∘
      QueuedJob.posted paths z source io = fun q => decide (q.job.id = id) := by
    funext q
    exact congrArg (fun i => decide (i = id)) (posted_id io q)
  rw [messagesFor, List.filter_map, hkey, List.map_map]
  rfl

theorem alone_cons (io : ℕ → JobIo) (q : QueuedJob) (ios : List ReadIo) :
    q.job.alone paths z source ((io q.tag).read :: ios) =
      (q.posted paths z source io).message ::
        if q.job.exhausted then []
        else (q.advance paths z source io).job.alone paths z source ios := by
  rw [TransferJob.alone]
  dsimp only
  by_cases hend : q.job.exhausted = true
  · have hread := (read_ok_none_iff paths z source q.job (io q.tag).read).mpr hend
    rw [if_pos hend, QueuedJob.posted]
    dsimp only
    rw [hread]
  · rw [if_neg hend]
    split
    case h_1 hread => exact absurd ((read_ok_none_iff paths z source q.job _).mp hread) hend
    case h_2 => rfl

/-- Calls whose sends all succeed; what the operating system answers is given for
each job. -/
def sending (reads : List (ℕ → ReadIo)) : List (ℕ → JobIo) :=
  reads.map fun read tag => ⟨read tag, true⟩

theorem Serves.messages {w : Queue} {io : ℕ → JobIo} (h : Serves paths z source w io)
    (id : Int32) :
    messagesFor id (handleReadJobs paths z source w io).sent = messagesFor id w.sent ++
      (w.jobs.filter fun q => q.job.id = id).map
        fun q => (q.posted paths z source io).message := by
  rw [h.sent, messagesFor_append, messagesFor_posted]

/-- A job behind a call was there before it, with the same id, and had not ended. -/
theorem Serves.before {w : Queue} {io : ℕ → JobIo} (h : Serves paths z source w io)
    {q : QueuedJob} (hq : q ∈ (handleReadJobs paths z source w io).jobs) :
    ∃ q' ∈ w.jobs, q'.job.exhausted = false ∧ q.job.id = q'.job.id := by
  rw [h.kept] at hq
  obtain ⟨q', hq', rfl⟩ := List.mem_map.mp hq
  obtain ⟨hmem, hgoes⟩ := List.mem_filter.mp hq'
  rw [posted_isDone] at hgoes
  exact ⟨q', hmem, (Bool.not_eq_true' _).mp hgoes, read_id q'.job (io q'.tag).read⟩

theorem Serves.stays {w : Queue} {io : ℕ → JobIo} (h : Serves paths z source w io)
    {q : QueuedJob} (hq : q ∈ w.jobs) (hend : q.job.exhausted = false) :
    q.advance paths z source io ∈ (handleReadJobs paths z source w io).jobs := by
  rw [h.kept]
  refine List.mem_map_of_mem (List.mem_filter.mpr ⟨hq, ?_⟩)
  rw [posted_isDone, hend]
  rfl

/-- An id that no job has gets no messages. -/
theorem messages_others (reads : List (ℕ → ReadIo)) {w : Queue} {id : Int32}
    (hids : (w.jobs.map fun q => q.job.id).Nodup) (hnone : ∀ q ∈ w.jobs, q.job.id ≠ id) :
    messagesFor id ((sending reads).foldl (handleReadJobs paths z source) w).sent =
      messagesFor id w.sent := by
  induction reads generalizing w with
  | nil => rfl
  | cons read reads ih =>
      have hserves : Serves paths z source w fun tag => ⟨read tag, true⟩ :=
        serves_of_nodup hids fun _ => rfl
      have hfilter : (w.jobs.filter fun q => q.job.id = id) = [] :=
        List.filter_eq_nil_iff.mpr fun q hq => by simpa using hnone q hq
      refine (ih (hserves.nodup hids) ?_).trans ?_
      · intro q hq
        obtain ⟨q', hq', -, hsame⟩ := hserves.before hq
        rw [hsame]
        exact hnone q' hq'
      · rw [hserves.messages, hfilter, List.map_nil, List.append_nil]

/-- From any vector with distinct ids: the messages of a job are those it sends
alone. -/
theorem messages_run (reads : List (ℕ → ReadIo)) {w : Queue}
    (hids : (w.jobs.map fun q => q.job.id).Nodup) {q : QueuedJob} (hq : q ∈ w.jobs) :
    messagesFor q.job.id ((sending reads).foldl (handleReadJobs paths z source) w).sent =
      messagesFor q.job.id w.sent ++
        q.job.alone paths z source (reads.map fun read => read q.tag) := by
  induction reads generalizing w q with
  | nil => exact (List.append_nil _).symm
  | cons read reads ih =>
      have hserves : Serves paths z source w fun tag => ⟨read tag, true⟩ :=
        serves_of_nodup hids fun _ => rfl
      have hown := hserves.messages q.job.id
      rw [filter_eq_singleton hids hq] at hown
      have halone : q.job.alone paths z source
          (read q.tag :: reads.map fun read => read q.tag) = _ :=
        alone_cons (fun tag => ⟨read tag, true⟩) q _
      rw [List.map_cons, halone]
      cases hend : q.job.exhausted with
      | true =>
          -- the job has left, and its id with it
          refine (messages_others reads (hserves.nodup hids) fun q' hq' hsame => ?_).trans hown
          obtain ⟨q'', hq'', hgoes, hid⟩ := hserves.before hq'
          rw [List.inj_on_of_nodup_map hids hq'' hq (hid.symm.trans hsame), hend] at hgoes
          cases hgoes
      | false =>
          have hrun := ih (hserves.nodup hids) (hserves.stays hq hend)
          rw [QueuedJob.advance, read_id, hown, List.append_assoc] at hrun
          exact hrun

theorem start_ids (jobs : List TransferJob) :
    (Queue.start jobs).jobs.map (fun q => q.job.id) = jobs.map TransferJob.id := by
  rw [Queue.start, List.map_map]
  conv_rhs => rw [← List.zipIdx_map_fst 0 jobs, List.map_map]
  rfl

theorem mem_start {jobs : List TransferJob} {tag : ℕ} {job : TransferJob}
    (h : jobs[tag]? = some job) : ⟨tag, job⟩ ∈ (Queue.start jobs).jobs :=
  List.mem_map.mpr ⟨(job, tag), List.mem_zipIdx_iff_getElem?.mpr h, rfl⟩

/-- **Read jobs do not interfere.** For every vector of jobs with distinct ids, in
whatever state, and any number of calls whose sends succeed: each call sends one
message for each job, removes the jobs whose message is `Done`, and leaves the
others in their order, where their own read has brought them; the messages with
the id of a job are, in order, those that the job sends alone, the last of them
`Done` once it has come to its end. -/
theorem jobs_do_not_interfere (paths : Paths Loc) (z : Zstd) (source : FileStore Loc)
    (jobs : List TransferJob) (hids : (jobs.map TransferJob.id).Nodup)
    (reads : List (ℕ → ReadIo)) :
    Along (handleReadJobs paths z source) (Serves paths z source) (.start jobs)
        (sending reads) ∧
      ∀ (tag : ℕ) (job : TransferJob), jobs[tag]? = some job → messagesFor job.id
          ((sending reads).foldl (handleReadJobs paths z source) (.start jobs)).sent =
        job.alone paths z source (reads.map fun read => read tag) := by
  rw [← start_ids] at hids
  constructor
  · have hsends : Along (handleReadJobs paths z source)
        (fun _ io => ∀ tag, (io tag).sends = true) (.start jobs) (sending reads) := by
      refine along_of_forall fun io hio => ?_
      obtain ⟨read, -, rfl⟩ := List.mem_map.mp hio
      exact fun _ => rfl
    exact along_of_along (fun _ _ h hs => (serves_of_nodup h hs).nodup h)
      (fun _ _ h hs => serves_of_nodup h hs) hids hsends
  · intro tag job hjob
    exact messages_run reads hids (mem_start hjob)

end

/-- A job with nothing to send, one with a file and one whose only file is not there. -/
def threeJobs : List TransferJob :=
  [.newRead 1 "s".toList [], .newRead 2 "s".toList [⟨"a".toList, 1, 0⟩],
    .newRead 3 "s".toList [⟨"b".toList, 1, 0⟩]]

/-- Three calls; nothing fails but to open what is not there. -/
def threeCalls : List (ℕ → JobIo) :=
  sending [fun _ => ⟨true, []⟩, fun _ => ⟨true, []⟩, fun _ => ⟨true, []⟩]

theorem jobs_do_not_interfere_three :
    (threeJobs.map TransferJob.id).Nodup ∧
      Along (handleReadJobs .lexical .framed (filesAt [("s/a".toList, [7])]))
        (Serves .lexical .framed (filesAt [("s/a".toList, [7])])) (.start threeJobs) threeCalls ∧
      ∀ (tag : ℕ) (job : TransferJob), threeJobs[tag]? = some job → messagesFor job.id
          (threeCalls.foldl (handleReadJobs .lexical .framed (filesAt [("s/a".toList, [7])]))
            (.start threeJobs)).sent =
        job.alone .lexical .framed (filesAt [("s/a".toList, [7])])
          [⟨true, []⟩, ⟨true, []⟩, ⟨true, []⟩] := by
  have hids : (threeJobs.map TransferJob.id).Nodup := by decide
  exact ⟨hids, jobs_do_not_interfere .lexical .framed _ threeJobs hids _⟩

/-- The second job sends its file and the end of it, the third one cannot, and all are
done. -/
example : (threeCalls.foldl (handleReadJobs .lexical .framed (filesAt [("s/a".toList, [7])]))
    (.start threeJobs)).sent.map Posted.message =
      [newDone 1 0, newBlock ⟨2, 0, [7], false⟩, newError 3 .io 1, newBlock ⟨2, 0, [], false⟩,
        newDone 3 1, newDone 2 1] := by decide

end RustdeskServer.Transfer
