import RustdeskServer.Transfer.EndToEnd
import RustdeskServer.Transfer.ReadJobs
import RustdeskServer.Transfer.Untouched

/-!
# Several transfers at once

A sending end with a vector of read jobs and a receiving end with a vector of
write jobs, over one connection: each call of `handle_read_jobs` sends one message
for each job, and a block that arrives goes to the job that `get_job` finds for
its id. The write jobs share one file system.

A `write` leaves alone every location that is not one of its own job's
(`write_agrees`), so what holds of a transfer alone, `Link.Invariant`, is kept by
the blocks of the others if the places are disjoint; and a call brings every job
that is left forward by one round. `together_delivered` is the result.
-/

namespace RustdeskServer.Transfer

open RustdeskServer.Codec RustdeskServer.Framework TransferJob

/-! ## Both ends -/

/-- The first job with this id. -/
def getJob (id : Int32) (jobs : List TransferJob) : Option TransferJob :=
  jobs.find? fun job => job.id = id

/-- The jobs after the one that `get_job` finds has become `job'`. -/
def setJob (id : Int32) (job' : TransferJob) : List TransferJob → List TransferJob
  | [] => []
  | job :: jobs => if job.id = id then job' :: jobs else job :: setJob id job' jobs

/-- What two machines are to each other, whatever is transferred. -/
structure Ends (Loc Loc' : Type*) where
  src : Paths Loc
  source : FileStore Loc
  dst : Paths Loc'
  z : Zstd

/-- One transfer: the directories at both ends, and the list. -/
structure Request where
  id : Int32
  sourceDir : PathBuf
  dest : PathBuf
  files : List FileEntry

/-- The transfer alone. -/
def Ends.link {Loc Loc' : Type*} (ends : Ends Loc Loc') (r : Request) : Link Loc Loc' :=
  ⟨ends.src, ends.source, ends.dst, ends.z, r.id, r.sourceDir, r.dest, r.files⟩

/-- No call fails. -/
def ReadIo.Ok (io : ReadIo) : Prop := io.opens = true ∧ .err ∉ io.reads

/-- The receiving end: the write jobs and their file system, the blocks that found
no job or that `write` refused, and how many messages there have been. -/
structure Downloads (Loc' : Type*) where
  jobs : List TransferJob
  disk : Disk Loc'
  lost : List FileTransferBlock
  taken : ℕ

structure Transfers (Loc' : Type*) where
  queue : Queue
  downloads : Downloads Loc'

section
variable {Loc Loc' : Type*} [DecidableEq Loc'] (ends : Ends Loc Loc') (clock : ℕ → Int)

/-- A message arrives; `clock` is the time at each of them. -/
def Downloads.take (d : Downloads Loc') : FileResponse → Downloads Loc'
  | .block block =>
      match getJob block.id d.jobs with
      | none => { d with lost := d.lost ++ [block], taken := d.taken + 1 }
      | some job =>
          match job.write ends.dst ends.z d.disk block (.ok (clock d.taken)) with
          | (.ok (), job, disk) => ⟨setJob block.id job d.jobs, disk, d.lost, d.taken + 1⟩
          | (.error _, job, disk) =>
              ⟨setJob block.id job d.jobs, disk, d.lost ++ [block], d.taken + 1⟩
  | _ => { d with taken := d.taken + 1 }

/-- All jobs come to their last `modify_time`. -/
def Downloads.finish (now : Int) (d : Downloads Loc') : Disk Loc' :=
  d.jobs.foldl (fun disk job => job.modifyTime ends.dst disk (.ok now)) d.disk

omit [DecidableEq Loc'] in
/-- A write job for each request. -/
def Downloads.start (requests : List Request) (store : FileStore Loc') : Downloads Loc' :=
  ⟨requests.map fun r => .newWrite r.id r.dest r.files, ⟨store, []⟩, [], 0⟩

namespace Transfers

omit [DecidableEq Loc'] in
/-- A read job and a write job for each request. -/
def start (requests : List Request) (store : FileStore Loc') : Transfers Loc' where
  queue := .start (requests.map fun r => .newRead r.id r.sourceDir r.files)
  downloads := .start requests store

/-- One call of `handle_read_jobs`, and what arrives of it. -/
def step (t : Transfers Loc') (io : ℕ → ReadIo) : Transfers Loc' :=
  let queue := handleReadJobs ends.src ends.z ends.source t.queue fun tag => ⟨io tag, true⟩
  ⟨queue, ((queue.sent.drop t.queue.sent.length).map Posted.message).foldl
    (Downloads.take ends clock) t.downloads⟩

/-- After so many calls. -/
def after (requests : List Request) (store : FileStore Loc') (io : ℕ → ℕ → ReadIo) :
    ℕ → Transfers Loc'
  | 0 => start requests store
  | i + 1 => (after requests store io i).step ends clock (io i)

end Transfers

/-- The places of different requests are different. -/
def Ends.Apart (requests : List Request) : Prop :=
  ∀ r ∈ requests, ∀ r' ∈ requests, r.id ≠ r'.id → ∀ a ∈ r.files, ∀ b ∈ r'.files,
      (ends.link r).final a ≠ (ends.link r').final b ∧
      (ends.link r).final a ≠ (ends.link r').temp b ∧
      (ends.link r).temp a ≠ (ends.link r').temp b

/-- A place that no request has anything to do with. -/
def Ends.Foreign (requests : List Request) (l : Loc') : Prop :=
  ∀ r ∈ requests, ∀ entry ∈ r.files,
    l ≠ (ends.link r).final entry ∧ l ≠ (ends.link r).temp entry

/-- Each request could be served alone, and they are apart. -/
structure Ends.Ready (requests : List Request) : Prop where
  lawful : ends.z.Lawful
  short : ∀ r ∈ requests, r.files.length < 2 ^ 31
  present : ∀ r ∈ requests, ∀ entry ∈ r.files, ((ends.link r).content entry).isSome
  clashFree : ∀ r ∈ requests, (ends.link r).ClashFree
  ids : (requests.map Request.id).Nodup
  apart : ends.Apart requests

omit [DecidableEq Loc'] in
/-- As many calls as all transfers together have to send, and one. -/
def Ends.calls (requests : List Request) : ℕ :=
  (requests.map fun r => (ends.link r).remaining 0 0).sum + 1

/-- Every block was taken; and when all write jobs have come to their last
`modify_time`, each entry of each list has the sender's content at its place, no
temporary file is left, and every other place is as it was. -/
structure Downloads.Complete (requests : List Request) (store : FileStore Loc') (now : Int)
    (d : Downloads Loc') : Prop where
  lost : d.lost = []
  places : ∀ r ∈ requests, ∀ entry ∈ r.files,
    (d.finish ends now).store.read ((ends.link r).final entry) = (ends.link r).content entry ∧
      (d.finish ends now).store.read ((ends.link r).temp entry) = none
  others : ∀ l, ends.Foreign requests l → (d.finish ends now).store.lookup l = store.lookup l

end

/-! ## What a job leaves alone -/

section
variable {Loc : Type*} [DecidableEq Loc] {paths : Paths Loc} {z : Zstd}

theorem modifyTime_agrees {job : TransferJob} {l : Loc}
    (hapart : ∀ entry ∈ job.files,
      l ≠ finalLoc paths job.path entry ∧ l ≠ tempLoc paths job.path entry)
    (disk : Disk Loc) (io : WriteIo) :
    FileStore.Agrees disk.store (job.modifyTime paths disk io).store l := by
  unfold modifyTime
  cases hentry : job.files[asUsize job.fileNum]? with
  | none => exact .refl _ _
  | some entry =>
      obtain ⟨hfinal, htemp⟩ := hapart entry (List.mem_of_getElem? hentry)
      have hmoved : FileStore.Agrees disk.store (disk.rename paths
          (job.join entry.name ++ download) (job.join entry.name) io.renames).store l := by
        cases hren : io.renames with
        | false => exact .refl _ _
        | true => exact FileStore.agrees_rename _ htemp hfinal
      cases hstamp : io.stamps with
      | false => exact hmoved
      | true => exact hmoved.trans (FileStore.agrees_setMtime _ hfinal _)

/-- **A `write` leaves every other location alone.** The open file, if there is
one, is the temporary file of one of the job's entries. -/
theorem write_agrees {s : Receiver Loc} {block : FileTransferBlock} {io : WriteIo}
    (hok : (s.write paths z block io).1 = .ok ())
    (hopen : ∀ file, s.job.file = some file → ∃ entry ∈ s.job.files,
      s.disk.store.inode (tempLoc paths s.job.path entry) = some file.ino) {l : Loc}
    (hapart : ∀ entry ∈ s.job.files,
      l ≠ finalLoc paths s.job.path entry ∧ l ≠ tempLoc paths s.job.path entry) :
    FileStore.Agrees s.disk.store (s.write paths z block io).2.disk.store l := by
  obtain ⟨entry, ⟨-, hentry⟩, hdone⟩ := write_succeeds hok
  rcases hdone with ⟨file, bytes, hfile, -, -, hstore⟩ | ⟨-, made, bytes, hmade, -, hstore⟩
  · obtain ⟨current, hmem, hino⟩ := hopen file hfile
    show FileStore.Agrees _ (s.job.write paths z s.disk block io).2.2.store l
    rw [hstore]
    exact FileStore.agrees_modify_other hino (hapart current hmem).2 _
  · have htemp : l ≠ tempLoc paths s.job.path entry :=
      (hapart entry (List.mem_of_getElem? hentry)).2
    have hino := (FileStore.create_spec (s.job.modifyTime paths s.disk io).store
      (tempLoc paths s.job.path entry) io.now).1
    rw [← hmade] at hino
    show FileStore.Agrees _ (s.job.write paths z s.disk block io).2.2.store l
    rw [hstore]
    refine (modifyTime_agrees hapart s.disk io).trans (.trans ?_
      (FileStore.agrees_modify_other hino htemp _))
    rw [hmade]
    exact FileStore.agrees_create _ htemp _

end

/-! ## A job by its id -/

theorem getJob_eq {jobs : List TransferJob} (hids : (jobs.map TransferJob.id).Nodup) {i : ℕ}
    {job : TransferJob} (hjob : jobs[i]? = some job) : getJob job.id jobs = some job := by
  obtain ⟨found, hfound⟩ : ∃ found, getJob job.id jobs = some found := by
    rw [getJob, ← Option.isSome_iff_exists, List.find?_isSome]
    exact ⟨job, List.mem_of_getElem? hjob, by simp⟩
  have hid : found.id = job.id := by simpa using List.find?_some hfound
  rw [hfound, List.inj_on_of_nodup_map hids (List.mem_of_find?_eq_some hfound)
    (List.mem_of_getElem? hjob) hid]

theorem ids_setJob {id : Int32} {job' : TransferJob} (h : job'.id = id)
    (jobs : List TransferJob) :
    (setJob id job' jobs).map TransferJob.id = jobs.map TransferJob.id := by
  induction jobs with
  | nil => rfl
  | cons job jobs ih =>
      unfold setJob
      split_ifs with hid
      · rw [List.map_cons, List.map_cons, h, hid]
      · rw [List.map_cons, List.map_cons, ih]

/-- With distinct ids, the job at the place of the id is replaced. -/
theorem setJob_eq_set {jobs : List TransferJob} (hids : (jobs.map TransferJob.id).Nodup) {i : ℕ}
    {job : TransferJob} (hjob : jobs[i]? = some job) (job' : TransferJob) :
    setJob job.id job' jobs = jobs.set i job' := by
  induction jobs generalizing i with
  | nil => cases hjob
  | cons first jobs ih =>
      rw [List.map_cons, List.nodup_cons] at hids
      cases i with
      | zero =>
          obtain rfl : first = job := Option.some.inj hjob
          exact if_pos rfl
      | succ i =>
          have hother : first.id ≠ job.id := fun h =>
            hids.1 (h ▸ List.mem_map_of_mem (List.mem_of_getElem? hjob))
          rw [setJob, if_neg hother, ih hids.2 hjob, List.set_cons_succ]

/-! ## A transfer among others -/

theorem Receiving.kept {Loc : Type*} {dst : Paths Loc} {job : TransferJob} {disk disk' : Disk Loc}
    {k : ℕ} {entry : FileEntry} {got : Bytes} (h : Receiving dst ⟨job, disk⟩ k entry got)
    (hkept : FileStore.Agrees disk.store disk'.store (tempLoc dst job.path entry)) :
    Receiving dst ⟨job, disk'⟩ k entry got := by
  obtain ⟨file, hfile, hino, hgot, hpos⟩ := h.file
  refine ⟨h.num, h.entry_eq, file, hfile, hkept.inode.trans hino, ?_, hpos⟩
  rw [← hgot]
  exact congrArg FileData.content (hkept.data _ hino)

namespace Link

variable {Loc Loc' : Type*} {link : Link Loc Loc'}

/-- All places of the transfer are as they were. -/
def Kept (link : Link Loc Loc') (store store' : FileStore Loc') : Prop :=
  ∀ entry ∈ link.files, FileStore.Agrees store store' (link.final entry) ∧
    FileStore.Agrees store store' (link.temp entry)

theorem DoneBut.kept {store store' : FileStore Loc'} {m : ℕ} {cur : Loc'}
    (h : link.DoneBut store m cur) (hkept : link.Kept store store') :
    link.DoneBut store' m cur := by
  intro entry hentry
  obtain ⟨hfinal, htemp⟩ := hkept entry (List.mem_of_mem_take hentry)
  rw [FileStore.read_congr hfinal.lookup, FileStore.read_congr htemp.lookup]
  exact h entry hentry

/-- The invariant is about the places of the transfer. -/
theorem Invariant.kept {sender job : TransferJob} {disk disk' : Disk Loc'} {n pos : ℕ}
    (h : link.Invariant ⟨sender, ⟨job, disk⟩⟩ n pos)
    (hkept : link.Kept disk.store disk'.store) :
    link.Invariant ⟨sender, ⟨job, disk'⟩⟩ n pos := by
  obtain ⟨hlinked, hreading, hstage, hagree⟩ := h
  have hlinked' : link.Linked ⟨sender, ⟨job, disk'⟩⟩ :=
    ⟨hlinked.1, hlinked.2, hlinked.3, hlinked.4, hlinked.5, hlinked.6⟩
  have htemp : ∀ entry ∈ link.files,
      FileStore.Agrees disk.store disk'.store (tempLoc link.dst job.path entry) := by
    intro entry hentry
    rw [show job.path = link.dest from hlinked.receiverPath]
    exact (hkept entry hentry).2
  refine ⟨hlinked', hreading, ?_, ⟨hagree.1, hagree.2, hagree.3⟩⟩
  cases hstage with
  | idle hfile hnum => exact .idle hfile hnum
  | between k entry content hentry hcontent hrec hdone =>
      exact .between k entry content hentry hcontent
        (Receiving.kept hrec (htemp entry (List.mem_of_getElem? hentry))) (hdone.kept hkept)
  | inside _ _ entry content hentry hcontent hlo hhi hrec hdone =>
      exact .inside n pos entry content hentry hcontent hlo hhi
        (Receiving.kept hrec (htemp entry (List.mem_of_getElem? hentry))) (hdone.kept hkept)

/-- The file that is open is the temporary file of an entry. -/
theorem Invariant.opened {s : Pipe Loc'} {n pos : ℕ} (h : link.Invariant s n pos)
    {file : OpenFile} (hfile : s.receiver.job.file = some file) :
    ∃ entry ∈ s.receiver.job.files,
      s.receiver.disk.store.inode (tempLoc link.dst s.receiver.job.path entry) =
        some file.ino := by
  have hreceiving : ∀ {k entry got}, Receiving link.dst s.receiver k entry got →
      ∃ entry ∈ s.receiver.job.files,
        s.receiver.disk.store.inode (tempLoc link.dst s.receiver.job.path entry) =
          some file.ino := by
    intro k entry got hrec
    obtain ⟨file', hfile', hino, -⟩ := hrec.file
    obtain rfl : file' = file := Option.some.inj (hfile'.symm.trans hfile)
    exact ⟨entry, List.mem_of_getElem? hrec.entry_eq, hino⟩
  cases h.stage with
  | idle hnone =>
      rw [hnone] at hfile
      cases hfile
  | between k entry content hentry hcontent hrec => exact hreceiving hrec
  | inside _ _ entry content hentry hcontent hlo hhi hrec => exact hreceiving hrec

/-- So many calls are left, at most: all that is left to send, and the `Done`. -/
def Stands (link : Link Loc Loc') (s : Pipe Loc') : ℕ → Prop
  | 0 => link.Invariant s link.files.length 0
  | left + 1 => ∃ n pos, link.Invariant s n pos ∧ link.remaining n pos ≤ left

theorem Stands.invariant {s : Pipe Loc'} {left : ℕ} (h : link.Stands s left) :
    ∃ n pos, link.Invariant s n pos := by
  cases left with
  | zero => exact ⟨_, _, h⟩
  | succ left =>
      obtain ⟨n, pos, hinv, -⟩ := h
      exact ⟨n, pos, hinv⟩

theorem Stands.kept {sender job : TransferJob} {disk disk' : Disk Loc'} {left : ℕ}
    (h : link.Stands ⟨sender, ⟨job, disk⟩⟩ left) (hkept : link.Kept disk.store disk'.store) :
    link.Stands ⟨sender, ⟨job, disk'⟩⟩ left := by
  cases left with
  | zero => exact Invariant.kept h hkept
  | succ left =>
      obtain ⟨n, pos, hinv, hleft⟩ := h
      exact ⟨n, pos, hinv.kept hkept, hleft⟩

/-- `round_ok`, told as a call: the job is done, or a block is taken and fewer calls
are left. -/
theorem Stands.served [DecidableEq Loc'] (hz : link.z.Lawful) (hlen : link.files.length < 2 ^ 31)
    (hsource : ∀ entry ∈ link.files, (link.content entry).isSome) (hclash : link.ClashFree)
    {s : Pipe Loc'} {left : ℕ} (h : link.Stands s (left + 1)) {round : Round} (hok : round.Ok) :
    ((s.sender.read link.src link.z link.source round.io).1 = .ok none ∧ link.Stands s 0) ∨
    ∃ block, (s.sender.read link.src link.z link.source round.io).1 = .ok (some block) ∧
      (s.receiver.write link.dst link.z block (.ok round.now)).1 = .ok () ∧ 0 < left ∧
      link.Stands ⟨(s.sender.read link.src link.z link.source round.io).2,
        (s.receiver.write link.dst link.z block (.ok round.now)).2⟩ left := by
  obtain ⟨n, pos, hinv, hleft⟩ := h
  rcases round_ok hz hlen hsource hclash hinv hok with
    ⟨rfl, rfl, hdone⟩ | ⟨block, n', pos', hread, hwrite, hnext, hless⟩
  · exact .inl ⟨hdone, hinv⟩
  · rw [step_block (Prod.ext hread rfl)] at hnext
    cases left with
    | zero => omega
    | succ left =>
        exact .inr ⟨block, hread, hwrite, Nat.succ_pos left, n', pos', hnext, by omega⟩

end Link

/-! ## All of them -/

section
variable {Loc Loc' : Type*} [DecidableEq Loc'] {ends : Ends Loc Loc'} {clock : ℕ → Int}

/-- Where all transfers stand, `σ` being the read jobs. -/
structure Downloads.Stand (ends : Ends Loc Loc') (requests : List Request)
    (store : FileStore Loc') (d : Downloads Loc') (σ : ℕ → TransferJob) (left : ℕ → ℕ) :
    Prop where
  ids : d.jobs.map TransferJob.id = requests.map Request.id
  each : ∀ (i : ℕ) (r : Request), requests[i]? = some r → ∃ job, d.jobs[i]? = some job ∧
    (ends.link r).Stands ⟨σ i, ⟨job, d.disk⟩⟩ (left i)
  lost : d.lost = []
  others : ∀ l, ends.Foreign requests l → FileStore.Agrees store d.disk.store l

/-- A block that a job accepts goes to it. -/
theorem take_block {d : Downloads Loc'} (hids : (d.jobs.map TransferJob.id).Nodup) {i : ℕ}
    {job : TransferJob} (hjob : d.jobs[i]? = some job) {block : FileTransferBlock}
    (hok : ((⟨job, d.disk⟩ : Receiver Loc').write ends.dst ends.z block
      (.ok (clock d.taken))).1 = .ok ()) :
    d.take ends clock (.block block) =
      let s := ((⟨job, d.disk⟩ : Receiver Loc').write ends.dst ends.z block
        (.ok (clock d.taken))).2
      ⟨d.jobs.set i s.job, s.disk, d.lost, d.taken + 1⟩ := by
  obtain ⟨-, ⟨hid, -⟩, -⟩ := write_succeeds hok
  have hid : block.id = job.id := hid
  dsimp only
  rw [← setJob_eq_set hids hjob, Downloads.take, hid, getJob_eq hids hjob]
  dsimp only
  unfold Receiver.write at hok ⊢
  dsimp only at hok ⊢
  generalize job.write ends.dst ends.z d.disk block (.ok (clock d.taken)) = w at hok
  obtain ⟨res, job', disk'⟩ := w
  obtain rfl : res = .ok () := hok
  rfl

omit [DecidableEq Loc'] in
theorem Ends.Foreign.of_mem {requests : List Request} {l : Loc'}
    (h : ends.Foreign requests l) {r : Request} (hr : r ∈ requests) : ends.Foreign [r] l :=
  List.forall_mem_singleton.mpr (h r hr)

omit [DecidableEq Loc'] in
/-- A request has its id for itself. -/
theorem Ends.Ready.index {requests : List Request} (hready : ends.Ready requests) {i j : ℕ}
    {r r' : Request} (hr : requests[i]? = some r) (hr' : requests[j]? = some r')
    (hsame : r.id = r'.id) : i = j := by
  refine (List.getElem?_inj ?_ hready.ids).mp ?_
  · rw [List.length_map]
    exact (List.getElem?_eq_some_iff.mp hr).1
  · rw [List.getElem?_map, List.getElem?_map, hr, hr', Option.map_some, Option.map_some, hsame]

omit [DecidableEq Loc'] in
/-- What leaves alone all places but those of one request keeps those of the others. -/
theorem Ends.Ready.kept {requests : List Request} (hready : ends.Ready requests) {i j : ℕ}
    {r r' : Request} (hr : requests[i]? = some r) (hr' : requests[j]? = some r') (hji : j ≠ i)
    {store store' : FileStore Loc'}
    (hagrees : ∀ l, ends.Foreign [r] l → FileStore.Agrees store store' l) :
    (ends.link r').Kept store store' := by
  have hids : r'.id ≠ r.id := fun hsame => hji (hready.index hr' hr hsame)
  have hmem := List.mem_of_getElem? hr
  have hmem' := List.mem_of_getElem? hr'
  intro a ha
  constructor
  · refine hagrees _ (List.forall_mem_singleton.mpr fun b hb => ?_)
    obtain ⟨hff, hft, -⟩ := hready.apart r' hmem' r hmem hids a ha b hb
    exact ⟨hff, hft⟩
  · refine hagrees _ (List.forall_mem_singleton.mpr fun b hb => ?_)
    obtain ⟨-, -, htt⟩ := hready.apart r' hmem' r hmem hids a ha b hb
    obtain ⟨-, hft, -⟩ := hready.apart r hmem r' hmem' hids.symm b hb a ha
    exact ⟨hft.symm, htt⟩

omit [DecidableEq Loc'] in
/-- The places of a write job are those of its request. -/
theorem Link.Linked.foreign {r : Request} {sender job : TransferJob} {disk : Disk Loc'}
    (h : (ends.link r).Linked ⟨sender, ⟨job, disk⟩⟩) {l : Loc'} (hl : ends.Foreign [r] l) :
    ∀ entry ∈ job.files,
      l ≠ finalLoc ends.dst job.path entry ∧ l ≠ tempLoc ends.dst job.path entry := by
  intro entry hentry
  rw [show job.files = r.files from h.receiverFiles] at hentry
  rw [show job.path = r.dest from h.receiverPath]
  exact hl r List.mem_cons_self entry hentry

/-- A block of one transfer is taken, and the others stand where they stood. -/
theorem Downloads.Stand.write {requests : List Request} (hready : ends.Ready requests)
    {store : FileStore Loc'} {d : Downloads Loc'} {σ : ℕ → TransferJob} {left : ℕ → ℕ}
    (h : d.Stand ends requests store σ left) {i : ℕ} {r : Request} (hr : requests[i]? = some r)
    {job : TransferJob} (hjob : d.jobs[i]? = some job) {block : FileTransferBlock}
    (hok : ((⟨job, d.disk⟩ : Receiver Loc').write ends.dst ends.z block
      (.ok (clock d.taken))).1 = .ok ()) {sender : TransferJob} {m : ℕ}
    (hnext : (ends.link r).Stands ⟨sender,
      ((⟨job, d.disk⟩ : Receiver Loc').write ends.dst ends.z block (.ok (clock d.taken))).2⟩ m) :
    (d.take ends clock (.block block)).Stand ends requests store
      (Function.update σ i sender) (Function.update left i m) := by
  have hids : (d.jobs.map TransferJob.id).Nodup := h.ids ▸ hready.ids
  obtain ⟨job₀, hjob₀, hstands⟩ := h.each i r hr
  obtain rfl : job₀ = job := Option.some.inj (hjob₀.symm.trans hjob)
  obtain ⟨n, pos, hinv⟩ := hstands.invariant
  -- the write is confined to the transfer's own places
  have hagrees : ∀ l, ends.Foreign [r] l → FileStore.Agrees d.disk.store
      ((⟨job₀, d.disk⟩ : Receiver Loc').write ends.dst ends.z block
        (.ok (clock d.taken))).2.disk.store l := fun l hl =>
    write_agrees hok (fun file hfile => hinv.opened hfile) (hinv.linked.foreign hl)
  rw [take_block hids hjob hok]
  generalize ((⟨job₀, d.disk⟩ : Receiver Loc').write ends.dst ends.z block
    (.ok (clock d.taken))).2 = w at hnext hagrees ⊢
  obtain ⟨job', disk'⟩ := w
  dsimp only at hagrees ⊢
  have hlt : i < d.jobs.length := (List.getElem?_eq_some_iff.mp hjob).1
  constructor
  · obtain ⟨_, _, hinv'⟩ := hnext.invariant
    have hid : job'.id = job₀.id :=
      hinv'.linked.receiverId.trans hinv.linked.receiverId.symm
    rw [← h.ids, ← setJob_eq_set hids hjob]
    exact ids_setJob hid d.jobs
  · intro j r' hr'
    by_cases hji : j = i
    · subst hji
      obtain rfl : r' = r := Option.some.inj (hr'.symm.trans hr)
      refine ⟨job', List.getElem?_set_self hlt, ?_⟩
      rw [Function.update_self, Function.update_self]
      exact hnext
    · obtain ⟨other, hother, hstood⟩ := h.each j r' hr'
      refine ⟨other, by rw [List.getElem?_set_ne (Ne.symm hji), hother], ?_⟩
      rw [Function.update_of_ne hji, Function.update_of_ne hji]
      exact hstood.kept (hready.kept hr hr' hji hagrees)
  · exact h.lost
  · intro l hl
    exact (h.others l hl).trans (hagrees l (hl.of_mem (List.mem_of_getElem? hr)))

/-- What one call does for the transfer at `i`: the message for it, where its read
job is afterwards, and how many calls are left. -/
structure Served (ends : Ends Loc Loc') (io : ℕ → JobIo) (i : ℕ) (old new : TransferJob)
    (before after : ℕ) : Prop where
  fewer : after ≤ before - 1
  done : after = 0 ↔
    ((⟨i, old⟩ : QueuedJob).posted ends.src ends.z ends.source io).message.isDone = true
  next : 0 < after →
    (⟨i, new⟩ : QueuedJob) = (⟨i, old⟩ : QueuedJob).advance ends.src ends.z ends.source io

omit [DecidableEq Loc'] in
theorem posted_eq (ends : Ends Loc Loc') (io : ℕ → JobIo) (q : QueuedJob) {result : ReadResult}
    (h : (q.job.read ends.src ends.z ends.source (io q.tag).read).1 = result) :
    q.posted ends.src ends.z ends.source io =
      ⟨q.tag, (q.advance ends.src ends.z ends.source io).job.response result⟩ := by
  rw [← h]
  rfl

omit [DecidableEq Loc'] in
/-- The transfer at `i` has come to its end. -/
theorem Downloads.Stand.ended {requests : List Request} {store : FileStore Loc'}
    {d : Downloads Loc'} {σ : ℕ → TransferJob} {left : ℕ → ℕ}
    (h : d.Stand ends requests store σ left) {i : ℕ} {r : Request} (hr : requests[i]? = some r)
    {job : TransferJob} (hjob : d.jobs[i]? = some job)
    (hend : (ends.link r).Stands ⟨σ i, ⟨job, d.disk⟩⟩ 0) :
    ({ d with taken := d.taken + 1 } : Downloads Loc').Stand ends requests store
      (Function.update σ i (σ i)) (Function.update left i 0) := by
  rw [Function.update_eq_self]
  refine ⟨h.ids, fun j r' hr' => ?_, h.lost, h.others⟩
  by_cases hji : j = i
  · subst hji
    obtain rfl : r' = r := Option.some.inj (hr'.symm.trans hr)
    rw [Function.update_self]
    exact ⟨job, hjob, hend⟩
  · rw [Function.update_of_ne hji]
    exact h.each j r' hr'

/-- **A message arrives.** It is that of the transfer at `i`. -/
theorem Downloads.Stand.take {requests : List Request} (hready : ends.Ready requests)
    {store : FileStore Loc'} {d : Downloads Loc'} {σ : ℕ → TransferJob} {left : ℕ → ℕ}
    (h : d.Stand ends requests store σ left) {i : ℕ} (hi : i < requests.length)
    (hleft : 0 < left i) {io : ℕ → ReadIo} (hok : ∀ tag, (io tag).Ok) :
    ∃ sender m,
      (d.take ends clock ((⟨i, σ i⟩ : QueuedJob).posted ends.src ends.z ends.source
        fun tag => ⟨io tag, true⟩).message).Stand ends requests store
        (Function.update σ i sender) (Function.update left i m) ∧
      Served ends (fun tag => ⟨io tag, true⟩) i (σ i) sender (left i) m := by
  have hr : requests[i]? = some requests[i] := List.getElem?_eq_getElem hi
  have hmem : requests[i] ∈ requests := List.getElem_mem hi
  obtain ⟨job, hjob, hstands⟩ := h.each i _ hr
  obtain ⟨k, hk⟩ : ∃ k, left i = k + 1 := ⟨left i - 1, by omega⟩
  rw [hk] at hstands
  have hround : (⟨io i, clock d.taken⟩ : Round).Ok := hok i
  rcases Link.Stands.served hready.lawful (hready.short _ hmem) (hready.present _ hmem)
      (hready.clashFree _ hmem) hstands hround with
    ⟨hread, hend⟩ | ⟨block, hread, hwrite, hmore, hnext⟩
  · have hposted := posted_eq ends (fun tag => ⟨io tag, true⟩) ⟨i, σ i⟩ hread
    refine ⟨σ i, 0, ?_, Nat.zero_le _, ?_, fun hlt => absurd hlt (Nat.lt_irrefl 0)⟩
    · rw [hposted]
      exact h.ended hr hjob hend
    · rw [hposted]
      exact ⟨fun _ => rfl, fun _ => rfl⟩
  · have hposted := posted_eq ends (fun tag => ⟨io tag, true⟩) ⟨i, σ i⟩ hread
    refine ⟨_, k, ?_, by omega, ?_, fun _ => rfl⟩
    · rw [hposted]
      exact h.write hready hr hjob hwrite hnext
    · rw [hposted]
      exact ⟨fun hzero => absurd hzero (Nat.ne_of_gt hmore), nofun⟩

/-- **The messages of a call arrive**, by induction on the transfers they are for. -/
theorem Downloads.Stand.take_all {requests : List Request} (hready : ends.Ready requests)
    {store : FileStore Loc'} {io : ℕ → ReadIo} (hok : ∀ tag, (io tag).Ok)
    (σ₀ : ℕ → TransferJob) (left₀ : ℕ → ℕ) {tags : List ℕ} (hnodup : tags.Nodup)
    (htags : ∀ i ∈ tags, i < requests.length ∧ 0 < left₀ i) {d : Downloads Loc'}
    {σ : ℕ → TransferJob} {left : ℕ → ℕ} (h : d.Stand ends requests store σ left)
    (hsame : ∀ i ∈ tags, σ i = σ₀ i ∧ left i = left₀ i) :
    ∃ σ' left',
      ((tags.map fun i => ((⟨i, σ₀ i⟩ : QueuedJob).posted ends.src ends.z ends.source
        fun tag => ⟨io tag, true⟩).message).foldl
          (Downloads.take ends clock) d).Stand ends requests store σ' left' ∧
      (∀ i ∈ tags, Served ends (fun tag => ⟨io tag, true⟩) i (σ₀ i) (σ' i) (left₀ i)
        (left' i)) ∧
      ∀ i ∉ tags, σ' i = σ i ∧ left' i = left i := by
  induction tags generalizing d σ left with
  | nil => exact ⟨σ, left, h, fun i hi => absurd hi List.not_mem_nil, fun i _ => ⟨rfl, rfl⟩⟩
  | cons i tags ih =>
      rw [List.nodup_cons] at hnodup
      obtain ⟨hi, hleft⟩ := htags i List.mem_cons_self
      obtain ⟨hσ, hl⟩ := hsame i List.mem_cons_self
      obtain ⟨sender, m, hstand, hserved⟩ := h.take hready hi (by rw [hl]; exact hleft) hok
      obtain ⟨σ', left', hall, hserves, hothers⟩ := ih hnodup.2
        (fun j hj => htags j (List.mem_cons_of_mem i hj)) hstand fun j hj => by
          have hne : j ≠ i := fun hji => hnodup.1 (hji ▸ hj)
          rw [Function.update_of_ne hne, Function.update_of_ne hne]
          exact hsame j (List.mem_cons_of_mem i hj)
      obtain ⟨hσi, hlefti⟩ := hothers i hnodup.1
      rw [Function.update_self] at hσi hlefti
      refine ⟨σ', left', ?_, fun j hj => ?_, fun j hj => ?_⟩
      · rw [List.map_cons, List.foldl_cons, ← hσ]
        exact hall
      · rcases List.mem_cons.mp hj with rfl | hj
        · rw [hσi, hlefti, ← hσ, ← hl]
          exact hserved
        · exact hserves j hj
      · have hne : j ≠ i := fun hji => hj (hji ▸ List.mem_cons_self)
        obtain ⟨hσj, hleftj⟩ := hothers j fun hmem => hj (List.mem_cons_of_mem i hmem)
        rw [Function.update_of_ne hne] at hσj hleftj
        exact ⟨hσj, hleftj⟩

/-! ## Call after call -/

/-- The transfers that still have calls to come are in the queue. -/
structure Transfers.Going (ends : Ends Loc Loc') (requests : List Request)
    (store : FileStore Loc') (t : Transfers Loc') (σ : ℕ → TransferJob) (left : ℕ → ℕ) :
    Prop where
  queue : t.queue.jobs =
    ((List.range requests.length).filter fun i => 0 < left i).map fun i => ⟨i, σ i⟩
  downloads : t.downloads.Stand ends requests store σ left

omit [DecidableEq Loc'] in
theorem Downloads.Stand.sender_id {requests : List Request} {store : FileStore Loc'}
    {d : Downloads Loc'} {σ : ℕ → TransferJob} {left : ℕ → ℕ}
    (h : d.Stand ends requests store σ left) {i : ℕ} (hi : i < requests.length) :
    (σ i).id = requests[i].id := by
  obtain ⟨job, -, hstands⟩ := h.each i _ (List.getElem?_eq_getElem hi)
  obtain ⟨n, pos, hinv⟩ := hstands.invariant
  exact hinv.linked.senderId

omit [DecidableEq Loc'] in
theorem Transfers.Going.nodup {requests : List Request} (hready : ends.Ready requests)
    {store : FileStore Loc'} {t : Transfers Loc'} {σ : ℕ → TransferJob} {left : ℕ → ℕ}
    (h : t.Going ends requests store σ left) :
    (t.queue.jobs.map fun q => q.job.id).Nodup := by
  rw [h.queue, List.map_map]
  refine (List.nodup_range.filter _).map_on fun i hi j hj hsame => ?_
  have hi := List.mem_range.mp (List.mem_of_mem_filter hi)
  have hj := List.mem_range.mp (List.mem_of_mem_filter hj)
  refine hready.index (List.getElem?_eq_getElem hi) (List.getElem?_eq_getElem hj) ?_
  rw [← h.downloads.sender_id hi, ← h.downloads.sender_id hj]
  exact hsame

omit [DecidableEq Loc'] in
theorem Transfers.Going.queue_empty {requests : List Request} {store : FileStore Loc'}
    {t : Transfers Loc'} {σ : ℕ → TransferJob} {left : ℕ → ℕ}
    (h : t.Going ends requests store σ left) (hzero : ∀ i < requests.length, left i = 0) :
    t.queue.jobs = [] := by
  rw [h.queue, List.filter_eq_nil_iff.mpr, List.map_nil]
  intro i hi
  rw [hzero i (List.mem_range.mp hi)]
  exact Bool.false_ne_true

/-- **A call brings every transfer forward** that is not yet done. -/
theorem Transfers.Going.step {requests : List Request} (hready : ends.Ready requests)
    {store : FileStore Loc'} {t : Transfers Loc'} {σ : ℕ → TransferJob} {left : ℕ → ℕ}
    (h : t.Going ends requests store σ left) {io : ℕ → ReadIo} (hok : ∀ tag, (io tag).Ok) :
    ∃ σ' left', (t.step ends clock io).Going ends requests store σ' left' ∧
      ∀ i < requests.length, left' i ≤ left i - 1 := by
  let jobIo : ℕ → JobIo := fun tag => ⟨io tag, true⟩
  have hserves : Serves ends.src ends.z ends.source t.queue jobIo :=
    serves_of_nodup (h.nodup hready) fun _ => rfl
  have hnodup := (List.nodup_range (n := requests.length)).filter fun i => 0 < left i
  have hin : ∀ i, i ∈ (List.range requests.length).filter (fun i => 0 < left i) ↔
      i < requests.length ∧ 0 < left i := by
    intro i
    rw [List.mem_filter, List.mem_range, decide_eq_true_iff]
  obtain ⟨σ', left', hstand, hserved, hothers⟩ :=
    h.downloads.take_all hready hok σ left hnodup (fun i hi => (hin i).mp hi)
      fun i _ => ⟨rfl, rfl⟩
  have hfewer : ∀ i < requests.length, left' i ≤ left i - 1 := by
    intro i hi
    by_cases hleft : 0 < left i
    · exact (hserved i ((hin i).mpr ⟨hi, hleft⟩)).fewer
    · rw [(hothers i fun hmem => hleft ((hin i).mp hmem).2).2]
      omega
  refine ⟨σ', left', ⟨?_, ?_⟩, hfewer⟩
  · show (handleReadJobs ends.src ends.z ends.source t.queue jobIo).jobs = _
    have hstays : (List.range requests.length).filter (fun i => 0 < left' i) =
        ((List.range requests.length).filter fun i => 0 < left i).filter
          ((fun q => !(q.posted ends.src ends.z ends.source jobIo).message.isDone) ∘
            fun i => (⟨i, σ i⟩ : QueuedJob)) := by
      rw [List.filter_filter]
      refine List.filter_congr fun i hi => ?_
      have hi := List.mem_range.mp hi
      by_cases hleft : 0 < left i
      · have hdone := (hserved i ((hin i).mpr ⟨hi, hleft⟩)).done
        rw [decide_eq_true hleft, Bool.and_true, Bool.eq_iff_iff, decide_eq_true_iff,
          Function.comp_apply, Bool.not_eq_true', ← Bool.not_eq_true, ← hdone, Nat.pos_iff_ne_zero]
      · have hnone := hfewer i hi
        rw [decide_eq_false hleft, Bool.and_false, decide_eq_false (by omega)]
    rw [hserves.kept, h.queue, List.filter_map, List.map_map, ← hstays]
    refine List.map_congr_left fun i hi => ?_
    obtain ⟨hi, hmore⟩ := List.mem_filter.mp hi
    have hmore : 0 < left' i := of_decide_eq_true hmore
    have hi := List.mem_range.mp hi
    have hless := hfewer i hi
    exact ((hserved i ((hin i).mpr ⟨hi, by omega⟩)).next hmore).symm
  · show ((((handleReadJobs ends.src ends.z ends.source t.queue jobIo).sent.drop
      t.queue.sent.length).map _).foldl _ t.downloads).Stand ends requests store σ' left'
    rw [hserves.sent, List.drop_left, h.queue, List.map_map, List.map_map]
    exact hstand

/-- By induction on the calls that are left, they all come to their end. -/
theorem Transfers.Going.reaches_end {requests : List Request} (hready : ends.Ready requests)
    {store start : FileStore Loc'} {io : ℕ → ℕ → ReadIo} (hok : ∀ i tag, (io i tag).Ok)
    (calls : ℕ) {i : ℕ} {σ : ℕ → TransferJob} {left : ℕ → ℕ}
    (h : (Transfers.after ends clock requests start io i).Going ends requests store σ left)
    (hleft : ∀ j < requests.length, left j ≤ calls) :
    ∃ σ' left', (Transfers.after ends clock requests start io (i + calls)).Going ends requests
      store σ' left' ∧ ∀ j < requests.length, left' j = 0 := by
  induction calls generalizing i σ left with
  | zero => exact ⟨σ, left, h, fun j hj => Nat.le_zero.mp (hleft j hj)⟩
  | succ calls ih =>
      obtain ⟨σ', left', hnext, hless⟩ := h.step hready (hok i)
      rw [Nat.add_comm calls 1, ← Nat.add_assoc]
      refine ih hnext fun j hj => ?_
      have hj' := hless j hj
      have hcalls := hleft j hj
      omega

omit [DecidableEq Loc'] in
theorem Transfers.going_start (ends : Ends Loc Loc') (requests : List Request)
    (store : FileStore Loc') :
    ∃ σ, (Transfers.start requests store).Going ends requests store σ
      fun _ => ends.calls requests := by
  let σ (i : ℕ) : TransferJob := match requests[i]? with
    | some r => .newRead r.id r.sourceDir r.files
    | none => .newRead 0 [] []
  have hσ : ∀ {i r}, requests[i]? = some r → σ i = .newRead r.id r.sourceDir r.files := by
    intro i r hr
    show (match requests[i]? with | some r => _ | none => _) = _
    rw [hr]
  refine ⟨σ, ?_, ?_, fun i r hr => ?_, rfl, fun l _ => .refl _ _⟩
  · have hpos : 0 < ends.calls requests := Nat.succ_pos _
    rw [List.filter_eq_self.mpr fun i _ => decide_eq_true hpos]
    refine List.ext_getElem? fun i => ?_
    show ((requests.map _).zipIdx.map _)[i]? = _
    rw [List.getElem?_map, List.getElem?_zipIdx, List.getElem?_map, List.getElem?_map]
    cases hr : requests[i]? with
    | none =>
        have hnone : (List.range requests.length)[i]? = none := by
          rw [List.getElem?_eq_none_iff, List.length_range]
          exact List.getElem?_eq_none_iff.mp hr
        rw [hnone]
        rfl
    | some r =>
        rw [List.getElem?_range (List.getElem?_eq_some_iff.mp hr).1, Option.map_some,
          Option.map_some, Option.map_some, Option.map_some, hσ hr, Nat.zero_add]
  · show (requests.map _).map TransferJob.id = _
    rw [List.map_map]
    rfl
  · refine ⟨.newWrite r.id r.dest r.files, ?_, ?_⟩
    · show (requests.map _)[i]? = _
      rw [List.getElem?_map, hr, Option.map_some]
    · rw [hσ hr]
      refine ⟨0, 0, Link.invariant_start store, ?_⟩
      exact List.le_sum_of_mem (List.mem_map_of_mem (List.mem_of_getElem? hr))

/-! ## The last `modify_time` of each job -/

omit [DecidableEq Loc'] in
theorem Link.Done.kept {link : Link Loc Loc'} {store store' : FileStore Loc'} {m : ℕ}
    (h : link.Done store m) (hkept : link.Kept store store') : link.Done store' m := by
  intro entry hentry
  obtain ⟨hfinal, htemp⟩ := hkept entry (List.mem_of_mem_take hentry)
  rw [FileStore.read_congr hfinal.lookup, FileStore.read_congr htemp.lookup]
  exact h entry hentry

/-- The first `k` jobs have come to their last `modify_time`. -/
structure Settled (ends : Ends Loc Loc') (requests : List Request) (store : FileStore Loc')
    (jobs : List TransferJob) (σ : ℕ → TransferJob) (k : ℕ) (disk : Disk Loc') : Prop where
  done : ∀ (i : ℕ) (r : Request), requests[i]? = some r → i < k →
    (ends.link r).Done disk.store r.files.length
  coming : ∀ (i : ℕ) (r : Request), requests[i]? = some r → k ≤ i → ∃ job, jobs[i]? = some job ∧
    (ends.link r).Stands ⟨σ i, ⟨job, disk⟩⟩ 0
  others : ∀ l, ends.Foreign requests l → FileStore.Agrees store disk.store l

theorem Settled.next {requests : List Request} (hready : ends.Ready requests)
    {store : FileStore Loc'} {jobs : List TransferJob} {σ : ℕ → TransferJob} {k : ℕ}
    {disk : Disk Loc'} (h : Settled ends requests store jobs σ k disk)
    {job : TransferJob} (hjob : jobs[k]? = some job) (hk : k < requests.length) (now : Int) :
    Settled ends requests store jobs σ (k + 1)
      (job.modifyTime ends.dst disk (.ok now)) := by
  have hr : requests[k]? = some requests[k] := List.getElem?_eq_getElem hk
  obtain ⟨job', hjob', hstands⟩ := h.coming k _ hr (Nat.le_refl k)
  obtain rfl : job = job' := Option.some.inj (hjob.symm.trans hjob')
  have hagrees : ∀ l, ends.Foreign [requests[k]] l → FileStore.Agrees disk.store
      (job.modifyTime ends.dst disk (.ok now)).store l := fun l hl =>
    modifyTime_agrees (Link.Linked.foreign (Link.Invariant.linked hstands) hl) disk _
  constructor
  · intro i r hr' hi
    rcases Nat.lt_succ_iff_lt_or_eq.mp hi with hlt | rfl
    · exact (h.done i r hr' hlt).kept (hready.kept hr hr' (Nat.ne_of_lt hlt) hagrees)
    · obtain rfl : r = requests[i] := Option.some.inj (hr'.symm.trans hr)
      exact Link.done_at_end (hready.clashFree _ (List.getElem_mem hk)) hstands now
  · intro i r hr' hi
    obtain ⟨other, hother, hstood⟩ := h.coming i r hr' (by omega)
    exact ⟨other, hother, hstood.kept (hready.kept hr hr' (by omega) hagrees)⟩
  · intro l hl
    exact (h.others l hl).trans (hagrees l (hl.of_mem (List.getElem_mem hk)))

theorem Settled.all {requests : List Request} (hready : ends.Ready requests)
    {store : FileStore Loc'} {jobs : List TransferJob} {σ : ℕ → TransferJob} {disk : Disk Loc'}
    (hjobs : jobs.length = requests.length) (h : Settled ends requests store jobs σ 0 disk)
    (now : Int) {k : ℕ} (hk : k ≤ requests.length) :
    Settled ends requests store jobs σ k
      ((jobs.take k).foldl (fun disk job => job.modifyTime ends.dst disk (.ok now)) disk) := by
  induction k with
  | zero => exact h
  | succ k ih =>
      have hjob : jobs[k]? = some jobs[k] := List.getElem?_eq_getElem (by omega)
      rw [List.take_add_one, hjob, List.foldl_append]
      exact (ih (by omega)).next hready hjob hk now

theorem Downloads.Stand.complete {requests : List Request} (hready : ends.Ready requests)
    {store : FileStore Loc'} {d : Downloads Loc'} {σ : ℕ → TransferJob} {left : ℕ → ℕ}
    (h : d.Stand ends requests store σ left) (hzero : ∀ i < requests.length, left i = 0)
    (now : Int) : d.Complete ends requests store now := by
  have hlen := congrArg List.length h.ids
  rw [List.length_map, List.length_map] at hlen
  have hbegin : Settled ends requests store d.jobs σ 0 d.disk := by
    refine ⟨fun i _ _ hi => absurd hi (Nat.not_lt_zero i), fun i r hr _ => ?_, h.others⟩
    have hstands := h.each i r hr
    rwa [hzero i (List.getElem?_eq_some_iff.mp hr).1] at hstands
  have hend := hbegin.all hready hlen now (Nat.le_refl _)
  rw [List.take_of_length_le (Nat.le_of_eq hlen)] at hend
  refine ⟨h.lost, fun r hr entry hentry => ?_, fun l hl => (hend.others l hl).lookup⟩
  obtain ⟨i, hi, rfl⟩ := List.mem_iff_getElem.mp hr
  refine hend.done i _ (List.getElem?_eq_getElem hi) hi entry ?_
  show entry ∈ requests[i].files.take requests[i].files.length
  rwa [List.take_length]

/-- After so many calls they have all come to their end. -/
theorem Transfers.ended {requests : List Request} (hready : ends.Ready requests)
    (store : FileStore Loc') (clock : ℕ → Int) {io : ℕ → ℕ → ReadIo}
    (hok : ∀ i tag, (io i tag).Ok) :
    ∃ σ left, (after ends clock requests store io (ends.calls requests)).Going ends requests store
      σ left ∧ ∀ i < requests.length, left i = 0 := by
  obtain ⟨σ, hstart⟩ := going_start ends requests store
  have hbegin : (after ends clock requests store io 0).Going ends requests store σ _ := hstart
  have hend := hbegin.reaches_end hready hok (ends.calls requests) fun _ _ => Nat.le_refl _
  rwa [Nat.zero_add] at hend

/-- **Transfers do not get in each other's way.** Several lists are sent over one
connection, by one vector of read jobs, to one vector of write jobs over one file
system. If their ids are distinct and their places disjoint, and no call of the
operating system fails, then after so many calls no read job is left and all lists
are complete. -/
theorem together_delivered (ends : Ends Loc Loc') (requests : List Request)
    (hready : ends.Ready requests) (store : FileStore Loc') (clock : ℕ → Int)
    (io : ℕ → ℕ → ReadIo) (hok : ∀ i tag, (io i tag).Ok) (now : Int) :
    (Transfers.after ends clock requests store io (ends.calls requests)).queue.jobs = [] ∧
      (Transfers.after ends clock requests store io (ends.calls requests)).downloads.Complete ends
        requests store now := by
  obtain ⟨σ, left, hend, hzero⟩ := Transfers.ended hready store clock hok
  exact ⟨hend.queue_empty hzero, hend.downloads.complete hready hzero now⟩

end

/-- Two lists, sent from one directory into two. -/
def twoLists : List Request :=
  [⟨1, "s".toList, "d".toList, [⟨"a".toList, 0, 0⟩, ⟨"b".toList, 0, 0⟩]⟩,
    ⟨2, "s".toList, "e".toList, [⟨"a".toList, 0, 0⟩]⟩]

/-- The machines of `twoEntries`. -/
def plainEnds : Ends (List Component) (List Component) :=
  ⟨.lexical, twoEntries.source, .lexical, .framed⟩

theorem plainEnds_ready : plainEnds.Ready twoLists := by
  have happart : ∀ r ∈ twoLists, ∀ a ∈ (plainEnds.link r).files,
      ∀ b ∈ (plainEnds.link r).files, (plainEnds.link r).final a ≠ (plainEnds.link r).temp b := by
    decide
  have hsame : ∀ r ∈ twoLists, ∀ a ∈ (plainEnds.link r).files,
      ∀ b ∈ (plainEnds.link r).files, (plainEnds.link r).final a = (plainEnds.link r).final b →
        (plainEnds.link r).content a = (plainEnds.link r).content b := by
    decide
  exact ⟨Zstd.framed_lawful, by decide, by decide, fun r hr => ⟨happart r hr, hsame r hr⟩,
    by decide, by unfold Ends.Apart; decide⟩

theorem together_delivered_two :
    (Transfers.after plainEnds (fun _ => 0) twoLists .empty (fun _ _ => ⟨true, [.upTo 0]⟩)
        (plainEnds.calls twoLists)).queue.jobs = [] ∧
      (Transfers.after plainEnds (fun _ => 0) twoLists .empty (fun _ _ => ⟨true, [.upTo 0]⟩)
        (plainEnds.calls twoLists)).downloads.Complete plainEnds twoLists .empty 0 :=
  together_delivered plainEnds twoLists plainEnds_ready .empty (fun _ => 0)
    (fun _ _ => ⟨true, [.upTo 0]⟩) (fun _ _ => ⟨rfl, by decide⟩) 0

end RustdeskServer.Transfer
