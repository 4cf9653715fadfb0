import RustdeskServer.Framework.Runs
import RustdeskServer.Transfer.Pipe

/-!
# The sending end comes to its end

`Sending` keeps with a sending job what its calls of `read` have returned. `Told`
says what they amount to when the job is at offset `pos` of entry `n`: the entries
before have been told in full or up to a failure, the current one up to `pos`.
Every call before the last entry's end makes `left` smaller, however it ends.

The counter is an `i32` and wraps. A list of `2 ^ 31` entries is not sent to its
end: the counter becomes negative, and as a `usize` it lies beyond the list.
-/

namespace RustdeskServer.Transfer

open RustdeskServer.Codec RustdeskServer.Framework

section
variable {Loc : Type*} (paths : Paths Loc) (source : FileStore Loc)

/-- `File::open` or a `File::read` of the call fails. -/
def TransferJob.fails (job : TransferJob) (io : ReadIo) : Bool :=
  match job.files[asUsize job.fileNum]? with
  | none => false
  | some entry =>
      match job.openSource paths source entry io with
      | none => true
      | some file =>
          (TransferJob.fillBuffer (source.data file.ino).content file.pos [] io.reads).isNone

/-- A call of `read`: the entry it was at, whether the operating system failed,
and what it returned. -/
structure Returned where
  entry : ℕ
  failed : Bool
  result : ReadResult

structure Sending where
  job : TransferJob
  returned : List Returned

/-- The calls it takes to send `size` bytes: one for each block, and one for the
end of the file. -/
def callsFor (size : ℕ) : ℕ := (size + bufSize - 1) / bufSize + 1

/-- What is sent of an entry; of a file that does not exist it is nothing. -/
def contentOf (path : PathBuf) (entry : FileEntry) : Bytes :=
  (sourceOf paths source path entry).getD []

/-- Blocks, none of them empty, and an empty one behind them. -/
def Whole (z : Zstd) (content : Bytes) (results : List ReadResult) : Prop :=
  ∃ (blocks : List FileTransferBlock) (last : FileTransferBlock),
    results = (blocks ++ [last]).map (fun block => .ok (some block)) ∧
    (∀ block ∈ blocks, block.bytes z ≠ []) ∧ last.bytes z = [] ∧
    blocks.flatMap (FileTransferBlock.bytes z) = content

/-- Blocks, none of them empty, and an error behind them. -/
def Torn (z : Zstd) (content : Bytes) (results : List ReadResult) : Prop :=
  ∃ (blocks : List FileTransferBlock) (err : TransferError),
    results = blocks.map (fun block => .ok (some block)) ++ [.error err] ∧
    (∀ block ∈ blocks, block.bytes z ≠ []) ∧
    blocks.flatMap (FileTransferBlock.bytes z) <+: content

namespace Sending

/-- A job made by `new_read`. -/
def start (id : Int32) (path : PathBuf) (files : List FileEntry) : Sending :=
  ⟨.newRead id path files, []⟩

def step (z : Zstd) (s : Sending) (io : ReadIo) : Sending where
  job := (s.job.read paths z source io).2
  returned := s.returned ++
    [⟨asUsize s.job.fileNum, s.job.fails paths source io, (s.job.read paths z source io).1⟩]

def resultsAt (s : Sending) (k : ℕ) : List ReadResult :=
  (s.returned.filter fun r => r.entry = k).map Returned.result

/-- The operating system failed in a call at the entry. -/
def failedAt (s : Sending) (k : ℕ) : Bool := s.returned.any fun r => r.entry = k && r.failed

def blocks (s : Sending) : List FileTransferBlock :=
  s.returned.filterMap fun r => match r.result with
    | .ok block => block
    | .error _ => none

/-- What was returned for an entry the job has left. -/
structure Told (z : Zstd) (s : Sending) (k : ℕ) (content : Bytes) : Prop where
  whole : s.failedAt k = false → Whole z content (s.resultsAt k)
  torn : s.failedAt k = true → Torn z content (s.resultsAt k)

/-- Every entry the job has left is told, whole or torn by its own failure, and
the blocks carry the numbers of their entries, in order. -/
structure Sound (z : Zstd) (path : PathBuf) (files : List FileEntry) (s : Sending) : Prop where
  told : ∀ k entry, files[k]? = some entry → k < asUsize s.job.fileNum →
    s.Told z k (contentOf paths source path entry)
  numbered : ∀ r ∈ s.returned, ∀ block, r.result = .ok (some block) →
    asUsize block.fileNum = r.entry
  ordered : s.blocks.Pairwise fun a b => a.fileNum ≤ b.fileNum

end Sending

/-! ## One call -/

variable {paths source} {z : Zstd}

/-- `read` returns an error just when the operating system fails. -/
theorem read_error_iff (job : TransferJob) (io : ReadIo) :
    (∃ err, (job.read paths z source io).1 = .error err) ↔ job.fails paths source io = true := by
  unfold TransferJob.read TransferJob.fails
  dsimp only
  cases job.files[asUsize job.fileNum]? with
  | none => exact ⟨nofun, nofun⟩
  | some entry =>
      dsimp only
      cases job.openSource paths source entry io with
      | none => exact ⟨fun _ => rfl, fun _ => ⟨.io, rfl⟩⟩
      | some file =>
          dsimp only
          cases TransferJob.fillBuffer (source.data file.ino).content file.pos [] io.reads with
          | none => exact ⟨fun _ => rfl, fun _ => ⟨.io, rfl⟩⟩
          | some buf =>
              cases buf with
              | nil => exact ⟨nofun, nofun⟩
              | cons b bs => exact ⟨nofun, nofun⟩

theorem fails_of_error {job job' : TransferJob} {io : ReadIo} {err : TransferError}
    (hread : job.read paths z source io = (.error err, job')) :
    job.fails paths source io = true :=
  (read_error_iff job io).mp ⟨err, congrArg Prod.fst hread⟩

theorem fails_of_ok {job job' : TransferJob} {io : ReadIo} {block : Option FileTransferBlock}
    (hread : job.read paths z source io = (.ok block, job')) :
    job.fails paths source io = false := by
  rw [← Bool.not_eq_true, ← read_error_iff (z := z)]
  rintro ⟨err, herr⟩
  rw [hread] at herr
  cases herr

/-- Numbers that have not wrapped are ordered as the entries are. -/
theorem le_of_asUsize {x y : Int32} (h : asUsize x ≤ asUsize y) (hy : asUsize y < 2 ^ 31) :
    x ≤ y := by
  have hval : ∀ {v : Int32}, asUsize v < 2 ^ 31 → v.toInt = asUsize v := by
    intro v hv
    have hnat := toNat_of_asUsize (x := v) rfl hv
    rw [← hnat] at hv ⊢
    exact BitVec.toInt_eq_toNat_of_lt (by omega)
  rw [Int32.le_iff_toInt_le, hval hy, hval (lt_of_le_of_lt h hy)]
  exact Int.ofNat_le.mpr h

/-! ## What has been returned of an entry -/

/-- Blocks, none of them empty, of the first `pos` bytes. -/
def Partly (z : Zstd) (content : Bytes) (pos : ℕ) (results : List ReadResult) : Prop :=
  ∃ blocks : List FileTransferBlock, results = blocks.map (fun block => .ok (some block)) ∧
    (∀ block ∈ blocks, block.bytes z ≠ []) ∧
    blocks.flatMap (FileTransferBlock.bytes z) = content.take pos

section
variable {content : Bytes} {pos : ℕ} {results : List ReadResult}

theorem Partly.nil : Partly z content 0 [] := ⟨[], rfl, List.forall_mem_nil _, rfl⟩

theorem Partly.more (h : Partly z content pos results) {block : FileTransferBlock}
    (hbytes : block.bytes z = (content.drop pos).take bufSize) (hmore : pos < content.length) :
    Partly z content (pos + (block.bytes z).length) (results ++ [.ok (some block)]) := by
  obtain ⟨blocks, rfl, hfull, htaken⟩ := h
  refine ⟨blocks ++ [block], ?_, ?_, ?_⟩
  · rw [List.map_append]
    rfl
  · intro b hb
    rcases List.mem_append.mp hb with hb | hb
    · exact hfull b hb
    · rw [List.mem_singleton.mp hb, hbytes]
      intro hnil
      rcases List.take_eq_nil_iff.mp hnil with hzero | hdrop
      · exact absurd hzero (by decide)
      · exact absurd (List.drop_eq_nil_iff.mp hdrop) (by omega)
  · have hprefix : block.bytes z <+: content.drop pos := hbytes ▸ List.take_prefix _ _
    rw [List.flatMap_append, htaken, List.take_add, ← List.prefix_iff_eq_take.mp hprefix,
      List.flatMap_cons, List.flatMap_nil, List.append_nil]

theorem Partly.whole (h : Partly z content pos results) {block : FileTransferBlock}
    (hbytes : block.bytes z = []) (hend : content.length ≤ pos) :
    Whole z content (results ++ [.ok (some block)]) := by
  obtain ⟨blocks, rfl, hfull, htaken⟩ := h
  refine ⟨blocks, block, ?_, hfull, hbytes, ?_⟩
  · rw [List.map_append]
    rfl
  · rw [htaken, List.take_of_length_le hend]

theorem Partly.torn (h : Partly z content pos results) (err : TransferError) :
    Torn z content (results ++ [.error err]) := by
  obtain ⟨blocks, rfl, hfull, htaken⟩ := h
  exact ⟨blocks, err, rfl, hfull, htaken ▸ List.take_prefix _ _⟩

end

namespace Sending

theorem resultsAt_step (s : Sending) (io : ReadIo) (k : ℕ) :
    (s.step paths source z io).resultsAt k = s.resultsAt k ++
      if asUsize s.job.fileNum = k then [(s.job.read paths z source io).1] else [] := by
  rw [resultsAt, step, List.filter_append, List.map_append, resultsAt]
  by_cases hk : asUsize s.job.fileNum = k
  · rw [if_pos hk, List.filter_cons_of_pos (p := fun r : Returned => decide (r.entry = k))
      (decide_eq_true hk)]
    rfl
  · rw [if_neg hk, List.filter_cons_of_neg (p := fun r : Returned => decide (r.entry = k))
      (by simpa using hk)]
    rfl

theorem failedAt_step (s : Sending) (io : ReadIo) (k : ℕ) :
    (s.step paths source z io).failedAt k =
      (s.failedAt k || decide (asUsize s.job.fileNum = k) && s.job.fails paths source io) := by
  rw [failedAt, step, List.any_append, List.any_cons, List.any_nil, Bool.or_false]
  rfl

theorem blocks_step (s : Sending) (io : ReadIo) :
    (s.step paths source z io).blocks = s.blocks ++
      match (s.job.read paths z source io).1 with
      | .ok block => block.toList
      | .error _ => [] := by
  rw [blocks, step, List.filterMap_append]
  congr 1
  cases (s.job.read paths z source io).1 with
  | error err => rfl
  | ok block =>
      cases block with
      | none => rfl
      | some block => rfl

/-! ## Where the job stands -/

/-- The job is at offset `pos` of entry `n`, and what it has returned is what was
to be returned up to there. -/
structure At (paths : Paths Loc) (source : FileStore Loc) (z : Zstd) (path : PathBuf)
    (files : List FileEntry) (s : Sending) (n pos : ℕ) : Prop where
  reading : Reading paths source s.job n pos
  path_eq : s.job.path = path
  files_eq : s.job.files = files
  within : n ≤ files.length
  told : ∀ k entry, files[k]? = some entry → k < n →
    s.Told z k (contentOf paths source path entry)
  current : ∀ entry, files[n]? = some entry →
    Partly z (contentOf paths source path entry) pos (s.resultsAt n) ∧ s.failedAt n = false
  later : ∀ k, n < k → s.resultsAt k = [] ∧ s.failedAt k = false
  numbered : ∀ r ∈ s.returned, ∀ block, r.result = .ok (some block) →
    asUsize block.fileNum = r.entry
  ordered : s.blocks.Pairwise fun a b => a.fileNum ≤ b.fileNum
  below : ∀ block ∈ s.blocks, asUsize block.fileNum ≤ n

variable {path : PathBuf} {files : List FileEntry} {s : Sending} {n pos : ℕ}

theorem step_elsewhere (paths : Paths Loc) (source : FileStore Loc) (z : Zstd) {k : ℕ}
    (hk : asUsize s.job.fileNum ≠ k) (io : ReadIo) :
    (s.step paths source z io).resultsAt k = s.resultsAt k ∧
      (s.step paths source z io).failedAt k = s.failedAt k := by
  constructor
  · rw [resultsAt_step, if_neg hk, List.append_nil]
  · rw [failedAt_step, decide_eq_false hk, Bool.false_and, Bool.or_false]

theorem At.told_elsewhere (h : At paths source z path files s n pos) (io : ReadIo) {k : ℕ}
    {entry : FileEntry} (hentry : files[k]? = some entry) (hk : k < n) :
    (s.step paths source z io).Told z k (contentOf paths source path entry) := by
  have hne : asUsize s.job.fileNum ≠ k := by
    rw [h.reading.num]
    omega
  obtain ⟨hresults, hfailed⟩ := step_elsewhere paths source z hne io
  obtain ⟨hwhole, htorn⟩ := h.told k entry hentry hk
  constructor
  · rw [hresults, hfailed]
    exact hwhole
  · rw [hresults, hfailed]
    exact htorn

/-- The call returns a block of the entry the job was at, or none. -/
theorem At.blocks_advance (h : At paths source z path files s n pos)
    (hlen : files.length < 2 ^ 31) {io : ReadIo} {result : ReadResult} {job' : TransferJob}
    (hread : s.job.read paths z source io = (result, job'))
    (hblock : ∀ block, result = .ok (some block) → asUsize block.fileNum = n) :
    ((s.step paths source z io).blocks.Pairwise fun a b => a.fileNum ≤ b.fileNum) ∧
      ∀ block ∈ (s.step paths source z io).blocks, asUsize block.fileNum ≤ n := by
  have hblocks : (s.step paths source z io).blocks = s.blocks ∨ ∃ block,
      asUsize block.fileNum = n ∧ (s.step paths source z io).blocks = s.blocks ++ [block] := by
    rw [blocks_step, hread]
    cases result with
    | error err => exact Or.inl (List.append_nil _)
    | ok block =>
        cases block with
        | none => exact Or.inl (List.append_nil _)
        | some block => exact Or.inr ⟨block, hblock block rfl, rfl⟩
  rcases hblocks with hsame | ⟨block, hnum, hnew⟩
  · rw [hsame]
    exact ⟨h.ordered, h.below⟩
  · rw [hnew]
    constructor
    · rw [List.pairwise_append]
      refine ⟨h.ordered, List.pairwise_singleton _ _, ?_⟩
      intro a ha b hb
      rw [List.mem_singleton.mp hb]
      exact le_of_asUsize (hnum ▸ h.below a ha) (by have := h.within; omega)
    · intro b hb
      rcases List.mem_append.mp hb with hb | hb
      · exact h.below b hb
      · rw [List.mem_singleton.mp hb, hnum]

/-- What is the same for every way a call can end: where the job goes on, and
what the call adds for the entry it was at, is all there is to show. -/
theorem At.advance (h : At paths source z path files s n pos) (hlen : files.length < 2 ^ 31)
    {io : ReadIo} {result : ReadResult} {job' : TransferJob} {n' pos' : ℕ}
    (hread : s.job.read paths z source io = (result, job'))
    (hreading : Reading paths source job' n' pos') (hsame : SameList s.job job')
    (hn : n ≤ n') (hwithin : n' ≤ files.length)
    (htold : n < n' → n' = n + 1 ∧ pos' = 0 ∧ ∀ entry, files[n]? = some entry →
      (s.step paths source z io).Told z n (contentOf paths source path entry))
    (hcurrent : n' = n → ∀ entry, files[n]? = some entry →
      Partly z (contentOf paths source path entry) pos' ((s.step paths source z io).resultsAt n) ∧
        (s.step paths source z io).failedAt n = false)
    (hblock : ∀ block, result = .ok (some block) → asUsize block.fileNum = n) :
    At paths source z path files (s.step paths source z io) n' pos' := by
  have hnum := h.reading.num
  have hjob : (s.step paths source z io).job = job' := congrArg Prod.snd hread
  have hlater : ∀ k, n < k → (s.step paths source z io).resultsAt k = [] ∧
      (s.step paths source z io).failedAt k = false := by
    intro k hk
    obtain ⟨hresults, hfailed⟩ := step_elsewhere paths source z (s := s) (k := k)
      (by rw [hnum]; omega) io
    rw [hresults, hfailed]
    exact h.later k hk
  obtain ⟨hordered, hbelow⟩ := h.blocks_advance hlen hread hblock
  refine ⟨hjob ▸ hreading, ?_, ?_, hwithin, ?_, ?_, ?_, ?_, hordered,
    fun block hin => le_trans (hbelow block hin) hn⟩
  · rw [hjob, hsame.path]
    exact h.path_eq
  · rw [hjob, hsame.files]
    exact h.files_eq
  · intro k entry hentry hk
    by_cases hkn : k < n
    · exact h.told_elsewhere io hentry hkn
    · obtain ⟨hsucc, -, htold⟩ := htold (by omega)
      obtain rfl : k = n := by omega
      exact htold entry hentry
  · intro entry hentry
    by_cases hstays : n' = n
    · rw [hstays] at hentry ⊢
      exact hcurrent hstays entry hentry
    · -- nothing has been returned for the next entry
      obtain ⟨hnone, hfailed⟩ := hlater n' (by omega)
      obtain ⟨-, rfl, -⟩ := htold (by omega)
      rw [hnone]
      exact ⟨Partly.nil, hfailed⟩
  · exact fun k hk => hlater k (by omega)
  · intro r hr block hres
    rcases List.mem_append.mp hr with hr | hr
    · exact h.numbered r hr block hres
    · rw [List.mem_singleton.mp hr] at hres ⊢
      rw [hread] at hres
      exact (hblock block hres).trans hnum.symm

/-! ## What is left -/

def entrySize (paths : Paths Loc) (source : FileStore Loc) (path : PathBuf)
    (entry : FileEntry) : ℕ :=
  (contentOf paths source path entry).length

/-- The calls it takes at most from offset `pos` of entry `n` on. -/
def left (paths : Paths Loc) (source : FileStore Loc) (path : PathBuf) (files : List FileEntry)
    (n pos : ℕ) : ℕ :=
  match files.drop n with
  | [] => 0
  | entry :: rest => callsFor (entrySize paths source path entry - pos) +
      (rest.map fun entry => callsFor (entrySize paths source path entry)).sum

theorem left_zero (n : ℕ) : left paths source path files n 0 =
    ((files.drop n).map fun entry => callsFor (entrySize paths source path entry)).sum := by
  unfold left
  cases files.drop n with
  | nil => rfl
  | cons entry rest => rfl

theorem left_eq {entry : FileEntry} (hentry : files[n]? = some entry) (pos : ℕ) :
    left paths source path files n pos = callsFor (entrySize paths source path entry - pos) +
      left paths source path files (n + 1) 0 := by
  have hdrop : files.drop n = entry :: files.drop (n + 1) := by
    obtain ⟨hlt, hget⟩ := List.getElem?_eq_some_iff.mp hentry
    rw [List.drop_eq_getElem_cons hlt, hget]
  rw [left_zero, left, hdrop]

/-- A block saves the call for it. -/
theorem callsFor_block {size : ℕ} (hmore : 0 < size) :
    callsFor (size - min bufSize size) < callsFor size := by
  unfold callsFor bufSize
  omega

/-! ## Runs -/

/-- A block goes on in the entry, or is its last. -/
theorem at_block (hlen : files.length < 2 ^ 31) (h : At paths source z path files s n pos)
    {io : ReadIo} {job' : TransferJob} {entry : FileEntry} {block : FileTransferBlock}
    (hread : s.job.read paths z source io = (.ok (some block), job'))
    (hentry : files[n]? = some entry) (hblock : asUsize block.fileNum = n)
    (hbytes : block.bytes z = ((contentOf paths source path entry).drop pos).take bufSize)
    (hnext : entrySize paths source path entry ≤ pos ∧ Reading paths source job' (n + 1) 0 ∨
      pos < entrySize paths source path entry ∧
        Reading paths source job' n (pos + (block.bytes z).length))
    (hsame : SameList s.job job') :
    ∃ n' pos', At paths source z path files (s.step paths source z io) n' pos' ∧ n ≤ n' ∧
      left paths source path files n' pos' < left paths source path files n pos := by
  have hlt := (List.getElem?_eq_some_iff.mp hentry).1
  have hnum := h.reading.num
  have hresults : (s.step paths source z io).resultsAt n =
      s.resultsAt n ++ [.ok (some block)] := by
    rw [resultsAt_step, if_pos hnum, hread]
  have hfailed : (s.step paths source z io).failedAt n = false := by
    rw [failedAt_step, fails_of_ok hread, Bool.and_false, Bool.or_false]
    exact (h.current entry hentry).2
  have hnumbered : ∀ b, (.ok (some block) : ReadResult) = .ok (some b) →
      asUsize b.fileNum = n := by
    intro b hb
    cases hb
    exact hblock
  obtain ⟨hpartly, -⟩ := h.current entry hentry
  rcases hnext with ⟨hend, hreading⟩ | ⟨hmore, hreading⟩
  · refine ⟨n + 1, 0, ?_, Nat.le_succ n, ?_⟩
    · refine h.advance hlen hread hreading hsame (Nat.le_succ n) hlt ?_ ?_ hnumbered
      · refine fun _ => ⟨rfl, rfl, fun entry' hentry' => ?_⟩
        obtain rfl : entry = entry' := Option.some.inj (hentry.symm.trans hentry')
        have hnil : block.bytes z = [] := by
          rw [hbytes, List.drop_eq_nil_of_le hend, List.take_nil]
        constructor
        · intro _
          rw [hresults]
          exact hpartly.whole hnil hend
        · intro hbad
          rw [hfailed] at hbad
          cases hbad
      · exact fun heq => absurd heq (Nat.succ_ne_self n)
    · rw [left_eq hentry]
      exact Nat.lt_add_of_pos_left (Nat.succ_pos _)
  · refine ⟨n, pos + (block.bytes z).length, ?_, le_refl n, ?_⟩
    · refine h.advance hlen hread hreading hsame (le_refl n) h.within ?_ ?_ hnumbered
      · exact fun hn => absurd hn (lt_irrefl n)
      · intro _ entry' hentry'
        obtain rfl : entry = entry' := Option.some.inj (hentry.symm.trans hentry')
        rw [hresults]
        exact ⟨hpartly.more hbytes hmore, hfailed⟩
    · rw [left_eq hentry, left_eq hentry, hbytes, List.length_take, List.length_drop]
      apply Nat.add_lt_add_right
      rw [← Nat.sub_sub]
      exact callsFor_block (Nat.sub_pos_of_lt hmore)

/-- **Every call makes progress.** -/
theorem at_step (hz : z.Lawful) (hlen : files.length < 2 ^ 31)
    (h : At paths source z path files s n pos) (io : ReadIo) :
    ∃ n' pos', At paths source z path files (s.step paths source z io) n' pos' ∧ n ≤ n' ∧
      (n < files.length →
        left paths source path files n' pos' < left paths source path files n pos) := by
  have hsent := read_sent hz (by rw [h.files_eq]; exact hlen) h.reading io
  have hnum := h.reading.num
  generalize hread : s.job.read paths z source io = out at hsent
  cases hsent with
  | done job' hnone hreading hsame =>
      rw [h.files_eq] at hnone
      refine ⟨n, 0, ?_, le_refl n, ?_⟩
      · refine h.advance hlen hread hreading hsame (le_refl n) h.within ?_ ?_ nofun
        · exact fun hlt => absurd hlt (lt_irrefl n)
        · intro _ entry hentry
          rw [hnone] at hentry
          cases hentry
      · intro hlt
        exact absurd hlt (Nat.not_lt.mpr (List.getElem?_eq_none_iff.mp hnone))
  | failed job' entry hentry hreading hsame =>
      rw [h.files_eq] at hentry
      have hlt := (List.getElem?_eq_some_iff.mp hentry).1
      refine ⟨n + 1, 0, ?_, Nat.le_succ n, ?_⟩
      · refine h.advance hlen hread hreading hsame (Nat.le_succ n) hlt ?_ ?_ nofun
        · refine fun _ => ⟨rfl, rfl, fun entry' hentry' => ?_⟩
          obtain ⟨hpartly, -⟩ := h.current entry' hentry'
          constructor
          · intro hok
            rw [failedAt_step, decide_eq_true hnum, fails_of_error hread, Bool.and_true,
              Bool.or_true] at hok
            cases hok
          · intro _
            rw [resultsAt_step, if_pos hnum, hread]
            exact hpartly.torn .io
        · exact fun heq => absurd heq (Nat.succ_ne_self n)
      · intro _
        rw [left_eq hentry]
        exact Nat.lt_add_of_pos_left (Nat.succ_pos _)
  | block job' entry content block hentry hcontent hid hblock hbytes hnext hsame =>
      rw [h.files_eq] at hentry
      rw [h.path_eq] at hcontent
      obtain rfl : contentOf paths source path entry = content := by
        rw [contentOf, hcontent, Option.getD_some]
      obtain ⟨n', pos', hat, hn, hleft⟩ := at_block hlen h hread hentry hblock hbytes hnext hsame
      exact ⟨n', pos', hat, hn, fun _ => hleft⟩

theorem At.sound (h : At paths source z path files s n pos) :
    s.Sound paths source z path files := by
  refine ⟨fun k entry hentry hk => h.told k entry hentry ?_, h.numbered, h.ordered⟩
  rw [h.reading.num] at hk
  exact hk

/-- After as many calls as are left the job is behind its last entry. -/
theorem at_run (hz : z.Lawful) (hlen : files.length < 2 ^ 31)
    (h : At paths source z path files s n pos) (ios : List ReadIo) :
    ∃ n' pos', At paths source z path files (ios.foldl (step paths source z) s) n' pos' ∧
      n ≤ n' ∧ (left paths source path files n pos ≤ ios.length → n' = files.length) := by
  induction ios generalizing s n pos with
  | nil =>
      refine ⟨n, pos, h, le_refl n, fun hleft => ?_⟩
      by_contra hn
      have hlt : n < files.length := lt_of_le_of_ne h.within hn
      rw [left_eq (List.getElem?_eq_getElem hlt)] at hleft
      exact absurd hleft (by simp [callsFor])
  | cons io ios ih =>
      obtain ⟨n₁, pos₁, hat, hn, hless⟩ := at_step hz hlen h io
      obtain ⟨n', pos', hfinal, hn', hend⟩ := ih hat
      refine ⟨n', pos', hfinal, le_trans hn hn', fun hleft => ?_⟩
      by_cases hlt : n < files.length
      · have hstep := hless hlt
        rw [List.length_cons] at hleft
        exact hend (by omega)
      · exact le_antisymm hfinal.within (by omega)

theorem at_start (paths : Paths Loc) (source : FileStore Loc) (z : Zstd) (id : Int32)
    (path : PathBuf) (files : List FileEntry) :
    At paths source z path files (start id path files) 0 0 where
  reading := ⟨rfl, Or.inl ⟨rfl, rfl⟩⟩
  path_eq := rfl
  files_eq := rfl
  within := Nat.zero_le _
  told k _ _ hk := absurd hk (Nat.not_lt_zero k)
  current _ _ := ⟨Partly.nil, rfl⟩
  later _ _ := ⟨rfl, rfl⟩
  numbered := List.forall_mem_nil _
  ordered := List.Pairwise.nil
  below := List.forall_mem_nil _

/-- `file_num` does not decrease. -/
def Forward (paths : Paths Loc) (source : FileStore Loc) (z : Zstd) (s : Sending) (io : ReadIo) :
    Prop := s.job.fileNum ≤ (s.step paths source z io).job.fileNum

/-- **A sending job comes to its end, and failing entries do not disturb the
others.** Over every run of a job with less than `2 ^ 31` entries, however opening
and reading fail and however short the reads are: entries the job has left have
been returned in full, an empty block last, unless one of their own calls failed,
and then up to a single error; neither `file_num` nor the numbers of the blocks
decrease; and after a call for each block and each end of a file there is nothing
but `Ok(None)`. -/
theorem reads_come_to_an_end (paths : Paths Loc) (source : FileStore Loc) (z : Zstd)
    (hz : z.Lawful) (id : Int32) (path : PathBuf) (files : List FileEntry)
    (hlen : files.length < 2 ^ 31) (ios : List ReadIo) :
    Always (step paths source z) (Sound paths source z path files) (start id path files) ios ∧
      Along (step paths source z) (Forward paths source z) (start id path files) ios ∧
      ((files.map fun entry => callsFor (entrySize paths source path entry)).sum ≤ ios.length →
        asUsize (ios.foldl (step paths source z) (start id path files)).job.fileNum =
            files.length ∧
          ∀ io, ((ios.foldl (step paths source z) (start id path files)).job.read
            paths z source io).1 = .ok none) := by
  have hstart := at_start paths source z id path files
  have halways : Always (step paths source z)
      (fun s => ∃ n pos, At paths source z path files s n pos) (start id path files) ios := by
    refine always_of_step ?_ ios ⟨0, 0, hstart⟩
    rintro s io ⟨n, pos, h⟩
    obtain ⟨n', pos', h', -⟩ := at_step hz hlen h io
    exact ⟨n', pos', h'⟩
  refine ⟨halways.mono fun s ⟨n, pos, h⟩ => h.sound, ?_, ?_⟩
  · refine along_of_always ?_ halways
    rintro s io ⟨n, pos, h⟩
    obtain ⟨n', pos', h', hn, -⟩ := at_step hz hlen h io
    apply le_of_asUsize
    · rw [h.reading.num, h'.reading.num]
      exact hn
    · rw [h'.reading.num]
      exact lt_of_le_of_lt h'.within hlen
  · intro hcalls
    obtain ⟨n', pos', h', -, hend⟩ := at_run hz hlen hstart ios
    rw [left_zero] at hend
    obtain rfl := hend hcalls
    refine ⟨h'.reading.num, fun io => congrArg Prod.fst (read_of_none ?_ io)⟩
    rw [h'.reading.num, h'.files_eq]
    exact List.getElem?_eq_none_iff.mpr (le_refl _)

def shortPair : List FileEntry := [⟨"a".toList, 3, 0⟩, ⟨"b".toList, 1, 0⟩]

def shortSource : FileStore (List Component) :=
  filesAt [("s/a".toList, [1, 2, 3]), ("s/b".toList, [4])]

/-- `a` is read in full, and `b` fails in its first call. -/
theorem reads_come_to_an_end_two :
    Zstd.framed.Lawful ∧ shortPair.length < 2 ^ 31 ∧
      Always (step .lexical shortSource .framed)
        (Sound .lexical shortSource .framed "s".toList shortPair) (start 1 "s".toList shortPair)
        [⟨true, [.upTo 0]⟩, ⟨true, []⟩, ⟨true, [.err]⟩, ⟨true, []⟩] :=
  ⟨Zstd.framed_lawful, by decide, (reads_come_to_an_end .lexical shortSource .framed
    Zstd.framed_lawful 1 "s".toList shortPair (by decide) _).1⟩

/-! ## A list that is too long -/

theorem read_unopened {job : TransferJob} {entry : FileEntry}
    (hentry : job.files[asUsize job.fileNum]? = some entry) (hfile : job.file = none) {io : ReadIo}
    (hopens : io.opens = false) :
    job.read paths z source io = (.error .io, { job with fileNum := job.fileNum + 1 }) := by
  have hnone : job.openSource paths source entry io = none := by
    unfold TransferJob.openSource
    rw [hfile]
    exact if_neg (by rw [hopens]; exact Bool.false_ne_true)
  unfold TransferJob.read
  dsimp only
  rw [hentry]
  dsimp only
  rw [hnone]

theorem forward_final {s : Sending} {ios : List ReadIo}
    (h : Along (step paths source z) (Forward paths source z) s ios) :
    s.job.fileNum ≤ (ios.foldl (step paths source z) s).job.fileNum := by
  induction ios generalizing s with
  | nil => exact Int32.le_refl _
  | cons io ios ih => exact Int32.le_trans h.1 (ih h.2)

/-- Every entry fails to open, and the counter counts the calls. -/
theorem fileNum_failing (paths : Paths Loc) (source : FileStore Loc) (z : Zstd) (id : Int32)
    (path : PathBuf) (files : List FileEntry) {m : ℕ} (hm : m ≤ files.length)
    (hsmall : m ≤ 2 ^ 31) :
    ((List.replicate m ⟨false, []⟩).foldl (step paths source z) (start id path files)).job =
      { TransferJob.newRead id path files with fileNum := Int32.ofNat m } := by
  induction m with
  | zero => rfl
  | succ m ih =>
      rw [List.replicate_succ', List.foldl_append, List.foldl_cons, List.foldl_nil]
      have hnum : asUsize (Int32.ofNat m) = m := asUsize_ofNat (by omega)
      simp only [step]
      rw [ih (by omega) (by omega), Int32.ofNat_add]
      have hentry : files[asUsize (Int32.ofNat m)]? = some files[m] := by
        rw [hnum]
        exact List.getElem?_eq_getElem hm
      exact congrArg Prod.snd (read_unopened hentry rfl rfl)

/-- With `2 ^ 31` entries the last call makes `file_num` negative. -/
theorem counter_wraps :
    ¬ Along (step .lexical .empty .framed) (Forward .lexical .empty .framed)
      (start 1 "d".toList (List.replicate (2 ^ 31) ⟨"a".toList, 0, 0⟩))
      (List.replicate (2 ^ 31) ⟨false, []⟩) := by
  intro h
  have hfinal := forward_final h
  rw [fileNum_failing _ _ _ _ _ _ (by rw [List.length_replicate]) (le_refl _)] at hfinal
  exact absurd hfinal (by decide)

end Sending

end

end RustdeskServer.Transfer
