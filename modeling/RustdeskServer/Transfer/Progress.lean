import Mathlib.Algebra.BigOperators.Group.Finset.Basic
import RustdeskServer.Transfer.Pipe
import RustdeskServer.Transfer.ReadJobs
import RustdeskServer.Transfer.Totals

/-!
# Progress counts up to the total (`finished_size`)

`Standing` ties the counter of a sending job to its place in the list, and a `read`
moves both. What a receiving job has counted are the bytes of its blocks, which
`sum_received` adds up entry by entry. Either way an error-free transfer of the files
that the list describes counts up to the sum of their sizes; `totals_match_iff` says
for which lists the job's total is that sum.
-/

namespace RustdeskServer.Transfer

open RustdeskServer.Codec RustdeskServer.Framework

/-! ## The sending end -/

/-- The block says that the file of its entry has ended. -/
def FileTransferBlock.EndsFile (block : FileTransferBlock) : Prop :=
  block.data = [] ∧ block.compressed = false

section
variable {Loc : Type*} (paths : Paths Loc)

/-- No more bytes are counted than the total says. -/
def TransferJob.WithinTotal (job : TransferJob) : Prop := job.finishedSize ≤ job.totalSize

/-- Each entry has a file, as long as the entry says. -/
def Described (source : FileStore Loc) (path : PathBuf) (files : List FileEntry) : Prop :=
  ∀ entry ∈ files, ∃ content, sourceOf paths source path entry = some content ∧
    content.length = entry.size.toNat

/-- The entries have the files that they have in `source`. -/
def Unchanged (source store : FileStore Loc) (path : PathBuf) (files : List FileEntry) : Prop :=
  ∀ entry ∈ files,
    store.inode (paths.locate (entryPath path entry)) =
      source.inode (paths.locate (entryPath path entry)) ∧
    sourceOf paths store path entry = sourceOf paths source path entry

/-- The job has counted all of the first `n` entries and `pos` bytes of the next. A
counter that has wrapped lies beyond any list. -/
structure Standing (source : FileStore Loc) (job : TransferJob) (n pos : ℕ) : Prop where
  le : n ≤ job.files.length
  place : n < 2 ^ 31 ∧ Reading paths source job n pos ∨
    2 ^ 31 ≤ n ∧ pos = 0 ∧ 2 ^ 63 ≤ asUsize job.fileNum
  within : ∀ entry, job.files[n]? = some entry → pos ≤ entry.size.toNat
  finishedSize : job.finishedSize.toNat = sumSizes (job.files.take n) + pos

variable {paths} {z : Zstd} {source store : FileStore Loc}

/-- Data are not taken for the end of a file. -/
theorem encodeBuffer_not_end (z : Zstd) (name : List Char) {buf : Bytes} (hne : buf ≠ [])
    (id fileNum : Int32) : ¬ FileTransferBlock.EndsFile ⟨id, fileNum,
      (TransferJob.encodeBuffer z name buf).1, (TransferJob.encodeBuffer z name buf).2⟩ := by
  rintro ⟨hdata, hplain⟩
  unfold TransferJob.encodeBuffer at hdata hplain
  dsimp only at hdata hplain
  split_ifs at hdata hplain
  · exact hne hdata
  · exact hne hdata

theorem Unchanged.symm {path : PathBuf} {files : List FileEntry}
    (h : Unchanged paths source store path files) : Unchanged paths store source path files := by
  intro entry hmem
  obtain ⟨hino, hcontent⟩ := h entry hmem
  exact ⟨hino.symm, hcontent.symm⟩

theorem Reading.congr {job : TransferJob} {n pos : ℕ}
    (hunchanged : Unchanged paths source store job.path job.files)
    (h : Reading paths source job n pos) : Reading paths store job n pos := by
  refine ⟨h.num, ?_⟩
  rcases h.file with hnone | ⟨entry, file, hentry, hfile, hpos, hlt, hino⟩
  · exact .inl hnone
  · refine .inr ⟨entry, file, hentry, hfile, hpos, hlt, ?_⟩
    exact (hunchanged entry (List.mem_of_getElem? hentry)).1.trans hino

/-- **What a `read` counts**: the bytes it takes from the file, none of them at its
end. -/
theorem read_tallied {job job' : TransferJob} {n pos : ℕ} (h : Reading paths store job n pos)
    (hn : n < 2 ^ 31) {entry : FileEntry} {content : Bytes}
    (hentry : job.files[n]? = some entry)
    (hcontent : sourceOf paths store job.path entry = some content) {io : ReadIo}
    {res : Option FileTransferBlock} (hread : job.read paths z store io = (.ok res, job')) :
    ∃ block, res = some block ∧ asUsize block.fileNum = n ∧
      (content.length ≤ pos ∧ Tallied job job' 0 ∧ job'.fileNum = job.fileNum + 1 ∧
          job'.file = none ∨
        ¬ block.EndsFile ∧ ∃ len, pos + len ≤ content.length ∧ Tallied job job' len ∧
          Reading paths store job' n (pos + len)) := by
  have hfile {entry' : FileEntry} {file : OpenFile}
      (hentry' : job.files[asUsize job.fileNum]? = some entry')
      (hopen : job.openSource paths store entry' io = some file) :
      entry' = entry ∧ file.pos = pos ∧ content = (store.data file.ino).content ∧
        store.inode (paths.locate (job.join entry.name)) = some file.ino := by
    rw [h.num, hentry] at hentry'
    cases hentry'
    obtain ⟨hpos, hino⟩ := openSource_spec h hentry hopen
    have hsource : sourceOf paths store job.path entry =
      some (store.data file.ino).content := FileStore.read_of_inode hino
    exact ⟨rfl, hpos, Option.some.inj (hcontent.symm.trans hsource), hino⟩
  cases took_of_read hread with
  | nothing hend =>
      rw [h.num, hentry] at hend
      cases hend
  | ended entry' file hentry' hopen hfill =>
      obtain ⟨rfl, rfl, rfl, -⟩ := hfile hentry' hopen
      refine ⟨_, rfl, ?_, .inl ⟨length_le_of_fillBuffer hfill,
        ⟨⟨rfl, rfl, rfl⟩, rfl, (UInt64.add_zero _).symm⟩, rfl, rfl⟩⟩
      rw [h.num]
      exact asUsize_ofNat hn
  | filled entry' file buf hentry' hopen hfill hne =>
      obtain ⟨rfl, rfl, rfl, hino⟩ := hfile hentry' hopen
      have hlen := congrArg List.length (fillBuffer_nil_eq hfill)
      have hpositive := List.length_pos_of_ne_nil hne
      rw [List.length_take, List.length_drop] at hlen
      refine ⟨_, rfl, ?_, .inr ⟨?_, buf.length, by omega, ⟨⟨rfl, rfl, rfl⟩, rfl, rfl⟩, h.num, ?_⟩⟩
      · rw [h.num]
        exact asUsize_ofNat hn
      · exact encodeBuffer_not_end z entry'.name hne _ _
      · exact .inr ⟨entry', _, hentry, rfl, rfl, by omega, hino⟩

theorem sumSizes_take_succ {files : List FileEntry} {n : ℕ} {entry : FileEntry}
    (hentry : files[n]? = some entry) :
    sumSizes (files.take (n + 1)) = sumSizes (files.take n) + entry.size.toNat := by
  unfold sumSizes
  rw [List.take_add_one, hentry]
  simp

theorem sumSizes_take_le (files : List FileEntry) (n : ℕ) :
    sumSizes (files.take n) ≤ sumSizes files := by
  have hsplit : sumSizes (files.take n ++ files.drop n) =
      sumSizes (files.take n) + sumSizes (files.drop n) := by
    simp [sumSizes]
  rw [List.take_append_drop] at hsplit
  omega

/-- Behind the last entry no bytes are left to count. -/
theorem Standing.pos_eq_zero {job : TransferJob} {n pos : ℕ}
    (h : Standing paths source job n pos) (hend : job.files[n]? = none) : pos = 0 := by
  rcases h.place with ⟨-, hreading⟩ | ⟨-, hpos, -⟩
  · rcases hreading.file with ⟨-, hpos⟩ | ⟨entry, -, hentry, -⟩
    · exact hpos
    · rw [hend] at hentry
      cases hentry
  · exact hpos

theorem Standing.finishedSize_le {job : TransferJob} {n pos : ℕ}
    (h : Standing paths source job n pos) : job.finishedSize.toNat ≤ sumSizes job.files := by
  rw [h.finishedSize]
  cases hentry : job.files[n]? with
  | some entry =>
      have hpos := h.within entry hentry
      have hle := sumSizes_take_le job.files (n + 1)
      rw [sumSizes_take_succ hentry] at hle
      omega
  | none =>
      have hpos := h.pos_eq_zero hentry
      have hle := sumSizes_take_le job.files n
      omega

theorem Standing.finishedSize_eq {job : TransferJob} {pos : ℕ}
    (h : Standing paths source job job.files.length pos) :
    job.finishedSize.toNat = sumSizes job.files := by
  rw [h.finishedSize, List.take_length, h.pos_eq_zero (List.getElem?_eq_none (Nat.le_refl _)),
    Nat.add_zero]

theorem Standing.withinTotal {job : TransferJob} {n pos : ℕ}
    (h : Standing paths source job n pos) (hexact : job.Exact) : job.WithinTotal := by
  rw [TransferJob.WithinTotal, UInt64.le_iff_toNat_le, hexact]
  exact h.finishedSize_le

/-- A job at which nothing has been counted is at the start of its list. -/
theorem standing_start {job : TransferJob} (hnum : job.fileNum = 0) (hfile : job.file = none)
    (hcount : job.finishedSize = 0) : Standing paths source job 0 0 where
  le := Nat.zero_le _
  place := by
    refine .inl ⟨by decide, ?_, .inl ⟨hfile, rfl⟩⟩
    rw [hnum]
    rfl
  within _ _ := Nat.zero_le _
  finishedSize := by
    rw [hcount]
    rfl

/-- The counter of a job with `2 ^ 31` entries behind it is negative. -/
theorem le_asUsize_succ {x : Int32} (h : asUsize x = 2 ^ 31 - 1) : 2 ^ 63 ≤ asUsize (x + 1) := by
  rw [← ofNat_asUsize x, h]
  decide

/-- The counter behind the last byte of entry `n`. -/
theorem Standing.next {job job' : TransferJob} {n pos : ℕ} {entry : FileEntry}
    (h : Standing paths source job n pos) (hentry : job.files[n]? = some entry)
    (hreading : Reading paths source job n pos) (hn : n < 2 ^ 31)
    (hpos : pos = entry.size.toNat) (htallied : Tallied job job' 0)
    (hnum : job'.fileNum = job.fileNum + 1) (hfile : job'.file = none) :
    Standing paths source job' (n + 1) 0 where
  le := by
    rw [htallied.same.files]
    exact (List.getElem?_eq_some_iff.mp hentry).1
  place := by
    rcases Nat.lt_or_ge (n + 1) (2 ^ 31) with hlt | hge
    · exact .inl ⟨hlt, reading_next hreading hlt hnum hfile⟩
    · refine .inr ⟨hge, rfl, ?_⟩
      rw [hnum]
      apply le_asUsize_succ
      rw [hreading.num]
      omega
  within _ _ := Nat.zero_le _
  finishedSize := by
    have hcount := h.finishedSize
    rw [htallied.same.files, sumSizes_take_succ hentry,
      htallied.finishedSize.trans (UInt64.add_zero _)]
    omega

/-- The counter of a job that has taken `len` bytes more. -/
theorem Standing.more {job job' : TransferJob} {n pos len : ℕ} {entry : FileEntry}
    (h : Standing paths source job n pos) (hentry : job.files[n]? = some entry)
    (hreading : Reading paths source job' n (pos + len)) (hn : n < 2 ^ 31)
    (hle : pos + len ≤ entry.size.toNat) (htallied : Tallied job job' len)
    (hbound : sumSizes job.files < 2 ^ 64) : Standing paths source job' n (pos + len) where
  le := by
    rw [htallied.same.files]
    exact h.le
  place := .inl ⟨hn, hreading⟩
  within entry' hentry' := by
    rw [htallied.same.files, hentry] at hentry'
    cases hentry'
    exact hle
  finishedSize := by
    have hcount := h.finishedSize
    have htake := sumSizes_take_le job.files (n + 1)
    rw [sumSizes_take_succ hentry] at htake
    rw [htallied.same.files, htallied.finishedSize, UInt64.toNat_add, UInt64.toNat_ofNat', hcount]
    omega

/-- A job with no entry left stays where it is. -/
theorem Standing.stays {job : TransferJob} {n pos : ℕ} (h : Standing paths source job n pos)
    (hend : job.files[asUsize job.fileNum]? = none) :
    Standing paths source { job with file := none } n pos where
  le := h.le
  place := by
    rcases h.place with ⟨hn, hreading⟩ | hbeyond
    · refine .inl ⟨hn, hreading.num, .inl ⟨rfl, ?_⟩⟩
      rcases hreading.file with ⟨-, hpos⟩ | ⟨entry, -, hentry, -⟩
      · exact hpos
      · rw [← hreading.num, hend] at hentry
        cases hentry
    · exact .inr hbeyond
  within := h.within
  finishedSize := h.finishedSize

/-- **One `read` of a sending job.** Its place and its counter move together, and it
goes on to the next entry with the block that ends the file. -/
theorem Standing.read {job job' : TransferJob} {n pos : ℕ} (h : Standing paths source job n pos)
    (hvec : job.files.length < 2 ^ 63) (hbound : sumSizes job.files < 2 ^ 64)
    (hdescribed : Described paths source job.path job.files)
    (hunchanged : Unchanged paths source store job.path job.files) {io : ReadIo}
    {res : Option FileTransferBlock} (hread : job.read paths z store io = (.ok res, job')) :
    ∃ n' pos', n ≤ n' ∧ Standing paths source job' n' pos' ∧
      ∀ block, res = some block → block.EndsFile → asUsize block.fileNum < n' := by
  cases hleft : job.files[asUsize job.fileNum]? with
  | none =>
      rw [read_of_none hleft] at hread
      cases hread
      refine ⟨n, pos, Nat.le_refl n, h.stays hleft, ?_⟩
      intro block hblock
      cases hblock
  | some entry =>
      have hlt := (List.getElem?_eq_some_iff.mp hleft).1
      rcases h.place with ⟨hn, hreading⟩ | ⟨-, -, hbeyond⟩
      · rw [hreading.num] at hleft
        have hmem := List.mem_of_getElem? hleft
        obtain ⟨content, hcontent, hlength⟩ := hdescribed entry hmem
        have hstored := (hunchanged entry hmem).2.trans hcontent
        obtain ⟨block, rfl, hnum, ⟨hend, htallied, hfileNum, hfile⟩ | ⟨hnot, len, hlen, htallied,
          hnext⟩⟩ := read_tallied (hreading.congr hunchanged) hn hleft hstored hread
        · have hpos := h.within entry hleft
          refine ⟨n + 1, 0, Nat.le_succ n, h.next hleft hreading hn (by omega) htallied hfileNum
            hfile, ?_⟩
          intro block' hblock _
          cases hblock
          omega
        · have hback : Unchanged paths store source job'.path job'.files := by
            rw [htallied.same.path, htallied.same.files]
            exact hunchanged.symm
          refine ⟨n, pos + len, Nat.le_refl n,
            h.more hleft (hnext.congr hback) hn (by omega) htallied hbound, ?_⟩
          intro block' hblock hends
          cases hblock
          exact absurd hends hnot
      · omega

/-! ## Whole transfers -/

variable [DecidableEq Loc]

variable (paths z source) in
/-- The calls read, without an error, files that stay as the list describes them. A
vector has fewer than `2 ^ 63` elements. -/
structure Sends (job : TransferJob) (calls : List (JobCall Loc)) : Prop where
  vector : job.files.length < 2 ^ 63
  described : Described paths source job.path job.files
  reads : ∀ call ∈ calls, ∃ store io, call = .read store io ∧
    Unchanged paths source store job.path job.files
  errorFree : job.ErrorFree paths z calls

variable (paths z) in
/-- The end of each entry's file has been returned. -/
def SentAll (job : TransferJob) (calls : List (JobCall Loc)) : Prop :=
  ∀ k < job.files.length, ∃ block : FileTransferBlock,
    .ok (some block) ∈ job.outcomes paths z calls ∧ asUsize block.fileNum = k ∧ block.EndsFile

variable (paths z) in
/-- The transfer has ended: all files have been sent to their ends, or, where the
counter is wide enough for the list, `read` will return `Ok(None)`. -/
def SendEnded (job : TransferJob) (calls : List (JobCall Loc)) : Prop :=
  SentAll paths z job calls ∨
    job.files.length < 2 ^ 31 ∧ (calls.foldl (TransferJob.step paths z) job).exhausted = true

variable (paths z) in
/-- The counter stays at the total or below, and is there once the transfer has ended. -/
structure CountsUp (job : TransferJob) (calls : List (JobCall Loc)) (ended : Prop) : Prop where
  below : Always (TransferJob.step paths z) TransferJob.WithinTotal job calls
  reached : ended → (calls.foldl (TransferJob.step paths z) job).finishedSize =
    (calls.foldl (TransferJob.step paths z) job).totalSize

theorem Sends.tail {job : TransferJob} {call : JobCall Loc} {calls : List (JobCall Loc)}
    (h : Sends paths z source job (call :: calls)) (hsame : SameList job (job.step paths z call)) :
    Sends paths z source (job.step paths z call) calls where
  vector := by
    rw [hsame.files]
    exact h.vector
  described := by
    rw [hsame.path, hsame.files]
    exact h.described
  reads call' hmem := by
    rw [hsame.path, hsame.files]
    exact h.reads call' (List.mem_cons_of_mem call hmem)
  errorFree res hmem := h.errorFree res (List.mem_cons_of_mem _ hmem)

/-- A transfer keeps the job at a place, and is behind every entry whose file has been
returned to its end. -/
theorem Standing.run {calls : List (JobCall Loc)} {job : TransferJob} {n pos : ℕ}
    (h : Standing paths source job n pos) (hsends : Sends paths z source job calls)
    (hexact : job.Exact) :
    Always (TransferJob.step paths z) TransferJob.WithinTotal job calls ∧
      ∃ n' pos', Standing paths source (calls.foldl (TransferJob.step paths z) job) n' pos' ∧
        n ≤ n' ∧ SameList job (calls.foldl (TransferJob.step paths z) job) ∧
        (calls.foldl (TransferJob.step paths z) job).totalSize = job.totalSize ∧
        ∀ block, .ok (some block) ∈ job.outcomes paths z calls → block.EndsFile →
          asUsize block.fileNum < n' := by
  induction calls generalizing job n pos with
  | nil =>
      refine ⟨h.withinTotal hexact, n, pos, h, Nat.le_refl n, .refl job, rfl, ?_⟩
      intro block hmem
      cases hmem
  | cons call calls ih =>
      obtain ⟨store, io, rfl, hunchanged⟩ := hsends.reads call List.mem_cons_self
      obtain ⟨res, hres⟩ := hsends.errorFree _ List.mem_cons_self
      have hbound : sumSizes job.files < 2 ^ 64 := by
        rw [← hexact]
        exact job.totalSize.toNat_lt
      obtain ⟨n₁, pos₁, hn₁, hstanding, hends⟩ :=
        h.read hsends.vector hbound hsends.described hunchanged (Prod.ext hres rfl)
      obtain ⟨hsame, htotal⟩ := read_keeps paths z job store io
      obtain ⟨halways, n', pos', hfinal, hn', hsame', htotal', hends'⟩ :=
        ih hstanding (hsends.tail hsame) (hexact.of_same hsame htotal)
      refine ⟨⟨h.withinTotal hexact, halways⟩, n', pos', hfinal, hn₁.trans hn', ?_, ?_, ?_⟩
      · exact ⟨hsame'.id.trans hsame.id, hsame'.path.trans hsame.path,
          hsame'.files.trans hsame.files⟩
      · exact htotal'.trans htotal
      · intro block hmem hend
        rcases List.mem_cons.mp hmem with heq | hmem
        · have hlt := hends block (Except.ok.inj (hres.symm.trans heq.symm)) hend
          omega
        · exact hends' block hmem hend

/-- **A transfer that sends** counts up to the total. -/
theorem sends_countsUp {calls : List (JobCall Loc)} {job : TransferJob}
    (h : Standing paths source job 0 0) (hsends : Sends paths z source job calls)
    (hexact : job.Exact) : CountsUp paths z job calls (SendEnded paths z job calls) := by
  obtain ⟨halways, n, pos, hfinal, -, hsame, htotal, hends⟩ := h.run hsends hexact
  refine ⟨halways, ?_⟩
  intro hended
  have hn : n = (calls.foldl (TransferJob.step paths z) job).files.length := by
    apply Nat.le_antisymm hfinal.le
    rcases hended with hall | ⟨hshort, hend⟩
    · by_contra hlt
      rw [hsame.files] at hlt
      obtain ⟨block, hmem, hnum, hend⟩ := hall n (by omega)
      have hless := hends block hmem hend
      omega
    · rcases hfinal.place with ⟨-, hreading⟩ | ⟨hlong, -⟩
      · rw [exhausted_iff, hreading.num] at hend
        exact List.getElem?_eq_none_iff.mp hend
      · have hle := hfinal.le
        rw [hsame.files] at hle
        omega
  subst hn
  apply UInt64.toNat_inj.mp
  rw [hfinal.finishedSize_eq, htotal, hexact, hsame.files]

/-! ## The receiving end -/

/-- The bytes of the call's block, if it is for entry `k`. -/
def JobCall.bytesFor (z : Zstd) (k : ℕ) : JobCall Loc → ℕ
  | .write _ block _ => if asUsize block.fileNum = k then (block.bytes z).length else 0
  | _ => 0

def JobCall.bytes (z : Zstd) : JobCall Loc → ℕ
  | .write _ block _ => (block.bytes z).length
  | _ => 0

/-- The call's block is for one of the first `n` entries. -/
def JobCall.InList (z : Zstd) (n : ℕ) (call : JobCall Loc) : Prop :=
  ∃ k < n, ∀ k', call.bytesFor z k' = if k = k' then call.bytes z else 0

/-- How many bytes the calls bring for entry `k`. -/
def received (z : Zstd) (calls : List (JobCall Loc)) (k : ℕ) : ℕ :=
  (calls.map (JobCall.bytesFor z k)).sum

variable (paths z) in
/-- The calls write, without an error, blocks of files that are as long as the list
says. -/
structure Receives (job : TransferJob) (calls : List (JobCall Loc)) : Prop where
  writes : ∀ call ∈ calls, ∃ disk block io, call = .write disk block io
  errorFree : job.ErrorFree paths z calls
  within : ∀ k entry, job.files[k]? = some entry → received z calls k ≤ entry.size.toNat

variable (z) in
/-- All bytes of each entry have been received. -/
def ReceivedAll (job : TransferJob) (calls : List (JobCall Loc)) : Prop :=
  ∀ k entry, job.files[k]? = some entry → received z calls k = entry.size.toNat

/-- A `write` without an error is for an entry of the list, and is counted. -/
theorem write_step {job : TransferJob} {disk : Disk Loc} {block : FileTransferBlock}
    {io : WriteIo} {res : Option FileTransferBlock}
    (h : (job.call paths z (.write disk block io)).1 = .ok res) :
    asUsize block.fileNum < job.files.length ∧
      Tallied job (job.step paths z (.write disk block io)) (block.bytes z).length := by
  rcases write_tallied paths z job disk block io with
    ⟨⟨err, herr⟩, -⟩ | ⟨⟨entry, haccepts⟩, -, htallied⟩
  · have hmap : (job.call paths z (.write disk block io)).1 =
        (job.write paths z disk block io).1.map fun _ => none := rfl
    rw [hmap, herr] at h
    cases h
  · exact ⟨(List.getElem?_eq_some_iff.mp haccepts.2).1, htallied⟩

theorem blocks_in_list {calls : List (JobCall Loc)} {job : TransferJob}
    (hwrites : ∀ call ∈ calls, ∃ disk block io, call = .write disk block io)
    (herrors : job.ErrorFree paths z calls) :
    ∀ call ∈ calls, call.InList z job.files.length := by
  induction calls generalizing job with
  | nil => exact List.forall_mem_nil _
  | cons call calls ih =>
      obtain ⟨disk, block, io, rfl⟩ := hwrites call List.mem_cons_self
      obtain ⟨res, hres⟩ := herrors _ List.mem_cons_self
      obtain ⟨hlt, htallied⟩ := write_step hres
      rw [List.forall_mem_cons]
      constructor
      · exact ⟨_, hlt, fun _ => rfl⟩
      · rw [← htallied.same.files]
        apply ih
        · intro call hmem
          exact hwrites call (List.mem_cons_of_mem _ hmem)
        · intro res' hmem
          exact herrors res' (List.mem_cons_of_mem _ hmem)

omit [DecidableEq Loc] in
/-- The blocks' bytes, entry by entry. -/
theorem sum_received {calls : List (JobCall Loc)} {n : ℕ} (h : ∀ call ∈ calls, call.InList z n) :
    ∑ k ∈ Finset.range n, received z calls k = (calls.map (JobCall.bytes z)).sum := by
  induction calls with
  | nil => simp [received]
  | cons call calls ih =>
      obtain ⟨⟨k, hk, hfor⟩, hrest⟩ := List.forall_mem_cons.mp h
      have hsplit : ∀ k' ∈ Finset.range n, received z (call :: calls) k' =
          (if k = k' then call.bytes z else 0) + received z calls k' := by
        intro k' _
        rw [← hfor k']
        rfl
      rw [Finset.sum_congr rfl hsplit, Finset.sum_add_distrib, ih hrest, Finset.sum_ite_eq,
        if_pos (Finset.mem_range.mpr hk), List.map_cons, List.sum_cons]

theorem sum_sizes (files : List FileEntry) :
    ∑ k ∈ Finset.range files.length, (files[k]?.map fun entry => entry.size.toNat).getD 0 =
      sumSizes files := by
  induction files with
  | nil => rfl
  | cons entry files ih =>
      rw [List.length_cons, Finset.sum_range_succ', sumSizes_cons, ← ih, Nat.add_comm]
      rfl

theorem received_run {calls : List (JobCall Loc)} {job : TransferJob}
    (hwrites : ∀ call ∈ calls, ∃ disk block io, call = .write disk block io)
    (herrors : job.ErrorFree paths z calls)
    (hroom : job.finishedSize.toNat + (calls.map (JobCall.bytes z)).sum ≤ job.totalSize.toNat) :
    Always (TransferJob.step paths z) TransferJob.WithinTotal job calls ∧
      (calls.foldl (TransferJob.step paths z) job).totalSize = job.totalSize ∧
      (calls.foldl (TransferJob.step paths z) job).finishedSize.toNat =
        job.finishedSize.toNat + (calls.map (JobCall.bytes z)).sum := by
  induction calls generalizing job with
  | nil => exact ⟨UInt64.le_iff_toNat_le.mpr hroom, rfl, rfl⟩
  | cons call calls ih =>
      obtain ⟨disk, block, io, rfl⟩ := hwrites call List.mem_cons_self
      obtain ⟨res, hres⟩ := herrors _ List.mem_cons_self
      obtain ⟨-, htallied⟩ := write_step hres
      have hbound := job.totalSize.toNat_lt
      have hbytes : JobCall.bytes z (.write disk block io) = (block.bytes z).length := rfl
      rw [List.map_cons, List.sum_cons, hbytes] at hroom ⊢
      have hcount : (job.step paths z (.write disk block io)).finishedSize.toNat =
          job.finishedSize.toNat + (block.bytes z).length := by
        rw [htallied.finishedSize, UInt64.toNat_add, UInt64.toNat_ofNat']
        omega
      obtain ⟨halways, htotal, hfinal⟩ := ih
        (fun call hmem => hwrites call (List.mem_cons_of_mem _ hmem))
        (fun res hmem => herrors res (List.mem_cons_of_mem _ hmem))
        (by rw [hcount, htallied.totalSize]; omega)
      refine ⟨⟨?_, halways⟩, htotal.trans htallied.totalSize, ?_⟩
      · rw [TransferJob.WithinTotal, UInt64.le_iff_toNat_le]
        omega
      · rw [List.foldl_cons, hfinal, hcount, Nat.add_assoc]

/-- **A transfer that receives** counts up to the total. -/
theorem receives_countsUp {calls : List (JobCall Loc)} {job : TransferJob}
    (hcount : job.finishedSize = 0) (hreceives : Receives paths z job calls)
    (hexact : job.Exact) : CountsUp paths z job calls (ReceivedAll z job calls) := by
  have hlist := blocks_in_list hreceives.writes hreceives.errorFree
  have hsum := sum_received hlist
  have hsizes := sum_sizes job.files
  have hstart : job.finishedSize.toNat = 0 := by
    rw [hcount]
    rfl
  have hle : (calls.map (JobCall.bytes z)).sum ≤ sumSizes job.files := by
    rw [← hsum, ← hsizes]
    apply Finset.sum_le_sum
    intro k hk
    have hentry := List.getElem?_eq_getElem (Finset.mem_range.mp hk)
    rw [hentry]
    exact hreceives.within k _ hentry
  obtain ⟨halways, htotal, hfinal⟩ := received_run hreceives.writes hreceives.errorFree
    (by rw [hstart, hexact]; omega)
  refine ⟨halways, ?_⟩
  intro hall
  apply UInt64.toNat_inj.mp
  rw [htotal, hexact, hfinal, hstart, Nat.zero_add, ← hsum, ← hsizes]
  apply Finset.sum_congr rfl
  intro k hk
  have hentry := List.getElem?_eq_getElem (Finset.mem_range.mp hk)
  rw [hentry]
  exact hall k _ hentry

/-! ## Totals and transfers -/

/-- The job after lists have been set. -/
def TransferJob.withLists (job : TransferJob) (lists : List (List FileEntry)) : TransferJob :=
  lists.foldl TransferJob.setFiles job

theorem TransferJob.withLists_eq (job : TransferJob) (lists : List (List FileEntry)) :
    ∃ files, job.withLists lists = { job with files := files } := by
  induction lists generalizing job with
  | nil => exact ⟨job.files, rfl⟩
  | cons list lists ih => exact ih (job.setFiles list)

/-- Lists of the right sum leave the total right. -/
theorem TransferJob.Exact.withLists {job : TransferJob} (h : job.Exact)
    {lists : List (List FileEntry)} (hsums : ∀ list ∈ lists, sumSizes list = sumSizes job.files) :
    (job.withLists lists).Exact := by
  induction lists generalizing job with
  | nil => exact h
  | cons list lists ih =>
      obtain ⟨hlist, hlists⟩ := List.forall_mem_cons.mp hsums
      have hexact : (job.setFiles list).Exact := h.trans hlist.symm
      apply ih hexact
      intro list' hmem
      exact (hlists list' hmem).trans hlist.symm

variable (paths z) in
/-- What is asked of a job and its calls: the total is always that of the list, and when
the calls set lists and then make an error-free transfer of the files that the list
describes, the counter goes up to the total. -/
structure TotalsMatch (job : TransferJob) (calls : List (JobCall Loc)) : Prop where
  exact : Always (TransferJob.step paths z) TransferJob.Exact job calls
  sends : ∀ lists transfer source, calls = lists.map .setFiles ++ transfer →
    Sends paths z source (job.withLists lists) transfer →
    CountsUp paths z (job.withLists lists) transfer
      (SendEnded paths z (job.withLists lists) transfer)
  receives : ∀ lists transfer, calls = lists.map .setFiles ++ transfer →
    Receives paths z (job.withLists lists) transfer →
    CountsUp paths z (job.withLists lists) transfer
      (ReceivedAll z (job.withLists lists) transfer)

/-- **Totals.** For every job that a constructor makes of a list, whatever the sizes,
and all later calls: the total is always the sum of the list's sizes, and every
error-free transfer counts up to it, if and only if the sizes of the first list add up
to less than `2 ^ 64` and the lists that replace it have the same sum. -/
theorem totals_match_iff {files : List FileEntry} {job : TransferJob} (hjob : Created files job)
    (calls : List (JobCall Loc)) :
    TotalsMatch paths z job calls ↔
      sumSizes files < 2 ^ 64 ∧ ∀ call ∈ calls, call.Matches (sumSizes files) := by
  obtain ⟨hfiles, hnum, hfile, hcount⟩ := hjob.fresh
  constructor
  · intro h
    have hexact := h.exact.head
    refine ⟨hjob.exact_iff.mp hexact, ?_⟩
    rw [← hfiles]
    exact (always_exact_iff hexact calls).mp h.exact
  · rintro ⟨hlt, hmatches⟩
    have hexact := hjob.exact_iff.mpr hlt
    rw [← hfiles] at hmatches
    have hlists {lists : List (List FileEntry)} {transfer : List (JobCall Loc)}
        (hcalls : calls = lists.map .setFiles ++ transfer) : (job.withLists lists).Exact := by
      apply hexact.withLists
      intro list hmem
      apply hmatches (.setFiles list)
      rw [hcalls]
      exact List.mem_append_left _ (List.mem_map_of_mem hmem)
    refine ⟨(always_exact_iff hexact calls).mpr hmatches, ?_, ?_⟩
    · intro lists transfer source hcalls hsends
      have hstart : Standing paths source (job.withLists lists) 0 0 := by
        obtain ⟨list, hlist⟩ := job.withLists_eq lists
        rw [hlist]
        exact standing_start hnum hfile hcount
      exact sends_countsUp hstart hsends (hlists hcalls)
    · intro lists transfer hcalls hreceives
      obtain ⟨list, hlist⟩ := job.withLists_eq lists
      have hzero : (job.withLists lists).finishedSize = 0 := by
        rw [hlist]
        exact hcount
      exact receives_countsUp hzero hreceives (hlists hcalls)

end

def pairJob : TransferJob := .newRead 1 "s".toList [⟨"a".toList, 2, 0⟩]

/-- Two files of one byte. -/
def pairList : List FileEntry := [⟨"a".toList, 1, 0⟩, ⟨"b".toList, 1, 0⟩]

def pairSource : FileStore (List Component) :=
  filesAt [("s/a".toList, [7]), ("s/b".toList, [8])]

def pairReads : List (JobCall (List Component)) :=
  List.replicate 4 (.read pairSource ⟨true, []⟩)

theorem pairReads_sends :
    Sends .lexical .framed pairSource (pairJob.withLists [pairList]) pairReads where
  vector := by decide
  described entry hmem := by
    rcases List.mem_pair.mp hmem with rfl | rfl
    · exact ⟨[7], by decide, rfl⟩
    · exact ⟨[8], by decide, rfl⟩
  reads call hmem := by
    refine ⟨pairSource, _, List.eq_of_mem_replicate hmem, ?_⟩
    intro entry _
    exact ⟨rfl, rfl⟩
  errorFree res hmem := by
    have hall : ∀ res ∈ (pairJob.withLists [pairList]).outcomes .lexical .framed pairReads,
        res.toBool := by
      decide
    have hok := hall res hmem
    cases res with
    | error err => cases hok
    | ok block => exact ⟨block, rfl⟩

/-- A list of one entry is replaced by a list of two with the same sum, and sent. -/
theorem totals_match_pair :
    TotalsMatch .lexical .framed pairJob (.setFiles pairList :: pairReads) ∧
      (pairReads.foldl (TransferJob.step .lexical .framed)
        (pairJob.withLists [pairList])).finishedSize = 2 := by
  have hmatch : TotalsMatch .lexical .framed pairJob (.setFiles pairList :: pairReads) :=
    (totals_match_iff (.newRead 1 "s".toList) _).mpr ⟨by decide, by decide⟩
  have hcounts := hmatch.sends [pairList] pairReads pairSource rfl pairReads_sends
  refine ⟨hmatch, hcounts.reached (.inl ?_)⟩
  intro k hk
  have hlast : k = 0 ∨ k = 1 := by
    have hlt : k < 2 := hk
    omega
  rcases hlast with rfl | rfl
  · exact ⟨⟨1, 0, [], false⟩, by decide, by decide, rfl, rfl⟩
  · exact ⟨⟨1, 1, [], false⟩, by decide, by decide, rfl, rfl⟩

/-- `set_files` on a job that was made of nothing, and sizes whose sum wraps to zero. -/
theorem totals_do_not_match :
    ¬ Always (TransferJob.step .lexical .framed) TransferJob.Exact
        (.newWrite 1 "d".toList []) [.setFiles [⟨"f".toList, 5, 0⟩]] ∧
      ¬ (TransferJob.newWrite 1 "d".toList
        [⟨"f".toList, 18446744073709551615, 0⟩, ⟨"g".toList, 1, 0⟩]).Exact := by
  constructor
  · rintro ⟨-, hexact⟩
    exact absurd hexact.head (by decide)
  · decide

end RustdeskServer.Transfer
