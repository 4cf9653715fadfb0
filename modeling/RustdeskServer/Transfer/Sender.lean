import RustdeskServer.Transfer.TransferJob

/-!
# The sending end

`Reading job n pos` says where a sending job stands: at entry `n`, of which
`pos` bytes have gone out. `read_took` lists the ways a `read` can end, whatever
the job, and `read_sent` says what it does from there: it is done, or it fails and
goes on to the next entry, or it returns a block whose bytes are the next `bufSize`
of the entry's content (however short the reads were), an empty one at the end of
the file.
-/

namespace RustdeskServer.Transfer

open RustdeskServer.Codec RustdeskServer.Framework

/-! ## Entry numbers -/

theorem asUsize_of_toNat {x : Int32} {n : ℕ} (h : x.toBitVec.toNat = n) (hn : n < 2 ^ 31) :
    asUsize x = n := by
  show (x.toBitVec.signExtend 64).toNat = n
  rw [BitVec.toNat_signExtend, if_neg]
  · rw [BitVec.toNat_setWidth, h]
    omega
  · rw [BitVec.msb_eq_decide, decide_eq_true_eq]
    omega

theorem toNat_of_asUsize {x : Int32} {n : ℕ} (h : asUsize x = n) (hn : n < 2 ^ 31) :
    x.toBitVec.toNat = n := by
  have hx : (x.toBitVec.signExtend 64).toNat = n := h
  have hlt := x.toBitVec.isLt
  rw [BitVec.toNat_signExtend, BitVec.toNat_setWidth] at hx
  split_ifs at hx <;> omega

theorem asUsize_ofNat {n : ℕ} (hn : n < 2 ^ 31) : asUsize (Int32.ofNat n) = n := by
  refine asUsize_of_toNat ?_ hn
  show (BitVec.ofNat 32 n).toNat = n
  rw [BitVec.toNat_ofNat]
  omega

theorem ofNat_asUsize (x : Int32) : Int32.ofNat (asUsize x) = x := by
  apply Int32.toBitVec_inj.mp
  show BitVec.ofNat 32 (x.toBitVec.signExtend 64).toNat = x.toBitVec
  rw [BitVec.ofNat_toNat]
  ext i hi
  rw [BitVec.getElem_setWidth, BitVec.getLsbD_signExtend, if_pos hi, BitVec.getLsbD_eq_getElem hi,
    decide_eq_true (by omega), Bool.true_and]

theorem asUsize_succ {x : Int32} {n : ℕ} (h : asUsize x = n) (hn : n + 1 < 2 ^ 31) :
    asUsize (x + 1) = n + 1 := by
  refine asUsize_of_toNat ?_ hn
  show (x.toBitVec + (1 : Int32).toBitVec).toNat = n + 1
  rw [BitVec.toNat_add, toNat_of_asUsize h (by omega)]
  show (n + 1) % _ = _
  omega

/-! ## Filling the buffer -/

theorem take_in_two {α : Type*} (rest : List α) {c room : ℕ} (h : c ≤ room) :
    rest.take room = rest.take c ++
      (rest.drop (rest.take c).length).take (room - (rest.take c).length) := by
  rw [List.length_take]
  rcases Nat.le_total c rest.length with hc | hc
  · rw [Nat.min_eq_left hc, ← List.take_add, Nat.add_sub_cancel' h]
  · rw [Nat.min_eq_right hc, List.drop_length, List.take_nil, List.append_nil,
      List.take_of_length_le hc, List.take_of_length_le (hc.trans h)]

/-- **Short reads leave no trace.** When no read fails, the buffer holds the
next bytes of the file, as many as fit. -/
theorem fillBuffer_eq {content buf out : Bytes} {pos : ℕ} {reads : List ReadOutcome}
    (h : TransferJob.fillBuffer content pos buf reads = some out) :
    out = buf ++ (content.drop pos).take (bufSize - buf.length) := by
  induction reads generalizing pos buf with
  | nil => exact (Option.some.inj h).symm
  | cons outcome reads ih =>
      cases outcome with
      | err => cases h
      | upTo n =>
          have htwo := take_in_two (content.drop pos)
            (Nat.min_le_right (n + 1) (bufSize - buf.length))
          have hle := List.length_take_le (min (n + 1) (bufSize - buf.length))
            (content.drop pos)
          unfold TransferJob.fillBuffer at h
          dsimp only at h
          generalize hchunk :
            (content.drop pos).take (min (n + 1) (bufSize - buf.length)) = chunk at h htwo hle
          rw [htwo]
          split_ifs at h with hlast
          · -- the loop stops: nothing is left to read, or no room
            obtain rfl := Option.some.inj h
            rcases hlast with rfl | hfull
            · have hnone : ((content.drop pos).drop 0).take (bufSize - buf.length - 0) = [] := by
                rcases List.take_eq_nil_iff.mp hchunk with hroom | hend
                · rw [show bufSize - buf.length - 0 = 0 by omega, List.take_zero]
                · rw [hend, List.drop_nil, List.take_nil]
              rw [List.length_nil, hnone, List.nil_append]
            · rw [List.length_append] at hfull
              rw [show bufSize - buf.length - chunk.length = 0 by omega, List.take_zero,
                List.append_nil]
          · rw [ih h, List.append_assoc, List.length_append, List.drop_drop, Nat.sub_sub]

/-- The buffer starts empty. -/
theorem fillBuffer_nil_eq {content out : Bytes} {pos : ℕ} {reads : List ReadOutcome}
    (h : TransferJob.fillBuffer content pos [] reads = some out) :
    out = (content.drop pos).take bufSize := by
  have heq := fillBuffer_eq h
  rwa [List.nil_append, List.length_nil, Nat.sub_zero] at heq

/-- It stays empty only at the end of the file. -/
theorem length_le_of_fillBuffer {content : Bytes} {pos : ℕ} {reads : List ReadOutcome}
    (h : TransferJob.fillBuffer content pos [] reads = some []) : content.length ≤ pos := by
  rcases List.take_eq_nil_iff.mp (fillBuffer_nil_eq h).symm with hzero | hdrop
  · exact absurd hzero (by decide)
  · exact List.drop_eq_nil_iff.mp hdrop

/-- The buffer is filled unless a read fails. -/
theorem fillBuffer_isSome {content : Bytes} (pos : ℕ) (buf : Bytes)
    {reads : List ReadOutcome} (h : .err ∉ reads) :
    (TransferJob.fillBuffer content pos buf reads).isSome := by
  induction reads generalizing pos buf with
  | nil => rfl
  | cons outcome reads ih =>
      cases outcome with
      | err => exact absurd List.mem_cons_self h
      | upTo n =>
          unfold TransferJob.fillBuffer
          dsimp only
          split_ifs
          · rfl
          · apply ih
            intro hmem
            exact h (List.mem_cons_of_mem _ hmem)

/-! ## Compression -/

/-- What `zstd` promises: a block can be compressed, and decompressing gives
the original back when there is room for it. -/
structure Zstd.Lawful (z : Zstd) : Prop where
  compresses : ∀ data level, data.length ≤ bufSize → (z.compress data level).isSome
  restores : ∀ data level out room, z.compress data level = some out →
    data.length ≤ room → z.decompress out room = some data

theorem Zstd.framed_lawful : Zstd.framed.Lawful where
  compresses _ _ _ := rfl
  restores data level out room hout hroom := by
    obtain rfl := Option.some.inj hout
    exact if_pos hroom

theorem bufSize_le_capacity (data : Bytes) : bufSize ≤ capacity data := by
  unfold bufSize capacity
  dsimp only
  split_ifs <;> omega

/-- **A block stands for the bytes it was made of.** -/
theorem encodeBuffer_bytes {z : Zstd} (hz : z.Lawful) {buf : Bytes}
    (hbuf : buf.length ≤ bufSize) (name : List Char) (id fileNum : Int32) :
    FileTransferBlock.bytes z ⟨id, fileNum, (TransferJob.encodeBuffer z name buf).1,
      (TransferJob.encodeBuffer z name buf).2⟩ = buf := by
  unfold TransferJob.encodeBuffer FileTransferBlock.bytes
  by_cases hext : isCompressedFile name
  · rw [if_pos hext]
    rfl
  · rw [if_neg hext]
    dsimp only
    by_cases hsmall : (compress z buf compressLevel).length < buf.length
    · obtain ⟨out, hout⟩ := Option.isSome_iff_exists.mp (hz.compresses buf compressLevel hbuf)
      have hdata : compress z buf compressLevel = out := by
        rw [compress, hout, Option.getD_some]
      rw [if_pos hsmall, if_pos rfl, hdata, decompress,
        hz.restores buf compressLevel out _ hout (hbuf.trans (bufSize_le_capacity out)),
        Option.getD_some]
    · rw [if_neg hsmall]
      rfl

/-! ## One `read` -/

/-- What a call of `read` returns. -/
abbrev ReadResult : Type := Except TransferError (Option FileTransferBlock)

section
variable {Loc : Type*} (paths : Paths Loc) (source : FileStore Loc)

/-- The content of an entry's file at the sending end. -/
def sourceOf (path : PathBuf) (entry : FileEntry) : Option Bytes :=
  source.read (paths.locate (entryPath path entry))

/-- The ways a `read` can end: no entry is left, its file cannot be opened, a read
fails, the file has ended, or the buffer has some of its bytes. -/
inductive Took (z : Zstd) (job : TransferJob) (io : ReadIo) : ReadResult × TransferJob → Prop
  | nothing : job.files[asUsize job.fileNum]? = none →
      Took z job io (.ok none, { job with file := none })
  | unopened (entry : FileEntry) : job.files[asUsize job.fileNum]? = some entry →
      job.openSource paths source entry io = none →
      Took z job io (.error .io, { job with fileNum := job.fileNum + 1 })
  | unread (entry : FileEntry) (file : OpenFile) :
      job.files[asUsize job.fileNum]? = some entry →
      job.openSource paths source entry io = some file →
      TransferJob.fillBuffer (source.data file.ino).content file.pos [] io.reads = none →
      Took z job io (.error .io, { job with fileNum := job.fileNum + 1, file := none })
  | ended (entry : FileEntry) (file : OpenFile) :
      job.files[asUsize job.fileNum]? = some entry →
      job.openSource paths source entry io = some file →
      TransferJob.fillBuffer (source.data file.ino).content file.pos [] io.reads = some [] →
      Took z job io (.ok (some ⟨job.id, Int32.ofNat (asUsize job.fileNum), [], false⟩),
        { job with fileNum := job.fileNum + 1, file := none })
  | filled (entry : FileEntry) (file : OpenFile) (buf : Bytes) :
      job.files[asUsize job.fileNum]? = some entry →
      job.openSource paths source entry io = some file →
      TransferJob.fillBuffer (source.data file.ino).content file.pos [] io.reads = some buf →
      buf ≠ [] →
      Took z job io
        (.ok (some ⟨job.id, Int32.ofNat (asUsize job.fileNum),
          (TransferJob.encodeBuffer z entry.name buf).1,
          (TransferJob.encodeBuffer z entry.name buf).2⟩),
        { job with
          file := some { file with pos := file.pos + buf.length }
          finishedSize := job.finishedSize + UInt64.ofNat buf.length
          transfered := job.transfered +
            UInt64.ofNat (TransferJob.encodeBuffer z entry.name buf).1.length })

/-- The job is at entry `n`, and `pos` bytes of it have been returned. -/
structure Reading (job : TransferJob) (n pos : ℕ) : Prop where
  num : asUsize job.fileNum = n
  file : (job.file = none ∧ pos = 0) ∨ ∃ entry file, job.files[n]? = some entry ∧
    job.file = some file ∧ file.pos = pos ∧ 0 < pos ∧
    source.inode (paths.locate (job.join entry.name)) = some file.ino

/-- The ways a `read` at entry `n` and offset `pos` can end. -/
inductive Sent (z : Zstd) (job : TransferJob) (n pos : ℕ) :
    Except TransferError (Option FileTransferBlock) × TransferJob → Prop
  | done (job' : TransferJob) : job.files[n]? = none → Reading paths source job' n 0 →
      SameList job job' → job'.finishedSize = job.finishedSize →
      job'.transfered = job.transfered → Sent z job n pos (.ok none, job')
  | failed (job' : TransferJob) (entry : FileEntry) : job.files[n]? = some entry →
      Reading paths source job' (n + 1) 0 → SameList job job' →
      job'.finishedSize = job.finishedSize → job'.transfered = job.transfered →
      Sent z job n pos (.error .io, job')
  | block (job' : TransferJob) (entry : FileEntry) (content : Bytes)
      (block : FileTransferBlock) : job.files[n]? = some entry →
      sourceOf paths source job.path entry = some content → block.id = job.id →
      asUsize block.fileNum = n →
      block.bytes z = (content.drop pos).take bufSize →
      (content.length ≤ pos ∧ Reading paths source job' (n + 1) 0 ∨
        pos < content.length ∧
          Reading paths source job' n (pos + (block.bytes z).length)) →
      SameList job job' →
      job'.finishedSize = job.finishedSize + UInt64.ofNat (block.bytes z).length →
      job'.transfered = job.transfered + UInt64.ofNat block.data.length →
      Sent z job n pos (.ok (some block), job')

variable {paths source} {z : Zstd}

theorem read_took (job : TransferJob) (io : ReadIo) :
    Took paths source z job io (job.read paths z source io) := by
  unfold TransferJob.read
  dsimp only
  cases hentry : job.files[asUsize job.fileNum]? with
  | none => exact .nothing hentry
  | some entry =>
      dsimp only
      cases hopen : job.openSource paths source entry io with
      | none => exact .unopened entry hentry hopen
      | some file =>
          dsimp only
          cases hfill : TransferJob.fillBuffer (source.data file.ino).content file.pos []
              io.reads with
          | none => exact .unread entry file hentry hopen hfill
          | some buf =>
              cases buf with
              | nil => exact .ended entry file hentry hopen hfill
              | cons b bs =>
                  exact .filled entry file _ hentry hopen hfill (List.cons_ne_nil b bs)

theorem took_of_read {job : TransferJob} {io : ReadIo} {res : ReadResult × TransferJob}
    (h : job.read paths z source io = res) : Took paths source z job io res :=
  h ▸ read_took job io

theorem openSource_spec {job : TransferJob} {n pos : ℕ} (h : Reading paths source job n pos)
    {entry : FileEntry} (hentry : job.files[n]? = some entry) {io : ReadIo} {file : OpenFile}
    (ho : job.openSource paths source entry io = some file) :
    file.pos = pos ∧ source.inode (paths.locate (job.join entry.name)) = some file.ino := by
  unfold TransferJob.openSource at ho
  rcases h.file with ⟨hnone, rfl⟩ | ⟨entry', file', hentry', hfile, hpos, -, hino⟩
  · rw [hnone] at ho
    dsimp only at ho
    split_ifs at ho
    obtain ⟨ino, hino, rfl⟩ := Option.map_eq_some_iff.mp ho
    exact ⟨rfl, hino⟩
  · rw [hfile] at ho
    cases ho
    rw [hentry] at hentry'
    cases hentry'
    exact ⟨hpos, hino⟩

theorem openSource_none {job : TransferJob} {entry : FileEntry} {io : ReadIo}
    (ho : job.openSource paths source entry io = none) : job.file = none := by
  unfold TransferJob.openSource at ho
  cases hfile : job.file with
  | none => rfl
  | some file => rw [hfile] at ho; cases ho

theorem reading_next {job job' : TransferJob} {n pos : ℕ} (h : Reading paths source job n pos)
    (hn : n + 1 < 2 ^ 31) (hnum : job'.fileNum = job.fileNum + 1) (hfile : job'.file = none) :
    Reading paths source job' (n + 1) 0 :=
  ⟨hnum ▸ asUsize_succ h.num hn, .inl ⟨hfile, rfl⟩⟩

/-- **What a `read` does.** -/
theorem read_sent (hz : z.Lawful) {job : TransferJob} (hlen : job.files.length < 2 ^ 31)
    {n pos : ℕ} (h : Reading paths source job n pos) (io : ReadIo) :
    Sent paths source z job n pos (job.read paths z source io) := by
  have hnext (entry : FileEntry) (hentry : job.files[asUsize job.fileNum]? = some entry) :
      n + 1 < 2 ^ 31 := by
    have hlt := (List.getElem?_eq_some_iff.mp hentry).1
    rw [h.num] at hlt
    omega
  generalize hread : job.read paths z source io = res
  cases took_of_read hread with
  | nothing hend =>
      rw [h.num] at hend
      exact .done _ hend ⟨h.num, .inl ⟨rfl, rfl⟩⟩ ⟨rfl, rfl, rfl⟩ rfl rfl
  | unopened entry hentry hopen =>
      have hn := hnext entry hentry
      have hfile : job.file = none := openSource_none hopen
      rw [h.num] at hentry
      exact .failed _ entry hentry (reading_next h hn rfl hfile) ⟨rfl, rfl, rfl⟩ rfl rfl
  | unread entry file hentry hopen =>
      have hn := hnext entry hentry
      rw [h.num] at hentry
      exact .failed _ entry hentry (reading_next h hn rfl rfl) ⟨rfl, rfl, rfl⟩ rfl rfl
  | ended entry file hentry hopen hfill =>
      have hn := hnext entry hentry
      rw [h.num] at hentry
      obtain ⟨hpos, hino⟩ := openSource_spec h hentry hopen
      have hsource : sourceOf paths source job.path entry =
        some (source.data file.ino).content := FileStore.read_of_inode hino
      rw [hpos] at hfill
      rw [h.num]
      exact .block _ entry _ _ hentry hsource rfl (asUsize_ofNat (by omega))
        (fillBuffer_nil_eq hfill)
        (.inl ⟨length_le_of_fillBuffer hfill, reading_next h hn rfl rfl⟩) ⟨rfl, rfl, rfl⟩
        (UInt64.add_zero _).symm (UInt64.add_zero _).symm
  | filled entry file buf hentry hopen hfill hne =>
      have hn := hnext entry hentry
      rw [h.num] at hentry
      obtain ⟨hpos, hino⟩ := openSource_spec h hentry hopen
      have hsource : sourceOf paths source job.path entry =
        some (source.data file.ino).content := FileStore.read_of_inode hino
      have hbuf := fillBuffer_nil_eq hfill
      rw [hpos] at hbuf
      have hle : buf.length ≤ bufSize := hbuf ▸ List.length_take_le ..
      have hbytes := encodeBuffer_bytes hz hle entry.name job.id (Int32.ofNat n)
      have hmore : pos < (source.data file.ino).content.length := by
        by_contra hend
        rw [List.drop_eq_nil_iff.mpr (Nat.le_of_not_lt hend), List.take_nil] at hbuf
        exact hne hbuf
      rw [h.num]
      refine .block _ entry _ _ hentry hsource rfl (asUsize_ofNat (by omega))
        (hbytes.trans hbuf)
        (.inr ⟨hmore, ⟨h.num, .inr ⟨entry, _, hentry, rfl, ?_, ?_, hino⟩⟩⟩)
        ⟨rfl, rfl, rfl⟩ ?_ rfl
      · rw [hbytes, ← hpos]
      · rw [hbytes]
        have hpositive := List.length_pos_of_ne_nil hne
        omega
      · rw [hbytes]

/-- Behind the last entry there is nothing to read. -/
theorem read_of_none {job : TransferJob} (h : job.files[asUsize job.fileNum]? = none)
    (io : ReadIo) : job.read paths z source io = (.ok none, { job with file := none }) := by
  unfold TransferJob.read
  dsimp only
  rw [h]

/-- A file that exists is opened unless the operating system fails. -/
theorem openSource_isSome {job : TransferJob} {entry : FileEntry}
    (hsource : (sourceOf paths source job.path entry).isSome) {io : ReadIo}
    (hopens : io.opens = true) : (job.openSource paths source entry io).isSome := by
  unfold TransferJob.openSource
  cases job.file with
  | some file => rfl
  | none =>
      rw [sourceOf, FileStore.read, FileStore.lookup, Option.isSome_map,
        Option.isSome_map] at hsource
      dsimp only
      rw [if_pos hopens, Option.isSome_map]
      exact hsource

/-- A `read` of an existing file fails only when the operating system does. -/
theorem read_ne_error {job : TransferJob}
    (hsource : ∀ entry ∈ job.files, (sourceOf paths source job.path entry).isSome)
    {io : ReadIo} (hopens : io.opens = true) (hreads : .err ∉ io.reads)
    (job' : TransferJob) : job.read paths z source io ≠ (.error .io, job') := by
  intro hread
  cases took_of_read hread with
  | unopened entry hentry hopen =>
      have hsome := openSource_isSome (hsource entry (List.mem_of_getElem? hentry)) hopens
      rw [hopen] at hsome
      cases hsome
  | unread entry file hentry hopen hfill =>
      have hsome : (TransferJob.fillBuffer (source.data file.ino).content file.pos []
          io.reads).isSome := fillBuffer_isSome file.pos [] hreads
      rw [hfill] at hsome
      cases hsome

end

end RustdeskServer.Transfer
