import RustdeskServer.Framework.Words
import RustdeskServer.Transfer.Pipe

/-!
# Blocks and the compressor (`compress.rs`)

`compress` and `decompress` turn an error of the library into an empty vector,
and `read` and `write` take that vector for data. `read_bytes_iff` says which
blocks stand for the bytes they were read from, `write_decodes_iff` when `write`
accepts only what it could decode, and `decompress_compress_iff` for which data
the room that `decompress` allows for is enough.
-/

namespace RustdeskServer.Transfer

open RustdeskServer.Codec RustdeskServer.Framework

/-! ## The library -/

namespace Zstd

/-- Decompression inverts a compression that succeeded, and nothing comes out of
nothing. -/
structure Inverts (z : Zstd) : Prop where
  restores : ∀ data level out room, z.compress data level = some out →
    data.length ≤ room → z.decompress out room = some data
  empty : ∀ room out, z.decompress [] room = some out → out = []

/-- `original` is what the format says some data decode to; decompression finds it
when there is room for it, and fails otherwise. -/
structure Format (z : Zstd) (original : Bytes → Option Bytes) : Prop where
  compressed : ∀ data level out, z.compress data level = some out → original out = some data
  decompressed : ∀ data room out, z.decompress data room = some out ↔
    original data = some out ∧ out.length ≤ room

/-- Compression succeeds, and decompression inverts it when there is room, and
fails otherwise. -/
structure Exact (z : Zstd) : Prop where
  compresses : ∀ data level, (z.compress data level).isSome
  restores : ∀ data level out room, z.compress data level = some out →
    z.decompress out room = if data.length ≤ room then some data else none

/-- A compressor that is out of memory. -/
def failing : Zstd := { framed with compress := fun _ _ => none }

theorem failing_inverts : failing.Inverts where
  restores _ _ _ _ h := by cases h
  empty _ _ h := by cases h

/-- What `framed` puts behind its header byte. -/
def unframe : Bytes → Option Bytes
  | 0x28 :: rest => some rest
  | _ => none

theorem framed_decompress (data : Bytes) (room : ℕ) :
    framed.decompress data room =
      (unframe data).bind fun rest => if rest.length ≤ room then some rest else none := by
  unfold framed
  dsimp only
  split
  · rfl
  case h_2 hother =>
    have hnone : unframe data = none := by
      unfold unframe
      split
      · exact absurd rfl (hother _)
      · rfl
    rw [hnone, Option.bind_none]

theorem framed_format : framed.Format unframe where
  compressed data level out h := by
    obtain rfl := Option.some.inj h
    rfl
  decompressed data room out := by
    rw [framed_decompress, Option.bind_eq_some_iff]
    constructor
    · rintro ⟨rest, hrest, hout⟩
      split_ifs at hout with hroom
      obtain rfl := Option.some.inj hout
      exact ⟨hrest, hroom⟩
    · rintro ⟨hout, hroom⟩
      exact ⟨out, hout, if_pos hroom⟩

/-- A compressor that knows runs of zero bytes, of which it keeps the length. -/
def zeroRuns : Zstd where
  compress data _ :=
    if data = List.replicate data.length 0 ∧ data.length < 256 ^ 8 then
      some (0 :: ByteOrder.big.toBytes 8 data.length)
    else some (1 :: data)
  decompress data room :=
    match data with
    | [] => none
    | tag :: rest =>
        if tag = 0 then
          if ByteOrder.big.ofBytes rest ≤ room then
            some (List.replicate (ByteOrder.big.ofBytes rest) 0)
          else none
        else if rest.length ≤ room then some rest
        else none

theorem zeroRuns_exact : zeroRuns.Exact where
  compresses data level := by
    unfold zeroRuns
    dsimp only
    split <;> rfl
  restores data level out room h := by
    unfold zeroRuns at h ⊢
    dsimp only at h
    split_ifs at h with hzeros
    · obtain rfl := Option.some.inj h
      dsimp only
      rw [if_pos rfl, ByteOrder.ofBytes_toBytes _ hzeros.2, ← hzeros.1]
    · obtain rfl := Option.some.inj h
      dsimp only
      rw [if_neg (by decide)]

theorem zeroRuns_compress {n : ℕ} (level : Int) (h : n < 256 ^ 8) :
    zeroRuns.compress (List.replicate n 0) level = some (0 :: ByteOrder.big.toBytes 8 n) := by
  unfold zeroRuns
  dsimp only
  rw [List.length_replicate, if_pos ⟨rfl, h⟩]

end Zstd

/-! ## Reading -/

section
variable {Loc : Type*} {paths : Paths Loc} {z : Zstd} {source : FileStore Loc}

/-- The bytes of an open file that the next buffer has room for. -/
def OpenFile.chunk (source : FileStore Loc) (file : OpenFile) : Bytes :=
  ((source.data file.ino).content.drop file.pos).take bufSize

namespace TransferJob

/-- A block is made of a chunk: of an empty one as it is, otherwise as
`encodeBuffer` decides. -/
theorem read_block {job job' : TransferJob} {io : ReadIo} {block : FileTransferBlock}
    (h : job.read paths z source io = (.ok (some block), job')) :
    ∃ entry file, job.files[asUsize job.fileNum]? = some entry ∧
      job.openSource paths source entry io = some file ∧
      (file.chunk source = [] ∧ block.data = [] ∧ block.compressed = false ∨
        file.chunk source ≠ [] ∧
          (block.data, block.compressed) = encodeBuffer z entry.name (file.chunk source)) := by
  cases took_of_read h with
  | ended entry file hentry hopen hfill =>
      have hbuf : [] = file.chunk source := fillBuffer_eq hfill
      exact ⟨entry, file, hentry, hopen, .inl ⟨hbuf.symm, rfl, rfl⟩⟩
  | filled entry file buf hentry hopen hfill hne =>
      have hbuf : buf = file.chunk source := fillBuffer_eq hfill
      refine ⟨entry, file, hentry, hopen, .inr ?_⟩
      rw [← hbuf]
      exact ⟨hne, rfl⟩

end TransferJob

theorem OpenFile.length_chunk_le (source : FileStore Loc) (file : OpenFile) :
    (file.chunk source).length ≤ bufSize := List.length_take_le _ _

/-- A failed compression leaves a block that stands for nothing. -/
theorem decompress_nil (hz : z.Inverts) : decompress z [] = [] := by
  unfold decompress
  cases h : z.decompress [] (capacity []) with
  | none => rfl
  | some out => exact hz.empty _ out h

theorem compress_of_some {data out : Bytes} {level : Int} (h : z.compress data level = some out) :
    compress z data level = out := by
  rw [compress, h, Option.getD_some]

theorem decompress_compress_of_some (hz : z.Inverts) {data out : Bytes} {level : Int}
    (h : z.compress data level = some out) (hlen : data.length ≤ bufSize) :
    decompress z (compress z data level) = data := by
  have hroom : data.length ≤ capacity out := hlen.trans (bufSize_le_capacity out)
  rw [compress_of_some h, decompress, hz.restores data level out _ h hroom, Option.getD_some]

/-- The bytes of what `encodeBuffer` makes of a buffer. -/
theorem encodeBuffer_bytes_iff (hz : z.Inverts) {buf : Bytes} (hlen : buf.length ≤ bufSize)
    (hne : buf ≠ []) {name : List Char} {block : FileTransferBlock}
    (h : (block.data, block.compressed) = TransferJob.encodeBuffer z name buf) :
    block.bytes z = buf ↔
      isCompressedFile name = true ∨ (z.compress buf compressLevel).isSome = true := by
  unfold TransferJob.encodeBuffer at h
  unfold FileTransferBlock.bytes
  by_cases hext : isCompressedFile name = true
  · rw [if_pos hext] at h
    obtain ⟨hdata, hcompressed⟩ := Prod.mk.inj h
    rw [hcompressed, if_neg Bool.false_ne_true, hdata]
    exact iff_of_true rfl (Or.inl hext)
  · rw [if_neg hext] at h
    rw [or_iff_right hext]
    dsimp only at h
    cases hout : z.compress buf compressLevel with
    | some out =>
        refine iff_of_true ?_ rfl
        split_ifs at h with hsmall
        · obtain ⟨hdata, hcompressed⟩ := Prod.mk.inj h
          rw [hcompressed, if_pos rfl, hdata]
          exact decompress_compress_of_some hz hout hlen
        · obtain ⟨hdata, hcompressed⟩ := Prod.mk.inj h
          rw [hcompressed, if_neg Bool.false_ne_true, hdata]
    | none =>
        -- the empty vector is smaller than any buffer that was read
        have htmp : compress z buf compressLevel = [] := by rw [compress, hout, Option.getD_none]
        rw [htmp, List.length_nil, if_pos (List.length_pos_iff.mpr hne)] at h
        obtain ⟨hdata, hcompressed⟩ := Prod.mk.inj h
        rw [hcompressed, if_pos rfl, hdata, decompress_nil hz]
        exact iff_of_false (Ne.symm hne) Bool.false_ne_true

/-- **When a block carries the bytes that were read.** For every job, file and
compressor: a block stands for the chunk it was made of if and only if the chunk is
empty, or the entry's name is one that is sent as it is, or the compressor did not
fail on the chunk. -/
theorem read_bytes_iff (hz : z.Inverts) {job job' : TransferJob} {io : ReadIo}
    {block : FileTransferBlock} (h : job.read paths z source io = (.ok (some block), job')) :
    ∃ entry file, job.files[asUsize job.fileNum]? = some entry ∧
      job.openSource paths source entry io = some file ∧
      (block.bytes z = file.chunk source ↔
        file.chunk source = [] ∨ isCompressedFile entry.name = true ∨
          (z.compress (file.chunk source) compressLevel).isSome = true) := by
  obtain ⟨entry, file, hentry, hopen, hmade⟩ := TransferJob.read_block h
  refine ⟨entry, file, hentry, hopen, ?_⟩
  rcases hmade with ⟨hchunk, hdata, hcompressed⟩ | ⟨hchunk, hmade⟩
  · refine iff_of_true ?_ (Or.inl hchunk)
    rw [hchunk, FileTransferBlock.bytes, hcompressed, if_neg Bool.false_ne_true, hdata]
  · rw [or_iff_right hchunk]
    exact encodeBuffer_bytes_iff hz (file.length_chunk_le source) hchunk hmade

end

theorem Zstd.framed_inverts : Zstd.framed.Inverts where
  restores := Zstd.framed_lawful.restores
  empty _ _ h := by cases h

/-- A sender of the file `a`, which holds one byte. -/
def oneByte : TransferJob := .newRead 1 "s".toList [⟨"a".toList, 0, 0⟩]

def oneByteSource : FileStore (List Component) := filesAt [("s/a".toList, [7])]

theorem read_bytes_iff_one : Zstd.framed.Inverts ∧
    ∃ block job', oneByte.read .lexical .framed oneByteSource ⟨true, []⟩ =
        (.ok (some block), job') ∧
      ∃ entry file, oneByte.files[asUsize oneByte.fileNum]? = some entry ∧
        oneByte.openSource .lexical oneByteSource entry ⟨true, []⟩ = some file ∧
        (block.bytes .framed = file.chunk oneByteSource ↔
          file.chunk oneByteSource = [] ∨ isCompressedFile entry.name = true ∨
            (Zstd.framed.compress (file.chunk oneByteSource) compressLevel).isSome = true) := by
  have h : oneByte.read .lexical .framed oneByteSource ⟨true, []⟩ =
      (.ok (some ⟨1, 0, [7], false⟩),
        (oneByte.read .lexical .framed oneByteSource ⟨true, []⟩).2) := Prod.ext (by decide) rfl
  exact ⟨Zstd.framed_inverts, _, _, h, read_bytes_iff Zstd.framed_inverts h⟩

/-- The compressor fails on the byte that was read, which is counted, and the block
does not stand for it. -/
theorem failed_compression_sends_nothing : Zstd.failing.Inverts ∧
    oneByteSource.read (Paths.lexical.locate "s/a".toList) = some [7] ∧
    (oneByte.read .lexical .failing oneByteSource ⟨true, []⟩).1 =
      .ok (some ⟨1, 0, [], true⟩) ∧
    (oneByte.read .lexical .failing oneByteSource ⟨true, []⟩).2.finishedSize = 1 ∧
    FileTransferBlock.bytes .failing ⟨1, 0, [], true⟩ ≠ [7] :=
  ⟨Zstd.failing_inverts, by decide, by decide, by decide, by decide⟩

/-! ## Writing -/

section
variable {Loc : Type*} [DecidableEq Loc] {paths : Paths Loc} {z : Zstd}
  {original : Bytes → Option Bytes}

/-- The bytes that these operations append. -/
def appendedBy (ops : List FsOp) : Bytes :=
  ops.flatMap fun
    | .append _ bytes => bytes
    | _ => []

/-- The bytes appended on the way from one disk to another. -/
def Disk.appended (disk disk' : Disk Loc) : Bytes :=
  appendedBy (disk'.log.drop disk.log.length)

/-- What is asked of a `write`: a block that does not decode is an error, nothing is
appended and nothing counted; a block taken for good is appended as the original. -/
structure TransferJob.Decodes (paths : Paths Loc) (z : Zstd)
    (original : Bytes → Option Bytes) (job : TransferJob) (disk : Disk Loc)
    (block : FileTransferBlock) (io : WriteIo) : Prop where
  rejected : z.decompress block.data (capacity block.data) = none →
    (job.write paths z disk block io).1 ≠ .ok () ∧
      disk.appended (job.write paths z disk block io).2.2 = [] ∧
      (job.write paths z disk block io).2.1.finishedSize = job.finishedSize ∧
      (job.write paths z disk block io).2.1.transfered = job.transfered
  complete : (job.write paths z disk block io).1 = .ok () →
    ∃ bytes, original block.data = some bytes ∧
      disk.appended (job.write paths z disk block io).2.2 = bytes

/-- A call fails before `write` has a file to append to. -/
def TransferJob.OpenFails (job : TransferJob) (fileNum : Int32) (io : WriteIo) : Prop :=
  job.Moves fileNum ∧ (job.file ≠ none ∧ io.syncs = false ∨ io.creates = false)

/-- `write` fails before it looks at the data: the block is not for this job, or there is no
file to append to. -/
def TransferJob.Stopped (job : TransferJob) (block : FileTransferBlock) (io : WriteIo) : Prop :=
  (∀ entry, ¬ job.Accepts block entry) ∨ job.OpenFails block.fileNum io

/-- Nothing was appended and nothing counted. -/
structure Quiet (job : TransferJob) (disk : Disk Loc) (job' : TransferJob) (disk' : Disk Loc) :
    Prop where
  log : ∃ ops, disk'.log = disk.log ++ ops ∧ appendedBy ops = []
  finishedSize : job'.finishedSize = job.finishedSize
  transfered : job'.transfered = job.transfered

omit [DecidableEq Loc] in
theorem Disk.appended_of_log {disk disk' : Disk Loc} {ops : List FsOp}
    (h : disk'.log = disk.log ++ ops) : disk.appended disk' = appendedBy ops := by
  rw [Disk.appended, h, List.drop_left]

theorem appendedBy_append (ops ops' : List FsOp) :
    appendedBy (ops ++ ops') = appendedBy ops ++ appendedBy ops' := List.flatMap_append ..

omit [DecidableEq Loc] in
/-- Behind operations that append nothing, the bytes of one append are all there is. -/
theorem Disk.appended_append {disk disk' : Disk Loc} {ops : List FsOp}
    (hlog : disk'.log = disk.log ++ ops) (hops : appendedBy ops = []) (file : OpenFile)
    (bytes : Bytes) (now : Int) : disk.appended (disk'.append file bytes now) = bytes := by
  have happend : (disk'.append file bytes now).log =
      disk.log ++ (ops ++ [.append file bytes]) := by
    rw [← List.append_assoc, ← hlog]
    rfl
  rw [Disk.appended_of_log happend, appendedBy_append, hops, List.nil_append]
  exact List.append_nil bytes

theorem appendedBy_eq_nil {ops : List FsOp} (h : ∀ file bytes, .append file bytes ∉ ops) :
    appendedBy ops = [] := by
  refine List.flatMap_eq_nil_iff.mpr fun op hop => ?_
  cases op with
  | append file bytes => exact absurd hop (h file bytes)
  | _ => rfl

namespace TransferJob

theorem appendedBy_leaveOps (job : TransferJob) : appendedBy job.leaveOps = [] := by
  refine appendedBy_eq_nil fun file bytes hop => ?_
  unfold leaveOps modifyTimeOps at hop
  rcases List.mem_append.mp hop with hop | hop
  · split at hop <;> simp at hop
  · cases hfile : job.file <;> simp [hfile] at hop

theorem appendedBy_prepareOps (job : TransferJob) (entry : FileEntry) :
    appendedBy (job.prepareOps entry) = [] := by
  refine appendedBy_eq_nil fun file bytes hop => ?_
  unfold prepareOps at hop
  rcases List.mem_append.mp hop with hop | hop
  · cases hparent : (job.join entry.name).parent <;> simp [hparent] at hop
  · simp at hop

/-- **Opening appends nothing**, whether it succeeds or not. -/
theorem openFor_quiet (paths : Paths Loc) (job : TransferJob) (disk : Disk Loc)
    (fileNum : Int32) (entry : FileEntry) (io : WriteIo) :
    ∃ res job' disk', job.openFor paths disk fileNum entry io = (res, job', disk') ∧
      Quiet job disk job' disk' ∧
      ((∃ err, res = .error err) ∧ job.OpenFails fileNum io ∨
        (∃ file, res = .ok file) ∧ ¬ job.OpenFails fileNum io) := by
  rcases openFor_cases paths job disk fileNum entry io with
    ⟨file, hfile, hnum, ho⟩ | ⟨file, hfile, hnum, hsync, ho⟩ | ⟨hmoves, hsync, ho⟩
  · refine ⟨_, _, _, ho, ⟨⟨[], (List.append_nil _).symm, rfl⟩, rfl, rfl⟩,
      Or.inr ⟨⟨file, rfl⟩, ?_⟩⟩
    rintro ⟨hnone | hother, -⟩
    · rw [hfile] at hnone
      cases hnone
    · exact hother hnum
  · refine ⟨_, _, _, ho, ⟨⟨_, log_leave .., appendedBy_leaveOps job⟩, rfl, rfl⟩,
      Or.inl ⟨⟨.io, rfl⟩, Or.inr hnum, Or.inl ⟨?_, hsync⟩⟩⟩
    rw [hfile]
    exact Option.some_ne_none file
  · have hlog : ∃ ops, (prepare { job with fileNum := fileNum } (job.leave paths disk io)
        entry).log = disk.log ++ ops ∧ appendedBy ops = [] := by
      refine ⟨_, log_prepare_leave job disk entry io, ?_⟩
      rw [appendedBy_append, appendedBy_leaveOps, appendedBy_prepareOps, List.append_nil]
    cases hcreates : io.creates with
    | true =>
        rw [createDownload_ok _ _ _ hcreates] at ho
        refine ⟨_, _, _, ho, ⟨hlog, rfl, rfl⟩, Or.inr ⟨⟨_, rfl⟩, ?_⟩⟩
        rintro ⟨-, ⟨hsome, hfails⟩ | hnot⟩
        · rcases hsync with hnone | hsyncs
          · exact hsome hnone
          · rw [hsyncs] at hfails
            cases hfails
        · rw [hcreates] at hnot
          cases hnot
    | false =>
        rw [createDownload_error _ _ _ hcreates] at ho
        exact ⟨_, _, _, ho, ⟨hlog, rfl, rfl⟩,
          Or.inl ⟨⟨.io, rfl⟩, hmoves, Or.inr hcreates⟩⟩

/-- **What a `write` reports, appends and counts** when the file takes what is written. -/
theorem write_outcome (paths : Paths Loc) (z : Zstd) (job : TransferJob) (disk : Disk Loc)
    (block : FileTransferBlock) {io : WriteIo} (hwrites : io.writes = none) :
    job.Stopped block io ∧ (∃ err, (job.write paths z disk block io).1 = .error err) ∧
        disk.appended (job.write paths z disk block io).2.2 = [] ∧
        (job.write paths z disk block io).2.1.finishedSize = job.finishedSize ∧
        (job.write paths z disk block io).2.1.transfered = job.transfered ∨
      ¬ job.Stopped block io ∧ (job.write paths z disk block io).1 = .ok () ∧
        disk.appended (job.write paths z disk block io).2.2 = block.bytes z := by
  by_cases hacc : ∃ entry, job.Accepts block entry
  · obtain ⟨entry, hentry⟩ := hacc
    obtain ⟨res, job', disk', ho, hquiet, hres⟩ :=
      openFor_quiet paths job disk block.fileNum entry io
    obtain ⟨ops, hlog, hops⟩ := hquiet.log
    rcases hres with ⟨⟨err, rfl⟩, hfails⟩ | ⟨⟨file, rfl⟩, hopens⟩
    · rw [write_error hentry ho]
      refine Or.inl ⟨Or.inr hfails, ⟨err, rfl⟩, ?_, hquiet.finishedSize, hquiet.transfered⟩
      rw [Disk.appended_of_log hlog, hops]
    · rw [write_ok hentry ho, appendBlock, hwrites]
      refine Or.inr ⟨?_, rfl, Disk.appended_append hlog hops file _ io.now⟩
      rintro (hnone | hfails)
      · exact hnone entry hentry
      · exact hopens hfails
  · have hnone : ∀ entry, ¬ job.Accepts block entry := not_exists.mp hacc
    obtain ⟨err, hrefused⟩ := write_not_accepted paths z hnone disk io
    rw [hrefused]
    refine Or.inl ⟨Or.inl hnone, ⟨err, rfl⟩, ?_, rfl, rfl⟩
    rw [Disk.appended_of_log (List.append_nil disk.log).symm]
    rfl

end TransferJob

/-- **When `write` takes only what it can decode.** For every job, disk and
compressed block, and a file that takes what is written: a block that does not decode
is rejected, with nothing appended or counted, and a block that is taken is appended as
the original, if and only if the data decode within the room allowed for them or
`write` fails before it comes to them. -/
theorem write_decodes_iff (hz : z.Format original) (job : TransferJob) (disk : Disk Loc)
    {block : FileTransferBlock} (hcompressed : block.compressed = true) {io : WriteIo}
    (hwrites : io.writes = none) :
    job.Decodes paths z original disk block io ↔
      (∃ bytes, original block.data = some bytes ∧ bytes.length ≤ capacity block.data) ∨
        job.Stopped block io := by
  have hbytes : block.bytes z = (z.decompress block.data (capacity block.data)).getD [] := by
    rw [FileTransferBlock.bytes, if_pos hcompressed, decompress]
  cases hdecode : z.decompress block.data (capacity block.data) with
  | some bytes =>
      obtain ⟨horiginal, hroom⟩ := (hz.decompressed ..).mp hdecode
      refine iff_of_true ⟨fun h => ?_, fun hok => ⟨bytes, horiginal, ?_⟩⟩
        (Or.inl ⟨bytes, horiginal, hroom⟩)
      · rw [hdecode] at h
        cases h
      · rcases TransferJob.write_outcome paths z job disk block hwrites with
          ⟨-, ⟨err, herr⟩, -⟩ | ⟨-, -, happended⟩
        · rw [herr] at hok
          cases hok
        · rw [happended, hbytes, hdecode, Option.getD_some]
  | none =>
      have hnot : ¬ ∃ bytes, original block.data = some bytes ∧
          bytes.length ≤ capacity block.data := by
        rintro ⟨bytes, hroom⟩
        rw [(hz.decompressed ..).mpr hroom] at hdecode
        cases hdecode
      rw [or_iff_right hnot]
      rcases TransferJob.write_outcome paths z job disk block hwrites with
        ⟨hstopped, ⟨err, herr⟩, hnothing⟩ | ⟨hopen, hok, -⟩
      · refine iff_of_true ⟨fun _ => ⟨?_, hnothing⟩, fun hok => ?_⟩ hstopped
        · rw [herr]
          intro hok
          cases hok
        · rw [herr] at hok
          cases hok
      · exact iff_of_false (fun h => (h.rejected hdecode).1 hok) hopen

end

/-- A receiver of the file `a`. -/
def takesOne : TransferJob := .newWrite 1 "d".toList [⟨"a".toList, 0, 0⟩]

def noFiles : Disk (List Component) := ⟨.empty, []⟩

/-- A block for it that is one byte behind a header. -/
def sevenBlock : FileTransferBlock := ⟨1, 0, [0x28, 7], true⟩

theorem write_decodes_iff_one : Zstd.framed.Format Zstd.unframe ∧
    (takesOne.Decodes .lexical .framed Zstd.unframe noFiles sevenBlock (.ok 0) ↔
      (∃ bytes, Zstd.unframe sevenBlock.data = some bytes ∧
          bytes.length ≤ capacity sevenBlock.data) ∨
        takesOne.Stopped sevenBlock (.ok 0)) := by
  have hcompressed : sevenBlock.compressed = true := rfl
  have hwrites : (WriteIo.ok 0).writes = none := rfl
  exact ⟨Zstd.framed_format,
    write_decodes_iff Zstd.framed_format takesOne noFiles hcompressed hwrites⟩

/-- A block that is not compressed data is taken for an empty one. -/
theorem corrupt_block_accepted :
    Zstd.framed.decompress [7] (capacity [7]) = none ∧
      (takesOne.write .lexical .framed noFiles ⟨1, 0, [7], true⟩ (.ok 0)).1 = .ok () ∧
      (takesOne.write .lexical .framed noFiles ⟨1, 0, [7], true⟩ (.ok 0)).2.1.transfered = 1 ∧
      ¬ takesOne.Decodes .lexical .framed Zstd.unframe noFiles ⟨1, 0, [7], true⟩ (.ok 0) := by
  have hdecode : Zstd.framed.decompress [7] (capacity [7]) = none := by decide
  have hok : (takesOne.write .lexical .framed noFiles ⟨1, 0, [7], true⟩ (.ok 0)).1 = .ok () := by
    decide
  exact ⟨hdecode, hok, by decide, fun h => (h.rejected hdecode).1 hok⟩

/-! ## The room that is allowed for -/

/-- Thirty times the data, but not less than one nor more than 64 times 2^20 bytes. -/
theorem capacity_eq (data : Bytes) :
    capacity data = max (2 ^ 20) (min (2 ^ 26) (30 * data.length)) := by
  unfold capacity
  dsimp only
  split_ifs <;> omega

/-- **What comes back.** For every compressor, data and level: what was compressed is
decompressed to the original if and only if the original fits in the room that is
allowed for, and otherwise to nothing. -/
theorem decompress_compress_iff {z : Zstd} (hz : z.Exact) (data : Bytes) (level : Int) :
    let room := max (2 ^ 20) (min (2 ^ 26) (30 * (compress z data level).length))
    (decompress z (compress z data level) = data ↔ data.length ≤ room) ∧
      decompress z (compress z data level) = if data.length ≤ room then data else [] := by
  dsimp only
  rw [← capacity_eq]
  obtain ⟨out, hout⟩ := Option.isSome_iff_exists.mp (hz.compresses data level)
  rw [compress_of_some hout, decompress, hz.restores data level out _ hout]
  by_cases hroom : data.length ≤ capacity out
  · rw [if_pos hroom, if_pos hroom]
    exact ⟨iff_of_true rfl hroom, rfl⟩
  · rw [if_neg hroom, if_neg hroom]
    refine ⟨iff_of_false (fun hnil => ?_) hroom, rfl⟩
    rw [← hnil] at hroom
    exact hroom (Nat.zero_le _)

theorem decompress_compress_iff_two : Zstd.zeroRuns.Exact ∧
    let room := max (2 ^ 20) (min (2 ^ 26) (30 * (compress .zeroRuns [0, 0] 3).length))
    (decompress .zeroRuns (compress .zeroRuns [0, 0] 3) = [0, 0] ↔ [0, 0].length ≤ room) ∧
      decompress .zeroRuns (compress .zeroRuns [0, 0] 3) =
        if [0, 0].length ≤ room then [0, 0] else [] :=
  ⟨Zstd.zeroRuns_exact, decompress_compress_iff Zstd.zeroRuns_exact [0, 0] 3⟩

/-- A run of 2^20 + 1 zero bytes, which is compressed to nine bytes, is lost. -/
theorem long_run_lost : Zstd.zeroRuns.Exact ∧
    decompress .zeroRuns (compress .zeroRuns (List.replicate (2 ^ 20 + 1) 0) 3) ≠
      List.replicate (2 ^ 20 + 1) 0 := by
  refine ⟨Zstd.zeroRuns_exact, ?_⟩
  have hout := Zstd.zeroRuns_compress (n := 2 ^ 20 + 1) 3 (by norm_num)
  have hroom : capacity (0 :: ByteOrder.big.toBytes 8 (2 ^ 20 + 1)) = 2 ^ 20 := by
    rw [capacity_eq, List.length_cons, ByteOrder.length_toBytes]
    norm_num
  rw [compress_of_some hout, decompress, Zstd.zeroRuns_exact.restores _ _ _ _ hout, hroom,
    List.length_replicate, if_neg (by norm_num), Option.getD_none]
  intro hnil
  have hlength := congrArg List.length hnil
  rw [List.length_nil, List.length_replicate] at hlength
  omega

end RustdeskServer.Transfer
