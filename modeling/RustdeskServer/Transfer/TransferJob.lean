import RustdeskServer.Codec.BytesCodec
import RustdeskServer.Framework.FileStore
import RustdeskServer.Framework.Path
import Mathlib.Data.UInt

/-!
# File transfer jobs (`fs.rs`, `compress.rs`)

A `TransferJob` is used at both ends: `read` cuts the entries of a list into
blocks, `write` puts blocks into files. Receiving goes to a temporary file
`<path>.download`, which `modifyTime` renames to its final path when a block of
another entry arrives (and once more at the end of the transfer).

What the operating system answers to the calls of one `write` or `read` is an
argument (`WriteIo`, `ReadIo`); how it resolves paths and what the `zstd`
library computes are parameters (`Paths`, `Zstd`). A `Disk` is the file store
together with the record of the operations asked of it.

`tokio`'s `File` has a buffer: `write_all` returns when the bytes are in it, and the
rename and the time stamp of `modify_time` come before the last write and `sync_all`
are through. The states here are those between the calls, once the file has what was
handed over. An error of the system may show in a later call than the one that wrote,
or never; `WriteIo.writes` is one that shows in the same call.
-/

namespace RustdeskServer.Transfer

open RustdeskServer.Codec RustdeskServer.Framework

/-! ## Data -/

structure FileEntry where
  name : List Char
  size : UInt64
  modifiedTime : UInt64
deriving DecidableEq

structure FileTransferBlock where
  id : Int32
  fileNum : Int32
  data : Bytes
  compressed : Bool
deriving DecidableEq

/-- An open file. `entry` is the entry it was opened for: the code has no such
field and nothing reads it, it is there for the results to speak about. -/
structure OpenFile where
  entry : ℕ
  ino : ℕ
  pos : ℕ
deriving DecidableEq

structure TransferJob where
  id : Int32
  path : PathBuf
  files : List FileEntry
  fileNum : Int32
  file : Option OpenFile
  totalSize : UInt64
  finishedSize : UInt64
  transfered : UInt64

/-- The path of an entry of a job at `path`. -/
def entryPath (path : PathBuf) (entry : FileEntry) : PathBuf :=
  if entry.name = [] then path else path.join entry.name

inductive TransferError where
  | bail (text : String)
  | io
deriving DecidableEq

/-- `n as usize`: the sign is extended. -/
def asUsize (n : Int32) : ℕ := n.toInt64.toUInt64.toNat

def getExt (name : List Char) : List Char :=
  if '.' ∈ name then (name.reverse.takeWhile (· ≠ '.')).reverse else []

def isCompressedFile (name : List Char) : Bool :=
  getExt name ∈ ["xz".toList, "gz".toList, "zip".toList, "7z".toList, "rar".toList,
    "bz2".toList, "tgz".toList, "png".toList, "jpg".toList]

/-! ## Compression -/

/-- The block interface of the `zstd` library; `none` is an error. -/
structure Zstd where
  compress : Bytes → Int → Option Bytes
  decompress : Bytes → ℕ → Option Bytes

/-- A compressor that only puts a header byte before the data. -/
def Zstd.framed : Zstd where
  compress data _ := some (0x28 :: data)
  decompress data room :=
    match data with
    | 0x28 :: rest => if rest.length ≤ room then some rest else none
    | _ => none

def compressLevel : Int := 3

/-- The size of the buffer `read` fills. -/
def bufSize : ℕ := 128 * 1024

def compress (z : Zstd) (data : Bytes) (level : Int) : Bytes :=
  (z.compress data level).getD []

/-- The room `decompress` allows for. -/
def capacity (data : Bytes) : ℕ :=
  let max := 1024 * 1024 * 64
  let min := 1024 * 1024
  let n := 30 * data.length
  let n := if n > max then max else n
  if n < min then min else n

def decompress (z : Zstd) (data : Bytes) : Bytes :=
  (z.decompress data (capacity data)).getD []

/-- The bytes a block stands for, as `write` takes them. -/
def FileTransferBlock.bytes (z : Zstd) (block : FileTransferBlock) : Bytes :=
  if block.compressed then decompress z block.data else block.data

/-! ## The file system -/

def download : List Char := ".download".toList

theorem download_suffix : PathBuf.Suffix download := ⟨by decide, by decide⟩

/-- How the operating system resolves paths: strings that lead to the same
place have one location. A file and its temporary form are two places. -/
structure Paths (Loc : Type*) where
  locate : PathBuf → Loc
  locate_download_ne : ∀ p, locate (p ++ download) ≠ locate p

/-- Paths without links: `.` and `..` are all there is to resolve. -/
def Paths.lexical : Paths (List Component) where
  locate p := resolve p.components
  locate_download_ne := PathBuf.resolve_suffix_ne download_suffix

/-- A file system that holds these files. -/
def filesAt (files : List (PathBuf × Bytes)) : FileStore (List Component) :=
  files.foldl (fun store file =>
    let (store, ino) := store.create (Paths.lexical.locate file.1) 0
    store.writeAt ino 0 file.2 0) .empty

/-- An operation asked of the file system, successful or not. -/
inductive FsOp where
  | rename (src dst : PathBuf)
  | setMtime (path : PathBuf) (time : Int)
  | createDirAll (dir : List Component)
  | create (path : PathBuf)
  | removeFile (path : PathBuf)
  | syncAll (file : OpenFile)
  | append (file : OpenFile) (bytes : Bytes)
deriving DecidableEq

structure Disk (Loc : Type*) where
  store : FileStore Loc
  log : List FsOp

/-- What the operating system answers during one call on a receiving job.
`write_all` succeeds (`none`) or reports an error after some bytes; `now` is the time the
files touched carry. -/
structure WriteIo where
  renames : Bool
  stamps : Bool
  removes : Bool
  syncs : Bool
  creates : Bool
  writes : Option ℕ
  now : Int

/-- Nothing fails. -/
def WriteIo.ok (now : Int) : WriteIo := ⟨true, true, true, true, true, none, now⟩

/-- One `File::read`: an error, or at least one byte and at most `n + 1`,
unless the file is at its end or the buffer is full. -/
inductive ReadOutcome where
  | err
  | upTo (n : ℕ)
deriving DecidableEq

/-- What the operating system answers during one `read` of a sending job: to
`File::open`, and to the reads in turn (as many bytes as fit from there on). -/
structure ReadIo where
  opens : Bool
  reads : List ReadOutcome

namespace Disk

variable {Loc : Type*} (d : Disk Loc)

def logged (op : FsOp) : Disk Loc := { d with log := d.log ++ [op] }

def setMtime (paths : Paths Loc) (path : PathBuf) (time : Int) (ok : Bool) : Disk Loc :=
  { store := if ok then d.store.setMtime (paths.locate path) time else d.store
    log := d.log ++ [.setMtime path time] }

/-- The result of `create_dir_all` is dropped, and directories are not files. -/
def createDirAll : Option (List Component) → Disk Loc
  | none => d
  | some dir => d.logged (.createDirAll dir)

def append (file : OpenFile) (bytes : Bytes) (now : Int) : Disk Loc :=
  { store := d.store.writeAt file.ino file.pos bytes now
    log := d.log ++ [.append file bytes] }

variable [DecidableEq Loc]

def rename (paths : Paths Loc) (src dst : PathBuf) (ok : Bool) : Disk Loc :=
  { store := if ok then d.store.rename (paths.locate src) (paths.locate dst) else d.store
    log := d.log ++ [.rename src dst] }

def removeFile (paths : Paths Loc) (path : PathBuf) (ok : Bool) : Disk Loc :=
  { store := if ok then d.store.remove (paths.locate path) else d.store
    log := d.log ++ [.removeFile path] }

end Disk

/-! ## The job -/

namespace TransferJob

/-- `entry.modified_time as i64` -/
def unixTime (time : UInt64) : Int := time.toInt64.toInt

def newWrite (id : Int32) (path : PathBuf) (files : List FileEntry) : TransferJob where
  id := id
  path := path
  files := files
  fileNum := 0
  file := none
  totalSize := (files.map FileEntry.size).sum
  finishedSize := 0
  transfered := 0

/-- `new_read`, given the list `get_recursive_files` made. -/
def newRead (id : Int32) (path : PathBuf) (files : List FileEntry) : TransferJob :=
  newWrite id path files

def join (job : TransferJob) (name : List Char) : PathBuf :=
  if name = [] then job.path else job.path.join name

section receiving

variable {Loc : Type*} [DecidableEq Loc] (paths : Paths Loc)

def modifyTime (job : TransferJob) (disk : Disk Loc) (io : WriteIo) : Disk Loc :=
  match job.files[asUsize job.fileNum]? with
  | none => disk
  | some entry =>
      let path := job.join entry.name
      let disk := disk.rename paths (path ++ download) path io.renames
      disk.setMtime paths path (unixTime entry.modifiedTime) io.stamps

def removeDownloadFile (job : TransferJob) (disk : Disk Loc) (io : WriteIo) : Disk Loc :=
  match job.files[asUsize job.fileNum]? with
  | none => disk
  | some entry => disk.removeFile paths (job.join entry.name ++ download) io.removes

/-- The part of `write` from `File::create` on. -/
def createDownload (job : TransferJob) (disk : Disk Loc) (entry : FileEntry) (io : WriteIo) :
    Except TransferError OpenFile × TransferJob × Disk Loc :=
  let path := job.join entry.name
  let disk := disk.createDirAll path.parent
  let path := path ++ download
  let disk := disk.logged (.create path)
  if io.creates then
    let (store, ino) := disk.store.create (paths.locate path) io.now
    let file := ⟨asUsize job.fileNum, ino, 0⟩
    (.ok file, { job with file := some file }, { disk with store := store })
  else (.error .io, job, disk)

/-- The part of `write` that moves to the entry of the block. -/
def switchTo (job : TransferJob) (disk : Disk Loc) (fileNum : Int32) (entry : FileEntry)
    (io : WriteIo) : Except TransferError OpenFile × TransferJob × Disk Loc :=
  let disk := job.modifyTime paths disk io
  match job.file with
  | none => { job with fileNum := fileNum }.createDownload paths disk entry io
  | some file =>
      let disk := disk.logged (.syncAll file)
      if io.syncs then { job with fileNum := fileNum }.createDownload paths disk entry io
      else (.error .io, job, disk)

/-- The file `write` appends to: the open one, or the block's entry's. -/
def openFor (job : TransferJob) (disk : Disk Loc) (fileNum : Int32) (entry : FileEntry)
    (io : WriteIo) : Except TransferError OpenFile × TransferJob × Disk Loc :=
  match job.file with
  | none => job.switchTo paths disk fileNum entry io
  | some file =>
      if asUsize fileNum ≠ asUsize job.fileNum then
        job.switchTo paths disk fileNum entry io
      else (.ok file, job, disk)

/-- The part of `write` that appends the block's bytes. -/
def appendBlock (job : TransferJob) (disk : Disk Loc) (file : OpenFile) (bytes : Bytes)
    (block : FileTransferBlock) (io : WriteIo) :
    Except TransferError Unit × TransferJob × Disk Loc :=
  match io.writes with
  | none =>
      (.ok (),
        { job with
          file := some { file with pos := file.pos + bytes.length }
          finishedSize := job.finishedSize + UInt64.ofNat bytes.length
          transfered := job.transfered + UInt64.ofNat block.data.length },
        disk.append file bytes io.now)
  | some n =>
      let bytes := bytes.take n
      (.error .io, { job with file := some { file with pos := file.pos + bytes.length } },
        disk.append file bytes io.now)

def write (z : Zstd) (job : TransferJob) (disk : Disk Loc) (block : FileTransferBlock)
    (io : WriteIo) : Except TransferError Unit × TransferJob × Disk Loc :=
  if block.id ≠ job.id then (.error (.bail "Wrong id"), job, disk)
  else
    match job.files[asUsize block.fileNum]? with
    | none => (.error (.bail "Wrong file number"), job, disk)
    | some entry =>
        match job.openFor paths disk block.fileNum entry io with
        | (.error err, job, disk) => (.error err, job, disk)
        | (.ok file, job, disk) => job.appendBlock disk file (block.bytes z) block io

end receiving

section sending

/-- The loop of `read`: fill the buffer until it is full or the file ends. -/
def fillBuffer (content : Bytes) (pos : ℕ) (buf : Bytes) : List ReadOutcome → Option Bytes
  | [] => some (buf ++ (content.drop pos).take (bufSize - buf.length))
  | .err :: _ => none
  | .upTo n :: reads =>
      let chunk := (content.drop pos).take (min (n + 1) (bufSize - buf.length))
      let buf := buf ++ chunk
      if chunk = [] ∨ buf.length = bufSize then some buf
      else fillBuffer content (pos + chunk.length) buf reads

/-- The choice `read` makes for a non-empty buffer: the data to send and
whether they are compressed. -/
def encodeBuffer (z : Zstd) (name : List Char) (buf : Bytes) : Bytes × Bool :=
  if isCompressedFile name then (buf, false)
  else
    let tmp := compress z buf compressLevel
    if tmp.length < buf.length then (tmp, true) else (buf, false)

variable {Loc : Type*} (paths : Paths Loc)

/-- The file `read` reads from: the one in use, or the entry's, opened now. -/
def openSource (job : TransferJob) (store : FileStore Loc) (entry : FileEntry) (io : ReadIo) :
    Option OpenFile :=
  match job.file with
  | some file => some file
  | none =>
      if io.opens then
        (store.inode (paths.locate (job.join entry.name))).map fun ino =>
          ⟨asUsize job.fileNum, ino, 0⟩
      else none

def read (z : Zstd) (store : FileStore Loc) (job : TransferJob) (io : ReadIo) :
    Except TransferError (Option FileTransferBlock) × TransferJob :=
  let fileNum := asUsize job.fileNum
  match job.files[fileNum]? with
  | none => (.ok none, { job with file := none })
  | some entry =>
      match job.openSource paths store entry io with
      | none => (.error .io, { job with fileNum := job.fileNum + 1 })
      | some file =>
          match fillBuffer (store.data file.ino).content file.pos [] io.reads with
          | none => (.error .io, { job with fileNum := job.fileNum + 1, file := none })
          | some [] =>
              (.ok (some ⟨job.id, Int32.ofNat fileNum, [], false⟩),
                { job with fileNum := job.fileNum + 1, file := none })
          | some buf =>
              let (data, compressed) := encodeBuffer z entry.name buf
              (.ok (some ⟨job.id, Int32.ofNat fileNum, data, compressed⟩),
                { job with
                  file := some { file with pos := file.pos + buf.length }
                  finishedSize := job.finishedSize + UInt64.ofNat buf.length
                  transfered := job.transfered + UInt64.ofNat data.length })

end sending

end TransferJob

/-- Jobs that differ in their position and counters only. -/
structure SameList (job job' : TransferJob) : Prop where
  id : job'.id = job.id
  path : job'.path = job.path
  files : job'.files = job.files

theorem SameList.refl (job : TransferJob) : SameList job job := ⟨rfl, rfl, rfl⟩

end RustdeskServer.Transfer
