import RustdeskServer.Transfer.Delivery

/-!
# A sending and a receiving job, block by block

A `Link` fixes what does not change during a transfer: the two file systems'
path resolution, the sender's files, the compressor and the list both jobs work
on. One round is a `read` on the sending job; the block it returns, if it does,
goes to `write` on the receiving job, whose own input and output succeed.

`Linked` is what both jobs keep agreeing on. `ClashFree` says that no entry's
place at the receiver is an entry's temporary place, and that entries with one
place have one content. `block_continues` and `block_switches` say what the
arrival of a block means for the entry being received.
-/

namespace RustdeskServer.Transfer

open RustdeskServer.Codec RustdeskServer.Framework

structure Link (Loc Loc' : Type*) where
  src : Paths Loc
  source : FileStore Loc
  dst : Paths Loc'
  z : Zstd
  id : Int32
  sourceDir : PathBuf
  dest : PathBuf
  files : List FileEntry

structure Pipe (Loc' : Type*) where
  sender : TransferJob
  receiver : Receiver Loc'

/-- What the sender's operating system answers during a round, and the time at
the receiver. -/
structure Round where
  io : ReadIo
  now : Int

/-- No call of the round fails at the sender. -/
def Round.Ok (round : Round) : Prop := round.io.opens = true ∧ .err ∉ round.io.reads

namespace Link

variable {Loc Loc' : Type*} (link : Link Loc Loc')

/-- What an entry's file holds at the sender. -/
def content (entry : FileEntry) : Option Bytes :=
  sourceOf link.src link.source link.sourceDir entry

def final (entry : FileEntry) : Loc' := finalLoc link.dst link.dest entry

def temp (entry : FileEntry) : Loc' := tempLoc link.dst link.dest entry

structure ClashFree : Prop where
  apart : ∀ a ∈ link.files, ∀ b ∈ link.files, link.final a ≠ link.temp b
  same : ∀ a ∈ link.files, ∀ b ∈ link.files, link.final a = link.final b →
    link.content a = link.content b

def start (store : FileStore Loc') : Pipe Loc' :=
  ⟨.newRead link.id link.sourceDir link.files, .start link.id link.dest link.files store⟩

def step [DecidableEq Loc'] (s : Pipe Loc') (round : Round) : Pipe Loc' :=
  match s.sender.read link.src link.z link.source round.io with
  | (.ok (some block), sender) =>
      ⟨sender, (s.receiver.write link.dst link.z block (.ok round.now)).2⟩
  | (_, sender) => { s with sender := sender }

structure Linked (s : Pipe Loc') : Prop where
  senderId : s.sender.id = link.id
  senderPath : s.sender.path = link.sourceDir
  senderFiles : s.sender.files = link.files
  receiverId : s.receiver.job.id = link.id
  receiverPath : s.receiver.job.path = link.dest
  receiverFiles : s.receiver.job.files = link.files

variable {link}

theorem linked_start (store : FileStore Loc') : link.Linked (link.start store) :=
  ⟨rfl, rfl, rfl, rfl, rfl, rfl⟩

theorem Linked.of_same {s s' : Pipe Loc'} (h : link.Linked s)
    (hsender : SameList s.sender s'.sender)
    (hreceiver : SameList s.receiver.job s'.receiver.job) : link.Linked s' :=
  ⟨hsender.id.trans h.senderId, hsender.path.trans h.senderPath,
    hsender.files.trans h.senderFiles, hreceiver.id.trans h.receiverId,
    hreceiver.path.trans h.receiverPath, hreceiver.files.trans h.receiverFiles⟩

theorem Linked.content_eq {s : Pipe Loc'} (hl : link.Linked s) {entry : FileEntry} {ino : ℕ}
    (hino : link.source.inode (link.src.locate (s.sender.join entry.name)) = some ino) :
    link.content entry = some (link.source.data ino).content := by
  have hread := FileStore.read_of_inode hino
  rw [← hread, content, sourceOf, ← hl.senderPath]
  rfl

/-! ## The arrival of a block -/

theorem take_add_chunk (content : Bytes) (pos room : ℕ) :
    content.take pos ++ (content.drop pos).take room =
      content.take (pos + ((content.drop pos).take room).length) := by
  rw [List.take_add, List.length_take]
  congr 1
  rcases Nat.le_total room (content.drop pos).length with h | h
  · rw [Nat.min_eq_left h]
  · rw [Nat.min_eq_right h, List.take_length, List.take_of_length_le h]

variable [DecidableEq Loc']

/-- The receiver took the block in and now has `got` of entry `n`; apart from
that entry's temporary place, its files are those of `store`. -/
structure Taken (link : Link Loc Loc') (s : Pipe Loc') (block : FileTransferBlock) (now : Int)
    (n : ℕ) (entry : FileEntry) (got : Bytes) (store : FileStore Loc') : Prop where
  ok : (s.receiver.write link.dst link.z block (.ok now)).1 = .ok ()
  counted : Counted s.receiver (s.receiver.write link.dst link.z block (.ok now)).2 link.z block
  receiving : Receiving link.dst (s.receiver.write link.dst link.z block (.ok now)).2 n entry got
  read : ∀ l, l ≠ link.temp entry →
    (s.receiver.write link.dst link.z block (.ok now)).2.disk.store.read l = store.read l

/-- A block of entry `n` at offset `pos`, as `read` makes them. -/
structure Cut (link : Link Loc Loc') (block : FileTransferBlock) (n : ℕ) (content : Bytes)
    (pos : ℕ) : Prop where
  id : block.id = link.id
  num : asUsize block.fileNum = n
  bytes : block.bytes link.z = (content.drop pos).take bufSize

omit [DecidableEq Loc'] in
theorem Cut.length_bytes {block : FileTransferBlock} {n pos : ℕ} {content : Bytes}
    (hcut : link.Cut block n content pos) :
    (block.bytes link.z).length = min bufSize (content.length - pos) := by
  rw [hcut.bytes, List.length_take, List.length_drop]

/-- A block from the end of the file completes the entry. -/
theorem Taken.all {s : Pipe Loc'} {block : FileTransferBlock} {now : Int} {n pos : ℕ}
    {entry : FileEntry} {content : Bytes} {store : FileStore Loc'}
    (h : link.Taken s block now n entry
      (content.take (pos + (block.bytes link.z).length)) store)
    (hend : content.length ≤ pos) :
    Receiving link.dst (s.receiver.write link.dst link.z block (.ok now)).2 n entry
      content := by
  have hrec := h.receiving
  rwa [List.take_of_length_le (by omega)] at hrec

theorem block_continues {s : Pipe Loc'} (hl : link.Linked s) {n pos : ℕ} {entry : FileEntry}
    {content : Bytes} (h : Receiving link.dst s.receiver n entry (content.take pos))
    {block : FileTransferBlock} (hcut : link.Cut block n content pos) (now : Int) :
    link.Taken s block now n entry (content.take (pos + (block.bytes link.z).length))
      s.receiver.disk.store := by
  obtain ⟨hres, hcount, hnext, hread⟩ :=
    write_continues h (hcut.id.trans hl.receiverId.symm) hcut.num now (z := link.z)
  refine ⟨hres, hcount, ?_, fun l hne => hread l (by rw [hl.receiverPath]; exact hne)⟩
  rw [hcut.bytes, ← take_add_chunk, ← hcut.bytes]
  exact hnext

theorem block_switches {s : Pipe Loc'} (hl : link.Linked s) {n : ℕ} {entry : FileEntry}
    {content : Bytes} (hentry : link.files[n]? = some entry) {block : FileTransferBlock}
    (hcut : link.Cut block n content 0) (hmoves : s.receiver.job.Moves block.fileNum)
    (now : Int) :
    link.Taken s block now n entry (content.take (0 + (block.bytes link.z).length))
      (s.receiver.job.modifyTime link.dst s.receiver.disk (.ok now)).store := by
  obtain ⟨hres, hcount, hnext, hread⟩ :=
    write_switches link.dst (hcut.id.trans hl.receiverId.symm) hcut.num
      (hl.receiverFiles ▸ hentry) hmoves now (z := link.z)
  refine ⟨hres, hcount, ?_, fun l hne => hread l (by rw [hl.receiverPath]; exact hne)⟩
  rw [hcut.bytes, ← take_add_chunk, ← hcut.bytes, List.take_zero, List.nil_append]
  exact hnext

/-! ## A commit -/

omit [DecidableEq Loc'] in
theorem Linked.read_temp {s : Pipe Loc'} (hl : link.Linked s) {k : ℕ} {entry : FileEntry}
    {got : Bytes} (h : Receiving link.dst s.receiver k entry got) :
    s.receiver.disk.store.read (link.temp entry) = some got := by
  have := h.read_temp
  rwa [hl.receiverPath] at this

theorem Linked.read_commit {s : Pipe Loc'} (hl : link.Linked s) {k : ℕ} {entry : FileEntry}
    (hnum : asUsize s.receiver.job.fileNum = k) (hentry : link.files[k]? = some entry)
    (now : Int) (l : Loc') :
    (s.receiver.job.modifyTime link.dst s.receiver.disk (.ok now)).store.read l =
      if l = link.final entry then
        (s.receiver.disk.store.read (link.temp entry)).or (s.receiver.disk.store.read l)
      else if l = link.temp entry then none
      else s.receiver.disk.store.read l := by
  have := read_modifyTime link.dst hnum (hl.receiverFiles ▸ hentry)
    s.receiver.disk now l
  rwa [hl.receiverPath] at this

/-! ## One round -/

theorem step_block {s : Pipe Loc'} {round : Round} {block : FileTransferBlock}
    {sender : TransferJob}
    (h : s.sender.read link.src link.z link.source round.io = (.ok (some block), sender)) :
    link.step s round =
      ⟨sender, (s.receiver.write link.dst link.z block (.ok round.now)).2⟩ := by
  unfold step
  rw [h]

theorem step_quiet {s : Pipe Loc'} {round : Round} {sender : TransferJob}
    {res : Except TransferError (Option FileTransferBlock)}
    (h : s.sender.read link.src link.z link.source round.io = (res, sender))
    (hres : ∀ block, res ≠ .ok (some block)) :
    link.step s round = { s with sender := sender } := by
  unfold step
  rw [h]
  cases res with
  | error err => rfl
  | ok block =>
      cases block with
      | none => rfl
      | some block => exact absurd rfl (hres block)

/-- What a round can do with the sender at offset `pos` of entry `n`: end the
list, fail and go on with the next entry, or bring a block across. -/
inductive Went (link : Link Loc Loc') (s : Pipe Loc') (n pos : ℕ) (round : Round) :
    Pipe Loc' → Prop
  | done (sender : TransferJob) : link.files[n]? = none →
      (s.sender.read link.src link.z link.source round.io).1 = .ok none →
      Reading link.src link.source sender n 0 → Went link s n pos round ⟨sender, s.receiver⟩
  | failed (sender : TransferJob) (entry : FileEntry) : link.files[n]? = some entry →
      (s.sender.read link.src link.z link.source round.io).1 = .error .io →
      Reading link.src link.source sender (n + 1) 0 →
      Went link s n pos round ⟨sender, s.receiver⟩
  | block (sender : TransferJob) (entry : FileEntry) (content : Bytes)
      (block : FileTransferBlock) : link.files[n]? = some entry →
      link.content entry = some content →
      (s.sender.read link.src link.z link.source round.io).1 = .ok (some block) →
      link.Cut block n content pos →
      (content.length ≤ pos ∧ Reading link.src link.source sender (n + 1) 0 ∨
        pos < content.length ∧
          Reading link.src link.source sender n (pos + (block.bytes link.z).length)) →
      sender.finishedSize = s.sender.finishedSize + UInt64.ofNat (block.bytes link.z).length →
      sender.transfered = s.sender.transfered + UInt64.ofNat block.data.length →
      Went link s n pos round
        ⟨sender, (s.receiver.write link.dst link.z block (.ok round.now)).2⟩

/-- **What a round does.** The two jobs stay linked, and the round goes one of
these ways. -/
theorem round_went (hz : link.z.Lawful) (hlen : link.files.length < 2 ^ 31) {s : Pipe Loc'}
    (hl : link.Linked s) {n pos : ℕ} (h : Reading link.src link.source s.sender n pos)
    (round : Round) :
    link.Linked (link.step s round) ∧ link.Went s n pos round (link.step s round) := by
  have hsent := read_sent hz (by rw [hl.senderFiles]; exact hlen) h round.io
  generalize hread : s.sender.read link.src link.z link.source round.io = r at hsent
  have hres := congrArg Prod.fst hread
  cases hsent with
  | done sender hend hreading hsame =>
      rw [hl.senderFiles] at hend
      rw [step_quiet hread fun block h => nomatch h]
      exact ⟨hl.of_same hsame (.refl _), .done sender hend hres hreading⟩
  | failed sender entry hentry hreading hsame =>
      rw [hl.senderFiles] at hentry
      rw [step_quiet hread fun block h => nomatch h]
      exact ⟨hl.of_same hsame (.refl _), .failed sender entry hentry hres hreading⟩
  | block sender entry content block hentry hcontent hid hnum hbytes hnext hsame hfin htrans =>
      rw [hl.senderFiles] at hentry
      rw [hl.senderPath] at hcontent
      have hcut : link.Cut block n content pos := ⟨hid.trans hl.senderId, hnum, hbytes⟩
      rw [step_block hread]
      refine ⟨hl.of_same hsame (TransferJob.wrote_same (TransferJob.write_wrote link.z ..)), ?_⟩
      exact .block sender entry content block hentry hcontent hres hcut hnext hfin htrans

end Link

/-- Entries of these names, from the directory `s` to the directory `d`. -/
def plainLink (files : List (List Char × Bytes)) : Link (List Component) (List Component) where
  src := .lexical
  source := filesAt (files.map fun file => (PathBuf.join "s".toList file.1, file.2))
  dst := .lexical
  z := .framed
  id := 1
  sourceDir := "s".toList
  dest := "d".toList
  files := files.map fun file => ⟨file.1, 0, 0⟩

/-- A file of two bytes and an empty one. -/
def twoEntries : Link (List Component) (List Component) :=
  plainLink [("a".toList, [1, 2]), ("b".toList, [])]

end RustdeskServer.Transfer
