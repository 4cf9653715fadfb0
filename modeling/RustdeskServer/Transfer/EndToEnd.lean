import RustdeskServer.Transfer.Pipe

/-!
# A transfer without failures delivers every file

`Stage s n pos` ties the receiver to the sender's position: inside entry `n` it
has the first `pos` bytes of it; between entries it has all of the one before,
still under its temporary name. `round_ok` shows that a round without failures
either ends the transfer or keeps the invariant and leaves less to send, and
`delivered` follows by induction on what is left.
-/

namespace RustdeskServer.Transfer

open RustdeskServer.Codec RustdeskServer.Framework

namespace Link

variable {Loc Loc' : Type*} (link : Link Loc Loc')

/-- The first `m` entries are in their places, and only the temporary place
`cur` may be in use. -/
def DoneBut (store : FileStore Loc') (m : ℕ) (cur : Loc') : Prop :=
  ∀ entry ∈ link.files.take m, store.read (link.final entry) = link.content entry ∧
    (link.temp entry ≠ cur → store.read (link.temp entry) = none)

/-- The first `m` entries are in their places and have no temporary files. -/
def Done (store : FileStore Loc') (m : ℕ) : Prop :=
  ∀ entry ∈ link.files.take m, store.read (link.final entry) = link.content entry ∧
    store.read (link.temp entry) = none

def size (entry : FileEntry) : ℕ := ((link.content entry).getD []).length

/-- How many bytes the first `n` entries have. -/
def sizeBefore (n : ℕ) : ℕ := ((link.files.take n).map link.size).sum

/-- What is left to send from offset `pos` of entry `n`, an end-of-file block
for each entry included. -/
def remaining (n pos : ℕ) : ℕ :=
  ((link.files.drop n).map fun entry => link.size entry + 1).sum - pos

inductive Stage (s : Pipe Loc') : ℕ → ℕ → Prop
  | idle : s.receiver.job.file = none → asUsize s.receiver.job.fileNum = 0 → Stage s 0 0
  | between (k : ℕ) (entry : FileEntry) (content : Bytes) : link.files[k]? = some entry →
      link.content entry = some content →
      Receiving link.dst s.receiver k entry content →
      link.DoneBut s.receiver.disk.store k (link.temp entry) → Stage s (k + 1) 0
  | inside (n pos : ℕ) (entry : FileEntry) (content : Bytes) : link.files[n]? = some entry →
      link.content entry = some content → 0 < pos → pos ≤ content.length →
      Receiving link.dst s.receiver n entry (content.take pos) →
      link.DoneBut s.receiver.disk.store n (link.temp entry) → Stage s n pos

/-- The two jobs have counted the same, and `total` bytes of content. -/
structure Agree (s : Pipe Loc') (total : ℕ) : Prop where
  finishedSize : s.sender.finishedSize = UInt64.ofNat total
  finishedSize_eq : s.receiver.job.finishedSize = s.sender.finishedSize
  transfered_eq : s.receiver.job.transfered = s.sender.transfered

structure Invariant (s : Pipe Loc') (n pos : ℕ) : Prop where
  linked : link.Linked s
  reading : Reading link.src link.source s.sender n pos
  stage : link.Stage s n pos
  agree : Agree s (link.sizeBefore n + pos)

variable {link}

/-! ## Commits -/

theorem mem_take_succ {k : ℕ} {entry e : FileEntry} (hentry : link.files[k]? = some entry)
    (h : e ∈ link.files.take (k + 1)) : e ∈ link.files.take k ∨ e = entry := by
  rw [List.take_add_one, hentry] at h
  exact (List.mem_append.mp h).imp_right List.mem_singleton.mp

variable [DecidableEq Loc']

/-- Committing a complete entry puts it in its place. -/
theorem done_of_commit (hclash : link.ClashFree) {s : Pipe Loc'} (hl : link.Linked s) {k : ℕ}
    {entry : FileEntry} {content : Bytes} (hcontent : link.content entry = some content)
    (hrec : Receiving link.dst s.receiver k entry content)
    (hdone : link.DoneBut s.receiver.disk.store k (link.temp entry)) (now : Int) :
    link.Done (s.receiver.job.modifyTime link.dst s.receiver.disk (.ok now)).store (k + 1) := by
  have hentry : link.files[k]? = some entry := hl.receiverFiles ▸ hrec.entry_eq
  have hmem : entry ∈ link.files := List.mem_of_getElem? hentry
  intro e he
  have hefiles : e ∈ link.files := List.mem_of_mem_take he
  have hearlier : e ≠ entry → e ∈ link.files.take k := (mem_take_succ hentry he).resolve_right
  rw [hl.read_commit hrec.num hentry, hl.read_commit hrec.num hentry, hl.read_temp hrec]
  constructor
  · split_ifs with hfinal htemp
    · rw [Option.some_or, hclash.same e hefiles entry hmem hfinal, hcontent]
    · exact absurd htemp (hclash.apart e hefiles entry hmem)
    · exact (hdone e (hearlier fun h => hfinal (by rw [h]))).1
  · split_ifs with hfinal htemp
    · exact absurd hfinal.symm (hclash.apart entry hmem e hefiles)
    · rfl
    · exact (hdone e (hearlier fun h => htemp (by rw [h]))).2 htemp

omit [DecidableEq Loc'] in
theorem Done.doneBut {store : FileStore Loc'} {m : ℕ} (h : link.Done store m) (cur : Loc') :
    link.DoneBut store m cur := fun e he => ⟨(h e he).1, fun _ => (h e he).2⟩

omit [DecidableEq Loc'] in
theorem DoneBut.congr (hclash : link.ClashFree) {store store' : FileStore Loc'} {m : ℕ}
    {entry : FileEntry} (hmem : entry ∈ link.files)
    (h : link.DoneBut store m (link.temp entry))
    (hread : ∀ l, l ≠ link.temp entry → store'.read l = store.read l) :
    link.DoneBut store' m (link.temp entry) := by
  intro e he
  have hefiles : e ∈ link.files := List.mem_of_mem_take he
  rw [hread _ (hclash.apart e hefiles entry hmem)]
  exact ⟨(h e he).1, fun hne => by rw [hread _ hne]; exact (h e he).2 hne⟩

/-! ## A round -/

/-- Where the receiver stands once a block was taken in. -/
theorem stage_taken (hclash : link.ClashFree) {s : Pipe Loc'} {block : FileTransferBlock}
    {now : Int} {n pos : ℕ} {entry : FileEntry} {content : Bytes} {store : FileStore Loc'}
    (hentry : link.files[n]? = some entry) (hcontent : link.content entry = some content)
    (hcut : link.Cut block n content pos)
    (htaken : link.Taken s block now n entry
      (content.take (pos + (block.bytes link.z).length)) store)
    (hdone : link.DoneBut store n (link.temp entry)) (sender : TransferJob) :
    (content.length ≤ pos → link.Stage
      ⟨sender, (s.receiver.write link.dst link.z block (.ok now)).2⟩ (n + 1) 0) ∧
    (pos < content.length → link.Stage
      ⟨sender, (s.receiver.write link.dst link.z block (.ok now)).2⟩ n
        (pos + (block.bytes link.z).length)) := by
  have hmem : entry ∈ link.files := List.mem_of_getElem? hentry
  have hbut := hdone.congr hclash hmem htaken.read
  have hlen := hcut.length_bytes
  have hbuf : 0 < bufSize := by decide
  constructor
  · intro hend
    exact .between n entry content hentry hcontent (htaken.all hend) hbut
  · intro hmore
    exact .inside n _ entry content hentry hcontent (by omega) (by omega)
      htaken.receiving hbut

omit [DecidableEq Loc'] in
theorem sizeBefore_succ {n : ℕ} {entry : FileEntry} (hentry : link.files[n]? = some entry) :
    link.sizeBefore (n + 1) = link.sizeBefore n + link.size entry := by
  unfold sizeBefore
  rw [List.take_add_one, hentry]
  simp

omit [DecidableEq Loc'] in
theorem remaining_eq {n : ℕ} {entry : FileEntry} (hentry : link.files[n]? = some entry)
    (pos : ℕ) :
    link.remaining n pos = link.size entry + 1 + link.remaining (n + 1) 0 - pos := by
  obtain ⟨hn, hget⟩ := List.getElem?_eq_some_iff.mp hentry
  unfold remaining
  rw [List.drop_eq_getElem_cons hn, hget, List.map_cons, List.sum_cons, Nat.sub_zero]

/-- A block of the entry the sender is at is taken in, after a commit where one
is due. -/
theorem Stage.taken (hclash : link.ClashFree) {s : Pipe Loc'} (hl : link.Linked s) {n pos : ℕ}
    (h : link.Stage s n pos) {block : FileTransferBlock} {entry : FileEntry} {content : Bytes}
    (hentry : link.files[n]? = some entry) (hcontent : link.content entry = some content)
    (hcut : link.Cut block n content pos) (now : Int) :
    pos ≤ content.length ∧ ∃ store, link.Taken s block now n entry
      (content.take (pos + (block.bytes link.z).length)) store ∧
        link.DoneBut store n (link.temp entry) := by
  cases h with
  | idle hfile hnum =>
      exact ⟨Nat.zero_le _, _, block_switches hl hentry hcut (.inl hfile) now,
        fun e he => nomatch he⟩
  | between k old _ hold hcold hrec hdone =>
      have hother : asUsize block.fileNum ≠ asUsize s.receiver.job.fileNum := by
        rw [hcut.num, hrec.num]
        omega
      exact ⟨Nat.zero_le _, _, block_switches hl hentry hcut (.inr hother) now,
        (done_of_commit hclash hl hcold hrec hdone now).doneBut _⟩
  | inside _ _ entry' content' hentry' hcontent' _ hpos hrec hdone =>
      obtain rfl : entry' = entry := Option.some.inj (hentry'.symm.trans hentry)
      obtain rfl : content' = content := Option.some.inj (hcontent'.symm.trans hcontent)
      exact ⟨hpos, _, block_continues hl hrec hcut now, hdone⟩

omit [DecidableEq Loc'] in
theorem Stage.at_end {s : Pipe Loc'} {n pos : ℕ} (h : link.Stage s n pos)
    (hend : link.files[n]? = none) : n = link.files.length ∧ pos = 0 := by
  have hn := List.getElem?_eq_none_iff.mp hend
  cases h with
  | idle => exact ⟨by omega, rfl⟩
  | between k entry content hentry =>
      have := (List.getElem?_eq_some_iff.mp hentry).1
      exact ⟨by omega, rfl⟩
  | inside _ _ entry content hentry =>
      rw [hend] at hentry
      cases hentry

theorem Agree.taken {s : Pipe Loc'} {total : ℕ} (h : Agree s total)
    {block : FileTransferBlock} {now : Int} {sender : TransferJob}
    (hcount : Counted s.receiver (s.receiver.write link.dst link.z block (.ok now)).2 link.z
      block)
    (hfin : sender.finishedSize =
      s.sender.finishedSize + UInt64.ofNat (block.bytes link.z).length)
    (htrans : sender.transfered = s.sender.transfered + UInt64.ofNat block.data.length) :
    Agree ⟨sender, (s.receiver.write link.dst link.z block (.ok now)).2⟩
      (total + (block.bytes link.z).length) where
  finishedSize := by rw [hfin, h.finishedSize, UInt64.ofNat_add]
  finishedSize_eq := by rw [hcount.finishedSize, hfin, h.finishedSize_eq]
  transfered_eq := by rw [hcount.transfered, htrans, h.transfered_eq]

/-- **A round without failures** ends the transfer or brings it forward. -/
theorem round_ok (hz : link.z.Lawful) (hlen : link.files.length < 2 ^ 31)
    (hsource : ∀ entry ∈ link.files, (link.content entry).isSome) (hclash : link.ClashFree)
    {s : Pipe Loc'} {n pos : ℕ} (h : link.Invariant s n pos) {round : Round} (hok : round.Ok) :
    (n = link.files.length ∧ pos = 0 ∧
      (s.sender.read link.src link.z link.source round.io).1 = .ok none) ∨
    ∃ block n' pos',
      (s.sender.read link.src link.z link.source round.io).1 = .ok (some block) ∧
      (s.receiver.write link.dst link.z block (.ok round.now)).1 = .ok () ∧
      link.Invariant (link.step s round) n' pos' ∧
      link.remaining n' pos' < link.remaining n pos := by
  have hl := h.linked
  obtain ⟨hlinked, hwent⟩ := round_went hz hlen hl h.reading round
  have hnoerr := read_ne_error (z := link.z)
    (by rw [hl.senderFiles, hl.senderPath]; exact hsource) hok.1 hok.2
  generalize link.step s round = s' at hlinked hwent
  cases hwent with
  | done sender hend hres =>
      obtain ⟨hn, hpos⟩ := h.stage.at_end hend
      exact .inl ⟨hn, hpos, hres⟩
  | failed sender entry hentry hres => exact (hnoerr _ (Prod.ext hres rfl)).elim
  | block sender entry content block hentry hcontent hres hcut hnext hfin htrans =>
      obtain ⟨hpos, store, htaken, hdone⟩ :=
        h.stage.taken hclash hl hentry hcontent hcut round.now
      obtain ⟨hatEnd, hinside⟩ := stage_taken hclash hentry hcontent hcut htaken hdone sender
      have hsize : link.size entry = content.length := by
        rw [size, hcontent, Option.getD_some]
      have hagree := h.agree.taken htaken.counted hfin htrans
      have hlength := hcut.length_bytes
      have hbuf : 0 < bufSize := by decide
      have hleft := remaining_eq hentry pos
      refine .inr ⟨block, ?_⟩
      rcases hnext with ⟨hend, hreading⟩ | ⟨hmore, hreading⟩
      · refine ⟨n + 1, 0, hres, htaken.ok, ⟨hlinked, hreading, hatEnd hend, ?_⟩, by omega⟩
        rw [show link.sizeBefore (n + 1) + 0 =
          link.sizeBefore n + pos + (block.bytes link.z).length by
            rw [sizeBefore_succ hentry]; omega]
        exact hagree
      · refine ⟨n, _, hres, htaken.ok, ⟨hlinked, hreading, hinside hmore, ?_⟩, ?_⟩
        · rw [← Nat.add_assoc]
          exact hagree
        · rw [remaining_eq hentry]
          omega

/-! ## The whole transfer -/

variable (link) in
/-- The transfer after so many rounds. -/
def after (store : FileStore Loc') (rounds : ℕ → Round) : ℕ → Pipe Loc'
  | 0 => link.start store
  | i + 1 => link.step (after store rounds i) (rounds i)

variable (link) in
/-- The round's block was sent and taken, and both jobs have counted it alike. -/
def Passed (s : Pipe Loc') (round : Round) : Prop :=
  ∃ block, (s.sender.read link.src link.z link.source round.io).1 = .ok (some block) ∧
    (s.receiver.write link.dst link.z block (.ok round.now)).1 = .ok () ∧
    (link.step s round).receiver.job.finishedSize = (link.step s round).sender.finishedSize ∧
    (link.step s round).receiver.job.transfered = (link.step s round).sender.transfered

omit [DecidableEq Loc'] in
theorem invariant_start (store : FileStore Loc') : link.Invariant (link.start store) 0 0 where
  linked := linked_start store
  reading := ⟨rfl, .inl ⟨rfl, rfl⟩⟩
  stage := .idle rfl rfl
  agree := ⟨rfl, rfl, rfl⟩

/-- Rounds without failures reach the end of the list, by induction on what is
left to send. -/
theorem reaches_end (hz : link.z.Lawful) (hlen : link.files.length < 2 ^ 31)
    (hsource : ∀ entry ∈ link.files, (link.content entry).isSome) (hclash : link.ClashFree)
    (store : FileStore Loc') (rounds : ℕ → Round) (hok : ∀ i, (rounds i).Ok) :
    ∀ left i n pos, link.Invariant (link.after store rounds i) n pos →
      link.remaining n pos ≤ left →
      ∃ count, (∀ j, i ≤ j → j < count → link.Passed (link.after store rounds j) (rounds j)) ∧
        ((link.after store rounds count).sender.read link.src link.z link.source
          (rounds count).io).1 = .ok none ∧
        link.Invariant (link.after store rounds count) link.files.length 0 := by
  intro left
  induction left with
  | zero =>
      intro i n pos hinv hleft
      rcases round_ok hz hlen hsource hclash hinv (hok i) with
        ⟨rfl, rfl, hdone⟩ | ⟨_, _, _, -, -, -, hless⟩
      · exact ⟨i, fun j hij hj => absurd hij (by omega), hdone, hinv⟩
      · omega
  | succ left ih =>
      intro i n pos hinv hleft
      rcases round_ok hz hlen hsource hclash hinv (hok i) with
        ⟨rfl, rfl, hdone⟩ | ⟨block, n', pos', hread, hwrite, hnext, hless⟩
      · exact ⟨i, fun j hij hj => absurd hij (by omega), hdone, hinv⟩
      · obtain ⟨count, hpassed, hdone, hfinal⟩ := ih (i + 1) n' pos' hnext (by omega)
        refine ⟨count, fun j hij hj => ?_, hdone, hfinal⟩
        rcases Nat.eq_or_lt_of_le hij with rfl | hlt
        · exact ⟨block, hread, hwrite, hnext.agree.finishedSize_eq, hnext.agree.transfered_eq⟩
        · exact hpassed j hlt hj

/-- At the end of the list, `modify_time` puts the last entry in its place. -/
theorem done_at_end (hclash : link.ClashFree) {s : Pipe Loc'}
    (h : link.Invariant s link.files.length 0) (now : Int) :
    link.Done (s.receiver.job.modifyTime link.dst s.receiver.disk (.ok now)).store
      link.files.length := by
  generalize hn : link.files.length = n at h
  have hstage := h.stage
  generalize (0 : ℕ) = pos at hstage
  cases hstage with
  | idle => exact fun e he => nomatch he
  | between k entry content hentry hcontent hrec hdone =>
      exact done_of_commit hclash h.linked hcontent hrec hdone now
  | inside _ _ entry content hentry =>
      rw [List.getElem?_eq_none (by omega)] at hentry
      cases hentry

/-- **End to end.** Whatever the read sizes and the receiver's files were, a
transfer without failures ends, each of its blocks is taken, the jobs count
alike, and after a last `modify_time` every entry's place holds the sender's
content and no temporary file is left. -/
theorem delivered (link : Link Loc Loc') (hz : link.z.Lawful)
    (hlen : link.files.length < 2 ^ 31)
    (hsource : ∀ entry ∈ link.files, (link.content entry).isSome) (hclash : link.ClashFree)
    (store : FileStore Loc') (rounds : ℕ → Round) (hok : ∀ i, (rounds i).Ok) (now : Int) :
    ∃ count, (∀ i < count, link.Passed (link.after store rounds i) (rounds i)) ∧
      ((link.after store rounds count).sender.read link.src link.z link.source
        (rounds count).io).1 = .ok none ∧
      (∀ entry ∈ link.files,
        ((link.after store rounds count).receiver.step link.dst link.z
          (.modifyTime (.ok now))).disk.store.read (link.final entry) = link.content entry ∧
        ((link.after store rounds count).receiver.step link.dst link.z
          (.modifyTime (.ok now))).disk.store.read (link.temp entry) = none) ∧
      (link.after store rounds count).sender.finishedSize =
        UInt64.ofNat (link.files.map link.size).sum ∧
      (link.after store rounds count).receiver.job.finishedSize =
        UInt64.ofNat (link.files.map link.size).sum := by
  obtain ⟨count, hpassed, hend, hinv⟩ := reaches_end hz hlen hsource hclash store rounds hok _ 0
    0 0 (invariant_start store) (Nat.le_refl _)
  have hdone := done_at_end hclash hinv now
  have htotal := hinv.agree.finishedSize
  rw [sizeBefore, List.take_length, Nat.add_zero] at htotal
  refine ⟨count, fun i hi => hpassed i (Nat.zero_le i) hi, hend, fun entry hmem => ?_, htotal,
    hinv.agree.finishedSize_eq.trans htotal⟩
  exact hdone entry (by rw [List.take_length]; exact hmem)

end Link

/-- Rounds whose reads are these, over and over. -/
def steadily (reads : List ReadOutcome) : ℕ → Round := fun _ => ⟨⟨true, reads⟩, 0⟩

theorem steadily_ok {reads : List ReadOutcome} (h : .err ∉ reads) (i : ℕ) :
    (steadily reads i).Ok := ⟨rfl, h⟩

/-- The files of `twoEntries`, read one byte at a time. -/
theorem delivered_two : twoEntries.ClashFree ∧
    ∃ count, ∀ entry ∈ twoEntries.files,
      ((twoEntries.after .empty (steadily [.upTo 0, .upTo 0]) count).receiver.step .lexical
        .framed (.modifyTime (.ok 0))).disk.store.read (twoEntries.final entry) =
          twoEntries.content entry := by
  have hclash : twoEntries.ClashFree := ⟨by decide, by decide⟩
  obtain ⟨count, -, -, hdone, -⟩ := Link.delivered twoEntries Zstd.framed_lawful (by decide)
    (by decide) hclash .empty (steadily [.upTo 0, .upTo 0]) (steadily_ok (by decide)) 0
  exact ⟨hclash, count, fun entry hmem => (hdone entry hmem).1⟩

/-- Two names for which the second entry's temporary file is the first entry's
final one. -/
def sameplace : Link (List Component) (List Component) :=
  plainLink [("./f.download".toList, [1]), ("f".toList, [2])]

/-- The names are distinct and neither is the other's with the suffix; the
transfer goes through without a failure and the first file is lost. -/
theorem distinct_names_collide :
    (∀ a ∈ sameplace.files, ∀ b ∈ sameplace.files, a ≠ b →
      a.name ≠ b.name ∧ a.name ≠ b.name ++ download) ∧
    (∀ i < 4, ((sameplace.after .empty (steadily []) i).sender.read .lexical .framed
      sameplace.source ⟨true, []⟩).1 ≠ .ok none) ∧
    ((sameplace.after .empty (steadily []) 4).sender.read .lexical .framed
      sameplace.source ⟨true, []⟩).1 = .ok none ∧
    ∃ entry ∈ sameplace.files, sameplace.content entry = some [1] ∧
      ((sameplace.after .empty (steadily []) 4).receiver.step .lexical .framed
        (.modifyTime (.ok 0))).disk.store.read (sameplace.final entry) = none := by
  refine ⟨by decide, by decide, by decide, ⟨"./f.download".toList, 0, 0⟩, ?_, ?_, ?_⟩
  · exact List.mem_cons_self
  · decide
  · decide

end RustdeskServer.Transfer
