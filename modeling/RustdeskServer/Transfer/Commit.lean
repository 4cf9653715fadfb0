import RustdeskServer.Framework.Runs
import RustdeskServer.Transfer.Pipe

/-!
# What a failing sender lets the receiver commit

A `read` that fails in the middle of an entry drops the rest of it and goes on
with the next entry; nothing tells the receiver. Its temporary file then holds
the first part of the entry (`Phase.torn`), and the next block that arrives
commits it. `committed_iff` is the exact condition: from an empty destination
every place holds nothing or the whole content throughout a run, if and only if
no block comes after a failure that cut an entry short.
-/

namespace RustdeskServer.Transfer

open RustdeskServer.Codec RustdeskServer.Framework TransferJob

namespace Link

variable {Loc Loc' : Type*} (link : Link Loc Loc')

/-- No place holds a part of an entry. -/
def Committed (s : Pipe Loc') : Prop :=
  ∀ entry ∈ link.files, s.receiver.disk.store.read (link.final entry) = none ∨
    s.receiver.disk.store.read (link.final entry) = link.content entry

/-- A read fails in a file that is open, so that at least one block of it was
returned, while some of it was not. -/
def CutsShort (s : Pipe Loc') (round : Round) : Prop :=
  ∃ file, s.sender.file = some file ∧
    file.pos < (link.source.data file.ino).content.length ∧
    TransferJob.fillBuffer (link.source.data file.ino).content file.pos [] round.io.reads = none

/-- There is an entry left, it is open or opens, and no read fails. -/
def Yields (s : Pipe Loc') (round : Round) : Prop :=
  ∃ entry file, s.sender.files[asUsize s.sender.fileNum]? = some entry ∧
    s.sender.openSource link.src link.source entry round.io = some file ∧
    (TransferJob.fillBuffer (link.source.data file.ino).content file.pos []
      round.io.reads).isSome

variable [DecidableEq Loc']

/-- Once a failure has cut an entry short, no further block is returned. -/
def NoBlockAfterCut : Pipe Loc' → List Round → Prop
  | _, [] => True
  | s, round :: rounds =>
      (link.CutsShort s round →
        Along link.step (fun s round => ¬ link.Yields s round) (link.step s round) rounds) ∧
      NoBlockAfterCut (link.step s round) rounds

omit [DecidableEq Loc'] in
variable {link} in
/-- `Yields` is when `read` returns a block. -/
theorem yields_iff (s : Pipe Loc') (round : Round) :
    (∃ block, (s.sender.read link.src link.z link.source round.io).1 = .ok (some block)) ↔
      link.Yields s round := by
  unfold TransferJob.read Yields
  dsimp only
  cases s.sender.files[asUsize s.sender.fileNum]? with
  | none => simp
  | some entry =>
      dsimp only
      cases hopen : s.sender.openSource link.src link.source entry round.io with
      | none => simp [hopen]
      | some file =>
          dsimp only
          cases hfill : TransferJob.fillBuffer (link.source.data file.ino).content file.pos []
              round.io.reads with
          | none => simp [hopen, hfill]
          | some buf => cases buf <;> simp [hopen, hfill]

omit [DecidableEq Loc'] in
variable {link} in
theorem not_yields {s : Pipe Loc'} {round : Round}
    {res : Except TransferError (Option FileTransferBlock)}
    (h : (s.sender.read link.src link.z link.source round.io).1 = res)
    (hres : ∀ block, res ≠ .ok (some block)) : ¬ link.Yields s round := by
  intro hyields
  obtain ⟨block, hblock⟩ := (yields_iff s round).mpr hyields
  exact hres block (h.symm.trans hblock)

/-! ## Where the receiver stands -/

/-- Where the receiver stands when the sender is at offset `pos` of entry `n`.
`torn` is when it holds a part of an entry that the sender has left. -/
inductive Phase (s : Pipe Loc') (n : ℕ) : ℕ → Bool → Prop
  | idle : s.receiver.job.file = none → asUsize s.receiver.job.fileNum = 0 →
      (∀ entry ∈ link.files, s.receiver.disk.store.read (link.temp entry) = none) →
      Phase s n 0 false
  | whole (k : ℕ) (entry : FileEntry) (content : Bytes) : k < n →
      link.files[k]? = some entry → link.content entry = some content →
      Receiving link.dst s.receiver k entry content → Phase s n 0 false
  | torn (k : ℕ) (entry : FileEntry) (content got : Bytes) : k < n →
      link.files[k]? = some entry → link.content entry = some content → got ≠ content →
      Receiving link.dst s.receiver k entry got → Phase s n 0 true
  | inside (pos : ℕ) (entry : FileEntry) (content : Bytes) :
      link.files[n]? = some entry → link.content entry = some content → 0 < pos →
      pos ≤ content.length → Receiving link.dst s.receiver n entry (content.take pos) →
      Phase s n pos false

structure Progress (s : Pipe Loc') (n pos : ℕ) (torn : Bool) : Prop where
  linked : link.Linked s
  reading : Reading link.src link.source s.sender n pos
  phase : link.Phase s n pos torn

variable {link}

/-! ## A round with a block -/

/-- What a commit does to the places, when what it commits is nothing or a
whole entry. -/
theorem Committed.commit (hclash : link.ClashFree) {s : Pipe Loc'} (hl : link.Linked s)
    (h : link.Committed s) {k : ℕ} {entry : FileEntry}
    (hnum : asUsize s.receiver.job.fileNum = k) (hentry : link.files[k]? = some entry)
    (htemp : s.receiver.disk.store.read (link.temp entry) = none ∨
      s.receiver.disk.store.read (link.temp entry) = link.content entry) (now : Int) :
    ∀ e ∈ link.files,
      (s.receiver.job.modifyTime link.dst s.receiver.disk (.ok now)).store.read (link.final e) =
        none ∨
      (s.receiver.job.modifyTime link.dst s.receiver.disk (.ok now)).store.read (link.final e) =
        link.content e := by
  intro e he
  have hmem : entry ∈ link.files := List.mem_of_getElem? hentry
  rw [hl.read_commit hnum hentry]
  split_ifs with hfinal hclashing
  · rcases htemp with hnone | hwhole
    · rw [hnone, Option.none_or]
      exact h e he
    · rw [hwhole]
      cases hcontent : link.content entry with
      | none => rw [Option.none_or]; exact h e he
      | some content =>
          exact .inr (by rw [Option.some_or, hclash.same e he entry hmem hfinal, hcontent])
  · exact .inl rfl
  · exact h e he

/-- A block that reaches a receiver without a torn entry is taken in, and the
places stay as they should. -/
theorem Phase.taken (hclash : link.ClashFree) {s : Pipe Loc'} (hl : link.Linked s) {n pos : ℕ}
    (h : link.Phase s n pos false) (hcommitted : link.Committed s)
    {block : FileTransferBlock} {entry : FileEntry} {content : Bytes}
    (hentry : link.files[n]? = some entry) (hcontent : link.content entry = some content)
    (hcut : link.Cut block n content pos) (now : Int) :
    pos ≤ content.length ∧ ∃ store, link.Taken s block now n entry
      (content.take (pos + (block.bytes link.z).length)) store ∧
        ∀ e ∈ link.files, store.read (link.final e) = none ∨
          store.read (link.final e) = link.content e := by
  cases h with
  | idle hfile hnum htemps =>
      have hn := (List.getElem?_eq_some_iff.mp hentry).1
      have hfirst : link.files[0]? = some link.files[0] := List.getElem?_eq_getElem (by omega)
      exact ⟨Nat.zero_le _, _, block_switches hl hentry hcut (.inl hfile) now,
        hcommitted.commit hclash hl hnum hfirst
          (.inl (htemps _ (List.getElem_mem _))) now⟩
  | whole k old _ hk hold hcold hrec =>
      have hother : asUsize block.fileNum ≠ asUsize s.receiver.job.fileNum := by
        rw [hcut.num, hrec.num]
        omega
      exact ⟨Nat.zero_le _, _, block_switches hl hentry hcut (.inr hother) now,
        hcommitted.commit hclash hl hrec.num hold
          (.inr ((hl.read_temp hrec).trans hcold.symm)) now⟩
  | inside _ entry' content' hentry' hcontent' _ hpos hrec =>
      obtain rfl : entry' = entry := Option.some.inj (hentry'.symm.trans hentry)
      obtain rfl : content' = content := Option.some.inj (hcontent'.symm.trans hcontent)
      exact ⟨hpos, _, block_continues hl hrec hcut now, hcommitted⟩

/-- A block that reaches a receiver with a torn entry commits the torn entry. -/
theorem Phase.spoils (hclash : link.ClashFree) {s : Pipe Loc'} (hl : link.Linked s) {n pos : ℕ}
    (h : link.Phase s n pos true) {block : FileTransferBlock} {entry : FileEntry}
    {content : Bytes} (hentry : link.files[n]? = some entry)
    (hcut : link.Cut block n content pos) (now : Int) (sender : TransferJob) :
    ¬ link.Committed ⟨sender, (s.receiver.write link.dst link.z block (.ok now)).2⟩ := by
  cases h with
  | torn k old whole got hk hold hwhole hne hrec =>
      have hother : asUsize block.fileNum ≠ asUsize s.receiver.job.fileNum := by
        rw [hcut.num, hrec.num]
        omega
      have htaken := block_switches hl hentry hcut (.inr hother) now
      have hmem : old ∈ link.files := List.mem_of_getElem? hold
      have hapart := hclash.apart old hmem entry (List.mem_of_getElem? hentry)
      have hgot := (htaken.read _ hapart).trans (hl.read_commit hrec.num hold now _)
      rw [if_pos rfl, hl.read_temp hrec, Option.some_or] at hgot
      intro hcommitted
      rcases hcommitted old hmem with hnone | hcontent'
      · rw [hgot] at hnone
        cases hnone
      · rw [hgot, hwhole] at hcontent'
        exact hne (Option.some.inj hcontent')

/-! ## A round -/

theorem Committed.taken (hclash : link.ClashFree) {s : Pipe Loc'} {n : ℕ} {entry : FileEntry}
    {got : Bytes} {block : FileTransferBlock} {now : Int} {store : FileStore Loc'}
    (hentry : link.files[n]? = some entry) (htaken : link.Taken s block now n entry got store)
    (hstore : ∀ e ∈ link.files, store.read (link.final e) = none ∨
      store.read (link.final e) = link.content e) (sender : TransferJob) :
    link.Committed ⟨sender, (s.receiver.write link.dst link.z block (.ok now)).2⟩ := by
  intro e he
  have hapart := hclash.apart e he entry (List.mem_of_getElem? hentry)
  show FileStore.read _ _ = _ ∨ FileStore.read _ _ = _
  rw [htaken.read _ hapart]
  exact hstore e he

omit [DecidableEq Loc'] in
/-- Between entries, the sender may move on and the receiver stays where it is. -/
theorem Phase.later {s : Pipe Loc'} {n n' : ℕ} {torn : Bool} (h : link.Phase s n 0 torn)
    (hn : n ≤ n') (sender : TransferJob) : link.Phase ⟨sender, s.receiver⟩ n' 0 torn := by
  generalize hpos : 0 = pos at h
  cases h with
  | idle hfile hnum htemps => exact .idle hfile hnum htemps
  | whole k entry content hk hentry hcontent hrec =>
      exact .whole k entry content (by omega) hentry hcontent hrec
  | torn k entry content got hk hentry hcontent hne hrec =>
      exact .torn k entry content got (by omega) hentry hcontent hne hrec
  | inside _ entry content hentry hcontent hlt => omega

/-- A round from a torn entry: a block spoils the destination, and without one
nothing changes at the receiver. -/
theorem round_torn (hz : link.z.Lawful) (hlen : link.files.length < 2 ^ 31)
    (hclash : link.ClashFree) {s : Pipe Loc'} {n : ℕ} (h : link.Progress s n 0 true)
    (round : Round) :
    (link.Yields s round → ¬ link.Committed (link.step s round)) ∧
    (¬ link.Yields s round → (link.step s round).receiver = s.receiver ∧
      ∃ n', link.Progress (link.step s round) n' 0 true) := by
  have hl := h.linked
  obtain ⟨hlinked, hwent⟩ := round_went hz hlen hl h.reading round
  generalize link.step s round = s' at hlinked hwent ⊢
  cases hwent with
  | done sender hend hres hreading =>
      have hnone : ¬ link.Yields s round := not_yields hres fun block h => nomatch h
      constructor
      · intro hyields
        exact absurd hyields hnone
      · intro _
        exact ⟨rfl, n, hlinked, hreading, h.phase.later (Nat.le_refl n) sender⟩
  | failed sender entry hentry hres hreading =>
      have hnone : ¬ link.Yields s round := not_yields hres fun block h => nomatch h
      constructor
      · intro hyields
        exact absurd hyields hnone
      · intro _
        exact ⟨rfl, n + 1, hlinked, hreading, h.phase.later (Nat.le_succ n) sender⟩
  | block sender entry content block hentry hcontent hres hcut =>
      have hyields : link.Yields s round := (yields_iff s round).mp ⟨block, hres⟩
      constructor
      · intro _
        exact h.phase.spoils hclash hl hentry hcut round.now sender
      · intro hnone
        exact absurd hyields hnone

omit [DecidableEq Loc'] in
/-- A failed read leaves the entry whole or torn, by whether it cut it short. -/
theorem Phase.failed {s : Pipe Loc'} (hl : link.Linked s) {n pos : ℕ}
    (hreading : Reading link.src link.source s.sender n pos) (h : link.Phase s n pos false)
    {round : Round} (hnone : ¬ link.Yields s round) (sender : TransferJob) :
    (link.CutsShort s round → link.Phase ⟨sender, s.receiver⟩ (n + 1) 0 true) ∧
    (¬ link.CutsShort s round → link.Phase ⟨sender, s.receiver⟩ (n + 1) 0 false) := by
  have hnum := hreading.num
  rcases hreading.file with ⟨hclosed, rfl⟩ | ⟨entry, file, hentry, hfile, hpos, hgt, hino⟩
  · -- nothing of the entry was returned
    constructor
    · rintro ⟨file, hfile, -⟩
      rw [hclosed] at hfile
      cases hfile
    · intro _
      exact h.later (Nat.le_succ n) sender
  · have hfails : TransferJob.fillBuffer (link.source.data file.ino).content file.pos []
        round.io.reads = none := by
      by_contra hsome
      refine hnone ⟨entry, file, hnum ▸ hentry, ?_, Option.isSome_iff_ne_none.mpr hsome⟩
      unfold TransferJob.openSource
      rw [hfile]
    rw [hl.senderFiles] at hentry
    cases h with
    | idle | whole => omega
    | inside _ entry' content hentry' hcontent hgt' hle hrec =>
        obtain rfl : entry' = entry := Option.some.inj (hentry'.symm.trans hentry)
        have hdata : (link.source.data file.ino).content = content :=
          Option.some.inj ((hl.content_eq hino).symm.trans hcontent)
        constructor
        · rintro ⟨file', hfile', hless, -⟩
          rw [hfile] at hfile'
          cases hfile'
          rw [hdata, hpos] at hless
          refine .torn n entry' content _ (Nat.lt_succ_self n) hentry hcontent ?_ hrec
          intro heq
          have hlength := congrArg List.length heq
          rw [List.length_take] at hlength
          omega
        · intro hnot
          have hend : content.length ≤ pos := by
            by_contra hmore
            exact hnot ⟨file, hfile, by rw [hdata, hpos]; omega, hfails⟩
          rw [List.take_of_length_le hend] at hrec
          exact .whole n entry' content (Nat.lt_succ_self n) hentry hcontent hrec

/-- A round from a receiver without a torn entry keeps the places, and tears an
entry exactly when its read cuts it short. -/
theorem round_whole (hz : link.z.Lawful) (hlen : link.files.length < 2 ^ 31)
    (hclash : link.ClashFree) {s : Pipe Loc'} {n pos : ℕ} (h : link.Progress s n pos false)
    (hcommitted : link.Committed s) (round : Round) :
    link.Committed (link.step s round) ∧
    (link.CutsShort s round → ∃ n', link.Progress (link.step s round) n' 0 true) ∧
    (¬ link.CutsShort s round →
      ∃ n' pos', link.Progress (link.step s round) n' pos' false) := by
  have hl := h.linked
  obtain ⟨hlinked, hwent⟩ := round_went hz hlen hl h.reading round
  generalize link.step s round = s' at hlinked hwent ⊢
  cases hwent with
  | done sender hend hres hreading =>
      rcases h.reading.file with ⟨hclosed, rfl⟩ | ⟨entry, _, hentry, -⟩
      · refine ⟨hcommitted, fun ⟨file, hfile, _⟩ => ?_, fun _ => ⟨n, 0, ?_⟩⟩
        · rw [hclosed] at hfile
          cases hfile
        · exact ⟨hlinked, hreading, h.phase.later (Nat.le_refl n) sender⟩
      · rw [hl.senderFiles, hend] at hentry
        cases hentry
  | failed sender entry hentry hres hreading =>
      have hnone : ¬ link.Yields s round := not_yields hres fun block h => nomatch h
      obtain ⟨htorn, hwhole⟩ := h.phase.failed hl h.reading hnone sender
      exact ⟨hcommitted, fun hcut => ⟨n + 1, hlinked, hreading, htorn hcut⟩,
        fun hnot => ⟨n + 1, 0, hlinked, hreading, hwhole hnot⟩⟩
  | block sender entry content block hentry hcontent hres hcut hnext =>
      have hnocut : ¬ link.CutsShort s round := by
        rintro ⟨file, hfile, -, hfails⟩
        obtain ⟨entry', file', -, hopen, hsome⟩ := (yields_iff s round).mp ⟨block, hres⟩
        unfold TransferJob.openSource at hopen
        rw [hfile] at hopen
        cases hopen
        rw [hfails] at hsome
        cases hsome
      obtain ⟨hpos, store, htaken, hstore⟩ :=
        h.phase.taken hclash hl hcommitted hentry hcontent hcut round.now
      have hlength := hcut.length_bytes
      have hbuf : 0 < bufSize := by decide
      refine ⟨Committed.taken hclash hentry htaken hstore sender,
        fun hc => absurd hc hnocut, fun _ => ?_⟩
      rcases hnext with ⟨hend, hreading⟩ | ⟨hmore, hreading⟩
      · exact ⟨n + 1, 0, hlinked, hreading,
          .whole n entry content (Nat.lt_succ_self n) hentry hcontent (htaken.all hend)⟩
      · exact ⟨n, _, hlinked, hreading,
          .inside _ entry content hentry hcontent (by omega) (by omega) htaken.receiving⟩

/-! ## Runs -/

theorem noBlockAfterCut_of_along {s : Pipe Loc'} {rounds : List Round}
    (h : Along link.step (fun s round => ¬ link.Yields s round) s rounds) :
    link.NoBlockAfterCut s rounds := by
  induction rounds generalizing s with
  | nil => trivial
  | cons round rounds ih => exact ⟨fun _ => h.2, ih h.2⟩

/-- From a torn entry, the places stay as they should as long as no block comes. -/
theorem torn_run (hz : link.z.Lawful) (hlen : link.files.length < 2 ^ 31)
    (hclash : link.ClashFree) (rounds : List Round) {s : Pipe Loc'} {n : ℕ}
    (h : link.Progress s n 0 true) (hcommitted : link.Committed s) :
    Always link.step link.Committed s rounds ↔
      Along link.step (fun s round => ¬ link.Yields s round) s rounds := by
  induction rounds generalizing s n with
  | nil => exact ⟨fun _ => trivial, fun _ => hcommitted⟩
  | cons round rounds ih =>
      obtain ⟨hblock, hquiet⟩ := round_torn hz hlen hclash h round
      by_cases hyields : link.Yields s round
      · constructor
        · intro hall
          exact absurd hall.2.head (hblock hyields)
        · intro hno
          exact absurd hyields hno.1
      · obtain ⟨hsame, n', hnext⟩ := hquiet hyields
        have hstep : link.Committed (link.step s round) := by
          unfold Committed
          rw [hsame]
          exact hcommitted
        have hrest := ih hnext hstep
        constructor
        · intro hall
          exact ⟨hyields, hrest.mp hall.2⟩
        · intro hno
          exact ⟨hcommitted, hrest.mpr hno.2⟩

theorem whole_run (hz : link.z.Lawful) (hlen : link.files.length < 2 ^ 31)
    (hclash : link.ClashFree) (rounds : List Round) {s : Pipe Loc'} {n pos : ℕ}
    (h : link.Progress s n pos false) (hcommitted : link.Committed s) :
    Always link.step link.Committed s rounds ↔ link.NoBlockAfterCut s rounds := by
  induction rounds generalizing s n pos with
  | nil => exact ⟨fun _ => trivial, fun _ => hcommitted⟩
  | cons round rounds ih =>
      obtain ⟨hstep, htorn, hwhole⟩ := round_whole hz hlen hclash h hcommitted round
      by_cases hcut : link.CutsShort s round
      · obtain ⟨n', hnext⟩ := htorn hcut
        have hrest := torn_run hz hlen hclash rounds hnext hstep
        constructor
        · intro hall
          have hquiet := hrest.mp hall.2
          exact ⟨fun _ => hquiet, noBlockAfterCut_of_along hquiet⟩
        · intro hno
          exact ⟨hcommitted, hrest.mpr (hno.1 hcut)⟩
      · obtain ⟨n', pos', hnext⟩ := hwhole hcut
        have hrest := ih hnext hstep
        constructor
        · intro hall
          exact ⟨fun hc => absurd hc hcut, hrest.mp hall.2⟩
        · intro hno
          exact ⟨hcommitted, hrest.mpr hno.2⟩

/-- **Committed files, exactly.** From a destination without the entries' files,
no place ever holds a part of an entry if and only if no block is returned
after a read failure that cut an entry short. -/
theorem committed_iff (link : Link Loc Loc') (hz : link.z.Lawful)
    (hlen : link.files.length < 2 ^ 31) (hclash : link.ClashFree) (store : FileStore Loc')
    (hempty : ∀ entry ∈ link.files, store.read (link.final entry) = none ∧
      store.read (link.temp entry) = none) (rounds : List Round) :
    Always link.step link.Committed (link.start store) rounds ↔
      link.NoBlockAfterCut (link.start store) rounds := by
  have hstart : link.Progress (link.start store) 0 0 false :=
    ⟨linked_start store, ⟨rfl, .inl ⟨rfl, rfl⟩⟩,
      .idle rfl rfl fun entry hmem => (hempty entry hmem).2⟩
  exact whole_run hz hlen hclash rounds hstart fun entry hmem => .inl (hempty entry hmem).1

end Link

theorem committed_iff_two : twoEntries.ClashFree ∧
    (Always twoEntries.step twoEntries.Committed (twoEntries.start .empty)
        [⟨⟨true, []⟩, 0⟩, ⟨⟨true, [.err]⟩, 0⟩, ⟨⟨true, []⟩, 0⟩] ↔
      twoEntries.NoBlockAfterCut (twoEntries.start .empty)
        [⟨⟨true, []⟩, 0⟩, ⟨⟨true, [.err]⟩, 0⟩, ⟨⟨true, []⟩, 0⟩]) := by
  have hclash : twoEntries.ClashFree := ⟨by decide, by decide⟩
  exact ⟨hclash, Link.committed_iff twoEntries Zstd.framed_lawful (by decide) hclash .empty
    (by decide) _⟩

/-! ## A file cut short -/

/-- Two entries, the first of them longer than a block. -/
def longFirst : Link (List Component) (List Component) :=
  { plainLink [("a".toList, []), ("b".toList, [])] with
    source :=
      { filesAt [("s/a".toList, []), ("s/b".toList, [])] with
        data := fun ino =>
          if ino = 0 then ⟨List.replicate (bufSize + 1) 7, 0⟩ else ⟨[], 0⟩ } }

section
variable {Loc Loc' : Type*} [DecidableEq Loc'] {link : Link Loc Loc'}

/-- Where the sender is after a round in the middle of an entry. -/
theorem Link.round_reading (hz : link.z.Lawful) (hlen : link.files.length < 2 ^ 31)
    {s : Pipe Loc'} (hl : link.Linked s) {n pos : ℕ}
    (h : Reading link.src link.source s.sender n pos) {entry : FileEntry} {content : Bytes}
    (hentry : link.files[n]? = some entry) (hcontent : link.content entry = some content)
    (hmore : pos < content.length) (round : Round) :
    link.Linked (link.step s round) ∧
    (link.Yields s round → Reading link.src link.source (link.step s round).sender n
      (pos + min bufSize (content.length - pos))) ∧
    (¬ link.Yields s round →
      Reading link.src link.source (link.step s round).sender (n + 1) 0) := by
  obtain ⟨hlinked, hwent⟩ := round_went hz hlen hl h round
  generalize link.step s round = s' at hlinked hwent ⊢
  refine ⟨hlinked, ?_⟩
  cases hwent with
  | done sender hend =>
      rw [hentry] at hend
      cases hend
  | failed sender _ _ hres hreading =>
      have hnone : ¬ link.Yields s round := not_yields hres fun block h => nomatch h
      constructor
      · intro hyields
        exact absurd hyields hnone
      · intro _
        exact hreading
  | block sender entry' content' block hentry' hcontent' hres hcut hnext =>
      obtain rfl : entry = entry' := Option.some.inj (hentry.symm.trans hentry')
      obtain rfl : content = content' := Option.some.inj (hcontent.symm.trans hcontent')
      constructor
      · intro _
        rcases hnext with ⟨hend, -⟩ | ⟨-, hreading⟩
        · omega
        · rwa [hcut.length_bytes] at hreading
      · intro hnone
        exact absurd ((yields_iff s round).mp ⟨block, hres⟩) hnone

omit [DecidableEq Loc'] in
/-- An entry that is there is read when nothing fails. -/
theorem Link.yields_of_ok
    (hsource : ∀ entry ∈ link.files, (link.content entry).isSome) {s : Pipe Loc'}
    (hl : link.Linked s) {n pos : ℕ}
    (h : Reading link.src link.source s.sender n pos) (hn : n < link.files.length)
    {round : Round} (hok : round.Ok) : link.Yields s round := by
  have hentry : s.sender.files[asUsize s.sender.fileNum]? = some link.files[n] := by
    rw [h.num, hl.senderFiles]
    exact List.getElem?_eq_getElem hn
  have hcontent : (sourceOf link.src link.source s.sender.path link.files[n]).isSome := by
    rw [hl.senderPath]
    exact hsource _ (List.getElem_mem hn)
  obtain ⟨file, hopen⟩ := Option.isSome_iff_exists.mp (openSource_isSome hcontent hok.1)
  exact ⟨_, file, hentry, hopen, fillBuffer_isSome _ _ hok.2⟩

end

/-- Reading the second block of the long file fails. -/
def failingRounds : List Round :=
  [⟨⟨true, []⟩, 0⟩, ⟨⟨true, [.err]⟩, 0⟩, ⟨⟨true, []⟩, 0⟩]

theorem longFirst_content :
    longFirst.content ⟨"a".toList, 0, 0⟩ = some (List.replicate (bufSize + 1) 7) := rfl

theorem longFirst_clashFree : longFirst.ClashFree where
  apart := by decide
  same a ha b hb h := by
    have hinj : ∀ a ∈ longFirst.files, ∀ b ∈ longFirst.files,
        longFirst.final a = longFirst.final b → a = b := by decide
    rw [hinj a ha b hb h]

/-- The first block of the long file gets its final name. -/
theorem truncated_file_committed :
    ¬ Always longFirst.step longFirst.Committed (longFirst.start .empty) failingRounds := by
  have hz : longFirst.z.Lawful := Zstd.framed_lawful
  have hlen : longFirst.files.length < 2 ^ 31 := by decide
  have hsource : ∀ entry ∈ longFirst.files, (longFirst.content entry).isSome := by decide
  have hmore : 0 < (List.replicate (bufSize + 1) (7 : UInt8)).length := by
    rw [List.length_replicate]
    omega
  have hstart : Reading longFirst.src longFirst.source (longFirst.start .empty).sender 0 0 :=
    ⟨rfl, .inl ⟨rfl, rfl⟩⟩
  have hempty : ∀ entry ∈ longFirst.files,
      FileStore.empty.read (longFirst.temp entry) = none := by decide
  have hprogress : longFirst.Progress (longFirst.start .empty) 0 0 false :=
    ⟨Link.linked_start .empty, hstart, .idle rfl rfl hempty⟩
  intro hall
  have hno := (Link.whole_run hz hlen longFirst_clashFree failingRounds hprogress
    hall.head).mp hall
  -- the first round returns a block and leaves the file open
  obtain ⟨hlinked₁, hread₁, -⟩ := Link.round_reading hz hlen hprogress.linked hstart rfl
    longFirst_content hmore ⟨⟨true, []⟩, 0⟩
  replace hread₁ := hread₁ (Link.yields_of_ok hsource hprogress.linked hstart
    (by decide) ⟨rfl, List.not_mem_nil⟩)
  rw [List.length_replicate, show 0 + min bufSize (bufSize + 1 - 0) = bufSize by omega] at hread₁
  rcases hread₁.file with ⟨-, hzero⟩ | ⟨entry, file, hentry, hfile, hpos, -, hino⟩
  · exact absurd hzero (by decide)
  rw [hlinked₁.senderFiles] at hentry
  obtain rfl : ⟨"a".toList, 0, 0⟩ = entry := Option.some.inj hentry
  have hdata := Option.some.inj ((hlinked₁.content_eq hino).symm.trans longFirst_content)
  -- the second round fails and goes on with the other entry
  have hless : bufSize < (List.replicate (bufSize + 1) (7 : UInt8)).length := by
    rw [List.length_replicate]
    omega
  have hcut : longFirst.CutsShort (longFirst.step (longFirst.start .empty) ⟨⟨true, []⟩, 0⟩)
      ⟨⟨true, [.err]⟩, 0⟩ := ⟨file, hfile, by rw [hdata, hpos]; exact hless, rfl⟩
  obtain ⟨hlinked₂, -, hread₂⟩ := Link.round_reading hz hlen hlinked₁ hread₁ rfl
    longFirst_content hless ⟨⟨true, [.err]⟩, 0⟩
  replace hread₂ := hread₂ fun ⟨_, _, _, _, hfills⟩ => (nomatch hfills)
  -- and the third returns that entry's block
  exact (hno.2.1 hcut).1 (Link.yields_of_ok hsource hlinked₂ hread₂ (by decide)
    ⟨rfl, List.not_mem_nil⟩)

end RustdeskServer.Transfer
