import RustdeskServer.Rendezvous.Tunnel
import RustdeskServer.Transfer.Together

/-!
# Transfers through the relay

The layers together: `handle_read_jobs` passes its messages to `send` of a secured
stream, `relay` passes on the bytes, and what `next` returns to the other client
is parsed and goes to its write jobs.

The stream delivers a prefix of what was sent, and `take` never takes back a block
that was lost. So no block is lost on the way, and once the stream is drained the
write jobs have had every message: they stand as if the two vectors had been side
by side, where `Transfers.ended` says that all lists are complete.
-/

namespace RustdeskServer.Transfer

open RustdeskServer.Codec RustdeskServer.Framework
open RustdeskServer.Rendezvous (Tunnel TunnelEvent Met Greeted Side link)
open RustdeskServer.Stream (Pair PairAction Party SecretBox)

/-- How the `protobuf` library writes and reads a `Message` with a file response. -/
structure Proto where
  bytes : FileResponse → Bytes
  parse : Bytes → Option FileResponse

section
variable {Loc Loc' : Type*} [DecidableEq Loc'] (ends : Ends Loc Loc') (clock : ℕ → Int)
  (proto : Proto)

/-- What `next` returned goes to the write jobs, if it is a message for them. -/
def Downloads.receive (d : Downloads Loc') : Except IoError Bytes → Downloads Loc'
  | .ok frame =>
      match proto.parse frame with
      | some message => d.take ends clock message
      | none => d
  | .error _ => d

/-- The downloads of a client: all that `next` has returned to it behind the first
`k` frames has been received. -/
def Downloads.of {Key : Type} (requests : List Request) (store : FileStore Loc') (k : ℕ)
    (p : Party Key) : Downloads Loc' :=
  (p.results.drop k).foldl (Downloads.receive ends clock proto) (.start requests store)

/-- What `handle_read_jobs` passes to `send` in so many calls. -/
def Transfers.frames (requests : List Request) (store : FileStore Loc') (io : ℕ → ℕ → ReadIo)
    (calls : ℕ) : List Bytes :=
  (after ends clock requests store io calls).queue.sent.map fun p => proto.bytes p.message

end

section
variable {Loc Loc' : Type*} [DecidableEq Loc'] {ends : Ends Loc Loc'} {clock : ℕ → Int}

/-! ## The write jobs are where the messages have brought them -/

variable (ends clock) in
theorem Transfers.after_downloads (requests : List Request) (store : FileStore Loc')
    (io : ℕ → ℕ → ReadIo) (calls : ℕ) :
    (after ends clock requests store io calls).downloads =
      ((after ends clock requests store io calls).queue.sent.map Posted.message).foldl
        (Downloads.take ends clock) (.start requests store) := by
  induction calls with
  | zero => rfl
  | succ calls ih =>
      have hsent : ∃ more, (after ends clock requests store io (calls + 1)).queue.sent =
          (after ends clock requests store io calls).queue.sent ++ more := ⟨_, rfl⟩
      obtain ⟨more, hmore⟩ := hsent
      rw [hmore, List.map_append, List.foldl_append, ← ih]
      show (((after ends clock requests store io (calls + 1)).queue.sent.drop _).map _).foldl _
        (after ends clock requests store io calls).downloads = _
      rw [hmore, List.drop_left]

/-- A block that was lost stays lost. -/
theorem lost_take (d : Downloads Loc') (message : FileResponse) :
    d.lost <+: (d.take ends clock message).lost := by
  unfold Downloads.take
  split
  · split
    · exact List.prefix_append _ _
    · split
      · exact List.prefix_rfl
      · exact List.prefix_append _ _
  · exact List.prefix_rfl

variable (ends clock) in
theorem lost_run (d : Downloads Loc') (messages : List FileResponse) :
    d.lost <+: (messages.foldl (Downloads.take ends clock) d).lost := by
  induction messages generalizing d with
  | nil => exact List.prefix_rfl
  | cons message messages ih => exact (lost_take d message).trans (ih _)

/-- Messages arrive as they were, if parsing undoes writing. -/
theorem receive_run {proto : Proto} {posted : List Posted}
    (hproto : ∀ p ∈ posted, proto.parse (proto.bytes p.message) = some p.message)
    (d : Downloads Loc') :
    ((posted.map fun p => proto.bytes p.message).map .ok).foldl
        (Downloads.receive ends clock proto) d =
      (posted.map Posted.message).foldl (Downloads.take ends clock) d := by
  induction posted generalizing d with
  | nil => rfl
  | cons p posted ih =>
      rw [List.map_cons, List.map_cons, List.map_cons, List.foldl_cons, List.foldl_cons,
        Downloads.receive, hproto p List.mem_cons_self]
      exact ih (fun p' hp' => hproto p' (List.mem_cons_of_mem p hp')) _

variable (ends clock) in
/-- What has been received is the first of the messages. -/
theorem received_prefix {proto : Proto} {posted : List Posted}
    (hproto : ∀ p ∈ posted, proto.parse (proto.bytes p.message) = some p.message)
    {results : List (Except IoError Bytes)} {passed before : List Bytes}
    (hresults : results <+: passed.map .ok)
    (hpassed : passed <+: before ++ posted.map fun p => proto.bytes p.message)
    (d : Downloads Loc') :
    ∃ m, (results.drop before.length).foldl (Downloads.receive ends clock proto) d =
      ((posted.take m).map Posted.message).foldl (Downloads.take ends clock) d := by
  have hall := (hresults.trans (hpassed.map Except.ok)).drop before.length
  rw [List.map_append, List.drop_left' (List.length_map _)] at hall
  refine ⟨(results.drop before.length).length, ?_⟩
  rw [← receive_run fun p hp => hproto p (List.mem_of_mem_take hp), List.map_take, List.map_take,
    ← List.prefix_iff_eq_take.mp hall]

end

section
variable {Addr Conn Key : Type} [DecidableEq Conn] {Loc Loc' : Type*} [DecidableEq Loc']

/-- **A transfer through the relay.** Two clients hold a secured stream through the
relay. One of them passes the messages of `handle_read_jobs` to `send`, behind
whatever it has sent before; the other one gives what `next` returns to its write
jobs. Then no block is lost at any moment. When the sender has made all its calls,
`relay` still loops and a `next` is pending with nothing on the way, all lists are
complete. -/
theorem copied_through_relay
    (box : SecretBox Key) (key : Key) (hbox : box.Inverse key) (pos : Stream.Side → ℕ)
    (parse : Rendezvous.Parser) (conn : Side → Conn) (hne : conn .stream ≠ conn .peer)
    (relayServer : String) (idMap : Finmap fun _ : String => Addr) (savedStream : Option Conn)
    (greeted : Side → Greeted) (wire : Side → Bytes) (acts : List PairAction)
    (hacts : Along (Pair.step box key) (Stream.Allowed box key pos) Pair.start acts)
    (hello : Stream.Side → Bytes) (hmet : Met greeted wire (Pair.run box key acts) hello)
    (events : List (TunnelEvent Addr))
    (hruns : Along (Tunnel.step box key parse conn) (Tunnel.Allowed box key parse conn pos)
      (.start conn relayServer idMap savedStream greeted wire (Pair.run box key acts)) events)
    (ends : Ends Loc Loc') (requests : List Request) (hready : ends.Ready requests)
    (store : FileStore Loc') (clock : ℕ → Int) (io : ℕ → ℕ → ReadIo)
    (hok : ∀ i tag, (io i tag).Ok) (proto : Proto)
    (hproto : ∀ p ∈ (Transfers.after ends clock requests store io
      (ends.calls requests)).queue.sent, proto.parse (proto.bytes p.message) = some p.message)
    (before : List Bytes) (s : Stream.Side) (now : Int) :
    Always (Tunnel.step box key parse conn)
      (fun t => ∀ sender receiver downloads, sender = t.party s.other → receiver = t.party s →
        downloads = Downloads.of ends clock proto requests store before.length receiver →
        sender.passed <+: before ++
          Transfers.frames ends clock proto requests store io (ends.calls requests) →
        downloads.lost = [] ∧
        (sender.passed = before ++
            Transfers.frames ends clock proto requests store io (ends.calls requests) →
          t.relay.Looping → (t.relay.links (link s).other).closed = false →
          (t.pair conn).wire s = [] → (receiver.next box).results = receiver.results →
          downloads.Complete ends requests store now))
      (.start conn relayServer idMap savedStream greeted wire (Pair.run box key acts)) events := by
  obtain ⟨σ, left, hend, hzero⟩ := Transfers.ended hready store clock hok
  have hcomplete := hend.downloads.complete hready hzero now
  have hrun := Transfers.after_downloads ends clock requests store io (ends.calls requests)
  refine (Tunnel.inside_always hbox parse hne relayServer idMap savedStream hacts hmet
    hruns).mono ?_
  rintro t ⟨c, hin, hsteady⟩ _ _ _ rfl rfl rfl hpassed
  have hresults : (t.party s).results <+: (t.party s.other).passed.map .ok := by
    rw [← hin.party]
    exact hsteady.inOrder s
  constructor
  · obtain ⟨m, hreceived⟩ :=
      received_prefix ends clock hproto hresults hpassed (.start requests store)
    rw [Downloads.of, hreceived]
    generalize (Transfers.after ends clock requests store io (ends.calls requests)).queue.sent =
      sent at hrun
    have hlost := lost_run ends clock
      (((sent.take m).map Posted.message).foldl (Downloads.take ends clock)
        (.start requests store)) ((sent.drop m).map Posted.message)
    rw [← List.foldl_append, ← List.map_append, List.take_append_drop, ← hrun,
      hcomplete.lost] at hlost
    exact List.prefix_nil.mp hlost
  · intro hsent hloop hopen hwire hpending
    have hlength := hin.drained hbox hsteady hloop hopen hwire hpending
    have hresults : (t.party s).results = (t.party s.other).passed.map .ok :=
      hresults.eq_of_length (by rw [hlength, List.length_map])
    rw [Downloads.of, hresults, hsent, List.map_append,
      List.drop_left' (List.length_map _), Transfers.frames, receive_run hproto, ← hrun]
    exact hcomplete

end

/-! ## Two lists -/

/-- A number as a `varint` of at most so many bytes. -/
def varint : ℕ → ℕ → Bytes
  | 0, _ => []
  | room + 1, n =>
      if n < 128 then [UInt8.ofNat n] else UInt8.ofNat (n % 128 + 128) :: varint room (n / 128)

def intField (tag : UInt8) (n : ℕ) : Bytes := if n = 0 then [] else tag :: varint 10 n

/-- `sint32` -/
def zigzag (n : Int32) : ℕ := if 0 ≤ n then 2 * asUsize n else 2 * asUsize (-n) - 1

def bytesField (tag data : Bytes) : Bytes := tag ++ varint 10 data.length ++ data

/-- The text of an I/O error is the system's, here none. -/
def TransferError.text : TransferError → Bytes
  | .bail text => text.toUTF8.toList
  | .io => []

/-- `write_to_bytes` of a `Message` with a file response. -/
def writeToBytes : FileResponse → Bytes
  | .block block => bytesField [0x92, 0x01] (bytesField [0x12]
      (intField 0x08 (asUsize block.id) ++ intField 0x10 (zigzag block.fileNum) ++
        (if block.data = [] then [] else bytesField [0x1a] block.data) ++
        if block.compressed then [0x20, 0x01] else []))
  | .done id fileNum => bytesField [0x92, 0x01] (bytesField [0x22]
      (intField 0x08 (asUsize id) ++ intField 0x10 (zigzag fileNum)))
  | .error id err fileNum => bytesField [0x92, 0x01] (bytesField [0x1a]
      (intField 0x08 (asUsize id) ++ (if err.text = [] then [] else bytesField [0x12] err.text) ++
        intField 0x18 (zigzag fileNum)))

/-- The messages for `twoLists`. -/
def twoListsSent : List FileResponse :=
  [.block ⟨1, 0, [1, 2], false⟩, .block ⟨2, 0, [1, 2], false⟩, .block ⟨1, 0, [], false⟩,
    .block ⟨2, 0, [], false⟩, .block ⟨1, 1, [], false⟩, .done 2 1, .done 1 2]

def twoListsProto : Proto where
  bytes := writeToBytes
  parse frame := twoListsSent.find? fun message => writeToBytes message = frame

/-- Both clients have sent a first frame `[7]`. -/
def greetings : Side → Greeted := fun _ => ⟨[.arrive [4, 7]], rfl, List.cons_ne_nil _ _⟩

/-- The keys are set, the messages sent and passed on, and each is taken. -/
def twoListsRun : List (TunnelEvent ℕ) :=
  [.client (.setKey .a), .client (.setKey .b)] ++
    twoListsSent.map (fun message => .client (.send .a (writeToBytes message))) ++
    [.relay (.arrive .stream 999), .relay (.next .stream), .client (.arrive .b 999)] ++
    List.replicate 7 (.client (.next .b))

theorem twoLists_frames : Transfers.frames plainEnds (fun _ => 0) twoListsProto twoLists .empty
    (fun _ _ => ⟨true, []⟩) (plainEnds.calls twoLists) = twoListsSent.map writeToBytes := by
  decide

theorem twoListsRun_allowed :
    Along (Tunnel.step Stream.tagBox () Rendezvous.parseShort Rendezvous.Relay.twoConns)
      (Tunnel.Allowed Stream.tagBox () Rendezvous.parseShort Rendezvous.Relay.twoConns fun _ => 0)
      (.start Rendezvous.Relay.twoConns "127.0.0.1" ∅ none greetings (fun _ => [])
        (Pair.run Stream.tagBox () [])) twoListsRun := by
  refine ⟨⟨by decide, ?_⟩, ⟨by decide, ?_⟩, ⟨by decide, ?_⟩, ⟨by decide, ?_⟩, ⟨by decide, ?_⟩,
    ⟨by decide, ?_⟩, ⟨by decide, ?_⟩, ⟨by decide, ?_⟩, ⟨by decide, ?_⟩, trivial, trivial,
    ⟨trivial, ?_⟩, ⟨trivial, ?_⟩, ⟨trivial, ?_⟩, ⟨trivial, ?_⟩, ⟨trivial, ?_⟩, ⟨trivial, ?_⟩,
    ⟨trivial, ?_⟩, ⟨trivial, ?_⟩, trivial⟩
  all_goals
    intro s
    cases s <;> decide +kernel

theorem copied_through_relay_two :
    (Downloads.of plainEnds (fun _ => 0) twoListsProto twoLists .empty 0
      ((twoListsRun.foldl
        (Tunnel.step Stream.tagBox () Rendezvous.parseShort Rendezvous.Relay.twoConns)
        (.start Rendezvous.Relay.twoConns "127.0.0.1" ∅ none greetings (fun _ => [])
          (Pair.run Stream.tagBox () []))).party .b)).Complete plainEnds twoLists .empty 0 := by
  have hmet : Met greetings (fun _ => []) (Pair.run Stream.tagBox () []) fun _ => [7] :=
    ⟨fun _ => by decide, fun s => by cases s <;> decide⟩
  have hall := copied_through_relay Stream.tagBox () Stream.tagBox_correct.inverse (fun _ => 0)
    Rendezvous.parseShort Rendezvous.Relay.twoConns (by decide) "127.0.0.1" ∅ none greetings
    (fun _ => []) [] trivial (fun _ => [7]) hmet twoListsRun twoListsRun_allowed plainEnds twoLists
    plainEnds_ready .empty (fun _ => 0) (fun _ _ => ⟨true, []⟩) (fun _ _ => ⟨rfl, by decide⟩)
    twoListsProto (by decide) [] .b 0
  have hsent : ((twoListsRun.foldl
      (Tunnel.step Stream.tagBox () Rendezvous.parseShort Rendezvous.Relay.twoConns)
      (.start Rendezvous.Relay.twoConns "127.0.0.1" ∅ none greetings (fun _ => [])
        (Pair.run Stream.tagBox () []))).party .a).passed = [] ++
      Transfers.frames plainEnds (fun _ => 0) twoListsProto twoLists .empty
        (fun _ _ => ⟨true, []⟩) (plainEnds.calls twoLists) := by
    rw [twoLists_frames]
    decide
  have hfinal := hall.final _ _ _ _ rfl rfl rfl (hsent ▸ List.prefix_rfl)
  exact hfinal.2 hsent (by unfold Rendezvous.Relay.Looping; decide +kernel) (by decide +kernel)
    (by decide +kernel) (by decide +kernel)

end RustdeskServer.Transfer
