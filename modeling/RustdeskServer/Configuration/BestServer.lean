import RustdeskServer.Configuration.Confirmations
import Mathlib.Data.Finset.Sort
import Mathlib.Data.String.Basic

/-!
# The remembered server is the fastest one (`update_latency`)

`update_latency` notes a host's latency in the map `ONLINE` and goes through all of
the map for the smallest positive one, in whatever order the map is iterated over.
`Reported` is the history's side of the map: the latest latency of a host since the
last `reset_online`.

`server_updateLatency` is about one call in any state, `reported_iff` says what the
map holds after any calls, and `update_latency_keeps_best` puts them together.
-/

namespace RustdeskServer.Configuration

open RustdeskServer.Framework

/-! ## Reports -/

/-- The latency was reported for the host, and since then the host had no other report
and there was no reset. -/
def Reported (calls : List Call) (host : String) (latency : Int) : Prop :=
  Since calls (fun call => ∃ order, call = .updateLatency host latency order) fun call =>
    call ≠ .resetOnline ∧ ∀ latency' order', call ≠ .updateLatency host latency' order'

/-- The host has a positive latency, and no host has a smaller one. -/
def Fastest (latencies : String → Int → Prop) (host : String) : Prop :=
  ∃ latency, latencies host latency ∧ 0 < latency ∧
    ∀ host' latency', latencies host' latency' → 0 < latency' → latency ≤ latency'

/-- What `ONLINE` holds for the host. -/
def Globals.Online (g : Globals) (host : String) (latency : Int) : Prop :=
  g.online.lookup host = some latency

/-- The host has a name, and the latency is one that the search can find. -/
def Call.Reports : Call → Prop
  | .updateLatency host latency _ => host ≠ "" ∧ latency < Globals.maxDelay
  | _ => True

/-! ## What the calls do to `ONLINE` -/

namespace Globals

theorem online_updateConfig (g : Globals) (same : Config → Bool) (f : Config → Config) :
    (g.updateConfig same f).online = g.online := by
  unfold updateConfig
  split <;> rfl

theorem online_updateConfig2 (g : Globals) (same : Config2 → Bool) (f : Config2 → Config2) :
    (g.updateConfig2 same f).online = g.online := by
  unfold updateConfig2
  split <;> rfl

theorem online_getId (g : Globals) (autoId : Option String) :
    (g.getId autoId).online = g.online := by
  unfold getId
  split
  · cases autoId with
    | none => rfl
    | some tmp => exact online_updateConfig g _ _
  · rfl

theorem online_setOption (g : Globals) (k v : String) : (g.setOption k v).online = g.online := by
  unfold setOption storeOption
  dsimp only
  split_ifs <;> rfl

theorem online_updateLatency (g : Globals) (host : String) (latency : Int) (order : IterOrder) :
    (g.updateLatency host latency order).online = g.online.insert host latency := by
  unfold updateLatency
  dsimp only
  split
  · rw [online_updateConfig2]
  · rfl

end Globals

theorem online_step (g : Globals) (call : Call) :
    (step g call).online =
      match call with
      | .updateLatency host latency _ => g.online.insert host latency
      | .resetOnline => ∅
      | _ => g.online := by
  cases call with
  | setId | setPassword | setSalt | setKeyPair | getKeyPair | setKeyConfirmed
  | setHostKeyConfirmed => exact g.online_updateConfig _ _
  | setNatType | setSerial | setSize | setRemoteId | setOptions =>
      exact g.online_updateConfig2 _ _
  | updateId autoId newId =>
      exact (Globals.online_updateConfig _ _ _).trans (g.online_getId autoId)
  | setOption k v => exact g.online_setOption k v
  | updateLatency host latency order => exact g.online_updateLatency host latency order
  | resetOnline => rfl

/-- **The map holds the latest reports** since the last reset, whatever else was called. -/
theorem reported_iff {g : Globals} (hstart : g.online = ∅) (calls : List Call) (host : String)
    (latency : Int) :
    (calls.foldl step g).Online host latency ↔ Reported calls host latency := by
  induction calls using List.reverseRecOn with
  | nil =>
      rw [List.foldl_nil, Globals.Online, hstart, Finmap.lookup_empty, Reported]
      simp [not_since_nil]
  | append_singleton calls call ih =>
      rw [List.foldl_concat, Reported, since_concat, ← Reported, ← ih, Globals.Online,
        Globals.Online, online_step]
      cases call with
      | updateLatency host' latency' order =>
          dsimp only
          by_cases hhost : host = host'
          · rw [hhost, Finmap.lookup_insert]
            simp [eq_comm]
          · rw [Finmap.lookup_insert_of_ne _ hhost]
            simp [Ne.symm hhost]
      | resetOnline => simp
      | _ => simp

/-! ## One call -/

/-- The order of the hosts' names. -/
def IterOrder.byName : IterOrder where
  iter m := (m.keys.sort).filterMap fun host => (m.lookup host).map (Sigma.mk host)
  iter_entries m := by
    refine (Multiset.Nodup.ext ?_ m.nodup_entries).mpr ?_
    · rw [Multiset.coe_nodup]
      refine List.Nodup.filterMap ?_ (Finset.sort_nodup _ _)
      intro host host' entry hentry hentry'
      obtain ⟨latency, -, rfl⟩ := Option.map_eq_some_iff.mp hentry
      obtain ⟨latency', -, heq⟩ := Option.map_eq_some_iff.mp hentry'
      exact (congrArg Sigma.fst heq).symm
    · rintro ⟨host, latency⟩
      rw [← Finmap.mem_lookup_iff, Option.mem_def]
      simp only [Multiset.mem_coe, List.mem_filterMap, Finset.mem_sort, Finmap.mem_keys]
      constructor
      · rintro ⟨host', -, hentry⟩
        obtain ⟨latency', hlookup, heq⟩ := Option.map_eq_some_iff.mp hentry
        cases heq
        exact hlookup
      · intro hlookup
        refine ⟨host, Finmap.mem_iff.mpr ⟨latency, hlookup⟩, ?_⟩
        rw [hlookup, Option.map_some]

namespace Globals

/-- **The loop finds the smallest positive latency**, or nothing smaller than what it
started with. -/
theorem foldl_fasterHost (entries : List (Σ _ : String, Int)) (start : String × Int) :
    (entries.foldl fasterHost start = start ∨
        ∃ entry ∈ entries, 0 < entry.2 ∧ entries.foldl fasterHost start = (entry.1, entry.2)) ∧
      ∀ entry ∈ entries, 0 < entry.2 → (entries.foldl fasterHost start).2 ≤ entry.2 := by
  induction entries using List.reverseRecOn with
  | nil => simp
  | append_singleton entries last ih =>
      obtain ⟨hfound, hleast⟩ := ih
      rw [List.foldl_concat]
      generalize entries.foldl fasterHost start = found at hfound hleast
      unfold fasterHost
      split
      case isTrue hfaster =>
        refine ⟨Or.inr ⟨last, by simp, hfaster.1, rfl⟩, ?_⟩
        intro entry hentry hpositive
        rcases List.mem_append.mp hentry with hentry | hentry
        · exact Int.le_of_lt (lt_of_lt_of_le hfaster.2 (hleast entry hentry hpositive))
        · rw [List.mem_singleton.mp hentry]
      case isFalse hslower =>
        constructor
        · rcases hfound with hstart | ⟨entry, hentry, hpositive, heq⟩
          · exact Or.inl hstart
          · exact Or.inr ⟨entry, List.mem_append_left _ hentry, hpositive, heq⟩
        · intro entry hentry hpositive
          rcases List.mem_append.mp hentry with hentry | hentry
          · exact hleast entry hentry hpositive
          · rw [List.mem_singleton.mp hentry] at hpositive ⊢
            exact Int.not_lt.mp fun hlt => hslower ⟨hpositive, hlt⟩

theorem mem_iter (order : IterOrder) (m : HashMap Int) (host : String) (latency : Int) :
    ⟨host, latency⟩ ∈ order.iter m ↔ m.lookup host = some latency := by
  rw [← Multiset.mem_coe, order.iter_entries, ← Finmap.mem_lookup_iff, Option.mem_def]

/-- Storing the server found leaves it as the remembered one, also where it was already. -/
theorem server_updateConfig2 (g : Globals) (host : String) :
    (g.updateConfig2 (fun c => host = c.rendezvousServer)
      fun c => { c with rendezvousServer := host }).config2.rendezvousServer = host := by
  unfold updateConfig2
  split
  case isTrue hsame => exact (of_decide_eq_true hsame).symm
  case isFalse => rfl

/-- The name that the loop leaves is the remembered server, unless it is empty. -/
theorem server_of_search (g : Globals) (host : String) (latency : Int) (order : IterOrder)
    {best : String × Int}
    (hbest : (order.iter (g.online.insert host latency)).foldl fasterHost ("", maxDelay) = best) :
    (g.updateLatency host latency order).config2.rendezvousServer =
      if best.1 = "" then g.config2.rendezvousServer else best.1 := by
  unfold updateLatency
  dsimp only
  rw [hbest]
  by_cases hname : best.1 = ""
  · rw [if_pos hname, hname]
    rfl
  · have hsome : (!best.1.isEmpty) = true := by
      simpa [String.isEmpty_iff] using hname
    rw [if_neg hname, if_pos hsome]
    exact server_updateConfig2 _ best.1

/-- The loop's answer about the map: an empty name when no latency is positive, and
otherwise a host with the smallest positive one. -/
theorem search_answer (g : Globals) (host : String) (latency : Int) (order : IterOrder)
    (hreports : ∀ host' latency', (g.updateLatency host latency order).Online host' latency' →
      host' ≠ "" ∧ latency' < maxDelay) :
    ∃ best, (order.iter (g.online.insert host latency)).foldl fasterHost ("", maxDelay) = best ∧
      (best.1 = "" ∧ (∀ host' latency',
          (g.updateLatency host latency order).Online host' latency' → latency' ≤ 0) ∨
        best.1 ≠ "" ∧ Fastest (g.updateLatency host latency order).Online best.1) := by
  have hentries : ∀ host' latency', ⟨host', latency'⟩ ∈ order.iter (g.online.insert host latency) ↔
      (g.updateLatency host latency order).Online host' latency' := by
    intro host' latency'
    rw [mem_iter, Online, online_updateLatency]
  obtain ⟨hfound, hleast⟩ :=
    foldl_fasterHost (order.iter (g.online.insert host latency)) ("", maxDelay)
  refine ⟨_, rfl, ?_⟩
  rcases hfound with hnone | ⟨⟨best, delay⟩, hbest, hpositive, heq⟩
  · -- the sentinel is left, and no latency is as large
    left
    rw [hnone] at hleast ⊢
    refine ⟨rfl, ?_⟩
    intro host' latency' honline
    by_contra hpositive
    have hle := hleast ⟨host', latency'⟩ ((hentries _ _).mpr honline) (Int.not_le.mp hpositive)
    exact absurd (hreports host' latency' honline).2 (Int.not_lt.mpr hle)
  · right
    rw [heq] at hleast ⊢
    rw [hentries] at hbest
    refine ⟨(hreports best delay hbest).1, delay, hbest, hpositive, ?_⟩
    intro host' latency' honline hpositive'
    exact hleast ⟨host', latency'⟩ ((hentries _ _).mpr honline) hpositive'

/-- **One call**, in any state whose hosts and latencies are such that the search finds
them: the remembered server is the fastest, if there is one, and unchanged otherwise. -/
theorem server_updateLatency (g : Globals) (host : String) (latency : Int) (order : IterOrder)
    (hreports : ∀ host' latency', (g.updateLatency host latency order).Online host' latency' →
      host' ≠ "" ∧ latency' < maxDelay) :
    ((∃ host' latency', (g.updateLatency host latency order).Online host' latency' ∧
        0 < latency') →
      Fastest (g.updateLatency host latency order).Online
        (g.updateLatency host latency order).config2.rendezvousServer) ∧
    ((∀ host' latency', (g.updateLatency host latency order).Online host' latency' →
        latency' ≤ 0) →
      (g.updateLatency host latency order).config2.rendezvousServer =
        g.config2.rendezvousServer) := by
  obtain ⟨best, hbest, ⟨hname, hnothing⟩ | ⟨hname, hfastest⟩⟩ :=
    search_answer g host latency order hreports
  · rw [server_of_search g host latency order hbest, if_pos hname]
    constructor
    · rintro ⟨host', latency', honline, hpositive⟩
      exact absurd hpositive (Int.not_lt.mpr (hnothing host' latency' honline))
    · intro _
      rfl
  · rw [server_of_search g host latency order hbest, if_neg hname]
    constructor
    · intro _
      exact hfastest
    · intro hnothing
      obtain ⟨delay, honline, hpositive, -⟩ := hfastest
      exact absurd hpositive (Int.not_lt.mpr (hnothing best.1 delay honline))

end Globals

/-! ## Every run -/

/-- **The best server is kept.** Over any calls from a start of the program, whatever
the configuration is and however the map is iterated over: after a call of
`update_latency` the map holds each host's latest latency since the last reset, and
the remembered server is a host with the smallest positive one, if there is one, and
otherwise the one that was remembered before. -/
theorem update_latency_keeps_best {g : Globals} (hstart : g.online = ∅) (calls : List Call)
    (host : String) (latency : Int) (order : IterOrder)
    (hreports : ∀ call ∈ calls ++ [.updateLatency host latency order], call.Reports) :
    let calls' := calls ++ [.updateLatency host latency order]
    (∀ host' latency', (calls'.foldl step g).Online host' latency' ↔
      Reported calls' host' latency') ∧
    ((∃ host' latency', Reported calls' host' latency' ∧ 0 < latency') →
      Fastest (Reported calls') (calls'.foldl step g).config2.rendezvousServer) ∧
    ((∀ host' latency', Reported calls' host' latency' → latency' ≤ 0) →
      (calls'.foldl step g).config2.rendezvousServer =
        (calls.foldl step g).config2.rendezvousServer) := by
  have honline := reported_iff hstart (calls ++ [.updateLatency host latency order])
  refine ⟨honline, ?_⟩
  rw [List.foldl_concat] at honline ⊢
  have hvalid : ∀ host' latency', ((calls.foldl step g).updateLatency host latency order).Online
      host' latency' → host' ≠ "" ∧ latency' < Globals.maxDelay := by
    intro host' latency' h
    obtain ⟨_, hcall, order', rfl⟩ := ((honline host' latency').mp h).mem
    exact hreports _ hcall
  have hsame : Reported (calls ++ [.updateLatency host latency order]) =
      ((calls.foldl step g).updateLatency host latency order).Online := by
    funext host' latency'
    exact propext (honline host' latency').symm
  rw [hsame]
  exact (calls.foldl step g).server_updateLatency host latency order hvalid

/-- The best server becomes unreachable. -/
def unreachable : List Call :=
  [.updateLatency "a" 20 .byName, .updateLatency "b" 30 .byName]

theorem update_latency_keeps_best_unreachable :
    (∀ call ∈ unreachable ++ [Call.updateLatency "a" 0 .byName], call.Reports) ∧
      Reported (unreachable ++ [.updateLatency "a" 0 .byName]) "b" 30 ∧
      Fastest (Reported (unreachable ++ [.updateLatency "a" 0 .byName]))
        ((unreachable ++ [Call.updateLatency "a" 0 .byName]).foldl step
          Globals.fresh).config2.rendezvousServer := by
  have hreports : ∀ call ∈ unreachable ++ [Call.updateLatency "a" 0 .byName], call.Reports := by
    simp [unreachable, Call.Reports, Globals.maxDelay]
  have hb : Reported (unreachable ++ [.updateLatency "a" 0 .byName]) "b" 30 := by
    refine ⟨[.updateLatency "a" 20 .byName], .updateLatency "b" 30 .byName,
      [.updateLatency "a" 0 .byName], rfl, ⟨.byName, rfl⟩, ?_⟩
    simp
  have hbest := (update_latency_keeps_best (g := .fresh) rfl unreachable "a" 0 .byName hreports).2.1
  exact ⟨hreports, hb, hbest ⟨"b", 30, hb, by decide⟩⟩

end RustdeskServer.Configuration
