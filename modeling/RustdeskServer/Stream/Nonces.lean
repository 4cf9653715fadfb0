import RustdeskServer.Stream.Session

/-!
# Which nonces are used

Each endpoint seals its messages under `1, 2, 3, …`; with one key for both
directions the two sequences are the same. So within a session nonces are used
once exactly as long as one of the two endpoints keeps silent.
-/

namespace RustdeskServer.Stream

open RustdeskServer.Codec

variable {Key : Type}

/-- No two seal calls of the session share nonce and key. -/
def NoncesDistinct (c : Session Key) : Prop :=
  (c.seals.map fun s => (s.nonce, s.key)).Nodup

theorem ofNat_succ_inj {i j : ℕ} (hi : i + 1 < 2 ^ 64) (hj : j + 1 < 2 ^ 64)
    (h : UInt64.ofNat (i + 1) = UInt64.ofNat (j + 1)) : i = j := by
  have hnat := congrArg UInt64.toNat h
  rw [UInt64.toNat_ofNat_of_lt' hi, UInt64.toNat_ofNat_of_lt' hj] at hnat
  omega

theorem sealCalls_nonces (key : Key) (ms : List Bytes) :
    (sealCalls key ms).map (fun s => (s.nonce, s.key)) =
      (List.range ms.length).map fun i => (getNonce (UInt64.ofNat (i + 1)), key) := by
  apply List.ext_getElem
  · simp [sealCalls]
  · intro i h1 h2
    simp [sealCalls]

theorem sealCalls_nodup (key : Key) {ms : List Bytes} (h : ms.length < 2 ^ 64) :
    ((sealCalls key ms).map fun s => (s.nonce, s.key)).Nodup := by
  rw [sealCalls_nonces]
  apply List.Nodup.map_on _ List.nodup_range
  intro i hi j hj heq
  rw [List.mem_range] at hi hj
  have hnonce := getNonce_injective (Prod.mk.inj heq).1
  exact ofNat_succ_inj (by omega) (by omega) hnonce

theorem counted_run (box : SecretBox Key) (key : Key) (acts : List Action) :
    ∀ side, Counted key (Session.run box key acts side) := by
  suffices h : ∀ (acts : List Action) (c : Session Key), (∀ side, Counted key (c side)) →
      ∀ side, Counted key (acts.foldl (Session.step box) c side) from
    h acts _ fun _ => counted_start key
  intro acts
  induction acts with
  | nil => intro c hc; exact hc
  | cons act acts ih => intro c hc; exact ih _ (counted_step hc box act)

theorem seals_run (box : SecretBox Key) (key : Key) (acts : List Action) :
    (Session.run box key acts).seals =
      sealCalls key (sends .a acts) ++ sealCalls key (sends .b acts) := by
  have hpassed : ∀ side, (Session.run box key acts side).passed = sends side acts := by
    intro side
    rw [Session.run, passed_foldl]
    rfl
  unfold Session.seals
  rw [(counted_run box key acts .a).seals_eq, (counted_run box key acts .b).seals_eq,
    hpassed, hpassed]

/-- **Nonce reuse, exactly.** In a run with fewer than `2^64` messages on each
side, the seal calls have distinct nonces if and only if at most one of the two
endpoints sends. -/
theorem nonces_distinct_iff (box : SecretBox Key) (key : Key) (acts : List Action)
    (hbound : ∀ side, (sends side acts).length < 2 ^ 64) :
    NoncesDistinct (Session.run box key acts) ↔
      sends .a acts = [] ∨ sends .b acts = [] := by
  unfold NoncesDistinct
  rw [seals_run, List.map_append]
  constructor
  · intro hnodup
    by_contra hboth
    simp only [not_or] at hboth
    -- both endpoints sealed their first message under nonce 1
    have hfirst : ∀ side, sends side acts ≠ [] → (getNonce 1, key) ∈
        (sealCalls key (sends side acts)).map fun s => (s.nonce, s.key) := by
      intro side hne
      rw [sealCalls_nonces]
      exact List.mem_map.mpr
        ⟨0, List.mem_range.mpr (List.length_pos_of_ne_nil hne), rfl⟩
    exact (List.nodup_append.mp hnodup).2.2 _ (hfirst .a hboth.1) _
      (hfirst .b hboth.2) rfl
  · rintro (ha | hb)
    · rw [ha]
      simpa [sealCalls] using sealCalls_nodup key (hbound .b)
    · rw [hb]
      simpa [sealCalls] using sealCalls_nodup key (hbound .a)

/-- One endpoint sends twice, the other only receives. -/
theorem nonces_distinct_iff_one_sender :
    (∀ side, (sends side [.send .a [1], .send .a [2]]).length < 2 ^ 64) ∧
      (NoncesDistinct (Session.run tagBox () [.send .a [1], .send .a [2]]) ↔
        sends .a [.send .a [1], .send .a [2]] = [] ∨
          sends .b [.send .a [1], .send .a [2]] = []) :=
  have hbound : ∀ side, (sends side [.send .a [1], .send .a [2]]).length < 2 ^ 64 := by
    intro side
    cases side <;> decide
  ⟨hbound, nonces_distinct_iff tagBox () _ hbound⟩

/-- One message each way is enough to use nonce 1 twice. -/
theorem nonce_reused :
    (∀ side, (sends side [.send .a [1], .send .b [2]]).length < 2 ^ 64) ∧
      ¬ NoncesDistinct (Session.run tagBox () [.send .a [1], .send .b [2]]) := by
  refine ⟨?_, ?_⟩
  · intro side
    cases side <;> decide
  · unfold NoncesDistinct
    decide

end RustdeskServer.Stream
