import Mathlib.Data.List.Basic
import Mathlib.Tactic.Common

/-!
# Resumable decoders

A decoder takes items off the front of a read buffer and may keep a state
between calls. Bytes arrive in chunks; after each chunk the decoder is called
until it asks for more or fails. `drain` is that inner loop and `feedAll` the
outer one.

A decoder is *resumable* when waiting never changes the answer: an item found
in a short buffer is found in a longer one, and a call that asked for more can
be repeated after more has come as if it had never been made. For resumable
decoders the cut into chunks is invisible (`feedAll_eq_drain`).
-/

namespace RustdeskServer.Framework

/-- A decoder: one call takes an item, asks for more, or fails, and leaves a
state and the rest of the buffer. `size` drops with every item, so the drain
loop terminates. -/
structure Decoder (σ α ι ε : Type) where
  decode : σ → List α → Except ε (Option ι) × σ × List α
  size : σ → List α → ℕ
  size_lt : ∀ {s b i s' r}, decode s b = (.ok (some i), s', r) →
    size s' r < size s b

namespace Decoder

variable {σ α ι ε : Type} (D : Decoder σ α ι ε)

/-- What a drain leaves behind: the items in order, the error if it stopped at
one, the state and the unread bytes. -/
structure Drained (σ α ι ε : Type) where
  items : List ι
  error : Option ε
  state : σ
  rest : List α

/-- Items taken earlier come first. -/
def Drained.prepend (is : List ι) (d : Drained σ α ι ε) : Drained σ α ι ε :=
  { d with items := is ++ d.items }

/-- Call the decoder until it asks for more or fails. -/
def drain (s : σ) (b : List α) : Drained σ α ι ε :=
  match _h : D.decode s b with
  | (.ok (some i), s', r) => (drain s' r).prepend [i]
  | (.ok none, s', r) => ⟨[], none, s', r⟩
  | (.error e, s', r) => ⟨[], some e, s', r⟩
termination_by D.size s b
decreasing_by exact D.size_lt _h

/-- Append the chunks one by one and drain after each. After an error the
remaining chunks only pile up in the buffer. -/
def feedAll (s : σ) (b : List α) : List (List α) → Drained σ α ι ε
  | [] => ⟨[], none, s, b⟩
  | c :: cs =>
      let d := D.drain s (b ++ c)
      match d.error with
      | none => (feedAll d.state d.rest cs).prepend d.items
      | some _ => { d with rest := d.rest ++ cs.flatten }

@[simp] theorem prepend_nil (d : Drained σ α ι ε) : d.prepend [] = d := rfl

@[simp] theorem prepend_prepend (is js : List ι) (d : Drained σ α ι ε) :
    (d.prepend js).prepend is = d.prepend (is ++ js) := by
  simp [Drained.prepend]

@[simp] theorem prepend_error (is : List ι) (d : Drained σ α ι ε) :
    (d.prepend is).error = d.error := rfl

@[simp] theorem prepend_items (is : List ι) (d : Drained σ α ι ε) :
    (d.prepend is).items = is ++ d.items := rfl

@[simp] theorem prepend_state (is : List ι) (d : Drained σ α ι ε) :
    (d.prepend is).state = d.state := rfl

@[simp] theorem prepend_rest (is : List ι) (d : Drained σ α ι ε) :
    (d.prepend is).rest = d.rest := rfl

variable {D}

/-! ## The three exits of the loop -/

theorem drain_item {s s' : σ} {b r : List α} {i : ι}
    (h : D.decode s b = (.ok (some i), s', r)) :
    D.drain s b = (D.drain s' r).prepend [i] := by
  rw [drain]
  split
  · rename_i heq
    rw [h] at heq
    cases heq
    rfl
  · rename_i heq
    rw [h] at heq
    cases heq
  · rename_i heq
    rw [h] at heq
    cases heq

theorem drain_more {s s' : σ} {b r : List α}
    (h : D.decode s b = (.ok none, s', r)) :
    D.drain s b = ⟨[], none, s', r⟩ := by
  rw [drain]
  split
  · rename_i heq
    rw [h] at heq
    cases heq
  · rename_i heq
    rw [h] at heq
    cases heq
    rfl
  · rename_i heq
    rw [h] at heq
    cases heq

theorem drain_fail {s s' : σ} {b r : List α} {e : ε}
    (h : D.decode s b = (.error e, s', r)) :
    D.drain s b = ⟨[], some e, s', r⟩ := by
  rw [drain]
  split
  · rename_i heq
    rw [h] at heq
    cases heq
  · rename_i heq
    rw [h] at heq
    cases heq
  · rename_i heq
    rw [h] at heq
    cases heq
    rfl

/-! ## Resumable decoders do not see chunk boundaries -/

variable (D)

/-- Waiting for bytes never changes the answer, on the states in `ok`. -/
structure Resumable (ok : σ → Prop) : Prop where
  keeps : ∀ {s b}, ok s → ok (D.decode s b).2.1
  item : ∀ {s b i s' r} (c), ok s → D.decode s b = (.ok (some i), s', r) →
    D.decode s (b ++ c) = (.ok (some i), s', r ++ c)
  more : ∀ {s b s' r} (c), ok s → D.decode s b = (.ok none, s', r) →
    D.decode s' (r ++ c) = D.decode s (b ++ c)
  fail : ∀ {s b e s' r} (c), ok s → D.decode s b = (.error e, s', r) →
    D.decode s (b ++ c) = (.error e, s', r ++ c)

/-- Nothing can be decoded from this state and buffer as they stand. -/
def Settled (s : σ) (b : List α) : Prop := D.decode s b = (.ok none, s, b)

variable {D} {ok : σ → Prop}

theorem drain_congr {s s' : σ} {b b' : List α}
    (h : D.decode s b = D.decode s' b') : D.drain s b = D.drain s' b' := by
  rcases hd : D.decode s' b' with ⟨e | _ | i, t, r⟩
  · rw [drain_fail hd, drain_fail (h.trans hd)]
  · rw [drain_more hd, drain_more (h.trans hd)]
  · rw [drain_item hd, drain_item (h.trans hd)]

/-- A drain that did not fail stops in a settled state. -/
theorem drain_settled (hR : D.Resumable ok) : ∀ {s : σ} {b : List α}, ok s →
    (D.drain s b).error = none →
      ok (D.drain s b).state ∧ D.Settled (D.drain s b).state (D.drain s b).rest := by
  intro s b
  induction s, b using drain.induct (D := D) with
  | case1 s b i s' r hd ih =>
      intro hs he
      rw [drain_item hd] at he ⊢
      have hs' : ok s' := by simpa [hd] using hR.keeps (b := b) hs
      exact ih hs' he
  | case2 s b s' r hd =>
      intro hs _
      rw [drain_more hd]
      have hs' : ok s' := by simpa [hd] using hR.keeps (b := b) hs
      refine ⟨hs', ?_⟩
      -- waiting with no new bytes repeats the call
      have hagain := hR.more [] hs hd
      rw [List.append_nil, List.append_nil, hd] at hagain
      exact hagain
  | case3 s b e s' r hd =>
      intro _ he
      rw [drain_fail hd] at he
      cases he

/-- **Draining a longer buffer** is draining its first part and going on with
what is left of it. -/
theorem drain_append (hR : D.Resumable ok) : ∀ {s : σ} {b : List α} (c : List α),
    ok s → D.drain s (b ++ c) =
      match (D.drain s b).error with
      | none => (D.drain (D.drain s b).state ((D.drain s b).rest ++ c)).prepend
          (D.drain s b).items
      | some _ => { D.drain s b with rest := (D.drain s b).rest ++ c } := by
  intro s b c
  induction s, b using drain.induct (D := D) with
  | case1 s b i s' r hd ih =>
      intro hs
      have hs' : ok s' := by simpa [hd] using hR.keeps (b := b) hs
      rw [drain_item (hR.item c hs hd), drain_item hd, ih hs']
      cases he : (D.drain s' r).error with
      | none => simp [he]
      | some e => simp [he, Drained.prepend]
  | case2 s b s' r hd =>
      intro hs
      rw [drain_more hd]
      exact (drain_congr (hR.more c hs hd)).symm
  | case3 s b e s' r hd =>
      intro hs
      rw [drain_fail hd, drain_fail (hR.fail c hs hd)]

/-- **Chunks are invisible.** From a settled state, feeding any cut of a byte
string into chunks gives what one drain of the whole string gives. -/
theorem feedAll_eq_drain (hR : D.Resumable ok) : ∀ (cs : List (List α)) {s : σ}
    {b : List α}, ok s → D.Settled s b →
      D.feedAll s b cs = D.drain s (b ++ cs.flatten) := by
  intro cs
  induction cs with
  | nil =>
      intro s b _ hset
      rw [List.flatten_nil, List.append_nil, drain_more hset]
      rfl
  | cons c cs ih =>
      intro s b hs hset
      rw [List.flatten_cons, ← List.append_assoc, drain_append hR cs.flatten hs]
      simp only [feedAll]
      cases he : (D.drain s (b ++ c)).error with
      | none =>
          obtain ⟨hok, hset'⟩ := drain_settled hR hs he
          simp only [ih hok hset']
      | some e => rfl

/-! ## End of stream

At the end of the stream a decoder is called once more, until it has no further
item; asking for more with bytes left in the buffer is then the error `e`. -/

variable (D) in
def decodeEof (e : ε) (s : σ) (b : List α) : Except ε (Option ι) × σ × List α :=
  match D.decode s b with
  | (.ok none, s', r) => if r.isEmpty then (.ok none, s', r) else (.error e, s', r)
  | res => res

theorem decodeEof_item {e : ε} {s s' : σ} {b r : List α} {i : ι}
    (h : D.decodeEof e s b = (.ok (some i), s', r)) :
    D.decode s b = (.ok (some i), s', r) := by
  unfold decodeEof at h
  split at h
  · split at h
    · cases h
    · cases h
  · exact h

variable (D) in
/-- The decoder of the end of the stream. -/
def closing (e : ε) : Decoder σ α ι ε where
  decode := D.decodeEof e
  size := D.size
  size_lt := fun h => D.size_lt (decodeEof_item h)

variable (D) in
/-- A whole stream: the chunks, and then its end. -/
def receive (e : ε) (s : σ) (b : List α) (cs : List (List α)) : Drained σ α ι ε :=
  let d := D.feedAll s b cs
  match d.error with
  | none => ((D.closing e).drain d.state d.rest).prepend d.items
  | some _ => d

theorem closing_settled {e : ε} {s : σ} {b : List α} (h : D.Settled s b) :
    (D.closing e).drain s b =
      ⟨[], if b.isEmpty then none else some e, s, b⟩ := by
  have hd : (D.closing e).decode s b =
      if b.isEmpty then (.ok none, s, b) else (.error e, s, b) := by
    show D.decodeEof e s b = _
    simp only [decodeEof, show D.decode s b = (.ok none, s, b) from h]
  by_cases hb : b.isEmpty
  · rw [if_pos hb] at hd ⊢
    exact drain_more hd
  · rw [if_neg hb] at hd ⊢
    exact drain_fail hd

/-- A stream that ends where the decoder waits is an error exactly when bytes
are left in the buffer. -/
theorem receive_eq (hR : D.Resumable ok) (e : ε) (cs : List (List α)) {s : σ}
    {b : List α} (hs : ok s) (hset : D.Settled s b)
    (hwait : (D.drain s (b ++ cs.flatten)).error = none) :
    D.receive e s b cs =
      { D.drain s (b ++ cs.flatten) with
        error := if (D.drain s (b ++ cs.flatten)).rest.isEmpty then none else some e } := by
  unfold receive
  simp only [feedAll_eq_drain hR cs hs hset, hwait]
  rw [closing_settled (drain_settled hR hs hwait).2]
  simp [Drained.prepend]

/-! ## A second stage behind a decoder

`andThen f` passes every item through `f`, which keeps a state of its own and
may refuse the item. A refusal is an error of the composed decoder; the first
stage has consumed the item all the same. -/

variable {τ κ : Type}

/-- One call of the two stages. -/
def decodeThen (D : Decoder σ α ι ε) (f : τ → ι → Except ε κ × τ) (s : σ × τ)
    (b : List α) : Except ε (Option κ) × (σ × τ) × List α :=
  match D.decode s.1 b with
  | (.ok (some i), s', r) =>
      match f s.2 i with
      | (.ok k, t') => (.ok (some k), (s', t'), r)
      | (.error e, t') => (.error e, (s', t'), r)
  | (.ok none, s', r) => (.ok none, (s', s.2), r)
  | (.error e, s', r) => (.error e, (s', s.2), r)

theorem decodeThen_item {f : τ → ι → Except ε κ × τ} {s s' : σ} {t t' : τ}
    {b r : List α} {i : ι} {k : κ} (hd : D.decode s b = (.ok (some i), s', r))
    (hf : f t i = (.ok k, t')) :
    D.decodeThen f (s, t) b = (.ok (some k), (s', t'), r) := by
  simp only [decodeThen, hd, hf]

theorem decodeThen_refuse {f : τ → ι → Except ε κ × τ} {s s' : σ} {t t' : τ}
    {b r : List α} {i : ι} {e : ε} (hd : D.decode s b = (.ok (some i), s', r))
    (hf : f t i = (.error e, t')) :
    D.decodeThen f (s, t) b = (.error e, (s', t'), r) := by
  simp only [decodeThen, hd, hf]

theorem decodeThen_more {f : τ → ι → Except ε κ × τ} {s s' : σ} {t : τ}
    {b r : List α} (hd : D.decode s b = (.ok none, s', r)) :
    D.decodeThen f (s, t) b = (.ok none, (s', t), r) := by
  simp only [decodeThen, hd]

theorem decodeThen_fail {f : τ → ι → Except ε κ × τ} {s s' : σ} {t : τ}
    {b r : List α} {e : ε} (hd : D.decode s b = (.error e, s', r)) :
    D.decodeThen f (s, t) b = (.error e, (s', t), r) := by
  simp only [decodeThen, hd]

/-- **The ways a call of the two stages can go**, by what each stage gave. -/
theorem decodeThen_cases (D : Decoder σ α ι ε) (f : τ → ι → Except ε κ × τ) (s : σ) (t : τ)
    (b : List α) :
    (∃ e u q, D.decode s b = (.error e, u, q) ∧
      D.decodeThen f (s, t) b = (.error e, (u, t), q)) ∨
    (∃ u q, D.decode s b = (.ok none, u, q) ∧
      D.decodeThen f (s, t) b = (.ok none, (u, t), q)) ∨
    (∃ i u q e t', D.decode s b = (.ok (some i), u, q) ∧ f t i = (.error e, t') ∧
      D.decodeThen f (s, t) b = (.error e, (u, t'), q)) ∨
    ∃ i u q k t', D.decode s b = (.ok (some i), u, q) ∧ f t i = (.ok k, t') ∧
      D.decodeThen f (s, t) b = (.ok (some k), (u, t'), q) := by
  rcases hd : D.decode s b with ⟨e | _ | i, u, q⟩
  · exact Or.inl ⟨e, u, q, rfl, decodeThen_fail hd⟩
  · exact Or.inr (Or.inl ⟨u, q, rfl, decodeThen_more hd⟩)
  · rcases hf : f t i with ⟨e | k, t'⟩
    · exact Or.inr (Or.inr (Or.inl ⟨i, u, q, e, t', rfl, hf, decodeThen_refuse hd hf⟩))
    · exact Or.inr (Or.inr (Or.inr ⟨i, u, q, k, t', rfl, hf, decodeThen_item hd hf⟩))

variable (D) in
def andThen (f : τ → ι → Except ε κ × τ) : Decoder (σ × τ) α κ ε where
  decode := D.decodeThen f
  size := fun s b => D.size s.1 b
  size_lt := by
    rintro ⟨s, t⟩ b k ⟨s', t'⟩ r h
    rcases D.decodeThen_cases f s t b with ⟨e, u, q, -, heq⟩ | ⟨u, q, -, heq⟩ |
      ⟨i, u, q, e, t'', -, -, heq⟩ | ⟨i, u, q, k', t'', hd, -, heq⟩
    all_goals
      rw [heq] at h
      cases h
    exact D.size_lt hd

/-- A second stage sees the items only, so it cannot tell how bytes arrived. -/
theorem andThen_resumable (hR : D.Resumable ok) (f : τ → ι → Except ε κ × τ) :
    (D.andThen f).Resumable (fun s => ok s.1) where
  keeps := by
    rintro ⟨s, t⟩ b hs
    have hk := hR.keeps (b := b) hs
    show ok (D.decodeThen f (s, t) b).2.1.1
    rcases D.decodeThen_cases f s t b with ⟨e, u, q, hd, heq⟩ | ⟨u, q, hd, heq⟩ |
      ⟨i, u, q, e, t', hd, -, heq⟩ | ⟨i, u, q, k, t', hd, -, heq⟩
    all_goals
      rw [heq]
      rw [hd] at hk
      exact hk
  item := by
    rintro ⟨s, t⟩ b k ⟨s', t'⟩ r c hs h
    change D.decodeThen f (s, t) b = _ at h
    show D.decodeThen f (s, t) (b ++ c) = _
    rcases D.decodeThen_cases f s t b with ⟨e, u, q, -, heq⟩ | ⟨u, q, -, heq⟩ |
      ⟨i, u, q, e, t'', -, -, heq⟩ | ⟨i, u, q, k', t'', hd, hf, heq⟩
    all_goals
      rw [heq] at h
      cases h
    exact decodeThen_item (hR.item c hs hd) hf
  more := by
    rintro ⟨s, t⟩ b ⟨s', t'⟩ r c hs h
    change D.decodeThen f (s, t) b = _ at h
    show D.decodeThen f (s', t') (r ++ c) = D.decodeThen f (s, t) (b ++ c)
    rcases D.decodeThen_cases f s t b with ⟨e, u, q, -, heq⟩ | ⟨u, q, hd, heq⟩ |
      ⟨i, u, q, e, t'', -, -, heq⟩ | ⟨i, u, q, k, t'', -, -, heq⟩
    all_goals
      rw [heq] at h
      cases h
    simp only [decodeThen, hR.more c hs hd]
  fail := by
    rintro ⟨s, t⟩ b e ⟨s', t'⟩ r c hs h
    change D.decodeThen f (s, t) b = _ at h
    show D.decodeThen f (s, t) (b ++ c) = _
    rcases D.decodeThen_cases f s t b with ⟨e', u, q, hd, heq⟩ | ⟨u, q, -, heq⟩ |
      ⟨i, u, q, e', t'', hd, hf, heq⟩ | ⟨i, u, q, k, t'', -, -, heq⟩
    all_goals
      rw [heq] at h
      cases h
    · exact decodeThen_fail (hR.fail c hs hd)
    · exact decodeThen_refuse (hR.item c hs hd) hf

end Decoder

end RustdeskServer.Framework
