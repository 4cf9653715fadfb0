import RustdeskServer.Framework.Text
import RustdeskServer.Rendezvous.AddrMangle

/-!
# The version in a download's name (`get_version_from_url`)

The version follows the last dash, and an extension may follow its last dot.
Positions are counted from the end, and what follows the last dot counts as an
extension when it cannot be read as an `i32`. A last component that is a number
but not an `i32` is therefore left out of the version.
-/

namespace RustdeskServer.Rendezvous.VersionUrl

open RustdeskServer.Framework
open RustdeskServer.Rendezvous.AddrMangle (Panic sub)

/-- How many characters follow the last `sep`. -/
def fromEnd (sep : Char) (url : List Char) : Option ℕ := url.reverse.findIdx? (· = sep)

/-- `url.chars().skip(n)` for the last `k` of the characters -/
def skipTo (url : List Char) (k : ℕ) : Except Panic (List Char) := do
  let n ← sub url.length k
  return url.drop n

def getVersionFromUrl (url : List Char) : Except Panic (List Char) :=
  match fromEnd '-' url with
  | none => return []
  | some a =>
      match fromEnd '.' url with
      | none => return []
      | some b =>
          if a > b then do
            let extension ← skipTo url b
            if (IntType.i32.read extension).isSome then
              skipTo url a
            else do
              let version ← skipTo url a
              let k ← sub a b
              let k ← sub k 1
              return version.take k
          else
            skipTo url a

/-! ## Positions -/

theorem fromEnd_append {sep : Char} (xs : List Char) {ys : List Char} (hys : sep ∉ ys) :
    fromEnd sep (xs ++ sep :: ys) = some ys.length := by
  have hnone : ys.reverse.findIdx? (· = sep) = none := by
    rw [List.findIdx?_eq_none_iff]
    intro c hc
    exact decide_eq_false fun heq => hys (heq ▸ List.mem_reverse.mp hc)
  simp [fromEnd, hnone, List.findIdx?_cons]

theorem fromEnd_lt {sep : Char} {url : List Char} {k : ℕ} (h : fromEnd sep url = some k) :
    k < url.length := by
  obtain ⟨hlt, -⟩ := List.findIdx?_eq_some_iff_getElem.mp h
  rwa [List.length_reverse] at hlt

theorem skipTo_of_le {url : List Char} {k : ℕ} (h : k ≤ url.length) :
    skipTo url k = .ok (url.drop (url.length - k)) := by
  simp [skipTo, sub, h]

theorem skipTo_append (xs ys : List Char) : skipTo (xs ++ ys) ys.length = .ok ys := by
  rw [skipTo_of_le (by simp)]
  simp

/-- **No underflow.** Every subtraction stays at zero or above, for any string. -/
theorem getVersionFromUrl_ok (url : List Char) :
    ∃ version, getVersionFromUrl url = .ok version := by
  unfold getVersionFromUrl
  cases ha : fromEnd '-' url with
  | none => exact ⟨[], rfl⟩
  | some a =>
      cases hb : fromEnd '.' url with
      | none => exact ⟨[], rfl⟩
      | some b =>
          have hskipA := skipTo_of_le (fromEnd_lt ha).le
          have hskipB := skipTo_of_le (fromEnd_lt hb).le
          by_cases hab : a > b
          · have hsub : sub a b = .ok (a - b) := if_pos hab.le
            have hsub' : sub (a - b) 1 = .ok (a - b - 1) := if_pos (by omega)
            simp only [hab, if_true, hskipA, hskipB, hsub, hsub', bind, Except.bind]
            split
            · exact ⟨_, rfl⟩
            · exact ⟨_, rfl⟩
          · simp only [hab, if_false, hskipA]
            exact ⟨_, rfl⟩

/-! ## What follows the last dash -/

/-- What follows the last dot is kept when it can be read, and is dropped otherwise. -/
theorem getVersionFromUrl_dotted (p : List Char) {v e : List Char} (hv : '-' ∉ v)
    (hdash : '-' ∉ e) (hdot : '.' ∉ e) :
    getVersionFromUrl (p ++ '-' :: (v ++ '.' :: e)) =
      .ok (if (IntType.i32.read e).isSome then v ++ '.' :: e else v) := by
  have ha : fromEnd '-' (p ++ '-' :: (v ++ '.' :: e)) = some (v.length + (e.length + 1)) := by
    rw [fromEnd_append p (by simp [hv, hdash])]
    simp
  have hb : fromEnd '.' (p ++ '-' :: (v ++ '.' :: e)) = some e.length := by
    have h := fromEnd_append (p ++ '-' :: v) hdot
    simpa using h
  have hskipA := skipTo_append (p ++ ['-']) (v ++ '.' :: e)
  have hskipB := skipTo_append (p ++ '-' :: (v ++ ['.'])) e
  simp only [List.append_assoc, List.cons_append, List.nil_append, List.length_append,
    List.length_cons] at hskipA hskipB
  have hgt : v.length + (e.length + 1) > e.length := by omega
  have hsub : sub (v.length + (e.length + 1)) e.length = .ok (v.length + 1) := by
    rw [sub, if_pos hgt.le]
    congr 1
    omega
  have hsub' : sub (v.length + 1) 1 = .ok v.length := if_pos (by omega)
  unfold getVersionFromUrl
  simp only [ha, hb, hgt, if_true, hskipA, hskipB, hsub, hsub', bind, Except.bind, pure,
    Except.pure]
  split
  · rfl
  · simp

/-- A dot before the last dash separates nothing. -/
theorem getVersionFromUrl_dotless (p : List Char) {q v : List Char} (hq : '.' ∉ q)
    (hdash : '-' ∉ v) (hdot : '.' ∉ v) :
    getVersionFromUrl (p ++ '.' :: (q ++ '-' :: v)) = .ok v := by
  have ha : fromEnd '-' (p ++ '.' :: (q ++ '-' :: v)) = some v.length := by
    have h := fromEnd_append (p ++ '.' :: q) hdash
    simpa using h
  have hb : fromEnd '.' (p ++ '.' :: (q ++ '-' :: v)) = some (q.length + (v.length + 1)) := by
    rw [fromEnd_append p (by simp [hq, hdot])]
    simp
  have hskip := skipTo_append (p ++ '.' :: (q ++ ['-'])) v
  simp only [List.append_assoc, List.cons_append, List.nil_append] at hskip
  have hle : ¬ v.length > q.length + (v.length + 1) := by omega
  unfold getVersionFromUrl
  simp only [ha, hb, hle, if_false, hskip]

/-! ## Versions -/

/-- A run of decimal digits. -/
def Component : Type := {text : List Char // text ≠ [] ∧ text.all Char.isDigit}

structure Version where
  components : List Component
  several : 2 ≤ components.length

namespace Version

def text (v : Version) : List Char := ['.'].intercalate (v.components.map (·.val))

theorem components_ne_nil (v : Version) : v.components ≠ [] := by
  intro h
  simpa [h] using v.several

def last (v : Version) : Component := v.components.getLast v.components_ne_nil

end Version

theorem Component.notMem {c : Char} (hc : c.isDigit = false) (x : Component) : c ∉ x.val := by
  intro h
  have hdigit := List.all_eq_true.mp x.property.2 c h
  rw [hc] at hdigit
  cases hdigit

theorem Version.text_eq (v : Version) : ∃ front, v.text = front ++ '.' :: v.last.val := by
  have hsplit : v.components = v.components.dropLast ++ [v.last] :=
    (List.dropLast_append_getLast v.components_ne_nil).symm
  have hfront : v.components.dropLast.map (·.val) ≠ [] := by
    have hlength := v.several
    intro h
    have := congrArg List.length h
    simp only [List.length_map, List.length_dropLast, List.length_nil] at this
    omega
  refine ⟨['.'].intercalate (v.components.dropLast.map (·.val)), ?_⟩
  rw [text]
  conv_lhs => rw [hsplit, List.map_append]
  rw [List.map_singleton, intercalate_concat ['.'] v.last.val hfront, List.append_assoc]
  rfl

theorem Version.dash_notMem (v : Version) : '-' ∉ v.text := by
  intro h
  rcases mem_intercalate h with hdot | ⟨x, hx, hc⟩
  · cases List.mem_singleton.mp hdot
  · obtain ⟨component, -, rfl⟩ := List.mem_map.mp hx
    exact component.notMem rfl hc

/-- A component can be read as an `i32` when its value is one. -/
theorem Component.read_isSome (x : Component) :
    (IntType.i32.read x.val).isSome ↔ Nat.ofDigitChars 10 x.val 0 < 2 ^ 31 := by
  rw [IntType.read_eq, numeral_digits x.property.1 x.property.2, Option.bind_some,
    IntType.checked]
  have hmax : IntType.i32.max = 2147483647 := rfl
  have hmin : IntType.i32.min = -2147483648 := rfl
  split
  · simp only [Option.isSome_some, true_iff]
    simp only [signed, if_true] at *
    omega
  · simp only [Option.isSome_none, Bool.false_eq_true, false_iff]
    simp only [signed, if_true] at *
    omega

/-- **Extraction.** No subtraction underflows, and the version is found before an
extension and without one, exactly when its last component is an `i32`. -/
theorem getVersionFromUrl_extracts (p : List Char) (v : Version) {e : List Char}
    (hdot : '.' ∉ e) (hdash : '-' ∉ e) (hnumeral : numeral e = none) :
    ((∀ url, ∃ found, getVersionFromUrl url = .ok found) ∧
      getVersionFromUrl (p ++ '-' :: (v.text ++ '.' :: e)) = .ok v.text ∧
      getVersionFromUrl (p ++ '-' :: v.text) = .ok v.text) ↔
      Nat.ofDigitChars 10 v.last.val 0 < 2 ^ 31 := by
  have hextension : getVersionFromUrl (p ++ '-' :: (v.text ++ '.' :: e)) = .ok v.text := by
    rw [getVersionFromUrl_dotted p v.dash_notMem hdash hdot, IntType.read_eq, hnumeral]
    rfl
  obtain ⟨front, htext⟩ := v.text_eq
  have hfront : '-' ∉ front := by
    intro h
    apply v.dash_notMem
    rw [htext]
    exact List.mem_append_left _ h
  have hplain := getVersionFromUrl_dotted p hfront (v.last.notMem (c := '-') rfl)
    (v.last.notMem (c := '.') rfl)
  rw [← htext] at hplain
  rw [← v.last.read_isSome]
  constructor
  · rintro ⟨-, -, h⟩
    rw [hplain] at h
    by_contra hread
    rw [if_neg hread, htext] at h
    have hlength := congrArg List.length (Except.ok.inj h)
    simp at hlength
  · intro hread
    refine ⟨getVersionFromUrl_ok, hextension, ?_⟩
    rw [hplain, if_pos hread]

theorem getVersionFromUrl_extracts_exe :
    getVersionFromUrl "rustdesk-1.20.exe".toList = .ok "1.20".toList ∧
      getVersionFromUrl "rustdesk-1.20".toList = .ok "1.20".toList := by
  obtain ⟨-, hextension, hplain⟩ := (getVersionFromUrl_extracts "rustdesk".toList
    ⟨[⟨"1".toList, by decide⟩, ⟨"20".toList, by decide⟩], by decide⟩
    (e := "exe".toList) (by decide) (by decide) (by decide)).mpr (by decide)
  exact ⟨hextension, hplain⟩

/-- A time stamp as the last component is taken for an extension. -/
theorem getVersionFromUrl_drops_last :
    ¬ ∀ (p : List Char) (v : Version), getVersionFromUrl (p ++ '-' :: v.text) = .ok v.text := by
  intro h
  have hstamp := h "rustdesk".toList
    ⟨[⟨"1".toList, by decide⟩, ⟨"20231115093000".toList, by decide⟩], by decide⟩
  revert hstamp
  decide

end RustdeskServer.Rendezvous.VersionUrl
