import RustdeskServer.Framework.Text
import Mathlib.Data.List.Basic

/-!
# Unix paths as `std::path` reads them

A path is its string. `parts` cuts it at the separators; `components` is what
`Path::components` yields (empty parts and `.` dropped, except a leading `.`);
`join` is `Path::join`. `resolve` folds the components over a stack, which is
the lexical meaning of `.` and `..`.

The results are about what stays under a base: a relative path that never
climbs above its start (`Stays`) resolves, joined to any base, to something
inside that base, and so does every directory on the way (`inside_join`,
`leading_join`). Appending a suffix to a path changes its last part only, which
gives the same for suffixed paths (`inside_join_suffix`) and keeps a path apart
from its suffixed form (`resolve_suffix_ne`).
-/

namespace RustdeskServer.Framework

abbrev PathBuf : Type := List Char

inductive Component where
  | rootDir
  | curDir
  | parentDir
  | normal (name : List Char)
deriving DecidableEq, Repr

namespace PathBuf

def parts (p : PathBuf) : List (List Char) := p.splitOn '/'

def isAbsolute (p : PathBuf) : Bool := p.head? == some '/'

/-- The component a part stands for, away from the front of a path. -/
def partComponent (part : List Char) : Option Component :=
  if part = [] ∨ part = ['.'] then none
  else if part = ['.', '.'] then some .parentDir
  else some (.normal part)

/-- What a path's front adds: the root, or a leading `.`. -/
def lead (p : PathBuf) : List Component :=
  if p.isAbsolute then [.rootDir]
  else if p.parts.head? = some ['.'] then [.curDir]
  else []

def body (p : PathBuf) : List Component := p.parts.filterMap partComponent

/-- `Path::components` -/
def components (p : PathBuf) : List Component := p.lead ++ p.body

/-- `Path::join` -/
def join (p q : PathBuf) : PathBuf :=
  if q.isAbsolute then q
  else if p = [] ∨ p.getLast? = some '/' then p ++ q
  else p ++ '/' :: q

/-- `Path::parent`, as the list of its components. -/
def parent (p : PathBuf) : Option (List Component) :=
  match p.components.getLast? with
  | none | some .rootDir => none
  | some _ => some p.components.dropLast

/-- A file name cut at its last dot, unless that is its first character. -/
def splitAtDot (name : List Char) : List Char × Option (List Char) :=
  let after := (name.reverse.takeWhile (· ≠ '.')).reverse
  let before := (name.reverse.dropWhile (· ≠ '.')).tail.reverse
  if '.' ∉ name ∨ before = [] then (name, none) else (before, some after)

/-- The parts up to the last component, innermost first. -/
def trimmed (p : PathBuf) : List (List Char) :=
  p.parts.reverse.dropWhile fun part => part = [] ∨ part = ['.']

/-- `Path::file_name` -/
def fileName (p : PathBuf) : Option (List Char) :=
  match p.trimmed with
  | [] => none
  | part :: _ => if part = ['.', '.'] then none else some part

/-- `Path::file_stem` -/
def fileStem (p : PathBuf) : Option (List Char) := p.fileName.map fun f => (splitAtDot f).1

/-- `Path::extension` -/
def extension (p : PathBuf) : Option (List Char) := p.fileName.bind fun f => (splitAtDot f).2

/-- `Path::with_extension` for a non-empty extension -/
def withExtension (p : PathBuf) (ext : List Char) : PathBuf :=
  match p.trimmed with
  | [] => p
  | part :: front =>
      if part = ['.', '.'] then p
      else ['/'].intercalate (front.reverse ++ [(splitAtDot part).1 ++ '.' :: ext])

end PathBuf

/-- One component on a stack of resolved ones (the innermost is last). -/
def push (stack : List Component) : Component → List Component
  | .curDir => stack
  | .rootDir => [.rootDir]
  | .normal name => stack ++ [.normal name]
  | .parentDir =>
      match stack.getLast? with
      | some (.normal _) => stack.dropLast
      | some .rootDir => stack
      | _ => stack ++ [.parentDir]

/-- The components left once `.` and `..` are resolved. -/
def resolve (cs : List Component) : List Component := cs.foldl push []

/-- `cs` leads to `base` or to a place below it. -/
def Inside (base cs : List Component) : Prop :=
  ∃ names : List (List Char), resolve cs = resolve base ++ names.map .normal

/-- Walking `cs` from `depth` levels below the start never climbs above it. -/
def Stays : ℕ → List Component → Prop
  | _, [] => True
  | depth, .normal _ :: cs => Stays (depth + 1) cs
  | 0, .parentDir :: _ => False
  | depth + 1, .parentDir :: cs => Stays depth cs
  | depth, .curDir :: cs => Stays depth cs
  | _, .rootDir :: _ => False

instance Stays.decidable : ∀ depth cs, Decidable (Stays depth cs)
  | _, [] => .isTrue trivial
  | depth, .normal _ :: cs => Stays.decidable (depth + 1) cs
  | 0, .parentDir :: _ => .isFalse id
  | depth + 1, .parentDir :: cs => Stays.decidable depth cs
  | depth, .curDir :: cs => by unfold Stays; exact Stays.decidable depth cs
  | _, .rootDir :: _ => by unfold Stays; exact .isFalse id

/-- A name that may be joined to a base without leaving it. -/
def PathBuf.Relative (q : PathBuf) : Prop := q.isAbsolute = false ∧ Stays 0 q.body

instance (q : PathBuf) : Decidable q.Relative :=
  inferInstanceAs (Decidable (_ ∧ _))

/-! ## The stack -/

theorem push_below (base : List Component) (names : List (List Char)) {c : Component}
    {cs : List Component} (h : Stays names.length (c :: cs)) :
    ∃ names' : List (List Char),
      push (base ++ names.map .normal) c = base ++ names'.map .normal ∧
        Stays names'.length cs := by
  cases c with
  | curDir => exact ⟨names, rfl, by simpa only [Stays] using h⟩
  | rootDir => exact absurd h (by simp [Stays])
  | normal name =>
      refine ⟨names ++ [name], by simp [push], ?_⟩
      simpa [Stays] using h
  | parentDir =>
      rcases List.eq_nil_or_concat names with rfl | ⟨front, name, rfl⟩
      · exact absurd h id
      · refine ⟨front, ?_, ?_⟩
        · have hlast : (base ++ (front.concat name).map Component.normal) =
              (base ++ front.map .normal) ++ [.normal name] := by simp
          rw [hlast]
          simp [push]
        · have hlen : (front.concat name).length = front.length + 1 := by simp
          rw [hlen] at h
          exact h

/-- **Staying below.** A walk that never climbs above its start ends below the
stack it starts from, whatever that stack is. -/
theorem foldl_push_below (base cs : List Component) (names : List (List Char))
    (h : Stays names.length cs) :
    ∃ names' : List (List Char),
      cs.foldl push (base ++ names.map .normal) = base ++ names'.map .normal := by
  induction cs generalizing names with
  | nil => exact ⟨names, rfl⟩
  | cons c cs ih =>
      obtain ⟨names', hpush, hrest⟩ := push_below base names h
      obtain ⟨final, hfinal⟩ := ih names' hrest
      exact ⟨final, by rw [List.foldl_cons, hpush, hfinal]⟩

/-- Staying is monotone in the rest of the walk. -/
theorem Stays.cons_mono {cs cs' : List Component}
    (hcs : ∀ depth, Stays depth cs → Stays depth cs') {depth : ℕ} {c : Component}
    (h : Stays depth (c :: cs)) : Stays depth (c :: cs') := by
  cases c with
  | curDir =>
      simp only [Stays] at h ⊢
      exact hcs depth h
  | rootDir => exact absurd h (by simp [Stays])
  | normal name =>
      simp only [Stays] at h ⊢
      exact hcs (depth + 1) h
  | parentDir =>
      cases depth with
      | zero => exact absurd h id
      | succ depth =>
          simp only [Stays] at h ⊢
          exact hcs depth h

theorem Stays.initial {cs pre : List Component} (hpre : pre <+: cs) {depth : ℕ}
    (h : Stays depth cs) : Stays depth pre := by
  obtain ⟨rest, rfl⟩ := hpre
  induction pre generalizing depth with
  | nil => simp [Stays]
  | cons c pre ih => exact Stays.cons_mono (fun depth => ih) h

theorem Stays.append_normal {name : List Char} {depth : ℕ} {cs : List Component}
    (h : Stays depth cs) : Stays depth (cs ++ [.normal name]) := by
  induction cs generalizing depth with
  | nil => simp [Stays]
  | cons c cs ih => exact Stays.cons_mono (fun depth => ih) h

/-! ## Parts of a joined and of a suffixed path -/

namespace PathBuf

theorem parts_cons (c : Char) (p : PathBuf) :
    parts (c :: p) = if c = '/' then [] :: p.parts else p.parts.modifyHead (c :: ·) := by
  simp [parts, List.splitOn_cons_eq_if_modifyHead]

theorem parts_ne_nil (p : PathBuf) : p.parts ≠ [] := List.splitOn_ne_nil _ _

theorem parts_slash (p q : PathBuf) : parts (p ++ '/' :: q) = p.parts ++ q.parts :=
  List.splitOn_append_cons_self p q

theorem body_slash (p q : PathBuf) : body (p ++ '/' :: q) = p.body ++ q.body := by
  rw [body, parts_slash, List.filterMap_append, body, body]

theorem body_nil : body [] = [] := rfl

/-- Text appended to a path lands in its last part. -/
theorem parts_append (d : List Char) (hd : '/' ∉ d) (p : PathBuf) :
    ∃ front last, p.parts = front ++ [last] ∧ parts (p ++ d) = front ++ [last ++ d] := by
  induction p with
  | nil => exact ⟨[], [], rfl, by simpa [parts] using List.splitOn_eq_singleton hd⟩
  | cons c p ih =>
      obtain ⟨front, last, hp, hpd⟩ := ih
      rw [List.cons_append, parts_cons, parts_cons, hp, hpd]
      by_cases hc : c = '/'
      · exact ⟨[] :: front, last, by rw [if_pos hc, List.cons_append],
          by rw [if_pos hc, List.cons_append]⟩
      · rw [if_neg hc, if_neg hc]
        cases front with
        | nil => exact ⟨[], c :: last, rfl, rfl⟩
        | cons first front => exact ⟨(c :: first) :: front, last, rfl, rfl⟩

theorem isAbsolute_append {p : PathBuf} (hp : p ≠ []) (q : List Char) :
    isAbsolute (p ++ q) = p.isAbsolute := by
  cases p with
  | nil => exact absurd rfl hp
  | cons c p => rfl

theorem join_relative {p q : PathBuf} (hq : q.isAbsolute = false) :
    p.join q = if p = [] ∨ p.getLast? = some '/' then p ++ q else p ++ '/' :: q := by
  rw [join, hq]
  exact if_neg (by simp)

/-- A suffix of the argument is a suffix of the joined path. -/
theorem join_append {p q : PathBuf} (hq : q ≠ []) (d : List Char) :
    p.join (q ++ d) = p.join q ++ d := by
  unfold join
  rw [isAbsolute_append hq]
  split_ifs <;> simp

theorem body_join {p q : PathBuf} (hq : q.isAbsolute = false) :
    body (p.join q) = p.body ++ q.body := by
  rw [join_relative hq]
  split_ifs with h
  · rcases h with rfl | hslash
    · rfl
    · -- `p` ends with the separator
      obtain ⟨front, rfl⟩ := List.getLast?_eq_some_iff.mp hslash
      rw [List.append_assoc, List.singleton_append, body_slash, body_slash, body_nil,
        List.append_nil]
  · exact body_slash p q

theorem lead_join {p q : PathBuf} (hp : p ≠ []) (hq : q.isAbsolute = false) :
    lead (p.join q) = p.lead := by
  have habs : isAbsolute (p.join q) = p.isAbsolute := by
    rw [join_relative hq]
    split_ifs <;> exact isAbsolute_append hp _
  have hhead : p.isAbsolute = false → (parts (p.join q)).head? = p.parts.head? := by
    intro hrel
    rw [join_relative hq]
    split_ifs with h
    · obtain ⟨front, rfl⟩ := List.getLast?_eq_some_iff.mp (h.resolve_left hp)
      rw [List.append_assoc, List.singleton_append, parts_slash, parts_slash]
      exact (List.head?_append_of_ne_nil _ (parts_ne_nil front)).trans
        (List.head?_append_of_ne_nil _ (parts_ne_nil front)).symm
    · rw [parts_slash]
      exact List.head?_append_of_ne_nil _ (parts_ne_nil p)
  unfold lead
  rw [habs]
  cases hrel : p.isAbsolute with
  | true => rfl
  | false => rw [hhead hrel]

/-- A path's resolved form depends on its front only through being absolute. -/
theorem resolve_components (p : PathBuf) :
    resolve p.components =
      p.body.foldl push (if p.isAbsolute then [.rootDir] else []) := by
  unfold resolve components lead
  rw [List.foldl_append]
  split_ifs <;> rfl

/-- A joined name continues the base's components without climbing. -/
theorem components_join (p : PathBuf) {q : PathBuf} (hq : q.Relative) :
    ∃ tail, (p.join q).components = p.components ++ tail ∧ Stays 0 tail := by
  by_cases hp : p = []
  · refine ⟨q.components, ?_, ?_⟩
    · rw [hp, join_relative hq.1]
      rfl
    · unfold components lead
      rw [hq.1, if_neg (by simp)]
      split_ifs
      · simpa [Stays] using hq.2
      · exact hq.2
  · refine ⟨q.body, ?_, hq.2⟩
    rw [components, lead_join hp hq.1, body_join hq.1, ← List.append_assoc, components]

/-! ## Staying inside a base -/

theorem inside_append {base tail : List Component} (h : Stays 0 tail) :
    Inside base (base ++ tail) := by
  obtain ⟨names, hnames⟩ := foldl_push_below (resolve base) tail [] h
  refine ⟨names, ?_⟩
  rw [← hnames, resolve, List.foldl_append, List.map_nil, List.append_nil, resolve]

/-- **Joined names stay inside.** -/
theorem inside_join (p : PathBuf) {q : PathBuf} (hq : q.Relative) :
    Inside p.components (p.join q).components := by
  obtain ⟨tail, hjoin, hstays⟩ := components_join p hq
  rw [hjoin]
  exact inside_append hstays

theorem partComponent_long {part : List Char} (h : 2 < part.length) :
    partComponent part = some (.normal part) := by
  unfold partComponent
  rw [if_neg, if_neg]
  · rintro rfl
    simp at h
  · rintro (rfl | rfl) <;> simp at h

/-- A suffix without a separator, too long to make a dot part. -/
structure Suffix (d : List Char) : Prop where
  no_slash : '/' ∉ d
  long : 2 < d.length

theorem Suffix.isAbsolute_eq {d : List Char} (hd : Suffix d) : isAbsolute d = false := by
  cases d with
  | nil => rfl
  | cons c d =>
      have hc : c ≠ '/' := fun h => hd.no_slash (h ▸ List.mem_cons_self)
      simpa [isAbsolute] using hc

/-- A suffixed path differs in its last component, which becomes an ordinary
name. -/
theorem body_suffix {d : List Char} (hd : Suffix d) (p : PathBuf) :
    ∃ front last, p.body = front ++ (partComponent last).toList ∧
      body (p ++ d) = front ++ [.normal (last ++ d)] := by
  obtain ⟨front, last, hp, hpd⟩ := parts_append d hd.no_slash p
  refine ⟨front.filterMap partComponent, last, ?_, ?_⟩
  · rw [body, hp, List.filterMap_append]
    cases h : partComponent last <;> simp [h]
  · have hlong : 2 < (last ++ d).length := by
      have := hd.long
      rw [List.length_append]
      omega
    rw [body, hpd, List.filterMap_append]
    simp [partComponent_long hlong]

theorem Relative.suffix {q : PathBuf} (hq : q.Relative) (hne : q ≠ []) {d : List Char}
    (hd : Suffix d) : Relative (q ++ d) := by
  obtain ⟨front, last, hbody, hsuffixed⟩ := body_suffix hd q
  refine ⟨(isAbsolute_append hne d).trans hq.1, ?_⟩
  rw [hsuffixed]
  exact (hq.2.initial (hbody ▸ List.prefix_append _ _)).append_normal

/-- Joined names with a suffix stay inside. -/
theorem inside_join_suffix (p : PathBuf) {q : PathBuf} (hq : q.Relative) (hne : q ≠ [])
    {d : List Char} (hd : Suffix d) : Inside p.components (components (p.join q ++ d)) := by
  rw [← join_append hne]
  exact inside_join p (hq.suffix hne hd)

/-- Every place on the way to a joined name is on the way to the base or inside
it. -/
theorem leading_join (p : PathBuf) {q : PathBuf} (hq : q.Relative) {pre : List Component}
    (hpre : pre <+: (p.join q).components) :
    pre <+: p.components ∨ Inside p.components pre := by
  obtain ⟨tail, hjoin, hstays⟩ := components_join p hq
  rw [hjoin] at hpre
  rcases List.prefix_or_prefix_of_prefix hpre (List.prefix_append p.components tail)
    with hbase | ⟨rest, rfl⟩
  · exact .inl hbase
  · have hrest : rest <+: tail := (List.prefix_append_right_inj _).mp hpre
    exact .inr (inside_append (hstays.initial hrest))

theorem push_ne_snoc (stack : List Component) {c : Component} {name : List Char}
    (hc : c ≠ .normal name) (hroot : c ≠ .rootDir) :
    push stack c ≠ stack ++ [.normal name] := by
  have hne : ∀ short : List Component, short.length ≤ stack.length →
      short ≠ stack ++ [.normal name] := by
    rintro short hlen rfl
    rw [List.length_append, List.length_singleton] at hlen
    omega
  cases c with
  | curDir => exact hne stack (Nat.le_refl _)
  | rootDir => exact absurd rfl hroot
  | normal name' => simpa [push] using hc
  | parentDir =>
      simp only [push]
      split
      · exact hne _ (by simp)
      · exact hne stack (Nat.le_refl _)
      · simp

theorem partComponent_ne_rootDir (part : List Char) :
    partComponent part ≠ some .rootDir := by
  unfold partComponent
  split_ifs <;> simp

theorem partComponent_eq_normal {part name : List Char}
    (h : partComponent part = some (.normal name)) : name = part := by
  unfold partComponent at h
  split_ifs at h
  · cases h
  · exact (Component.normal.inj (Option.some.inj h)).symm

/-- A path and its suffixed form, resolved over the same stack. -/
theorem resolve_suffix {d : List Char} (hd : Suffix d) (p : PathBuf) :
    ∃ stack last, resolve p.components = (partComponent last).toList.foldl push stack ∧
      resolve (components (p ++ d)) = stack ++ [.normal (last ++ d)] := by
  obtain ⟨front, last, hbody, hsuffixed⟩ := body_suffix hd p
  have habs : isAbsolute (p ++ d) = p.isAbsolute := by
    by_cases hp : p = []
    · rw [hp, List.nil_append]
      exact hd.isAbsolute_eq
    · exact isAbsolute_append hp d
  refine ⟨front.foldl push (if p.isAbsolute then [.rootDir] else []), last, ?_, ?_⟩
  · rw [resolve_components, hbody, List.foldl_append]
  · rw [resolve_components, habs, hsuffixed, List.foldl_append]
    rfl

/-- **A path and its suffixed form lead to different places.** -/
theorem resolve_suffix_ne {d : List Char} (hd : Suffix d) (p : PathBuf) :
    resolve (components (p ++ d)) ≠ resolve p.components := by
  obtain ⟨stack, last, hplain, hsuffixed⟩ := resolve_suffix hd p
  rw [hplain, hsuffixed]
  cases hlast : partComponent last with
  | none =>
      intro h
      exact absurd (congrArg List.length h) (by simp)
  | some c =>
      refine (push_ne_snoc stack ?_ ?_).symm
      · rintro rfl
        have hsame : last ++ d = last := partComponent_eq_normal hlast
        have hlong := hd.long
        rw [List.append_right_eq_self.mp hsame] at hlong
        exact absurd hlong (by simp)
      · rintro rfl
        exact partComponent_ne_rootDir last hlast

/-- Suffixed forms that lead to one place are those of paths that do. -/
theorem resolve_of_suffix {d : List Char} (hd : Suffix d) {p q : PathBuf}
    (h : resolve (components (p ++ d)) = resolve (components (q ++ d))) :
    resolve p.components = resolve q.components := by
  obtain ⟨stack, last, hplain, hsuffixed⟩ := resolve_suffix hd p
  obtain ⟨stack', last', hplain', hsuffixed'⟩ := resolve_suffix hd q
  rw [hsuffixed, hsuffixed'] at h
  obtain ⟨hstack, hname⟩ := List.append_inj' h rfl
  have hlast : last = last' :=
    List.append_cancel_right (Component.normal.inj (List.cons.inj hname).1)
  rw [hplain, hplain', hstack, hlast]

/-! ## File names -/

/-- A name that is one ordinary component. -/
structure Plain (name : List Char) : Prop where
  ne_nil : name ≠ []
  no_slash : '/' ∉ name
  ne_dot : name ≠ ['.']
  ne_dots : name ≠ ['.', '.']

theorem trimmed_slash (p : PathBuf) {name : List Char} (h : Plain name) :
    trimmed (p ++ '/' :: name) = name :: p.parts.reverse := by
  have hname : parts name = [name] := List.splitOn_eq_singleton h.no_slash
  rw [trimmed, parts_slash, hname, List.reverse_append, List.reverse_singleton,
    List.singleton_append, List.dropWhile_cons_of_neg]
  simp [h.ne_nil, h.ne_dot]

theorem fileName_slash (p : PathBuf) {name : List Char} (h : Plain name) :
    fileName (p ++ '/' :: name) = some name := by
  rw [fileName, trimmed_slash p h]
  exact if_neg h.ne_dots

theorem withExtension_slash (p : PathBuf) {name : List Char} (h : Plain name)
    (ext : List Char) :
    withExtension (p ++ '/' :: name) ext =
      p ++ '/' :: ((splitAtDot name).1 ++ '.' :: ext) := by
  rw [withExtension, trimmed_slash p h]
  show (if name = ['.', '.'] then _ else _) = _
  have hp : ['/'].intercalate p.parts = p := List.intercalate_splitOn '/'
  rw [if_neg h.ne_dots, List.reverse_reverse, intercalate_concat _ _ (parts_ne_nil p), hp,
    List.append_assoc, List.singleton_append]

theorem splitAtDot_of_notMem {name : List Char} (h : '.' ∉ name) :
    splitAtDot name = (name, none) := if_pos (.inl h)

theorem splitAtDot_dot (before : List Char) {after : List Char} (h : '.' ∉ after) :
    splitAtDot (before ++ '.' :: after) =
      if before = [] then ('.' :: after, none) else (before, some after) := by
  have hmem : '.' ∈ before ++ '.' :: after := by simp
  have hrev : (before ++ '.' :: after).reverse = after.reverse ++ '.' :: before.reverse := by
    simp
  have hkeep : ∀ c ∈ after.reverse, decide (c ≠ '.') = true := by
    intro c hc
    have hne : c ≠ '.' := fun hdot => h (hdot ▸ List.mem_reverse.mp hc)
    simpa using hne
  unfold splitAtDot
  rw [hrev, List.takeWhile_append_of_pos hkeep, List.dropWhile_append_of_pos hkeep]
  by_cases hb : before = []
  · rw [if_pos hb, hb]
    simp
  · rw [if_neg hb, if_neg]
    · simp
    · simpa using hb

theorem last_dot {name : List Char} (h : '.' ∈ name) :
    ∃ before after, name = before ++ '.' :: after ∧ '.' ∉ after := by
  obtain ⟨front, rest, hrev, hfront⟩ :=
    List.eq_append_cons_of_mem (List.mem_reverse.mpr h)
  refine ⟨rest.reverse, front.reverse, ?_, by simpa using hfront⟩
  have hname := congrArg List.reverse hrev
  simpa using hname

/-- Cutting a name at its last dot keeps all of it exactly when it has no dot
after its first character. -/
theorem stem_eq_self_iff (name : List Char) :
    (splitAtDot name).1 = name ↔ '.' ∉ name.tail := by
  by_cases h : '.' ∈ name
  · obtain ⟨before, after, rfl, hafter⟩ := last_dot h
    rw [splitAtDot_dot before hafter]
    cases before with
    | nil => simpa using hafter
    | cons c before =>
        rw [if_neg (List.cons_ne_nil c before)]
        simp
  · rw [splitAtDot_of_notMem h]
    exact iff_of_true rfl fun ht => h (List.mem_of_mem_tail ht)

theorem stem_ne_nil {name : List Char} (h : name ≠ []) : (splitAtDot name).1 ≠ [] := by
  by_cases hdot : '.' ∈ name
  · obtain ⟨before, after, rfl, hafter⟩ := last_dot hdot
    rw [splitAtDot_dot before hafter]
    split_ifs with hb
    · exact List.cons_ne_nil _ _
    · exact hb
  · rwa [splitAtDot_of_notMem hdot]

theorem mem_of_mem_stem {name : List Char} {c : Char} (h : c ∈ (splitAtDot name).1) :
    c ∈ name := by
  by_cases hdot : '.' ∈ name
  · obtain ⟨before, after, rfl, hafter⟩ := last_dot hdot
    rw [splitAtDot_dot before hafter] at h
    split_ifs at h
    · exact List.mem_append_right _ h
    · exact List.mem_append_left _ h
  · rwa [splitAtDot_of_notMem hdot] at h

theorem splitAtDot_withExtension {stem ext : List Char} (hstem : stem ≠ []) (hext : '.' ∉ ext) :
    splitAtDot (stem ++ '.' :: ext) = (stem, some ext) := by
  rw [splitAtDot_dot stem hext, if_neg hstem]

theorem Plain.partComponent_eq {name : List Char} (h : Plain name) :
    partComponent name = some (.normal name) := by
  unfold partComponent
  rw [if_neg (not_or.mpr ⟨h.ne_nil, h.ne_dot⟩), if_neg h.ne_dots]

/-- The parent of a file in a directory is the directory. -/
theorem parent_slash {p : PathBuf} (hp : p ≠ []) {name : List Char} (h : Plain name) :
    parent (p ++ '/' :: name) = some p.components := by
  have hname : parts name = [name] := List.splitOn_eq_singleton h.no_slash
  have habs : isAbsolute (p ++ '/' :: name) = p.isAbsolute := isAbsolute_append hp _
  have hlead : lead (p ++ '/' :: name) = p.lead := by
    unfold lead
    rw [habs, parts_slash, List.head?_append_of_ne_nil _ (parts_ne_nil p)]
  have hbody : body (p ++ '/' :: name) = p.body ++ [.normal name] := by
    rw [body_slash, body, body, hname]
    simp [h.partComponent_eq]
  unfold parent components
  rw [hlead, hbody, ← List.append_assoc, List.getLast?_concat, List.dropLast_concat]

end PathBuf

end RustdeskServer.Framework
