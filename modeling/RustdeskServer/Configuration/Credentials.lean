import RustdeskServer.Configuration.Config
import RustdeskServer.Framework.Runs

/-!
# Credentials made on first use

`get_id`, `get_password` and `get_salt` read a field under one acquisition of
the lock and, if it is empty, store a generated value under another one.
Between the two any other thread may run, while `get_key_pair` keeps the lock.
The machine below takes every critical section as one step and any number of
threads in any interleaving.

A lazy write is a loss if it replaces a value other than its own that is not
empty. `credentials_kept` says that there is none, and that all getters of a period
without explicit sets agree with what is stored, as long as no call comes to a field
that another thread has found empty and is about to store in: as if the getters kept
the lock. `kept_iff_undisturbed` says it exactly, in terms of the values that are
stored in between.
-/

namespace RustdeskServer.Configuration

open RustdeskServer.Framework

inductive Field where
  | id
  | password
  | salt
deriving DecidableEq, Repr

def Field.read : Field → Config → String
  | .id, c => c.id
  | .password, c => c.password
  | .salt, c => c.salt

/-- `set_id`, `set_password` and `set_salt`. -/
def Field.store : Field → String → Globals → Globals
  | .id => Globals.setId
  | .password => Globals.setPassword
  | .salt => Globals.setSalt

/-- What `get_auto_id` and `get_auto_password` make is never empty. -/
abbrev Generated : Type := { s : String // s ≠ "" }

/-- The calls, with what is generated if they need it. -/
inductive Request where
  | getId (auto : Option Generated)
  | getPassword (auto : Generated)
  | getSalt (auto : Generated)
  | setId (id : String)
  | setPassword (password : String)
  | setSalt (salt : String)
  | updateId (auto : Option Generated) (newId : String)

def Request.field : Request → Field
  | .getId _ | .setId _ | .updateId _ _ => .id
  | .getPassword _ | .setPassword _ => .password
  | .getSalt _ | .setSalt _ => .salt

/-- What a thread does under its next acquisition of the lock: the lazy write of
a getter, which may be the first half of an `update_id`, or the `set_id` of an
`update_id`. -/
inductive Section where
  | write (field : Field) (auto : Generated) (update : Option String)
  | setId (newId : String)

def Section.field : Section → Field
  | .write field _ _ => field
  | .setId _ => .id

/-- A call in progress. For the field it has found empty, `since` is what other
threads have stored last since then, and `quiet` that no explicit set of it has
come in between. -/
structure Task where
  next : Section
  since : Option String
  quiet : Bool

/-- `answers` are the values returned by getters of a field that were called
since its last explicit set; `lost` are the values, not empty, that a lazy write
has replaced by another one. -/
structure World (T : Type) where
  globals : Globals
  tasks : T → Option Task
  answers : Field → List String
  lost : List (Field × String × Generated)

inductive Event (T : Type) where
  | call (thread : T) (request : Request)
  | resume (thread : T)

def Event.thread {T : Type} : Event T → T
  | .call t _ | .resume t => t

/-- A store into `field` as a waiting task sees it. -/
def Task.note (field : Field) (value : String) (explicit : Bool) (task : Task) : Task :=
  match task.next with
  | .write f _ _ =>
      if f = field then { task with since := some value, quiet := task.quiet && !explicit }
      else task
  | .setId _ => task

namespace World

variable {T : Type}

def start (globals : Globals) : World T := ⟨globals, fun _ => none, fun _ => [], []⟩

/-- A critical section that stores a value. -/
def put (w : World T) (field : Field) (value : String) (explicit : Bool) : World T :=
  { globals := field.store value w.globals
    tasks := fun t => (w.tasks t).map (Task.note field value explicit)
    answers := if explicit then Function.update w.answers field [] else w.answers
    lost := w.lost }

variable [DecidableEq T]

def setTask (w : World T) (t : T) (task : Option Task) : World T :=
  { w with tasks := Function.update w.tasks t task }

/-- The getter has its value: it returns it, or goes on as `update_id`. -/
def got (w : World T) (t : T) (field : Field) (value : String) (quiet : Bool) :
    Option String → World T
  | none =>
      { w.setTask t none with
        answers := if quiet then
          Function.update w.answers field (w.answers field ++ [value]) else w.answers }
  -- `update_id` enters a critical section of its own for the new id
  | some newId => w.setTask t (some ⟨.setId newId, none, true⟩)

/-- The first critical section of a getter. -/
def get (w : World T) (t : T) (field : Field) (auto : Option Generated)
    (update : Option String) : World T :=
  let value := field.read w.globals.config
  if value = "" then
    match auto with
    | some auto => w.setTask t (some ⟨.write field auto update, none, true⟩)
    | none => w.got t field value true update
  else w.got t field value true update

/-- The second one: the lazy write. -/
def write (w : World T) (t : T) (field : Field) (auto : Generated) (quiet : Bool)
    (update : Option String) : World T :=
  let old := field.read w.globals.config
  let lost := if old ≠ "" ∧ old ≠ auto then w.lost ++ [(field, old, auto)] else w.lost
  ({ w with lost := lost }.put field auto false).got t field auto quiet update

def request (w : World T) (t : T) : Request → World T
  | .getId auto => w.get t .id auto none
  | .getPassword auto => w.get t .password (some auto) none
  | .getSalt auto => w.get t .salt (some auto) none
  | .setId id => w.put .id id true
  | .setPassword password => w.put .password password true
  | .setSalt salt => w.put .salt salt true
  | .updateId auto newId => w.get t .id auto (some newId)

/-- A thread makes a call when it has none in progress, or enters the next
critical section of the one it has. -/
def step (w : World T) : Event T → World T
  | .call t r =>
      match w.tasks t with
      | none => w.request t r
      | some _ => w
  | .resume t =>
      match w.tasks t with
      | none => w
      | some ⟨.write field auto update, _, quiet⟩ => w.write t field auto quiet update
      | some ⟨.setId newId, _, _⟩ => (w.put .id newId true).setTask t none

omit [DecidableEq T] in
/-- Nothing was lost, and the getters of a password or a salt have returned what
is stored. -/
def Kept (w : World T) : Prop :=
  w.lost = [] ∧ ∀ field, field ≠ .id → ∀ a ∈ w.answers field, a = field.read w.globals.config

omit [DecidableEq T] in
/-- The field whose critical section an event enters, if it enters one. -/
def enters (w : World T) : Event T → Option Field
  | .call t r =>
      match w.tasks t with
      | none => some r.field
      | some _ => none
  | .resume t => (w.tasks t).map fun task => task.next.field

omit [DecidableEq T] in
/-- The field that a thread has found empty and not stored in yet. -/
def owes (w : World T) (t : T) : Option Field :=
  match w.tasks t with
  | some ⟨.write field _ _, _, _⟩ => some field
  | _ => none

omit [DecidableEq T] in
/-- No thread comes to a field that another one has found empty and not stored in
yet. -/
def Uncontended (w : World T) (e : Event T) : Prop :=
  ∀ t, t ≠ e.thread → w.owes t = none ∨ w.owes t ≠ w.enters e

instance [Fintype T] (w : World T) (e : Event T) : Decidable (Uncontended w e) := by
  unfold Uncontended
  infer_instance

omit [DecidableEq T] in
/-- A lazy write finds that nothing was stored in its field by others since the
getter read it, or that the last value stored is empty or its own. -/
def Undisturbed (w : World T) : Event T → Prop
  | .call _ _ => True
  | .resume t => ∀ task field auto update, w.tasks t = some task →
      task.next = .write field auto update →
      task.since = none ∨ task.since = some "" ∨ task.since = some auto.1

/-! ## What a store does -/

/-- A setter sets its field, whether it has to store or not, and no other. -/
theorem read_store (f field : Field) (value : String) (g : Globals) :
    f.read (field.store value g).config =
      if f = field then value else f.read g.config := by
  cases field
  all_goals
    simp only [Field.store, Globals.setId, Globals.setPassword, Globals.setSalt,
      Globals.config_updateConfig, decide_eq_true_eq]
    split
    · rename_i hsame
      cases f <;> simp [Field.read, hsame]
    · cases f <;> simp [Field.read]

omit [DecidableEq T] in
theorem read_put (w : World T) (f field : Field) (value : String) (explicit : Bool) :
    f.read (w.put field value explicit).globals.config =
      if f = field then value else f.read w.globals.config :=
  read_store f field value w.globals

/-! ## The answers of a period -/

omit [DecidableEq T] in
/-- An explicit set begins a new period of its field. -/
theorem mem_answers_put {w : World T} {field f : Field} {value a : String}
    (ha : a ∈ (w.put field value true).answers f) : f ≠ field ∧ a ∈ w.answers f := by
  change a ∈ Function.update w.answers field [] f at ha
  by_cases hff : f = field
  · rw [hff, Function.update_self] at ha
    cases ha
  · rw [Function.update_of_ne hff] at ha
    exact ⟨hff, ha⟩

theorem mem_answers_got {w : World T} {t : T} {field f : Field} {value a : String} {quiet : Bool}
    {update : Option String} (ha : a ∈ (w.got t field value quiet update).answers f) :
    a ∈ w.answers f ∨ (f = field ∧ a = value) := by
  cases update with
  | some newId => exact Or.inl ha
  | none =>
      cases quiet with
      | false => exact Or.inl ha
      | true =>
          change a ∈ Function.update w.answers field (w.answers field ++ [value]) f at ha
          by_cases hff : f = field
          · subst hff
            rw [Function.update_self] at ha
            exact (List.mem_append.mp ha).imp id fun ha => ⟨rfl, List.mem_singleton.mp ha⟩
          · rw [Function.update_of_ne hff] at ha
            exact Or.inl ha

/-! ## What a waiting thread knows -/

/-- The field a thread is about to write holds what was stored in it last since
the thread found it empty. -/
def Tracked (w : World T) (task : Task) : Prop :=
  ∀ field auto update, task.next = .write field auto update →
    field.read w.globals.config = task.since.getD ""

/-- The invariant of all runs. -/
structure Sound (w : World T) : Prop where
  tracked : ∀ t task, w.tasks t = some task → Tracked w task
  answers_ne : ∀ field, field ≠ .id → ∀ a ∈ w.answers field, a ≠ ""

omit [DecidableEq T] in
theorem tracked_note {w : World T} {task : Task} (h : Tracked w task) (field : Field)
    (value : String) (explicit : Bool) :
    Tracked (w.put field value explicit) (task.note field value explicit) := by
  intro f auto update hnext
  rw [read_put]
  unfold Task.note at hnext ⊢
  cases htask : task.next with
  | setId newId =>
      simp only [htask] at hnext
      cases hnext
  | write g auto' update' =>
      simp only [htask] at hnext ⊢
      split at hnext
      · rename_i hg
        cases hnext
        rw [if_pos hg, if_pos hg]
        rfl
      · rename_i hg
        rw [htask] at hnext
        cases hnext
        rw [if_neg hg, if_neg hg]
        exact h f auto update htask

omit [DecidableEq T] in
theorem Sound.put {w : World T} (h : Sound w) (field : Field) (value : String)
    (explicit : Bool) : Sound (w.put field value explicit) where
  tracked t task ht := by
    obtain ⟨task', ht', rfl⟩ := Option.map_eq_some_iff.mp ht
    exact tracked_note (h.tracked t task' ht') field value explicit
  answers_ne f hf a ha := by
    cases explicit with
    | false => exact h.answers_ne f hf a ha
    | true => exact h.answers_ne f hf a (mem_answers_put ha).2

theorem Sound.setTask {w : World T} (h : Sound w) (t : T) {task : Option Task}
    (htask : ∀ task', task = some task' → Tracked w task') : Sound (w.setTask t task) where
  tracked t' task' ht' := by
    change Function.update w.tasks t task t' = some task' at ht'
    by_cases htt : t' = t
    · rw [htt, Function.update_self] at ht'
      exact htask task' ht'
    · rw [Function.update_of_ne htt] at ht'
      exact h.tracked t' task' ht'
  answers_ne := h.answers_ne

theorem Sound.got {w : World T} (h : Sound w) (t : T) {field : Field} {value : String}
    (hvalue : field ≠ .id → value ≠ "") (quiet : Bool) (update : Option String) :
    Sound (w.got t field value quiet update) := by
  constructor
  · cases update with
    | some newId =>
        refine (h.setTask t ?_).tracked
        rintro _ ⟨⟩ f auto update hnext
        cases hnext
    | none => exact (h.setTask t (by rintro _ ⟨⟩)).tracked
  · intro f hf a ha
    rcases mem_answers_got ha with ha | ⟨rfl, rfl⟩
    · exact h.answers_ne f hf a ha
    · exact hvalue hf

/-- Only `get_id` may have nothing to generate. -/
theorem Sound.get {w : World T} (h : Sound w) (t : T) {field : Field}
    {auto : Option Generated} (hauto : field ≠ .id → auto ≠ none) (update : Option String) :
    Sound (w.get t field auto update) := by
  unfold World.get
  dsimp only
  split
  · rename_i hempty
    cases auto with
    | none => exact h.got t (fun hf => absurd rfl (hauto hf)) true update
    | some auto =>
        refine h.setTask t ?_
        rintro _ ⟨⟩ f auto' update' hnext
        cases hnext
        exact hempty
  · rename_i hvalue
    exact h.got t (fun _ => hvalue) true update

theorem Sound.write {w : World T} (h : Sound w) (t : T) (field : Field) (auto : Generated)
    (quiet : Bool) (update : Option String) : Sound (w.write t field auto quiet update) := by
  have hlost : ∀ lost, Sound { w with lost := lost } := fun _ => ⟨h.tracked, h.answers_ne⟩
  exact ((hlost _).put field auto false).got t (fun _ => auto.2) quiet update

/-- What a step can be. -/
inductive Stepped (w : World T) : Event T → World T → Prop
  | busy (t : T) (r : Request) : Stepped w (.call t r) w
  | idle (t : T) : w.tasks t = none → Stepped w (.resume t) w
  | get (t : T) (r : Request) (auto : Option Generated) (update : Option String) :
      w.tasks t = none → (r.field ≠ .id → auto ≠ none) →
      Stepped w (.call t r) (w.get t r.field auto update)
  | set (t : T) (r : Request) (value : String) : w.tasks t = none →
      Stepped w (.call t r) (w.put r.field value true)
  | write (t : T) (field : Field) (auto : Generated) (update since : Option String)
      (quiet : Bool) : w.tasks t = some ⟨.write field auto update, since, quiet⟩ →
      Stepped w (.resume t) (w.write t field auto quiet update)
  | setId (t : T) (newId : String) (since : Option String) (quiet : Bool) :
      w.tasks t = some ⟨.setId newId, since, quiet⟩ →
      Stepped w (.resume t) ((w.put .id newId true).setTask t none)

theorem request_stepped {w : World T} {t : T} (h : w.tasks t = none) (r : Request) :
    Stepped w (.call t r) (w.request t r) := by
  cases r with
  | getId auto => exact .get t (.getId auto) auto none h fun hid => absurd rfl hid
  | getPassword auto =>
      exact .get t (.getPassword auto) (some auto) none h fun _ => Option.some_ne_none auto
  | getSalt auto =>
      exact .get t (.getSalt auto) (some auto) none h fun _ => Option.some_ne_none auto
  | setId id => exact .set t (.setId id) id h
  | setPassword password => exact .set t (.setPassword password) password h
  | setSalt salt => exact .set t (.setSalt salt) salt h
  | updateId auto newId =>
      exact .get t (.updateId auto newId) auto (some newId) h fun hid => absurd rfl hid

theorem call_idle {w : World T} {t : T} (h : w.tasks t = none) (r : Request) :
    w.step (.call t r) = w.request t r := by
  simp only [World.step, h]

theorem resume_idle {w : World T} {t : T} (h : w.tasks t = none) : w.step (.resume t) = w := by
  simp only [World.step, h]

theorem resume_write {w : World T} {t : T} {field : Field} {auto : Generated}
    {update since : Option String} {quiet : Bool}
    (h : w.tasks t = some ⟨.write field auto update, since, quiet⟩) :
    w.step (.resume t) = w.write t field auto quiet update := by
  simp only [World.step, h]

theorem step_stepped (w : World T) (e : Event T) : Stepped w e (w.step e) := by
  cases e with
  | call t r =>
      cases ht : w.tasks t with
      | some task =>
          rw [show w.step (.call t r) = w by simp only [World.step, ht]]
          exact .busy t r
      | none =>
          rw [call_idle ht]
          exact request_stepped ht r
  | resume t =>
      rcases ht : w.tasks t with _ | ⟨⟨field, auto, update⟩ | newId, since, quiet⟩
      · rw [resume_idle ht]
        exact .idle t ht
      · rw [resume_write ht]
        exact .write t field auto update since quiet ht
      · rw [show w.step (.resume t) = (w.put .id newId true).setTask t none by
          simp only [World.step, ht]]
        exact .setId t newId since quiet ht

theorem Sound.stepped {w w' : World T} {e : Event T} (h : Sound w) (hstep : Stepped w e w') :
    Sound w' := by
  cases hstep with
  | busy | idle => exact h
  | get t r auto update _ hauto => exact h.get t hauto update
  | set t r value => exact h.put r.field value true
  | write t field auto update since quiet ht => exact h.write t field auto quiet update
  | setId t newId since quiet ht =>
      have hnone : ∀ task, (none : Option Task) = some task →
          Tracked (w.put .id newId true) task := by simp
      exact (h.put .id newId true).setTask t hnone

/-! ## The exact condition -/

theorem lost_got (w : World T) (t : T) (field : Field) (value : String) (quiet : Bool)
    (update : Option String) : (w.got t field value quiet update).lost = w.lost := by
  cases update <;> rfl

theorem globals_got (w : World T) (t : T) (field : Field) (value : String) (quiet : Bool)
    (update : Option String) : (w.got t field value quiet update).globals = w.globals := by
  cases update <;> rfl

theorem Kept.got {w : World T} (h : Kept w) (t : T) {field : Field} {value : String}
    (hvalue : value = field.read w.globals.config) (quiet : Bool) (update : Option String) :
    Kept (w.got t field value quiet update) := by
  refine ⟨by rw [lost_got]; exact h.1, fun f hf a ha => ?_⟩
  rw [globals_got]
  rcases mem_answers_got ha with ha | ⟨rfl, rfl⟩
  · exact h.2 f hf a ha
  · exact hvalue

theorem Kept.get {w : World T} (h : Kept w) (t : T) (field : Field)
    (auto : Option Generated) (update : Option String) : Kept (w.get t field auto update) := by
  unfold World.get
  dsimp only
  split
  · cases auto with
    | none => exact h.got t rfl true update
    | some auto => exact h
  · exact h.got t rfl true update

omit [DecidableEq T] in
/-- An explicit set begins a new period. -/
theorem Kept.put {w : World T} (h : Kept w) (field : Field) (value : String) :
    Kept (w.put field value true) := by
  refine ⟨h.1, fun f hf a ha => ?_⟩
  obtain ⟨hff, ha⟩ := mem_answers_put ha
  rw [read_put, if_neg hff]
  exact h.2 f hf a ha

/-- A lazy write that finds its field empty or holding its own value. -/
theorem Kept.write {w : World T} (hsound : Sound w) (h : Kept w) (t : T) (field : Field)
    (auto : Generated) (quiet : Bool) (update : Option String)
    (hold : field.read w.globals.config = "" ∨ field.read w.globals.config = auto) :
    Kept (w.write t field auto quiet update) := by
  have hnolost : ¬ (field.read w.globals.config ≠ "" ∧ field.read w.globals.config ≠ auto) := by
    tauto
  unfold World.write
  simp only [if_neg hnolost]
  apply Kept.got
  · refine ⟨h.1, ?_⟩
    intro f hf a ha
    rw [read_put]
    change a ∈ w.answers f at ha
    have hread := h.2 f hf a ha
    by_cases hff : f = field
    · subst hff
      rw [if_pos rfl]
      rcases hold with hempty | hown
      · exact absurd (hread.trans hempty) (hsound.answers_ne f hf a ha)
      · exact hread.trans hown
    · rw [if_neg hff]
      exact hread
  · rw [read_put, if_pos rfl]

/-- A lazy write loses nothing exactly when it is undisturbed. -/
theorem kept_write_iff {w : World T} (hsound : Sound w) (h : Kept w) {t : T} {field : Field}
    {auto : Generated} {update since : Option String} {quiet : Bool}
    (ht : w.tasks t = some ⟨.write field auto update, since, quiet⟩) :
    Kept (w.write t field auto quiet update) ↔
      since = none ∨ since = some "" ∨ since = some auto.1 := by
  have hread : field.read w.globals.config = since.getD "" :=
    hsound.tracked t _ ht field auto update rfl
  constructor
  · -- what the field holds now is what was stored last, by `Tracked`
    intro hkept
    have hlost := hkept.1
    rw [World.write, lost_got] at hlost
    change (if _ then _ else _) = [] at hlost
    split at hlost
    · exact absurd hlost (by simp)
    · rename_i hnot
      rw [hread] at hnot
      cases since with
      | none => exact Or.inl rfl
      | some value =>
          rw [Option.getD_some] at hnot
          right
          rw [Option.some_inj, Option.some_inj]
          tauto
  · intro hsince
    apply h.write hsound
    rw [hread]
    rcases hsince with rfl | rfl | rfl
    · exact Or.inl rfl
    · exact Or.inl rfl
    · exact Or.inr rfl

theorem kept_stepped_iff {w w' : World T} {e : Event T} (hsound : Sound w) (h : Kept w)
    (hstep : Stepped w e w') : Kept w' ↔ Undisturbed w e := by
  cases hstep with
  | busy => exact ⟨fun _ => trivial, fun _ => h⟩
  | get t r auto update => exact ⟨fun _ => trivial, fun _ => h.get t r.field auto update⟩
  | set t r value => exact ⟨fun _ => trivial, fun _ => h.put r.field value⟩
  | idle t ht =>
      refine ⟨fun _ task field auto update htask _ => ?_, fun _ => h⟩
      rw [ht] at htask
      cases htask
  | setId t newId since quiet ht =>
      refine ⟨fun _ task field auto update htask hnext => ?_, fun _ => h.put .id newId⟩
      rw [ht] at htask
      cases htask
      cases hnext
  | write t field auto update since quiet ht =>
      rw [kept_write_iff hsound h ht]
      constructor
      · intro hsince task f auto' update' htask hnext
        rw [ht] at htask
        cases htask
        cases hnext
        exact hsince
      · intro hund
        exact hund _ field auto update ht rfl

/-- No lazy write replaces another value that is not empty, and the getters of a
password or a salt called since its last explicit set have all returned the value
stored, if and only if every lazy write is undisturbed. -/
theorem kept_iff_undisturbed (T : Type) [DecidableEq T] (globals : Globals)
    (events : List (Event T)) :
    Always step Kept (start globals) events ↔ Along step Undisturbed (start globals) events := by
  have hsound : Sound (start (T := T) globals) := ⟨by simp [start], by simp [start]⟩
  have hkept : Kept (start (T := T) globals) := ⟨rfl, by simp [start]⟩
  refine always_iff_along (B := Sound) ?_ ?_ (along_true events) hsound hkept
  · intro w e h _
    exact h.stepped (step_stepped w e)
  · intro w e h _ hk
    exact kept_stepped_iff h hk (step_stepped w e)

/-! ## Schedules -/

omit [DecidableEq T] in
/-- Nothing was stored in a field since the thread has found it empty. -/
def FreshAt (w : World T) (t : T) : Prop :=
  ∀ task field auto update, w.tasks t = some task → task.next = .write field auto update →
    task.since = none

omit [DecidableEq T] in
def Fresh (w : World T) : Prop := ∀ t, w.FreshAt t

omit [DecidableEq T] in
theorem owes_eq {w : World T} {t : T} {field : Field} {auto : Generated}
    {update since : Option String} {quiet : Bool}
    (ht : w.tasks t = some ⟨.write field auto update, since, quiet⟩) :
    w.owes t = some field := by
  rw [owes, ht]

theorem Fresh.setTask {w : World T} {t : T} (hothers : ∀ t', t' ≠ t → w.FreshAt t')
    {task : Option Task} (htask : ∀ task' field auto update, task = some task' →
      task'.next = .write field auto update → task'.since = none) :
    Fresh (w.setTask t task) := by
  intro t' task' field auto update ht' hnext
  change Function.update w.tasks t task t' = some task' at ht'
  by_cases htt : t' = t
  · rw [htt, Function.update_self] at ht'
    exact htask task' field auto update ht' hnext
  · rw [Function.update_of_ne htt] at ht'
    exact hothers t' htt task' field auto update ht' hnext

theorem Fresh.got {w : World T} {t : T} (hothers : ∀ t', t' ≠ t → w.FreshAt t') (field : Field)
    (value : String) (quiet : Bool) (update : Option String) :
    Fresh (w.got t field value quiet update) := by
  cases update with
  | none => exact Fresh.setTask (w := w) hothers (by rintro _ _ _ _ ⟨⟩)
  | some newId => exact Fresh.setTask (w := w) hothers (by rintro _ _ _ _ ⟨⟩ ⟨⟩)

theorem Fresh.get {w : World T} (h : Fresh w) (t : T) (field : Field)
    (auto : Option Generated) (update : Option String) : Fresh (w.get t field auto update) := by
  have hothers : ∀ t', t' ≠ t → w.FreshAt t' := fun t' _ => h t'
  unfold World.get
  dsimp only
  split
  · cases auto with
    | none => exact Fresh.got hothers field _ true update
    | some auto =>
        refine Fresh.setTask hothers ?_
        rintro _ _ _ _ ⟨⟩ _
        rfl
  · exact Fresh.got hothers field _ true update

omit [DecidableEq T] in
/-- A store does not concern a thread that has not found its field empty. -/
theorem FreshAt.put {w : World T} {t : T} (h : w.FreshAt t) {field : Field}
    (hfree : w.owes t ≠ some field) (value : String) (explicit : Bool) :
    (w.put field value explicit).FreshAt t := by
  intro task f auto update htask hnext
  obtain ⟨⟨next, since, quiet⟩, ht, rfl⟩ := Option.map_eq_some_iff.mp htask
  cases next with
  | setId newId => cases hnext
  | write g auto' update' =>
      by_cases hg : g = field
      · subst hg
        exact absurd (owes_eq ht) hfree
      · simp only [Task.note, if_neg hg]
        exact h _ g auto' update' ht rfl

omit [DecidableEq T] in
theorem Uncontended.free {w : World T} {e : Event T} (h : Uncontended w e) {field : Field}
    (henters : w.enters e = some field) {t : T} (hne : t ≠ e.thread) :
    w.owes t ≠ some field := by
  rcases h t hne with hnone | hother
  · rw [hnone]
    exact (Option.some_ne_none field).symm
  · rwa [henters] at hother

theorem Fresh.stepped {w w' : World T} {e : Event T} (h : Fresh w) (hun : Uncontended w e)
    (hstep : Stepped w e w') : Fresh w' := by
  have hput : ∀ field, w.enters e = some field → ∀ value explicit t, t ≠ e.thread →
      (w.put field value explicit).FreshAt t :=
    fun _ henters value explicit t hne => (h t).put (hun.free henters hne) value explicit
  cases hstep with
  | busy | idle => exact h
  | get t r auto update => exact h.get t r.field auto update
  | set t r value ht =>
      have henters : w.enters (.call t r) = some r.field := by simp only [enters, ht]
      intro t'
      by_cases htt : t' = t
      · -- the thread that sets the field has no other call in progress
        have hnone : (w.put r.field value true).tasks t' = none := by
          rw [htt]
          exact congrArg (Option.map _) ht
        intro task field auto update htask
        rw [hnone] at htask
        cases htask
      · exact hput _ henters value true t' htt
  | write t field auto update since quiet ht =>
      have henters : w.enters (.resume t) = some field := by simp [enters, ht, Section.field]
      have hothers : ∀ lost, ∀ t', t' ≠ t →
          (({ w with lost := lost } : World T).put field auto false).FreshAt t' :=
        fun _ => hput field henters auto false
      exact Fresh.got (hothers _) field auto quiet update
  | setId t newId since quiet ht =>
      have henters : w.enters (.resume t) = some .id := by simp [enters, ht, Section.field]
      exact Fresh.setTask (hput _ henters newId true) (by rintro _ _ _ _ ⟨⟩)

/-- **When lazily made credentials are kept.** For any threads, any initial
configuration and any interleaving in which no call comes to a field that another
thread has found empty and not stored in yet: no lazy write replaces another value
that is not empty, and the getters of a password or a salt called since its last
explicit set have all returned the value stored. -/
theorem credentials_kept (T : Type) [DecidableEq T] (globals : Globals)
    (events : List (Event T)) (h : Along step Uncontended (start globals) events) :
    Always step Kept (start globals) events := by
  rw [kept_iff_undisturbed]
  refine along_of_along (P := Fresh) ?_ ?_ (by rintro _ _ _ _ _ ⟨⟩) h
  · intro w e hfresh hun
    exact hfresh.stepped hun (step_stepped w e)
  · intro w e hfresh _
    cases e with
    | call t r => trivial
    | resume t =>
        intro task field auto update ht hnext
        exact Or.inl (hfresh t task field auto update ht hnext)

/-- One thread makes a password, and an id to replace it, while the other one sets
the salt, reads the password and sets it to nothing. -/
def apart : List (Event Bool) :=
  [.call true (.getPassword ⟨"a", by decide⟩), .call false (.setSalt "s"), .resume true,
    .call true (.updateId (some ⟨"7", by decide⟩) "8"),
    .call false (.getPassword ⟨"b", by decide⟩), .resume true,
    .call false (.getSalt ⟨"c", by decide⟩), .resume true, .call false (.setPassword ""),
    .call false (.getPassword ⟨"d", by decide⟩), .call true (.getId none), .resume false]

theorem credentials_kept_apart :
    Along step Uncontended (start ⟨.default, .default, ∅, .default, .default⟩) apart ∧
      Always step Kept (start ⟨.default, .default, ∅, .default, .default⟩) apart := by
  have hrun : Along step Uncontended (start ⟨.default, .default, ∅, .default, .default⟩) apart := by
    decide
  exact ⟨hrun, credentials_kept Bool _ apart hrun⟩

/-- A `get_id` that runs alone is the one of the sequential model. -/
theorem getId_alone (w : World T) (t : T) (auto : Option Generated) (ht : w.tasks t = none) :
    ((w.step (.call t (.getId auto))).step (.resume t)).globals =
      w.globals.getId (auto.map Subtype.val) := by
  have hcall : w.step (.call t (.getId auto)) = w.get t .id auto none := call_idle ht _
  have hreturned : ∀ value, (w.got t .id value true none).step (.resume t) =
      w.got t .id value true none := fun _ => resume_idle (Function.update_self ..)
  rw [hcall]
  unfold Globals.getId
  by_cases hid : w.globals.config.id = ""
  · rw [if_pos (String.isEmpty_iff.mpr hid)]
    cases auto with
    | none =>
        rw [show w.get t .id none none = w.got t .id w.globals.config.id true none from
          if_pos hid, hreturned]
        rfl
    | some auto =>
        rw [show w.get t .id (some auto) none = w.setTask t (some ⟨.write .id auto none, none,
          true⟩) from if_pos hid, resume_write (Function.update_self ..)]
        rfl
  · rw [if_neg fun h => hid (String.isEmpty_iff.mp h),
      show w.get t .id auto none = w.got t .id w.globals.config.id true none from if_neg hid,
      hreturned]
    rfl

/-- Two threads ask for the password before there is one. -/
def twoGetters : List (Event Bool) :=
  [.call true (.getPassword ⟨"a", by decide⟩), .call false (.getPassword ⟨"b", by decide⟩),
    .resume true, .resume false]

/-- They get two passwords, and the first is lost. -/
theorem password_doubled :
    (twoGetters.foldl step (start ⟨.default, .default, ∅, .default, .default⟩)).answers
        .password = ["a", "b"] ∧
      ¬ Always step Kept (start ⟨.default, .default, ∅, .default, .default⟩) twoGetters := by
  refine ⟨by decide, fun h => ?_⟩
  have hlost := (h.final twoGetters).1
  exact absurd hlost (by decide)

end World

end RustdeskServer.Configuration
