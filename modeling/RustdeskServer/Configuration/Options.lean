import RustdeskServer.Configuration.WriteThrough

/-!
# Two ways of writing options

`set_options` replaces the whole map, `set_option` one entry. Called for every
key that changes, in any order, `set_option` leaves the same map. It also forgets
the remembered rendezvous server when the key is that of the custom server,
which `set_options` does not: `options_agree_iff` says for which states and maps
the two ways lead to the same server.
-/

namespace RustdeskServer.Configuration

def Config2.getOption (c : Config2) (k : String) : String := (c.options.lookup k).getD ""

/-- `SERIAL` -/
def currentSerial : Int := 0

/-- `RENDEZVOUS_SERVERS` -/
def rendezvousServers : List String := ["rs-sg.rustdesk.com", "rs-cn.rustdesk.com"]

/-- `RENDEZVOUS_PORT` -/
def rendezvousPort : ℕ := 21116

/-- The servers to choose from when there is no custom one. -/
def serverList (serial : Int) (servers : String) : List String :=
  let ss := (servers.toList.splitOn ',').filter fun x => '.' ∈ x
  if serial > currentSerial ∧ ss ≠ [] then ss.map String.ofList else rendezvousServers

def withPort (server : String) : String :=
  if ':' ∈ server.toList then server else server ++ ":" ++ toString rendezvousPort

namespace Config2

def getRendezvousServers (c : Config2) : List String :=
  let s := c.getOption Globals.customRendezvousServer
  if s ≠ "" then [s] else serverList c.serial (c.getOption "rendezvous-servers")

/-- `get_rendezvous_server` up to the resolution of the name. -/
def getRendezvousServer (c : Config2) : String :=
  let server := c.getOption Globals.customRendezvousServer
  let server := if server = "" then c.rendezvousServer else server
  let server := if server = "" then c.getRendezvousServers.headD "" else server
  withPort server

end Config2

/-- The keys with different values in two maps, in any order. -/
structure Changed (old new : HashMap String) (keys : List String) : Prop where
  nodup : keys.Nodup
  mem_iff : ∀ k, k ∈ keys ↔ old.lookup k ≠ new.lookup k

/-- Every option has the same value, and the same server is chosen. -/
structure Agree (c c' : Config2) : Prop where
  options : ∀ k, c.getOption k = c'.getOption k
  server : c.getRendezvousServer = c'.getRendezvousServer

namespace Globals

/-- `set_option` for each of the keys, with the value they have in `m`. -/
def setEach (m : HashMap String) (keys : List String) (g : Globals) : Globals :=
  keys.foldl (fun g k => g.setOption k ((m.lookup k).getD "")) g

/-! ## What `set_option` leaves -/

theorem lookup_storeOption (g : Globals) (k v k' : String) :
    (g.storeOption k v).config2.options.lookup k' =
      if k' = k then wanted v else g.config2.options.lookup k' := by
  by_cases hsame : g.config2.options.lookup k = wanted v
  · rw [storeOption_same hsame]
    split
    · rename_i heq
      rw [heq, hsame]
    · rfl
  · have hchanged : (g.storeOption k v).config2.options =
        if (wanted v).isNone then g.config2.options.erase k else g.config2.options.insert k v := by
      unfold storeOption
      dsimp only
      rw [show (if v.isEmpty then none else some v) = wanted v from rfl, if_pos (Ne.symm hsame)]
      rfl
    rw [hchanged]
    unfold wanted
    by_cases hk : k' = k
    · rw [if_pos hk, hk]
      cases v.isEmpty with
      | true => exact Finmap.lookup_erase k g.config2.options
      | false => exact Finmap.lookup_insert g.config2.options
    · rw [if_neg hk]
      cases v.isEmpty with
      | true => exact Finmap.lookup_erase_ne hk
      | false => exact Finmap.lookup_insert_of_ne _ hk

theorem frame_storeOption (g : Globals) (k v : String) :
    (g.storeOption k v).config2.serial = g.config2.serial ∧
      (g.storeOption k v).config2.rendezvousServer = g.config2.rendezvousServer := by
  unfold storeOption
  dsimp only
  split_ifs <;> exact ⟨rfl, rfl⟩

theorem lookup_setOption (g : Globals) (k v k' : String) :
    (g.setOption k v).config2.options.lookup k' =
      if k' = k then wanted v else g.config2.options.lookup k' := by
  unfold setOption
  rw [lookup_storeOption]
  split_ifs <;> rfl

theorem frame_setOption (g : Globals) (k v : String) :
    (g.setOption k v).config2.serial = g.config2.serial ∧
      (g.setOption k v).config2.rendezvousServer =
        if k = customRendezvousServer then "" else g.config2.rendezvousServer := by
  unfold setOption
  obtain ⟨hserial, hserver⟩ :=
    frame_storeOption (if k = customRendezvousServer then g.forgetServer else g) k v
  rw [hserial, hserver]
  split_ifs <;> exact ⟨rfl, rfl⟩

/-! ## What a call for each key leaves -/

theorem lookup_setEach (m : HashMap String) (keys : List String) (g : Globals) (k : String) :
    (setEach m keys g).config2.options.lookup k =
      if k ∈ keys then wanted ((m.lookup k).getD "") else g.config2.options.lookup k := by
  induction keys generalizing g with
  | nil => rfl
  | cons key keys ih =>
      show (setEach m keys (g.setOption key _)).config2.options.lookup k = _
      rw [ih, lookup_setOption]
      by_cases hk : k = key
      · subst hk
        rw [if_pos rfl, ite_self, if_pos List.mem_cons_self]
      · simp only [List.mem_cons, hk, false_or, if_false]

theorem frame_setEach (m : HashMap String) (keys : List String) (g : Globals) :
    (setEach m keys g).config2.serial = g.config2.serial ∧
      (setEach m keys g).config2.rendezvousServer =
        if customRendezvousServer ∈ keys then "" else g.config2.rendezvousServer := by
  induction keys generalizing g with
  | nil => exact ⟨rfl, rfl⟩
  | cons key keys ih =>
      obtain ⟨hserial, hserver⟩ := ih (g.setOption key ((m.lookup key).getD ""))
      obtain ⟨hserial', hserver'⟩ := frame_setOption g key ((m.lookup key).getD "")
      refine ⟨hserial.trans hserial', hserver.trans ?_⟩
      rw [hserver']
      by_cases hkey : key = customRendezvousServer
      · subst hkey
        rw [if_pos rfl, ite_self, if_pos List.mem_cons_self]
      · simp only [List.mem_cons, hkey, Ne.symm hkey, false_or, if_false]

/-- The map that is left is `m`, whatever the order of the keys. -/
theorem options_setEach {m : HashMap String} (hm : ∀ k, m.lookup k ≠ some "") {g : Globals}
    {keys : List String} (hkeys : Changed g.config2.options m keys) :
    (setEach m keys g).config2.options = m := by
  apply Finmap.ext_lookup
  intro k
  rw [lookup_setEach]
  split
  · cases hk : m.lookup k with
    | none => rfl
    | some v =>
        have hv : v ≠ "" := fun heq => hm k (heq ▸ hk)
        exact if_neg (fun hempty => hv (String.isEmpty_iff.mp hempty))
  · rename_i hmem
    exact not_not.mp (fun hne => hmem ((hkeys.mem_iff k).mpr hne))

end Globals

/-! ## The server that is chosen -/

theorem getRendezvousServer_custom {c : Config2} {s : String}
    (h : c.getOption Globals.customRendezvousServer = s) (hs : s ≠ "") :
    c.getRendezvousServer = withPort s := by
  unfold Config2.getRendezvousServer
  rw [h]
  simp only [if_neg hs]

theorem getRendezvousServer_listed {c : Config2}
    (h : c.getOption Globals.customRendezvousServer = "") :
    c.getRendezvousServer =
      withPort (if c.rendezvousServer = "" then
        (serverList c.serial (c.getOption "rendezvous-servers")).headD ""
      else c.rendezvousServer) := by
  unfold Config2.getRendezvousServer Config2.getRendezvousServers
  rw [h]
  simp only [if_true, ne_eq, not_true_eq_false, if_false]

theorem remembered_eq_listed_iff {remembered listed : String} :
    withPort (if remembered = "" then listed else remembered) = withPort listed ↔
      remembered = "" ∨ withPort remembered = withPort listed := by
  by_cases hempty : remembered = ""
  · rw [if_pos hempty]
    exact ⟨fun _ => Or.inl hempty, fun _ => rfl⟩
  · rw [if_neg hempty]
    exact ⟨Or.inr, fun h => h.resolve_left hempty⟩

/-- The custom server stays or is not there, or no server is remembered, or the
remembered one is the first of the list. -/
def SameServer (c : Config2) (m : HashMap String) : Prop :=
  m.lookup Globals.customRendezvousServer ≠ none ∨
    c.options.lookup Globals.customRendezvousServer = none ∨ c.rendezvousServer = "" ∨
      withPort c.rendezvousServer =
        withPort ((serverList c.serial ((m.lookup "rendezvous-servers").getD "")).headD "")

/-- **When the two ways agree.** For every state and every map without empty
values, `set_options` and a `set_option` for every key that changes, in any
order, leave the same options; they lead to the same server if and only if
`SameServer` holds of the state and the map. -/
theorem options_agree_iff (g : Globals) (m : HashMap String) (hm : ∀ k, m.lookup k ≠ some "")
    (keys : List String) (hkeys : Changed g.config2.options m keys) :
    Agree (g.setOptions m).config2 (g.setEach m keys).config2 ↔ SameServer g.config2 m := by
  have hoptions := Globals.options_setEach hm hkeys
  obtain ⟨hserial, hserver⟩ := Globals.frame_setEach m keys g
  have hsame : ∀ k, (g.setOptions m).config2.getOption k =
      (g.setEach m keys).config2.getOption k := by
    intro k
    unfold Config2.getOption
    rw [hoptions]
    rfl
  have hagree : Agree (g.setOptions m).config2 (g.setEach m keys).config2 ↔
      (g.setOptions m).config2.getRendezvousServer =
        (g.setEach m keys).config2.getRendezvousServer :=
    ⟨Agree.server, fun h => ⟨hsame, h⟩⟩
  rw [hagree]
  unfold SameServer
  cases hcustom : m.lookup Globals.customRendezvousServer with
  | some s =>
      -- the custom server is chosen
      have hs : s ≠ "" := fun heq => hm _ (heq ▸ hcustom)
      have hget : (g.setOptions m).config2.getOption Globals.customRendezvousServer = s := by
        show (m.lookup _).getD "" = s
        rw [hcustom, Option.getD_some]
      rw [getRendezvousServer_custom hget hs,
        getRendezvousServer_custom ((hsame _).symm.trans hget) hs]
      exact ⟨fun _ => Or.inl (Option.some_ne_none s), fun _ => rfl⟩
  | none =>
      have hget : (g.setOptions m).config2.getOption Globals.customRendezvousServer = "" := by
        show (m.lookup _).getD "" = ""
        rw [hcustom, Option.getD_none]
      rw [getRendezvousServer_listed hget,
        getRendezvousServer_listed ((hsame _).symm.trans hget), hserial, hserver, ← hsame]
      have hmem := hkeys.mem_iff Globals.customRendezvousServer
      rw [hcustom] at hmem
      by_cases hold : g.config2.options.lookup Globals.customRendezvousServer = none
      · rw [if_neg (fun h => hmem.mp h hold)]
        exact ⟨fun _ => Or.inr (Or.inl hold), fun _ => rfl⟩
      · -- `set_option` has forgotten the remembered server
        rw [if_pos (hmem.mpr hold), if_pos rfl]
        refine remembered_eq_listed_iff.trans ?_
        constructor
        · exact fun h => Or.inr (Or.inr h)
        · rintro (hbad | hbad | h)
          · exact absurd rfl hbad
          · exact absurd hbad hold
          · exact h

/-- A custom server is set and another server remembered. -/
def customServer : Globals :=
  let config2 := { Config2.default with
    rendezvousServer := "a.b:1"
    options := (∅ : HashMap String).insert "custom-rendezvous-server" "c.d:2" }
  ⟨.default, config2, ∅, .default, config2⟩

theorem customServer_changed :
    Changed customServer.config2.options ∅ ["custom-rendezvous-server"] where
  nodup := List.nodup_singleton _
  mem_iff k := by
    show k ∈ ["custom-rendezvous-server"] ↔
      ((∅ : HashMap String).insert "custom-rendezvous-server" "c.d:2").lookup k ≠ _
    rw [List.mem_singleton, Finmap.lookup_empty]
    by_cases hk : k = "custom-rendezvous-server"
    · rw [hk, Finmap.lookup_insert]
      simp
    · rw [Finmap.lookup_insert_of_ne _ hk, Finmap.lookup_empty]
      simp [hk]

theorem options_agree_iff_custom :
    (∀ k, (∅ : HashMap String).lookup k ≠ some "") ∧
      Changed customServer.config2.options ∅ ["custom-rendezvous-server"] ∧
      (Agree (customServer.setOptions ∅).config2
          (customServer.setEach ∅ ["custom-rendezvous-server"]).config2 ↔
        SameServer customServer.config2 ∅) := by
  have hempty : ∀ k, (∅ : HashMap String).lookup k ≠ some "" := by
    intro k
    rw [Finmap.lookup_empty]
    exact nofun
  exact ⟨hempty, customServer_changed,
    options_agree_iff customServer ∅ hempty _ customServer_changed⟩

/-- The custom server is removed: `set_options` falls back to the remembered
server, `set_option` to the first of the list. -/
theorem remembered_server_kept :
    Changed customServer.config2.options ∅ ["custom-rendezvous-server"] ∧
      (customServer.setOptions ∅).config2.getRendezvousServer = "a.b:1" ∧
      (customServer.setEach ∅ ["custom-rendezvous-server"]).config2.getRendezvousServer =
        "rs-sg.rustdesk.com:21116" ∧
      ¬ Agree (customServer.setOptions ∅).config2
        (customServer.setEach ∅ ["custom-rendezvous-server"]).config2 := by
  have hall : (customServer.setOptions ∅).config2.getRendezvousServer = "a.b:1" := by decide
  have heach : (customServer.setEach ∅ ["custom-rendezvous-server"]).config2.getRendezvousServer =
      "rs-sg.rustdesk.com:21116" := by decide
  refine ⟨customServer_changed, hall, heach, fun hagree => ?_⟩
  have heq := hagree.server
  rw [hall, heach] at heq
  exact absurd heq (by decide)

end RustdeskServer.Configuration
