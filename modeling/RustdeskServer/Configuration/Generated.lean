import RustdeskServer.Configuration.Credentials
import RustdeskServer.Configuration.PeerMap
import RustdeskServer.Framework.Words
import Mathlib.Data.Fintype.BigOperators

/-!
# Generated ids and passwords

`get_auto_id` makes an id of the last four bytes of the network interface's address and
drops three bits of them; `update_id` draws one of a thousand million numbers. Both are
decimals, so that the configurations of peers with such ids are kept apart
(`PeerMap.lean`). An automatic id has nine digits at most and a drawn one has ten.

`get_auto_password` draws six characters. There are 32 of them, which divides the number
of words a draw can be: every password is as likely as any other.
-/

namespace RustdeskServer.Configuration

open RustdeskServer.Framework

/-! ## Ids -/

/-- What `mac_address::get_mac_address` finds. -/
structure MacAddress where
  bytes : List UInt8
  six : bytes.length = 6

/-- The address as a number. -/
def MacAddress.number (ma : MacAddress) : ℕ := ByteOrder.big.ofBytes ma.bytes

/-- The loop of `get_auto_id`. -/
def joinBytes (bytes : List UInt8) : UInt32 :=
  bytes.foldl (fun id x => id <<< 8 ||| x.toUInt32) 0

def getAutoId (ma : Option MacAddress) : Option String :=
  ma.map fun ma => toString (joinBytes (ma.bytes.drop 2) &&& 0x1FFFFFFF)

/-- What `update_id` draws: `gen_range(1_000_000_000, 2_000_000_000)`. -/
structure DrawnId where
  number : ℕ
  lower : 1000000000 ≤ number
  upper : number < 2000000000

def DrawnId.id (drawn : DrawnId) : String := toString drawn.number

theorem toNat_joinBytes {bytes : List UInt8} (h : bytes.length ≤ 4) :
    (joinBytes bytes).toNat = ByteOrder.big.ofBytes bytes := by
  induction bytes using List.reverseRecOn with
  | nil => rfl
  | append_singleton bytes b ih =>
      rw [List.length_append, List.length_singleton] at h
      have hlt : (joinBytes bytes).toNat < 256 ^ 3 := by
        rw [ih (by omega)]
        refine lt_of_lt_of_le (ByteOrder.ofBytes_lt _ bytes) ?_
        exact Nat.pow_le_pow_right (by decide) (by omega)
      have hjoin : joinBytes (bytes ++ [b]) = joinBytes bytes <<< 8 ||| b.toUInt32 := by
        simp [joinBytes]
      have hdigits : ByteOrder.big.ofBytes (bytes ++ [b]) =
          b.toNat + 256 * ByteOrder.big.ofBytes bytes := by
        simp [ByteOrder.ofBytes, ByteOrder.ofDigits]
      have hshift : (joinBytes bytes).toNat <<< 8 < 2 ^ 32 := by
        rw [Nat.shiftLeft_eq]
        omega
      have hb : b.toNat < 2 ^ 8 := b.toNat_lt
      rw [hjoin, hdigits, ← ih (by omega), UInt32.toNat_or, UInt32.toNat_shiftLeft]
      simp only [UInt32.reduceToNat, Nat.reduceMod, UInt8.toNat_toUInt32]
      rw [Nat.mod_eq_of_lt hshift, shiftLeft_or_eq_add _ hb]
      omega

theorem getAutoId_eq (ma : MacAddress) :
    getAutoId (some ma) = some (toString (ma.number % 2 ^ 29)) := by
  have hlength : (ma.bytes.drop 2).length = 4 := by rw [List.length_drop, ma.six]
  have hjoin : (joinBytes (ma.bytes.drop 2)).toNat = ma.number % 2 ^ 32 := by
    rw [toNat_joinBytes hlength.le, ByteOrder.ofBytes_drop, hlength]
    rfl
  have hmask : (joinBytes (ma.bytes.drop 2) &&& 0x1FFFFFFF).toNat = ma.number % 2 ^ 29 := by
    have hconst : (0x1FFFFFFF : UInt32).toNat = 2 ^ 29 - 1 := rfl
    rw [UInt32.toNat_and, hjoin, hconst, Nat.and_two_pow_sub_one_eq_mod,
      Nat.mod_mod_of_dvd _ (pow_dvd_pow 2 (by decide))]
  rw [← hmask]
  rfl

/-- Different numbers have different decimals. -/
theorem toString_inj {n k : ℕ} : toString n = toString k ↔ n = k := by
  constructor
  · intro h
    have hdigits : n.repr.toList = k.repr.toList := congrArg String.toList h
    rw [Nat.toList_repr, Nat.toList_repr] at hdigits
    rw [← Nat.ofDigitChars_ten_toDigits (n := n), hdigits, Nat.ofDigitChars_ten_toDigits]
  · rintro rfl
    rfl

/-- An id that a device has without anybody choosing it. -/
def IsGenerated (id : String) : Prop :=
  (∃ ma, getAutoId (some ma) = some id) ∨ ∃ drawn : DrawnId, id = drawn.id

theorem IsGenerated.decimal {id : String} (h : IsGenerated id) : ∃ n : ℕ, id = toString n := by
  rcases h with ⟨ma, hid⟩ | ⟨drawn, hid⟩
  · rw [getAutoId_eq] at hid
    exact ⟨_, (Option.some_inj.mp hid).symm⟩
  · exact ⟨drawn.number, hid⟩

/-- A decimal names a file, and has no dot. -/
theorem decimal_plain (n : ℕ) :
    PathBuf.Plain (toString n).toList ∧ Dotless (toString n).toList := by
  have hlist : (toString n).toList = Nat.toDigits 10 n := Nat.toList_repr
  have hdigit : ∀ c ∈ (toString n).toList, c.isDigit = true := by
    intro c hc
    rw [hlist] at hc
    exact Nat.isDigit_of_mem_toDigits (by decide) (by decide) hc
  have hne : (toString n).toList ≠ [] := by
    rw [hlist]
    exact Nat.toDigits_ne_nil
  have hdot : '.' ∉ (toString n).toList := fun hin => absurd (hdigit _ hin) (by decide)
  refine ⟨⟨hne, fun hin => absurd (hdigit _ hin) (by decide), ?_, ?_⟩, ?_⟩
  · intro heq
    exact hdot (heq ▸ List.mem_cons_self)
  · intro heq
    exact hdot (heq ▸ List.mem_cons_self)
  · exact fun hin => hdot (List.mem_of_mem_tail hin)

/-- **Which ids coincide.** Two devices have the same automatic id exactly if the last 29
bits of their addresses are the same, and no device has an id automatically that another
one was given by `update_id`. Whatever is stored, loaded and removed for peers with ids of
both kinds, the files answer for each of them alone. -/
theorem generated_ids_kept_apart (confy : Confy) (dir : PathBuf) :
    (∀ ma ma' : MacAddress, getAutoId (some ma) = getAutoId (some ma') ↔
      ma.number % 2 ^ 29 = ma'.number % 2 ^ 29) ∧
    (∀ (ma : MacAddress) (drawn : DrawnId), getAutoId (some ma) ≠ some drawn.id) ∧
    ∀ calls : List PeerCall, (∀ call ∈ calls, IsGenerated (String.ofList call.id)) →
      Keyed confy dir {id | IsGenerated (String.ofList id)} (lastStored calls)
        (calls.foldl (PeerCall.step confy dir) ∅) := by
  refine ⟨?_, ?_, ?_⟩
  · intro ma ma'
    rw [getAutoId_eq, getAutoId_eq, Option.some_inj, toString_inj]
  · intro ma drawn heq
    rw [getAutoId_eq, Option.some_inj, DrawnId.id, toString_inj] at heq
    have hlower := drawn.lower
    have hlt : ma.number % 2 ^ 29 < 2 ^ 29 := Nat.mod_lt _ (by decide)
    omega
  · intro calls hcalls
    have hdecimal : ∀ id ∈ {id | IsGenerated (String.ofList id)},
        PathBuf.Plain id ∧ Dotless id := by
      intro id hid
      obtain ⟨n, hn⟩ := IsGenerated.decimal hid
      have hlist : id = (toString n).toList := by simpa using congrArg String.toList hn
      rw [hlist]
      exact decimal_plain n
    have hplain := fun id hid => (hdecimal id hid).1
    have hdotless := fun id hid => (hdecimal id hid).2
    exact (represents_run hplain hdotless calls hcalls represents_empty).keyed hplain hdotless

/-- Two devices of different makers. -/
theorem generated_ids_kept_apart_collision :
    getAutoId (some ⟨[0x00, 0x1a, 0x2b, 0x10, 0x20, 0x30], rfl⟩) =
      getAutoId (some ⟨[0xf4, 0x5c, 0x8b, 0x10, 0x20, 0x30], rfl⟩) :=
  ((generated_ids_kept_apart ⟨true⟩ "/c".toList).1 _ _).mpr (by decide)

/-! ## Passwords -/

/-- `CHARS` -/
def chars : List Char :=
  ['2', '3', '4', '5', '6', '7', '8', '9', 'a', 'b', 'c', 'd', 'e', 'f', 'g', 'h', 'i', 'j', 'k',
    'm', 'n', 'p', 'q', 'r', 's', 't', 'u', 'v', 'w', 'x', 'y', 'z']

/-- The character that a draw stands for. -/
def drawnChar (draw : ℕ) : Char := chars.get ⟨draw % chars.length, Nat.mod_lt _ (by decide)⟩

/-- `get_auto_password` and the salt, with six draws of a `usize`. -/
def getAutoPassword (draws : Fin 6 → ℕ) : String :=
  String.ofList (List.ofFn fun i => drawnChar (draws i))

theorem getAutoPassword_eq_iff (draws : Fin 6 → ℕ) (password : Fin 6 → Char) :
    getAutoPassword draws = String.ofList (List.ofFn password) ↔
      ∀ i, drawnChar (draws i) = password i := by
  constructor
  · intro h
    have hlist : (List.ofFn fun i => drawnChar (draws i)) = List.ofFn password := by
      simpa [getAutoPassword] using h
    exact congrFun (List.ofFn_injective hlist)
  · intro h
    rw [getAutoPassword, funext h]

theorem chars_nodup : chars.Nodup := by decide

/-- Each character stands for the numbers with one rest. -/
theorem drawnChar_eq_iff {c : Char} (hc : c ∈ chars) (draw : ℕ) :
    drawnChar draw = c ↔ draw % 32 = chars.idxOf c := by
  have hidx : chars.get ⟨chars.idxOf c, List.idxOf_lt_length_of_mem hc⟩ = c :=
    List.getElem_idxOf _
  constructor
  · intro h
    rw [← hidx, drawnChar, chars_nodup.get_inj_iff, Fin.mk.injEq] at h
    exact h
  · intro h
    rw [← hidx, drawnChar, chars_nodup.get_inj_iff, Fin.mk.injEq]
    exact h

theorem two_pow_eq {w : ℕ} (hw : 5 ≤ w) : 2 ^ w = 32 * 2 ^ (w - 5) := by
  have hfive : (32 : ℕ) = 2 ^ 5 := rfl
  rw [hfive, ← Nat.pow_add, Nat.add_sub_cancel' hw]

/-- The words of `w` bits that have this rest. -/
def drawsWithRest {w : ℕ} (hw : 5 ≤ w) {rest : ℕ} (hrest : rest < 32) :
    { draw : Fin (2 ^ w) // draw.val % 32 = rest } ≃ Fin (2 ^ (w - 5)) where
  toFun draw :=
    ⟨draw.val / 32, Nat.div_lt_of_lt_mul (lt_of_lt_of_eq draw.val.isLt (two_pow_eq hw))⟩
  invFun q := ⟨⟨32 * q + rest, by have hq := q.isLt; have hpow := two_pow_eq hw; omega⟩, by
    show (32 * q.val + rest) % 32 = rest
    omega⟩
  left_inv draw := by
    ext
    have hmod := draw.property
    show 32 * (draw.val.val / 32) + rest = draw.val.val
    omega
  right_inv q := by
    ext
    show (32 * q.val + rest) / 32 = q.val
    omega

/-- **Every password is as likely as any other.** With words of at least five bits, as many
of the six draws lead to one password of six of the characters as to any other, and all
draws lead to one of them. -/
theorem auto_password_uniform {w : ℕ} (hw : 5 ≤ w) :
    (∀ draws : Fin 6 → ℕ, ∃ password : Fin 6 → Char, (∀ i, password i ∈ chars) ∧
      getAutoPassword draws = String.ofList (List.ofFn password)) ∧
    ∀ password : Fin 6 → Char, (∀ i, password i ∈ chars) →
      Fintype.card { draws : Fin 6 → Fin (2 ^ w) //
        getAutoPassword (fun i => (draws i).val) = String.ofList (List.ofFn password) } =
        (2 ^ (w - 5)) ^ 6 := by
  constructor
  · intro draws
    exact ⟨fun i => drawnChar (draws i), fun i => List.get_mem _ _, rfl⟩
  · intro password hpassword
    have hdraws : ∀ draws : Fin 6 → Fin (2 ^ w),
        getAutoPassword (fun i => (draws i).val) = String.ofList (List.ofFn password) ↔
          ∀ i, (draws i).val % 32 = chars.idxOf (password i) := by
      intro draws
      rw [getAutoPassword_eq_iff]
      exact forall_congr' fun i => drawnChar_eq_iff (hpassword i) _
    have hrest : ∀ i, chars.idxOf (password i) < 32 := fun i =>
      List.idxOf_lt_length_of_mem (hpassword i)
    have hequiv : { draws : Fin 6 → Fin (2 ^ w) //
        getAutoPassword (fun i => (draws i).val) = String.ofList (List.ofFn password) } ≃
        (Fin 6 → Fin (2 ^ (w - 5))) :=
      (Equiv.subtypeEquivRight hdraws).trans <|
        Equiv.subtypePiEquivPi.trans <|
          Equiv.piCongrRight fun i => drawsWithRest hw (hrest i)
    rw [Fintype.card_congr hequiv]
    simp

theorem auto_password_uniform_usize :
    (∀ draws : Fin 6 → ℕ, ∃ password : Fin 6 → Char, (∀ i, password i ∈ chars) ∧
      getAutoPassword draws = String.ofList (List.ofFn password)) ∧
    ∀ password : Fin 6 → Char, (∀ i, password i ∈ chars) →
      Fintype.card { draws : Fin 6 → Fin (2 ^ 64) //
        getAutoPassword (fun i => (draws i).val) = String.ofList (List.ofFn password) } =
        (2 ^ (64 - 5)) ^ 6 :=
  auto_password_uniform (by decide)

end RustdeskServer.Configuration
