import RustdeskServer.Codec.RoundTrip

/-!
# The secured stream (`tcp.rs`)

`FramedStream` is a framed TCP connection with an optional secretbox key and
two counters, one for the messages sealed and one for the messages opened. The
counters are never sent: the nonce of the `n`-th message of a direction is the
number `n` itself, padded to the nonce length.

The network side of `Framed` is not part of the repository. What it hands to
`next` (a frame, an error, the end of the stream) is an argument here, and for
a reliable connection the read buffer is the one of the framing library.
`sodiumoxide::crypto::secretbox` is a parameter, `SecretBox`.
-/

namespace RustdeskServer.Stream

open RustdeskServer.Framework RustdeskServer.Codec

abbrev Nonce : Type := List UInt8

/-- `secretbox::seal(m, n, k)` and `secretbox::open(c, n, k)`; `Err(())` is
`none`. -/
structure SecretBox (Key : Type) where
  sealBox : Bytes → Nonce → Key → Bytes
  openBox : Bytes → Nonce → Key → Option Bytes

/-- `u64::to_ne_bytes` on a little-endian host. -/
def toNeBytes (x : UInt64) : Bytes :=
  [x.toUInt8, (x >>> 8).toUInt8, (x >>> 16).toUInt8, (x >>> 24).toUInt8,
    (x >>> 32).toUInt8, (x >>> 40).toUInt8, (x >>> 48).toUInt8, (x >>> 56).toUInt8]

/-- `secretbox::NONCEBYTES`. -/
def nonceBytes : ℕ := 24

/-- The sequence number in front, zeros behind. -/
def getNonce (seqnum : UInt64) : Nonce :=
  toNeBytes seqnum ++ List.replicate (nonceBytes - (toNeBytes seqnum).length) 0

/-- The second component of `FramedStream`: key, send counter, receive counter. -/
abbrev Keys (Key : Type) : Type := Option (Key × UInt64 × UInt64)

/-- `FramedStream(Framed<TcpStream, BytesCodec>, Option<(Key, u64, u64)>)`. -/
abbrev FramedStream (Key : Type) : Type := BytesCodec × Keys Key

/-- A toy secretbox for runs on concrete inputs: the first sixteen bytes of the
nonce, which hold the whole sequence number, stand in for the tag. -/
def tagBox : SecretBox Unit where
  sealBox m n _ := n.take 16 ++ m
  openBox c n _ := if c.take 16 = n.take 16 then some (c.drop 16) else none

/-- One call of `secretbox::seal`. -/
structure SealCall (Key : Type) where
  plain : Bytes
  nonce : Nonce
  key : Key
deriving DecidableEq

variable {Key : Type}

namespace FramedStream

/-- `FramedStream::from`. -/
def fromStream : FramedStream Key := (BytesCodec.new, none)

def setKey (s : FramedStream Key) (key : Key) : FramedStream Key :=
  (s.1, some (key, 0, 0))

def setRaw (s : FramedStream Key) : FramedStream Key := (s.1.setRaw, none)

/-- The first half of `send_raw`: count the message and seal it. The last
component lists the seal calls made. -/
def sealMsg (box : SecretBox Key) (keys : Keys Key) (msg : Bytes) :
    Bytes × Keys Key × List (SealCall Key) :=
  match keys with
  | some (key, sent, received) =>
      let sent := sent + 1
      let nonce := getNonce sent
      (box.sealBox msg nonce key, some (key, sent, received), [⟨msg, nonce, key⟩])
  | none => (msg, none, [])

/-- `send_raw`: what is written to the connection, or the codec's error. The
counter has moved in both cases. -/
def sendRaw (box : SecretBox Key) (s : FramedStream Key) (msg : Bytes) :
    Except IoError Bytes × FramedStream Key :=
  let (msg, keys, _) := sealMsg box s.2 msg
  match s.1.encode msg [] with
  | (.ok (), out) => (.ok out, s.1, keys)
  | (.error e, _) => (.error e, s.1, keys)

def decryptionError : IoError := ⟨.other, "decryption error"⟩

/-- What `next` does with a frame. -/
def openFrame (box : SecretBox Key) (keys : Keys Key) (bytes : Bytes) :
    Except IoError Bytes × Keys Key :=
  match keys with
  | some (key, sent, received) =>
      let received := received + 1
      let nonce := getNonce received
      match box.openBox bytes nonce key with
      | some res => (.ok res, some (key, sent, received))
      | none => (.error decryptionError, some (key, sent, received))
  | none => (.ok bytes, none)

/-- `next`, given the answer `res` of the framed connection. -/
def next (box : SecretBox Key) (keys : Keys Key)
    (res : Option (Except IoError Bytes)) :
    Option (Except IoError Bytes) × Keys Key :=
  match res with
  | some (.ok bytes) =>
      let (r, keys) := openFrame box keys bytes
      (some r, keys)
  | res => (res, keys)

/-- `next` on a reliable connection: the codec reads from the buffer, and a
complete frame is opened. -/
def receiver (box : SecretBox Key) :
    Decoder (FramedStream Key) UInt8 Bytes IoError :=
  BytesCodec.decoder.andThen (openFrame box)

theorem receiver_resumable (box : SecretBox Key) :
    (receiver box).Resumable (fun s => s.1.raw = false) :=
  Decoder.andThen_resumable BytesCodec.decoder_resumable (openFrame box)

end FramedStream

/-! ## Nonces -/

theorem toNat_shift8 (x : UInt64) (i : ℕ) (hi : i < 8) :
    (x >>> UInt64.ofNat (8 * i)).toUInt8.toNat = x.toNat / 256 ^ i % 256 := by
  rw [UInt64.toNat_toUInt8, UInt64.toNat_shiftRight, UInt64.toNat_ofNat',
    Nat.shiftRight_eq_div_pow]
  congr 2
  rw [show (256 : ℕ) = 2 ^ 8 by rfl, ← Nat.pow_mul]
  congr 1
  omega

theorem toNeBytes_injective {x y : UInt64} (h : toNeBytes x = toNeBytes y) : x = y := by
  have hbyte : ∀ i, i < 8 → x.toNat / 256 ^ i % 256 = y.toNat / 256 ^ i % 256 := by
    simp only [toNeBytes, List.cons.injEq, and_true] at h
    obtain ⟨h0, h1, h2, h3, h4, h5, h6, h7⟩ := h
    intro i hi
    rw [← toNat_shift8 x i hi, ← toNat_shift8 y i hi]
    congr 1
    match i, hi with
    | 0, _ => simpa using h0
    | 1, _ => exact h1
    | 2, _ => exact h2
    | 3, _ => exact h3
    | 4, _ => exact h4
    | 5, _ => exact h5
    | 6, _ => exact h6
    | 7, _ => exact h7
  have h0 := hbyte 0 (by omega)
  have h1 := hbyte 1 (by omega)
  have h2 := hbyte 2 (by omega)
  have h3 := hbyte 3 (by omega)
  have h4 := hbyte 4 (by omega)
  have h5 := hbyte 5 (by omega)
  have h6 := hbyte 6 (by omega)
  have h7 := hbyte 7 (by omega)
  have hx := x.toNat_lt
  have hy := y.toNat_lt
  apply UInt64.toNat_inj.mp
  norm_num at h0 h1 h2 h3 h4 h5 h6 h7
  omega

/-- Distinct sequence numbers have distinct nonces. -/
theorem getNonce_injective {x y : UInt64} (h : getNonce x = getNonce y) : x = y :=
  toNeBytes_injective (List.append_inj_left h rfl)

theorem getNonce_length (x : UInt64) : (getNonce x).length = nonceBytes := rfl

/-- The toy box opens what it sealed, under the same number only. -/
theorem tagBox_open (m : Bytes) (i j : UInt64) :
    tagBox.openBox (tagBox.sealBox m (getNonce i) ()) (getNonce j) () =
      if i = j then some m else none := by
  have htake : ∀ x, (getNonce x).take 16 = toNeBytes x ++ List.replicate 8 0 :=
    fun _ => rfl
  have hcut : ((getNonce i).take 16 ++ m).take 16 = (getNonce i).take 16 :=
    List.take_left' rfl
  have hrest : ((getNonce i).take 16 ++ m).drop 16 = m := List.drop_left' rfl
  show (if _ then _ else _) = _
  rw [show tagBox.sealBox m (getNonce i) () = (getNonce i).take 16 ++ m from rfl,
    hcut, hrest, htake, htake]
  by_cases hij : i = j
  · subst hij
    rw [if_pos rfl, if_pos rfl]
  · rw [if_neg hij, if_neg]
    intro h
    exact hij (toNeBytes_injective (List.append_inj_left h rfl))

end RustdeskServer.Stream
