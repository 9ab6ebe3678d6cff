import Microtun.Bytes
import Microtun.Error

/-! The cryptographic primitives of `crypto.rs`.  The ciphers, hashes and the curve come from other
crates: they are the fields of `Crypto`.  What this crate builds from them is modelled. -/

namespace Microtun

/-- Authentication tag length. -/
def tagLen : Nat := 16

/-- TAI64N timestamp length. -/
def timestampLen : Nat := 12

/-- A key of the curve, of a cipher or of a hash. -/
abbrev Key := Bytes 32

instance Key.lawfulBEq : LawfulBEq Key := inferInstance

/-- The primitives of the crates `blake2`, `hmac`, `chacha20poly1305` and `x25519-dalek`.  A cipher
works in place, so a ciphertext is as long as its plaintext. -/
class Crypto where
  /-- BLAKE2s-256. -/
  blake2s : List UInt8 → Key
  /-- Keyed BLAKE2s with 16 bytes of output; it refuses some keys by their length. -/
  blake2sMac : List UInt8 → List UInt8 → Option (Bytes 16)
  /-- HMAC-BLAKE2s. -/
  hmacBlake2s : Key → List UInt8 → Option Key
  /-- ChaCha20Poly1305: key, nonce, associated data, plaintext. -/
  encrypt : Key → Bytes 12 → List UInt8 → (plaintext : List UInt8) →
    Option (Vector UInt8 plaintext.length × Bytes 16)
  decrypt : Key → Bytes 12 → List UInt8 → (ciphertext : List UInt8) → Bytes 16 →
    Option (Vector UInt8 ciphertext.length)
  /-- XChaCha20Poly1305. -/
  xencrypt : Key → Bytes 24 → List UInt8 → (plaintext : List UInt8) →
    Option (Vector UInt8 plaintext.length × Bytes 16)
  xdecrypt : Key → Bytes 24 → List UInt8 → (ciphertext : List UInt8) → Bytes 16 →
    Option (Vector UInt8 ciphertext.length)
  /-- X25519: private key, public key. -/
  diffieHellman : Key → Key → Key
  publicKey : Key → Key

/-- A random number generator, `rand_core::RngCore`. -/
class RngCore (R : Type) where
  nextU32 : R → UInt32 × R
  fillBytes : R → (n : Nat) → Bytes n × R

section

variable [Crypto] {R : Type} [RngCore R]

/-- `Hash(a ‖ b ‖ ...)`. -/
def hash (parts : List (List UInt8)) : Key := Crypto.blake2s parts.flatten

/-- `Mac(key, a ‖ b ‖ ...)`. -/
def mac16 (key : List UInt8) (parts : List (List UInt8)) : Except Error (Bytes 16) :=
  match Crypto.blake2sMac key parts.flatten with
  | some mac => .ok mac
  | none => .error .crypto

def macEq (a : Bytes 16) (b : List UInt8) : Bool := a.toList = b

def hmac (key : Key) (parts : List (List UInt8)) : Except Error Key :=
  match Crypto.hmacBlake2s key parts.flatten with
  | some mac => .ok mac
  | none => .error .crypto

def kdf1 (key : Key) (input : List UInt8) : Except Error Key := do
  let t0 ← hmac key [input]
  hmac t0 [[0x01]]

def kdf2 (key : Key) (input : List UInt8) : Except Error (Key × Key) := do
  let t0 ← hmac key [input]
  let t1 ← hmac t0 [[0x01]]
  let t2 ← hmac t0 [t1.toList, [0x02]]
  return (t1, t2)

def kdf3 (key : Key) (input : List UInt8) : Except Error (Key × Key × Key) := do
  let t0 ← hmac key [input]
  let t1 ← hmac t0 [[0x01]]
  let t2 ← hmac t0 [t1.toList, [0x02]]
  let t3 ← hmac t0 [t2.toList, [0x03]]
  return (t1, t2, t3)

/-- The nonce of a counter: 32 zero bits, then the counter. -/
def counterNonce (counter : Nat) : Bytes 12 :=
  .ofList 12 ([0, 0, 0, 0] ++ toLeBytes 8 counter)

/-- Encrypt the first `ptLen` bytes of the buffer in place and put the tag after them. -/
def aeadSeal (key : Key) (counter : Nat) (buf : List UInt8) (ptLen : Nat) (ad : List UInt8) :
    Except Error (List UInt8) :=
  let total := ptLen + tagLen
  if buf.length < total then .error .bufferTooSmall
  else
    match Crypto.encrypt key (counterNonce counter) ad (buf.take ptLen) with
    | some (ciphertext, tag) => .ok (ciphertext.toList ++ tag.toList ++ buf.drop total)
    | none => .error .crypto

/-- Open `ciphertext ‖ tag`; gives the plaintext. -/
def aeadOpen (key : Key) (counter : Nat) (buf : List UInt8) (ad : List UInt8) :
    Except Error (List UInt8) :=
  if buf.length < tagLen then .error .crypto
  else
    let ptLen := buf.length - tagLen
    match Crypto.decrypt key (counterNonce counter) ad (buf.take ptLen)
        (.ofList 16 (buf.drop ptLen)) with
    | some plaintext => .ok plaintext.toList
    | none => .error .crypto

def xaeadSeal (key : Key) (nonce : Bytes 24) (buf : List UInt8) (ptLen : Nat) (ad : List UInt8) :
    Except Error (List UInt8) :=
  let total := ptLen + tagLen
  if buf.length < total then .error .bufferTooSmall
  else
    match Crypto.xencrypt key nonce ad (buf.take ptLen) with
    | some (ciphertext, tag) => .ok (ciphertext.toList ++ tag.toList ++ buf.drop total)
    | none => .error .crypto

def xaeadOpen (key : Key) (nonce : Bytes 24) (buf : List UInt8) (ad : List UInt8) :
    Except Error (List UInt8) :=
  if buf.length < tagLen then .error .crypto
  else
    let ptLen := buf.length - tagLen
    match Crypto.xdecrypt key nonce ad (buf.take ptLen) (.ofList 16 (buf.drop ptLen)) with
    | some plaintext => .ok plaintext.toList
    | none => .error .crypto

/-- `DH(private, public)`, which refuses the all-zero shared secret of a low-order point. -/
def dh (priv pub : Key) : Except Error Key :=
  let shared := Crypto.diffieHellman priv pub
  if shared = Bytes.zero 32 then .error .crypto else .ok shared

/-- A fresh key pair, private key first. -/
def dhGenerate (rng : R) : (Key × Key) × R :=
  let (secret, rng) := RngCore.fillBytes rng 32
  ((secret, Crypto.publicKey secret), rng)

/-- The TAI64N timestamp of a Unix time, with the low 24 bits of the nanoseconds cleared. -/
def tai64n (unixSecs nanos : Nat) : Except Error (Bytes 12) :=
  let seconds := 0x400000000000000a + unixSecs
  if 2 ^ 64 ≤ seconds then .error .timeOverflow
  else .ok (.ofList 12 (toBeBytes 8 seconds ++ toBeBytes 4 (nanos / 2 ^ 24 * 2 ^ 24)))

end

/-! ### Laws of the primitives -/

section

variable [Crypto]

/-- The cipher opens what it sealed. -/
def Crypto.OpensSealed : Prop :=
  ∀ key nonce ad plaintext ciphertext tag,
    Crypto.encrypt key nonce ad plaintext = some (ciphertext, tag) →
    (Crypto.decrypt key nonce ad ciphertext.toList tag).map Vector.toList = some plaintext

/-- So does the one with long nonces. -/
def Crypto.XOpensSealed : Prop :=
  ∀ key nonce ad plaintext ciphertext tag,
    Crypto.xencrypt key nonce ad plaintext = some (ciphertext, tag) →
    (Crypto.xdecrypt key nonce ad ciphertext.toList tag).map Vector.toList = some plaintext

omit [Crypto] in
/-- A cipher that opens what it sealed opens the two halves of the buffer. -/
theorem open_of_seal
    {encrypt : (plaintext : List UInt8) → Option (Vector UInt8 plaintext.length × Bytes 16)}
    {decrypt : (ciphertext : List UInt8) → Bytes 16 → Option (Vector UInt8 ciphertext.length)}
    (hlaw : ∀ plaintext ciphertext tag, encrypt plaintext = some (ciphertext, tag) →
      (decrypt ciphertext.toList tag).map Vector.toList = some plaintext)
    {buf sealed : List UInt8} {ptLen : Nat} (hbuf : buf.length = ptLen + tagLen)
    {ciphertext : Vector UInt8 (buf.take ptLen).length} {tag : Bytes 16}
    (henc : encrypt (buf.take ptLen) = some (ciphertext, tag))
    (hsealed : sealed = ciphertext.toList ++ tag.toList ++ buf.drop (ptLen + tagLen)) :
    tagLen ≤ sealed.length ∧ (decrypt (sealed.take (sealed.length - tagLen))
        (.ofList 16 (sealed.drop (sealed.length - tagLen)))).map Vector.toList =
          some (buf.take ptLen) := by
  have hrest : buf.drop (ptLen + tagLen) = [] := List.drop_of_length_le (Nat.le_of_eq hbuf)
  rw [hrest, List.append_nil] at hsealed
  have hlen : ciphertext.toList.length = ptLen := by
    rw [Vector.length_toList, List.length_take, hbuf]
    omega
  have htag : tag.toList.length = tagLen := Vector.length_toList
  have hptLen : sealed.length - tagLen = ptLen := by
    rw [hsealed, List.length_append, hlen, htag]
    omega
  have htake : sealed.take (sealed.length - tagLen) = ciphertext.toList := by
    rw [hptLen, hsealed, List.take_left' hlen]
  have hdrop : Bytes.ofList 16 (sealed.drop (sealed.length - tagLen)) = tag := by
    rw [hptLen, hsealed, List.drop_left' hlen, Bytes.ofList_toList]
  constructor
  · rw [hsealed, List.length_append, htag]
    omega
  · rw [htake, hdrop]
    exact hlaw _ ciphertext tag henc

/-- Opening under the same key, counter and associated data gives back what was sealed. -/
theorem aeadOpen_aeadSeal (hlaw : Crypto.OpensSealed) {key : Key} {counter ptLen : Nat}
    {buf ad sealed : List UInt8} (hbuf : buf.length = ptLen + tagLen)
    (h : aeadSeal key counter buf ptLen ad = .ok sealed) :
    aeadOpen key counter sealed ad = .ok (buf.take ptLen) := by
  simp only [aeadSeal, hbuf, Nat.lt_irrefl, if_false] at h
  split at h
  · rename_i ciphertext tag henc
    obtain ⟨hlen, hdec⟩ := open_of_seal (hlaw key (counterNonce counter) ad) hbuf henc
      (Except.ok.inj h).symm
    obtain ⟨plaintext, hsome, hplain⟩ := Option.map_eq_some_iff.mp hdec
    simp only [aeadOpen, Nat.not_lt_of_le hlen, if_false, hsome, hplain]
  · cases h

theorem xaeadOpen_xaeadSeal (hlaw : Crypto.XOpensSealed) {key : Key} {nonce : Bytes 24}
    {ptLen : Nat} {buf ad sealed : List UInt8} (hbuf : buf.length = ptLen + tagLen)
    (h : xaeadSeal key nonce buf ptLen ad = .ok sealed) :
    xaeadOpen key nonce sealed ad = .ok (buf.take ptLen) := by
  simp only [xaeadSeal, hbuf, Nat.lt_irrefl, if_false] at h
  split at h
  · rename_i ciphertext tag henc
    obtain ⟨hlen, hdec⟩ := open_of_seal (hlaw key nonce ad) hbuf henc (Except.ok.inj h).symm
    obtain ⟨plaintext, hsome, hplain⟩ := Option.map_eq_some_iff.mp hdec
    simp only [xaeadOpen, Nat.not_lt_of_le hlen, if_false, hsome, hplain]
  · cases h

/-- The keyed hash with a short output takes every key of at most 32 bytes. -/
def Crypto.Macs : Prop := ∀ key input, key.length ≤ 32 → (Crypto.blake2sMac key input).isSome

theorem mac16_ok (hlaw : Crypto.Macs) {key : List UInt8} (hkey : key.length ≤ 32)
    (parts : List (List UInt8)) : ∃ mac, mac16 key parts = .ok mac := by
  obtain ⟨mac, hmac⟩ := Option.isSome_iff_exists.mp (hlaw key parts.flatten hkey)
  exact ⟨mac, by simp only [mac16, hmac]⟩

/-- Both sides of an exchange compute the same secret, and it is not zero. -/
structure Crypto.Agrees : Prop where
  comm : ∀ a b, Crypto.diffieHellman a (Crypto.publicKey b) =
    Crypto.diffieHellman b (Crypto.publicKey a)
  ne_zero : ∀ a b, Crypto.diffieHellman a (Crypto.publicKey b) ≠ Bytes.zero 32

/-- The keyed hash takes every key and every input. -/
def Crypto.Hashes : Prop := ∀ key input, (Crypto.hmacBlake2s key input).isSome

theorem dh_publicKey (hlaw : Crypto.Agrees) (a b : Key) :
    ∃ shared, dh a (Crypto.publicKey b) = .ok shared ∧ dh b (Crypto.publicKey a) = .ok shared := by
  refine ⟨Crypto.diffieHellman a (Crypto.publicKey b), if_neg (hlaw.ne_zero a b), ?_⟩
  rw [hlaw.comm a b]
  exact if_neg (hlaw.ne_zero b a)

theorem hmac_ok (hlaw : Crypto.Hashes) (key : Key) (parts : List (List UInt8)) :
    ∃ mac, hmac key parts = .ok mac := by
  obtain ⟨mac, hmac⟩ := Option.isSome_iff_exists.mp (hlaw key parts.flatten)
  exact ⟨mac, by simp only [Microtun.hmac, hmac]⟩

theorem kdf1_ok (hlaw : Crypto.Hashes) (key : Key) (input : List UInt8) :
    ∃ c, kdf1 key input = .ok c := by
  obtain ⟨t0, h0⟩ := hmac_ok hlaw key [input]
  obtain ⟨t1, h1⟩ := hmac_ok hlaw t0 [[0x01]]
  exact ⟨t1, by simp only [kdf1, h0, h1, bind, Except.bind]⟩

theorem kdf2_ok (hlaw : Crypto.Hashes) (key : Key) (input : List UInt8) :
    ∃ c k, kdf2 key input = .ok (c, k) := by
  obtain ⟨t0, h0⟩ := hmac_ok hlaw key [input]
  obtain ⟨t1, h1⟩ := hmac_ok hlaw t0 [[0x01]]
  obtain ⟨t2, h2⟩ := hmac_ok hlaw t0 [t1.toList, [0x02]]
  exact ⟨t1, t2, by simp only [kdf2, h0, h1, h2, bind, Except.bind, pure, Except.pure]⟩

theorem kdf3_ok (hlaw : Crypto.Hashes) (key : Key) (input : List UInt8) :
    ∃ c t k, kdf3 key input = .ok (c, t, k) := by
  obtain ⟨t0, h0⟩ := hmac_ok hlaw key [input]
  obtain ⟨t1, h1⟩ := hmac_ok hlaw t0 [[0x01]]
  obtain ⟨t2, h2⟩ := hmac_ok hlaw t0 [t1.toList, [0x02]]
  obtain ⟨t3, h3⟩ := hmac_ok hlaw t0 [t2.toList, [0x03]]
  exact ⟨t1, t2, t3, by simp only [kdf3, h0, h1, h2, h3, bind, Except.bind, pure, Except.pure]⟩

end

end Microtun
