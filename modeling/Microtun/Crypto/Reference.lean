import Microtun.Relay

/-! The primitives themselves: BLAKE2s, ChaCha20 and Poly1305 on words and bytes, so that a run of
the engine can be evaluated. Of the curve only the answers for a few private keys are here; every
other private key is treated as one more. -/

namespace Microtun.Reference

/-! ### The core permutation -/

def add (x y : Nat) : Nat := Nat.mod (Nat.add x y) 0x100000000

def rotateRight (x n : Nat) : Nat :=
  Nat.lor (Nat.shiftRight x n) (Nat.mod (Nat.shiftLeft x (Nat.sub 32 n)) 0x100000000)

/-- A column of four words. -/
structure Column where
  a : Nat
  b : Nat
  c : Nat
  d : Nat
deriving DecidableEq, Repr

/-- Four columns, or four diagonals. -/
structure Block where
  v0 : Column
  v1 : Column
  v2 : Column
  v3 : Column
deriving DecidableEq, Repr

/-- How far the words are rotated. -/
structure Rotations where
  r0 : Nat
  r1 : Nat
  r2 : Nat
  r3 : Nat

/-- Mix two words into a column. -/
def Column.mix (r : Rotations) (v : Column) (x y : Nat) : Column :=
  let a := add (add v.a v.b) x
  let d := rotateRight (Nat.xor v.d a) r.r0
  let c := add v.c d
  let b := rotateRight (Nat.xor v.b c) r.r1
  let a := add (add a b) y
  let d := rotateRight (Nat.xor d a) r.r2
  let c := add c d
  let b := rotateRight (Nat.xor b c) r.r3
  ⟨a, b, c, d⟩

/-- The diagonals of a block. -/
def Block.diagonals (v : Block) : Block :=
  ⟨⟨v.v0.a, v.v1.b, v.v2.c, v.v3.d⟩, ⟨v.v1.a, v.v2.b, v.v3.c, v.v0.d⟩,
    ⟨v.v2.a, v.v3.b, v.v0.c, v.v1.d⟩, ⟨v.v3.a, v.v0.b, v.v1.c, v.v2.d⟩⟩

/-- The columns of a block whose diagonals are given. -/
def Block.undiagonal (v : Block) : Block :=
  ⟨⟨v.v0.a, v.v3.b, v.v2.c, v.v1.d⟩, ⟨v.v1.a, v.v0.b, v.v3.c, v.v2.d⟩,
    ⟨v.v2.a, v.v1.b, v.v0.c, v.v3.d⟩, ⟨v.v3.a, v.v2.b, v.v1.c, v.v0.d⟩⟩

/-- Mix eight words into four columns. -/
def Block.mix (r : Rotations) (v : Block) (x0 y0 x1 y1 x2 y2 x3 y3 : Nat) : Block :=
  ⟨v.v0.mix r x0 y0, v.v1.mix r x1 y1, v.v2.mix r x2 y2, v.v3.mix r x3 y3⟩

/-- Mix sixteen words into the columns and then into the diagonals. -/
def Block.round (r : Rotations) (v : Block)
    (x0 y0 x1 y1 x2 y2 x3 y3 x4 y4 x5 y5 x6 y6 x7 y7 : Nat) : Block :=
  ((v.mix r x0 y0 x1 y1 x2 y2 x3 y3).diagonals.mix r x4 y4 x5 y5 x6 y6 x7 y7).undiagonal

/-- The words of a block, row by row. -/
def Block.words (v : Block) : List Nat :=
  [v.v0.a, v.v1.a, v.v2.a, v.v3.a, v.v0.b, v.v1.b, v.v2.b, v.v3.b,
    v.v0.c, v.v1.c, v.v2.c, v.v3.c, v.v0.d, v.v1.d, v.v2.d, v.v3.d]

/-- The block of sixteen words. -/
def Block.ofWords (words : List Nat) : Block :=
  let w := fun i => words.getD i 0
  ⟨⟨w 0, w 4, w 8, w 12⟩, ⟨w 1, w 5, w 9, w 13⟩, ⟨w 2, w 6, w 10, w 14⟩, ⟨w 3, w 7, w 11, w 15⟩⟩

/-- The little-endian words of some bytes. -/
def wordsOf : List UInt8 → List Nat
  | a :: b :: c :: d :: rest => ofLeBytes [a, b, c, d] :: wordsOf rest
  | _ => []

def bytesOf (words : List Nat) : List UInt8 := words.flatMap (toLeBytes 4)

/-- Fill up with zeros to a multiple of `n` bytes. -/
def padTo (n : Nat) (bytes : List UInt8) : List UInt8 :=
  bytes ++ List.replicate ((n - bytes.length % n) % n) 0

/-! ### BLAKE2s -/

def blakeIv : List Nat :=
  [0x6a09e667, 0xbb67ae85, 0x3c6ef372, 0xa54ff53a, 0x510e527f, 0x9b05688c, 0x1f83d9ab, 0x5be0cd19]

/-- The ten rounds, each with the words of the message in an order of its own. -/
def blakeRounds (v : Block) : List Nat → Block
  | [m0, m1, m2, m3, m4, m5, m6, m7, m8, m9, m10, m11, m12, m13, m14, m15] =>
    let r : Rotations := ⟨16, 12, 8, 7⟩
    let v := v.round r m0 m1 m2 m3 m4 m5 m6 m7 m8 m9 m10 m11 m12 m13 m14 m15
    let v := v.round r m14 m10 m4 m8 m9 m15 m13 m6 m1 m12 m0 m2 m11 m7 m5 m3
    let v := v.round r m11 m8 m12 m0 m5 m2 m15 m13 m10 m14 m3 m6 m7 m1 m9 m4
    let v := v.round r m7 m9 m3 m1 m13 m12 m11 m14 m2 m6 m5 m10 m4 m0 m15 m8
    let v := v.round r m9 m0 m5 m7 m2 m4 m10 m15 m14 m1 m11 m12 m6 m8 m3 m13
    let v := v.round r m2 m12 m6 m10 m0 m11 m8 m3 m4 m13 m7 m5 m15 m14 m1 m9
    let v := v.round r m12 m5 m1 m15 m14 m13 m4 m10 m0 m7 m6 m3 m9 m2 m8 m11
    let v := v.round r m13 m11 m7 m14 m12 m1 m3 m9 m5 m0 m15 m4 m8 m6 m2 m10
    let v := v.round r m6 m15 m14 m9 m11 m3 m0 m8 m12 m2 m13 m7 m1 m4 m10 m5
    v.round r m10 m2 m8 m4 m7 m6 m1 m5 m15 m11 m9 m14 m3 m12 m13 m0
  | _ => v

/-- Take in one block, after which `total` bytes were taken in. -/
def blakeCompress (h message : List Nat) (total : Nat) (last : Bool) : List Nat :=
  let iv := blakeIv.zipWith Nat.xor [0, 0, 0, 0, total, 0, if last then 2 ^ 32 - 1 else 0, 0]
  let v := blakeRounds (Block.ofWords (h ++ iv)) message
  h.zipWith Nat.xor (v.words.zipWith Nat.xor (v.words.drop 8))

/-- Take in all blocks; there are no more of them than `fuel`. -/
def blakeBlocks (h : List Nat) (total : Nat) (bytes : List UInt8) : (fuel : Nat) → List Nat
  | 0 => h
  | fuel + 1 =>
    if bytes.length ≤ 64 then
      let block := bytes ++ List.replicate (64 - bytes.length) 0
      blakeCompress h (wordsOf block) (total + bytes.length) true
    else
      blakeBlocks (blakeCompress h (wordsOf (bytes.take 64)) (total + 64) false) (total + 64)
        (bytes.drop 64) fuel

/-- BLAKE2s with `n` bytes of output and a key of at most 32 bytes. -/
def blake2s (n : Nat) (key input : List UInt8) : Bytes n :=
  let parameter := 0x01010000 + 256 * key.length + n
  let bytes := padTo 64 key ++ input
  .ofList n (bytesOf (blakeBlocks (blakeIv.zipWith Nat.xor [parameter, 0, 0, 0, 0, 0, 0, 0]) 0 bytes
    (bytes.length / 64 + 1)))

def hmacBlake2s (key : Key) (input : List UInt8) : Key :=
  let block := padTo 64 key.toList
  let inner : Key := blake2s 32 [] (block.map (· ^^^ 0x36) ++ input)
  blake2s 32 [] (block.map (· ^^^ 0x5c) ++ inner.toList)

/-! ### ChaCha20 and Poly1305 -/

def chachaRounds (v : Block) : Block :=
  (List.range 10).foldl
    (fun v _ => v.round ⟨16, 20, 24, 25⟩ 0 0 0 0 0 0 0 0 0 0 0 0 0 0 0 0) v

/-- The state for a key and the sixteen bytes of counter and nonce. -/
def chachaState (key : Key) (nonce : List UInt8) : List Nat :=
  [0x61707865, 0x3320646e, 0x79622d32, 0x6b206574] ++ wordsOf (key.toList ++ nonce)

def chachaBlock (key : Key) (nonce : List UInt8) (counter : Nat) : List UInt8 :=
  let state := chachaState key (toLeBytes 4 counter ++ nonce)
  bytesOf (state.zipWith add (chachaRounds (Block.ofWords state)).words)

def hchacha (key : Key) (nonce : List UInt8) : Key :=
  let words := (chachaRounds (Block.ofWords (chachaState key nonce))).words
  .ofList 32 (bytesOf (words.take 4 ++ words.drop 12))

/-- The bytes of a key stream that start with its second block. -/
def keystream (key : Key) (nonce : List UInt8) (length : Nat) : List UInt8 :=
  (List.range ((length + 63) / 64)).flatMap fun i => chachaBlock key nonce (i + 1)

def xorStream : List UInt8 → List UInt8 → List UInt8
  | [], _ => []
  | b :: bytes, stream => (b ^^^ stream.headD 0) :: xorStream bytes stream.tail

def polyPrime : Nat := 2 ^ 130 - 5

/-- Take in the blocks of sixteen bytes; there are no more of them than `fuel`. -/
def polyBlocks (r acc : Nat) (bytes : List UInt8) : (fuel : Nat) → Nat
  | 0 => acc
  | fuel + 1 =>
    if bytes.isEmpty then acc
    else
      polyBlocks r ((acc + ofLeBytes (bytes.take 16 ++ [1])) * r % polyPrime) (bytes.drop 16) fuel

def poly1305 (key bytes : List UInt8) : Bytes 16 :=
  let r := Nat.land (ofLeBytes (key.take 16)) 0x0ffffffc0ffffffc0ffffffc0fffffff
  let acc := polyBlocks r 0 bytes (bytes.length / 16 + 1)
  .ofList 16 (toLeBytes 16 (acc + ofLeBytes ((key.drop 16).take 16)))

/-- The tag of a ciphertext. -/
def aeadTag (key : Key) (nonce ad ciphertext : List UInt8) : Bytes 16 :=
  poly1305 (chachaBlock key nonce 0) (padTo 16 ad ++ padTo 16 ciphertext ++
    toLeBytes 8 ad.length ++ toLeBytes 8 ciphertext.length)

def encrypt (key : Key) (nonce ad plaintext : List UInt8) :
    Vector UInt8 plaintext.length × Bytes 16 :=
  let ciphertext := xorStream plaintext (keystream key nonce plaintext.length)
  (Bytes.ofList plaintext.length ciphertext, aeadTag key nonce ad ciphertext)

def decrypt (key : Key) (nonce ad ciphertext : List UInt8) (tag : Bytes 16) :
    Option (Vector UInt8 ciphertext.length) :=
  if tag = aeadTag key nonce ad ciphertext then
    some (Bytes.ofList ciphertext.length
      (xorStream ciphertext (keystream key nonce ciphertext.length)))
  else none

/-! ### The curve -/

def keyOf (n : Nat) : Key := .ofList 32 (toLeBytes 32 n)

/-- The number of a private key, if it is one that has a number. -/
def numberOf (priv : Key) : Option Nat :=
  (List.range 6).find? fun i => ofLeBytes priv.toList = 8 * i + 8

/-- The public keys, by the number of the private key; the last one stands for all others. -/
def publicKeys : List Nat :=
  [0x7930ae1103e8603c784b85b67bb897789f27b72b3e0b35a1bcd727627a8e2c42,
    0x02df4ec7961bb9d7b15c0c5dbc42e68cc6ef44ed32f54edaf39afbbbc7f8208d,
    0x23957759fca9b742aabd66dfa0df09b265623d3db6d86fc84158cb966f048bae,
    0x32f4eb9f96c58cf447b3544acc903d541eb268e4d9fceed98f25127eef4b520f,
    0x051d70da3c0b30b5a6b1ffcc30a8da3542b43484fa2f90930fffbfbb42855587,
    0x28a38b22702b4284c1b725cae922d9c72fc658f7677e519d9eea917ad8e4599e,
    2]

/-- The shared secrets of two private keys with numbers, the larger number first. -/
def sharedSecrets : List (List Nat) :=
  [[0x43b1bcfeee183a600c6810ed210e77374c7257823d46db355884cffa311bcde0],
    [0x41e0ce2ceca499bae1ec4afa7c4c6e49e42880102bed2a1957a53919b473c339,
     0x02ff355fae0be3ddc3f85943df4b7869162b1f99a64129e3cbb9023349767df8],
    [0x3ee1dc8655d7de2f06de5a75cb6587695da37f75852afd9648c53711b49662a8,
     0x4fd09f5e0ee3ff195294276b125911aedd43bcd6ee16c9ec13b7a1074153fc67,
     0x7eb5fce4508a819a1312bd828753162c0646ff01dc4c2823fa7f067d5799c78d],
    [0x19382aa47b13c3e533e00f764fc4336272b46825ab83216732a41d8d7bc937e4,
     0x3fab85bbcbbb36776ec706ab319fb93ff8e3ff376e776c36a6ef42b4c1556f97,
     0x055ceb92384feb27ddd0fff7e9aad095e7dcf7a566a74aa16beef4a6691b7fd2,
     0x2ad1cd9ca4810f4b485fc475e2c683f9da047a9b5231a156f4281ce3f1943d93],
    [0x7383b795682310c0ba28369f157fa42a21bbed3e034dca3fa493524f1cc0f564,
     0x5d6693b30e44785396753cbb78ee12979b17e1a82fc27df9362864a4c3d6ca01,
     0x4b7e0767d5b55c2e86e13fc564c58b5bba56d2e63c3c045a16aed71953fa3071,
     0x4a76b49f51e32604ad3be08107475c01ddfdf93d5de09bd7459537667d19b67a,
     0x6dcf1fb59aa1ce9c9dcf47fd69cb0d7b663e787df9e310dfbe3310ecb9b98654],
    [0x0327e6509d49b98fc12e01cbe9c2d7b2600f705d40b438c6cb3beb2eda55b775,
     0x5a5cd91cf05ac6ae12ac16c37f6b875eba2e1b0785117afd67d4d89479057467,
     0x19b90825a7e0e17467d53f8866b7a464ce52338d7a4550d171a13e46efd4496f,
     0x7e1897ece8ab921e41ec67c4b4ab74eb55fb188d72b02f2eb25a0f4fd97c59d9,
     0x5b4cd9db77bd3a36e10ec1564e0828c5e8bdf8715c6cd3b0adffece10667af8a,
     0x0c8306ae954737c17dd8f25e6b28af008762971c735c37c686e5c77984aafc39]]

def publicKey (priv : Key) : Key := keyOf (publicKeys.getD ((numberOf priv).getD 6) 0)

/-- The answer for the private key with number `i` and the public key with number `j`. -/
def sharedSecret (i j : Nat) : Nat := (sharedSecrets.getD (max i j) []).getD (min i j) 1

def diffieHellman (priv pub : Key) : Key :=
  let j := (List.range 6).find? fun j => ofLeBytes pub.toList = publicKeys.getD j 0
  match numberOf priv, j with
  | some i, some j => keyOf (sharedSecret i j)
  | _, _ => keyOf 1

/-! ### The primitives -/

scoped instance crypto : Crypto where
  blake2s := blake2s 32 []
  blake2sMac key input := if key.length ≤ 32 then some (blake2s 16 key input) else none
  hmacBlake2s key input := some (hmacBlake2s key input)
  encrypt key nonce ad plaintext := some (encrypt key nonce.toList ad plaintext)
  decrypt key nonce ad := decrypt key nonce.toList ad
  xencrypt key nonce ad plaintext := some (encrypt (hchacha key (nonce.toList.take 16))
    ([0, 0, 0, 0] ++ nonce.toList.drop 16) ad plaintext)
  xdecrypt key nonce ad := decrypt (hchacha key (nonce.toList.take 16))
    ([0, 0, 0, 0] ++ nonce.toList.drop 16) ad
  diffieHellman := diffieHellman
  publicKey := publicKey

/-! ### Their laws -/

theorem length_xorStream (bytes stream : List UInt8) :
    (xorStream bytes stream).length = bytes.length := by
  induction bytes generalizing stream with
  | nil => rfl
  | cons b bytes ih => rw [xorStream, List.length_cons, ih, List.length_cons]

theorem xorStream_xorStream (bytes stream : List UInt8) :
    xorStream (xorStream bytes stream) stream = bytes := by
  induction bytes generalizing stream with
  | nil => rfl
  | cons b bytes ih =>
    rw [xorStream, xorStream, ih, UInt8.xor_assoc, UInt8.xor_self, UInt8.xor_zero]

theorem decrypt_encrypt (key : Key) (nonce ad plaintext : List UInt8)
    {ciphertext : Vector UInt8 plaintext.length} {tag : Bytes 16}
    (h : encrypt key nonce ad plaintext = (ciphertext, tag)) :
    (decrypt key nonce ad ciphertext.toList tag).map Vector.toList = some plaintext := by
  obtain ⟨rfl, rfl⟩ := Prod.mk.inj h
  have hlist : (Bytes.ofList plaintext.length
      (xorStream plaintext (keystream key nonce plaintext.length))).toList =
      xorStream plaintext (keystream key nonce plaintext.length) :=
    Bytes.toList_ofList (length_xorStream _ _)
  rw [hlist, decrypt, if_pos rfl, Option.map_some, length_xorStream, xorStream_xorStream,
    Bytes.toList_ofList rfl]

theorem opensSealed : Crypto.OpensSealed := fun _ _ _ _ _ _ henc =>
  decrypt_encrypt _ _ _ _ (Option.some.inj henc)

theorem xOpensSealed : Crypto.XOpensSealed := fun _ _ _ _ _ _ henc =>
  decrypt_encrypt _ _ _ _ (Option.some.inj henc)

theorem macs : Crypto.Macs := by
  intro key input hkey
  show (if key.length ≤ 32 then some (blake2s 16 key input) else none).isSome = true
  rw [if_pos hkey]
  rfl

theorem sealsDatagrams : Crypto.SealsDatagrams := fun _ _ _ _ _ _ => rfl

theorem hashes : Crypto.Hashes := fun _ _ => rfl

theorem find_publicKey (b : Key) :
    ((List.range 6).find? fun j => ofLeBytes (publicKey b).toList = publicKeys.getD j 0) =
      numberOf b := by
  have hall : ∀ o ∈ none :: (List.range 6).map some, ((List.range 6).find? fun j =>
      ofLeBytes (keyOf (publicKeys.getD (o.getD 6) 0)).toList = publicKeys.getD j 0) = o := by
    decide +kernel
  apply hall
  cases hb : numberOf b with
  | none => exact List.mem_cons_self
  | some i => exact List.mem_cons_of_mem _ (List.mem_map_of_mem (List.mem_of_find?_eq_some hb))

theorem diffieHellman_publicKey (a b : Key) : diffieHellman a (publicKey b) =
    match numberOf a, numberOf b with
    | some i, some j => keyOf (sharedSecret i j)
    | _, _ => keyOf 1 := by
  rw [diffieHellman, find_publicKey]

theorem agrees : Crypto.Agrees where
  comm a b := by
    show diffieHellman a (publicKey b) = diffieHellman b (publicKey a)
    rw [diffieHellman_publicKey, diffieHellman_publicKey]
    cases numberOf a with
    | none => cases numberOf b <;> rfl
    | some i =>
      cases numberOf b with
      | none => rfl
      | some j =>
        show keyOf (sharedSecret i j) = keyOf (sharedSecret j i)
        rw [sharedSecret, sharedSecret, Nat.max_comm, Nat.min_comm]
  ne_zero a b := by
    have hall : ∀ i ∈ List.range 6, ∀ j ∈ List.range 6,
        keyOf (sharedSecret i j) ≠ Bytes.zero 32 := by
      decide +kernel
    have hone : keyOf 1 ≠ Bytes.zero 32 := by decide
    show diffieHellman a (publicKey b) ≠ Bytes.zero 32
    rw [diffieHellman_publicKey]
    cases ha : numberOf a with
    | none => exact hone
    | some i =>
      cases hb : numberOf b with
      | none => exact hone
      | some j => exact hall i (List.mem_of_find?_eq_some ha) j (List.mem_of_find?_eq_some hb)

/-! ### Draws -/

/-- A generator that counts: its keys are the private keys that have a number. -/
structure Draws where
  next : Nat
deriving DecidableEq, Repr

instance : RngCore Draws where
  nextU32 r := (UInt32.ofNat r.next, ⟨r.next + 1⟩)
  fillBytes r n := (.ofList n (toLeBytes n (8 * r.next)), ⟨r.next + 1⟩)

end Microtun.Reference
