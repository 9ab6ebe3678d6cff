import Microtun.Messages

/-! The relay envelope of `relay.rs`. -/

namespace Microtun

/-- The largest outer datagram. -/
def maxUdpSize : Nat := 1500

/-- Round down to a multiple of sixteen. -/
def floor16 (n : Nat) : Nat := n / 16 * 16

/-- Round up to a multiple of sixteen: the padding of transport plaintexts. -/
def padded (n : Nat) : Nat := floor16 (n + 15)

theorem le_padded (n : Nat) : n ≤ padded n := by
  simp only [padded, floor16]
  omega

/-- The largest inner packet the engine will encapsulate. -/
def maxInnerSize : Nat := floor16 (maxUdpSize - Messages.dataOverhead)

/-- The cipher only refuses inputs beyond its block counter, and those of a datagram are far below
that. -/
def Crypto.SealsDatagrams [Crypto] : Prop :=
  ∀ key nonce ad plaintext, ad.length ≤ maxUdpSize → plaintext.length ≤ maxUdpSize →
    (Crypto.encrypt key nonce ad plaintext).isSome

theorem aeadSeal_fits [Crypto] (hlaw : Crypto.SealsDatagrams) (key : Key) (counter : Nat)
    {buf ad : List UInt8} {ptLen : Nat} (hbuf : buf.length = ptLen + tagLen)
    (had : ad.length ≤ maxUdpSize) (hpt : ptLen ≤ maxUdpSize) :
    ∃ c, aeadSeal key counter buf ptLen ad = .ok c ∧ c.length = ptLen + tagLen := by
  have htake : (buf.take ptLen).length = ptLen := by
    rw [List.length_take, hbuf]
    omega
  obtain ⟨⟨ciphertext, tag⟩, henc⟩ := Option.isSome_iff_exists.mp
    (hlaw key (counterNonce counter) ad (buf.take ptLen) had
      (Nat.le_trans (Nat.le_of_eq htake) hpt))
  refine ⟨ciphertext.toList ++ tag.toList ++ buf.drop (ptLen + tagLen), ?_, ?_⟩
  · simp only [aeadSeal, hbuf, Nat.lt_irrefl, if_false, henc]
  · have hrest : (buf.drop (ptLen + tagLen)).length = 0 := by
      rw [List.length_drop, hbuf]
      omega
    rw [List.length_append, List.length_append, hrest, Vector.length_toList, Vector.length_toList,
      htake]
    rfl

namespace Relay

/-- The destination key and the length of the inner datagram. -/
def envelopeHeaderLen : Nat := 36

def maxRelayInnerSize : Nat :=
  floor16 (floor16 (maxUdpSize - Messages.dataOverhead) - envelopeHeaderLen)

/-- The header in front of an inner datagram of `innerLen` bytes. -/
def writeHeader (destination : Key) (innerLen : Nat) : Option (List UInt8) :=
  if innerLen < 2 ^ 32 then some (destination.toList ++ toLeBytes 4 innerLen) else none

theorem writeHeader_length {destination : Key} {n : Nat} {header : List UInt8}
    (h : writeHeader destination n = some header) : header.length = envelopeHeaderLen := by
  unfold writeHeader at h
  split at h
  · cases h
    simp [envelopeHeaderLen]
  · cases h

structure Envelope where
  destination : Key
  inner : List UInt8
deriving DecidableEq, Repr

/-- Could `inner` be a standard datagram?  Relay messages are not nested. -/
def innerPlausible (inner : List UInt8) : Bool :=
  match classify inner with
  | some .initiation | some .response | some .cookieReply => true
  | some .data => inner.length % 16 = 0
  | some .relayData | none => false

/-- Parse a decrypted relay plaintext. -/
def parse (plaintext : List UInt8) : Option Envelope :=
  if plaintext.length < envelopeHeaderLen then none
  else
    let innerLen := ofLeBytes (field plaintext ⟨32, 36⟩)
    let rest := plaintext.drop envelopeHeaderLen
    if plaintext.length ≠ padded (envelopeHeaderLen + innerLen) then none
    else
      let inner := rest.take innerLen
      if (rest.drop innerLen).any (· ≠ 0) ∨ !innerPlausible inner then none
      else some ⟨.ofList 32 (plaintext.take 32), inner⟩

end Relay

end Microtun
