import Microtun.Lib.BitString

/-! Internet addresses and prefixes.  An address is the big-endian number of its octets.  A prefix
is canonical, as in the `cidr` crate: it has no bits set past its length, so two prefixes are equal
exactly when they describe the same block of addresses. -/

namespace Microtun

open Radix

/-- An address of either family. -/
inductive IpAddr where
  | v4 (address : BitVec 32)
  | v6 (address : BitVec 128)
deriving DecidableEq, Repr

/-- A canonical prefix of addresses of `w` bits. -/
structure Cidr (w : Nat) where
  firstAddress : BitVec w
  networkLength : Nat
  length_le : networkLength ≤ w
  canonical : firstAddress >>> (w - networkLength) <<< (w - networkLength) = firstAddress
deriving DecidableEq, Repr

/-- A prefix of either family. -/
inductive IpCidr where
  | v4 (cidr : Cidr 32)
  | v6 (cidr : Cidr 128)
deriving DecidableEq, Repr

/-- A socket address of either family. -/
inductive SocketAddr where
  | v4 (address : BitVec 32) (port : BitVec 16)
  | v6 (address : BitVec 128) (port : BitVec 16) (flowinfo scopeId : BitVec 32)
deriving DecidableEq, Repr

namespace SocketAddr

def ip : SocketAddr → IpAddr
  | v4 address _ => .v4 address
  | v6 address _ _ _ => .v6 address

def port : SocketAddr → BitVec 16
  | v4 _ port => port
  | v6 _ port _ _ => port

end SocketAddr

namespace Cidr

variable {w : Nat}

/-- The prefix of length `n` that contains `address`. -/
def ofAddress (address : BitVec w) (n : Nat) (h : n ≤ w) : Cidr w where
  firstAddress := address >>> (w - n) <<< (w - n)
  networkLength := n
  length_le := h
  canonical := by
    refine BitVec.eq_of_getLsbD_eq fun i hi => ?_
    simp only [BitVec.getLsbD_shiftLeft, BitVec.getLsbD_ushiftRight, hi, decide_true,
      Bool.true_and]
    by_cases h : i < w - n
    · simp [h]
    · simp [h, show w - n + (i - (w - n)) < w by omega]

def contains (c : Cidr w) (address : BitVec w) : Bool :=
  address >>> (w - c.networkLength) == c.firstAddress >>> (w - c.networkLength)

/-- The bits of the prefix. -/
def bits (c : Cidr w) : List Bool := bitString c.firstAddress c.networkLength

@[simp] theorem length_bits (c : Cidr w) : c.bits.length = c.networkLength := length_bitString _ _

theorem getMsbD_firstAddress (c : Cidr w) {i : Nat} (hi : c.networkLength ≤ i) :
    c.firstAddress.getMsbD i = false := by
  have hlen := c.length_le
  rw [← c.canonical, BitVec.getMsbD_shiftLeft, BitVec.getMsbD_ushiftRight]
  by_cases hw : i + (w - c.networkLength) < w
  · omega
  · simp [hw]

theorem encodes_bits (c : Cidr w) : Encodes c.firstAddress c.bits :=
  encodes_bitString c.length_le fun _ => c.getMsbD_firstAddress

theorem bits_injective : Function.Injective (bits (w := w)) := by
  intro a b h
  have hlen : a.networkLength = b.networkLength := by
    rw [← a.length_bits, ← b.length_bits, h]
  have haddr : a.firstAddress = b.firstAddress := a.encodes_bits.inj (h ▸ b.encodes_bits)
  cases a
  cases b
  simp_all

theorem contains_iff (c : Cidr w) (address : BitVec w) :
    c.contains address = true ↔ c.bits <+: bitString address w := by
  have hlen := c.length_le
  rw [contains, beq_iff_eq, List.prefix_iff_getElem?]
  simp only [bits, length_bitString]
  constructor
  · intro h i hi
    have := congrArg (fun x => x.getMsbD (i + (w - c.networkLength))) h
    simp only [BitVec.getMsbD_ushiftRight] at this
    have hsub : i + (w - c.networkLength) - (w - c.networkLength) = i := by omega
    rw [hsub, decide_eq_true (by omega), decide_eq_false (by omega)] at this
    rw [getElem?_bitString, if_pos (by omega)]
    have hget : (bitString c.firstAddress c.networkLength)[i]? =
        some (c.firstAddress.getMsbD i) := by rw [getElem?_bitString, if_pos hi]
    rw [List.getElem?_eq_getElem (by simpa using hi)] at hget
    rw [Option.some.inj hget]
    simpa using this
  · intro h
    refine BitVec.eq_of_getMsbD_eq fun i hi => ?_
    rw [BitVec.getMsbD_ushiftRight, BitVec.getMsbD_ushiftRight, decide_eq_true hi]
    by_cases hlo : i < w - c.networkLength
    · simp [hlo]
    · have hb := h (i - (w - c.networkLength)) (by omega)
      rw [← List.getElem?_eq_getElem, getElem?_bitString, getElem?_bitString, if_pos (by omega),
        if_pos (by omega)] at hb
      simp only [hlo, decide_false, Bool.not_false, Bool.true_and]
      exact Option.some.inj hb

end Cidr

namespace IpAddr

/-- The bits of an address, without its family. -/
def bits : IpAddr → List Bool
  | v4 a => bitString a 32
  | v6 a => bitString a 128

end IpAddr

namespace IpCidr

def firstAddress : IpCidr → IpAddr
  | v4 c => .v4 c.firstAddress
  | v6 c => .v6 c.firstAddress

def networkLength : IpCidr → Nat
  | v4 c => c.networkLength
  | v6 c => c.networkLength

/-- Does the prefix contain the address?  Never across families. -/
def contains : IpCidr → IpAddr → Bool
  | v4 c, .v4 a => c.contains a
  | v6 c, .v6 a => c.contains a
  | _, _ => false

def bits : IpCidr → List Bool
  | v4 c => c.bits
  | v6 c => c.bits

@[simp] theorem length_bits (c : IpCidr) : c.bits.length = c.networkLength := by
  cases c <;> exact Cidr.length_bits _

/-- The prefix that contains exactly the one address. -/
def host : IpAddr → IpCidr
  | .v4 a => v4 (.ofAddress a 32 (Nat.le_refl _))
  | .v6 a => v6 (.ofAddress a 128 (Nat.le_refl _))

theorem v4_full : 32 ≤ 32 := Nat.le_refl 32

end IpCidr

end Microtun
