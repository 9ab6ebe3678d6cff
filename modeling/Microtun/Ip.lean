import Microtun.Bytes
import Microtun.Net

/-! Inner IP headers and address canonicalization, `ip.rs`. -/

namespace Microtun

/-- A validated inner header. -/
structure IpHeader where
  src : IpAddr
  dst : IpAddr
  protocol : UInt8
  headerLen : Nat
  totalLen : Nat
deriving DecidableEq, Repr

namespace Ip

/-- The address of four octets, in network order. -/
def addressV4 (octets : List UInt8) : IpAddr := .v4 (BitVec.ofNat 32 (ofBeBytes octets))

/-- The address of sixteen octets, in network order. -/
def addressV6 (octets : List UInt8) : IpAddr := .v6 (BitVec.ofNat 128 (ofBeBytes octets))

/-- The big-endian `u16` at a position. -/
def readU16Be (bytes : List UInt8) (i : Nat) : Option Nat := do
  return (← bytes[i]?).toNat * 256 + (← bytes[i + 1]?).toNat

def parseV4Header (packet : List UInt8) : Option IpHeader := do
  let first ← packet.head?
  if packet.length < 20 ∨ first >>> 4 ≠ 4 then none
  let headerLen := (first &&& 0x0f).toNat * 4
  if headerLen < 20 ∨ packet.length < headerLen then none
  let totalLen ← readU16Be packet 2
  if totalLen < headerLen ∨ packet.length < totalLen then none
  return {
    src := addressV4 (← slice packet ⟨12, 16⟩)
    dst := addressV4 (← slice packet ⟨16, 20⟩)
    protocol := ← packet[9]?
    headerLen
    totalLen }

def parseV6Header (packet : List UInt8) : Option IpHeader := do
  let first ← packet.head?
  if packet.length < 40 ∨ first >>> 4 ≠ 6 then none
  let payloadLen ← readU16Be packet 4
  let totalLen := 40 + payloadLen
  if packet.length < totalLen then none
  return {
    src := addressV6 (← slice packet ⟨8, 24⟩)
    dst := addressV6 (← slice packet ⟨24, 40⟩)
    protocol := ← packet[6]?
    headerLen := 40
    totalLen }

/-- Parse and validate the fixed header of an inner packet. -/
def parseHeader (packet : List UInt8) : Option IpHeader := do
  let first ← packet.head?
  if first >>> 4 = 4 then parseV4Header packet
  else if first >>> 4 = 6 then parseV6Header packet
  else none

/-- Is this IPv4 packet a fragment? -/
def isV4Fragment (packet : List UInt8) : Bool :=
  match packet.head?, packet[6]?, packet[7]? with
  | some first, some flagsHi, some flagsLo =>
    20 ≤ packet.length ∧ first >>> 4 = 4 ∧ (flagsHi.toNat * 256 + flagsLo.toNat) % 0x4000 ≠ 0
  | _, _, _ => false

/-- An IPv4-mapped IPv6 address as native IPv4. -/
def unmapIp : IpAddr → IpAddr
  | .v4 address => .v4 address
  | .v6 address =>
    if address >>> 32 = 0xffff then .v4 (address.setWidth 32) else .v6 address

/-- The IPv4-mapped spelling of an IPv4 address. -/
def mapped (address : BitVec 32) : BitVec 128 := 0xffff#96 ++ address

theorem toNat_mapped (address : BitVec 32) :
    (mapped address).toNat = 0xffff * 2 ^ 32 + address.toNat := by
  have hlt := address.isLt
  rw [mapped, BitVec.toNat_append, ← Nat.shiftLeft_add_eq_or_of_lt hlt, Nat.shiftLeft_eq]
  rfl

theorem unmapIp_mapped (address : BitVec 32) : unmapIp (.v6 (mapped address)) = .v4 address := by
  have hlt := address.isLt
  have hprefix : mapped address >>> 32 = 0xffff := by
    apply BitVec.eq_of_toNat_eq
    rw [BitVec.toNat_ushiftRight, toNat_mapped, Nat.shiftRight_eq_div_pow]
    change _ = 65535
    omega
  have hlow : (mapped address).setWidth 32 = address := by
    apply BitVec.eq_of_toNat_eq
    rw [BitVec.toNat_setWidth, toNat_mapped]
    omega
  rw [unmapIp, if_pos hprefix, hlow]

/-- An IPv4-mapped IPv6 socket address as native IPv4. -/
def unmapSocketAddr (addr : SocketAddr) : SocketAddr :=
  match unmapIp addr.ip with
  | .v4 address => .v4 address addr.port
  | .v6 _ => addr

end Ip

/-! ### What follows a header does not matter -/

theorem readU16Be_take {bytes : List UInt8} {i k : Nat} (h : i + 2 ≤ k) :
    Ip.readU16Be (bytes.take k) i = Ip.readU16Be bytes i := by
  simp only [Ip.readU16Be]
  rw [List.getElem?_take_of_lt (by omega), List.getElem?_take_of_lt (by omega)]

end Microtun
