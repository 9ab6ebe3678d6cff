import Microtun.Bytes
import Microtun.Lib.Utf8

/-! Names and numbers on the wire, `mdns.rs`: the parts of a packet that its functions write and
read. -/

namespace Microtun.Mdns

abbrev Packet := List UInt8

abbrev Text := List Char

/-- A text of at most `N` bytes. -/
structure HString (N : Nat) where
  text : Text
  fits : (Utf8.encode text).length ≤ N
deriving DecidableEq, Repr

namespace HString

variable {N : Nat}

def new : HString N := ⟨[], Nat.zero_le _⟩

def pushStr (s : HString N) (text : Text) : Option (HString N) :=
  if h : (Utf8.encode (s.text ++ text)).length ≤ N then some ⟨s.text ++ text, h⟩ else none

def push (s : HString N) (c : Char) : Option (HString N) := s.pushStr [c]

end HString

/-! ### Writing -/

/-- A function that changes a packet, or fails. -/
abbrev Writer := StateT Packet Option

/-- Copy bytes to where they fit, and say where they end. -/
def put (offset : Nat) (bytes : List UInt8) : Writer Nat := fun packet =>
  if offset + bytes.length ≤ packet.length then
    some (offset + bytes.length, setField packet ⟨offset, offset + bytes.length⟩ bytes)
  else none

def writeU16At (offset : Nat) (value : UInt16) : Writer Nat := put offset (toBeBytes 2 value.toNat)

def writeU16 (offset : Nat) (value : UInt16) : Writer Unit := do
  let _ ← writeU16At offset value

def writeU32At (offset : Nat) (value : UInt32) : Writer Nat := put offset (toBeBytes 4 value.toNat)

def writeBytes (offset : Nat) (value : List UInt8) : Writer Nat := put offset value

def writeTxtString (offset : Nat) (value : Text) : Writer Nat :=
  let bytes := Utf8.encode value
  if bytes.length < 256 then put offset (UInt8.ofNat bytes.length :: bytes) else failure

/-- The loop of `write_name` over the labels. -/
def writeLabels : List Text → Nat → Writer Nat
  | [], offset => pure offset
  | label :: labels, offset => do
    let bytes := Utf8.encode label
    if bytes = [] ∨ bytes.length > 63 then failure
    else
      let offset ← put offset (UInt8.ofNat bytes.length :: bytes)
      writeLabels labels offset

def writeName (offset : Nat) (name : Text) : Writer Nat := do
  let offset ← writeLabels (name.splitOn '.') offset
  put offset [0]

/-! ### Reading -/

def readU16 (packet : Packet) (offset : Nat) : Option UInt16 := do
  let high ← packet[offset]?
  let low ← packet[offset + 1]?
  return UInt16.ofNat (ofBeBytes [high, low])

/-- The loop of `read_name` over the bytes of a label. -/
def readLabel {N : Nat} : List UInt8 → HString N → Option (HString N)
  | [], out => some out
  | byte :: label, out =>
    if byte < 128 then (out.push (Char.ofNat byte.toNat).toLower).bind (readLabel label) else none

/-- The loop of `read_name`. -/
def readNameFrom {N : Nat} (packet : Packet) (offset : Nat) (next : Option Nat) (jumps : Nat)
    (out : HString N) :
    Option (Nat × HString N) :=
  if hlen : offset < packet.length then
    let len := packet[offset]
    if len &&& 0xc0 = 0xc0 then
      match packet[offset + 1]? with
      | none => none
      | some second =>
        let pointer := ((len &&& 0x3f).toNat <<< 8) ||| second.toNat
        if _ : jumps + 1 > 16 then none
        else readNameFrom packet pointer (next.or (some (offset + 2))) (jumps + 1) out
    else if len &&& 0xc0 ≠ 0 then none
    else if len = 0 then some (next.getD (offset + 1), out)
    else
      match slice packet ⟨offset + 1, offset + 1 + len.toNat⟩ with
      | none => none
      | some label =>
        ((if out.text ≠ [] then out.push '.' else some out).bind (readLabel label)).bind
          (readNameFrom packet (offset + 1 + len.toNat) next jumps)
  else none
termination_by (17 - jumps, packet.length - offset)

def readName {N : Nat} (packet : Packet) (start : Nat) : Option (Nat × HString N) :=
  readNameFrom packet start none 0 .new

/-- `eq_ignore_ascii_case`. -/
def eqDnsName (left right : Text) : Bool := left.map Char.toLower = right.map Char.toLower

end Microtun.Mdns
