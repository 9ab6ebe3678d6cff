import Microtun.Bytes

/-! WebSocket frame headers and masking, RFC 6455. -/

namespace Microtun.Ws

/-- A close status code. -/
structure CloseCode where
  code : UInt16
deriving DecidableEq, Repr

namespace CloseCode
def normal : CloseCode := ⟨1000⟩
def protocolError : CloseCode := ⟨1002⟩
def unsupportedData : CloseCode := ⟨1003⟩
def messageTooBig : CloseCode := ⟨1009⟩
def internalError : CloseCode := ⟨1011⟩
end CloseCode

/-- The errors of a connection.  `K` is what the transport says of its own failures. -/
inductive Error (K : Type)
  | io (kind : K)
  | eof
  | closed (code : Option CloseCode)
  | alreadyClosed
  | protocol
  | unsupportedData
  | tooLarge
  | handshake
deriving DecidableEq, Repr

def Error.closeCode {K : Type} : Error K → CloseCode
  | .unsupportedData => .unsupportedData
  | .tooLarge => .messageTooBig
  | .protocol | .handshake => .protocolError
  | _ => .internalError

inductive Role
  | client
  | server
deriving DecidableEq, Repr

def Role.masksOutput : Role → Bool
  | .client => true
  | .server => false

def Role.requiresMaskedInput : Role → Bool
  | .client => false
  | .server => true

/-- The pointer width of a target. -/
structure Target where
  bits : Nat
  ge : 16 ≤ bits
  le : bits ≤ 64

def Target.usizeMax (target : Target) : Nat := 2 ^ target.bits - 1

/-- No slice is longer. -/
def Target.isizeMax (target : Target) : Nat := 2 ^ (target.bits - 1) - 1

/-! ### Frame headers -/

def maxControlPayloadLen : Nat := 125

namespace Opcode
def continuation : UInt8 := 0x0
def text : UInt8 := 0x1
def binary : UInt8 := 0x2
def close : UInt8 := 0x8
def ping : UInt8 := 0x9
def pong : UInt8 := 0xA
end Opcode

def isControl (opcode : UInt8) : Bool := opcode &&& 0x8 != 0

structure Prefix where
  fin : Bool
  opcode : UInt8
  masked : Bool
  len7 : UInt8
deriving DecidableEq, Repr

def knownOpcodes : List UInt8 :=
  [Opcode.continuation, Opcode.text, Opcode.binary, Opcode.close, Opcode.ping, Opcode.pong]

section

variable {K : Type}

/-- The first two bytes of a frame. -/
def decodePrefix (first second : UInt8) : Except (Error K) Prefix :=
  if first &&& 0x70 ≠ 0 then .error .protocol
  else
    let opcode := first &&& 0x0F
    if opcode ∉ knownOpcodes then .error .protocol
    else
      .ok
        { fin := first &&& 0x80 != 0
          opcode
          masked := second &&& 0x80 != 0
          len7 := second &&& 0x7F }

/-- How many further length bytes follow. -/
def extendedLenBytes (len7 : UInt8) : Nat :=
  if len7 = 126 then 2 else if len7 = 127 then 8 else 0

/-- The length that the seven bits and their extension stand for. -/
def wireLen (len7 : UInt8) (extended : List UInt8) : Except (Error K) Nat :=
  if len7 = 126 then
    if extended.length ≠ 2 then .error .protocol else .ok (ofBeBytes extended)
  else if len7 = 127 then
    if extended.length ≠ 8 then .error .protocol
    -- the high bit must be clear
    else if ofBeBytes extended &&& 0x8000000000000000 ≠ 0 then .error .protocol
    else .ok (ofBeBytes extended)
  else .ok len7.toNat

/-- The length of the payload, if it is a `usize`. -/
def decodeLen (target : Target) (len7 : UInt8) (extended : List UInt8) : Except (Error K) Nat := do
  let len ← wireLen len7 extended
  if target.usizeMax < len then .error .tooLarge else .ok len

end

/-- A frame header. -/
def encodeHeader (fin : Bool) (opcode : UInt8) (len : Nat) (mask : Option (Bytes 4)) : List UInt8 :=
  let first := if fin then 0x80 ||| opcode else opcode
  let maskBit : UInt8 := if mask.isSome then 0x80 else 0x00
  let lens :=
    if len < 126 then [maskBit ||| UInt8.ofNat len]
    else if len ≤ 65535 then (maskBit ||| 126) :: toBeBytes 2 len
    else (maskBit ||| 127) :: toBeBytes 8 len
  let key := match mask with
    | some key => key.toList
    | none => []
  first :: (lens ++ key)

/-! ### Masking -/

/-- The bytes masked from `offset` on in the key's cycle, and the offset to resume from. -/
def applyMask (key : Bytes 4) (offset : Nat) (data : List UInt8) : List UInt8 × Nat :=
  let offset := offset % 4
  (data.mapIdx fun index byte =>
    byte ^^^ key.get ⟨(offset + index) % 4, Nat.mod_lt _ (by decide)⟩,
    (offset + data.length) % 4)

/-- The masking keys of a client, one after the other. -/
structure Masker where
  keys : Nat → Bytes 4
  drawn : Nat

def Masker.key (masker : Masker) : Bytes 4 × Masker :=
  (masker.keys masker.drawn, { masker with drawn := masker.drawn + 1 })

end Microtun.Ws
