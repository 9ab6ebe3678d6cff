import Microtun.Telnet

/-! The messages of the COM-PORT option, `serial.rs`. -/

namespace Microtun.Telnet.Serial

def signature : UInt8 := 0
def setBaudrate : UInt8 := 1
def setDatasize : UInt8 := 2
def setParity : UInt8 := 3
def setStopsize : UInt8 := 4
def setControl : UInt8 := 5
def notifyLinestate : UInt8 := 6
def notifyModemstate : UInt8 := 7
def flowcontrolSuspend : UInt8 := 8
def flowcontrolResume : UInt8 := 9
def setLinestateMask : UInt8 := 10
def setModemstateMask : UInt8 := 11
def purgeData : UInt8 := 12

def serverOffset : UInt8 := 100

inductive Origin
  | client
  | server
deriving DecidableEq, Repr

inductive Command
  | signature
  | setBaudRate
  | setDataSize
  | setParity
  | setStopSize
  | setControl
  | notifyLineState
  | notifyModemState
  | flowControlSuspend
  | flowControlResume
  | setLineStateMask
  | setModemStateMask
  | purgeData
deriving DecidableEq, Repr

inductive DecodeError
  | empty
  | unknownCommand (code : UInt8)
  | invalidLength
deriving DecidableEq, Repr

inductive Message
  | signature (origin : Origin) (text : List UInt8)
  | setBaudRate (origin : Origin) (value : UInt32)
  | setDataSize (origin : Origin) (value : UInt8)
  | setParity (origin : Origin) (value : UInt8)
  | setStopSize (origin : Origin) (value : UInt8)
  | setControl (origin : Origin) (value : UInt8)
  | notifyLineState (origin : Origin) (value : UInt8)
  | notifyModemState (origin : Origin) (value : UInt8)
  | flowControlSuspend (origin : Origin)
  | flowControlResume (origin : Origin)
  | setLineStateMask (origin : Origin) (value : UInt8)
  | setModemStateMask (origin : Origin) (value : UInt8)
  | purgeData (origin : Origin) (value : UInt8)
deriving DecidableEq, Repr

def Message.origin : Message → Origin
  | signature origin _ | setBaudRate origin _ | setDataSize origin _ | setParity origin _
  | setStopSize origin _ | setControl origin _ | notifyLineState origin _
  | notifyModemState origin _ | flowControlSuspend origin | flowControlResume origin
  | setLineStateMask origin _ | setModemStateMask origin _ | purgeData origin _ => origin

def Message.command : Message → Command
  | signature _ _ => .signature
  | setBaudRate _ _ => .setBaudRate
  | setDataSize _ _ => .setDataSize
  | setParity _ _ => .setParity
  | setStopSize _ _ => .setStopSize
  | setControl _ _ => .setControl
  | notifyLineState _ _ => .notifyLineState
  | notifyModemState _ _ => .notifyModemState
  | flowControlSuspend _ => .flowControlSuspend
  | flowControlResume _ => .flowControlResume
  | setLineStateMask _ _ => .setLineStateMask
  | setModemStateMask _ _ => .setModemStateMask
  | purgeData _ _ => .purgeData

def commandFromCode (code : UInt8) : Option Command :=
  if code = signature then some .signature
  else if code = setBaudrate then some .setBaudRate
  else if code = setDatasize then some .setDataSize
  else if code = setParity then some .setParity
  else if code = setStopsize then some .setStopSize
  else if code = setControl then some .setControl
  else if code = notifyLinestate then some .notifyLineState
  else if code = notifyModemstate then some .notifyModemState
  else if code = flowcontrolSuspend then some .flowControlSuspend
  else if code = flowcontrolResume then some .flowControlResume
  else if code = setLinestateMask then some .setLineStateMask
  else if code = setModemstateMask then some .setModemStateMask
  else if code = purgeData then some .purgeData
  else none

def requireEmpty (value : List UInt8) : Except DecodeError Unit :=
  if value = [] then .ok () else .error .invalidLength

/-- A message whose value is one byte. -/
def requireByte (value : List UInt8) (message : UInt8 → Message) : Except DecodeError Message :=
  match value with
  | [value] => .ok (message value)
  | _ => .error .invalidLength

def fromBeBytes (a b c d : UInt8) : UInt32 :=
  a.toUInt32 <<< 24 ||| b.toUInt32 <<< 16 ||| c.toUInt32 <<< 8 ||| d.toUInt32

/-- The origin and the code that a wire code stands for. -/
def originAndCode (wireCode : UInt8) : Origin × UInt8 :=
  if wireCode = signature then (.client, signature)
  else if 100 ≤ wireCode ∧ wireCode ≤ 112 then (.server, wireCode - serverOffset)
  else (.client, wireCode)

def decode : List UInt8 → Except DecodeError Message
  | [] => .error .empty
  | wireCode :: value =>
    let (origin, code) := originAndCode wireCode
    match commandFromCode code with
    | none => .error (.unknownCommand wireCode)
    | some .signature => .ok (.signature origin value)
    | some .setBaudRate =>
      match value with
      | [a, b, c, d] => .ok (.setBaudRate origin (fromBeBytes a b c d))
      | _ => .error .invalidLength
    | some .flowControlSuspend => do
      requireEmpty value
      return .flowControlSuspend origin
    | some .flowControlResume => do
      requireEmpty value
      return .flowControlResume origin
    | some .setDataSize => requireByte value (.setDataSize origin)
    | some .setParity => requireByte value (.setParity origin)
    | some .setStopSize => requireByte value (.setStopSize origin)
    | some .setControl => requireByte value (.setControl origin)
    | some .notifyLineState => requireByte value (.notifyLineState origin)
    | some .notifyModemState => requireByte value (.notifyModemState origin)
    | some .setLineStateMask => requireByte value (.setLineStateMask origin)
    | some .setModemStateMask => requireByte value (.setModemStateMask origin)
    | some .purgeData => requireByte value (.purgeData origin)

/-- Decode a payload, with the origin that a signature needs. -/
def decodeFrom (origin : Origin) (payload : List UInt8) : Except DecodeError Message := do
  match ← decode payload with
  | .signature _ text => return .signature origin text
  | other => return other

namespace DataSize
def request : UInt8 := 0
def five : UInt8 := 5
def six : UInt8 := 6
def seven : UInt8 := 7
def eight : UInt8 := 8
end DataSize

namespace Parity
def request : UInt8 := 0
def none : UInt8 := 1
def odd : UInt8 := 2
def even : UInt8 := 3
def mark : UInt8 := 4
def space : UInt8 := 5
end Parity

namespace StopSize
def request : UInt8 := 0
def one : UInt8 := 1
def two : UInt8 := 2
def oneAndAHalf : UInt8 := 3
end StopSize

namespace Control
def requestOutboundFlow : UInt8 := 0
def noOutboundFlow : UInt8 := 1
def xonXoffOutbound : UInt8 := 2
def hardwareOutbound : UInt8 := 3
def requestBreak : UInt8 := 4
def breakOn : UInt8 := 5
def breakOff : UInt8 := 6
def requestDtr : UInt8 := 7
def dtrOn : UInt8 := 8
def dtrOff : UInt8 := 9
def requestRts : UInt8 := 10
def rtsOn : UInt8 := 11
def rtsOff : UInt8 := 12
def requestInboundFlow : UInt8 := 13
def noInboundFlow : UInt8 := 14
def xonXoffInbound : UInt8 := 15
def hardwareInbound : UInt8 := 16
def dcdOutbound : UInt8 := 17
def dtrInbound : UInt8 := 18
def dsrOutbound : UInt8 := 19
end Control

namespace Purge
def receive : UInt8 := 1
def transmit : UInt8 := 2
def both : UInt8 := 3
end Purge

end Microtun.Telnet.Serial
