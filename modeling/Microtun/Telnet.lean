import Mathlib.Data.List.Basic

/-! The Telnet codec: RFC 854 framing with RFC 1143 option tracking. -/

namespace Microtun

namespace Telnet

def iac : UInt8 := 255
def dontVerb : UInt8 := 254
def doVerb : UInt8 := 253
def wontVerb : UInt8 := 252
def willVerb : UInt8 := 251
def sb : UInt8 := 250
def se : UInt8 := 240
def brk : UInt8 := 243
def ip : UInt8 := 244
def ayt : UInt8 := 246
def ec : UInt8 := 247
def el : UInt8 := 248

def optBinary : UInt8 := 0
def optEcho : UInt8 := 1
def optSuppressGoAhead : UInt8 := 3
def optComPort : UInt8 := 44

/-- Which half of an option negotiation changed state: our own, or the peer's. -/
inductive Side
  | us
  | him
deriving DecidableEq, Repr

/-- Which options an endpoint can perform itself, and which it lets the peer perform. -/
class Policy (P : Type) where
  supportUs : P → UInt8 → Bool
  supportHim : P → UInt8 → Bool

/-- The policy that rejects every option. -/
structure RejectAll where
deriving DecidableEq, Repr

instance : Policy RejectAll where
  supportUs _ _ := false
  supportHim _ _ := false

inductive TelnetEvent
  | data (byte : UInt8)
  | interrupt
  | brk
  | areYouThere
  | eraseCharacter
  | eraseLine
  | optionEnabled (side : Side) (option : UInt8)
  | optionDisabled (side : Side) (option : UInt8)
  | optionRefused (side : Side) (option : UInt8)
  | subnegotiation (option : UInt8)
deriving DecidableEq, Repr

inductive RxState
  | data
  | iac
  | verb (verb : UInt8)
  | subnegOption
  | subneg
  | subnegIac
deriving DecidableEq, Repr

inductive QState
  | no
  | yes
  | wantNo
  | wantNoOpposite
  | wantYes
  | wantYesOpposite
deriving DecidableEq, Repr

structure OptionSlot where
  option : UInt8
  us : QState
  him : QState
deriving DecidableEq, Repr

def OptionSlot.new (option : UInt8) : OptionSlot := { option, us := .no, him := .no }

/-- The state of one half of the option. -/
def OptionSlot.half (slot : OptionSlot) : Side → QState
  | .us => slot.us
  | .him => slot.him

def OptionSlot.setHalf (slot : OptionSlot) (side : Side) (state : QState) : OptionSlot :=
  match side with
  | .us => { slot with us := state }
  | .him => { slot with him := state }

/-- The verb with which an endpoint offers or asks for a half. -/
def Side.positiveVerb : Side → UInt8
  | .us => willVerb
  | .him => doVerb

/-- The verb with which an endpoint gives up or forbids a half. -/
def Side.negativeVerb : Side → UInt8
  | .us => wontVerb
  | .him => dontVerb

end Telnet

open Telnet

/-- An endpoint, with room for `sbCap` bytes of a subnegotiation and `optionCap` options. -/
structure Telnet (P : Type) (sbCap optionCap : Nat) where
  policy : P
  rx : RxState
  subnegOption : UInt8
  subneg : List UInt8
  options : List OptionSlot

namespace Telnet

variable {P : Type} {sbCap optionCap : Nat}

def new (policy : P) : Telnet P sbCap optionCap :=
  { policy, rx := .data, subnegOption := 0, subneg := [], options := [] }

def isPending (state : QState) : Bool :=
  match state with
  | .wantYes | .wantYesOpposite | .wantNo | .wantNoOpposite => true
  | _ => false

def slot (t : Telnet P sbCap optionCap) (option : UInt8) : Option OptionSlot :=
  t.options.find? fun slot => slot.option == option

def usEnabled (t : Telnet P sbCap optionCap) (option : UInt8) : Bool :=
  (t.slot option).any fun slot => slot.us == .yes

def himEnabled (t : Telnet P sbCap optionCap) (option : UInt8) : Bool :=
  (t.slot option).any fun slot => slot.him == .yes

def usPending (t : Telnet P sbCap optionCap) (option : UInt8) : Bool :=
  (t.slot option).any fun slot => isPending slot.us

def himPending (t : Telnet P sbCap optionCap) (option : UInt8) : Bool :=
  (t.slot option).any fun slot => isPending slot.him

/-- The endpoint with a slot for the option, and the slot's index.  A full table gives up a disabled
slot, or its last one.  (A table without room for any slot has none to give up: there the source's
index is out of range.) -/
def slotMut (t : Telnet P sbCap optionCap) (option : UInt8) : Telnet P sbCap optionCap × Nat :=
  match t.options.findIdx? (fun slot => slot.option == option) with
  | some index => (t, index)
  | none =>
    if t.options.length < optionCap then
      ({ t with options := t.options ++ [.new option] }, t.options.length)
    else
      let index := (t.options.findIdx? fun slot => slot.us == .no && slot.him == .no).getD
        (t.options.length - 1)
      ({ t with options := t.options.set index (.new option) }, index)

/-- The command appended to a buffer of capacity `n`, if it fits. -/
def pushCmd (n : Nat) (out : List UInt8) (verb option : UInt8) : Option (List UInt8) :=
  if out.length + 3 ≤ n then some (out ++ [iac, verb, option]) else none

/-- Send the command and go to `next`, or leave both as they are. -/
def sendCmd (n : Nat) (state next : QState) (verb option : UInt8) (out : List UInt8) :
    QState × List UInt8 :=
  match pushCmd n out verb option with
  | some out => (next, out)
  | none => (state, out)

def requestState (n : Nat) (state : QState) (enable : Bool)
    (positiveVerb negativeVerb option : UInt8) (out : List UInt8) : QState × List UInt8 :=
  match state, enable with
  | .no, true => sendCmd n state .wantYes positiveVerb option out
  | .yes, false => sendCmd n state .wantNo negativeVerb option out
  | .wantNo, true => (.wantNoOpposite, out)
  | .wantNoOpposite, false => (.wantNo, out)
  | .wantYes, false => (.wantYesOpposite, out)
  | .wantYesOpposite, true => (.wantYes, out)
  | state, _ => (state, out)

def receivePositive (n : Nat) (state : QState) (supported : Bool)
    (positiveVerb negativeVerb option : UInt8) (out : List UInt8) : QState × List UInt8 :=
  match state with
  | .no => sendCmd n state (if supported then .yes else .no)
      (if supported then positiveVerb else negativeVerb) option out
  | .yes => (.yes, out)
  | .wantNo => (.no, out)
  | .wantNoOpposite => (.yes, out)
  | .wantYes => (.yes, out)
  | .wantYesOpposite => sendCmd n state .wantNo negativeVerb option out

def receiveNegative (n : Nat) (state : QState) (positiveVerb negativeVerb option : UInt8)
    (out : List UInt8) : QState × List UInt8 :=
  match state with
  | .no => (.no, out)
  | .yes => sendCmd n state .no negativeVerb option out
  | .wantNo => (.no, out)
  | .wantNoOpposite => sendCmd n state .wantYes positiveVerb option out
  | .wantYes => (.no, out)
  | .wantYesOpposite => (.no, out)

def transitionEvent (side : Side) (option : UInt8) (wasEnabled enabled : Bool) :
    Option TelnetEvent :=
  match wasEnabled, enabled with
  | false, true => some (.optionEnabled side option)
  | true, false => some (.optionDisabled side option)
  | _, _ => none

/-- Ask for one half of an option to be enabled or disabled. -/
def request (side : Side) (enable : Bool) (n : Nat) (t : Telnet P sbCap optionCap) (option : UInt8)
    (out : List UInt8) : Telnet P sbCap optionCap × List UInt8 :=
  let (t, index) := t.slotMut option
  let slot := t.options.getD index (.new option)
  let (state, out) := requestState n (slot.half side) enable side.positiveVerb side.negativeVerb
    option out
  ({ t with options := t.options.set index (slot.setHalf side state) }, out)

def requestUs (n : Nat) (t : Telnet P sbCap optionCap) (option : UInt8) (out : List UInt8) :
    Telnet P sbCap optionCap × List UInt8 :=
  request .us true n t option out

def disableUs (n : Nat) (t : Telnet P sbCap optionCap) (option : UInt8) (out : List UInt8) :
    Telnet P sbCap optionCap × List UInt8 :=
  request .us false n t option out

def requestHim (n : Nat) (t : Telnet P sbCap optionCap) (option : UInt8) (out : List UInt8) :
    Telnet P sbCap optionCap × List UInt8 :=
  request .him true n t option out

def disableHim (n : Nat) (t : Telnet P sbCap optionCap) (option : UInt8) (out : List UInt8) :
    Telnet P sbCap optionCap × List UInt8 :=
  request .him false n t option out

def binaryModeEnabled (t : Telnet P sbCap optionCap) : Bool :=
  t.usEnabled optBinary && t.himEnabled optBinary

/-- Ask for binary mode in both directions. -/
def requestBinaryMode (n : Nat) (t : Telnet P sbCap optionCap) (out : List UInt8) :
    Telnet P sbCap optionCap × List UInt8 :=
  let (t, out) := t.requestUs n optBinary out
  t.requestHim n optBinary out

/-- A `DO` for our half, or a `WILL` for the peer's. -/
def negotiatePositive (side : Side) (supported : Bool) (n : Nat) (t : Telnet P sbCap optionCap)
    (option : UInt8) (out : List UInt8) :
    Telnet P sbCap optionCap × List UInt8 × Option TelnetEvent :=
  let (t, index) := t.slotMut option
  let slot := t.options.getD index (.new option)
  let wasEnabled := slot.half side == .yes
  let (state, out) :=
    receivePositive n (slot.half side) supported side.positiveVerb side.negativeVerb option out
  ({ t with options := t.options.set index (slot.setHalf side state) }, out,
    transitionEvent side option wasEnabled (state == .yes))

/-- A `DONT` for our half, or a `WONT` for the peer's. -/
def negotiateNegative (side : Side) (n : Nat) (t : Telnet P sbCap optionCap) (option : UInt8)
    (out : List UInt8) : Telnet P sbCap optionCap × List UInt8 × Option TelnetEvent :=
  let (t, index) := t.slotMut option
  let slot := t.options.getD index (.new option)
  let wasEnabled := slot.half side == .yes
  let wasRequested := slot.half side == .wantYes
  let (state, out) :=
    receiveNegative n (slot.half side) side.positiveVerb side.negativeVerb option out
  ({ t with options := t.options.set index (slot.setHalf side state) }, out,
    (transitionEvent side option wasEnabled (state == .yes)).or
      (if wasRequested && state == .no then some (.optionRefused side option) else none))

def negotiate [Policy P] (n : Nat) (t : Telnet P sbCap optionCap) (verb option : UInt8)
    (out : List UInt8) : Telnet P sbCap optionCap × List UInt8 × Option TelnetEvent :=
  if verb = doVerb then
    negotiatePositive .us (Policy.supportUs t.policy option) n t option out
  else if verb = dontVerb then
    negotiateNegative .us n t option out
  else if verb = willVerb then
    negotiatePositive .him (Policy.supportHim t.policy option) n t option out
  else if verb = wontVerb then
    negotiateNegative .him n t option out
  else (t, out, none)

/-- Append to the subnegotiation body what still fits. -/
def pushSubneg (t : Telnet P sbCap optionCap) (byte : UInt8) : Telnet P sbCap optionCap :=
  if t.subneg.length < sbCap then { t with subneg := t.subneg ++ [byte] } else t

/-- What follows an `IAC` outside a subnegotiation. -/
def feedIac (t : Telnet P sbCap optionCap) (byte : UInt8) :
    Telnet P sbCap optionCap × Option TelnetEvent :=
  if byte = iac then ({ t with rx := .data }, some (.data iac))
  else if byte = doVerb ∨ byte = dontVerb ∨ byte = willVerb ∨ byte = wontVerb then
    ({ t with rx := .verb byte }, none)
  else if byte = sb then ({ t with rx := .subnegOption }, none)
  else if byte = ip then ({ t with rx := .data }, some .interrupt)
  else if byte = brk then ({ t with rx := .data }, some .brk)
  else if byte = ayt then ({ t with rx := .data }, some .areYouThere)
  else if byte = ec then ({ t with rx := .data }, some .eraseCharacter)
  else if byte = el then ({ t with rx := .data }, some .eraseLine)
  else ({ t with rx := .data }, none)

/-- The option and the body of the subnegotiation that ended last. -/
def subnegotiation (t : Telnet P sbCap optionCap) : UInt8 × List UInt8 := (t.subnegOption, t.subneg)

/-- Take one byte from the peer, with a reply buffer of capacity `n`. -/
def feed [Policy P] (n : Nat) (t : Telnet P sbCap optionCap) (byte : UInt8) (reply : List UInt8) :
    Telnet P sbCap optionCap × List UInt8 × Option TelnetEvent :=
  match t.rx with
  | .data =>
    if byte = iac then ({ t with rx := .iac }, reply, none) else (t, reply, some (.data byte))
  | .iac =>
    let (t, event) := t.feedIac byte
    (t, reply, event)
  | .verb verb => negotiate n { t with rx := .data } verb byte reply
  | .subnegOption => ({ t with subnegOption := byte, subneg := [], rx := .subneg }, reply, none)
  | .subneg =>
    if byte = iac then ({ t with rx := .subnegIac }, reply, none)
      else (t.pushSubneg byte, reply, none)
  | .subnegIac =>
    if byte = se then ({ t with rx := .data }, reply, some (.subnegotiation t.subnegOption))
    else if byte = iac then ({ t.pushSubneg iac with rx := .subneg }, reply, none)
    -- anything else is a malformed subnegotiation: back to plain data
    else ({ t with rx := .data }, reply, none)

end Telnet

end Microtun
