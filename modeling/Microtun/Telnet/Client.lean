import Microtun.Telnet.Server

/-! The session of a client, `client.rs`, and the statuses of both kinds of session. -/

namespace Microtun.Telnet

/-- The most bytes that entering or leaving serial mode appends. -/
def serialModeNegotiationMax : Nat := 18

structure ClientPolicy where
  serialMode : Bool
deriving DecidableEq, Repr

instance : Policy ClientPolicy where
  supportUs p option :=
    option == optBinary || option == optSuppressGoAhead || (p.serialMode && option == optComPort)
  supportHim p option :=
    option == optBinary || option == optSuppressGoAhead || (!p.serialMode && option == optEcho)

structure TelnetModeSnapshot where
  usBinary : Bool
  himBinary : Bool
  usSga : Bool
  himSga : Bool
  himEcho : Bool
deriving DecidableEq, Repr

/-- An event of the serial server. -/
inductive SerialEvent
  | signature (text : List UInt8)
  | baudRate (value : UInt32)
  | dataSize (value : UInt8)
  | parity (value : UInt8)
  | stopSize (value : UInt8)
  | control (value : UInt8)
  | lineState (value : UInt8)
  | modemState (value : UInt8)
  | flowControlSuspend
  | flowControlResume
  | lineStateMask (value : UInt8)
  | modemStateMask (value : UInt8)
  | purgeData (value : UInt8)
deriving DecidableEq, Repr

/-- The event of a message, with a signature cut to `signatureCap` bytes. -/
def SerialEvent.fromServerMessage (signatureCap : Nat) (message : Serial.Message) :
    Option SerialEvent :=
  if message.command ≠ .signature ∧ message.origin ≠ .server then none
  else some <| match message with
    | .signature _ text => signature (text.take signatureCap)
    | .setBaudRate _ value => baudRate value
    | .setDataSize _ value => dataSize value
    | .setParity _ value => parity value
    | .setStopSize _ value => stopSize value
    | .setControl _ value => control value
    | .notifyLineState _ value => lineState value
    | .notifyModemState _ value => modemState value
    | .flowControlSuspend _ => flowControlSuspend
    | .flowControlResume _ => flowControlResume
    | .setLineStateMask _ value => lineStateMask value
    | .setModemStateMask _ value => modemStateMask value
    | .purgeData _ value => purgeData value

/-- What the messages of the serial server have told. -/
structure SerialConsoleState where
  status : SerialStatus := .negotiating
  signature : Option (List UInt8) := none
  baud : Option UInt32 := none
  dataBits : Option UInt8 := none
  parity : Option UInt8 := none
  stopBits : Option UInt8 := none
  flowOut : Option UInt8 := none
  flowIn : Option UInt8 := none
  dtr : Option Bool := none
  rts : Option Bool := none
  breakState : Option Bool := none
  lineState : UInt8 := 0
  modemState : UInt8 := 0
  txSuspended : Bool := false
deriving DecidableEq, Repr

namespace SerialConsoleState

open Telnet.Serial

def parities : List UInt8 :=
  [Serial.Parity.none, Serial.Parity.odd, Serial.Parity.even, Serial.Parity.mark,
    Serial.Parity.space]

def stopSizes : List UInt8 := [StopSize.one, StopSize.two, StopSize.oneAndAHalf]

def outboundFlows : List UInt8 :=
  [Control.noOutboundFlow, Control.xonXoffOutbound, Control.hardwareOutbound, Control.dcdOutbound,
    Control.dsrOutbound]

def inboundFlows : List UInt8 :=
  [Control.noInboundFlow, Control.xonXoffInbound, Control.hardwareInbound, Control.dtrInbound]

def updateControl (s : SerialConsoleState) (value : UInt8) : SerialConsoleState :=
  if value ∈ outboundFlows then { s with flowOut := some value }
  else if value ∈ inboundFlows then { s with flowIn := some value }
  else if value = Control.breakOn then { s with breakState := some true }
  else if value = Control.breakOff then { s with breakState := some false }
  else if value = Control.dtrOn then { s with dtr := some true }
  else if value = Control.dtrOff then { s with dtr := some false }
  else if value = Control.rtsOn then { s with rts := some true }
  else if value = Control.rtsOff then { s with rts := some false }
  else s

def update (s : SerialConsoleState) : SerialEvent → SerialConsoleState
  | .signature text => { s with signature := some text }
  | .baudRate value => if value ≠ 0 then { s with baud := some value } else s
  | .dataSize value => if 5 ≤ value ∧ value ≤ 8 then { s with dataBits := some value } else s
  | .parity value => if value ∈ parities then { s with parity := some value } else s
  | .stopSize value => if value ∈ stopSizes then { s with stopBits := some value } else s
  | .control value => s.updateControl value
  | .lineState value => { s with lineState := value }
  | .modemState value => { s with modemState := value }
  | .flowControlSuspend => { s with txSuspended := true }
  | .flowControlResume => { s with txSuspended := false }
  | .lineStateMask _ | .modemStateMask _ | .purgeData _ => s

@[simp] theorem update_status (s : SerialConsoleState) (event : SerialEvent) :
    (s.update event).status = s.status := by
  unfold update updateControl
  repeat' split
  all_goals rfl

end SerialConsoleState

inductive ClientEvent
  | data (byte : UInt8)
  | serialModeActive
  | serialModeRefused
  | telnet (event : TelnetEvent)
  | serial (event : SerialEvent)
  | malformedSerial (error : Serial.DecodeError)
deriving DecidableEq, Repr

inductive ClientEncodeError
  | bufferFull
deriving DecidableEq, Repr

structure ClientSession (sbCap optionCap signatureCap : Nat) where
  protocol : Telnet ClientPolicy sbCap optionCap
  serial : Option SerialConsoleState
  serialQueried : Bool
  telnetSnapshot : Option TelnetModeSnapshot

def restoreUsOption {P : Type} {sbCap optionCap : Nat} (n : Nat) (t : Telnet P sbCap optionCap)
    (option : UInt8) (enabled : Bool) (out : List UInt8) : Telnet P sbCap optionCap × List UInt8 :=
  if enabled then t.requestUs n option out else t.disableUs n option out

def restoreHimOption {P : Type} {sbCap optionCap : Nat} (n : Nat) (t : Telnet P sbCap optionCap)
    (option : UInt8) (enabled : Bool) (out : List UInt8) : Telnet P sbCap optionCap × List UInt8 :=
  if enabled then t.requestHim n option out else t.disableHim n option out

namespace ClientSession

variable {sbCap optionCap signatureCap : Nat}

def new : ClientSession sbCap optionCap signatureCap :=
  ⟨.new ⟨false⟩, none, false, none⟩

def serialActive (s : ClientSession sbCap optionCap signatureCap) : Bool :=
  s.serial.any fun serial => serial.status == .active

def serialMode (s : ClientSession sbCap optionCap signatureCap) : Bool := s.serial.isSome

def usEnabled (s : ClientSession sbCap optionCap signatureCap) (option : UInt8) : Bool :=
  s.protocol.usEnabled option

/-- The endpoint with another policy. -/
def setSerialMode (t : Telnet ClientPolicy sbCap optionCap) (serialMode : Bool) :
    Telnet ClientPolicy sbCap optionCap :=
  { t with policy := ⟨serialMode⟩ }

/-- The requests of `enterSerialMode`. -/
def enterProtocol (n : Nat) (t : Telnet ClientPolicy sbCap optionCap) (out : List UInt8) :
    Telnet ClientPolicy sbCap optionCap × List UInt8 :=
  let (t, out) := t.requestBinaryMode n out
  let (t, out) := t.requestUs n optSuppressGoAhead out
  let (t, out) := t.requestHim n optSuppressGoAhead out
  let (t, out) := t.disableHim n optEcho out
  t.requestUs n optComPort out

def enterSerialMode (n : Nat) (s : ClientSession sbCap optionCap signatureCap) (out : List UInt8) :
    ClientSession sbCap optionCap signatureCap × List UInt8 × Except ClientEncodeError Bool :=
  if s.serial.isSome then (s, out, .ok false)
  else if n - out.length < serialModeNegotiationMax then (s, out, .error .bufferFull)
  else
    let snapshot : TelnetModeSnapshot := {
      usBinary := s.protocol.usEnabled optBinary
      himBinary := s.protocol.himEnabled optBinary
      usSga := s.protocol.usEnabled optSuppressGoAhead
      himSga := s.protocol.himEnabled optSuppressGoAhead
      himEcho := s.protocol.himEnabled optEcho }
    let (protocol, out) := enterProtocol n (setSerialMode s.protocol true) out
    (⟨protocol, some {}, false, some snapshot⟩, out, .ok true)

/-- The requests that restore the options of a snapshot. -/
def restore (n : Nat) (t : Telnet ClientPolicy sbCap optionCap) (snapshot : TelnetModeSnapshot)
    (out : List UInt8) : Telnet ClientPolicy sbCap optionCap × List UInt8 :=
  let (t, out) := restoreUsOption n t optBinary snapshot.usBinary out
  let (t, out) := restoreHimOption n t optBinary snapshot.himBinary out
  let (t, out) := restoreUsOption n t optSuppressGoAhead snapshot.usSga out
  let (t, out) := restoreHimOption n t optSuppressGoAhead snapshot.himSga out
  restoreHimOption n t optEcho snapshot.himEcho out

/-- The requests of `leaveSerialMode`. -/
def leaveProtocol (n : Nat) (t : Telnet ClientPolicy sbCap optionCap)
    (snapshot : Option TelnetModeSnapshot) (out : List UInt8) :
    Telnet ClientPolicy sbCap optionCap × List UInt8 :=
  let (t, out) := t.disableUs n optComPort out
  match snapshot with
  | some snapshot => restore n t snapshot out
  | none => (t, out)

def leaveSerialMode (n : Nat) (s : ClientSession sbCap optionCap signatureCap) (out : List UInt8) :
    ClientSession sbCap optionCap signatureCap × List UInt8 × Except ClientEncodeError Bool :=
  if s.serial.isNone then (s, out, .ok false)
  else if n - out.length < serialModeNegotiationMax then (s, out, .error .bufferFull)
  else
    let (protocol, out) := leaveProtocol n (setSerialMode s.protocol false) s.telnetSnapshot out
    (⟨protocol, none, false, none⟩, out, .ok true)

/-- What a payload of the COM-PORT option does. -/
def feedSerial (s : ClientSession sbCap optionCap signatureCap) :
    ClientSession sbCap optionCap signatureCap × Option ClientEvent :=
  match Serial.decodeFrom .server s.protocol.subnegotiation.2 with
  | .ok message =>
    match SerialEvent.fromServerMessage signatureCap message with
    | none => (s, none)
    | some event =>
      ({ s with serial := s.serial.map (·.update event) }, some (.serial event))
  | .error error => (s, some (.malformedSerial error))

/-- What an event of the codec means to the session, which has already taken the byte. -/
def onEvent (s : ClientSession sbCap optionCap signatureCap) (event : TelnetEvent) :
    ClientSession sbCap optionCap signatureCap × Option ClientEvent :=
  match event with
  | .data byte => (s, some (.data byte))
  | .optionEnabled .us option =>
    if option = optComPort then
      ({ s with serial := s.serial.map fun serial => { serial with status := .active } },
        some .serialModeActive)
    else (s, some (.telnet event))
  | .optionDisabled .us option | .optionRefused .us option =>
    if option = optComPort then
      ({ s with
          serial := s.serial.map fun serial => { serial with status := .refused }
          serialQueried := false },
        some .serialModeRefused)
    else (s, some (.telnet event))
  | .subnegotiation option =>
    if option = optComPort then s.feedSerial else (s, some (.telnet event))
  | _ => (s, some (.telnet event))

/-- Take one byte from the peer, with a reply buffer of capacity `n`. -/
def feed (n : Nat) (s : ClientSession sbCap optionCap signatureCap) (byte : UInt8)
    (reply : List UInt8) :
    ClientSession sbCap optionCap signatureCap × List UInt8 × Option ClientEvent :=
  let (protocol, reply, event) := s.protocol.feed n byte reply
  let s := { s with protocol }
  match event with
  | none => (s, reply, none)
  | some event =>
    let (s, event) := s.onEvent event
    (s, reply, event)

inductive Op
  | enterSerialMode (n : Nat) (out : List UInt8)
  | leaveSerialMode (n : Nat) (out : List UInt8)
  | feed (n : Nat) (byte : UInt8) (reply : List UInt8)
deriving DecidableEq, Repr

def step (s : ClientSession sbCap optionCap signatureCap) :
    Op → ClientSession sbCap optionCap signatureCap
  | .enterSerialMode n out => (s.enterSerialMode n out).1
  | .leaveSerialMode n out => (s.leaveSerialMode n out).1
  | .feed n byte reply => (s.feed n byte reply).1

def run (s : ClientSession sbCap optionCap signatureCap) (ops : List Op) :
    ClientSession sbCap optionCap signatureCap :=
  ops.foldl step s

/-- The options that a client uses. -/
def used : Finset UInt8 := {optBinary, optSuppressGoAhead, optEcho, optComPort}

/-! ### The COM-PORT half through the modes -/

/-- What our COM-PORT half may be, in serial mode and outside it. -/
def permitted : Bool → List QState
  | true => [.no, .yes, .wantYes, .wantNoOpposite]
  | false => [.no, .wantNo, .wantYesOpposite]

/-- The half follows the mode and the status follows the half. -/
structure Steady (s : ClientSession sbCap optionCap signatureCap) : Prop where
  tidy : Tidy used s.protocol
  policy : s.protocol.policy.serialMode = s.serialMode
  half : s.protocol.half .us optComPort ∈ permitted s.serialMode
  status : ∀ serial, s.serial = some serial →
    (serial.status = .active ↔ s.protocol.half .us optComPort = .yes)

variable {s : ClientSession sbCap optionCap signatureCap}

theorem steady_new : (new : ClientSession sbCap optionCap signatureCap).Steady where
  tidy := tidy_new used _
  policy := rfl
  half := List.mem_cons_self
  status := fun _ h => nomatch h

theorem supports_used (policy : ClientPolicy) (side : Side) (option : UInt8)
    (h : supports policy side option = true) : option ∈ used := by
  cases side <;>
    simp only [supports, Policy.supportUs, Policy.supportHim, Bool.or_eq_true, Bool.and_eq_true,
      beq_iff_eq] at h <;>
    simp only [used, Finset.mem_insert, Finset.mem_singleton] <;> tauto

theorem supports_comPort (policy : ClientPolicy) :
    supports policy .us optComPort = policy.serialMode := by
  cases h : policy.serialMode <;> simp [supports, Policy.supportUs, h]; decide

theorem permitted_replied {mode : Bool} {state state' : QState} (h : state ∈ permitted mode)
    (hr : Replied mode state state') : state' ∈ permitted mode := by
  have hreceive : ∀ mode : Bool, ∀ state ∈ permitted mode, ∀ positive : Bool,
      (state.receive mode positive).1 ∈ permitted mode := by decide
  cases hr with
  | inl heq => exact heq ▸ h
  | inr hpos =>
    obtain ⟨positive, rfl⟩ := hpos
    exact hreceive mode state h positive

/-- Requests, each for a half, whether to turn it on, and its option. -/
def requestAll (n : Nat) (requests : List (Side × Bool × UInt8))
    (r : Telnet ClientPolicy sbCap optionCap × List UInt8) :
    Telnet ClientPolicy sbCap optionCap × List UInt8 :=
  requests.foldl (fun r q => request q.1 q.2.1 n r.1 q.2.2 r.2) r

theorem requestAll_spec {requests : List (Side × Bool × UInt8)}
    (hrequests : ∀ q ∈ requests, q.2.2 ∈ used ∧ ¬ (.us = q.1 ∧ optComPort = q.2.2))
    (hcap : used.card < optionCap) (n : Nat) {r : Telnet ClientPolicy sbCap optionCap × List UInt8}
    (h : Tidy used r.1) :
    Tidy used (requestAll n requests r).1 ∧ (requestAll n requests r).1.policy = r.1.policy ∧
      (requestAll n requests r).1.half .us optComPort = r.1.half .us optComPort := by
  induction requests generalizing r with
  | nil => exact ⟨h, rfl, rfl⟩
  | cons q rest ih =>
    obtain ⟨hmem, hother⟩ := hrequests q (by simp)
    obtain ⟨htidy, hpolicy, -, hhalf⟩ := h.request hcap q.1 q.2.1 (fun _ => hmem) n r.2
    obtain ⟨htidy', hpolicy', hhalf'⟩ :=
      ih (fun x hx => hrequests x (List.mem_cons_of_mem _ hx)) htidy
    exact ⟨htidy', hpolicy'.trans hpolicy, hhalf'.trans (hhalf .us optComPort hother)⟩

/-- The requests of `enterProtocol` before the one for the COM-PORT half. -/
def enterRequests : List (Side × Bool × UInt8) :=
  [(.us, true, optBinary), (.him, true, optBinary), (.us, true, optSuppressGoAhead),
    (.him, true, optSuppressGoAhead), (.him, false, optEcho)]

theorem enterRequests_other :
    ∀ q ∈ enterRequests, q.2.2 ∈ used ∧ ¬ (.us = q.1 ∧ optComPort = q.2.2) := by
  decide

theorem enterProtocol_eq (n : Nat) (t : Telnet ClientPolicy sbCap optionCap) (out : List UInt8) :
    enterProtocol n t out =
      let r := requestAll n enterRequests (t, out)
      request .us true n r.1 optComPort r.2 := by
  unfold enterProtocol requestBinaryMode requestUs requestHim disableHim requestAll enterRequests
  simp only [List.foldl_cons, List.foldl_nil]

def restoreRequests (snapshot : TelnetModeSnapshot) : List (Side × Bool × UInt8) :=
  [(.us, snapshot.usBinary, optBinary), (.him, snapshot.himBinary, optBinary),
    (.us, snapshot.usSga, optSuppressGoAhead), (.him, snapshot.himSga, optSuppressGoAhead),
    (.him, snapshot.himEcho, optEcho)]

theorem restoreRequests_other (snapshot : TelnetModeSnapshot) :
    ∀ q ∈ restoreRequests snapshot, q.2.2 ∈ used ∧ ¬ (.us = q.1 ∧ optComPort = q.2.2) := by
  simp [restoreRequests, used]
  decide

theorem restore_eq (n : Nat) (t : Telnet ClientPolicy sbCap optionCap)
    (snapshot : TelnetModeSnapshot) (out : List UInt8) :
    restore n t snapshot out = requestAll n (restoreRequests snapshot) (t, out) := by
  have hus : ∀ t : Telnet ClientPolicy sbCap optionCap, ∀ option enabled out,
      restoreUsOption n t option enabled out = request .us enabled n t option out := by
    intro t option enabled out
    cases enabled <;> rfl
  have hhim : ∀ t : Telnet ClientPolicy sbCap optionCap, ∀ option enabled out,
      restoreHimOption n t option enabled out = request .him enabled n t option out := by
    intro t option enabled out
    cases enabled <;> rfl
  unfold restore requestAll restoreRequests
  simp only [hus, hhim, List.foldl_cons, List.foldl_nil]

theorem Steady.enterSerialMode (h : s.Steady) (hcap : used.card < optionCap) (n : Nat)
    (out : List UInt8) : (s.enterSerialMode n out).1.Steady := by
  unfold ClientSession.enterSerialMode
  by_cases hmode : s.serial.isSome = true
  · rw [if_pos hmode]
    exact h
  · rw [if_neg hmode]
    by_cases hroom : n - out.length < serialModeNegotiationMax
    · rw [if_pos hroom]
      exact h
    · rw [if_neg hroom]
      have hoff : s.serialMode = false := Bool.not_eq_true _ ▸ hmode
      have hin := h.half
      rw [hoff] at hin
      obtain ⟨htidy, hpolicy, hhalf⟩ := requestAll_spec enterRequests_other hcap n
        (r := (setSerialMode s.protocol true, out)) ⟨h.tidy.nodup, h.tidy.idle⟩
      have heq := enterProtocol_eq n (setSerialMode s.protocol true) out
      generalize requestAll n _ _ = r at htidy hpolicy hhalf heq
      obtain ⟨htidy', hpolicy', hself, -⟩ := htidy.request hcap .us true
        (fun _ => (by decide : optComPort ∈ used)) n r.2
      simp only at heq
      rw [← heq] at htidy' hpolicy' hself
      generalize enterProtocol n (setSerialMode s.protocol true) out = r' at htidy' hpolicy' hself
      obtain ⟨t', out'⟩ := r'
      rw [hhalf] at hself
      -- asked for, or still being given up
      have hasked : ∀ state ∈ permitted false,
          ((state.request true).1 ∈ permitted true ∧ (state.request true).1 ≠ .yes) ∧
          ((state.request true).2.isSome = true → state ∈ permitted true ∧ state ≠ .yes) := by
        decide
      have hstate : t'.half .us optComPort ∈ permitted true ∧ t'.half .us optComPort ≠ .yes := by
        cases hself with
        | inl hmoved =>
          rw [hmoved]
          exact (hasked _ hin).1
        | inr hfull =>
          rw [hfull.2.2]
          exact (hasked _ hin).2 hfull.2.1
      refine ⟨htidy', ?_, hstate.1, ?_⟩
      · show t'.policy.serialMode = true
        rw [hpolicy', hpolicy]
        rfl
      · intro serial hserial
        rw [← Option.some.inj hserial]
        exact ⟨fun hno => (nomatch hno), fun hyes => absurd hyes hstate.2⟩

theorem Steady.leaveSerialMode (h : s.Steady) (hcap : used.card < optionCap) (n : Nat)
    (out : List UInt8) : (s.leaveSerialMode n out).1.Steady := by
  unfold ClientSession.leaveSerialMode
  by_cases hmode : s.serial.isNone = true
  · rw [if_pos hmode]
    exact h
  · rw [if_neg hmode]
    by_cases hroom : n - out.length < serialModeNegotiationMax
    · rw [if_pos hroom]
      exact h
    · rw [if_neg hroom]
      have hon : s.serialMode = true := by
        unfold serialMode
        cases hs : s.serial with
        | none => exact absurd (by rw [hs]; rfl) hmode
        | some serial => rfl
      have hin := h.half
      rw [hon] at hin
      have ht : Tidy used (setSerialMode s.protocol false) := ⟨h.tidy.nodup, h.tidy.idle⟩
      have hpolicy0 : (setSerialMode s.protocol false).policy = ⟨false⟩ := rfl
      have hin' : (setSerialMode s.protocol false).half .us optComPort ∈ permitted true := hin
      generalize setSerialMode s.protocol false = t at ht hpolicy0 hin'
      obtain ⟨htidy, hpolicy, hself, -⟩ := ht.request hcap .us false
        (fun _ => (by decide : optComPort ∈ used)) n out
      -- given up, or no longer asked for
      have hfits : ¬ n < out.length + 3 := by
        unfold serialModeNegotiationMax at hroom
        omega
      have hgiven : ∀ state ∈ permitted true, (state.request false).1 ∈ permitted false := by decide
      have hhalf : (request .us false n t optComPort out).1.half .us optComPort ∈
          permitted false := by
        rw [hself.resolve_right fun hfull => hfits hfull.1]
        exact hgiven _ hin'
      have hleft : Tidy used (leaveProtocol n t s.telnetSnapshot out).1 ∧
          (leaveProtocol n t s.telnetSnapshot out).1.policy = t.policy ∧
          (leaveProtocol n t s.telnetSnapshot out).1.half .us optComPort ∈ permitted false := by
        unfold leaveProtocol disableUs
        generalize request .us false n t optComPort out = r at htidy hpolicy hhalf
        obtain ⟨t1, out1⟩ := r
        cases s.telnetSnapshot with
        | none => exact ⟨htidy, hpolicy, hhalf⟩
        | some snapshot =>
          simp only [restore_eq]
          obtain ⟨htidy', hpolicy', hhalf'⟩ := requestAll_spec (restoreRequests_other snapshot)
            hcap n (r := (t1, out1)) htidy
          exact ⟨htidy', hpolicy'.trans hpolicy, by rw [hhalf']; exact hhalf⟩
      generalize leaveProtocol n t s.telnetSnapshot out = r at hleft
      obtain ⟨t', out'⟩ := r
      obtain ⟨htidy', hpolicy', hhalf'⟩ := hleft
      refine ⟨htidy', ?_, hhalf', fun _ hserial => nomatch hserial⟩
      show t'.policy.serialMode = false
      rw [hpolicy', hpolicy0]

/-- The session with another serial state, if it has one. -/
def mapSerial (s : ClientSession sbCap optionCap signatureCap)
    (f : SerialConsoleState → SerialConsoleState) : ClientSession sbCap optionCap signatureCap :=
  { s with serial := s.serial.map f }

theorem feedSerial_serial : ∃ f : SerialConsoleState → SerialConsoleState,
    (∀ serial, (f serial).status = serial.status) ∧ s.feedSerial.1 = s.mapSerial f := by
  have hid : s = s.mapSerial id := by
    unfold mapSerial
    rw [Option.map_id]
    rfl
  unfold feedSerial
  cases Serial.decodeFrom .server s.protocol.subnegotiation.2 with
  | error error => exact ⟨id, fun _ => rfl, hid⟩
  | ok message =>
    cases hev : SerialEvent.fromServerMessage signatureCap message with
    | none => exact ⟨id, fun _ => rfl, by simpa [hev] using hid⟩
    | some event => exact ⟨(·.update event), fun _ => by simp, by simp [hev, mapSerial]⟩

/-- The status that an event of the codec sets. -/
def eventStatus (event : TelnetEvent) (old : SerialStatus) : SerialStatus :=
  if event = .optionEnabled .us optComPort then .active
  else if event = .optionDisabled .us optComPort ∨
    event = .optionRefused .us optComPort then .refused
  else old

theorem onEvent_spec (event : TelnetEvent) :
    ∃ f : SerialConsoleState → SerialConsoleState, ∃ queried,
      (∀ serial, (f serial).status = eventStatus event serial.status) ∧
        (s.onEvent event).1 = { s.mapSerial f with serialQueried := queried } := by
  have hid : s = { s.mapSerial id with serialQueried := s.serialQueried } := by
    unfold mapSerial
    rw [Option.map_id]
    rfl
  by_cases hen : event = .optionEnabled .us optComPort
  · subst hen
    exact ⟨fun serial => { serial with status := .active }, s.serialQueried, fun _ => rfl, rfl⟩
  · by_cases hdis : event = .optionDisabled .us optComPort ∨ event = .optionRefused .us optComPort
    · have hstatus : ∀ old, eventStatus event old = .refused := by
        intro old
        unfold eventStatus
        rw [if_neg hen, if_pos hdis]
      refine ⟨fun serial => { serial with status := .refused }, false,
        fun serial => (hstatus serial.status).symm, ?_⟩
      rcases hdis with rfl | rfl
      · rfl
      · rfl
    · have hstatus : ∀ old, eventStatus event old = old := by
        intro old
        unfold eventStatus
        rw [if_neg hen, if_neg hdis]
      simp only [hstatus]
      -- any other event keeps the status, and a message changes the rest
      suffices h : (s.onEvent event).1 = s ∨ (s.onEvent event).1 = s.feedSerial.1 by
        cases h with
        | inl h => exact ⟨id, s.serialQueried, fun _ => rfl, h.trans hid⟩
        | inr h =>
          obtain ⟨f, hf, heq⟩ := s.feedSerial_serial
          exact ⟨f, s.serialQueried, hf, h.trans heq⟩
      cases event with
      | optionEnabled side option =>
        cases side with
        | him => exact .inl rfl
        | us =>
          have ho : option ≠ optComPort := fun ho => hen (ho ▸ rfl)
          exact .inl (by simp [onEvent, ho])
      | optionDisabled side option =>
        cases side with
        | him => exact .inl rfl
        | us =>
          have ho : option ≠ optComPort := fun ho => hdis (.inl (ho ▸ rfl))
          exact .inl (by simp [onEvent, ho])
      | optionRefused side option =>
        cases side with
        | him => exact .inl rfl
        | us =>
          have ho : option ≠ optComPort := fun ho => hdis (.inr (ho ▸ rfl))
          exact .inl (by simp [onEvent, ho])
      | subnegotiation option =>
        by_cases ho : option = optComPort
        · exact .inr (by simp [onEvent, ho])
        · exact .inl (by simp [onEvent, ho])
      | _ => exact .inl rfl

theorem Steady.feed (h : s.Steady) (hcap : used.card < optionCap) (n : Nat) (byte : UInt8)
    (reply : List UInt8) : (s.feed n byte reply).1.Steady := by
  have hfed := Fed.feed h.tidy hcap (supports_used s.protocol.policy) n byte reply
  unfold ClientSession.feed
  generalize s.protocol.feed n byte reply = r at hfed
  obtain ⟨t', reply', event⟩ := r
  simp only at hfed ⊢
  have hpolicy : t'.policy.serialMode = s.serialMode := by rw [hfed.policy, h.policy]
  have hhalf : t'.half .us optComPort ∈ permitted s.serialMode := by
    have hreplied := hfed.replied .us optComPort
    rw [supports_comPort, h.policy] at hreplied
    exact permitted_replied h.half hreplied
  have hon := hfed.enabled .us optComPort
  have hoff := hfed.disabled .us optComPort
  cases event with
  | none =>
    refine ⟨hfed.tidy, hpolicy, hhalf, fun serial hserial => ?_⟩
    rw [h.status serial hserial]
    constructor
    · intro hwas
      by_contra hnow
      exact nomatch hoff.mpr ⟨hwas, hnow⟩
    · intro hnow
      by_contra hwas
      exact nomatch hon.mpr ⟨hwas, hnow⟩
  | some event =>
    obtain ⟨f, queried, hf, heq⟩ :=
      ({ s with protocol := t' } : ClientSession sbCap optionCap signatureCap).onEvent_spec event
    rw [heq]
    have hmode : (s.serial.map f).isSome = s.serialMode := Option.isSome_map
    refine ⟨hfed.tidy, hpolicy.trans hmode.symm, ?_, fun serial hserial => ?_⟩
    · show t'.half .us optComPort ∈ permitted (s.serial.map f).isSome
      rw [hmode]
      exact hhalf
    · obtain ⟨old, hold, rfl⟩ := Option.map_eq_some_iff.mp hserial
      show (f old).status = .active ↔ t'.half .us optComPort = .yes
      rw [hf]
      unfold eventStatus
      by_cases hen : event = .optionEnabled .us optComPort
      · rw [if_pos hen]
        exact iff_of_true rfl (hon.mp (hen ▸ rfl)).2
      · rw [if_neg hen]
        by_cases hdis : event = .optionDisabled .us optComPort ∨
          event = .optionRefused .us optComPort
        · rw [if_pos hdis]
          refine iff_of_false nofun ?_
          cases hdis with
          | inl hdis => exact (hoff.mp (hdis ▸ rfl)).2
          | inr href =>
            rw [(hfed.refused .us optComPort (href ▸ rfl)).2]
            exact nofun
        · rw [if_neg hdis, h.status old hold]
          constructor
          · intro hyes
            by_contra hnow
            exact hdis (.inl (Option.some.inj (hoff.mpr ⟨hyes, hnow⟩)))
          · intro hnow
            by_contra hno
            exact hen (Option.some.inj (hon.mpr ⟨hno, hnow⟩))

theorem Steady.run (h : s.Steady) (hcap : used.card < optionCap) (ops : List Op) :
    (s.run ops).Steady := by
  induction ops generalizing s with
  | nil => exact h
  | cons op rest ih =>
    refine ih (s := s.step op) ?_
    cases op with
    | enterSerialMode n out => exact h.enterSerialMode hcap n out
    | leaveSerialMode n out => exact h.leaveSerialMode hcap n out
    | feed n byte reply => exact h.feed hcap n byte reply

/-- The half is on outside serial mode never, and in it exactly when the session is active. -/
theorem Steady.active (h : s.Steady) :
    (s.serialActive = true ↔ s.serialMode = true ∧ s.usEnabled optComPort = true) ∧
      (s.serialMode = false → s.usEnabled optComPort = false) := by
  have henabled : s.usEnabled optComPort = true ↔ s.protocol.half .us optComPort = .yes := by
    unfold usEnabled
    rw [usEnabled_eq, beq_iff_eq]
  constructor
  · rw [henabled]
    cases hs : s.serial with
    | none => simp [serialActive, serialMode, hs]
    | some serial =>
      simp only [serialActive, serialMode, hs, Option.any_some, beq_iff_eq, Option.isSome_some,
        true_and]
      exact h.status serial hs
  · intro hmode
    rw [← Bool.not_eq_true, henabled]
    intro hyes
    have hhalf := h.half
    rw [hyes, hmode] at hhalf
    exact absurd hhalf (by decide)

end ClientSession

/-! ### The statuses of both sessions -/

/-- The server's status is right all along a run exactly if no `start` takes effect while its serial
mode is active, and its event marks the calls that turn the mode on; the client is active exactly in
serial mode with the COM-PORT half on, and outside serial mode that half is never on. -/
theorem session_status {serverSb serverCap clientSb clientCap signatureCap : Nat}
    (hserver : ServerSession.used.card < serverCap)
    (hclient : ClientSession.used.card < clientCap) :
    (∀ ops : List ServerSession.Op,
      ((∀ pre, pre <+: ops → ((.new : ServerSession serverSb serverCap).run pre).Matches) ↔
        ∀ pre op, pre ++ [op] <+: ops →
          ¬ ((.new : ServerSession serverSb serverCap).run pre).Resets op) ∧
      ∀ pre op, pre ++ [op] <+: ops →
        let s := (.new : ServerSession serverSb serverCap).run pre
        ((s.step op).2 = some .serialModeActive ↔
          s.serialActive = false ∧ (s.step op).1.serialActive = true)) ∧
    ∀ ops : List ClientSession.Op,
      let s := (.new : ClientSession clientSb clientCap signatureCap).run ops
      (s.serialActive = true ↔ s.serialMode = true ∧ s.usEnabled optComPort = true) ∧
        (s.serialMode = false → s.usEnabled optComPort = false) := by
  refine ⟨fun ops => ⟨ServerSession.run_matches hserver ops, fun pre op _ => ?_⟩, fun ops => ?_⟩
  · exact (ServerSession.step_spec (ServerSession.run_tidy hserver pre) hserver op).2.1
  · exact (ClientSession.steady_new.run hclient ops).active

/-- The bytes that turn the serial mode of a server on, before its `start`. -/
def ServerSession.early : List ServerSession.Op :=
  [iac, doVerb, optBinary, iac, willVerb, optBinary, iac, willVerb, optComPort].map (.feed 15 · [])
    ++ [.start 15 []]

/-- A `start` after the peer has turned the serial mode on says that it is still negotiated. -/
theorem status_early : ((.new : ServerSession 256 12).run ServerSession.early).serialActive = true ∧
      ((.new : ServerSession 256 12).run ServerSession.early).serial.status = .negotiating ∧
      ¬ ((.new : ServerSession 256 12).run ServerSession.early).Matches := by
  decide

/-- A client that enters serial mode, and whose peer agrees to it. -/
def ClientSession.entered : List ClientSession.Op :=
  .enterSerialMode 18 [] :: [iac, doVerb, optComPort].map (.feed 18 · [])

theorem session_status_entered :
    ((.new : ClientSession 256 12 64).run ClientSession.entered).serialActive = true :=
  ((@session_status 256 12 256 12 64 (by decide) (by decide)).2
    ClientSession.entered).1.mpr (by decide)

end Microtun.Telnet
