import Microtun.Lib.Awaiting
import Microtun.Lib.System
import Microtun.Telnet.Server
import Microtun.Telnet.Writers

/-! The RFC 2217 bridge of the dongle between a TCP socket and the UART, `rfc2217.rs`. -/

namespace Microtun.Rfc2217

open Telnet Awaiting

abbrev Rfc2217Session := ServerSession 256 12

def netChunk : Nat := 512
def uartChunk : Nat := 512
def uartTxBurst : Nat := 32
def deferredRx : Nat := 1024
def controlBuffer : Nat := 96
/-- `esp32-c3-dongle` -/
def signature : List UInt8 := [101, 115, 112, 51, 50, 45, 99, 51, 45, 100, 111, 110, 103, 108, 101]
def xon : UInt8 := 0x11
def xoff : UInt8 := 0x13

structure PortState where
  baud : UInt32 := 115200
  dataBits : DataBits := .eight
  parity : Parity := .none
  stopBits : StopBits := .one
  outboundFlow : OutboundFlow := .none
  inboundFlow : InboundFlow := .none
  dtr : Bool := true
  rts : Bool := true
  breakOn : Bool := false
deriving DecidableEq, Repr

namespace PortState

def hardwareInboundFlow (s : PortState) : Bool := s.inboundFlow = .rtsCts
def hardwareOutboundFlow (s : PortState) : Bool := s.outboundFlow = .rtsCts
def softwareInboundFlow (s : PortState) : Bool := s.inboundFlow = .xonXoff
def softwareOutboundFlow (s : PortState) : Bool := s.outboundFlow = .xonXoff

end PortState

structure FlowRuntime where
  /-- The attached device sent XOFF. -/
  txPausedByPeer : Bool := false
  /-- The bridge sent XOFF to the attached device. -/
  rxPeerPaused : Bool := false
deriving DecidableEq, Repr

/-- `SerialAction`, with what the bridge uses of a signature. -/
inductive SerialAction where
  | signatureQuery (empty : Bool)
  | baud (value : QueryOrSet UInt32)
  | dataBits (value : QueryOrSet DataBits)
  | parity (value : QueryOrSet Parity)
  | stopBits (value : QueryOrSet StopBits)
  | outboundFlow (value : QueryOrSet OutboundFlow)
  | inboundFlow (value : QueryOrSet InboundFlow)
  | rts (value : QueryOrSet Bool)
  | dtr (value : QueryOrSet Bool)
  | brk (value : QueryOrSet Bool)
  | lineStateMask (mask : UInt8)
  | modemStateMask (mask : UInt8)
  | purge (target : Purge)
  | suspend
  | resume
deriving DecidableEq, Repr

def SerialAction.of : SerialRequest → SerialAction
  | .signature text => .signatureQuery (text = [])
  | .baud value => .baud value
  | .dataBits value => .dataBits value
  | .parity value => .parity value
  | .stopBits value => .stopBits value
  | .outboundFlow value => .outboundFlow value
  | .inboundFlow value => .inboundFlow value
  | .rts value => .rts value
  | .dtr value => .dtr value
  | .brk value => .brk value
  | .lineStateMask mask => .lineStateMask mask
  | .modemStateMask mask => .modemStateMask mask
  | .purge target => .purge target
  | .suspend => .suspend
  | .resume => .resume

inductive NetworkAction where
  | none
  | data (byte : UInt8)
  | serial (action : SerialAction)
  | brk
  | serialModeActive
  | serialModeRefused
deriving DecidableEq, Repr

def networkAction : Option ServerEvent → NetworkAction
  | .none => .none
  | some (.data byte) => .data byte
  | some (.serial request) => .serial (.of request)
  | some .serialModeActive => .serialModeActive
  | some .serialModeRefused => .serialModeRefused
  | some (.telnet .brk) => .brk
  | some (.malformedSerial _) | some (.invalidSerialRequest _) | some (.telnet _) => .none

/-! ### What the hardware and the socket answer -/

inductive RxError where
  | fifoOverflowed
  | glitchOccurred
  | frameFormatViolated
  | parityMismatch
  | other
deriving DecidableEq, Repr

/-- What ends the wait for the socket: a read, or the timer. -/
inductive Arrival where
  | read (bytes : List UInt8)
  | error
  | timer
deriving DecidableEq, Repr

/-- The answer to one call, to which it is only the field of the call that matters. -/
structure Moment where
  arrival : Arrival := .timer
  /-- The UART is ready first of the three. -/
  uartFirst : Bool := false
  readReady : Bool := false
  uartRead : Except RxError (List UInt8) := .ok []
  timeout : Bool := false
  /-- How many bytes the UART takes, of those it is offered; 0 stands for an error too. -/
  uartWrite : Nat := 32
  uartFlush : Bool := true
  applyConfig : Bool := true
  socketWrite : Bool := true
  ctsAsserted : Bool := true

/-- The four places that read the UART. -/
inductive Place where
  | select
  | drain
  | wait
  | purge
deriving DecidableEq, Repr

/-- What happened. -/
inductive Entry where
  | received (place : Place) (bytes : List UInt8)
  | receiveError (place : Place) (error : RxError)
  /-- A request of the client is handled. -/
  | request (action : SerialAction)
  /-- A burst of client data is offered to the UART. -/
  | burst (bytes : List UInt8)
  /-- The UART took flow bytes of the bridge. -/
  | flow (bytes : List UInt8)
  /-- The UART took nothing. -/
  | writeError
  | sendBreak
  | rts (asserted : Bool)
  /-- The socket took data of the UART. -/
  | data (bytes : List UInt8)
  /-- The socket took bytes of the protocol. -/
  | control (bytes : List UInt8)
deriving DecidableEq, Repr

structure Bridge where
  state : PortState
  flow : FlowRuntime
  /-- `Deque<u8, DEFERRED_RX>` -/
  deferred : List UInt8
  session : Rfc2217Session
  /-- `previous_modem_state` of the session -/
  previousModemState : Option UInt8
  lastModem : UInt8
  log : List Entry

abbrev BridgeM := Program Bridge Moment

def emit (e : Entry) : BridgeM Unit := update fun b => { b with log := b.log ++ [e] }

def ctsAsserted : BridgeM Bool := answer Moment.ctsAsserted

def uartFlush : BridgeM Bool := answer Moment.uartFlush

/-- `read_async` with room for `room` bytes. -/
def uartReadAsync (place : Place) (room : Nat) : BridgeM (Except RxError (List UInt8)) := do
  match ← answer Moment.uartRead with
  | .ok bytes =>
    emit (.received place (bytes.take room))
    return .ok (bytes.take room)
  | .error error =>
    emit (.receiveError place error)
    return .error error

/-- `write_async`; how many bytes the UART took. -/
def uartWriteAsync (bytes : List UInt8) : BridgeM Nat := do
  let n ← answer Moment.uartWrite
  if n = 0 then
    emit .writeError
    return 0
  else return min n bytes.length

/-- `write_all` and `flush` of the socket. -/
def socketWrite (e : Entry) : BridgeM Bool := do
  if ← answer Moment.socketWrite then
    emit e
    return true
  else return false

/-! ### Confirmations -/

section

open Telnet.Serial

def DataBits.wireValue : DataBits → UInt8
  | .five => DataSize.five
  | .six => DataSize.six
  | .seven => DataSize.seven
  | .eight => DataSize.eight

def Parity.wireValue : Telnet.Parity → UInt8
  | .none => Serial.Parity.none
  | .odd => Serial.Parity.odd
  | .even => Serial.Parity.even
  | .mark => Serial.Parity.mark
  | .space => Serial.Parity.space

def StopBits.wireValue : StopBits → UInt8
  | .one => StopSize.one
  | .two => StopSize.two
  | .oneAndAHalf => StopSize.oneAndAHalf

def OutboundFlow.wireValue : OutboundFlow → UInt8
  | .none => Control.noOutboundFlow
  | .xonXoff => Control.xonXoffOutbound
  | .rtsCts => Control.hardwareOutbound
  | .dcd => Control.dcdOutbound
  | .dsr => Control.dsrOutbound

def InboundFlow.wireValue : InboundFlow → UInt8
  | .none => Control.noInboundFlow
  | .xonXoff => Control.xonXoffInbound
  | .rtsCts => Control.hardwareInbound
  | .dtr => Control.dtrInbound

def Purge.wireValue : Telnet.Purge → UInt8
  | .receive => Serial.Purge.receive
  | .transmit => Serial.Purge.transmit
  | .both => Serial.Purge.both

def onOff (on : Bool) (yes no : UInt8) : UInt8 := if on then yes else no

/-- The bytes of a message, if it can be queued in a buffer of capacity `n`. -/
def queueSerial (n : Nat) (session : Rfc2217Session) (message : Serial.Message) :
    Option (List UInt8) :=
  if !session.serialActive then none
  else if message.origin ≠ .server then none
  else match encode n message [] with
    | (true, out) => some out
    | (false, _) => none

end

/-- `send_control` of what was queued, if it was. -/
def sendControl : Option (List UInt8) → BridgeM Bool
  | none => return false
  | some [] => return true
  | some out => socketWrite (.control out)

def confirm (message : Serial.Message) : BridgeM Bool := do
  sendControl (queueSerial controlBuffer (← state).session message)

/-! ### Line and modem state -/

def RxError.raw : RxError → UInt8
  | fifoOverflowed => 2
  | glitchOccurred | frameFormatViolated => 8
  | parityMismatch => 4
  | other => 128

def notifyLineError (error : RxError) : BridgeM Bool := do
  let session := (← state).session
  let value := error.raw &&& session.serial.lineStateMask
  if value = 0 then return true else confirm (.notifyLineState .server value)

/-- `modem_state`: only CTS is routed. -/
def modemState : BridgeM UInt8 := do
  if ← ctsAsserted then return 16 else return 0

/-- The flags of what changed; a trailing edge of RING counts only. -/
def modemDelta (previous current : UInt8) : UInt8 :=
  let changed := previous ^^^ current
  (if changed &&& 16 ≠ 0 then 1 else 0) ||| (if changed &&& 32 ≠ 0 then 2 else 0) |||
    (if previous &&& 64 ≠ 0 ∧ current &&& 64 = 0 then 4 else 0) |||
      (if changed &&& 128 ≠ 0 then 8 else 0)

def modemStateChanged (rawState : UInt8) : BridgeM (Option Serial.Message) := do
  let b ← state
  let current := rawState &&& 240
  update fun b => { b with previousModemState := some current }
  match b.previousModemState with
  | none => return none
  | some previous =>
    let value := (current ||| modemDelta previous current) &&& b.session.serial.modemStateMask
    if value = 0 then return none else return some (.notifyModemState .server value)

def sendModemSnapshot (current : UInt8) : BridgeM Bool := do
  let mask := (← state).session.serial.modemStateMask
  if mask = 0 then return true else confirm (.notifyModemState .server (current &&& mask))

def notifyModemChange (current : UInt8) : BridgeM Bool := do
  match ← modemStateChanged current with
  | none => return true
  | some message =>
    let session := (← state).session
    if !session.serialActive || session.serial.txSuspended then return true else confirm message

/-! ### The UART -/

def driveRts (asserted : Bool) : BridgeM Unit := emit (.rts asserted)

def refreshRts (receiveReady suspended : Bool) : BridgeM Unit := do
  let s := (← state).state
  driveRts (s.rts && (!s.hardwareInboundFlow || (receiveReady && !suspended)))

def applyUartConfig : BridgeM Bool := do
  if ← uartFlush then answer Moment.applyConfig else return false

def reconfigureUart (f : PortState → PortState) : BridgeM Bool := do
  let old := (← state).state
  update fun b => { b with state := f b.state }
  if ← applyUartConfig then return true
  else
    update fun b => { b with state := old }
    return false

/-- Bytes of the bridge itself. -/
def uartWriteRaw (bytes : List UInt8) : BridgeM Bool :=
  if bytes = [] then return true
  else loop (fun bytes => do
    match ← uartWriteAsync bytes with
    | 0 => return .inl false
    | n + 1 =>
      emit (.flow (bytes.take (n + 1)))
      match bytes.drop (n + 1) with
      | [] => return .inl true
      | rest => return .inr rest) bytes

def consumeReceivedFlowByte (state : PortState) (flow : FlowRuntime) (byte : UInt8) :
    Bool × FlowRuntime :=
  if !state.softwareOutboundFlow then (false, flow)
  else if byte = xoff then (true, { flow with txPausedByPeer := true })
  else if byte = xon then (true, { flow with txPausedByPeer := false })
  else (false, flow)

def captureBytes (state : PortState) : FlowRuntime → List UInt8 → List UInt8 →
    Bool × FlowRuntime × List UInt8
  | flow, deferred, [] => (true, flow, deferred)
  | flow, deferred, byte :: bytes =>
    match consumeReceivedFlowByte state flow byte with
    | (true, flow) => captureBytes state flow deferred bytes
    | (false, flow) =>
      if deferred.length < deferredRx then captureBytes state flow (deferred ++ [byte]) bytes
      else (false, flow, deferred)

def captureSerialRx (bytes : List UInt8) : BridgeM Bool := do
  let b ← state
  let (ok, flow, deferred) := captureBytes b.state b.flow b.deferred bytes
  update fun b => { b with flow, deferred }
  return ok

def drainUartReady : BridgeM Bool :=
  loop (fun () => do
    if ← answer Moment.readReady then
      match ← uartReadAsync .drain 64 with
      | .ok [] => return .inl true
      | .ok bytes => if ← captureSerialRx bytes then return .inr () else return .inl false
      | .error error => return .inl (← notifyLineError error)
    else return .inl true) ()

def waitForXon : BridgeM Bool :=
  loop (fun () => do
    let b ← state
    if b.state.softwareOutboundFlow && b.flow.txPausedByPeer then
      if ← answer Moment.timeout then return .inl false
      else match ← uartReadAsync .wait 64 with
        | .error error => return .inl (← notifyLineError error)
        | .ok [] => return .inr ()
        | .ok bytes => if ← captureSerialRx bytes then return .inr () else return .inl false
    else return .inl true) ()

/-- The part of `uart_write_all` before each burst that looks for XOFF. -/
def awaitXon : BridgeM Bool := do
  if (← state).state.softwareOutboundFlow then
    if ← drainUartReady then waitForXon else return false
  else return true

/-- The part that looks at CTS. -/
def awaitCts : BridgeM Bool := do
  if (← state).state.hardwareOutboundFlow then
    if ← ctsAsserted then return true else return !(← answer Moment.timeout)
  else return true

def uartWriteAll (bytes : List UInt8) : BridgeM Bool :=
  loop (fun bytes => do
    if bytes = [] then return .inl true
    else if ← awaitXon then
      if ← awaitCts then
        emit (.burst (bytes.take uartTxBurst))
        match ← uartWriteAsync (bytes.take uartTxBurst) with
        | 0 => return .inl false
        | n + 1 =>
          let s := (← state).state
          if s.softwareOutboundFlow || s.hardwareOutboundFlow then
            if ← uartFlush then return .inr (bytes.drop (n + 1)) else return .inl false
          else return .inr (bytes.drop (n + 1))
      else return .inl false
    else return .inl false) bytes

def setRxPeerPaused (paused : Bool) : BridgeM Unit :=
  update fun b => { b with flow.rxPeerPaused := paused }

def setSerialReceiveReady (receiveReady suspended : Bool) : BridgeM Bool := do
  refreshRts receiveReady suspended
  let b ← state
  let shouldPause := !receiveReady || suspended
  if b.state.softwareInboundFlow then
    if shouldPause ≠ b.flow.rxPeerPaused then
      if ← uartWriteRaw [if shouldPause then xoff else xon] then
        setRxPeerPaused shouldPause
        return true
      else return false
    else return true
  else if b.flow.rxPeerPaused then
    if ← uartWriteRaw [xon] then
      setRxPeerPaused false
      return true
    else return false
  else return true

def flushDeferredRx : BridgeM Bool :=
  loop (fun () => do
    let b ← state
    if b.deferred = [] then return .inl true
    else
      update fun b => { b with deferred := b.deferred.drop uartChunk }
      if ← socketWrite (.data (b.deferred.take uartChunk)) then return .inr ()
        else return .inl false) ()

/-! ### Requests of the client -/

def setOutboundFlow (b : Bridge) : OutboundFlow → Bridge
  | .none => { b with
      state.outboundFlow := .none, state.inboundFlow := .none, flow.txPausedByPeer := false }
  | .xonXoff => { b with
      state.outboundFlow := .xonXoff, state.inboundFlow := .xonXoff, flow.txPausedByPeer := false }
  | .rtsCts => { b with
      state.outboundFlow := .rtsCts, state.inboundFlow := .rtsCts, flow.txPausedByPeer := false }
  | .dcd | .dsr => b

def setInboundFlow (b : Bridge) : InboundFlow → Bridge
  | .none => { b with state.inboundFlow := .none }
  | .xonXoff => { b with state.inboundFlow := .xonXoff }
  | .rtsCts => { b with state.inboundFlow := .rtsCts }
  | .dtr => b

/-- The loop that drops what the UART has received. -/
def discardReady : BridgeM Unit :=
  loop (fun () => do
    if ← answer Moment.readReady then
      match ← uartReadAsync .purge 64 with
      | .ok [] | .error _ => return .inl ()
      | .ok bytes =>
        update fun b => { b with
          flow := bytes.foldl (fun flow byte => (consumeReceivedFlowByte b.state flow byte).2)
            b.flow }
        return .inr ()
    else return .inl ()) ()

def purgeReceived : BridgeM Unit := do
  update fun b => { b with deferred := [] }
  discardReady

/-- A change of the port, after which the flow control is applied anew. -/
def changePort (f : Bridge → Bridge) : BridgeM Bool := do
  update f
  setSerialReceiveReady true (← state).session.serial.txSuspended

def sendBreak : BridgeM Unit := do
  let _ ← uartFlush
  emit .sendBreak

/-- What is asked is done, and the session goes on whether it succeeds or not. -/
def attempt (m : BridgeM Bool) : BridgeM Bool := do
  let _ ← m
  return true

/-- A setting is made if it is asked for, and confirmed. -/
def queryOrSet {T : Type} (request : QueryOrSet T) (set : T → BridgeM Bool)
    (message : PortState → Serial.Message) :
    BridgeM Bool := do
  let ok ← match request with
    | .set value => set value
    | .query => pure true
  if ok then confirm (message (← state).state) else return false

def confirmControl (message : PortState → UInt8) (s : PortState) : Serial.Message :=
  .setControl .server (message s)

def handleSerialRequest (request : SerialAction) : BridgeM Bool := do
  emit (.request request)
  match request with
  | .signatureQuery false => return true
  | .signatureQuery true => confirm (.signature .server signature)
  | .baud request =>
    queryOrSet request
      (fun value =>
        if 1 ≤ value ∧ value ≤ 5000000 then attempt (reconfigureUart fun s =>
          { s with baud := value })
        else return true)
      fun s => .setBaudRate .server s.baud
  | .dataBits request =>
    queryOrSet request (fun value =>
      attempt (reconfigureUart fun s => { s with dataBits := value }))
      fun s => .setDataSize .server (DataBits.wireValue s.dataBits)
  | .parity request =>
    queryOrSet request
      (fun value =>
        if value = .none ∨ value = .odd ∨ value = .even then
          attempt (reconfigureUart fun s => { s with parity := value })
        else return true)
      fun s => .setParity .server (Parity.wireValue s.parity)
  | .stopBits request =>
    queryOrSet request (fun value =>
      attempt (reconfigureUart fun s => { s with stopBits := value }))
      fun s => .setStopSize .server (StopBits.wireValue s.stopBits)
  | .outboundFlow request =>
    queryOrSet request (fun value => changePort (setOutboundFlow · value))
      (confirmControl fun s => OutboundFlow.wireValue s.outboundFlow)
  | .inboundFlow request =>
    queryOrSet request (fun value => changePort (setInboundFlow · value))
      (confirmControl fun s => InboundFlow.wireValue s.inboundFlow)
  | .rts request =>
    queryOrSet request (fun value => changePort fun b => { b with state.rts := value })
      (confirmControl fun s => onOff s.rts Serial.Control.rtsOn Serial.Control.rtsOff)
  | .dtr request =>
    queryOrSet request
      (fun value => do
        update fun b => { b with state.dtr := value }
        return true)
      (confirmControl fun s => onOff s.dtr Serial.Control.dtrOn Serial.Control.dtrOff)
  | .brk request =>
    queryOrSet request
      (fun value => do
        if value then sendBreak
        update fun b => { b with state.breakOn := value }
        return true)
      (confirmControl fun s => onOff s.breakOn Serial.Control.breakOn Serial.Control.breakOff)
  | .lineStateMask mask => confirm (.setLineStateMask .server mask)
  | .modemStateMask mask => confirm (.setModemStateMask .server mask)
  | .purge target => do
    if target = .receive ∨ target = .both then purgeReceived
    confirm (.purgeData .server (Purge.wireValue target))
  | .suspend => setSerialReceiveReady false true
  | .resume => setSerialReceiveReady true false

def flushPending (pending : List UInt8) : BridgeM Bool :=
  if pending = [] then return true else uartWriteAll pending

def sendReply (reply : List UInt8) : BridgeM Bool :=
  if reply = [] then return true else socketWrite (.control reply)

/-- The part of `process_network_chunk` after the session took a byte; the data still to be written
after it, or the end of the session. -/
def handleNetworkAction (pending : List UInt8) : NetworkAction → BridgeM (Option (List UInt8))
  | .none => return some pending
  | .data value => do
    if !(← state).session.serialActive then return some pending
    else if pending.length < netChunk then return some (pending ++ [value])
    else if ← flushPending pending then return some [value]
    else return none
  | .serial request => do
    if ← flushPending pending then
      if ← handleSerialRequest request then return some [] else return none
    else return none
  | .brk => do
    if ← flushPending pending then
      sendBreak
      return some []
    else return none
  | .serialModeActive => do
    if ← sendModemSnapshot (← modemState) then return some pending else return none
  | .serialModeRefused => return none

def processNetworkByte (pending : List UInt8) (byte : UInt8) : BridgeM (Option (List UInt8)) := do
  let (session, reply, event) := (← state).session.feed 32 byte []
  update fun b => { b with session }
  if ← sendReply reply then handleNetworkAction pending (networkAction event) else return none

def processNetworkBytes (pending : List UInt8) : List UInt8 → BridgeM Bool
  | [] => flushPending pending
  | byte :: bytes => do
    match ← processNetworkByte pending byte with
    | some pending => processNetworkBytes pending bytes
    | none => return false

def processNetworkChunk (bytes : List UInt8) : BridgeM Bool := processNetworkBytes [] bytes

/-! ### The session -/

def onArrival : Arrival → BridgeM Bool
  | .read [] | .error => return false
  | .read bytes => processNetworkChunk (bytes.take netChunk)
  | .timer => return true

/-- What a pass of the loop of `run_session` waits for. -/
def serve : BridgeM Bool := do
  let session := (← state).session
  if session.serial.txSuspended || !session.serialActive then
    onArrival (← answer Moment.arrival)
  else if ← answer Moment.uartFirst then
    match ← uartReadAsync .select uartChunk with
    | .ok bytes => if bytes = [] then return true else captureSerialRx bytes
    | .error error => notifyLineError error
  else onArrival (← answer Moment.arrival)

/-- Data that waits is sent while the client accepts it. -/
def deliver : BridgeM Bool := do
  let b ← state
  if b.session.serialActive && !b.session.serial.txSuspended && b.deferred ≠ [] then
    if ← setSerialReceiveReady false b.session.serial.txSuspended then
      let sent ← flushDeferredRx
      let resumed ← setSerialReceiveReady true b.session.serial.txSuspended
      return sent && resumed
    else return false
  else return true

def pollModem : BridgeM Bool := do
  let currentModem ← modemState
  if currentModem ≠ (← state).lastModem then
    if ← notifyModemChange currentModem then
      update fun b => { b with lastModem := currentModem }
      return true
    else return false
  else return true

/-- One pass of the loop of `run_session`, which goes on after it or ends. -/
def pass : BridgeM Bool := do
  if ← serve then
    if ← deliver then pollModem else return false
  else return false

def Bridge.new : Bridge := ⟨{}, {}, [], .new, none, 0, []⟩

/-- What `run_session` does before its loop. -/
def start : BridgeM Bool := do
  let _ ← applyUartConfig
  refreshRts true false
  let (session, hello, started) := (← state).session.start 32 []
  update fun b => { b with session }
  match started with
  | .error _ => return false
  | .ok _ =>
    if ← socketWrite (.control hello) then
      let lastModem ← modemState
      update fun b => { b with lastModem }
      let _ ← modemStateChanged lastModem
      return true
    else return false

/-- What it does after its loop. -/
def finish : BridgeM Unit := do
  let _ ← setSerialReceiveReady true false
  update fun b => { b with state := {} }
  let _ ← applyUartConfig
  refreshRts true false

/-- The states at the top of the loop; an event is the answers to the calls of one pass. -/
def system : System Bridge (List Moment) where
  init b := ∃ answers, exec start Bridge.new answers = (some true, b)
  step b answers :=
    match exec pass b answers with
    | (some true, b) => some b
    | _ => none

end Microtun.Rfc2217
