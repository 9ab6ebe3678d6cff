import Microtun.Bytes

/-! The virtual serial device, `cuse_device.rs`: the state that the file operations of applications
and the remote session share, and its critical sections. -/

namespace Microtun.Serial

/-! ### Line settings -/

namespace parity
def none : UInt8 := 1
def odd : UInt8 := 2
def even : UInt8 := 3
def mark : UInt8 := 4
def space : UInt8 := 5
end parity

namespace stopSize
def one : UInt8 := 1
def two : UInt8 := 2
def oneAndAHalf : UInt8 := 3
end stopSize

namespace control
def noOutboundFlow : UInt8 := 1
def xonXoffOutbound : UInt8 := 2
def hardwareOutbound : UInt8 := 3
def breakOn : UInt8 := 5
def breakOff : UInt8 := 6
def dtrOn : UInt8 := 8
def dtrOff : UInt8 := 9
def rtsOn : UInt8 := 11
def rtsOff : UInt8 := 12
def noInboundFlow : UInt8 := 14
def xonXoffInbound : UInt8 := 15
def hardwareInbound : UInt8 := 16
def dcdOutbound : UInt8 := 17
def dtrInbound : UInt8 := 18
def dsrOutbound : UInt8 := 19
end control

namespace purge
def receive : UInt8 := 1
def transmit : UInt8 := 2
def both : UInt8 := 3
end purge

/-- What the remote end reports. -/
inductive SerialEvent where
  | baudRate (value : UInt32)
  | dataSize (value : UInt8)
  | parity (value : UInt8)
  | stopSize (value : UInt8)
  | control (value : UInt8)
  | lineState (value : UInt8)
  | modemState (value : UInt8)
  | other
deriving DecidableEq, Repr

structure SerialState where
  baud : UInt32
  dataBits : UInt8
  parity : UInt8
  stopBits : UInt8
  flowOut : UInt8
  flowIn : UInt8
  dtr : Bool
  rts : Bool
  breakState : Bool
deriving DecidableEq, Repr

namespace SerialState

def default : SerialState where
  baud := 9600
  dataBits := 8
  parity := Serial.parity.none
  stopBits := stopSize.one
  flowOut := control.noOutboundFlow
  flowIn := control.noInboundFlow
  dtr := false
  rts := false
  breakState := false

def updateControl (s : SerialState) (value : UInt8) : SerialState :=
  if value ∈ [control.noOutboundFlow, control.xonXoffOutbound, control.hardwareOutbound,
      control.dcdOutbound, control.dsrOutbound] then { s with flowOut := value }
  else if value ∈ [control.noInboundFlow, control.xonXoffInbound, control.hardwareInbound,
      control.dtrInbound] then { s with flowIn := value }
  else if value = control.breakOn then { s with breakState := true }
  else if value = control.breakOff then { s with breakState := false }
  else if value = control.dtrOn then { s with dtr := true }
  else if value = control.dtrOff then { s with dtr := false }
  else if value = control.rtsOn then { s with rts := true }
  else if value = control.rtsOff then { s with rts := false }
  else s

def update (s : SerialState) : SerialEvent → SerialState
  | .baudRate value => if value ≠ 0 then { s with baud := value } else s
  | .dataSize value => if 5 ≤ value ∧ value ≤ 8 then { s with dataBits := value } else s
  | .parity value =>
    if value ∈ [parity.none, parity.odd, parity.even, parity.mark, parity.space] then
      { s with parity := value }
    else s
  | .stopSize value =>
    if value ∈ [stopSize.one, stopSize.two, stopSize.oneAndAHalf] then { s with stopBits := value }
    else s
  | .control value => s.updateControl value
  | _ => s

end SerialState

/-! ### Terminal settings -/

abbrev Flags := BitVec 32

/-- The constants of `libc` on Linux. -/
def csize : Flags := 0o60
def cs5 : Flags := 0
def cs6 : Flags := 0o20
def cs7 : Flags := 0o40
def cs8 : Flags := 0o60
def cstopb : Flags := 0o100
def cread : Flags := 0o200
def parenb : Flags := 0o400
def parodd : Flags := 0o1000
def clocal : Flags := 0o4000
def cmspar : Flags := 0o10000000000
def crtscts : Flags := 0o20000000000
def cbaud : Flags := 0o10017
def cbaudex : Flags := 0o10000
def bother : Flags := 0o10000
def ixon : Flags := 0o2000
def ixoff : Flags := 0o10000
def b0 : Flags := 0
def b38400 : Flags := 0o17

def baudCodes : List (Flags × UInt32) :=
  [(0, 0), (1, 50), (2, 75), (3, 110), (4, 134), (5, 150), (6, 200), (7, 300), (0o10, 600),
    (0o11, 1200), (0o12, 1800), (0o13, 2400), (0o14, 4800), (0o15, 9600), (0o16, 19200),
    (0o17, 38400), (0o10001, 57600), (0o10002, 115200), (0o10003, 230400), (0o10004, 460800),
    (0o10005, 500000), (0o10006, 576000), (0o10007, 921600), (0o10010, 1000000),
    (0o10011, 1152000), (0o10012, 1500000), (0o10013, 2000000), (0o10014, 2500000),
    (0o10015, 3000000), (0o10016, 3500000), (0o10017, 4000000)]

structure Termios2 where
  cIflag : Flags
  cOflag : Flags
  cCflag : Flags
  cLflag : Flags
  cLine : UInt8
  cCc : Bytes 19
  cIspeed : UInt32
  cOspeed : UInt32
deriving DecidableEq

namespace Termios2

/-- Where `c_ispeed` starts, and the size of the whole. -/
def legacyLen : Nat := 36
def size : Nat := 44

def bytes (t : Termios2) : List UInt8 :=
  toLeBytes 4 t.cIflag.toNat ++ toLeBytes 4 t.cOflag.toNat ++ toLeBytes 4 t.cCflag.toNat ++
    toLeBytes 4 t.cLflag.toNat ++ [t.cLine] ++ t.cCc.toList ++ toLeBytes 4 t.cIspeed.toNat ++
    toLeBytes 4 t.cOspeed.toNat

def ofBytes (b : List UInt8) : Termios2 where
  cIflag := .ofNat 32 (ofLeBytes (field b ⟨0, 4⟩))
  cOflag := .ofNat 32 (ofLeBytes (field b ⟨4, 8⟩))
  cCflag := .ofNat 32 (ofLeBytes (field b ⟨8, 12⟩))
  cLflag := .ofNat 32 (ofLeBytes (field b ⟨12, 16⟩))
  cLine := b.getD 16 0
  cCc := .ofList 19 (field b ⟨17, 36⟩)
  cIspeed := .ofNat (ofLeBytes (field b ⟨36, 40⟩))
  cOspeed := .ofNat (ofLeBytes (field b ⟨40, 44⟩))

/-- Overwrite the first `length` bytes, or as many as `input` has. -/
def copyPrefix (t : Termios2) (input : List UInt8) (length : Nat) : Termios2 :=
  let count := min input.length length
  ofBytes (input.take count ++ t.bytes.drop count)

end Termios2

def baudCode (baud : UInt32) : Flags :=
  (baudCodes.findSome? fun (flag, value) => if value = baud then some flag else none).getD bother

inductive Errno where
  | eintr
  | eio
  | eagain
  | ebusy
  | einval
  | enotty
  | enosys
deriving DecidableEq, Repr

def baudFromTermios (t : Termios2) (allowBother : Bool) : Except Errno UInt32 :=
  let code := t.cCflag &&& (cbaud ||| cbaudex)
  if allowBother ∧ code = bother then
    if t.cIspeed ≠ t.cOspeed ∧ t.cIspeed ≠ 0 ∧ t.cOspeed ≠ 0 then .error .einval
    else .ok (if t.cOspeed ≠ 0 then t.cOspeed else t.cIspeed)
  else match baudCodes.findSome? fun (flag, baud) => if flag = code then some baud else none with
    | some baud => .ok baud
    | none => .error .einval

def dataBitsFromCflag (cflag : Flags) : UInt8 :=
  let value := cflag &&& csize
  if value = cs5 then 5 else if value = cs6 then 6 else if value = cs7 then 7 else 8

def parityFromCflag (cflag : Flags) : UInt8 :=
  if cflag &&& parenb = 0 then parity.none
  else if cflag &&& cmspar ≠ 0 then
    if cflag &&& parodd ≠ 0 then parity.mark else parity.space
  else if cflag &&& parodd ≠ 0 then parity.odd else parity.even

def stopFromCflag (cflag : Flags) : UInt8 :=
  if cflag &&& cstopb = 0 then stopSize.one
  else if dataBitsFromCflag cflag = 5 then stopSize.oneAndAHalf else stopSize.two

def flowOutFromFlags (iflag cflag : Flags) : UInt8 :=
  if cflag &&& crtscts ≠ 0 then control.hardwareOutbound
  else if iflag &&& ixon ≠ 0 then control.xonXoffOutbound else control.noOutboundFlow

def flowInFromFlags (iflag cflag : Flags) : UInt8 :=
  if cflag &&& crtscts ≠ 0 then control.hardwareInbound
  else if iflag &&& ixoff ≠ 0 then control.xonXoffInbound else control.noInboundFlow

/-! ### Shared state -/

inductive DeviceEvent where
  | data (bytes : List UInt8)
  | baud (value : UInt32)
  | dataSize (value : UInt8)
  | parity (value : UInt8)
  | stopSize (value : UInt8)
  | flowOut (value : UInt8)
  | flowIn (value : UInt8)
  | dtr (on : Bool)
  | rts (on : Bool)
  | brk (on : Bool)
  | purge (value : UInt8)
  | flowSuspend
  | flowResume
deriving DecidableEq, Repr

def rxLimit : Nat := 16 * 1024 * 1024
def txLimit : Nat := 4 * 1024 * 1024
def ioChunk : Nat := 16 * 1024

/-- A reply object.  The number says which request it answers: the first request is 0. -/
abbrev Reply := Nat

structure PendingRead where
  id : UInt64
  size : Nat
  reply : Reply
deriving DecidableEq, Repr

structure PendingWrite where
  id : UInt64
  data : List UInt8
  reply : Reply
deriving DecidableEq, Repr

inductive PendingIoctlAction where
  | setTermios (input : List UInt8) (termios2 flush : Bool)
  | tcsbrk (sendBreak : Bool)
deriving DecidableEq, Repr

structure PendingIoctl where
  id : UInt64
  action : PendingIoctlAction
  reply : Reply
deriving DecidableEq, Repr

structure State where
  stopping : Bool
  rx : List UInt8
  events : List DeviceEvent
  txBytes : Nat
  serial : SerialState
  termios : Termios2
  hungUp : Bool
  modemState : UInt8
  lineState : UInt8
  openCount : Nat
  exclusive : Bool
  reads : List PendingRead
  writes : List PendingWrite
  ioctls : List PendingIoctl
  polls : List Nat

/-- The readiness bits of `poll`. -/
def pollIn : Flags := 0x1
def pollOut : Flags := 0x4
def pollErr : Flags := 0x8
def pollHup : Flags := 0x10
def pollRdNorm : Flags := 0x40
def pollWrNorm : Flags := 0x100

inductive Answer where
  | opened
  | data (bytes : List UInt8)
  | written (count : Nat)
  | ok (bytes : List UInt8)
  | error (errno : Errno)
  | retry (input output : Nat)
  | ready (events : Flags)
deriving DecidableEq, Repr

/-- What the critical sections let out, in order.  `pushed`, `flushedRx` and `flushedTx` note the
bytes that enter the receive queue and those that a flush drops. -/
inductive Entry where
  | answer (reply : Reply) (answer : Answer)
  | notify (notifier : Nat)
  | handed (event : DeviceEvent)
  | pushed (bytes : List UInt8)
  | flushedRx (bytes : List UInt8)
  | flushedTx (bytes : List UInt8)
deriving DecidableEq, Repr

/-- Who asks: the id of the request and whether its file is non-blocking. -/
structure Request where
  id : UInt64
  nonblocking : Bool
deriving DecidableEq, Repr

inductive IoctlCmd where
  | TCGETS | TCSETS | TCSETSW | TCSETSF
  | TCGETS2 | TCSETS2 | TCSETSW2 | TCSETSF2
  | TIOCMGET | TIOCMSET | TIOCMBIS | TIOCMBIC
  | FIONREAD | TIOCOUTQ | TCFLSH
  | TIOCEXCL | TIOCNXCL | TIOCSBRK | TIOCCBRK
  | TCSBRK | TCXONC | other
deriving DecidableEq, Repr

structure Ioctl where
  cmd : IoctlCmd
  compat : Bool
  arg : UInt64
  input : List UInt8
  outSize : Nat
deriving DecidableEq, Repr

def DeviceEvent.isData : DeviceEvent → Bool
  | .data _ => true
  | _ => false

/-- The bytes of the queued `Data` events. -/
def queued (events : List DeviceEvent) : List UInt8 :=
  events.flatMap fun
    | .data bytes => bytes
    | _ => []

namespace State

def push (s : State) (event : DeviceEvent) : State := { s with events := s.events ++ [event] }

def syncTermiosFromSerial (s : State) : State :=
  let cflag := s.termios.cCflag &&& ~~~(csize ||| parenb ||| parodd ||| cmspar ||| cstopb |||
    crtscts ||| cbaud ||| cbaudex)
  let iflag := s.termios.cIflag &&& ~~~(ixon ||| ixoff)
  let cflag := cflag ||| (if s.serial.dataBits = 5 then cs5 else if s.serial.dataBits = 6 then cs6
    else if s.serial.dataBits = 7 then cs7 else cs8)
  let cflag :=
    if s.serial.parity = parity.odd then cflag ||| (parenb ||| parodd)
    else if s.serial.parity = parity.even then cflag ||| parenb
    else if s.serial.parity = parity.mark then cflag ||| (parenb ||| parodd ||| cmspar)
    else if s.serial.parity = parity.space then cflag ||| (parenb ||| cmspar)
    else cflag
  let cflag := if s.serial.stopBits ≠ stopSize.one then cflag ||| cstopb else cflag
  let hardware := s.serial.flowOut = control.hardwareOutbound ∨
    s.serial.flowIn = control.hardwareInbound
  let cflag := if hardware then cflag ||| crtscts else cflag
  let iflag :=
    if ¬ hardware ∧ s.serial.flowOut = control.xonXoffOutbound then iflag ||| ixon else iflag
  let iflag :=
    if ¬ hardware ∧ s.serial.flowIn = control.xonXoffInbound then iflag ||| ixoff else iflag
  let baud := if s.hungUp then 0 else s.serial.baud
  { s with termios := { s.termios with
    cCflag := cflag ||| baudCode baud
    cIflag := iflag
    cIspeed := baud
    cOspeed := baud } }

def new (serial : SerialState) : State :=
  syncTermiosFromSerial
    { stopping := false
      rx := []
      events := []
      txBytes := 0
      serial
      termios :=
        { cIflag := 0
          cOflag := 0
          cCflag := cread ||| clocal
          cLflag := 0
          cLine := 0
          -- `c_cc[VMIN]` is 1
          cCc := (Bytes.zero 19).set 6 1
          cIspeed := 0
          cOspeed := 0 }
      hungUp := false
      modemState := 0
      lineState := 0
      openCount := 0
      exclusive := false
      reads := []
      writes := []
      ioctls := []
      polls := [] }

/-- A setting that changes is queued for the remote end. -/
def setIf (s : State) (changed : Bool) (set : SerialState → SerialState) (event : DeviceEvent) :
    State :=
  if changed then { s with serial := set s.serial }.push event else s

def applyLocalTermios (s : State) (next : Termios2) (baud : UInt32) : State :=
  let s := { s with termios := next }
  let s :=
    if baud = 0 then
      { s.setIf s.serial.dtr (fun v => { v with dtr := false }) (.dtr false) with hungUp := true }
    else
      let s :=
        if s.hungUp then
          { s with hungUp := false }.setIf (!s.serial.dtr) (fun v => { v with dtr := true })
            (.dtr true)
        else s
      s.setIf (s.serial.baud ≠ baud) (fun v => { v with baud }) (.baud baud)
  let cflag := s.termios.cCflag
  let iflag := s.termios.cIflag
  let dataBits := dataBitsFromCflag cflag
  let parity := parityFromCflag cflag
  let stopBits := stopFromCflag cflag
  let flowOut := flowOutFromFlags iflag cflag
  let flowIn := flowInFromFlags iflag cflag
  let s := s.setIf (s.serial.dataBits ≠ dataBits) (fun v => { v with dataBits })
    (.dataSize dataBits)
  let s := s.setIf (s.serial.parity ≠ parity) (fun v => { v with parity }) (.parity parity)
  let s := s.setIf (s.serial.stopBits ≠ stopBits) (fun v => { v with stopBits })
    (.stopSize stopBits)
  let s := s.setIf (s.serial.flowOut ≠ flowOut) (fun v => { v with flowOut }) (.flowOut flowOut)
  let s := s.setIf (s.serial.flowIn ≠ flowIn) (fun v => { v with flowIn }) (.flowIn flowIn)
  s.syncTermiosFromSerial

/-- `state.rx.clear()`. -/
def clearRx (s : State) : State × List Entry := ({ s with rx := [] }, [.flushedRx s.rx])

def clearTxData (s : State) : State × List Entry :=
  ({ s with
    events := s.events.filter fun event => !event.isData
    txBytes := 0 }, [.flushedTx (queued s.events)])

def applyTermios (s : State) (input : List UInt8) (termios2 flush : Bool) :
    Except Errno Unit × State × List Entry :=
  let (s, es) := if flush then s.clearRx else (s, [])
  let next := s.termios.copyPrefix input (if termios2 then Termios2.size else Termios2.legacyLen)
  match baudFromTermios next termios2 with
  | .error errno => (.error errno, s, es)
  | .ok baud => (.ok (), s.applyLocalTermios next baud, es)

def settled : Except Errno Unit → Answer
  | .ok () => .ok []
  | .error errno => .error errno

/-- The turns of `complete_pending_ioctls` over the requests it pops. -/
def completeAll : List PendingIoctl → State → State × List Entry
  | [], s => (s, [])
  | p :: rest, s =>
    let (result, s, es) := match p.action with
      | .setTermios input termios2 flush => s.applyTermios input termios2 flush
      | .tcsbrk sendBreak =>
        (.ok (), if sendBreak then (s.push (.brk true)).push (.brk false) else s, [])
    let (s, later) := completeAll rest s
    (s, es ++ .answer p.reply (settled result) :: later)

def completePendingIoctls (s : State) : State × List Entry :=
  if s.txBytes ≠ 0 then (s, []) else completeAll s.ioctls { s with ioctls := [] }

/-- The turns of `fill_pending_writes` over the writes that wait. -/
def fillAll : List PendingWrite → State → State × List Entry
  | [], s => ({ s with writes := [] }, [])
  | p :: rest, s =>
    if s.txBytes < txLimit then
      let available := txLimit - s.txBytes
      let count := min (min p.data.length available) ioChunk
      let s := { s.push (.data (p.data.take count)) with txBytes := s.txBytes + count }
      let (s, later) := fillAll rest s
      (s, .answer p.reply (.written count) :: later)
    else ({ s with writes := p :: rest }, [])

def fillPendingWrites (s : State) : State × List Entry := fillAll s.writes s

def notifyPolls (s : State) : State × List Entry :=
  ({ s with polls := [] }, s.polls.map .notify)

def stop (s : State) : State × List Entry :=
  if s.stopping then (s, [])
  else
    ({ s with stopping := true, reads := [], writes := [], ioctls := [], polls := [] },
      s.reads.map (fun p => .answer p.reply (.error .eio)) ++
        s.writes.map (fun p => .answer p.reply (.error .eio)) ++
        s.ioctls.map (fun p => .answer p.reply (.error .eio)) ++ s.polls.map .notify)

/-- The loop of `push_rx` over the reads that wait. -/
def fillReads : List PendingRead → State → State × List Entry
  | [], s => ({ s with reads := [] }, [])
  | p :: rest, s =>
    if s.rx = [] then ({ s with reads := p :: rest }, [])
    else
      let count := min p.size s.rx.length
      let (s', later) := fillReads rest { s with rx := s.rx.drop count }
      (s', .answer p.reply (.data (s.rx.take count)) :: later)

def pushRx (s : State) (data : List UInt8) : Except String Unit × State × List Entry :=
  if data = [] then (.ok (), s, [])
  else if s.stopping then (.error "virtual serial device has stopped", s, [])
  else if s.rx.length + data.length > rxLimit then
    (.error "virtual serial receive buffer is full", s, [])
  else
    let (s, es) := fillReads s.reads { s with rx := s.rx ++ data }
    let (s, polls) := s.notifyPolls
    (.ok (), s, .pushed data :: es ++ polls)

def remoteUpdate (s : State) (event : SerialEvent) : State :=
  let s := { s with serial := s.serial.update event }
  let s := match event with
    | .modemState value => { s with modemState := value }
    | .lineState value => { s with lineState := value }
    | _ => s
  s.syncTermiosFromSerial

/-- `next_event` once it need not wait: an event is queued or the device is stopping. -/
def nextEvent (s : State) : State × List Entry :=
  match s.events with
  | [] => (s, [])
  | event :: events =>
    let s := { s with events }
    let s := match event with
      | .data data => { s with txBytes := s.txBytes - data.length }
      | _ => s
    let (s, ioctls) := s.completePendingIoctls
    let (s, writes) := s.fillPendingWrites
    let (s, polls) := s.notifyPolls
    (s, .handed event :: ioctls ++ writes ++ polls)

def read (s : State) (req : Request) (size : Nat) (reply : Reply) : State × List Entry :=
  if size = 0 then (s, [.answer reply (.data [])])
  else if s.stopping then (s, [.answer reply (.error .eio)])
  else if s.rx ≠ [] then
    let count := min size s.rx.length
    let (s', polls) := { s with rx := s.rx.drop count }.notifyPolls
    (s', .answer reply (.data (s.rx.take count)) :: polls)
  else if req.nonblocking then (s, [.answer reply (.error .eagain)])
  else ({ s with reads := s.reads ++ [⟨req.id, size, reply⟩] }, [])

def write (s : State) (req : Request) (data : List UInt8) (reply : Reply) : State × List Entry :=
  if data = [] then (s, [.answer reply (.written 0)])
  else if s.stopping then (s, [.answer reply (.error .eio)])
  else
    let available := txLimit - s.txBytes
    if available ≠ 0 then
      let count := min (min data.length available) ioChunk
      let s := { s.push (.data (data.take count)) with txBytes := s.txBytes + count }
      let (s, polls) := s.notifyPolls
      (s, .answer reply (.written count) :: polls)
    else if req.nonblocking then (s, [.answer reply (.error .eagain)])
    else ({ s with writes := s.writes ++ [⟨req.id, data, reply⟩] }, [])

def «open» (s : State) (reply : Reply) : State × List Entry :=
  if s.stopping then (s, [.answer reply (.error .eio)])
  else if s.exclusive ∧ s.openCount ≠ 0 then (s, [.answer reply (.error .ebusy)])
  else ({ s with openCount := s.openCount + 1 }, [.answer reply .opened])

def release (s : State) : State :=
  let s := { s with openCount := s.openCount - 1 }
  if s.openCount = 0 then { s with exclusive := false } else s

def readiness (s : State) : Flags :=
  (if s.stopping then pollErr ||| pollHup else 0) |||
    (if s.rx ≠ [] then pollIn ||| pollRdNorm else 0) |||
    (if s.txBytes < txLimit then pollOut ||| pollWrNorm else 0)

def poll (s : State) (requested : Flags) (notifier : Option Nat) (reply : Reply) :
    State × List Entry :=
  let events := s.readiness
  let s := match notifier with
    | some notifier =>
      if ¬ s.stopping ∧ (requested = 0 ∨ events &&& requested = 0) then
        { s with polls := s.polls ++ [notifier] }
      else s
    | none => s
  (s, [.answer reply (.ready events)])

/-- Answer the parked request with the given id. -/
def interrupt (s : State) (id : UInt64) : State × List Entry :=
  match s.reads.find? (·.id = id) with
  | some p => ({ s with reads := s.reads.eraseP (·.id = id) }, [.answer p.reply (.error .eintr)])
  | none => match s.writes.find? (·.id = id) with
    | some p =>
      ({ s with writes := s.writes.eraseP (·.id = id) }, [.answer p.reply (.error .eintr)])
    | none => match s.ioctls.find? (·.id = id) with
      | some p =>
        ({ s with ioctls := s.ioctls.eraseP (·.id = id) }, [.answer p.reply (.error .eintr)])
      | none => (s, [])

end State

/-- Bits of `TIOCMGET`. -/
def tiocmDtr : Flags := 0x002
def tiocmRts : Flags := 0x004
def tiocmCts : Flags := 0x020
def tiocmCar : Flags := 0x040
def tiocmRi : Flags := 0x080
def tiocmDsr : Flags := 0x100

namespace State

def modemBits (s : State) : Flags :=
  (if s.serial.dtr then tiocmDtr else 0) ||| (if s.serial.rts then tiocmRts else 0) |||
    (if s.modemState &&& 0x10 ≠ 0 then tiocmCts else 0) |||
    (if s.modemState &&& 0x20 ≠ 0 then tiocmDsr else 0) |||
    (if s.modemState &&& 0x40 ≠ 0 then tiocmRi else 0) |||
    (if s.modemState &&& 0x80 ≠ 0 then tiocmCar else 0)

def setModemOutputs (s : State) (bits mask : Flags) : State :=
  let dtr : Bool := decide (bits &&& tiocmDtr ≠ 0)
  let rts : Bool := decide (bits &&& tiocmRts ≠ 0)
  let s := s.setIf (mask &&& tiocmDtr ≠ 0 ∧ s.serial.dtr ≠ dtr) (fun v => { v with dtr }) (.dtr dtr)
  s.setIf (mask &&& tiocmRts ≠ 0 ∧ s.serial.rts ≠ rts) (fun v => { v with rts }) (.rts rts)

def setTermiosBaud (t : Termios2) (s : State) : Termios2 :=
  let cflag := t.cCflag &&& ~~~(cbaud ||| cbaudex)
  let code := baudCode s.serial.baud
  { t with cCflag := cflag ||| (if s.hungUp then b0 else if code = bother then b38400 else code) }

/-- A drain request waits while output is queued; otherwise it goes on to what it asks for. -/
def drain (s : State) (req : Request) (action : PendingIoctlAction) (reply : Reply)
    (go : State × List Entry) : State × List Entry :=
  if s.txBytes ≠ 0 then
    if req.nonblocking then (s, [.answer reply (.error .eagain)])
    else ({ s with ioctls := s.ioctls ++ [⟨req.id, action, reply⟩] }, [])
  else go

/-- The flush of `TCFLSH`, with what it lets through. -/
def flush (s : State) (rx tx : Bool) (value : UInt8) (reply : Reply) : State × List Entry :=
  let (s, droppedRx) := if rx then s.clearRx else (s, [])
  let (s, droppedTx) := if tx then s.clearTxData else (s, [])
  let s := s.push (.purge value)
  let (s, ioctls) := s.completePendingIoctls
  let (s, writes) := s.fillPendingWrites
  let (s, polls) := s.notifyPolls
  (s, droppedRx ++ droppedTx ++ ioctls ++ writes ++ polls ++ [.answer reply (.ok [])])

end State

/-- The `int` at the front of an ioctl's input. -/
def readInt (bytes : List UInt8) : Flags := .ofNat 32 (ofLeBytes (bytes.take 4))

/-- The bytes of an `int`. -/
def intBytes (value : Flags) : List UInt8 := toLeBytes 4 value.toNat

/-- A count as an `int`, or the largest `int`. -/
def countBytes (n : Nat) : List UInt8 := toLeBytes 4 (min n (2 ^ 31 - 1))

/-- The settings a command carries, if it is one that sets them: the size its input needs, whether
it is of the second kind, whether it flushes input and whether it waits for output to drain. -/
def IoctlCmd.sets : IoctlCmd → Option (Nat × Bool × Bool × Bool)
  | .TCSETS => some (Termios2.legacyLen, false, false, false)
  | .TCSETSW => some (Termios2.legacyLen, false, false, true)
  | .TCSETSF => some (Termios2.legacyLen, false, true, true)
  | .TCSETS2 => some (Termios2.size, true, false, false)
  | .TCSETSW2 => some (Termios2.size, true, false, true)
  | .TCSETSF2 => some (Termios2.size, true, true, true)
  | _ => none

namespace State

/-- The first critical section of a command that sets terminal settings.  `none` says that it goes
on to `set_termios`, which takes the lock again. -/
def beginSet (s : State) (req : Request) (ioctl : Ioctl) (need : Nat) (termios2 flush drain : Bool)
    (reply : Reply) : Option (State × List Entry) :=
  if ioctl.input.length < need then some (s, [.answer reply (.retry need 0)])
  else if drain ∧ s.txBytes ≠ 0 then
    some (s.drain req (.setTermios ioctl.input termios2 flush) reply (s, []))
  else none

def setTermios (s : State) (input : List UInt8) (termios2 flush : Bool) (reply : Reply) :
    State × List Entry :=
  let (result, s, es) := s.applyTermios input termios2 flush
  -- an error returns before the poll notifications
  let (s, polls) := match result with
    | .ok () => s.notifyPolls
    | .error _ => (s, [])
  (s, es ++ polls ++ [.answer reply (settled result)])

/-- The commands that do not set terminal settings. -/
def ioctl (s : State) (req : Request) (ioctl : Ioctl) (reply : Reply) : State × List Entry :=
  let done (s : State) : State × List Entry := (s, [.answer reply (.ok [])])
  let give (need : Nat) (bytes : List UInt8) : State × List Entry :=
    if ioctl.outSize < need then (s, [.answer reply (.retry 0 need)])
    else (s, [.answer reply (.ok bytes)])
  match ioctl.cmd with
  | .TCGETS => give Termios2.legacyLen ((setTermiosBaud s.termios s).bytes.take Termios2.legacyLen)
  | .TCGETS2 => give Termios2.size s.termios.bytes
  | .TIOCMGET => give 4 (intBytes s.modemBits)
  | .TIOCMSET | .TIOCMBIS | .TIOCMBIC =>
    if ioctl.input.length < 4 then (s, [.answer reply (.retry 4 0)])
    else
      let requested := readInt ioctl.input
      let current := s.modemBits
      let outputs := tiocmDtr ||| tiocmRts
      let (bits, mask) :=
        if ioctl.cmd = .TIOCMSET then (requested, outputs)
        else if ioctl.cmd = .TIOCMBIS then (requested, requested &&& outputs)
        else (current &&& ~~~requested, requested &&& outputs)
      done (s.setModemOutputs bits mask)
  | .FIONREAD => give 4 (countBytes s.rx.length)
  | .TIOCOUTQ => give 4 (countBytes s.txBytes)
  | .TCFLSH =>
    -- the argument is cast to an `int`
    match ioctl.arg.toNat % 2 ^ 32 with
    | 0 => s.flush true false purge.receive reply
    | 1 => s.flush false true purge.transmit reply
    | 2 => s.flush true true purge.both reply
    | _ => (s, [.answer reply (.error .einval)])
  | .TIOCEXCL => done { s with exclusive := true }
  | .TIOCNXCL => done { s with exclusive := false }
  | .TIOCSBRK | .TIOCCBRK =>
    let on : Bool := decide (ioctl.cmd = .TIOCSBRK)
    done (s.setIf (s.serial.breakState ≠ on) (fun v => { v with breakState := on }) (.brk on))
  | .TCSBRK =>
    let sendBreak : Bool := decide (ioctl.arg = 0)
    s.drain req (.tcsbrk sendBreak) reply
      (done (if sendBreak then (s.push (.brk true)).push (.brk false) else s))
  | .TCXONC =>
    match ioctl.arg.toNat % 2 ^ 32 with
    | 2 => done (s.push .flowSuspend)
    | 3 => done (s.push .flowResume)
    | 0 | 1 => done s
    | _ => (s, [.answer reply (.error .einval)])
  | _ => (s, [.answer reply (.error .enotty)])

end State

/-! ### Runs -/

/-- A call of the device's file operations or of the remote session.  `setTermios` is the second
critical section of a request that sets terminal settings. -/
inductive Op where
  | «open»
  | release
  | read (req : Request) (size : Nat)
  | write (req : Request) (data : List UInt8)
  | ioctl (req : Request) (ioctl : Ioctl)
  | setTermios (reply : Reply)
  | poll (requested : Flags) (notifier : Option Nat)
  | interrupt (id : UInt64)
  | pushRx (data : List UInt8)
  | nextEvent
  | remoteUpdate (event : SerialEvent)
  | stop
deriving DecidableEq, Repr

/-- The device with the requests made so far, those between their two critical sections, and what
came out. -/
structure World where
  state : State
  asked : List Op
  applying : List PendingIoctl
  log : List Entry

namespace World

def new (serial : SerialState) : World := ⟨.new serial, [], [], []⟩

/-- Leave a critical section. -/
def leave (w : World) (r : State × List Entry) : World :=
  { w with state := r.1, log := w.log ++ r.2 }

/-- Make a request, which gets the next reply object. -/
def ask (w : World) (op : Op) (serve : Reply → State × List Entry) : World :=
  { w.leave (serve w.asked.length) with asked := w.asked ++ [op] }

def ioctl (w : World) (req : Request) (ioctl : Ioctl) : World :=
  let reply := w.asked.length
  if ioctl.compat then
    w.ask (.ioctl req ioctl) fun reply => (w.state, [.answer reply (.error .enosys)])
  else match ioctl.cmd.sets with
    | none => w.ask (.ioctl req ioctl) (w.state.ioctl req ioctl)
    | some (need, termios2, flush, drain) =>
      match w.state.beginSet req ioctl need termios2 flush drain reply with
      | some r => w.ask (.ioctl req ioctl) fun _ => r
      | none => { w with
          asked := w.asked ++ [.ioctl req ioctl]
          applying := w.applying ++ [⟨req.id, .setTermios ioctl.input termios2 flush, reply⟩] }

/-- The second critical section of the request that `reply` answers. -/
def setTermios (w : World) (reply : Reply) : World :=
  match w.applying.find? (·.reply = reply) with
  | some ⟨_, .setTermios input termios2 flush, _⟩ =>
    { w with applying := w.applying.eraseP (·.reply = reply) }.leave
      (w.state.setTermios input termios2 flush reply)
  | _ => w

def step (w : World) : Op → World
  | .open => w.ask .open w.state.open
  | .release => { w with state := w.state.release }
  | .read req size => w.ask (.read req size) (w.state.read req size)
  | .write req data => w.ask (.write req data) (w.state.write req data)
  | .ioctl req i => w.ioctl req i
  | .setTermios reply => w.setTermios reply
  | .poll requested notifier => w.ask (.poll requested notifier) (w.state.poll requested notifier)
  | .interrupt id => w.leave (w.state.interrupt id)
  | .pushRx data => w.leave (w.state.pushRx data).2
  | .nextEvent => w.leave w.state.nextEvent
  | .remoteUpdate event => { w with state := w.state.remoteUpdate event }
  | .stop => w.leave w.state.stop

def run (serial : SerialState) (ops : List Op) : World := ops.foldl step (new serial)

end World

end Microtun.Serial
