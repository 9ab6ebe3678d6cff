import Microtun.Lib.System
import Microtun.Serial.Device
import Microtun.Telnet.Client
import Microtun.Telnet.Writers

/-! The session of a serial device, `device.rs`: the future that reads the server, and the select
loop that may drop it wherever it waits. -/

namespace Microtun.Serial.Session

open Telnet

abbrev SerialProtocol := ClientSession 256 12 256

inductive SessionEvent where
  | data (bytes : List UInt8)
  | optionEnabled (side : Side) (option : UInt8)
  | optionDisabled (side : Side) (option : UInt8)
  | serial (event : Telnet.SerialEvent)
deriving DecidableEq, Repr

structure SerialSession where
  protocol : SerialProtocol
  pending : List SessionEvent

def flushDataEvent (pending : List SessionEvent) (data : List UInt8) : List SessionEvent :=
  if data = [] then pending else pending ++ [.data data]

/-- The queue of events and the data not yet queued, after an event of the protocol. -/
def takeEvent (pending : List SessionEvent) (data : List UInt8) :
    Option ClientEvent → List SessionEvent × List UInt8
  | some (.data byte) => (pending, data ++ [byte])
  | some .serialModeActive => (flushDataEvent pending data ++ [.optionEnabled .us optComPort], [])
  | some .serialModeRefused => (flushDataEvent pending data ++ [.optionDisabled .us optComPort], [])
  | some (.serial event) => (flushDataEvent pending data ++ [.serial event], [])
  | some (.malformedSerial _) => (pending, data)
  | some (.telnet (.optionEnabled side option)) =>
    (flushDataEvent pending data ++ [.optionEnabled side option], [])
  | some (.telnet (.optionDisabled side option)) | some (.telnet (.optionRefused side option)) =>
    (flushDataEvent pending data ++ [.optionDisabled side option], [])
  | some (.telnet _) | none => (pending, data)

/-- The loop of `process_wire_bytes`; the replies to each byte that had one. -/
def feedAll : List UInt8 → SerialSession → List UInt8 → List (List UInt8) →
    SerialSession × List (List UInt8)
  | [], s, data, replies => (⟨s.protocol, flushDataEvent s.pending data⟩, replies)
  | byte :: bytes, s, data, replies =>
    let (protocol, reply, event) := s.protocol.feed 32 byte []
    let (pending, data) := takeEvent s.pending data event
    feedAll bytes ⟨protocol, pending⟩ data (if reply = [] then replies else replies ++ [reply])

/-- The part of `process_wire_bytes` before it writes the replies. -/
def processWireBytes (s : SerialSession) (bytes : List UInt8) : SerialSession × List (List UInt8) :=
  feedAll bytes s [] []

/-! ### Messages of the device -/

def sendData (bytes : List UInt8) : List UInt8 :=
  match writeDataUnflushed (Writer.collecting Empty) [] bytes with
  | .ok wire => wire

/-- The message on the wire; without one the session fails. -/
def queueSerial (protocol : SerialProtocol) (message : Telnet.Serial.Message) :
    Option (List UInt8) :=
  if !protocol.serialActive then none
  else if message.origin ≠ .client then none
  else match Telnet.Serial.encode 512 message [] with
    | (true, wire) => some wire
    | (false, _) => none

open Telnet.Serial in
def sendDeviceEvent (protocol : SerialProtocol) : DeviceEvent → Option (List UInt8)
  | .data bytes => some (sendData bytes)
  | .baud value => queueSerial protocol (.setBaudRate .client value)
  | .dataSize value => queueSerial protocol (.setDataSize .client value)
  | .parity value => queueSerial protocol (.setParity .client value)
  | .stopSize value => queueSerial protocol (.setStopSize .client value)
  | .flowOut value | .flowIn value => queueSerial protocol (.setControl .client value)
  | .dtr on => queueSerial protocol
    (.setControl .client (if on then Control.dtrOn else Control.dtrOff))
  | .rts on => queueSerial protocol
    (.setControl .client (if on then Control.rtsOn else Control.rtsOff))
  | .brk on => queueSerial protocol
    (.setControl .client (if on then Control.breakOn else Control.breakOff))
  | .purge value => queueSerial protocol (.purgeData .client value)
  | .flowSuspend => queueSerial protocol (.flowControlSuspend .client)
  | .flowResume => queueSerial protocol (.flowControlResume .client)

/-! ### The select loop -/

/-- Where the loop is. -/
inductive Task where
  /-- `next_event` has not been polled. -/
  | idle
  /-- `next_event` waits for bytes. -/
  | reading
  /-- `next_event` waits for the socket to take the rest of its replies. -/
  | replying (rest : List UInt8)
  /-- The loop waits for the socket to take the rest of a message of the device. -/
  | sending (rest : List UInt8)
  /-- The device is given the data of an event. -/
  | pushing
  | returned
deriving DecidableEq, Repr

/-- What the socket has still to take. -/
def Task.rest : Task → List UInt8
  | replying rest | sending rest => rest
  | _ => []

structure Loop where
  session : SerialSession
  task : Task
  remoteTxSuspended : Bool
  /-- The events that `next_event` returned. -/
  delivered : List SessionEvent
  /-- The bytes that the socket took. -/
  sent : List UInt8
  /-- What was read from the socket, read by read. -/
  reads : List (List UInt8)
  /-- The messages of the device that the loop began to send. -/
  messages : List (List UInt8)

namespace Loop

/-- The loop handles an event. -/
def handle (w : Loop) (event : SessionEvent) : Loop :=
  let w := { w with delivered := w.delivered ++ [event] }
  match event with
  | .data _ => { w with task := .pushing }
  | .serial .flowControlSuspend => { w with task := .idle, remoteTxSuspended := true }
  | .serial .flowControlResume => { w with task := .idle, remoteTxSuspended := false }
  | .optionDisabled .us option =>
    { w with task := if option = optComPort then .returned else .idle }
  | _ => { w with task := .idle }

/-- `next_event` looks at its queue, at its start and after each read. -/
def next (w : Loop) : Loop :=
  match w.session.pending with
  | event :: pending => { w with session.pending := pending }.handle event
  | [] => { w with task := .reading }

def read (w : Loop) (bytes : List UInt8) : Loop :=
  let (session, replies) := processWireBytes w.session bytes
  let w := { w with session, reads := w.reads ++ [bytes] }
  if replies.flatten = [] then w.next else { w with task := .replying replies.flatten }

/-- The socket takes the first `n` of the bytes it is given. -/
def accept (w : Loop) (n : Nat) : Option Loop :=
  if n = 0 ∨ w.task.rest.length < n then none
  else
    let w' := { w with sent := w.sent ++ w.task.rest.take n }
    match w.task with
    | .replying rest =>
      some (if rest.drop n = [] then w'.next else { w' with task := .replying (rest.drop n) })
    | .sending rest =>
      some { w' with task := if rest.drop n = [] then .idle else .sending (rest.drop n) }
    | _ => none

/-- The branch of the device wins.  The future of `next_event` is dropped where it is. -/
def device (w : Loop) (event : DeviceEvent) : Option Loop :=
  if w.remoteTxSuspended then none
  else match w.task with
    | .idle | .reading | .replying _ =>
      match sendDeviceEvent w.session.protocol event with
      | none => some { w with task := .returned }
      | some wire => some { w with
          task := if wire = [] then .idle else .sending wire
          messages := w.messages ++ [wire] }
    | _ => none

inductive Event where
  /-- `next_event` is polled for the first time. -/
  | poll
  | read (bytes : List UInt8)
  | accept (n : Nat)
  | device (event : DeviceEvent)
  | closed
  /-- `push_rx` returns; the loop ends if it failed. -/
  | push (ok : Bool)
deriving DecidableEq, Repr

def step (w : Loop) : Event → Option Loop
  | .poll => if w.task = .idle then some w.next else none
  | .read bytes =>
    if w.task = .reading ∧ bytes ≠ [] ∧ bytes.length ≤ 4096 then some (w.read bytes) else none
  | .accept n => w.accept n
  | .device event => w.device event
  | .closed => if w.task = .reading then some { w with task := .returned } else none
  | .push ok =>
    if w.task = .pushing then some { w with task := if ok then .idle else .returned } else none

/-- The loop starts with a session. -/
def system (start : SerialSession) : System Loop Event where
  init w := w = ⟨start, .idle, false, [], [], [], []⟩
  step := step

/-- `next_event` is not dropped. -/
def Undisturbed (_ : Loop) : Event → Prop
  | .device _ => False
  | _ => True

/-- `next_event` is not dropped while a reply is on its way to the socket. -/
def Whole (w : Loop) : Event → Prop
  | .device _ => ∀ rest, w.task ≠ .replying rest
  | _ => True

end Loop

end Microtun.Serial.Session
