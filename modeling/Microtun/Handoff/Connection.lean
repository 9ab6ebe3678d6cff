import Microtun.Cli.Editor
import Microtun.Lib.System
import Microtun.Telnet.Framing

/-! A connection that the shell hands to a binary protocol and takes back, `session.rs` and
`telnet.rs` of the shell and `binary.rs`. Both read the socket byte by byte through one Telnet
state. -/

namespace Microtun.Handoff

open Telnet Cli

def optNaws : UInt8 := 31
def optTerminalType : UInt8 := 24

structure ServerPolicy where
deriving DecidableEq, Repr

instance : Policy ServerPolicy where
  supportUs _ option := option == optBinary || option == optEcho || option == optSuppressGoAhead
  supportHim _ option :=
    option == optBinary || option == optSuppressGoAhead || option == optNaws ||
      option == optTerminalType

/-- `TelnetEvent` of the shell. -/
inductive ShellEvent where
  | data (byte : UInt8)
  | interrupt
  | brk
  | areYouThere
  | eraseCharacter
  | eraseLine
  | windowSizeChanged
  | terminalTypeChanged
deriving DecidableEq, Repr

/-- The Telnet state of a connection. -/
structure ShellTelnet where
  protocol : Telnet ServerPolicy 64 12
  ttypeSendPending : Bool
  initialNegotiationStarted : Bool
  binaryHandoffCrPending : Bool

namespace ShellTelnet

def new : ShellTelnet := ⟨.new ⟨⟩, false, false, false⟩

def expectBinaryHandoffCrContinuation (t : ShellTelnet) : ShellTelnet :=
  { t with binaryHandoffCrPending := true }

/-- A request for one half of an option, on the state alone. -/
def requestHalf (side : Side) (n : Nat) (p : Telnet ServerPolicy 64 12 × List UInt8)
    (option : UInt8) :
    Telnet ServerPolicy 64 12 × List UInt8 :=
  p.1.request side true n option p.2

def initialNegotiation (n : Nat) (t : ShellTelnet) (out : List UInt8) : ShellTelnet × List UInt8 :=
  if t.initialNegotiationStarted || n - out.length < 15 then (t, out)
  else
    let p := requestHalf .us n (t.protocol, out) optEcho
    let p := requestHalf .us n p optSuppressGoAhead
    let p := requestHalf .him n p optSuppressGoAhead
    let p := requestHalf .him n p optNaws
    let p := requestHalf .him n p optTerminalType
    ({ t with protocol := p.1, initialNegotiationStarted := true }, p.2)

def flushPending (n : Nat) (t : ShellTelnet) (out : List UInt8) : ShellTelnet × List UInt8 :=
  if !t.ttypeSendPending then (t, out)
  else match pushSubnegotiation n out optTerminalType [1] with
    | (true, out) => ({ t with ttypeSendPending := false }, out)
    | (false, out) => (t, out)

def finishSubnegotiation (t : ShellTelnet) (option : UInt8) : Option ShellEvent :=
  let body := t.protocol.subnegotiation.2
  if option = optNaws ∧ 4 ≤ body.length then some .windowSizeChanged
  else if option = optTerminalType ∧ body.head? = some 0 then some .terminalTypeChanged
  else none

/-- What an event of the protocol means to the shell, with the reply so far. -/
def onEvent (n : Nat) (t : ShellTelnet) (reply : List UInt8) :
    Option TelnetEvent → ShellTelnet × List UInt8 × Option ShellEvent
  | some (.data byte) => (t, reply, some (.data byte))
  | some .interrupt => (t, reply, some .interrupt)
  | some .brk => (t, reply, some .brk)
  | some .areYouThere => (t, reply, some .areYouThere)
  | some .eraseCharacter => (t, reply, some .eraseCharacter)
  | some .eraseLine => (t, reply, some .eraseLine)
  | some (.optionEnabled .him option) =>
    if option = optTerminalType then
      let (t, reply) := flushPending n { t with ttypeSendPending := true } reply
      (t, reply, none)
    else (t, reply, none)
  | some (.subnegotiation option) => (t, reply, t.finishSubnegotiation option)
  | some (.optionEnabled .us _) | some (.optionDisabled _ _) | some (.optionRefused _ _) | none =>
    (t, reply, none)

def feed (n : Nat) (t : ShellTelnet) (byte : UInt8) (reply : List UInt8) :
    ShellTelnet × List UInt8 × Option ShellEvent :=
  let (t, reply) := t.flushPending n reply
  let (protocol, reply, event) := t.protocol.feed n byte reply
  onEvent n { t with protocol } reply event

def binaryModeEnabled (t : ShellTelnet) : Bool := t.protocol.binaryModeEnabled

def binaryModeRefused (t : ShellTelnet) : Bool :=
  (!t.protocol.usEnabled optBinary && !t.protocol.usPending optBinary) ||
    (!t.protocol.himEnabled optBinary && !t.protocol.himPending optBinary)

def requestBinaryMode (t : ShellTelnet) : ShellTelnet :=
  { t with protocol := (t.protocol.requestBinaryMode 6 []).1 }

def disableBinaryMode (t : ShellTelnet) : ShellTelnet :=
  let (protocol, out) := t.protocol.disableUs 6 optBinary []
  { t with protocol := (protocol.disableHim 6 optBinary out).1 }

/-- What `feed_binary` makes of an event. -/
def onBinaryEvent (t : ShellTelnet) : Option ShellEvent → ShellTelnet × Option UInt8
  | some (.data byte) =>
    if t.binaryHandoffCrPending then
      ({ t with binaryHandoffCrPending := false }, if byte = 0x0a ∨
        byte = 0 then none else some byte)
    else (t, some byte)
  | _ => (t, none)

def feedBinary (t : ShellTelnet) (byte : UInt8) : ShellTelnet × Option UInt8 :=
  let (t, _, event) := t.feed 16 byte []
  t.onBinaryEvent event

end ShellTelnet

/-! ### The shell -/

/-- What became of the command of a line. -/
inductive Dispatched where
  /-- It is done, or it failed and the failure was reported. -/
  | ok
  | io
  | disconnected
deriving DecidableEq, Repr

/-- `submit`, where `builtin` says that the line is one; an error ends the session. -/
def submit (editor : Editor) (builtin : Bool) (dispatched : Dispatched) :
    Except Dispatched Editor :=
  if editor.line = [] then .ok editor
  else if builtin then .ok (editor.remember 256 8).clear
  else match dispatched with
    | .ok => .ok (editor.remember 256 8).clear
    | error => .error error

def editorEvent (editor : Editor) : ShellEvent → Except Panic (EditorEvent × Editor)
  | .data byte => editor.feed 256 byte
  | .interrupt | .brk => return (.interrupt, editor)
  | .eraseCharacter => editor.feed 256 0x7f
  | .eraseLine => return (.redraw, editor.clear)
  | .areYouThere => return (.redraw, editor)
  | .windowSizeChanged | .terminalTypeChanged => return (.none, editor)

/-- Where the connection is. -/
inductive Mode where
  | shell (editor : Editor)
  /-- `serve` has returned `Disconnected`, with a command that ended in a carriage return or not. -/
  | handedOff (cr : Bool)
  | negotiating (pending : List UInt8)
  | failed
  /-- `negotiate` has succeeded. -/
  | binary (pending : List UInt8)
  | ended
deriving DecidableEq, Repr

structure Connection where
  telnet : ShellTelnet
  mode : Mode
  /-- The bytes of the client that are still to be read. -/
  input : List UInt8
  /-- The data that the client sends. -/
  client : List UInt8
  /-- How much of it was read. -/
  taken : Nat
  /-- What the client sends after the line of the last handoff. -/
  payload : List UInt8
  /-- The bytes that `read_byte` returned since then. -/
  returned : List UInt8

namespace Connection

/-- The editor after an event, or where the connection goes on. -/
def onEditorEvent (complete : Editor → Editor) (editor : Editor) (cr builtin : Bool)
    (dispatched : Dispatched) :
    EditorEvent → Mode
  | .submit =>
    match submit editor builtin dispatched with
    | .ok editor => .shell editor
    | .error .disconnected => .handedOff cr
    | .error _ => .ended
  | .complete => .shell (complete editor)
  | .interrupt => .shell editor.clear
  | .none | .echo _ | .backspace | .redraw | .clearScreen => .shell editor

/-- How much of the client's data was read after an event. -/
def takenAfter (taken : Nat) : Option ShellEvent → Nat
  | some (.data _) => taken + 1
  | _ => taken

/-- `serve` reads a byte. -/
def serve (complete : Editor → Editor) (w : Connection) (editor : Editor) (builtin : Bool)
    (dispatched : Dispatched) :
    Option Connection :=
  match w.input with
  | [] => none
  | byte :: input =>
    match w.telnet.feed 32 byte [] with
    | (telnet, _, none) => some { w with telnet, input }
    | (telnet, _, some event) =>
      match editorEvent editor event with
      | .error _ => none
      | .ok (editorEvent, editor) =>
        let mode := onEditorEvent complete editor (event = .data 0x0d) builtin dispatched
          editorEvent
        let telnet := if mode = .handedOff true then telnet.expectBinaryHandoffCrContinuation
          else telnet
        some { w with telnet, input, mode, taken := takenAfter w.taken (some event) }

/-- `feed_wire_byte`, with the data byte if there was one. -/
def step? (w : Connection) : Option (Connection × Option UInt8) :=
  match w.input with
  | [] => none
  | byte :: input =>
    let (telnet, data) := w.telnet.feedBinary byte
    some ({ w with telnet, input, taken := takenAfter w.taken (w.telnet.feed 16 byte []).2.2 },
      data)

/-- `with_telnet`, and `negotiate` up to its loop. -/
def begin (w : Connection) (cr : Bool) : Connection :=
  { w with
    telnet := w.telnet.requestBinaryMode
    mode := .negotiating []
    payload := w.client.drop (if cr then w.taken + 1 else w.taken)
    returned := [] }

/-- A pass of the loop of `negotiate`. -/
def negotiate (w : Connection) (pending : List UInt8) : Option Connection :=
  if w.telnet.binaryModeEnabled then some { w with mode := .binary pending }
  else if w.telnet.binaryModeRefused then some { w with mode := .failed }
  else match w.step? with
    | none => none
    | some (w, none) => some w
    | some (w, some data) =>
      some { w with mode := if pending.length < 64 then .negotiating (pending ++ [data])
        else .failed }

/-- `read_byte`, or a pass of its loop. -/
def readByte (w : Connection) : List UInt8 → Option Connection
  | byte :: pending => some { w with mode := .binary pending, returned := w.returned ++ [byte] }
  | [] =>
    match w.step? with
    | none => none
    | some (w, none) => some w
    | some (w, some data) => some { w with returned := w.returned ++ [data] }

/-- `finish` or `abort`, and a new session of the shell. -/
def leave (negotiateTelnet : Bool) (w : Connection) : Connection :=
  let telnet := w.telnet.disableBinaryMode
  { w with
    telnet := if negotiateTelnet then (telnet.initialNegotiation 32 []).1 else telnet
    mode := .shell .new }

inductive Event where
  /-- The shell reads a byte; if that submits a line, it is a built-in command or one that ended as
  said. -/
  | serve (builtin : Bool) (dispatched : Dispatched)
  | begin
  | negotiate
  | readByte
  | leave
deriving DecidableEq, Repr

def step (complete : Editor → Editor) (negotiateTelnet : Bool) (w : Connection) : Event →
    Option Connection
  | .serve builtin dispatched =>
    match w.mode with
    | .shell editor => w.serve complete editor builtin dispatched
    | _ => none
  | .begin =>
    match w.mode with
    | .handedOff cr => some (w.begin cr)
    | _ => none
  | .negotiate =>
    match w.mode with
    | .negotiating pending => w.negotiate pending
    | _ => none
  | .readByte =>
    match w.mode with
    | .binary pending => w.readByte pending
    | _ => none
  | .leave =>
    match w.mode with
    | .negotiating _ | .failed | .binary _ => some (w.leave negotiateTelnet)
    | _ => none

end Connection

/-! ### The client -/

/-- What a client sends: a byte of data, a command of two bytes, a command about an option, or a
subnegotiation. -/
inductive Sent where
  | data (byte : UInt8)
  | command (code : UInt8)
  | negotiation (verb option : UInt8)
  | subnegotiation (option : UInt8) (payload : List UInt8)
deriving DecidableEq, Repr

namespace Sent

def Valid : Sent → Prop
  | command code => code ≠ iac ∧ code ≠ sb ∧ code ∉ verbs
  | negotiation verb _ => verb ∈ verbs
  | _ => True

instance (s : Sent) : Decidable s.Valid :=
  match s with
  | .command _ => inferInstanceAs (Decidable (_ ∧ _ ∧ _))
  | .negotiation verb _ => inferInstanceAs (Decidable (verb ∈ verbs))
  | .data _ | .subnegotiation _ _ => .isTrue trivial

def wire : Sent → List UInt8
  | data byte => escape [byte]
  | command code => [iac, code]
  | negotiation verb option => [iac, verb, option]
  | subnegotiation option payload => frame option payload

def data? : Sent → Option UInt8
  | data byte => some byte
  | _ => none

end Sent

/-- A connection to a client, with what the client is going to send. `complete` is the completion of
the shell's commands. -/
def system (complete : Editor → Editor) (negotiateTelnet : Bool) :
    System Connection Connection.Event where
  init w := ∃ sent : List Sent, (∀ s ∈ sent, s.Valid) ∧ w =
    { telnet := if negotiateTelnet then (ShellTelnet.new.initialNegotiation 32 []).1 else .new
      mode := .shell .new
      input := sent.flatMap Sent.wire
      client := sent.filterMap Sent.data?
      taken := 0
      payload := []
      returned := [] }
  step := Connection.step complete negotiateTelnet

end Microtun.Handoff
