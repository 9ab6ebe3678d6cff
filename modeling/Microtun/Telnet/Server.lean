import Microtun.Telnet.Halves
import Microtun.Telnet.Serial

/-! The session of an RFC 2217 access server, `server.rs`. -/

namespace Microtun.Telnet

/-- The most bytes that `start` appends. -/
def serialServerNegotiationMax : Nat := 15

structure ServerPolicy where
deriving DecidableEq, Repr

instance : Policy ServerPolicy where
  supportUs _ option := option == optBinary || option == optSuppressGoAhead
  supportHim _ option :=
    option == optBinary || option == optSuppressGoAhead || option == optComPort

inductive SerialStatus
  | negotiating
  | active
  | refused
deriving DecidableEq, Repr

inductive QueryOrSet (T : Type)
  | query
  | set (value : T)
deriving DecidableEq, Repr

inductive DataBits
  | five
  | six
  | seven
  | eight
deriving DecidableEq, Repr

inductive Parity
  | none
  | odd
  | even
  | mark
  | space
deriving DecidableEq, Repr

inductive StopBits
  | one
  | two
  | oneAndAHalf
deriving DecidableEq, Repr

inductive OutboundFlow
  | none
  | xonXoff
  | rtsCts
  | dcd
  | dsr
deriving DecidableEq, Repr

inductive InboundFlow
  | none
  | xonXoff
  | rtsCts
  | dtr
deriving DecidableEq, Repr

inductive Purge
  | receive
  | transmit
  | both
deriving DecidableEq, Repr

/-- A request of a client. -/
inductive SerialRequest
  | signature (text : List UInt8)
  | baud (value : QueryOrSet UInt32)
  | dataBits (value : QueryOrSet DataBits)
  | parity (value : QueryOrSet Parity)
  | stopBits (value : QueryOrSet StopBits)
  | outboundFlow (value : QueryOrSet OutboundFlow)
  | inboundFlow (value : QueryOrSet InboundFlow)
  | rts (value : QueryOrSet Bool)
  | dtr (value : QueryOrSet Bool)
  | brk (value : QueryOrSet Bool)
  | lineStateMask (mask : UInt8)
  | modemStateMask (mask : UInt8)
  | purge (target : Purge)
  | suspend
  | resume
deriving DecidableEq, Repr

inductive SerialRequestError
  | invalidOrigin (origin : Serial.Origin)
  | invalidCommand (command : Serial.Command)
  | invalidValue (command : Serial.Command) (value : UInt8)
deriving DecidableEq, Repr

namespace SerialRequest

open Telnet.Serial

/-- The request that a value of a command stands for. -/
def fromTable (command : Serial.Command) (value : UInt8) (table : List (UInt8 × SerialRequest)) :
    Except SerialRequestError SerialRequest :=
  match table.lookup value with
  | some request => .ok request
  | none => .error (.invalidValue command value)

def dataSizeTable : List (UInt8 × SerialRequest) :=
  [(DataSize.request, dataBits .query), (DataSize.five, dataBits (.set .five)),
    (DataSize.six, dataBits (.set .six)), (DataSize.seven, dataBits (.set .seven)),
    (DataSize.eight, dataBits (.set .eight))]

def parityTable : List (UInt8 × SerialRequest) :=
  [(Serial.Parity.request, parity .query), (Serial.Parity.none, parity (.set .none)),
    (Serial.Parity.odd, parity (.set .odd)), (Serial.Parity.even, parity (.set .even)),
    (Serial.Parity.mark, parity (.set .mark)), (Serial.Parity.space, parity (.set .space))]

def stopSizeTable : List (UInt8 × SerialRequest) :=
  [(StopSize.request, stopBits .query), (StopSize.one, stopBits (.set .one)),
    (StopSize.two, stopBits (.set .two)), (StopSize.oneAndAHalf, stopBits (.set .oneAndAHalf))]

def controlTable : List (UInt8 × SerialRequest) :=
  [(Control.requestOutboundFlow, outboundFlow .query),
    (Control.noOutboundFlow, outboundFlow (.set .none)),
    (Control.xonXoffOutbound, outboundFlow (.set .xonXoff)),
    (Control.hardwareOutbound, outboundFlow (.set .rtsCts)),
    (Control.dcdOutbound, outboundFlow (.set .dcd)),
    (Control.dsrOutbound, outboundFlow (.set .dsr)),
    (Control.requestInboundFlow, inboundFlow .query),
    (Control.noInboundFlow, inboundFlow (.set .none)),
    (Control.xonXoffInbound, inboundFlow (.set .xonXoff)),
    (Control.hardwareInbound, inboundFlow (.set .rtsCts)),
    (Control.dtrInbound, inboundFlow (.set .dtr)),
    (Control.requestBreak, brk .query), (Control.breakOn, brk (.set true)),
    (Control.breakOff, brk (.set false)),
    (Control.requestDtr, dtr .query), (Control.dtrOn, dtr (.set true)),
    (Control.dtrOff, dtr (.set false)),
    (Control.requestRts, rts .query), (Control.rtsOn, rts (.set true)),
    (Control.rtsOff, rts (.set false))]

def purgeTable : List (UInt8 × SerialRequest) :=
  [(Serial.Purge.receive, purge .receive), (Serial.Purge.transmit, purge .transmit),
    (Serial.Purge.both, purge .both)]

def fromMessage (message : Serial.Message) : Except SerialRequestError SerialRequest :=
  if message.origin ≠ .client then .error (.invalidOrigin message.origin)
  else match message with
    | .signature _ text => .ok (signature text)
    | .setBaudRate _ value => .ok (baud (if value = 0 then .query else .set value))
    | .setDataSize _ value => fromTable .setDataSize value dataSizeTable
    | .setParity _ value => fromTable .setParity value parityTable
    | .setStopSize _ value => fromTable .setStopSize value stopSizeTable
    | .setControl _ value => fromTable .setControl value controlTable
    | .flowControlSuspend _ => .ok suspend
    | .flowControlResume _ => .ok resume
    | .setLineStateMask _ value => .ok (lineStateMask value)
    | .setModemStateMask _ value => .ok (modemStateMask value)
    | .purgeData _ value => fromTable .purgeData value purgeTable
    | .notifyLineState _ _ | .notifyModemState _ _ => .error (.invalidCommand message.command)

end SerialRequest

structure ServerSerialState where
  status : SerialStatus
  lineStateMask : UInt8
  modemStateMask : UInt8
  txSuspended : Bool
deriving DecidableEq, Repr

namespace ServerSerialState

def new : ServerSerialState := ⟨.negotiating, 0, 255, false⟩

def applyRequest (s : ServerSerialState) : SerialRequest → ServerSerialState
  | .lineStateMask mask => { s with lineStateMask := mask }
  | .modemStateMask mask => { s with modemStateMask := mask }
  | .suspend => { s with txSuspended := true }
  | .resume => { s with txSuspended := false }
  | _ => s

@[simp] theorem applyRequest_status (s : ServerSerialState) (request : SerialRequest) :
    (s.applyRequest request).status = s.status := by
  cases request <;> rfl

end ServerSerialState

inductive ServerEvent
  | data (byte : UInt8)
  | serialModeActive
  | serialModeRefused
  | telnet (event : TelnetEvent)
  | serial (request : SerialRequest)
  | malformedSerial (error : Serial.DecodeError)
  | invalidSerialRequest (error : SerialRequestError)
deriving DecidableEq, Repr

inductive ServerEncodeError
  | bufferFull
deriving DecidableEq, Repr

/-- A session, with room for `sbCap` bytes of a subnegotiation and `optionCap` options. -/
structure ServerSession (sbCap optionCap : Nat) where
  protocol : Telnet ServerPolicy sbCap optionCap
  serial : ServerSerialState
  started : Bool

def requiredOptionRefused : TelnetEvent → Bool
  | .optionRefused .him option | .optionDisabled .him option =>
    option == optComPort || option == optBinary
  | .optionRefused .us option | .optionDisabled .us option => option == optBinary
  | _ => false

namespace ServerSession

variable {sbCap optionCap : Nat}

def new : ServerSession sbCap optionCap := ⟨.new ⟨⟩, .new, false⟩

def serialActive (s : ServerSession sbCap optionCap) : Bool :=
  s.protocol.binaryModeEnabled && s.protocol.himEnabled optComPort

/-- The requests that `start` makes. -/
def startProtocol (n : Nat) (t : Telnet ServerPolicy sbCap optionCap) (out : List UInt8) :
    Telnet ServerPolicy sbCap optionCap × List UInt8 :=
  let (t, out) := t.requestBinaryMode n out
  let (t, out) := t.requestUs n optSuppressGoAhead out
  let (t, out) := t.requestHim n optSuppressGoAhead out
  t.requestHim n optComPort out

/-- Start the negotiation, with an output buffer of capacity `n`. -/
def start (n : Nat) (s : ServerSession sbCap optionCap) (out : List UInt8) :
    ServerSession sbCap optionCap × List UInt8 × Except ServerEncodeError Bool :=
  if s.started then (s, out, .ok false)
  else if n - out.length < serialServerNegotiationMax then (s, out, .error .bufferFull)
  else
    let (protocol, out) := startProtocol n s.protocol out
    ({ protocol, serial := { s.serial with status := .negotiating }, started := true }, out,
      .ok true)

/-- What a payload of the COM-PORT option does. -/
def feedSerial (serial : ServerSerialState) (payload : List UInt8) :
    ServerSerialState × ServerEvent :=
  match Serial.decodeFrom .client payload with
  | .ok message =>
    match SerialRequest.fromMessage message with
    | .ok request => (serial.applyRequest request, .serial request)
    | .error error => (serial, .invalidSerialRequest error)
  | .error error => (serial, .malformedSerial error)

/-- What an event of the codec means to the session, which has already taken the byte. -/
def onEvent (s : ServerSession sbCap optionCap) (wasActive : Bool) (event : TelnetEvent) :
    ServerSession sbCap optionCap × ServerEvent :=
  if !wasActive && s.serialActive then
    ({ s with serial := { s.serial with status := .active } }, .serialModeActive)
  else if wasActive && !s.serialActive || requiredOptionRefused event then
    ({ s with serial := { s.serial with status := .refused } }, .serialModeRefused)
  else match event with
    | .data byte => (s, .data byte)
    | .subnegotiation option =>
      if option = optComPort then
        let fed := feedSerial s.serial s.protocol.subnegotiation.2
        ({ s with serial := fed.1 }, fed.2)
      else (s, .telnet event)
    | event => (s, .telnet event)

/-- Take one byte from the peer, with a reply buffer of capacity `n`. -/
def feed (n : Nat) (s : ServerSession sbCap optionCap) (byte : UInt8) (reply : List UInt8) :
    ServerSession sbCap optionCap × List UInt8 × Option ServerEvent :=
  let wasActive := s.serialActive
  let (protocol, reply, event) := s.protocol.feed n byte reply
  let s := { s with protocol }
  match event with
  | none => (s, reply, none)
  | some event =>
    let (s, event) := s.onEvent wasActive event
    (s, reply, some event)

inductive Op
  | start (n : Nat) (out : List UInt8)
  | feed (n : Nat) (byte : UInt8) (reply : List UInt8)
deriving DecidableEq, Repr

/-- A call, and the event it returns. -/
def step (s : ServerSession sbCap optionCap) : Op →
    ServerSession sbCap optionCap × Option ServerEvent
  | .start n out => ((s.start n out).1, none)
  | .feed n byte reply => ((s.feed n byte reply).1, (s.feed n byte reply).2.2)

def run (s : ServerSession sbCap optionCap) (ops : List Op) : ServerSession sbCap optionCap :=
  ops.foldl (fun s op => (s.step op).1) s

/-- The options that a server uses. -/
def used : Finset UInt8 := {optBinary, optSuppressGoAhead, optComPort}

/-! ### The status and what it summarises -/

/-- The halves that must be on for the serial mode. -/
def required : List (Side × UInt8) := [(.us, optBinary), (.him, optBinary), (.him, optComPort)]

variable {s : ServerSession sbCap optionCap}

theorem serialActive_iff :
    s.serialActive = true ↔ ∀ h ∈ required, s.protocol.half h.1 h.2 = .yes := by
  unfold serialActive binaryModeEnabled
  simp [usEnabled_eq, himEnabled_eq, required, and_assoc]

theorem requiredOptionRefused_spec {event : TelnetEvent} (h : requiredOptionRefused event = true) :
    ∃ side option, (side, option) ∈ required ∧
      (event = .optionRefused side option ∨ event = .optionDisabled side option) := by
  unfold requiredOptionRefused at h
  unfold required
  split at h
  · simp only [Bool.or_eq_true, beq_iff_eq] at h
    exact ⟨.him, _, by rcases h with rfl | rfl <;> simp, .inl rfl⟩
  · simp only [Bool.or_eq_true, beq_iff_eq] at h
    exact ⟨.him, _, by rcases h with rfl | rfl <;> simp, .inr rfl⟩
  · rw [beq_iff_eq] at h
    exact ⟨.us, _, by simp [h], .inl rfl⟩
  · rw [beq_iff_eq] at h
    exact ⟨.us, _, by simp [h], .inr rfl⟩
  · exact nomatch h

theorem supports_used (policy : ServerPolicy) (side : Side) (option : UInt8)
    (h : supports policy side option = true) : option ∈ used := by
  cases side <;>
    simp only [supports, Policy.supportUs, Policy.supportHim, Bool.or_eq_true, beq_iff_eq] at h <;>
    simp only [used, Finset.mem_insert, Finset.mem_singleton] <;> tauto

/-- The serial mode stays as it is when no half turns on or off. -/
theorem active_of_none {t' : Telnet ServerPolicy sbCap optionCap}
    (h : Fed used s.protocol t' none) :
    ({ s with protocol := t' } : ServerSession sbCap optionCap).serialActive = s.serialActive := by
  have hyes : ∀ side o, t'.half side o = .yes ↔ s.protocol.half side o = .yes := by
    intro side o
    constructor
    · intro hon
      by_contra hoff
      exact nomatch (h.enabled side o).mpr ⟨hoff, hon⟩
    · intro hon
      by_contra hoff
      exact nomatch (h.disabled side o).mpr ⟨hon, hoff⟩
  rw [Bool.eq_iff_iff, serialActive_iff, serialActive_iff]
  exact ⟨fun hall r hr => (hyes _ _).mp (hall r hr), fun hall r hr => (hyes _ _).mpr (hall r hr)⟩

@[simp] theorem onEvent_protocol (wasActive : Bool) (event : TelnetEvent) :
    (s.onEvent wasActive event).1.protocol = s.protocol := by
  unfold onEvent
  repeat' split
  all_goals rfl

@[simp] theorem feedSerial_status (serial : ServerSerialState) (payload : List UInt8) :
    (feedSerial serial payload).1.status = serial.status := by
  unfold feedSerial
  repeat' split
  all_goals simp

theorem feedSerial_event (serial : ServerSerialState) (payload : List UInt8) :
    (feedSerial serial payload).2 ≠ .serialModeActive := by
  unfold feedSerial
  repeat' split
  all_goals exact nofun

theorem onEvent_event (wasActive : Bool) (event : TelnetEvent) :
    (s.onEvent wasActive event).2 = .serialModeActive ↔
      wasActive = false ∧ s.serialActive = true := by
  unfold onEvent
  by_cases hon : (!wasActive && s.serialActive) = true
  · rw [if_pos hon]
    simpa using hon
  · rw [if_neg hon]
    have hno : ¬ (wasActive = false ∧ s.serialActive = true) := by simpa using hon
    refine ⟨fun heq => absurd heq ?_, fun hyes => absurd hyes hno⟩
    repeat' split
    all_goals first | exact feedSerial_event _ _ | exact nofun

theorem onEvent_status (wasActive : Bool) (event : TelnetEvent) :
    (s.onEvent wasActive event).1.serial.status =
      if !wasActive && s.serialActive then .active
      else if wasActive && !s.serialActive || requiredOptionRefused event then .refused
      else s.serial.status := by
  unfold onEvent
  by_cases hon : (!wasActive && s.serialActive) = true
  · rw [if_pos hon, if_pos hon]
  · rw [if_neg hon, if_neg hon]
    by_cases hoff : (wasActive && !s.serialActive || requiredOptionRefused event) = true
    · rw [if_pos hoff, if_pos hoff]
    · rw [if_neg hoff, if_neg hoff]
      repeat' split
      all_goals simp

/-- The status says whether the serial mode is active. -/
def Matches (s : ServerSession sbCap optionCap) : Prop :=
  s.serial.status = .active ↔ s.serialActive = true

instance (s : ServerSession sbCap optionCap) : Decidable s.Matches :=
  inferInstanceAs (Decidable (_ ↔ _))

theorem matches_new : (new : ServerSession sbCap optionCap).Matches :=
  ⟨fun h => (nomatch h), fun h => (nomatch h)⟩

/-- A byte keeps the status right, and is answered with the event exactly if it turns the mode on.
-/
theorem feed_spec (h : Tidy used s.protocol) (hcap : used.card < optionCap) (n : Nat) (byte : UInt8)
    (reply : List UInt8) : Tidy used (s.feed n byte reply).1.protocol ∧
      ((s.feed n byte reply).2.2 = some .serialModeActive ↔
        s.serialActive = false ∧ (s.feed n byte reply).1.serialActive = true) ∧
      (s.Matches → (s.feed n byte reply).1.Matches) := by
  have hfed := Fed.feed h hcap (supports_used s.protocol.policy) n byte reply
  unfold feed
  cases hevent : (s.protocol.feed n byte reply).2.2 with
  | none =>
    simp only [hevent] at hfed ⊢
    have hsame := active_of_none hfed
    refine ⟨hfed.tidy, ?_, fun hm => ?_⟩
    · rw [hsame]
      cases s.serialActive <;> simp
    · show _ ↔ _
      rw [hsame]
      exact hm
  | some event =>
    simp only [hevent] at hfed ⊢
    generalize ht : (s.protocol.feed n byte reply).1 = t' at hfed ⊢
    have hactive : ({ s with protocol := t' } : ServerSession sbCap optionCap).serialActive =
        (({ s with protocol := t' } : ServerSession sbCap optionCap).onEvent
          s.serialActive event).1.serialActive := by
      unfold serialActive
      rw [onEvent_protocol]
    refine ⟨?_, ?_, fun hm => ?_⟩
    · rw [onEvent_protocol]
      exact hfed.tidy
    · rw [Option.some.injEq, onEvent_event, hactive]
    · show _ ↔ _
      rw [onEvent_status, ← hactive]
      generalize hnow : ({ s with protocol := t' } : ServerSession sbCap optionCap).serialActive =
        now
      -- a required half that is refused or turned off is off
      have hrefused : requiredOptionRefused event = true → now = false := by
        intro href
        obtain ⟨side, option, hreq, hev⟩ := requiredOptionRefused_spec href
        have hoff : t'.half side option ≠ .yes := by
          cases hev with
          | inl hev =>
            rw [(hfed.refused side option (hev ▸ rfl)).2]
            exact nofun
          | inr hev => exact ((hfed.disabled side option).mp (hev ▸ rfl)).2
        rw [← hnow, ← Bool.not_eq_true, serialActive_iff]
        exact fun hall => hoff (hall (side, option) hreq)
      have hm : s.serial.status = .active ↔ s.serialActive = true := hm
      cases hwas : s.serialActive <;> cases hnow' : now <;>
        cases hr : requiredOptionRefused event <;> simp_all

/-- A request to turn a half on does not move any half to or from `yes`. -/
theorem ask_spec {t : Telnet ServerPolicy sbCap optionCap} (h : Tidy used t)
    (hcap : used.card < optionCap) {option : UInt8} (hmem : option ∈ used) (side : Side) (n : Nat)
    (out : List UInt8) : Tidy used (request side true n t option out).1 ∧
      ∀ side' o, (request side true n t option out).1.half side' o = .yes ↔
        t.half side' o = .yes := by
  obtain ⟨htidy, -, hself, hother⟩ := h.request hcap side true (fun _ => hmem) n out
  refine ⟨htidy, fun side' o => ?_⟩
  by_cases heq : side' = side ∧ o = option
  · obtain ⟨rfl, rfl⟩ := heq
    cases hself with
    | inl hmoved =>
      rw [hmoved]
      cases t.half side' o <;> decide
    | inr hfull => rw [hfull.2.2]
  · rw [hother side' o heq]

theorem ask_all {halves : List (Side × UInt8)} (hhalves : ∀ h ∈ halves, h.2 ∈ used)
    (hcap : used.card < optionCap) (n : Nat) {r : Telnet ServerPolicy sbCap optionCap × List UInt8}
    (h : Tidy used r.1) : Tidy used (halves.foldl (fun r h => request h.1 true n r.1 h.2 r.2) r).1 ∧
      ∀ side o, (halves.foldl (fun r h => request h.1 true n r.1 h.2 r.2) r).1.half side o = .yes ↔
        r.1.half side o = .yes := by
  induction halves generalizing r with
  | nil => exact ⟨h, fun _ _ => Iff.rfl⟩
  | cons head rest ih =>
    obtain ⟨htidy, hyes⟩ := ask_spec h hcap (hhalves head (by simp)) head.1 n r.2
    obtain ⟨htidy', hyes'⟩ := ih (fun x hx => hhalves x (List.mem_cons_of_mem _ hx)) htidy
    exact ⟨htidy', fun side o => (hyes' side o).trans (hyes side o)⟩

/-- The halves that `start` asks for, in its order. -/
def asked : List (Side × UInt8) :=
  [(.us, optBinary), (.him, optBinary), (.us, optSuppressGoAhead), (.him, optSuppressGoAhead),
    (.him, optComPort)]

theorem startProtocol_eq (n : Nat) (t : Telnet ServerPolicy sbCap optionCap) (out : List UInt8) :
    startProtocol n t out = asked.foldl (fun r h => request h.1 true n r.1 h.2 r.2) (t, out) := by
  unfold startProtocol requestBinaryMode requestUs requestHim asked
  simp only [List.foldl_cons, List.foldl_nil]

/-- A call of `start` that takes effect while the serial mode is already active. -/
def Resets (s : ServerSession sbCap optionCap) : Op → Prop
  | .start n out => s.started = false ∧ serialServerNegotiationMax ≤ n - out.length ∧
      s.serialActive = true
  | .feed _ _ _ => False

theorem start_spec (h : Tidy used s.protocol) (hcap : used.card < optionCap) (n : Nat)
    (out : List UInt8) :
    Tidy used (s.start n out).1.protocol ∧ (s.start n out).1.serialActive = s.serialActive ∧
      (s.Matches → ((s.start n out).1.Matches ↔ ¬ s.Resets (.start n out))) := by
  unfold start
  by_cases hstarted : s.started = true
  · rw [if_pos hstarted]
    refine ⟨h, rfl, fun hm => ⟨fun _ hr => ?_, fun _ => hm⟩⟩
    exact absurd hr.1 (by simp [hstarted])
  · rw [if_neg hstarted]
    by_cases hroom : n - out.length < serialServerNegotiationMax
    · rw [if_pos hroom]
      exact ⟨h, rfl, fun hm => ⟨fun _ hr => absurd hr.2.1 (Nat.not_le.mpr hroom), fun _ => hm⟩⟩
    · rw [if_neg hroom]
      have hasked := ask_all (by decide : ∀ h ∈ asked, h.2 ∈ used) hcap n (r := (s.protocol, out)) h
      rw [← startProtocol_eq] at hasked
      generalize startProtocol n s.protocol out = r at hasked
      obtain ⟨t', out'⟩ := r
      obtain ⟨htidy, hyes⟩ := hasked
      have hactive : ({ s with
          protocol := t'
          serial := { s.serial with status := .negotiating }
          started := true } : ServerSession sbCap optionCap).serialActive = s.serialActive := by
        rw [Bool.eq_iff_iff, serialActive_iff, serialActive_iff]
        exact ⟨fun hall r hr => (hyes _ _).mp (hall r hr),
          fun hall r hr => (hyes _ _).mpr (hall r hr)⟩
      refine ⟨htidy, hactive, fun _ => ?_⟩
      show (SerialStatus.negotiating = .active ↔ _) ↔ _
      rw [hactive]
      simp [Resets, hstarted, Nat.le_of_not_lt hroom]

/-- What a call does to a session whose status is right. -/
theorem step_spec (h : Tidy used s.protocol) (hcap : used.card < optionCap) (op : Op) :
    Tidy used (s.step op).1.protocol ∧ ((s.step op).2 = some .serialModeActive ↔
        s.serialActive = false ∧ (s.step op).1.serialActive = true) ∧
      (s.Matches → ((s.step op).1.Matches ↔ ¬ s.Resets op)) := by
  cases op with
  | start n out =>
    obtain ⟨htidy, hactive, hm⟩ := start_spec h hcap n out
    refine ⟨htidy, ⟨fun he => (nomatch he), fun ⟨hoff, hon⟩ => ?_⟩, hm⟩
    have hoff' : s.serialActive = true := hactive.symm.trans hon
    rw [hoff] at hoff'
    exact nomatch hoff'
  | feed n byte reply =>
    obtain ⟨htidy, hevent, hm⟩ := feed_spec h hcap n byte reply
    exact ⟨htidy, hevent, fun h => ⟨fun _ hr => hr, fun _ => hm h⟩⟩

theorem run_concat (ops : List Op) (op : Op) : s.run (ops ++ [op]) = ((s.run ops).step op).1 := by
  unfold run
  rw [List.foldl_append]
  rfl

theorem run_tidy (hcap : used.card < optionCap) (ops : List Op) :
    Tidy used ((new : ServerSession sbCap optionCap).run ops).protocol := by
  induction ops using List.reverseRecOn with
  | nil => exact tidy_new used _
  | append_singleton ops op ih =>
    rw [run_concat]
    exact (step_spec ih hcap op).1

/-- The status is right all along a run exactly if no call of `start` takes effect while the serial
mode is already active. -/
theorem run_matches (hcap : used.card < optionCap) (ops : List Op) :
    (∀ pre, pre <+: ops → ((new : ServerSession sbCap optionCap).run pre).Matches) ↔
      ∀ pre op, pre ++ [op] <+: ops →
        ¬ ((new : ServerSession sbCap optionCap).run pre).Resets op := by
  constructor
  · intro hall pre op hpre hresets
    have hm := hall pre ((List.prefix_append pre [op]).trans hpre)
    have hm' := hall (pre ++ [op]) hpre
    rw [run_concat] at hm'
    exact ((step_spec (run_tidy hcap pre) hcap op).2.2 hm).mp hm' hresets
  · intro hall pre
    induction pre using List.reverseRecOn with
    | nil => exact fun _ => matches_new
    | append_singleton pre op ih =>
      intro hpre
      rw [run_concat]
      exact ((step_spec (run_tidy hcap pre) hcap op).2.2
        (ih ((List.prefix_append pre [op]).trans hpre))).mpr (hall pre op hpre)

end ServerSession

end Microtun.Telnet
