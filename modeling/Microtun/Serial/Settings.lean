import Microtun.Serial.Device
import Mathlib.Data.Bool.AllAny
import Mathlib.Tactic.NthRewrite

/-! The terminal settings always show the line settings, as far as they can. -/

namespace Microtun.Serial

/-! ### Flags -/

/-- The flags of the line settings, less those of the baud rate. -/
def lineMask : Flags := csize ||| parenb ||| parodd ||| cmspar ||| cstopb ||| crtscts

def baudMask : Flags := cbaud ||| cbaudex

def controlMask : Flags :=
  csize ||| parenb ||| parodd ||| cmspar ||| cstopb ||| crtscts ||| cbaud ||| cbaudex

def inputMask : Flags := ixon ||| ixoff

theorem and_masked {rest v m M : Flags} (h : ~~~M &&& m = 0#32) :
    (rest &&& ~~~M ||| v) &&& m = v &&& m := by
  rw [BitVec.and_or_distrib_right, BitVec.and_assoc, h, BitVec.and_zero, BitVec.zero_or]

theorem and_of_and {x y m M : Flags} (hm : M &&& m = m) (h : x &&& M = y &&& M) :
    x &&& m = y &&& m := by
  rw [← hm, ← BitVec.and_assoc, ← BitVec.and_assoc, h]

theorem decode_congr {x y i : Flags} (h : x &&& lineMask = y &&& lineMask) :
    dataBitsFromCflag x = dataBitsFromCflag y ∧ parityFromCflag x = parityFromCflag y ∧
      stopFromCflag x = stopFromCflag y ∧ flowOutFromFlags i x = flowOutFromFlags i y ∧
      flowInFromFlags i x = flowInFromFlags i y := by
  have hsize : x &&& csize = y &&& csize := and_of_and (by decide) h
  have hparenb : x &&& parenb = y &&& parenb := and_of_and (by decide) h
  have hparodd : x &&& parodd = y &&& parodd := and_of_and (by decide) h
  have hcmspar : x &&& cmspar = y &&& cmspar := and_of_and (by decide) h
  have hcstopb : x &&& cstopb = y &&& cstopb := and_of_and (by decide) h
  have hcrtscts : x &&& crtscts = y &&& crtscts := and_of_and (by decide) h
  have hdata : dataBitsFromCflag x = dataBitsFromCflag y := by simp only [dataBitsFromCflag, hsize]
  refine ⟨hdata, ?_, ?_, ?_, ?_⟩
  · simp only [parityFromCflag, hparenb, hparodd, hcmspar]
  · simp only [stopFromCflag, hcstopb, hdata]
  · simp only [flowOutFromFlags, hcrtscts]
  · simp only [flowInFromFlags, hcrtscts]

theorem and_or_and_or (a n x : Flags) : (a &&& n ||| x) &&& n ||| x = a &&& n ||| x := by
  apply BitVec.eq_of_getLsbD_eq
  intro i _
  simp only [BitVec.getLsbD_or, BitVec.getLsbD_and]
  cases a.getLsbD i <;> cases n.getLsbD i <;> cases x.getLsbD i <;> rfl

theorem or_ite {c : Prop} [Decidable c] (x a : Flags) :
    (if c then x ||| a else x) = x ||| if c then a else 0 := by
  split
  · rfl
  · exact BitVec.or_zero.symm

theorem or_ite_ite {c : Prop} [Decidable c] (x a b : Flags) :
    (if c then x ||| a else x ||| b) = x ||| if c then a else b := by
  split
  · rfl
  · rfl

/-! ### Settings as flags -/

namespace SerialState

def hardware (v : SerialState) : Prop :=
  v.flowOut = control.hardwareOutbound ∨ v.flowIn = control.hardwareInbound

instance (v : SerialState) : Decidable v.hardware := inferInstanceAs (Decidable (_ ∨ _))

def dataFlags (dataBits : UInt8) : Flags :=
  if dataBits = 5 then cs5 else if dataBits = 6 then cs6 else if dataBits = 7 then cs7 else cs8

def parityFlags (parity : UInt8) : Flags :=
  if parity = Serial.parity.odd then parenb ||| parodd
  else if parity = Serial.parity.even then parenb
  else if parity = Serial.parity.mark then parenb ||| parodd ||| cmspar
  else if parity = Serial.parity.space then parenb ||| cmspar
  else 0

def stopFlags (stopBits : UInt8) : Flags := if stopBits ≠ stopSize.one then cstopb else 0

def lineFlags (v : SerialState) : Flags :=
  dataFlags v.dataBits ||| parityFlags v.parity ||| stopFlags v.stopBits |||
    (if v.hardware then crtscts else 0)

def inputFlags (v : SerialState) : Flags :=
  (if ¬v.hardware ∧ v.flowOut = control.xonXoffOutbound then ixon else 0) |||
    (if ¬v.hardware ∧ v.flowIn = control.xonXoffInbound then ixoff else 0)

/-- What an update may set. -/
structure Valid (v : SerialState) : Prop where
  baud : v.baud ≠ 0
  dataBits : v.dataBits ∈ [(5 : UInt8), 6, 7, 8]
  parity : v.parity ∈ [Serial.parity.none, Serial.parity.odd, Serial.parity.even,
    Serial.parity.mark, Serial.parity.space]
  stopBits : v.stopBits ∈ [stopSize.one, stopSize.two, stopSize.oneAndAHalf]
  flowOut : v.flowOut ∈ [control.noOutboundFlow, control.xonXoffOutbound, control.hardwareOutbound,
    control.dcdOutbound, control.dsrOutbound]
  flowIn : v.flowIn ∈ [control.noInboundFlow, control.xonXoffInbound, control.hardwareInbound,
    control.dtrInbound]

theorem valid_default : Valid default :=
    ⟨by decide, by decide, by decide, by decide, by decide, by decide⟩

theorem Valid.updateControl {v : SerialState} (h : v.Valid) (value : UInt8) :
    (v.updateControl value).Valid := by
  unfold SerialState.updateControl
  split
  next hout => exact { h with flowOut := hout }
  next =>
    split
    next hin => exact { h with flowIn := hin }
    next =>
      repeat' split
      all_goals exact { h with }

theorem Valid.update {v : SerialState} (h : v.Valid) (event : SerialEvent) :
    (v.update event).Valid := by
  have hdata (x : UInt8) (hx : 5 ≤ x ∧ x ≤ 8) : x ∈ [(5 : UInt8), 6, 7, 8] := by
    have hall : ∀ v : BitVec 8, 5 ≤ UInt8.ofBitVec v ∧ UInt8.ofBitVec v ≤ 8 →
        UInt8.ofBitVec v ∈ [(5 : UInt8), 6, 7, 8] := by decide
    exact hall x.toBitVec hx
  cases event with
  | baudRate value =>
    show (if value ≠ 0 then { v with baud := value } else v).Valid
    split
    next hne => exact { h with baud := hne }
    next => exact h
  | dataSize value =>
    show (if 5 ≤ value ∧ value ≤ 8 then { v with dataBits := value } else v).Valid
    split
    next hrange => exact { h with dataBits := hdata value hrange }
    next => exact h
  | parity value =>
    rw [SerialState.update]
    split
    next hmem => exact { h with parity := hmem }
    next => exact h
  | stopSize value =>
    rw [SerialState.update]
    split
    next hmem => exact { h with stopBits := hmem }
    next => exact h
  | control value => exact h.updateControl value
  | lineState _ => exact h
  | modemState _ => exact h
  | other => exact h

theorem valid_updates (updates : List SerialEvent) : (updates.foldl update default).Valid := by
  suffices hfold : ∀ v : SerialState, v.Valid →
    (updates.foldl update v).Valid from hfold _ valid_default
  intro v hv
  induction updates generalizing v with
  | nil => exact hv
  | cons event updates ih => exact ih _ (hv.update event)

theorem Valid.decode {v : SerialState} (h : v.Valid) : dataBitsFromCflag v.lineFlags = v.dataBits ∧
    parityFromCflag v.lineFlags = v.parity ∧
    stopFromCflag v.lineFlags = (if v.stopBits = stopSize.one then stopSize.one
      else if v.dataBits = 5 then stopSize.oneAndAHalf else stopSize.two) ∧
    (v.lineFlags &&& crtscts ≠ 0 ↔ v.hardware) ∧ v.lineFlags &&& baudMask = 0#32 ∧
    v.lineFlags &&& ~~~lineMask = 0#32 := by
  have hall : ∀ d ∈ [(5 : UInt8), 6, 7, 8],
      ∀ p ∈ [Serial.parity.none, Serial.parity.odd, Serial.parity.even, Serial.parity.mark,
        Serial.parity.space], ∀ b ∈ [stopSize.one, stopSize.two, stopSize.oneAndAHalf],
        ∀ hardware : Bool,
      let x := dataFlags d ||| parityFlags p ||| stopFlags b ||| (if hardware then crtscts else 0)
      dataBitsFromCflag x = d ∧ parityFromCflag x = p ∧
        stopFromCflag x = (if b = stopSize.one then stopSize.one
          else if d = 5 then stopSize.oneAndAHalf else stopSize.two) ∧
        (x &&& crtscts ≠ 0 ↔ hardware = true) ∧ x &&& baudMask = 0#32 ∧
          x &&& ~~~lineMask = 0#32 := by
    decide +kernel
  have := hall v.dataBits h.dataBits v.parity h.parity v.stopBits h.stopBits (decide v.hardware)
  rw [lineFlags]
  simpa only [decide_eq_true_eq] using this

end SerialState

/-! ### Baud rates -/

/-- The first rate of a code. -/
def baudOfCode (code : Flags) : Option UInt32 :=
  baudCodes.findSome? fun (flag, baud) => if flag = code then some baud else none

theorem baudCode_cases (baud : UInt32) : baudCode baud = bother ∨
    (baudCode baud, baud) ∈ baudCodes := by
  rw [baudCode]
  match hfind : baudCodes.findSome? fun (flag, value) => if value = baud then some flag
    else none with
  | none =>
    rw [hfind]
    exact .inl rfl
  | some flag =>
    rw [hfind]
    obtain ⟨⟨flag', value⟩, hmem, hsome⟩ := List.exists_of_findSome?_eq_some hfind
    simp only at hsome
    split at hsome
    next heq =>
      obtain rfl := Option.some.inj hsome
      exact .inr (heq ▸ hmem)
    next => cases hsome

theorem baudCode_flags (baud : UInt32) :
    baudCode baud &&& lineMask = 0#32 ∧ baudCode baud &&& baudMask = baudCode baud := by
  have hall : ∀ entry ∈ baudCodes, entry.1 &&& lineMask = 0#32 ∧ entry.1 &&& baudMask = entry.1 :=
    List.all_iff_forall_prop.mp (by decide)
  rcases baudCode_cases baud with hother | hmem
  · rw [hother]
    decide
  · exact hall _ hmem

theorem baudOfCode_baudCode {baud : UInt32} (h : baudCode baud ≠ bother) :
    baudOfCode (baudCode baud) = some baud := by
  have hall : ∀ entry ∈ baudCodes, baudOfCode entry.1 = some entry.2 :=
    List.all_iff_forall_prop.mp (by decide)
  exact hall _ ((baudCode_cases baud).resolve_left h)

namespace State

/-! ### What the terminal settings show -/

/-- The rate that is shown. -/
def shownBaud (s : State) : UInt32 := if s.hungUp then 0 else s.serial.baud

theorem sync_eq (s : State) : s.syncTermiosFromSerial = { s with termios := { s.termios with
    cCflag := s.termios.cCflag &&& ~~~controlMask ||| (s.serial.lineFlags ||| baudCode s.shownBaud)
    cIflag := s.termios.cIflag &&& ~~~inputMask ||| s.serial.inputFlags
    cIspeed := s.shownBaud
    cOspeed := s.shownBaud } } := by
  rw [syncTermiosFromSerial]
  simp only [or_ite, or_ite_ite, BitVec.or_assoc, SerialState.lineFlags, SerialState.inputFlags,
    SerialState.dataFlags, SerialState.parityFlags, SerialState.stopFlags, SerialState.hardware,
    shownBaud, controlMask, inputMask]
  rfl

/-- The line settings are valid, and the terminal settings show them. -/
structure Synced (s : State) : Prop where
  valid : s.serial.Valid
  cflag : s.termios.cCflag &&& ~~~controlMask ||| (s.serial.lineFlags ||| baudCode s.shownBaud) =
    s.termios.cCflag
  iflag : s.termios.cIflag &&& ~~~inputMask ||| s.serial.inputFlags = s.termios.cIflag
  ispeed : s.shownBaud = s.termios.cIspeed
  ospeed : s.shownBaud = s.termios.cOspeed

theorem Synced.sync {s : State} (h : s.Synced) : s.syncTermiosFromSerial = s := by
  rw [sync_eq, h.cflag, h.iflag]
  nth_rewrite 1 [h.ispeed]
  rw [h.ospeed]

theorem synced_sync {s : State} (h : s.serial.Valid) : s.syncTermiosFromSerial.Synced := by
  rw [sync_eq]
  exact ⟨h, and_or_and_or _ _ _, and_or_and_or _ _ _, rfl, rfl⟩

theorem Synced.of_eq {s s' : State} (h : s.Synced) {dtr rts breakState : Bool}
    (htermios : s'.termios = s.termios) (hhung : s'.hungUp = s.hungUp) (hserial : s'.serial =
    { s.serial with dtr := dtr, rts := rts, breakState := breakState }) : s'.Synced := by
  have hshown : s'.shownBaud = s.shownBaud := by
    rw [shownBaud, shownBaud, hhung, hserial]
  refine ⟨?_, ?_, ?_, ?_, ?_⟩
  · rw [hserial]
    exact { h.valid with }
  · rw [htermios, hshown, hserial]
    exact h.cflag
  · rw [htermios, hserial]
    exact h.iflag
  · rw [htermios, hshown, h.ispeed]
  · rw [htermios, hshown, h.ospeed]

/-! ### Every operation keeps them so -/

theorem synced_new {serial : SerialState} (h : serial.Valid) : (new serial).Synced := synced_sync h

theorem synced_remoteUpdate {s : State} (h : s.Synced) (event : SerialEvent) :
    (s.remoteUpdate event).Synced := by
  have hvalid := h.valid.update event
  unfold remoteUpdate
  split <;> exact synced_sync hvalid

theorem Synced.setIf {s : State} (h : s.Synced) {changed : Bool} {set : SerialState → SerialState}
    {e : DeviceEvent} (hset : ∀ v : SerialState, ∃ dtr rts breakState, set v =
    { v with dtr := dtr, rts := rts, breakState := breakState }) :
    (s.setIf changed set e).Synced := by
  obtain ⟨dtr, rts, breakState, hset⟩ := hset s.serial
  rw [State.setIf]
  split
  · exact h.of_eq rfl rfl hset
  · exact h

theorem synced_setModemOutputs {s : State} (h : s.Synced) (bits mask : Flags) :
    (s.setModemOutputs bits mask).Synced := by
  unfold setModemOutputs
  exact (h.setIf fun v => ⟨_, v.rts, v.breakState, rfl⟩).setIf fun v =>
    ⟨v.dtr, _, v.breakState, rfl⟩

/-! ### What flags give is valid -/

theorem dataBitsFromCflag_mem (c : Flags) : dataBitsFromCflag c ∈ [(5 : UInt8), 6, 7, 8] := by
  unfold dataBitsFromCflag
  simp only
  repeat' split
  all_goals decide

theorem parityFromCflag_mem (c : Flags) :
    parityFromCflag c ∈ [parity.none, parity.odd, parity.even, parity.mark, parity.space] := by
  unfold parityFromCflag
  repeat' split
  all_goals decide

theorem stopFromCflag_mem (c : Flags) :
    stopFromCflag c ∈ [stopSize.one, stopSize.two, stopSize.oneAndAHalf] := by
  unfold stopFromCflag
  repeat' split
  all_goals decide

theorem flowOutFromFlags_mem (i c : Flags) : flowOutFromFlags i c ∈ [control.noOutboundFlow,
    control.xonXoffOutbound, control.hardwareOutbound, control.dcdOutbound,
      control.dsrOutbound] := by
  unfold flowOutFromFlags
  repeat' split
  all_goals decide

theorem flowInFromFlags_mem (i c : Flags) : flowInFromFlags i c ∈ [control.noInboundFlow,
    control.xonXoffInbound, control.hardwareInbound, control.dtrInbound] := by
  unfold flowInFromFlags
  repeat' split
  all_goals decide

theorem valid_setIf {s : State} (h : s.serial.Valid) {changed : Bool}
    {set : SerialState → SerialState} {e : DeviceEvent} (hset : ∀ v : SerialState, v.Valid →
    (set v).Valid) : (s.setIf changed set e).serial.Valid := by
  rw [State.setIf]
  split
  · exact hset _ h
  · exact h

theorem synced_applyLocalTermios {s : State} (h : s.serial.Valid) (next : Termios2)
    (baud : UInt32) : (s.applyLocalTermios next baud).Synced := by
  have hdtr (on : Bool) : ∀ v : SerialState, v.Valid → SerialState.Valid { v with dtr := on } :=
    fun v h => { h with }
  unfold applyLocalTermios
  refine synced_sync ?_
  refine valid_setIf (valid_setIf (valid_setIf (valid_setIf (valid_setIf ?_ ?_) ?_) ?_) ?_) ?_
  · simp only
    split
    · exact valid_setIf (s := { s with termios := next }) h (hdtr false)
    next hbaud =>
      refine valid_setIf ?_ fun v h => { h with baud := hbaud }
      split
      · exact valid_setIf (s := { s with termios := next, hungUp := false }) h (hdtr true)
      · exact h
  · exact fun v h => { h with dataBits := dataBitsFromCflag_mem _ }
  · exact fun v h => { h with parity := parityFromCflag_mem _ }
  · exact fun v h => { h with stopBits := stopFromCflag_mem _ }
  · exact fun v h => { h with flowOut := flowOutFromFlags_mem _ _ }
  · exact fun v h => { h with flowIn := flowInFromFlags_mem _ _ }

/-! ### What leaves the settings alone -/

structure SameLine (s s' : State) : Prop where
  termios : s'.termios = s.termios
  hungUp : s'.hungUp = s.hungUp
  serial : s'.serial = s.serial

theorem SameLine.refl (s : State) : SameLine s s := ⟨rfl, rfl, rfl⟩

theorem Synced.same {s s' : State} (h : s.Synced) (hsame : SameLine s s') : s'.Synced :=
  h.of_eq hsame.termios hsame.hungUp hsame.serial

theorem sameLine_fillAll (ps : List PendingWrite) (s : State) : SameLine s (fillAll ps s).1 := by
  induction ps generalizing s with
  | nil => exact ⟨rfl, rfl, rfl⟩
  | cons p ps ih =>
    unfold fillAll
    simp only
    split
    · have hrest := ih { s.push
        (.data (p.data.take (min (min p.data.length (txLimit - s.txBytes)) ioChunk))) with
        txBytes := s.txBytes + min (min p.data.length (txLimit - s.txBytes)) ioChunk }
      exact ⟨hrest.termios, hrest.hungUp, hrest.serial⟩
    · exact ⟨rfl, rfl, rfl⟩

theorem sameLine_fillReads (ps : List PendingRead) (s : State) : SameLine s (fillReads ps s).1 := by
  induction ps generalizing s with
  | nil => exact ⟨rfl, rfl, rfl⟩
  | cons p ps ih =>
    unfold fillReads
    split
    · exact ⟨rfl, rfl, rfl⟩
    · have hrest := ih { s with rx := s.rx.drop (min p.size s.rx.length) }
      exact ⟨hrest.termios, hrest.hungUp, hrest.serial⟩

theorem sameLine_pushRx (s : State) (data : List UInt8) : SameLine s (s.pushRx data).2.1 := by
  have hfill := sameLine_fillReads s.reads { s with rx := s.rx ++ data }
  unfold pushRx
  split
  · exact .refl s
  · split
    · exact .refl s
    · split
      · exact .refl s
      · exact ⟨hfill.termios, hfill.hungUp, hfill.serial⟩

theorem sameLine_read (s : State) (req : Request) (size : Nat) (reply : Reply) :
    SameLine s (s.read req size reply).1 := by
  unfold read
  repeat' split
  all_goals exact ⟨rfl, rfl, rfl⟩

theorem sameLine_write (s : State) (req : Request) (data : List UInt8) (reply : Reply) :
    SameLine s (s.write req data reply).1 := by
  unfold write
  simp only
  repeat' split
  all_goals exact ⟨rfl, rfl, rfl⟩

theorem sameLine_open (s : State) (reply : Reply) : SameLine s (s.open reply).1 := by
  unfold «open»
  repeat' split
  all_goals exact ⟨rfl, rfl, rfl⟩

theorem sameLine_release (s : State) : SameLine s s.release := by
  unfold release
  simp only
  split
  all_goals exact ⟨rfl, rfl, rfl⟩

theorem sameLine_poll (s : State) (requested : Flags) (notifier : Option Nat) (reply : Reply) :
    SameLine s (s.poll requested notifier reply).1 := by
  unfold poll
  simp only
  repeat' split
  all_goals exact ⟨rfl, rfl, rfl⟩

theorem sameLine_interrupt (s : State) (id : UInt64) : SameLine s (s.interrupt id).1 := by
  unfold interrupt
  repeat' split
  all_goals exact ⟨rfl, rfl, rfl⟩

theorem sameLine_stop (s : State) : SameLine s s.stop.1 := by
  unfold stop
  split
  all_goals exact ⟨rfl, rfl, rfl⟩

/-! ### Every step keeps the settings shown -/

theorem Synced.applyTermios {s : State} (h : s.Synced) (input : List UInt8)
    (termios2 flush : Bool) : (s.applyTermios input termios2 flush).2.1.Synced := by
  have hflushed : (if flush then s.clearRx else (s, [])).1.Synced := by
    split
    · exact h.same ⟨rfl, rfl, rfl⟩
    · exact h
  unfold State.applyTermios
  simp only
  split
  · exact hflushed
  · exact synced_applyLocalTermios hflushed.valid _ _

theorem Synced.completeAll (ps : List PendingIoctl) {s : State} (h : s.Synced) :
    (completeAll ps s).1.Synced := by
  induction ps generalizing s with
  | nil => exact h
  | cons p ps ih =>
    unfold State.completeAll
    simp only
    split
    · exact ih (h.applyTermios _ _ _)
    next sendBreak _ =>
      refine ih ?_
      simp only
      split
      · exact h.same ⟨rfl, rfl, rfl⟩
      · exact h

theorem Synced.completePendingIoctls {s : State} (h : s.Synced) :
    s.completePendingIoctls.1.Synced := by
  unfold State.completePendingIoctls
  split
  · exact h
  · exact Synced.completeAll _ (h.same ⟨rfl, rfl, rfl⟩)

theorem Synced.resume {s : State} (h : s.Synced) :
    s.completePendingIoctls.1.fillPendingWrites.1.notifyPolls.1.Synced :=
  (h.completePendingIoctls.same (sameLine_fillAll _ _)).same ⟨rfl, rfl, rfl⟩

theorem Synced.nextEvent {s : State} (h : s.Synced) : s.nextEvent.1.Synced := by
  unfold State.nextEvent
  split
  · exact h
  next event events _ =>
    cases event with
    | data data =>
      have hpopped : ({ s with events := events, txBytes := s.txBytes - data.length } :
          State).Synced :=
        h.same ⟨rfl, rfl, rfl⟩
      exact hpopped.resume
    | _ =>
      have hpopped : ({ s with events := events } : State).Synced := h.same ⟨rfl, rfl, rfl⟩
      exact hpopped.resume

theorem Synced.flush {s : State} (h : s.Synced) (rx tx : Bool) (value : UInt8) (reply : Reply) :
    (s.flush rx tx value reply).1.Synced := by
  unfold State.flush
  simp only
  have hrx : (if rx then s.clearRx else (s, [])).1.Synced := by
    split
    · exact h.same ⟨rfl, rfl, rfl⟩
    · exact h
  generalize (if rx then s.clearRx else (s, [])).1 = s₁ at hrx ⊢
  have htx : (if tx then s₁.clearTxData else (s₁, [])).1.Synced := by
    split
    · exact hrx.same ⟨rfl, rfl, rfl⟩
    · exact hrx
  generalize (if tx then s₁.clearTxData else (s₁, [])).1 = s₂ at htx ⊢
  have hpush : (s₂.push (.purge value)).Synced := htx.same ⟨rfl, rfl, rfl⟩
  exact hpush.resume

theorem Synced.drain {s : State} (h : s.Synced) (req : Request) (action : PendingIoctlAction)
    (reply : Reply) {go : State × List Entry} (hgo : go.1.Synced) :
    (s.drain req action reply go).1.Synced := by
  unfold State.drain
  split
  · split
    · exact h
    · exact h.same ⟨rfl, rfl, rfl⟩
  · exact hgo

theorem Synced.setTermios {s : State} (h : s.Synced) (input : List UInt8) (termios2 flush : Bool)
    (reply : Reply) : (s.setTermios input termios2 flush reply).1.Synced := by
  have happlied := h.applyTermios input termios2 flush
  unfold State.setTermios
  simp only
  split
  · exact happlied.same ⟨rfl, rfl, rfl⟩
  · exact happlied

theorem Synced.beginSet {s : State} (h : s.Synced) {req : Request} {ioctl : Ioctl} {need : Nat}
    {termios2 flush drain : Bool} {reply : Reply} {r : State × List Entry}
    (hbegin : s.beginSet req ioctl need termios2 flush drain reply = some r) : r.1.Synced := by
  unfold State.beginSet at hbegin
  split at hbegin
  · obtain rfl := Option.some.inj hbegin
    exact h
  · split at hbegin
    · obtain rfl := Option.some.inj hbegin
      exact h.drain req _ reply h
    · cases hbegin

theorem Synced.ioctl {s : State} (h : s.Synced) (req : Request) (i : Ioctl) (reply : Reply) :
    (s.ioctl req i reply).1.Synced := by
  have hgive (need : Nat) (bytes : List UInt8) :
      (if i.outSize < need then (s, [Entry.answer reply (.retry 0 need)])
        else (s, [.answer reply (.ok bytes)])).1.Synced := by
    split <;> exact h
  obtain ⟨cmd, compat, arg, input, outSize⟩ := i
  cases cmd with
  | TCGETS => exact hgive _ _
  | TCGETS2 => exact hgive _ _
  | TIOCMGET => exact hgive _ _
  | FIONREAD => exact hgive _ _
  | TIOCOUTQ => exact hgive _ _
  | TIOCMSET | TIOCMBIS | TIOCMBIC =>
    unfold State.ioctl
    simp only
    split
    · exact h
    · exact synced_setModemOutputs h _ _
  | TCFLSH =>
    unfold State.ioctl
    simp only
    split
    · exact h.flush _ _ _ _
    · exact h.flush _ _ _ _
    · exact h.flush _ _ _ _
    · exact h
  | TIOCEXCL => exact h.same ⟨rfl, rfl, rfl⟩
  | TIOCNXCL => exact h.same ⟨rfl, rfl, rfl⟩
  | TIOCSBRK | TIOCCBRK => exact h.setIf fun v => ⟨v.dtr, v.rts, _, rfl⟩
  | TCSBRK =>
    refine h.drain req _ reply ?_
    simp only
    split
    · exact h.same ⟨rfl, rfl, rfl⟩
    · exact h
  | TCXONC =>
    unfold State.ioctl
    simp only
    split
    · exact h.same ⟨rfl, rfl, rfl⟩
    · exact h.same ⟨rfl, rfl, rfl⟩
    all_goals exact h
  | _ => exact h

end State

namespace World

theorem synced_ioctl {w : World} (h : w.state.Synced) (req : Request) (i : Ioctl) :
    (w.ioctl req i).state.Synced := by
  unfold World.ioctl
  simp only
  split
  · exact h
  · split
    · exact h.ioctl req i _
    · split
      next hbegin => exact h.beginSet hbegin
      next => exact h

theorem synced_setTermios {w : World} (h : w.state.Synced) (reply : Reply) :
    (w.setTermios reply).state.Synced := by
  unfold World.setTermios
  split
  · exact h.setTermios _ _ _ reply
  · exact h

theorem synced_step {w : World} (h : w.state.Synced) (op : Op) : (w.step op).state.Synced := by
  cases op with
  | «open» => exact h.same (State.sameLine_open _ _)
  | release => exact h.same (State.sameLine_release _)
  | read req size => exact h.same (State.sameLine_read _ req size _)
  | write req data => exact h.same (State.sameLine_write _ req data _)
  | ioctl req i => exact synced_ioctl h req i
  | setTermios reply => exact synced_setTermios h reply
  | poll requested notifier =>
    exact h.same (State.sameLine_poll _ requested notifier w.asked.length)
  | interrupt id => exact h.same (State.sameLine_interrupt _ id)
  | pushRx data => exact h.same (State.sameLine_pushRx _ data)
  | nextEvent => exact h.nextEvent
  | remoteUpdate event => exact State.synced_remoteUpdate h event
  | stop => exact h.same (State.sameLine_stop _)

/-- A device that starts with valid settings shows them at every point of every run. -/
theorem synced_run {serial : SerialState} (h : serial.Valid) (ops : List Op) :
    (run serial ops).state.Synced := by
  suffices hfold : ∀ w : World, w.state.Synced → (ops.foldl step w).state.Synced from
    hfold _ (State.synced_new h)
  intro w hw
  induction ops generalizing w with
  | nil => exact hw
  | cons op ops ih => exact ih _ (synced_step hw op)

end World

end Microtun.Serial
