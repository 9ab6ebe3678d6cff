import Microtun.Serial.Settings
import Microtun.Serial.Runs

/-! Reading the terminal settings and writing back what was read. -/

namespace Microtun.Serial

namespace Termios2

theorem flags_bytes (f : Flags) : BitVec.ofNat 32 (ofLeBytes (toLeBytes 4 f.toNat)) = f := by
  have hlt : f.toNat < 256 ^ 4 := f.isLt
  rw [ofLeBytes_toLeBytes, Nat.mod_eq_of_lt hlt, BitVec.ofNat_toNat, BitVec.setWidth_eq]

/-- The bytes before the speeds. -/
def front (t : Termios2) : List UInt8 :=
  toLeBytes 4 t.cIflag.toNat ++ toLeBytes 4 t.cOflag.toNat ++ toLeBytes 4 t.cCflag.toNat ++
    toLeBytes 4 t.cLflag.toNat ++ [t.cLine] ++ t.cCc.toList

theorem length_front (t : Termios2) : t.front.length = legacyLen := by
  simp [front, legacyLen]

theorem ofBytes_bytes (t : Termios2) : ofBytes t.bytes = t := by
  have hpast (n : Nat) (f : Flags) (h : 4 ≤ n) : (toLeBytes 4 f.toNat).drop n = [] :=
    List.drop_of_length_le (by rw [length_toLeBytes]; exact h)
  have hcc : t.cCc.toList.drop 23 = [] := List.drop_of_length_le (by simp)
  have hlast : (toLeBytes 4 t.cOspeed.toNat).take 4 = toLeBytes 4 t.cOspeed.toNat :=
    List.take_of_length_le (by simp)
  simp [ofBytes, bytes, field, List.drop_append, flags_bytes, ofNat_ofLeBytes,
    List.getD_eq_getElem?_getD, hpast, hcc, hlast]

theorem copyPrefix_bytes (t t' : Termios2) : t.copyPrefix t'.bytes size = t' := by
  have hlen : t'.bytes.length = size := by simp [bytes, size]
  have hlen' : t.bytes.length = size := by simp [bytes, size]
  rw [copyPrefix, hlen, Nat.min_self, List.take_of_length_le (Nat.le_of_eq hlen),
    List.drop_of_length_le (Nat.le_of_eq hlen'), List.append_nil,
    ofBytes_bytes]

theorem copyPrefix_front {t t' : Termios2} (hispeed : t'.cIspeed = t.cIspeed)
    (hospeed : t'.cOspeed = t.cOspeed) : t.copyPrefix (t'.bytes.take legacyLen) legacyLen = t' := by
  have hspeeds (t : Termios2) : t.bytes =
      t.front ++ (toLeBytes 4 t.cIspeed.toNat ++ toLeBytes 4 t.cOspeed.toNat) := by
    simp only [bytes, front, List.append_assoc]
  have htake : t'.bytes.take legacyLen = t'.front := by
    rw [hspeeds]
    exact List.take_left' (length_front t')
  have hdrop : t.bytes.drop legacyLen =
      toLeBytes 4 t.cIspeed.toNat ++ toLeBytes 4 t.cOspeed.toNat := by
    rw [hspeeds]
    exact List.drop_left' (length_front t)
  rw [copyPrefix, htake, length_front, Nat.min_self,
    List.take_of_length_le (Nat.le_of_eq (length_front t')), hdrop, ← hispeed, ← hospeed, ← hspeeds,
    ofBytes_bytes]

end Termios2

namespace State

theorem events_setIf (s : State) (changed : Bool) (set : SerialState → SerialState)
    (e : DeviceEvent) :
    (s.setIf changed set e).events = s.events ++ if changed then [e] else [] := by
  cases changed with
  | true => rfl
  | false => exact (List.append_nil _).symm

theorem serial_setIf (s : State) (changed : Bool) (set : SerialState → SerialState)
    (e : DeviceEvent) :
    (s.setIf changed set e).serial = if changed then set s.serial else s.serial := by
  cases changed <;> rfl

theorem termios_setIf (s : State) (changed : Bool) (set : SerialState → SerialState)
    (e : DeviceEvent) : (s.setIf changed set e).termios = s.termios := by
  cases changed <;> rfl

/-- The part of `apply_local_termios` that applies the rate. -/
def applyBaud (s : State) (next : Termios2) (baud : UInt32) : State :=
  let s := { s with termios := next }
  if baud = 0 then
    { s.setIf s.serial.dtr (fun v => { v with dtr := false }) (.dtr false) with hungUp := true }
  else
    let s :=
      if s.hungUp then
        { s with hungUp := false }.setIf (!s.serial.dtr) (fun v => { v with dtr := true })
          (.dtr true)
      else s
    s.setIf (s.serial.baud ≠ baud) (fun v => { v with baud }) (.baud baud)

/-- The part that applies the other settings. -/
def applyLine (s : State) (iflag cflag : Flags) : State :=
  let dataBits := dataBitsFromCflag cflag
  let parity := parityFromCflag cflag
  let stopBits := stopFromCflag cflag
  let flowOut := flowOutFromFlags iflag cflag
  let flowIn := flowInFromFlags iflag cflag
  let s := s.setIf (s.serial.dataBits ≠ dataBits) (fun v => { v with dataBits })
    (.dataSize dataBits)
  let s := s.setIf (s.serial.parity ≠ parity) (fun v => { v with parity }) (.parity parity)
  let s := s.setIf (s.serial.stopBits ≠ stopBits) (fun v => { v with stopBits })
    (.stopSize stopBits)
  let s := s.setIf (s.serial.flowOut ≠ flowOut) (fun v => { v with flowOut }) (.flowOut flowOut)
  s.setIf (s.serial.flowIn ≠ flowIn) (fun v => { v with flowIn }) (.flowIn flowIn)

/-- Flags that say what the line is set to. -/
structure Says (v : SerialState) (iflag cflag : Flags) : Prop where
  dataBits : v.dataBits = dataBitsFromCflag cflag
  parity : v.parity = parityFromCflag cflag
  stopBits : v.stopBits = stopFromCflag cflag
  flowOut : v.flowOut = flowOutFromFlags iflag cflag
  flowIn : v.flowIn = flowInFromFlags iflag cflag

theorem applyLine_says {s : State} {iflag cflag : Flags} (h : Says s.serial iflag cflag) :
    s.applyLine iflag cflag = s := by
  simp [applyLine, setIf, h.dataBits, h.parity, h.stopBits, h.flowOut, h.flowIn]

theorem events_sync (s : State) : s.syncTermiosFromSerial.events = s.events := rfl

theorem serial_sync (s : State) : s.syncTermiosFromSerial.serial = s.serial := rfl

theorem events_applyLine (s : State) (iflag cflag : Flags) :
    ∃ told, (s.applyLine iflag cflag).events = s.events ++ told ∧
      (told = [] → Says s.serial iflag cflag) := by
  unfold applyLine
  simp only [events_setIf, serial_setIf, apply_ite SerialState.parity,
    apply_ite SerialState.stopBits, apply_ite SerialState.flowOut, apply_ite SerialState.flowIn,
    ite_self, List.append_assoc]
  refine ⟨_, rfl, fun htold => ?_⟩
  simp at htold
  obtain ⟨hdata, hparity, hstop, hout, hin⟩ := htold
  exact ⟨hdata, hparity, hstop, hout, hin⟩

theorem termios_applyBaud (s : State) (next : Termios2) (baud : UInt32) :
    (s.applyBaud next baud).termios = next := by
  unfold applyBaud
  simp only
  split
  · exact termios_setIf _ _ _ _
  · split <;> simp only [termios_setIf]

theorem applyLocalTermios_eq (s : State) (next : Termios2) (baud : UInt32) :
    s.applyLocalTermios next baud =
      ((s.applyBaud next baud).applyLine next.cIflag next.cCflag).syncTermiosFromSerial := by
  have hsplit : s.applyLocalTermios next baud = ((s.applyBaud next baud).applyLine
    (s.applyBaud next baud).termios.cIflag
      (s.applyBaud next baud).termios.cCflag).syncTermiosFromSerial := rfl
  rw [hsplit, termios_applyBaud]

/-- The rate, or the hang-up, is the one in force. -/
def KeepsBaud (s : State) (baud : UInt32) : Prop :=
  if s.hungUp then s.serial.dtr = false else s.serial.baud = baud

theorem applyBaud_keeps {s : State} {next : Termios2} {baud : UInt32}
    (hbaud : baud = 0 ↔ s.hungUp = true) (h : s.KeepsBaud baud) : s.applyBaud next baud =
    { s with termios := next } := by
  unfold applyBaud KeepsBaud at *
  cases hhung : s.hungUp with
  | true =>
    simp only [hhung, if_true] at h
    simp only [hbaud.mpr hhung, if_true, h, setIf, Bool.false_eq_true, if_false]
  | false =>
    have hne : baud ≠ 0 := fun h0 => by simp [hbaud.mp h0] at hhung
    simp only [hhung, Bool.false_eq_true, if_false] at h
    simp [hne, h, setIf]

theorem serial_applyLine (s : State) (iflag cflag : Flags) :
    (s.applyLine iflag cflag).serial.dataBits = dataBitsFromCflag cflag ∧
      (s.applyLine iflag cflag).serial.parity = parityFromCflag cflag ∧
      (s.applyLine iflag cflag).serial.baud = s.serial.baud := by
  unfold applyLine
  simp only [serial_setIf, apply_ite SerialState.dataBits, apply_ite SerialState.parity,
    apply_ite SerialState.baud, ite_self]
  refine ⟨?_, ?_, trivial⟩
  · split <;> simp_all
  · split <;> simp_all

/-- A rate that is not in force is told, and the other settings stay. -/
theorem events_applyBaud {s : State} {next : Termios2} {baud : UInt32}
    (hbaud : baud = 0 ↔ s.hungUp = true) :
    ∃ told dtr, (s.applyBaud next baud).events = s.events ++ told ∧ (told = [] → s.KeepsBaud baud) ∧
      (s.applyBaud next baud).serial =
        { s.serial with dtr := dtr, baud := if s.hungUp then s.serial.baud else baud } := by
  unfold applyBaud KeepsBaud
  cases hhung : s.hungUp with
  | true =>
    simp only [hbaud.mpr hhung, if_true, events_setIf, serial_setIf]
    refine ⟨_, s.serial.dtr && false, rfl, fun htold => ?_, ?_⟩
    · simpa using htold
    · cases hdtr : s.serial.dtr <;> simp [← hdtr]
  | false =>
    have hne : baud ≠ 0 := fun h0 => by simp [hbaud.mp h0] at hhung
    simp only [hne, if_false, Bool.false_eq_true, events_setIf, serial_setIf]
    refine ⟨_, s.serial.dtr, rfl, fun htold => ?_, ?_⟩
    · simpa using htold
    · by_cases hsame : s.serial.baud = baud
      · simp [← hsame]
      · simp [hsame]

/-- Settings that differ from those in force at most in the rate's flags change nothing exactly when
they say what is in force. -/
theorem applyLocalTermios_keeps {s : State} (h : s.Synced) {cflag : Flags} {baud : UInt32}
    (hbaud : baud = 0 ↔ s.hungUp = true)
    (hcflag : cflag &&& ~~~baudMask = s.termios.cCflag &&& ~~~baudMask) :
    ((s.applyLocalTermios { s.termios with cCflag := cflag } baud).events = s.events ∧
      (s.applyLocalTermios { s.termios with cCflag := cflag } baud).serial = s.serial ∧
      (s.applyLocalTermios { s.termios with cCflag := cflag } baud).termios = s.termios) ↔
    s.KeepsBaud baud ∧ Says s.serial s.termios.cIflag s.termios.cCflag := by
  have hline : cflag &&& lineMask = s.termios.cCflag &&& lineMask := and_of_and (by decide) hcflag
  have hsays : Says s.serial s.termios.cIflag cflag ↔
      Says s.serial s.termios.cIflag s.termios.cCflag := by
    obtain ⟨hdata, hparity, hstop, hout, hin⟩ := decode_congr (i := s.termios.cIflag) hline
    refine ⟨fun ⟨h1, h2, h3, h4, h5⟩ => ?_, fun ⟨h1, h2, h3, h4, h5⟩ => ?_⟩
    · exact ⟨hdata ▸ h1, hparity ▸ h2, hstop ▸ h3, hout ▸ h4, hin ▸ h5⟩
    · exact ⟨hdata ▸ h1, hparity ▸ h2, hstop ▸ h3, hout ▸ h4, hin ▸ h5⟩
  have heq := applyLocalTermios_eq s { s.termios with cCflag := cflag } baud
  simp only at heq
  rw [heq, ← hsays]
  constructor
  · rintro ⟨hevents, -⟩
    rw [events_sync] at hevents
    obtain ⟨told, dtr, htold, hkeep, hserial⟩ := events_applyBaud hbaud
    obtain ⟨told', htold', hkeep'⟩ :=
      events_applyLine (s.applyBaud { s.termios with cCflag := cflag } baud)
      s.termios.cIflag cflag
    rw [htold', htold, List.append_assoc] at hevents
    obtain ⟨hnil, hnil'⟩ := List.append_eq_nil_iff.mp (List.append_right_eq_self.mp hevents)
    have hs := hkeep' hnil'
    rw [hserial] at hs
    exact ⟨hkeep hnil, hs.dataBits, hs.parity, hs.stopBits, hs.flowOut, hs.flowIn⟩
  · rintro ⟨hkeep, hs⟩
    have hmasked : cflag &&& ~~~controlMask = s.termios.cCflag &&& ~~~controlMask :=
      and_of_and (by decide) hcflag
    rw [applyBaud_keeps hbaud hkeep,
      applyLine_says (s := { s with termios := { s.termios with cCflag := cflag } }) hs, sync_eq]
    have hsync := congrArg State.termios h.sync
    rw [sync_eq] at hsync
    simp only [hmasked]
    exact ⟨trivial, trivial, hsync⟩

/-- They never change the parity or the data size, and the rate only to the one that they say. -/
theorem applyLocalTermios_rest {s : State} (h : s.Synced) {cflag : Flags} {baud : UInt32}
    (hbaud : baud = 0 ↔ s.hungUp = true)
    (hcflag : cflag &&& ~~~baudMask = s.termios.cCflag &&& ~~~baudMask)
    {next : Termios2} (hnext : { s.termios with cCflag := cflag } = next) :
    ∃ serial, (s.applyLocalTermios next baud).serial = serial ∧
      serial.parity = s.serial.parity ∧ serial.dataBits = s.serial.dataBits ∧
      serial.baud = if s.hungUp then s.serial.baud else baud := by
  subst hnext
  obtain ⟨hdata, hparity, -⟩ := h.valid.decode
  have hline : s.termios.cCflag &&& lineMask = s.serial.lineFlags &&& lineMask := by
    rw [← h.cflag, and_masked (by decide), BitVec.and_or_distrib_right, (baudCode_flags _).1,
      BitVec.or_zero]
  obtain ⟨hdata', hparity', -⟩ := decode_congr (i := s.termios.cIflag)
    ((and_of_and (m := lineMask) (by decide) hcflag).trans hline)
  obtain ⟨-, dtr, -, -, hserial⟩ :=
    @events_applyBaud s { s.termios with cCflag := cflag } baud hbaud
  obtain ⟨hdatas, hparities, hbauds⟩ :=
    serial_applyLine (s.applyBaud { s.termios with cCflag := cflag } baud) s.termios.cIflag cflag
  rw [hserial] at hbauds
  refine ⟨_, ?_, hparities.trans (hparity'.trans hparity), hdatas.trans (hdata'.trans hdata),
    hbauds⟩
  rw [applyLocalTermios_eq, serial_sync]

/-! ### What the settings can say -/

/-- The settings have terminal flags of their own: the stop size goes with the data size, hardware
flow control is on in both directions or in neither, and no direction waits for a modem line. -/
structure Plain (v : SerialState) : Prop where
  two : v.stopBits = stopSize.two → v.dataBits ≠ 5
  oneAndAHalf : v.stopBits = stopSize.oneAndAHalf → v.dataBits = 5
  both : v.flowOut = control.hardwareOutbound ↔ v.flowIn = control.hardwareInbound
  flowOut : v.flowOut ≠ control.dcdOutbound ∧ v.flowOut ≠ control.dsrOutbound
  flowIn : v.flowIn ≠ control.dtrInbound

theorem inputFlags_and (v : SerialState) :
    (v.inputFlags &&& ixon ≠ 0 ↔ ¬v.hardware ∧ v.flowOut = control.xonXoffOutbound) ∧
      (v.inputFlags &&& ixoff ≠ 0 ↔ ¬v.hardware ∧ v.flowIn = control.xonXoffInbound) := by
  unfold SerialState.inputFlags
  split <;> split
  all_goals simp_all [ixon, ixoff]

theorem Synced.says_iff {s : State} (h : s.Synced) :
    Says s.serial s.termios.cIflag s.termios.cCflag ↔ Plain s.serial := by
  obtain ⟨hdata, hparity, hstop, hcrtscts, -, -⟩ := h.valid.decode
  have hline : s.termios.cCflag &&& lineMask = s.serial.lineFlags &&& lineMask := by
    rw [← h.cflag, and_masked (by decide), BitVec.and_or_distrib_right, (baudCode_flags _).1,
      BitVec.or_zero]
  obtain ⟨hdata', hparity', hstop', -, -⟩ := decode_congr (i := s.termios.cIflag) hline
  have hhard : s.termios.cCflag &&& crtscts ≠ 0 ↔ s.serial.hardware := by
    rw [and_of_and (m := crtscts) (by decide) hline]
    exact hcrtscts
  have hixon : s.termios.cIflag &&& ixon ≠ 0 ↔
      ¬s.serial.hardware ∧ s.serial.flowOut = control.xonXoffOutbound := by
    rw [← h.iflag, and_masked (by decide)]
    exact (inputFlags_and _).1
  have hixoff : s.termios.cIflag &&& ixoff ≠ 0 ↔
      ¬s.serial.hardware ∧ s.serial.flowIn = control.xonXoffInbound := by
    rw [← h.iflag, and_masked (by decide)]
    exact (inputFlags_and _).2
  have hout : flowOutFromFlags s.termios.cIflag s.termios.cCflag =
      if s.serial.hardware then control.hardwareOutbound
      else if s.serial.flowOut = control.xonXoffOutbound then control.xonXoffOutbound
        else control.noOutboundFlow := by
    rw [flowOutFromFlags]
    split <;> split <;> simp_all
  have hin : flowInFromFlags s.termios.cIflag s.termios.cCflag =
      if s.serial.hardware then control.hardwareInbound
      else if s.serial.flowIn = control.xonXoffInbound then control.xonXoffInbound
        else control.noInboundFlow := by
    rw [flowInFromFlags]
    split <;> split <;> simp_all
  have hall : ∀ d ∈ [(5 : UInt8), 6, 7, 8],
    ∀ b ∈ [stopSize.one, stopSize.two, stopSize.oneAndAHalf],
    ∀ o ∈ [control.noOutboundFlow, control.xonXoffOutbound, control.hardwareOutbound,
    control.dcdOutbound,
        control.dsrOutbound],
      ∀ i ∈ [control.noInboundFlow, control.xonXoffInbound, control.hardwareInbound,
        control.dtrInbound],
        (b = (if b = stopSize.one then stopSize.one else if d = 5 then stopSize.oneAndAHalf
        else stopSize.two) ∧
        o = (if o = control.hardwareOutbound ∨
          i = control.hardwareInbound then control.hardwareOutbound
          else if o = control.xonXoffOutbound then control.xonXoffOutbound
            else control.noOutboundFlow) ∧
        i = (if o = control.hardwareOutbound ∨
          i = control.hardwareInbound then control.hardwareInbound
          else if i = control.xonXoffInbound then control.xonXoffInbound
            else control.noInboundFlow)) ↔
      (b = stopSize.two → d ≠ 5) ∧ (b = stopSize.oneAndAHalf → d = 5) ∧
        (o = control.hardwareOutbound ↔ i = control.hardwareInbound) ∧
        (o ≠ control.dcdOutbound ∧ o ≠ control.dsrOutbound) ∧ i ≠ control.dtrInbound := by
    decide +kernel
  have hvalues := hall _ h.valid.dataBits _ h.valid.stopBits _ h.valid.flowOut _ h.valid.flowIn
  constructor
  · intro hsays
    have hstops := hsays.stopBits
    have houts := hsays.flowOut
    have hins := hsays.flowIn
    rw [hstop', hstop] at hstops
    rw [hout] at houts
    rw [hin] at hins
    obtain ⟨htwo, hhalf, hboth, hflowOut, hflowIn⟩ := hvalues.mp ⟨hstops, houts, hins⟩
    exact ⟨htwo, hhalf, hboth, hflowOut, hflowIn⟩
  · intro hplain
    obtain ⟨hstops, houts, hins⟩ :=
      hvalues.mpr ⟨hplain.two, hplain.oneAndAHalf, hplain.both, hplain.flowOut, hplain.flowIn⟩
    refine ⟨?_, ?_, ?_, ?_, ?_⟩
    · rw [hdata', hdata]
    · rw [hparity', hparity]
    · rw [hstop', hstop]
      exact hstops
    · rw [hout]
      exact houts
    · rw [hin]
      exact hins

/-! ### Rates -/

theorem baudFromTermios_code {t : Termios2} {allowBother : Bool} {baud : UInt32}
    (hcode : t.cCflag &&& baudMask = baudCode baud) (hne : baudCode baud ≠ bother) :
    baudFromTermios t allowBother = .ok baud := by
  have hfind := baudOfCode_baudCode hne
  unfold baudOfCode at hfind
  unfold baudFromTermios
  simp only
  rw [show cbaud ||| cbaudex = baudMask from rfl, hcode, if_neg fun h => hne h.2, hfind]

theorem Synced.baudFromTermios {s : State} (h : s.Synced) : baudFromTermios s.termios true =
    .ok s.shownBaud := by
  have hcode : s.termios.cCflag &&& baudMask = baudCode s.shownBaud := by
    rw [← h.cflag, and_masked (by decide), BitVec.and_or_distrib_right, (baudCode_flags _).2,
      h.valid.decode.2.2.2.2.1, BitVec.zero_or]
  by_cases hother : baudCode s.shownBaud = bother
  · unfold Serial.baudFromTermios
    simp only
    rw [show cbaud ||| cbaudex = baudMask from rfl, hcode, if_pos ⟨trivial, hother⟩, ← h.ispeed,
      ← h.ospeed, if_neg fun hne => hne.1 rfl, ite_self]
  · exact baudFromTermios_code hcode hother

/-- The rate that the first kind shows. -/
def legacyBaud (s : State) : UInt32 :=
  if s.hungUp then 0 else if baudCode s.serial.baud = bother then 38400 else s.serial.baud

theorem setTermiosBaud_eq (s : State) : baudCode s.legacyBaud ≠ bother ∧
    setTermiosBaud s.termios s =
    { s.termios with cCflag := s.termios.cCflag &&& ~~~baudMask ||| baudCode s.legacyBaud } := by
  have hcode : baudCode s.legacyBaud ≠ bother ∧ (if s.hungUp then b0
      else if baudCode s.serial.baud = bother then b38400 else baudCode s.serial.baud) =
        baudCode s.legacyBaud := by
    unfold legacyBaud
    split
    · decide
    · split
      next => decide
      next hother => exact ⟨hother, rfl⟩
  refine ⟨hcode.1, ?_⟩
  rw [← hcode.2]
  rfl

theorem baudFromTermios_legacy (s : State) :
    Serial.baudFromTermios (setTermiosBaud s.termios s) false = .ok s.legacyBaud := by
  obtain ⟨hne, heq⟩ := setTermiosBaud_eq s
  refine baudFromTermios_code ?_ hne
  rw [heq]
  simp only
  rw [and_masked (by decide), (baudCode_flags _).2]

end State

/-! ### Reading and writing back -/

/-- The two kinds of the structure. -/
inductive Form where
  | legacy
  | extended
deriving DecidableEq, Repr

namespace Form

def size : Form → Nat
  | legacy => Termios2.legacyLen
  | extended => Termios2.size

/-- A request to read the settings, with room for them. -/
def reading (form : Form) (arg : UInt64) (input : List UInt8) (room : Nat) : Ioctl where
  cmd := match form with
    | legacy => .TCGETS
    | extended => .TCGETS2
  compat := false
  arg
  input
  outSize := form.size + room

/-- A request to write them. -/
def writing (form : Form) (arg : UInt64) (bytes : List UInt8) (outSize : Nat) : Ioctl where
  cmd := match form with
    | legacy => .TCSETS
    | extended => .TCSETS2
  compat := false
  arg
  input := bytes
  outSize

/-- What is read. -/
def image (form : Form) (s : State) : List UInt8 :=
  match form with
  | legacy => (State.setTermiosBaud s.termios s).bytes.take Termios2.legacyLen
  | extended => s.termios.bytes

/-- The terminal settings can say what the line settings are: they are plain, no hang-up contradicts
DTR, and the first kind has a code for the rate. -/
structure Survives (form : Form) (s : State) : Prop where
  plain : State.Plain s.serial
  hungUp : s.hungUp = true → s.serial.dtr = false
  coded : form = legacy → s.hungUp = true ∨ ∃ flag, (flag, s.serial.baud) ∈ baudCodes

theorem length_image (form : Form) (s : State) : (form.image s).length = form.size := by
  cases form with
  | legacy => simp [image, size, Termios2.bytes, Termios2.legacyLen]
  | extended => simp [image, size, Termios2.bytes, Termios2.size]

end Form

namespace State

theorem keepsBaud_iff (s : State) (baud : UInt32) : s.KeepsBaud baud ↔
    (s.hungUp = true → s.serial.dtr = false) ∧ (s.hungUp = true ∨ s.serial.baud = baud) := by
  unfold KeepsBaud
  cases s.hungUp <;> simp

theorem legacyBaud_keeps (s : State) : (s.hungUp = true ∨ s.serial.baud = s.legacyBaud) ↔
    (s.hungUp = true ∨ ∃ flag, (flag, s.serial.baud) ∈ baudCodes) := by
  have hcode : ∀ entry ∈ baudCodes, baudCode entry.2 ≠ bother :=
    List.all_iff_forall_prop.mp (by decide)
  unfold legacyBaud
  cases s.hungUp with
  | true => simp
  | false =>
    simp only [Bool.false_eq_true, if_false, false_or]
    split
    next hother =>
      constructor
      · intro hbaud
        rw [hbaud]
        exact ⟨b38400, by decide⟩
      · rintro ⟨flag, hmem⟩
        exact absurd hother (hcode _ hmem)
    next hother => exact ⟨fun _ => ⟨_, (baudCode_cases _).resolve_left hother⟩, fun _ => rfl⟩

theorem applyTermios_image {s : State} (h : s.Synced) (form : Form) :
    ∃ s', s.applyTermios (form.image s) (form = .extended) false = (.ok (), s', []) ∧
      ((s'.events = s.events ∧ s'.serial = s.serial ∧ s'.termios = s.termios) ↔ form.Survives s) ∧
      s'.serial.parity = s.serial.parity ∧ s'.serial.dataBits = s.serial.dataBits ∧
      (form = .extended → s'.serial.baud = s.serial.baud) := by
  cases form with
  | legacy =>
    have hcopy : s.termios.copyPrefix ((setTermiosBaud s.termios s).bytes.take Termios2.legacyLen)
      Termios2.legacyLen =
        setTermiosBaud s.termios s := Termios2.copyPrefix_front rfl rfl
    have hcflag : (setTermiosBaud s.termios s).cCflag &&& ~~~baudMask =
        s.termios.cCflag &&& ~~~baudMask := by
      rw [(setTermiosBaud_eq s).2]
      simp only
      rw [BitVec.and_or_distrib_right, BitVec.and_assoc, BitVec.and_self, ← (baudCode_flags _).2,
        BitVec.and_assoc, show baudMask &&& ~~~baudMask =
        0#32 from by decide, BitVec.and_zero, BitVec.or_zero]
    have hbaud : s.legacyBaud = 0 ↔ s.hungUp = true := by
      have hvalid := h.valid.baud
      unfold legacyBaud
      split
      next hhung => exact ⟨fun _ => hhung, fun _ => rfl⟩
      next hhung =>
        refine ⟨fun hzero => ?_, fun hup => absurd hup hhung⟩
        split at hzero
        · cases hzero
        · exact absurd hzero hvalid
    obtain ⟨_, hserial, hparity, hdata, -⟩ := applyLocalTermios_rest h hbaud hcflag
      (show _ = setTermiosBaud s.termios s from rfl)
    refine ⟨s.applyLocalTermios (setTermiosBaud s.termios s) s.legacyBaud, ?_, ?_,
      (congrArg SerialState.parity hserial).trans hparity,
      (congrArg SerialState.dataBits hserial).trans hdata, by rintro ⟨⟩⟩
    · simp only [applyTermios, Form.image, reduceCtorEq, decide_false, Bool.false_eq_true, if_false,
        hcopy, baudFromTermios_legacy]
    · refine (applyLocalTermios_keeps h hbaud hcflag).trans ?_
      rw [keepsBaud_iff, h.says_iff, legacyBaud_keeps]
      constructor
      · rintro ⟨⟨hdtr, hrate⟩, hplain⟩
        exact ⟨hplain, hdtr, fun _ => hrate⟩
      · rintro ⟨hplain, hdtr, hrate⟩
        exact ⟨⟨hdtr, hrate rfl⟩, hplain⟩
  | extended =>
    have hbaud : s.shownBaud = 0 ↔ s.hungUp = true := by
      have hvalid := h.valid.baud
      unfold shownBaud
      split
      next hhung => exact ⟨fun _ => hhung, fun _ => rfl⟩
      next hhung => exact ⟨fun hzero => absurd hzero hvalid, fun hup => absurd hup hhung⟩
    obtain ⟨_, hserial, hparity, hdata, hrate⟩ := applyLocalTermios_rest h hbaud rfl
      (show _ = s.termios from rfl)
    refine ⟨s.applyLocalTermios s.termios s.shownBaud, ?_, ?_,
      (congrArg SerialState.parity hserial).trans hparity,
      (congrArg SerialState.dataBits hserial).trans hdata,
      fun _ => (congrArg SerialState.baud hserial).trans (hrate.trans ?_)⟩
    · simp only [applyTermios, Form.image, decide_true, Bool.false_eq_true, if_false, if_true,
        Termios2.copyPrefix_bytes, h.baudFromTermios]
    · refine (applyLocalTermios_keeps h hbaud rfl).trans ?_
      rw [keepsBaud_iff, h.says_iff]
      constructor
      · rintro ⟨⟨hdtr, -⟩, hplain⟩
        exact ⟨hplain, hdtr, nofun⟩
      · rintro ⟨hplain, hdtr, -⟩
        refine ⟨⟨hdtr, ?_⟩, hplain⟩
        unfold shownBaud
        split
        next hhung => exact .inl hhung
        next => exact .inr rfl
    · unfold shownBaud
      split <;> rfl

theorem ioctl_reading (s : State) (req : Request) (form : Form) (arg : UInt64) (input : List UInt8)
    (room : Nat) (reply : Reply) : s.ioctl req (form.reading arg input room) reply =
      (s, [.answer reply (.ok (form.image s))]) := by
  cases form <;> exact if_neg (Nat.not_lt.mpr (Nat.le_add_right _ _))

end State

namespace World

theorem find_applying {w : World} (h : w.Sound) (p : PendingIoctl) (hp : p.reply = w.asked.length) :
    (w.applying ++ [p]).find? (·.reply = w.asked.length) = some p := by
  have hnone : w.applying.find? (·.reply = w.asked.length) = none := by
    refine List.find?_eq_none.mpr fun q hq heq => ?_
    have hmem : q.reply ∈ List.range w.asked.length := h.once.mem_iff.mp
      (List.mem_append_right _ (List.mem_append_right _ (List.mem_map_of_mem hq)))
    rw [of_decide_eq_true heq] at hmem
    exact Nat.lt_irrefl _ (List.mem_range.mp hmem)
  rw [List.find?_append, hnone]
  simp [hp]

theorem step_writing {w : World} (h : w.Sound) (req : Request) (form : Form) (arg : UInt64)
    {bytes : List UInt8} (hlen : form.size ≤ bytes.length) (outSize : Nat) (s' : State)
    (happly : w.state.applyTermios bytes (form = .extended) false = (.ok (), s', [])) :
    let w' := (w.step (.ioctl req (form.writing arg bytes outSize))).step
      (.setTermios w.asked.length)
    w'.state = s'.notifyPolls.1 ∧
      w'.log = w.log ++ (s'.notifyPolls.2 ++ [.answer w.asked.length (.ok [])]) := by
  have hbegin : w.step (.ioctl req (form.writing arg bytes outSize)) = { w with
      asked := w.asked ++ [.ioctl req (form.writing arg bytes outSize)]
      applying := w.applying ++
        [⟨req.id, .setTermios bytes (form = .extended) false, w.asked.length⟩] } := by
    cases form with
    | legacy =>
      have hroom : ¬bytes.length < Termios2.legacyLen := Nat.not_lt.mpr hlen
      simp [step, World.ioctl, Form.writing, IoctlCmd.sets, State.beginSet, hroom]
    | extended =>
      have hroom : ¬bytes.length < Termios2.size := Nat.not_lt.mpr hlen
      simp [step, World.ioctl, Form.writing, IoctlCmd.sets, State.beginSet, hroom]
  have hfind := find_applying h ⟨req.id, .setTermios bytes (form = .extended) false, w.asked.length⟩
    rfl
  simp only [hbegin]
  have hset : w.state.setTermios bytes (form = .extended) false w.asked.length =
      (s'.notifyPolls.1, s'.notifyPolls.2 ++ [.answer w.asked.length (.ok [])]) := by
    rw [State.setTermios, happly]
    rfl
  rw [step, World.setTermios]
  simp only [hfind, World.leave, hset]
  exact ⟨trivial, trivial⟩

end World

/-- In every state that a run of the device reaches, reading the settings and writing back what was
read succeeds, and it tells the remote end nothing and leaves the settings as they are exactly when
the terminal settings can say what the line settings are. Parity, data size and, with the second
kind, the rate are always left as they are. -/
theorem write_back (updates : List SerialEvent) (ops : List Op) (form : Form) (req req' : Request)
    (arg arg' : UInt64) (input : List UInt8) (room outSize : Nat) :
    let w := World.run (updates.foldl SerialState.update .default) ops
    ∃ bytes, let w₁ := w.step (.ioctl req (form.reading arg input room))
      let w₂ := (w₁.step (.ioctl req' (form.writing arg' bytes outSize))).step
        (.setTermios w₁.asked.length)
      w₁.state = w.state ∧ w₁.log = w.log ++ [.answer w.asked.length (.ok bytes)] ∧
      (∃ notified, w₂.log = w₁.log ++ (notified ++ [.answer w₁.asked.length (.ok [])])) ∧
      ((w₂.state.events = w.state.events ∧ w₂.state.serial = w.state.serial ∧
        w₂.state.termios = w.state.termios) ↔
        form.Survives w.state) ∧
      w₂.state.serial.parity = w.state.serial.parity ∧ w₂.state.serial.dataBits =
        w.state.serial.dataBits ∧
      (form = .extended → w₂.state.serial.baud = w.state.serial.baud) := by
  intro w
  have hsync : w.state.Synced := World.synced_run (SerialState.valid_updates updates) ops
  have hsound : w.Sound := World.sound_run _ ops
  obtain ⟨s', happly, hkeeps⟩ := State.applyTermios_image hsync form
  have hread : w.step (.ioctl req (form.reading arg input room)) =
      w.ask (.ioctl req (form.reading arg input room))
        (w.state.ioctl req (form.reading arg input room)) := by
    cases form <;> rfl
  have hanswer := State.ioctl_reading w.state req form arg input room w.asked.length
  have hsound' := hsound.step (.ioctl req (form.reading arg input room))
  have hwritten := World.step_writing hsound' req' form arg'
    (Nat.le_of_eq (Form.length_image form w.state).symm) outSize s'
  rw [hread, World.ask, hanswer] at hwritten
  obtain ⟨hstate, hlog⟩ := hwritten happly
  refine ⟨form.image w.state, ?_⟩
  rw [hread, World.ask, hanswer]
  refine ⟨rfl, rfl, ⟨_, hlog⟩, ?_⟩
  rw [hstate]
  exact hkeeps

/-- The first kind turns a rate that has no code into 38400, and the second turns outbound hardware
flow control into hardware flow control in both directions. -/
theorem write_back_changes :
    (let w := World.run .default [.remoteUpdate (.baudRate 12345)]
      let w₁ := w.step (.ioctl ⟨1, false⟩ (Form.legacy.reading 0 [] 0))
      let w₂ := (w₁.step (.ioctl ⟨2, false⟩
        (Form.legacy.writing 0 (Form.legacy.image w.state) 0))).step (.setTermios 1)
      w₂.log = [.answer 0 (.ok (Form.legacy.image w.state)), .answer 1 (.ok [])] ∧ w.state.events =
        [] ∧
        w₂.state.events = [.baud 38400]) ∧
    (let w := World.run .default [.remoteUpdate (.control control.hardwareOutbound)]
      let w₁ := w.step (.ioctl ⟨1, false⟩ (Form.extended.reading 0 [] 0))
      let w₂ := (w₁.step (.ioctl ⟨2, false⟩
        (Form.extended.writing 0 (Form.extended.image w.state) 0))).step
        (.setTermios 1)
      w₂.log = [.answer 0 (.ok (Form.extended.image w.state)), .answer 1 (.ok [])] ∧
        w.state.events = [] ∧
        w₂.state.events = [.flowIn control.hardwareInbound]) := by
  decide +kernel

end Microtun.Serial
