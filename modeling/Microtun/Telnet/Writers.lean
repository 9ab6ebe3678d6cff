import Microtun.Lib.Except
import Microtun.Lib.Writer
import Microtun.Telnet.Serial

/-! The three writers of the Telnet wire format. Each doubles the `IAC` bytes of what it carries,
and the two that fill a bounded buffer append a whole frame or nothing. -/

namespace Microtun.Telnet

/-- What a buffer of capacity `n` holds after `push`, which drops a byte that does not fit. -/
def pushByte (n : Nat) (out : List UInt8) (byte : UInt8) : List UInt8 :=
  if out.length < n then out ++ [byte] else out

/-- What it holds after `extend_from_slice`, which takes all of the bytes or none. -/
def extendFromSlice (n : Nat) (out bytes : List UInt8) : List UInt8 :=
  if out.length + bytes.length ≤ n then out ++ bytes else out

/-- The payload of a frame, byte by byte. -/
def pushEscaped (n : Nat) : (out payload : List UInt8) → List UInt8
  | out, [] => out
  | out, byte :: payload =>
    let out := pushByte n out byte
    let out := if byte = iac then pushByte n out iac else out
    pushEscaped n out payload

def escapedCount (payload : List UInt8) : Nat := (payload.filter fun byte => byte == iac).length

/-- Append a subnegotiation, or leave the buffer as it is when the frame does not fit. -/
def pushSubnegotiation (n : Nat) (out : List UInt8) (option : UInt8) (payload : List UInt8) :
    Bool × List UInt8 :=
  let required := 5 + payload.length + escapedCount payload
  if n - out.length < required then (false, out)
  else
    let out := extendFromSlice n out [iac, sb, option]
    let out := pushEscaped n out payload
    (true, extendFromSlice n out [iac, se])

namespace Serial

def Command.clientCode : Command → UInt8
  | .signature => Serial.signature
  | .setBaudRate => setBaudrate
  | .setDataSize => setDatasize
  | .setParity => Serial.setParity
  | .setStopSize => setStopsize
  | .setControl => Serial.setControl
  | .notifyLineState => notifyLinestate
  | .notifyModemState => notifyModemstate
  | .flowControlSuspend => flowcontrolSuspend
  | .flowControlResume => flowcontrolResume
  | .setLineStateMask => setLinestateMask
  | .setModemStateMask => setModemstateMask
  | .purgeData => Serial.purgeData

def Command.wireCode : Command → Origin → UInt8
  | .signature, .client => Serial.signature
  | .signature, .server => Serial.signature + serverOffset
  | command, .client => command.clientCode
  | command, .server => command.clientCode + serverOffset

def toBeBytes (value : UInt32) : List UInt8 :=
  [(value >>> 24).toUInt8, (value >>> 16).toUInt8, (value >>> 8).toUInt8, value.toUInt8]

def encodeValue (n : Nat) (out : List UInt8) (code : UInt8) (value : List UInt8) :
    Bool × List UInt8 :=
  -- IAC SB OPT code ... IAC SE
  let required := 6 + value.length + escapedCount value
  if n - out.length < required then (false, out)
  else
    let out := extendFromSlice n out [iac, sb, optComPort, code]
    let out := pushEscaped n out value
    (true, extendFromSlice n out [iac, se])

/-- Append a message as a subnegotiation, or leave the buffer as it is when it does not fit. -/
def encode (n : Nat) (message : Message) (out : List UInt8) : Bool × List UInt8 :=
  let code := message.command.wireCode message.origin
  match message with
  | .signature _ text => encodeValue n out code text
  | .setBaudRate _ value => encodeValue n out code (toBeBytes value)
  | .flowControlSuspend _ | .flowControlResume _ => encodeValue n out code []
  | .setDataSize _ value | .setParity _ value | .setStopSize _ value | .setControl _ value
  | .notifyLineState _ value | .notifyModemState _ value | .setLineStateMask _ value
  | .setModemStateMask _ value | .purgeData _ value => encodeValue n out code [value]

end Serial

section

variable {σ E : Type}

/-- Write the bytes from `start` to `stop`, if there are any. -/
def writePart (w : Writer σ E) (io : σ) (bytes : List UInt8) (start stop : Nat) : Except E σ :=
  if start < stop then w.put io ((bytes.take stop).drop start) else .ok io

/-- The loop over the bytes from `index` on.  Those from `start` on are still to be written. -/
def writeEscapes (w : Writer σ E) (bytes : List UInt8) :
    (index start : Nat) → List UInt8 → σ → Except E (σ × Nat)
  | _, start, [], io => .ok (io, start)
  | index, start, byte :: rest, io =>
    if byte ≠ iac then writeEscapes w bytes (index + 1) start rest io
    else do
      let io ← writePart w io bytes start index
      let io ← w.put io [iac, iac]
      writeEscapes w bytes (index + 1) (index + 1) rest io

/-- Write application data. -/
def writeDataUnflushed (w : Writer σ E) (io : σ) (bytes : List UInt8) : Except E σ := do
  let (io, start) ← writeEscapes w bytes 0 0 bytes io
  writePart w io bytes start bytes.length

end

/-! ### What they write -/

/-- Every `IAC` is doubled. -/
def escape (bytes : List UInt8) : List UInt8 :=
  bytes.flatMap fun byte => if byte = iac then [iac, iac] else [byte]

@[simp] theorem escape_nil : escape [] = [] := rfl

theorem escape_cons_iac (bytes : List UInt8) : escape (iac :: bytes) = iac :: iac :: escape bytes :=
    rfl

theorem escape_cons {byte : UInt8} (h : byte ≠ iac) (bytes : List UInt8) :
    escape (byte :: bytes) = byte :: escape bytes := by
  rw [escape, List.flatMap_cons, if_neg h]
  rfl

theorem length_escape (bytes : List UInt8) :
    (escape bytes).length = bytes.length + escapedCount bytes := by
  induction bytes with
  | nil => rfl
  | cons byte bytes ih =>
    unfold escapedCount at ih ⊢
    by_cases h : byte = iac
    · subst h
      rw [escape_cons_iac, List.filter_cons_of_pos (by simp)]
      simp only [List.length_cons, ih]
      omega
    · rw [escape_cons h, List.filter_cons_of_neg (by simpa using h)]
      simp only [List.length_cons, ih]
      omega

section

variable {n : Nat} {out bytes : List UInt8}

theorem pushByte_of_room {byte : UInt8} (h : out.length < n) : pushByte n out byte = out ++
    [byte] :=
  if_pos h

theorem extendFromSlice_of_room (h : out.length + bytes.length ≤ n) :
    extendFromSlice n out bytes = out ++ bytes := if_pos h

theorem pushEscaped_of_room (h : out.length + (escape bytes).length ≤ n) :
    pushEscaped n out bytes = out ++ escape bytes := by
  induction bytes generalizing out with
  | nil => rw [pushEscaped, escape_nil, List.append_nil]
  | cons byte bytes ih =>
    by_cases hbyte : byte = iac
    · subst hbyte
      rw [escape_cons_iac] at h ⊢
      simp only [List.length_cons] at h
      have hfirst : pushByte n out iac = out ++ [iac] := pushByte_of_room (by omega)
      have hsecond : pushByte n (out ++ [iac]) iac = out ++ [iac] ++ [iac] := by
        apply pushByte_of_room
        simp only [List.length_append, List.length_singleton]
        omega
      have hrest : pushEscaped n (out ++ [iac] ++ [iac]) bytes =
          out ++ [iac] ++ [iac] ++ escape bytes := by
        apply ih
        simp only [List.length_append, List.length_singleton]
        omega
      simp only [pushEscaped, hfirst, if_true, hsecond, hrest]
      simp only [List.append_assoc, List.cons_append, List.nil_append]
    · rw [escape_cons hbyte] at h ⊢
      simp only [List.length_cons] at h
      have hfirst : pushByte n out byte = out ++ [byte] := pushByte_of_room (by omega)
      have hrest : pushEscaped n (out ++ [byte]) bytes = out ++ [byte] ++ escape bytes := by
        apply ih
        simp only [List.length_append, List.length_singleton]
        omega
      simp only [pushEscaped, hfirst, if_neg hbyte, hrest]
      simp only [List.append_assoc, List.singleton_append]

/-- A subnegotiation on the wire. -/
def frame (option : UInt8) (payload : List UInt8) : List UInt8 :=
  [iac, sb, option] ++ escape payload ++ [iac, se]

theorem length_frame (option : UInt8) (payload : List UInt8) :
    (frame option payload).length = 5 + payload.length + escapedCount payload := by
  simp only [frame, List.length_append, List.length_cons, List.length_nil, length_escape]
  omega

/-- A frame that begins with `first` and ends with `IAC SE`, in a buffer that has the room. -/
theorem frame_of_room {first payload : List UInt8}
    (h : out.length + (first ++ escape payload ++ [iac, se]).length ≤ n) :
    extendFromSlice n (pushEscaped n (extendFromSlice n out first) payload) [iac, se] =
      out ++ (first ++ escape payload ++ [iac, se]) := by
  simp only [List.length_append] at h
  have hfirst : extendFromSlice n out first = out ++ first := extendFromSlice_of_room (by omega)
  have hpayload : pushEscaped n (out ++ first) payload = out ++ first ++ escape payload := by
    apply pushEscaped_of_room
    simp only [List.length_append]
    omega
  rw [hfirst, hpayload, extendFromSlice_of_room]
  · simp only [List.append_assoc]
  · simp only [List.length_append]
    omega

theorem pushSubnegotiation_eq (n : Nat) (out : List UInt8) (option : UInt8) (payload : List UInt8) :
    pushSubnegotiation n out option payload =
      if out.length + (frame option payload).length ≤ n then (true, out ++ frame option payload)
      else (false, out) := by
  have hlength := length_frame option payload
  unfold pushSubnegotiation
  by_cases hroom : out.length + (frame option payload).length ≤ n
  · rw [if_pos hroom, if_neg (by omega)]
    exact congrArg (Prod.mk true) (frame_of_room hroom)
  · rw [if_neg hroom, if_pos (by omega)]

end

namespace Serial

/-- What a message carries after its code. -/
def Message.value : Message → List UInt8
  | .signature _ text => text
  | .setBaudRate _ value => toBeBytes value
  | .flowControlSuspend _ | .flowControlResume _ => []
  | .setDataSize _ value | .setParity _ value | .setStopSize _ value | .setControl _ value
  | .notifyLineState _ value | .notifyModemState _ value | .setLineStateMask _ value
  | .setModemStateMask _ value | .purgeData _ value => [value]

/-- The body of the message's subnegotiation. -/
def Message.payload (message : Message) : List UInt8 :=
  message.command.wireCode message.origin :: message.value

theorem encode_eq_encodeValue (n : Nat) (message : Message) (out : List UInt8) :
    encode n message out =
      encodeValue n out (message.command.wireCode message.origin) message.value := by
  cases message <;> rfl

theorem wireCode_ne_iac (command : Command) (origin : Origin) : command.wireCode origin ≠ iac := by
  cases command <;> cases origin <;> decide

theorem encode_eq (n : Nat) (message : Message) (out : List UInt8) :
    encode n message out =
      if out.length + (frame optComPort message.payload).length ≤ n then
        (true, out ++ frame optComPort message.payload)
      else (false, out) := by
  have hframe : frame optComPort message.payload =
      [iac, sb, optComPort, message.command.wireCode message.origin] ++ escape message.value ++
        [iac, se] := by
    rw [frame, Message.payload, escape_cons (wireCode_ne_iac _ _)]
    rfl
  have hlength := length_escape message.value
  rw [encode_eq_encodeValue, encodeValue, hframe]
  simp only [List.length_append, List.length_cons, List.length_nil]
  by_cases hroom : out.length + (0 + 1 + 1 + 1 + 1 + (escape message.value).length + (0 + 1 + 1)) ≤
    n
  · rw [if_pos hroom, if_neg (by omega)]
    refine congrArg (Prod.mk true) (frame_of_room ?_)
    simpa only [List.length_append, List.length_cons, List.length_nil] using hroom
  · rw [if_neg hroom, if_pos (by omega)]

theorem fromBeBytes_toBeBytes (value : UInt32) :
    fromBeBytes (value >>> 24).toUInt8 (value >>> 16).toUInt8 (value >>> 8).toUInt8 value.toUInt8 =
      value := by
  have h24 : (24 : UInt32).toBitVec % 32 = 24#32 := by decide
  have h16 : (16 : UInt32).toBitVec % 32 = 16#32 := by decide
  have h8 : (8 : UInt32).toBitVec % 32 = 8#32 := by decide
  apply UInt32.eq_of_toBitVec_eq
  apply BitVec.eq_of_getLsbD_eq
  intro i hi
  simp only [fromBeBytes, UInt32.toBitVec_or, UInt32.toBitVec_shiftLeft, UInt32.toBitVec_shiftRight,
    UInt8.toBitVec_toUInt32, UInt32.toBitVec_toUInt8, h24, h16, h8, BitVec.shiftLeft_eq',
    BitVec.ushiftRight_eq', BitVec.getLsbD_or, BitVec.getLsbD_shiftLeft, BitVec.getLsbD_setWidth,
    BitVec.getLsbD_ushiftRight, hi, decide_true]
  -- each bit stands in one of the four bytes
  grind

theorem originAndCode_wireCode (command : Command) (origin : Origin) :
    originAndCode (command.wireCode origin) = (origin, command.clientCode) := by
  cases command <;> cases origin <;> decide

theorem commandFromCode_clientCode (command : Command) :
    commandFromCode command.clientCode = some command := by
  cases command <;> decide

theorem decodeFrom_payload (message : Message) :
    decodeFrom message.origin message.payload = .ok message := by
  have hcode := originAndCode_wireCode message.command message.origin
  have hcommand := commandFromCode_clientCode message.command
  unfold decodeFrom Message.payload decode
  simp only [hcode]
  cases message with
  | setBaudRate origin value =>
    simp only [Message.command, Message.origin, Message.value, toBeBytes] at hcommand ⊢
    rw [hcommand]
    simp only [fromBeBytes_toBeBytes]
    rfl
  | _ =>
    simp only [Message.command, Message.origin, Message.value] at hcommand ⊢
    rw [hcommand]
    rfl

end Serial

section

variable {σ E : Type} {w : Writer σ E}

theorem written_writePart {bytes : List UInt8} {start stop : Nat} {io io' : σ}
    (h : writePart w io bytes start stop = .ok io') :
    w.written io' = w.written io ++ (bytes.take stop).drop start := by
  unfold writePart at h
  by_cases hpart : start < stop
  · rw [if_pos hpart] at h
    exact Writer.written_put h
  · rw [if_neg hpart] at h
    cases h
    rw [List.drop_eq_nil_of_le (by rw [List.length_take]; omega), List.append_nil]

/-- The loop over `rest`, with the plain bytes `plain` before it still to be written: what is
written and what the loop leaves are the escape of it all. -/
theorem written_writeEscapes {before plain rest : List UInt8} (hplain : iac ∉ plain) {io io' : σ}
    {stop : Nat} (h : writeEscapes w (before ++ plain ++ rest) (before.length + plain.length)
      before.length rest io = .ok (io', stop)) :
    w.written io' ++ (before ++ plain ++ rest).drop stop =
      w.written io ++ (plain ++ escape rest) := by
  induction rest generalizing before plain io with
  | nil =>
    cases h
    rw [List.append_nil, List.drop_left, escape_nil, List.append_nil]
  | cons byte rest ih =>
    by_cases hbyte : byte = iac
    · subst hbyte
      have hsplit : before ++ plain ++ iac :: rest = before ++ plain ++ [iac] ++ [] ++ rest := by
        simp only [List.append_assoc, List.singleton_append, List.append_nil]
      rw [writeEscapes, if_neg (by simp)] at h
      obtain ⟨io1, hpart, h⟩ := bind_eq_ok.mp h
      obtain ⟨io2, hdoubled, h⟩ := bind_eq_ok.mp h
      have hbefore := written_writePart hpart
      rw [List.take_left' (List.length_append ..), List.drop_left] at hbefore
      have hrest : w.written io' ++ (before ++ plain ++ [iac] ++ [] ++ rest).drop stop =
          w.written io2 ++ ([] ++ escape rest) := by
        apply ih List.not_mem_nil
        rw [← hsplit]
        simpa only [List.length_append, List.length_singleton, List.length_nil,
          Nat.add_zero] using h
      rw [hsplit, hrest, Writer.written_put hdoubled, hbefore, escape_cons_iac]
      simp only [List.append_assoc, List.cons_append, List.nil_append]
    · have hsplit : before ++ plain ++ byte :: rest = before ++ (plain ++ [byte]) ++ rest := by
        simp only [List.append_assoc, List.singleton_append]
      have hnext : iac ∉ plain ++ [byte] := by
        simp only [List.mem_append, List.mem_singleton, not_or]
        exact ⟨hplain, Ne.symm hbyte⟩
      rw [writeEscapes, if_pos hbyte, hsplit] at h
      have hrest : w.written io' ++ (before ++ (plain ++ [byte]) ++ rest).drop stop =
          w.written io ++ (plain ++ [byte] ++ escape rest) := by
        apply ih hnext
        rw [List.length_append, List.length_singleton, ← Nat.add_assoc]
        exact h
      rw [hsplit, hrest, escape_cons hbyte, List.append_assoc plain, List.singleton_append]

theorem written_writeDataUnflushed {bytes : List UInt8} {io io' : σ}
    (h : writeDataUnflushed w io bytes = .ok io') :
    w.written io' = w.written io ++ escape bytes := by
  unfold writeDataUnflushed at h
  obtain ⟨⟨io1, stop⟩, hloop, h⟩ := bind_eq_ok.mp h
  have hloop : w.written io1 ++ ([] ++ [] ++ bytes).drop stop =
      w.written io ++ ([] ++ escape bytes) := written_writeEscapes List.not_mem_nil hloop
  have hpart := written_writePart h
  simp only [List.nil_append] at hloop
  rw [List.take_length] at hpart
  rw [hpart, hloop]

theorem writePart_reliable (hw : w.Reliable) (io : σ) (bytes : List UInt8) (start stop : Nat) :
    ∃ io', writePart w io bytes start stop = .ok io' := by
  unfold writePart
  split
  · exact ⟨_, w.put_reliable hw io _⟩
  · exact ⟨io, rfl⟩

theorem writeEscapes_reliable (hw : w.Reliable) (bytes rest : List UInt8) (index start : Nat)
    (io : σ) : ∃ r, writeEscapes w bytes index start rest io = .ok r := by
  induction rest generalizing index start io with
  | nil => exact ⟨_, rfl⟩
  | cons byte rest ih =>
    rw [writeEscapes]
    split
    · exact ih (index + 1) start io
    · obtain ⟨io1, hpart⟩ := writePart_reliable hw io bytes start index
      obtain ⟨r, hrest⟩ := ih (index + 1) (index + 1) (w.writeAll io1 [iac, iac]).2
      refine ⟨r, ?_⟩
      rw [hpart]
      show (w.put io1 [iac, iac] >>= _) = _
      rw [w.put_reliable hw]
      exact hrest

theorem writeDataUnflushed_reliable (hw : w.Reliable) (io : σ) (bytes : List UInt8) :
    ∃ io', writeDataUnflushed w io bytes = .ok io' := by
  obtain ⟨⟨io1, stop⟩, hloop⟩ := writeEscapes_reliable hw bytes bytes 0 0 io
  rw [writeDataUnflushed, hloop]
  exact writePart_reliable hw io1 bytes stop bytes.length

end

end Microtun.Telnet
