import Microtun.Ws.Received

/-! Whatever a sender sends, the connection at the other end receives, and each ping is answered. -/

namespace Microtun.Ws

/-! ### One frame -/

section

variable {σ K : Type} {target : Target} {w : Writer σ K} {c : Connection σ K} {buf : List UInt8}

theorem beginFrame_encode {fin : Bool} {opcode : UInt8} {len capacity : Nat}
    {key : Option (Bytes 4)} (hopcode : opcode ∈ knownOpcodes) (hlen : len < 2 ^ 63)
    (hfits : len ≤ target.usizeMax) (hkey : key.isSome = c.sender.role.requiresMaskedInput) :
    Connection.beginFrame target c (encodeHeader fin opcode len key) capacity =
      if isControl opcode then
        if !fin || len > maxControlPayloadLen then .error .protocol
        else .ok (.control opcode [] len key)
      else if opcode = Opcode.text ∧ c.continuing = true then .error .protocol
      else if opcode = Opcode.continuation ∧ c.continuing = false then .error .protocol
      else if opcode ≠ Opcode.text ∧ opcode ≠ Opcode.continuation then .error .unsupportedData
      else if len > capacity - c.filled then .error .tooLarge
      else .ok (.payload len key 0 fin) := by
  have hdecoded := decodePrefix_encode (K := K) fin key.isSome hopcode len
  have hvalue := decodeLen_encode (K := K) hlen hfits
  have hlength := length_extended len
  rw [encodeHeader_eq]
  generalize (if fin then 0x80 ||| opcode else opcode) = first at *
  generalize ((if key.isSome then 0x80 else 0x00) ||| len7 len : UInt8) = second at *
  have hext : ((first :: second :: (extended len ++ keyBytes key)).drop 2).take
      (extendedLenBytes (len7 len)) = extended len := by
    rw [← hlength]
    exact List.take_left
  have hread : (if key.isSome = true then some (Bytes.ofList 4
      ((first :: second :: (extended len ++ keyBytes key)).drop
        ((first :: second :: (extended len ++ keyBytes key)).length - 4))) else none) = key := by
    cases key with
    | none => rfl
    | some k =>
      have hdrop : (first :: second :: (extended len ++ k.toList)).drop
          ((first :: second :: (extended len ++ k.toList)).length - 4) = k.toList := by
        have hlen4 : (first :: second :: (extended len ++ k.toList)).length - 4 =
            (first :: second :: extended len).length := by
          simp only [List.length_cons, List.length_append, Vector.length_toList]
          omega
        rw [hlen4, ← List.cons_append, ← List.cons_append, List.drop_left]
      simp only [keyBytes, hdrop, Option.isSome_some, if_true, Bytes.ofList_toList]
  unfold Connection.beginFrame
  rw [hkey] at hread
  simp only [List.getD_cons_zero, List.getD_cons_succ, hdecoded, bind, Except.bind, hext, hvalue,
    hkey, hread, bne_self_eq_false, Bool.false_eq_true, if_false]
  rfl

theorem Target.isizeMax_lt (target : Target) : target.isizeMax < 2 ^ 63 := by
  have hpow := Nat.pow_le_pow_right (Nat.zero_lt_two) (Nat.sub_le_sub_right target.le 1)
  have hpos := Nat.two_pow_pos (target.bits - 1)
  unfold isizeMax
  omega

theorem Target.isizeMax_le (target : Target) : target.isizeMax ≤ target.usizeMax := by
  have hpow := Nat.pow_le_pow_right (Nat.zero_lt_two) (Nat.sub_le target.bits 1)
  unfold isizeMax usizeMax
  omega

theorem Target.le_usizeMax (target : Target) : 65535 ≤ target.usizeMax := by
  have hpow := Nat.pow_le_pow_right (Nat.zero_lt_two) target.ge
  unfold usizeMax
  omega

/-- A connection between two messages, which has not closed. -/
structure Connection.Idle (c : Connection σ K) : Prop where
  phase : c.phase = .start
  filled : c.filled = 0
  continuing : c.continuing = false
  closed : c.sender.closed = false

theorem receive_text (hc : c.Idle) {key : Option (Bytes 4)}
    (hkey : key.isSome = c.sender.role.requiresMaskedInput) {payload rest : List UInt8}
    (hbuf : buf.length ≤ target.isizeMax) (hfits : payload.length ≤ buf.length)
    (hbytes : c.reader.bytes = frame Opcode.text payload key ++ rest) :
    ∃ reader buf', c.reader.Took (frame Opcode.text payload key) reader ∧ reader.bytes = rest ∧
      buf'.length = buf.length ∧ buf'.take payload.length = payload ∧
      c.receive target w buf = (.ok payload.length, { c with reader }, buf') := by
  have hlen : payload.length < 2 ^ 63 := by
    have := target.isizeMax_lt
    omega
  have husize : payload.length ≤ target.usizeMax := by
    have := target.isizeMax_le
    omega
  have hnext : Connection.beginFrame target c (encodeHeader true Opcode.text payload.length key)
      buf.length = .ok (.payload payload.length key 0 true) := by
    have hroom : ¬payload.length > buf.length - c.filled := by
      rw [hc.filled]
      omega
    rw [beginFrame_encode (by decide) hlen husize hkey, if_neg (by decide), if_neg, if_neg, if_neg,
      if_neg hroom]
    · exact fun h => h.1 rfl
    · exact fun h => absurd h.1 (by decide)
    · rw [hc.continuing]
      exact fun h => Bool.noConfusion h.2
  unfold frame at hbytes ⊢
  rw [List.append_assoc] at hbytes
  obtain ⟨reader, htook, hrest, hreceive⟩ :
      ∃ reader, c.reader.Took (encodeHeader true Opcode.text payload.length key) reader ∧
        reader.bytes = (Connection.unmask key 0 payload).1 ++ rest ∧ c.receive target w buf =
          ({ c with reader, phase := .payload payload.length key 0 true } :
            Connection σ K).receive target w buf :=
    receive_encodeHeader (by decide) hc.phase hbytes hnext
  have hmasked := length_unmask key 0 payload
  let begun : Connection σ K := { c with reader, phase := .payload payload.length key 0 true }
  have hphase : begun.phase =
      .payload (Connection.unmask key 0 payload).1.length key 0 true := by rw [hmasked]
  have hfilled : begun.filled = 0 := hc.filled
  have hroom : begun.filled + (Connection.unmask key 0 payload).1.length ≤ buf.length := by omega
  obtain ⟨reader', offset', buf', htook', hrest', hlength, htake, hreceive'⟩ :
      ∃ reader' offset' buf', reader.Took (Connection.unmask key 0 payload).1 reader' ∧
        reader'.bytes = rest ∧ buf'.length = buf.length ∧
        buf'.take (begun.filled + (Connection.unmask key 0 payload).1.length) =
          buf.take begun.filled ++
            (Connection.unmask key 0 (Connection.unmask key 0 payload).1).1 ∧
        begun.receive target w buf =
          ({ begun with
              reader := reader'
              filled := begun.filled + (Connection.unmask key 0 payload).1.length
              phase := .payload 0 key offset' true } : Connection σ K).receive target w buf' :=
    receive_payload hphase hroom hrest
  rw [hmasked, hfilled, Nat.zero_add, unmask_unmask, List.take_zero, List.nil_append] at htake
  rw [hmasked, hfilled, Nat.zero_add] at hreceive'
  refine ⟨reader', buf', htook.trans htook', hrest', hlength, htake, ?_⟩
  rw [hreceive, hreceive', receive_eq]
  unfold Connection.turn
  simp only [if_true, Turn.finish, begun]
  rw [← hc.phase, ← hc.filled, ← hc.continuing]

theorem receive_ping (hc : c.Idle) {key : Option (Bytes 4)}
    (hkey : key.isSome = c.sender.role.requiresMaskedInput) {payload rest : List UInt8}
    (hlen : payload.length ≤ maxControlPayloadLen) {sender : Sender σ}
    (hpong : (sendPong w payload).run.run c.sender = (.ok (), sender))
    (hbytes : c.reader.bytes = frame Opcode.ping payload key ++ rest) :
    ∃ reader, c.reader.Took (frame Opcode.ping payload key) reader ∧ reader.bytes = rest ∧
      c.receive target w buf =
        ({ c with reader, sender } : Connection σ K).receive target w buf := by
  have hmax : maxControlPayloadLen = 125 := rfl
  have husize : payload.length ≤ target.usizeMax := by
    have := target.le_usizeMax
    omega
  have hnext : Connection.beginFrame target c (encodeHeader true Opcode.ping payload.length key)
      buf.length = .ok (.control Opcode.ping [] payload.length key) := by
    rw [beginFrame_encode (by decide) (by omega) husize hkey, if_pos (by decide), if_neg]
    simp only [Bool.not_true, Bool.false_or, decide_eq_true_eq]
    omega
  unfold frame at hbytes ⊢
  rw [List.append_assoc] at hbytes
  obtain ⟨reader, htook, hrest, hreceive⟩ :
      ∃ reader, c.reader.Took (encodeHeader true Opcode.ping payload.length key) reader ∧
        reader.bytes = (Connection.unmask key 0 payload).1 ++ rest ∧ c.receive target w buf =
          ({ c with reader, phase := .control Opcode.ping [] payload.length key } :
            Connection σ K).receive target w buf :=
    receive_encodeHeader (by decide) hc.phase hbytes hnext
  let begun : Connection σ K :=
    { c with reader, phase := .control Opcode.ping [] payload.length key }
  have hphase : begun.phase =
      .control Opcode.ping [] (Connection.unmask key 0 payload).1.length key := by
    rw [length_unmask]
  obtain ⟨reader', htook', hrest', hreceive'⟩ :
      ∃ reader', reader.Took (Connection.unmask key 0 payload).1 reader' ∧ reader'.bytes = rest ∧
        begun.receive target w buf =
          ({ begun with
              reader := reader'
              phase := .control Opcode.ping ([] ++ (Connection.unmask key 0 payload).1) 0 key } :
            Connection σ K).receive target w buf := receive_control hphase hrest
  refine ⟨reader', htook.trans htook', hrest', ?_⟩
  rw [hreceive, hreceive', receive_eq]
  unfold Connection.turn Connection.controlRead
  simp only [List.nil_append, unmask_unmask, Nat.lt_irrefl, if_false, if_true, begun, hpong,
    Turn.finish]
  rw [← hc.phase]

end

/-! ### Sessions -/

/-- A call of the sending end. -/
inductive SendCall
  | text (payload : List UInt8)
  | ping (payload : List UInt8)
deriving DecidableEq, Repr

/-- The opcode and the payload of the call's frame. -/
def SendCall.message : SendCall → UInt8 × List UInt8
  | .text payload => (Opcode.text, payload)
  | .ping payload => (Opcode.ping, payload)

def SendCall.send {σ K : Type} (w : Writer σ K) : SendCall → SendM σ K Unit
  | .text payload => sendText w payload
  | .ping payload => sendPing w payload

def sendAll {σ K : Type} (w : Writer σ K) : List SendCall → SendM σ K Unit
  | [] => pure ()
  | call :: calls => do
    call.send w
    sendAll w calls

def texts : List SendCall → List (List UInt8)
  | [] => []
  | .text payload :: calls => payload :: texts calls
  | .ping _ :: calls => texts calls

def pings : List SendCall → List (List UInt8)
  | [] => []
  | .text _ :: calls => pings calls
  | .ping payload :: calls => payload :: pings calls

/-- Frames one after the other, each with the next key of a client. -/
def framesOf : Option Masker → List (UInt8 × List UInt8) → List UInt8
  | _, [] => []
  | mask, (opcode, payload) :: messages =>
    frame opcode payload (mask.map (·.key.1)) ++ framesOf (mask.map (·.key.2)) messages

section

variable {σ τ K L : Type} {w : Writer σ K} {s s' : Sender σ}

theorem send_ok {call : SendCall} (h : (call.send w).run.run s = (.ok (), s')) :
    s.SentFrame w call.message.1 call.message.2 s' ∧
      ∀ payload, call = .ping payload → payload.length ≤ maxControlPayloadLen := by
  cases call with
  | text payload =>
    obtain ⟨sender, s1, hget, h⟩ := run_bind_ok h
    cases hget
    split at h
    · cases h
    · exact ⟨sendFrame_ok h, nofun⟩
  | ping payload =>
    change (sendPing w payload).run.run s = _ at h
    unfold sendPing at h
    split at h
    · cases h
    · next hlen =>
      obtain ⟨sender, s1, hget, h⟩ := run_bind_ok h
      cases hget
      split at h
      · cases h
      · refine ⟨sendFrame_ok h, ?_⟩
        rintro payload' ⟨⟩
        exact Nat.le_of_not_lt hlen

/-- Calls that succeed have sent their frames, with one key after the other. -/
theorem sendAll_ok {calls : List SendCall} (h : (sendAll w calls).run.run s = (.ok (), s')) :
    w.written s'.writer = w.written s.writer ++ framesOf s.mask (calls.map SendCall.message) ∧
      ∀ payload ∈ pings calls, payload.length ≤ maxControlPayloadLen := by
  induction calls generalizing s with
  | nil =>
    cases h
    exact ⟨(List.append_nil _).symm, nofun⟩
  | cons call calls ih =>
    obtain ⟨_, s1, hcall, hrest⟩ := run_bind_ok h
    obtain ⟨hsent, hping⟩ := send_ok hcall
    obtain ⟨hwritten, hpings⟩ := ih hrest
    refine ⟨?_, ?_⟩
    · rw [hwritten, hsent.written, hsent.mask, List.append_assoc]
      rfl
    · intro payload hmem
      cases call with
      | text sent => exact hpings payload hmem
      | ping sent =>
        rcases List.mem_cons.mp hmem with rfl | hmem
        · exact hping payload rfl
        · exact hpings payload hmem

theorem sendAll_reliable {calls : List SendCall} (hw : w.Reliable) (hopen : s.closed = false)
    (hpings : ∀ payload ∈ pings calls, payload.length ≤ maxControlPayloadLen) :
    ∃ s', (sendAll w calls).run.run s = (.ok (), s') := by
  induction calls generalizing s with
  | nil => exact ⟨s, rfl⟩
  | cons call calls ih =>
    have hcall : ∃ s1, (call.send w).run.run s = (.ok (), s1) := by
      cases call with
      | text payload =>
        obtain ⟨s1, hsend⟩ := sendFrame_reliable hw s Opcode.text payload
        have heq : (sendText w payload).run.run s =
            (sendFrame w Opcode.text payload).run.run s := by
          change (if s.closed = true then (throw .alreadyClosed : SendM σ K Unit)
            else sendFrame w Opcode.text payload).run.run s = _
          rw [hopen]
          rfl
        exact ⟨s1, heq.trans hsend⟩
      | ping payload =>
        obtain ⟨s1, hsend⟩ := sendFrame_reliable hw s Opcode.ping payload
        have hlen : ¬payload.length > maxControlPayloadLen :=
          Nat.not_lt.mpr (hpings payload (List.mem_cons_self ..))
        have heq : (sendPing w payload).run.run s =
            (sendFrame w Opcode.ping payload).run.run s := by
          unfold sendPing
          rw [if_neg hlen]
          change (if s.closed = true then (throw .alreadyClosed : SendM σ K Unit)
            else sendFrame w Opcode.ping payload).run.run s = _
          rw [hopen]
          rfl
        exact ⟨s1, heq.trans hsend⟩
    obtain ⟨s1, hcall⟩ := hcall
    have hrest : ∀ payload ∈ pings calls, payload.length ≤ maxControlPayloadLen := by
      intro payload hmem
      cases call with
      | text sent => exact hpings payload hmem
      | ping sent => exact hpings payload (List.mem_cons_of_mem _ hmem)
    have hopen1 : s1.closed = false := (send_ok hcall).1.closed.trans hopen
    obtain ⟨s2, hrest⟩ := ih hopen1 hrest
    exact ⟨s2, (run_bind hcall).trans hrest⟩

/-- Some calls of `recvText` with one buffer, and the message or the error that each gives. -/
def recvTexts (target : Target) (w : Writer σ K) :
    Nat → Connection σ K → List UInt8 → List (Except (Error K) (List UInt8)) × Connection σ K
  | 0, c, _ => ([], c)
  | n + 1, c, buf =>
    let (result, c, buf) := c.recvText target w buf
    let (results, c) := recvTexts target w n c buf
    (result.map (fun len => buf.take len) :: results, c)

variable {target : Target} {c : Connection σ K} {buf : List UInt8}

theorem sendPong_reliable (hw : w.Reliable) (hopen : s.closed = false) (payload : List UInt8) :
    ∃ s', (sendPong w payload).run.run s = (.ok (), s') ∧ s.SentFrame w Opcode.pong payload s' := by
  obtain ⟨s', hsend⟩ := sendFrame_reliable hw s Opcode.pong payload
  have hpong : (sendPong w payload).run.run s = (sendFrame w Opcode.pong payload).run.run s := by
    change (if s.closed = true then (pure () : SendM σ K Unit)
      else sendFrame w Opcode.pong payload).run.run s = _
    rw [hopen]
    rfl
  exact ⟨s', hpong.trans hsend, sendFrame_ok hsend⟩

theorem recvText_ending (hphase : c.phase = .start) (hbytes : c.reader.bytes = []) :
    c.recvText target w buf = (.error c.reader.ending, c, buf) := by
  have hreceive : c.receive target w buf = (.error c.reader.ending, c, buf) := by
    rw [receive_eq]
    have hfill : ∀ len, c.reader.fill len = (.error c.reader.ending, c.reader) :=
      fun len => if_pos hbytes
    unfold Connection.turn
    rw [hphase]
    simp only [Phase.start, hfill, Turn.finish]
    rw [← Phase.start, ← hphase]
  unfold Connection.recvText
  rw [hreceive]
  unfold Reader.ending
  cases c.reader.failure with
  | none => rfl
  | some kind => rfl

theorem Reader.Took.ending {r r' : Reader K} {bytes : List UInt8} (h : r.Took bytes r') :
    r'.ending = r.ending := by
  unfold Reader.ending
  rw [h.failure]

theorem recvTexts_ok {n len : Nat} {c' : Connection σ K} {buf' : List UInt8}
    (h : c.receive target w buf = (.ok len, c', buf')) : recvTexts target w (n + 1) c buf =
      (.ok (buf'.take len) :: (recvTexts target w n c' buf').1,
        (recvTexts target w n c' buf').2) := by
  have hrecv : c.recvText target w buf = (.ok len, c', buf') := by
    unfold Connection.recvText
    rw [h]
  rw [recvTexts, hrecv]
  rfl

theorem recvTexts_congr {n : Nat} {c' : Connection σ K}
    (h : c.receive target w buf = c'.receive target w buf) :
    recvTexts target w (n + 1) c buf = recvTexts target w (n + 1) c' buf := by
  have hrecv : c.recvText target w buf = c'.recvText target w buf := by
    unfold Connection.recvText
    rw [h]
  rw [recvTexts, recvTexts, hrecv]

/-- The frames that a peer sent are received as its texts, and its pings are answered. -/
theorem recvTexts_framesOf (hw : w.Reliable) (hbuf : buf.length ≤ target.isizeMax)
    {calls : List SendCall} {mask : Option Masker} (hc : c.Idle)
    (hmask : mask.isSome = c.sender.role.requiresMaskedInput)
    (hpings : ∀ payload ∈ pings calls, payload.length ≤ maxControlPayloadLen)
    (hfits : ∀ payload ∈ texts calls, payload.length ≤ buf.length)
    (hbytes : c.reader.bytes = framesOf mask (calls.map SendCall.message)) :
    (recvTexts target w ((texts calls).length + 1) c buf).1 =
        (texts calls).map .ok ++ [.error c.reader.ending] ∧
      w.written (recvTexts target w ((texts calls).length + 1) c buf).2.sender.writer =
        w.written c.sender.writer ++
          framesOf c.sender.mask ((pings calls).map fun payload => (Opcode.pong, payload)) := by
  induction calls generalizing c buf mask with
  | nil =>
    have hend : c.recvText target w buf = (.error c.reader.ending, c, buf) :=
      recvText_ending hc.phase hbytes
    simp only [texts, pings, List.length_nil, recvTexts, hend]
    exact ⟨rfl, (List.append_nil _).symm⟩
  | cons call calls ih =>
    have hkey : (mask.map (·.key.1)).isSome = c.sender.role.requiresMaskedInput := by
      rw [Option.isSome_map, hmask]
    have hmask' : (mask.map (·.key.2)).isSome = c.sender.role.requiresMaskedInput := by
      rw [Option.isSome_map, hmask]
    simp only [List.map_cons, framesOf] at hbytes
    cases call with
    | text payload =>
      simp only [SendCall.message] at hbytes
      obtain ⟨reader, buf', htook, hrest, hlength, htake, hreceive⟩ :=
        receive_text (w := w) hc hkey hbuf (hfits payload (List.mem_cons_self ..)) hbytes
      have hnext : ({ c with reader } : Connection σ K).Idle :=
        ⟨hc.phase, hc.filled, hc.continuing, hc.closed⟩
      obtain ⟨hresults, hwritten⟩ := ih (hlength ▸ hbuf) hnext hmask' hpings
        (fun p hp => hlength ▸ hfits p (List.mem_cons_of_mem _ hp)) hrest
      rw [texts, pings, List.length_cons, recvTexts_ok hreceive, htake, hresults, htook.ending]
      exact ⟨rfl, hwritten⟩
    | ping payload =>
      simp only [SendCall.message] at hbytes
      have hlen : payload.length ≤ maxControlPayloadLen := hpings payload (List.mem_cons_self ..)
      obtain ⟨sender, hpong, hsent⟩ := sendPong_reliable hw hc.closed payload
      have hreceived : c.reader.bytes = frame Opcode.ping payload (mask.map (·.key.1)) ++
            framesOf (mask.map (·.key.2)) (calls.map SendCall.message) →
          ∃ reader, c.reader.Took (frame Opcode.ping payload (mask.map (·.key.1))) reader ∧
            reader.bytes = framesOf (mask.map (·.key.2)) (calls.map SendCall.message) ∧
            c.receive target w buf =
              ({ c with reader, sender } : Connection σ K).receive target w buf :=
        receive_ping hc hkey hlen hpong
      obtain ⟨reader, htook, hrest, hreceive⟩ := hreceived hbytes
      have hnext : ({ c with reader, sender } : Connection σ K).Idle :=
        ⟨hc.phase, hc.filled, hc.continuing, hsent.closed.trans hc.closed⟩
      rw [← hsent.role] at hmask'
      obtain ⟨hresults, hwritten⟩ := ih hbuf hnext hmask'
        (fun p hp => hpings p (List.mem_cons_of_mem _ hp)) hfits hrest
      rw [texts, pings, recvTexts_congr hreceive, hresults, hwritten, htook.ending, hsent.written,
        hsent.mask, List.append_assoc]
      exact ⟨rfl, rfl⟩

end

/-- What a sender sends in any calls is received by a connection of the other role, whatever the
keys are and however its reads cut the bytes: the results are the texts in their order and then the
end of the stream, and what it has written by then is one pong for each ping, with the same payload.
The calls succeed where the transport does. A header has the shortest of the three length forms, and
its length is read back. -/
theorem send_receive_round_trip {σ τ K L : Type} (target : Target) (w : Writer σ K) (v : Writer τ L)
    (hv : v.Reliable) (s : Sender σ) (calls : List SendCall) :
    (w.Reliable → s.closed = false →
      (∀ payload ∈ pings calls, payload.length ≤ maxControlPayloadLen) →
      ∃ s', (sendAll w calls).run.run s = (.ok (), s')) ∧
    (∀ s', (sendAll w calls).run.run s = (.ok (), s') →
      ∀ reader : Reader L, w.written s'.writer = w.written s.writer ++ reader.bytes →
      ∀ peer : Sender τ, peer.role ≠ s.role → peer.closed = false →
      ∀ buf : List UInt8, buf.length ≤ target.isizeMax →
        (∀ payload ∈ texts calls, payload.length ≤ buf.length) →
      let received := recvTexts target v ((texts calls).length + 1) (.wrap reader peer) buf
      received.1 = (texts calls).map .ok ++ [.error reader.ending] ∧
        v.written received.2.sender.writer = v.written peer.writer ++
          framesOf peer.mask ((pings calls).map fun payload => (Opcode.pong, payload))) ∧
    ∀ (fin : Bool) (opcode : UInt8) (len : Nat) (key : Option (Bytes 4)), opcode ∈ knownOpcodes →
      len ≤ target.isizeMax →
      ∃ (first second : UInt8) (ext : List UInt8) (p : Prefix),
        encodeHeader fin opcode len key = first :: second :: (ext ++ keyBytes key) ∧
          decodePrefix first second = (.ok p : Except (Error L) Prefix) ∧
          ext.length = extendedLenBytes p.len7 ∧
          decodeLen target p.len7 ext = (.ok len : Except (Error L) Nat) ∧
          ∀ (short : UInt8) (other : List UInt8), short.toNat < 128 →
            other.length = extendedLenBytes short →
            decodeLen target short other = (.ok len : Except (Error L) Nat) →
            ext.length ≤ other.length := by
  refine ⟨fun hw hopen hpings => sendAll_reliable hw hopen hpings, ?_, ?_⟩
  · intro s' hsent reader hwire peer hrole hopen buf hbuf hfits
    obtain ⟨hwritten, hpings⟩ := sendAll_ok hsent
    have hbytes : reader.bytes = framesOf s.mask (calls.map SendCall.message) :=
      List.append_cancel_left (hwire.symm.trans hwritten)
    have hmask : s.mask.isSome = peer.role.requiresMaskedInput := by
      rw [s.masks]
      cases hs : s.role <;> cases hp : peer.role
      · exact absurd (hp.trans hs.symm) hrole
      · rfl
      · rfl
      · exact absurd (hp.trans hs.symm) hrole
    exact recvTexts_framesOf hv hbuf ⟨rfl, rfl, rfl, hopen⟩ hmask hpings hfits hbytes
  · intro fin opcode len key hopcode hlen
    have h63 : len < 2 ^ 63 := Nat.lt_of_le_of_lt hlen target.isizeMax_lt
    have husize : len ≤ target.usizeMax := Nat.le_trans hlen target.isizeMax_le
    exact ⟨_, _, _, _, encodeHeader_eq fin opcode len key,
      decodePrefix_encode fin key.isSome hopcode len, length_extended len,
        decodeLen_encode h63 husize,
      fun short other hseven hother h => length_extended_le hseven hother h⟩

/-- A client's text and ping reach a server one byte at a time. -/
theorem send_receive_round_trip_bytes :
    let keys : Masker := { keys := fun n => Vector.replicate 4 (UInt8.ofNat n), drawn := 0 }
    let bytes : List UInt8 := [0x81, 0x82, 0, 0, 0, 0, 1, 2, 0x89, 0x81, 1, 1, 1, 1, 2]
    let reader : Reader Empty := { bytes, sizes := fun _ => 1, reads := 0, failure := none }
    let v := Writer.collecting Empty
    let received := recvTexts ⟨64, by decide, by decide⟩ v 2 (.wrap reader (.server [])) [0, 0, 0]
    ∃ s', (sendAll v [.text [1, 2], .ping [3]]).run.run (.client [] keys) = (.ok (), s') ∧
      s'.writer = bytes ∧ received.1 = [.ok [1, 2], .error .eof] ∧
      received.2.sender.writer = [0x8A, 1, 3] := by
  intro keys bytes reader v received
  have hv : v.Reliable := Writer.reliable_collecting Empty
  obtain ⟨hsends, hreceives, -⟩ := send_receive_round_trip
    ⟨64, by decide, by decide⟩ v v hv (.client [] keys) [.text [1, 2], .ping [3]]
  obtain ⟨s', hsent⟩ := hsends hv rfl (by decide)
  have hwriter : s'.writer = bytes := (sendAll_ok hsent).1.trans (by decide)
  exact ⟨s', hsent, hwriter, hreceives s' hsent reader hwriter (.server []) (by decide) rfl
    [0, 0, 0]
    (by decide) (by decide)⟩

end Microtun.Ws
