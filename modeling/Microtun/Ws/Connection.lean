import Microtun.Lib.Writer
import Microtun.Ws

/-! Sending and receiving messages over a byte stream. -/

namespace Microtun.Ws

def maskChunkLen : Nat := 64

/-- The write half.  Only a client has masking keys. -/
structure Sender (σ : Type) where
  writer : σ
  role : Role
  mask : Option Masker
  masks : mask.isSome = role.masksOutput
  closed : Bool

namespace Sender

variable {σ K : Type}

def server (writer : σ) : Sender σ :=
  { writer, role := .server, mask := none, masks := rfl, closed := false }

def client (writer : σ) (masker : Masker) : Sender σ :=
  { writer, role := .client, mask := some masker, masks := rfl, closed := false }

end Sender

/-- What may fail and sends. -/
abbrev SendM (σ K : Type) := ExceptT (Error K) (StateM (Sender σ))

section

variable {σ K : Type} (w : Writer σ K)

/-- One step of the transport. -/
def transport (step : σ → Except K Unit × σ) : SendM σ K Unit := fun s =>
  match step s.writer with
  | (.ok (), writer) => (.ok (), { s with writer })
  | (.error kind, writer) => (.error (.io kind), { s with writer })

def writeAll (bytes : List UInt8) : SendM σ K Unit := transport fun io => w.writeAll io bytes

def flush : SendM σ K Unit := transport w.flush

/-- The masking key of the next frame. -/
def nextKey : SendM σ K (Option (Bytes 4)) := fun s =>
  match h : s.mask with
  | none => (.ok none, s)
  | some masker =>
    (.ok (some masker.key.1),
      { s with mask := some masker.key.2, masks := by rw [← s.masks, h]; rfl })

/-- The payload masked in chunks. -/
def writeMasked (key : Bytes 4) (offset : Nat) (payload : List UInt8) : SendM σ K Unit :=
  if payload = [] then pure ()
  else do
    let part := payload.take maskChunkLen
    writeAll w (applyMask key offset part).1
    writeMasked key (applyMask key offset part).2 (payload.drop maskChunkLen)
termination_by payload.length
decreasing_by
  have hlen := List.length_pos_iff.mpr ‹_›
  simp only [List.length_drop, maskChunkLen]
  omega

/-- The payload as the key says. -/
def writePayload (key : Option (Bytes 4)) (payload : List UInt8) : SendM σ K Unit :=
  match key with
  | none => writeAll w payload
  | some key => writeMasked w key 0 payload

def sendFrame (opcode : UInt8) (payload : List UInt8) : SendM σ K Unit := do
  let key ← nextKey
  writeAll w (encodeHeader true opcode payload.length key)
  writePayload w key payload
  flush w

/-- Send one complete text message. -/
def sendText (payload : List UInt8) : SendM σ K Unit := do
  if (← get).closed then throw .alreadyClosed else sendFrame w Opcode.text payload

def sendPing (payload : List UInt8) : SendM σ K Unit := do
  if payload.length > maxControlPayloadLen then throw .tooLarge
  else if (← get).closed then throw .alreadyClosed
  else sendFrame w Opcode.ping payload

/-- Send a close frame, after which nothing more is sent. -/
def close (code : CloseCode) (reason : List UInt8) : SendM σ K Unit := fun s =>
  if s.closed then (.ok (), s)
  else
    let payload := toBeBytes 2 code.code.toNat ++ reason.take (maxControlPayloadLen - 2)
    let (result, s) := (sendFrame w Opcode.close payload).run.run s
    (result, { s with closed := true })

def sendPong (payload : List UInt8) : SendM σ K Unit := do
  if (← get).closed then pure () else sendFrame w Opcode.pong payload

end

/-- A transport to read from: what is still to come, at most how much each read gives, and what ends
it, a failure or the end of the stream. -/
structure Reader (K : Type) where
  bytes : List UInt8
  sizes : Nat → Nat
  reads : Nat
  failure : Option K

/-- What ends the stream. -/
def Reader.ending {K : Type} (r : Reader K) : Error K :=
  match r.failure with
  | none => .eof
  | some kind => .io kind

/-- One read of at most `len` bytes.  A short read is normal. -/
def Reader.fill {K : Type} (r : Reader K) (len : Nat) : Except (Error K) (List UInt8) × Reader K :=
  if r.bytes = [] then (.error r.ending, r)
  else if len = 0 then (.error .eof, r)
  else
    let n := min len (max 1 (r.sizes r.reads))
    (.ok (r.bytes.take n), { r with bytes := r.bytes.drop n, reads := r.reads + 1 })

/-- Where the reader is inside the frame stream, with the header or control bytes read so far. -/
inductive Phase
  | header (read : List UInt8) (need : Nat)
  | payload (remaining : Nat) (key : Option (Bytes 4)) (offset : Nat) (fin : Bool)
  | control (opcode : UInt8) (read : List UInt8) (remaining : Nat) (key : Option (Bytes 4))

def Phase.start : Phase := .header [] 2

structure Connection (σ K : Type) where
  reader : Reader K
  sender : Sender σ
  phase : Phase
  filled : Nat
  continuing : Bool

/-- What one turn of the receiver comes to.  The caller's buffer is passed along. -/
inductive Turn (σ K : Type)
  | again (c : Connection σ K) (buf : List UInt8)
  | done (result : Except (Error K) Nat) (c : Connection σ K) (buf : List UInt8)

namespace Connection

variable {σ K : Type} (target : Target) (w : Writer σ K)

def wrap (reader : Reader K) (sender : Sender σ) : Connection σ K :=
  { reader, sender, phase := .start, filled := 0, continuing := false }

/-- Check a complete header and decide what comes next. -/
def beginFrame (c : Connection σ K) (header : List UInt8) (capacity : Nat) :
    Except (Error K) Phase := do
  let p ← decodePrefix (header.getD 0 0) (header.getD 1 0)
  let len ← decodeLen target p.len7 ((header.drop 2).take (extendedLenBytes p.len7))
  if p.masked != c.sender.role.requiresMaskedInput then throw .protocol
  else
    let key := if p.masked then some (Bytes.ofList 4 (header.drop (header.length - 4))) else none
    if isControl p.opcode then
      if !p.fin || len > maxControlPayloadLen then throw .protocol
      else return .control p.opcode [] len key
    else if p.opcode = Opcode.text ∧ c.continuing = true then throw .protocol
    else if p.opcode = Opcode.continuation ∧ c.continuing = false then throw .protocol
    else if p.opcode ≠ Opcode.text ∧ p.opcode ≠ Opcode.continuation then throw .unsupportedData
    else if len > capacity - c.filled then throw .tooLarge
    else return .payload len key 0 p.fin

/-- The header is as long as it was said to be, so far. -/
def headerRead (c : Connection σ K) (read : List UInt8) (need : Nat) (buf : List UInt8) :
    Turn σ K :=
  let next : Except (Error K) Phase := do
    -- the first two bytes say how long the rest of the header is
    if need = 2 then
      let p ← decodePrefix (read.getD 0 0) (read.getD 1 0)
      let full := 2 + extendedLenBytes p.len7 + if p.masked then 4 else 0
      if full > 2 then return .header read full else beginFrame target c read buf.length
    else beginFrame target c read buf.length
  match next with
  | .error e => .done (.error e) c buf
  | .ok phase => .again { c with phase } buf

/-- The control frame is complete. -/
def controlRead (c : Connection σ K) (opcode : UInt8) (payload buf : List UInt8) : Turn σ K :=
  let c := { c with phase := .start }
  if opcode = Opcode.ping then
    match (sendPong w payload).run.run c.sender with
    | (.ok (), sender) => .again { c with sender } buf
    | (.error e, sender) => .done (.error e) { c with sender } buf
  else if opcode = Opcode.pong then .again c buf
  else
    let code := if 2 ≤ payload.length then
        some (CloseCode.mk (UInt16.ofNat (ofBeBytes (payload.take 2))))
      else none
    -- the close is answered, and then reported
    let (_, sender) := (close w (code.getD .normal) []).run.run c.sender
    .done (.error (.closed code)) { c with sender } buf

/-- Bytes masked with the key of their frame, if it has one. -/
def unmask (key : Option (Bytes 4)) (offset : Nat) (data : List UInt8) : List UInt8 × Nat :=
  match key with
  | some key => applyMask key offset data
  | none => (data, 0)

/-- One pass of the loop. -/
def turn (c : Connection σ K) (buf : List UInt8) : Turn σ K :=
  match c.phase with
  | .header read need =>
    match c.reader.fill (need - read.length) with
    | (.error e, reader) => .done (.error e) { c with reader } buf
    | (.ok bytes, reader) =>
      let c := { c with reader }
      let read := read ++ bytes
      if read.length < need then .again { c with phase := .header read need } buf
      else headerRead target c read need buf
  | .payload remaining key offset fin =>
    if remaining = 0 then
      let c := { c with phase := .start }
      if fin then .done (.ok c.filled) { c with filled := 0, continuing := false } buf
      else .again { c with continuing := true } buf
    else
      match c.reader.fill remaining with
      | (.error e, reader) => .done (.error e) { c with reader } buf
      | (.ok bytes, reader) =>
        let (data, offset) := unmask key offset bytes
        .again
          { c with
            reader
            filled := c.filled + bytes.length
            phase := .payload (remaining - bytes.length) key offset fin }
          (setField buf ⟨c.filled, c.filled + bytes.length⟩ data)
  | .control opcode read remaining key =>
    if 0 < remaining then
      match c.reader.fill remaining with
      | (.error e, reader) => .done (.error e) { c with reader } buf
      | (.ok bytes, reader) =>
        .again
          { c with reader, phase := .control opcode (read ++ bytes) (remaining - bytes.length) key }
            buf
    else controlRead w c opcode (unmask key 0 read).1 buf

end Connection

/-! ### The loop ends -/

section

variable {σ K : Type} {target : Target} {w : Writer σ K}

/-- A read that succeeds takes some bytes, and no more than it was given room for. -/
structure Reader.Took (r : Reader K) (bytes : List UInt8) (r' : Reader K) : Prop where
  bytes : r.bytes = bytes ++ r'.bytes
  sizes : r'.sizes = r.sizes
  failure : r'.failure = r.failure

theorem Reader.Took.trans {r r' r'' : Reader K} {first second : List UInt8} (h : r.Took first r')
    (h' : r'.Took second r'') : r.Took (first ++ second) r'' :=
  ⟨by rw [h.bytes, h'.bytes, List.append_assoc], h'.sizes.trans h.sizes, h'.failure.trans h.failure⟩

theorem Reader.fill_ok {r r' : Reader K} {len : Nat} {bytes : List UInt8}
    (h : r.fill len = (.ok bytes, r')) :
    r.Took bytes r' ∧ 0 < bytes.length ∧ bytes.length ≤ len := by
  unfold fill at h
  by_cases hbytes : r.bytes = []
  · rw [if_pos hbytes] at h
    exact absurd (Prod.mk.inj h).1 (by simp)
  · have hpos := List.length_pos_iff.mpr hbytes
    rw [if_neg hbytes] at h
    by_cases hlen : len = 0
    · rw [if_pos hlen] at h
      exact absurd (Prod.mk.inj h).1 (by simp)
    · rw [if_neg hlen] at h
      obtain ⟨hok, rfl⟩ := Prod.mk.inj h
      obtain rfl := Except.ok.inj hok
      refine ⟨⟨(List.take_append_drop _ _).symm, rfl, rfl⟩, ?_, ?_⟩
      · rw [List.length_take]
        omega
      · rw [List.length_take]
        omega

/-- A header is read next, or what a header announced. -/
def Phase.rank : Phase → Nat
  | .header _ _ => 0
  | _ => 1

/-- What shrinks from turn to turn: the bytes to come, and whether a frame has begun. -/
def Connection.left (c : Connection σ K) : Nat := 2 * c.reader.bytes.length + c.phase.rank

theorem Phase.rank_le (phase : Phase) : phase.rank ≤ 1 := by
  cases phase
  · exact Nat.zero_le _
  · exact Nat.le_refl _
  · exact Nat.le_refl _

theorem headerRead_again {c c' : Connection σ K} {read : List UInt8} {need : Nat}
    {buf buf' : List UInt8} (h : Connection.headerRead target c read need buf = .again c' buf') :
    c'.reader = c.reader := by
  unfold Connection.headerRead at h
  dsimp only at h
  split at h
  · cases h
  · cases h
    rfl

theorem controlRead_again {c c' : Connection σ K} {opcode : UInt8} {payload buf buf' : List UInt8}
    (h : Connection.controlRead w c opcode payload buf = .again c' buf') :
    c'.reader = c.reader ∧ c'.phase = .start := by
  unfold Connection.controlRead at h
  dsimp only at h
  split at h
  · split at h
    · cases h
      exact ⟨rfl, rfl⟩
    · cases h
  · split at h
    · cases h
      exact ⟨rfl, rfl⟩
    · cases h

theorem left_turn {c c' : Connection σ K} {buf buf' : List UInt8}
    (h : c.turn target w buf = .again c' buf') : c'.left < c.left := by
  have hrank := c'.phase.rank_le
  unfold Connection.turn at h
  unfold Connection.left
  cases hphase : c.phase with
  | header read need =>
    simp only [hphase] at h
    split at h
    · cases h
    · next bytes reader hfill =>
      obtain ⟨htook, hpos, -⟩ := Reader.fill_ok hfill
      have hlength := congrArg List.length htook.bytes
      rw [List.length_append] at hlength
      have hreader : c'.reader = reader := by
        split at h
        · cases h
          rfl
        · exact headerRead_again h
      rw [hreader]
      omega
  | payload remaining key offset fin =>
    simp only [hphase] at h
    split at h
    · split at h
      · cases h
      · cases h
        exact Nat.lt_succ_self _
    · split at h
      · cases h
      · next bytes reader hfill =>
        obtain ⟨htook, hpos, -⟩ := Reader.fill_ok hfill
        have hlength := congrArg List.length htook.bytes
        rw [List.length_append] at hlength
        cases h
        simp only [Phase.rank]
        omega
  | control opcode read remaining key =>
    simp only [hphase] at h
    split at h
    · split at h
      · cases h
      · next bytes reader hfill =>
        obtain ⟨htook, hpos, -⟩ := Reader.fill_ok hfill
        have hlength := congrArg List.length htook.bytes
        rw [List.length_append] at hlength
        cases h
        simp only [Phase.rank]
        omega
    · obtain ⟨hreader, hstart⟩ := controlRead_again h
      rw [hreader, hstart]
      exact Nat.lt_succ_self _

end

namespace Connection

variable {σ K : Type} (target : Target) (w : Writer σ K)

def receive (c : Connection σ K) (buf : List UInt8) :
    Except (Error K) Nat × Connection σ K × List UInt8 :=
  match _h : c.turn target w buf with
  | .again c' buf' => receive c' buf'
  | .done result c buf => (result, c, buf)
termination_by c.left
decreasing_by exact left_turn _h

/-- Receive one complete text message into the buffer, and give its length.  The peer is told of an
error, unless the transport is gone or the connection was closed. -/
def recvText (c : Connection σ K) (buf : List UInt8) :
    Except (Error K) Nat × Connection σ K × List UInt8 :=
  match c.receive target w buf with
  | (.error e, c, buf) =>
    match e with
    | .eof | .io _ | .closed _ | .alreadyClosed => (.error e, c, buf)
    | _ => (.error e, { c with sender := ((close w e.closeCode []).run.run c.sender).2 }, buf)
  | (.ok len, c, buf) => (.ok len, c, buf)

end Connection

end Microtun.Ws
