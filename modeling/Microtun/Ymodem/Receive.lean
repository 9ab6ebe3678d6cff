import Microtun.Ymodem.Packet

/-! The receiver of YMODEM-1K, `receive.rs`. -/

namespace Microtun.Ymodem

open Awaiting

inductive Error (ε ω μ : Type) where
  | io (e : ε)
  | timeout
  | endOfStream
  | cancelled
  | protocol
  | output (e : ω)
  | metadata (e : μ)

def ReadByteError.toError {ε ω μ : Type} : ReadByteError ε → Error ε ω μ
  | .io e => .io e
  | .timeout => .timeout
  | .eof => .endOfStream

variable {ε ω μ : Type}

/-- The caller's side is its output, which may fail after some of the bytes. -/
abbrev Receiving (ε ω μ α : Type) :=
  Task (State (List UInt8)) (Answer ε (Option (Nat × ω))) (Error ε ω μ) α

/-- `write_all` of the output. -/
def writeOutput (bytes : List UInt8) :
    Program (State (List UInt8)) (Answer ε (Option (Nat × ω))) (Except ω Unit) := do
  match ← answer Answer.side with
  | none =>
    update fun s => { s with side := s.side ++ bytes }
    return .ok ()
  | some (n, e) =>
    update fun s => { s with side := s.side ++ bytes.take n }
    return .error e

def flushOutput : Program (State (List UInt8)) (Answer ε (Option (Nat × ω))) (Except ω Unit) := do
  match ← answer Answer.side with
  | none => return .ok ()
  | some (_, e) => return .error e

def cancel : Program (State (List UInt8)) (Answer ε (Option (Nat × ω))) (Except ε Unit) := do
  match ← writeAll [can, can] with
  | .ok () => flush
  | .error e => return .error e

/-- Cancel the transfer on the other side, too. -/
def abort {α : Type} (e : Error ε ω μ) : Receiving ε ω μ α := do
  mapErr .io cancel
  throw e

/-- Fill the rest of a frame. -/
def readBlock : (missing : Nat) → (frame : List UInt8) →
    Program (State (List UInt8)) (Answer ε (Option (Nat × ω)))
      (Except (ReadByteError ε) (List UInt8))
  | 0, frame => return .ok frame
  | missing + 1, frame => do
    match ← readByte with
    | .ok b => readBlock missing (frame ++ [b])
    | .error e => return .error e

/-- Ask for block 0 and wait, a number of times. -/
def requestControl : Nat → Receiving ε ω μ UInt8
  | 0 => throw .timeout
  | n + 1 => do
    mapErr .io (writeAll [crcRequest])
    mapErr .io flush
    match ← Awaiting.attempt readByte with
    | .ok b => return b
    | .error .timeout => requestControl n
    | .error .eof => throw .endOfStream
    | .error (.io e) => throw (.io e)

def firstControl (config : Config) : Receiving ε ω μ UInt8 :=
  requestControl config.startRetries.toNat

def nextByte : Receiving ε ω μ UInt8 := mapErr ReadByteError.toError readByte

/-- Count what is not accepted, and ask for it again. -/
def retry (config : Config) (retries : UInt8) : Receiving ε ω μ UInt8 := do
  if config.maxRetries < saturatingSucc retries then abort .protocol
  else
    mapErr .io (writeAll [nak])
    mapErr .io flush
    return saturatingSucc retries

/-- The data of a block. -/
def blockData (frame : List UInt8) (size : Nat) : List UInt8 := (frame.drop 2).take size

section

variable [Crc16] (config : Config) (usizeMax : Nat) (onMetadata : Metadata → Except μ Unit)

/-- Wait for block 0: the control byte and the retries so far. -/
def headerPass : UInt8 × UInt8 → Receiving ε ω μ (Nat ⊕ UInt8 × UInt8)
  | (control, retries) =>
    if control = can then throw .cancelled
    else
      match blockSize control with
      | none => do
        let retries ← retry config retries
        return .inr (← nextByte, retries)
      | some size => do
        let frame ← mapErr ReadByteError.toError (readBlock (size + 4) [])
        if validFrame frame size = false ∨ frame.getD 0 0 ≠ 0 then
          let retries ← retry config retries
          return .inr (← nextByte, retries)
        else
          match parseMetadata usizeMax (blockData frame size) with
          | none => abort .protocol
          | some metadata =>
            match onMetadata metadata with
            | .error e => abort (.metadata e)
            | .ok () =>
              mapErr .io (writeAll [ack])
              mapErr .io (writeAll [crcRequest])
              mapErr .io flush
              return .inl metadata.fileSize

structure DataState where
  control : UInt8
  expectedBlock : UInt8
  written : Nat
  retries : UInt8

/-- Wait for the next block of data, or for the end of them. -/
def dataPass (metadata : Nat) (d : DataState) : Receiving ε ω μ (Unit ⊕ DataState) :=
  if d.control = can then throw .cancelled
  else if d.control = eot then do
    if d.written ≠ metadata then abort .protocol
    else
      match ← Awaiting.attempt flushOutput with
      | .error e => abort (.output e)
      | .ok () =>
        mapErr .io (writeAll [nak])
        mapErr .io flush
        let second ← nextByte
        if second ≠ eot then abort .protocol
        else
          mapErr .io (writeAll [ack])
          mapErr .io (writeAll [crcRequest])
          mapErr .io flush
          return .inl ()
  else
    match blockSize d.control with
    | none => do
      let retries ← retry config d.retries
      return .inr { d with control := ← nextByte, retries }
    | some size => do
      let frame ← mapErr ReadByteError.toError (readBlock (size + 4) [])
      let block := frame.getD 0 0
      if validFrame frame size = false then
        let retries ← retry config d.retries
        return .inr { d with control := ← nextByte, retries }
      else if block = d.expectedBlock then
        if metadata ≤ d.written then abort .protocol
        else
          let remaining := metadata - d.written
          let count := min remaining size
          match ← Awaiting.attempt (writeOutput ((frame.drop 2).take count)) with
          | .error e => abort (.output e)
          | .ok () =>
            mapErr .io (writeAll [ack])
            mapErr .io flush
            return .inr
              { control := ← nextByte
                expectedBlock := d.expectedBlock + 1
                written := d.written + count
                retries := 0 }
      else if block = d.expectedBlock - 1 then
        mapErr .io (writeAll [ack])
        mapErr .io flush
        return .inr { d with control := ← nextByte }
      else
        let retries ← retry config d.retries
        return .inr { d with control := ← nextByte, retries }

/-- Wait for the empty block 0 at the end of the batch. -/
def closingPass : UInt8 × UInt8 → Receiving ε ω μ (Unit ⊕ UInt8 × UInt8)
  | (control, retries) =>
    if control = can then throw .cancelled
    else
      match blockSize control with
      | none => do
        let retries ← retry config retries
        return .inr (← nextByte, retries)
      | some size => do
        let frame ← mapErr ReadByteError.toError (readBlock (size + 4) [])
        if validFrame frame size = true ∧ frame.getD 0 0 = 0 ∧
          isEmptyHeader (blockData frame size) = true then
          mapErr .io (writeAll [ack])
          mapErr .io flush
          return .inl ()
        else
          let retries ← retry config retries
          return .inr (← nextByte, retries)

/-- `receive_with` -/
def receiveWith : Receiving ε ω μ Transfer := do
  let first ← firstControl config
  let metadata ← taskLoop (headerPass config usizeMax onMetadata) (first, 0)
  taskLoop (dataPass config metadata)
    { control := ← nextByte, expectedBlock := 1, written := 0, retries := 0 }
  taskLoop (closingPass config) (← nextByte, 0)
  return { fileSize := metadata }

/-- A call with the answers that it gets: its result, if it has ended, and what was heard, said and
output. -/
def received (answers : List (Answer ε (Option (Nat × ω)))) :
    Option (Except (Error ε ω μ) Transfer) × State (List UInt8) :=
  exec (receiveWith config usizeMax onMetadata).run ⟨[], []⟩ answers

end

/-! ### Receiving, item by item -/

namespace Item

variable [Crc16]

/-- The number and the data of a valid block. -/
def block? (i : Item) : Option (UInt8 × List UInt8) :=
  match blockSize i.control with
  | none => none
  | some size =>
    if validFrame i.frame size = true then some (i.frame.getD 0 0, blockData i.frame size) else none

theorem block?_alone {control : UInt8} (h : blockSize control = none) :
    (alone control h).block? = none := by
  unfold block? alone
  rw [h]

theorem block?_framed {control : UInt8} {size : Nat} (h : blockSize control = some size)
    {frame : List UInt8} (hlen : frame.length = size + 4) : (framed h hlen).block? =
      if validFrame frame size = true then some (frame.getD 0 0, blockData frame size)
        else none := by
  unfold block? framed
  rw [h]

end Item

/-- How far a transfer has come, with the output so far. -/
inductive Stage where
  | header (retries : UInt8)
  | data (size : Nat) (output : List UInt8) (expected retries : UInt8)
  | closing (size : Nat) (output : List UInt8) (retries : UInt8)
  | ended (size : Nat) (output : List UInt8)
  | done (size : Nat) (output : List UInt8)
  | stopped (output : List UInt8)

namespace Stage

def output : Stage → List UInt8
  | header _ => []
  | data _ output _ _ => output
  | closing _ output _ => output
  | ended _ output => output
  | done _ output => output
  | stopped output => output

/-- An item that is not accepted. -/
def reject (config : Config) (output : List UInt8) (retries : UInt8) (next : UInt8 → Stage) :
    Stage :=
  if config.maxRetries < saturatingSucc retries then stopped output
    else next (saturatingSucc retries)

variable [Crc16] (config : Config) (usizeMax : Nat) (onMetadata : Metadata → Except μ Unit)

def stepHeader (retries : UInt8) (i : Item) : Stage :=
  if i.control = can then stopped []
  else
    match i.block? with
    | none => reject config [] retries header
    | some (number, block) =>
      if number ≠ 0 then reject config [] retries header
      else
        match parseMetadata usizeMax block with
        | none => stopped []
        | some metadata =>
          match onMetadata metadata with
          | .error _ => stopped []
          | .ok () => data metadata.fileSize [] 1 0

def stepData (size : Nat) (output : List UInt8) (expected retries : UInt8) (i : Item) : Stage :=
  if i.control = can then stopped output
  else if i.control = eot then
    if output.length ≠ size then stopped output else ended size output
  else
    match i.block? with
    | none => reject config output retries (data size output expected)
    | some (number, block) =>
      if number = expected then
        if size ≤ output.length then stopped output
        else data size (output ++ block.take (size - output.length)) (expected + 1) 0
      else if number = expected - 1 then data size output expected retries
      else reject config output retries (data size output expected)

def stepClosing (size : Nat) (output : List UInt8) (retries : UInt8) (i : Item) : Stage :=
  if i.control = can then stopped output
  else
    match i.block? with
    | none => reject config output retries (closing size output)
    | some (number, block) =>
      if number = 0 ∧ isEmptyHeader block = true then done size output
      else reject config output retries (closing size output)

def step : Stage → Item → Stage
  | header retries, i => stepHeader config usizeMax onMetadata retries i
  | data size output expected retries, i => stepData config size output expected retries i
  | ended size output, i => if i.control = eot then closing size output 0 else stopped output
  | closing size output retries, i => stepClosing config size output retries i
  | done _ output, _ => stopped output
  | stopped output, _ => stopped output

section

variable {config usizeMax onMetadata} {size : Nat} {output block : List UInt8}
  {expected number retries : UInt8} {i : Item}

theorem stepHeader_none (hcan : i.control ≠ can) (hblock : i.block? = none) :
    stepHeader config usizeMax onMetadata retries i = reject config [] retries header := by
  rw [stepHeader, if_neg hcan, hblock]

theorem stepHeader_some (hcan : i.control ≠ can) (hblock : i.block? = some (number, block)) :
    stepHeader config usizeMax onMetadata retries i =
      if number ≠ 0 then reject config [] retries header
      else
        match parseMetadata usizeMax block with
        | none => stopped []
        | some metadata =>
          match onMetadata metadata with
          | .error _ => stopped []
          | .ok () => data metadata.fileSize [] 1 0 := by
  rw [stepHeader, if_neg hcan, hblock]

theorem stepData_none (hcan : i.control ≠ can) (heot : i.control ≠ eot) (hblock : i.block? = none) :
    stepData config size output expected retries i =
      reject config output retries (data size output expected) := by
  rw [stepData, if_neg hcan, if_neg heot, hblock]

theorem stepData_some (hcan : i.control ≠ can) (heot : i.control ≠ eot)
    (hblock : i.block? = some (number, block)) :
    stepData config size output expected retries i =
      if number = expected then
        if size ≤ output.length then stopped output
        else data size (output ++ block.take (size - output.length)) (expected + 1) 0
      else if number = expected - 1 then data size output expected retries
      else reject config output retries (data size output expected) := by
  rw [stepData, if_neg hcan, if_neg heot, hblock]

theorem stepClosing_none (hcan : i.control ≠ can) (hblock : i.block? = none) :
    stepClosing config size output retries i = reject config output retries
      (closing size output) := by
  rw [stepClosing, if_neg hcan, hblock]

theorem stepClosing_some (hcan : i.control ≠ can) (hblock : i.block? = some (number, block)) :
    stepClosing config size output retries i =
      if number = 0 ∧ isEmptyHeader block = true then done size output
      else reject config output retries (closing size output) := by
  rw [stepClosing, if_neg hcan, hblock]

end

/-- The stage after some items. -/
def after (items : List Item) : Stage := items.foldl (step config usizeMax onMetadata) (header 0)

variable {config usizeMax onMetadata}

theorem after_concat {items : List Item} {stage : Stage}
    (h : after config usizeMax onMetadata items = stage) (i : Item) :
    after config usizeMax onMetadata (items ++ [i]) = step config usizeMax onMetadata stage i := by
  rw [after, List.foldl_append, ← h]
  rfl

end Stage

/-! ### The receiver goes through the stages -/

/-- What was heard, and what the output has. -/
def At (heard output : List UInt8) (s : State (List UInt8)) : Prop :=
  s.heard = heard ∧ s.side = output

section

variable {W : State (List UInt8) → Prop} {heard out bytes : List UInt8} {s : State (List UInt8)}

theorem At.say (h : At heard out s) : At heard out (s.say bytes) := ⟨State.heard_say.trans h.1, h.2⟩

theorem At.hear (h : At heard out s) (b : UInt8) : At (heard ++ [b]) out (s.hear b) :=
  ⟨by rw [State.heard_hear, h.1], h.2⟩

theorem yields_write (hw : ∀ s, At heard out s → W s) (hs : At heard out s) :
    Yields W (mapErr .io (writeAll bytes) : Receiving ε ω μ Unit) (fun _ => At heard out) s :=
  yields_mapErr (spec_writeAll (hw s hs) hs.say fun _ _ => hw _ hs.say)

theorem yields_flush (hw : ∀ s, At heard out s → W s) (hs : At heard out s) :
    Yields W (mapErr .io flush : Receiving ε ω μ Unit) (fun _ => At heard out) s :=
  yields_mapErr (spec_flush (hw s hs) hs fun _ => hw s hs)

theorem yields_nextByte (hw : ∀ s, At heard out s → W s) (hs : At heard out s) :
    Yields W (nextByte : Receiving ε ω μ UInt8) (fun b => At (heard ++ [b]) out) s :=
  yields_mapErr (spec_readByte (hw s hs) (fun b => hs.hear b) fun _ => hw s hs)

theorem yields_abort {α : Type} {e : Error ε ω μ} {Q : α → State (List UInt8) → Prop}
    (hw : ∀ s, At heard out s → W s) (hs : At heard out s) : Yields W (abort e) Q s := by
  refine (yields_mapErr (Q := fun _ => At heard out) (Spec.bind (Q := fun _ => At heard out)
    (spec_writeAll (hw s hs) hs.say fun _ _ => hs.say) fun r s' hs' => ?_)).bind
      fun _ s' hs' => yields_throw (hw s' hs')
  cases r with
  | ok => exact spec_flush (hw s' hs') hs' fun _ => hw s' hs'
  | error e => exact spec_pure (hw s' hs')

theorem yields_retry {config : Config} {retries : UInt8} (hw : ∀ s, At heard out s → W s)
    (hs : At heard out s) : Yields W (retry config retries : Receiving ε ω μ UInt8)
      (fun r s' => ¬config.maxRetries < saturatingSucc retries ∧ r = saturatingSucc retries ∧
        At heard out s') s := by
  unfold retry
  split
  · exact yields_abort hw hs
  · rename_i hmore
    refine (yields_write hw hs).bind fun _ s' hs' => ?_
    refine (yields_flush hw hs').bind fun _ s'' hs'' => ?_
    exact yields_pure ⟨hmore, rfl, hs''⟩

theorem spec_readBlock {Q : Except (ReadByteError ε) (List UInt8) → State (List UInt8) → Prop}
    {missing : Nat} {frame : List UInt8} (hw : ∀ part s, At (heard ++ part) out s → W s)
    (hok : ∀ part s, part.length = missing → At (heard ++ part) out s → Q (.ok (frame ++ part)) s)
    (herr : ∀ e part s, At (heard ++ part) out s → Q (.error e) s) (hs : At heard out s) :
    Spec W (readBlock missing frame : Program _ (Answer ε (Option (Nat × ω))) _) Q s := by
  have hs0 : At (heard ++ []) out s := by rwa [List.append_nil]
  induction missing generalizing heard frame s with
  | zero =>
    have hdone := hok [] s rfl hs0
    rw [List.append_nil] at hdone
    exact spec_pure hdone
  | succ missing ih =>
    refine (spec_readByte (hw [] s hs0) (fun b => ?_) fun e => spec_pure (herr e [] s hs0)).bind
      fun _ _ h => h
    have hsplit : ∀ part, heard ++ [b] ++ part = heard ++ b :: part :=
      fun part => List.append_assoc ..
    have hs' : At (heard ++ [b]) out (s.hear b) := hs.hear b
    refine ih (fun part s'' h => hw (b :: part) s'' (hsplit part ▸ h)) (fun part s'' hlen h => ?_)
      (fun e part s'' h => herr e (b :: part) s'' (hsplit part ▸ h)) hs' (by rwa [List.append_nil])
    rw [List.append_assoc frame]
    exact hok (b :: part) s'' (congrArg (· + 1) hlen) (hsplit part ▸ h)

theorem spec_writeOutput {Q : Except ω Unit → State (List UInt8) → Prop} (hw : W s)
    (hs : At heard out s) (hok : ∀ s, At heard (out ++ bytes) s → Q (.ok ()) s)
    (herr : ∀ e n s, At heard (out ++ bytes.take n) s → Q (.error e) s) :
    Spec W (writeOutput bytes : Program _ (Answer ε (Option (Nat × ω))) _) Q s := by
  obtain ⟨hheard, rfl⟩ := hs
  refine spec_answer_bind hw fun refusal => ?_
  cases refusal with
  | none => exact spec_update_bind (spec_pure (hok _ ⟨hheard, rfl⟩))
  | some failed => exact spec_update_bind (spec_pure (herr _ _ _ ⟨hheard, rfl⟩))

theorem spec_flushOutput (hw : W s) (hs : At heard out s) :
    Spec W (flushOutput : Program _ (Answer ε (Option (Nat × ω))) (Except ω Unit))
      (fun _ => At heard out) s := by
  refine spec_answer_bind hw fun refusal => ?_
  cases refusal with
  | none => exact spec_pure hs
  | some failed => exact spec_pure hs

theorem yields_readBlock {size : Nat} (hw : ∀ part s, At (heard ++ part) out s → W s)
    (hs : At heard out s) :
    Yields W (mapErr ReadByteError.toError (readBlock (size + 4) []) : Receiving ε ω μ (List UInt8))
      (fun frame s' => frame.length = size + 4 ∧ At (heard ++ frame) out s') s :=
  yields_mapErr (spec_readBlock hw (fun _ _ hlen h => ⟨hlen, h⟩) (fun _ part s h => hw part s h) hs)

end

theorem bytesOf_alone {items : List Item} {control : UInt8} (h : blockSize control = none) :
    bytesOf items ++ [control] = bytesOf (items ++ [Item.alone control h]) :=
  (bytesOf_concat items (Item.alone control h)).symm

theorem bytesOf_framed {items : List Item} {control : UInt8} {size : Nat}
    (h : blockSize control = some size) {frame : List UInt8} (hlen : frame.length = size + 4) :
    bytesOf items ++ [control] ++ frame = bytesOf (items ++ [Item.framed h hlen]) := by
  rw [List.append_assoc]
  exact (bytesOf_concat items (Item.framed h hlen)).symm

section

variable [Crc16] {config : Config} {usizeMax : Nat} {onMetadata : Metadata → Except μ Unit}
  {items : List Item} {out tail : List UInt8} {s : State (List UInt8)}

/-- The output has nothing but what the items that were heard give. -/
def Received (config : Config) (usizeMax : Nat) (onMetadata : Metadata → Except μ Unit)
    (s : State (List UInt8)) : Prop :=
  ∃ items tail, s.heard = bytesOf items ++ tail ∧
    s.side <+: (Stage.after config usizeMax onMetadata items).output

theorem received_within (hout : out <+: (Stage.after config usizeMax onMetadata items).output) :
    ∀ tail s, At (bytesOf items ++ tail) out s → Received config usizeMax onMetadata s := by
  rintro tail s ⟨hheard, rfl⟩
  exact ⟨items, tail, hheard, hout⟩

theorem received_at (hout : out <+: (Stage.after config usizeMax onMetadata items).output) :
    ∀ s, At (bytesOf items) out s → Received config usizeMax onMetadata s :=
  fun s hs => received_within hout [] s (by rwa [List.append_nil])

/-- The next item, after one that is not accepted. -/
theorem yields_again {retries : UInt8} (next : UInt8 → Stage) {β : Type} {f : UInt8 → UInt8 → β}
    (hnext : ∀ r, (next r).output = out)
    (hstage : Stage.after config usizeMax onMetadata items = Stage.reject config out retries next)
    (hs : At (bytesOf items) out s) :
    Yields (Received config usizeMax onMetadata)
      (do
        let retries ← retry config retries
        return f (← nextByte) retries : Receiving ε ω μ β)
      (fun x s' => ∃ c r, x = f c r ∧ At (bytesOf items ++ [c]) out s' ∧
        Stage.after config usizeMax onMetadata items = next r) s := by
  have hout : out <+: (Stage.after config usizeMax onMetadata items).output := by
    rw [hstage]
    unfold Stage.reject
    split
    · exact List.prefix_refl _
    · rw [hnext]
  refine (yields_retry (received_at hout) hs).bind fun r s' hr => ?_
  obtain ⟨hmore, rfl, hs'⟩ := hr
  refine (yields_nextByte (received_at hout) hs').bind fun c s'' hs'' =>
    yields_pure ⟨c, _, rfl, hs'', ?_⟩
  rw [hstage, Stage.reject, if_neg hmore]

theorem headerPass_spec {control retries : UInt8} (hs : At (bytesOf items ++ [control]) [] s)
    (hstage : Stage.after config usizeMax onMetadata items = .header retries) :
    Yields (Received config usizeMax onMetadata)
      (headerPass config usizeMax onMetadata (control, retries) : Receiving ε ω μ _) (Sum.elim
        (fun size s' => ∃ items, At (bytesOf items) [] s' ∧
          Stage.after config usizeMax onMetadata items = .data size [] 1 0)
        fun x s' => ∃ items, At (bytesOf items ++ [x.1]) [] s' ∧
          Stage.after config usizeMax onMetadata items = .header x.2) s := by
  have hwithin : ∀ tail s, At (bytesOf items ++ tail) [] s →
      Received config usizeMax onMetadata s :=
    received_within List.nil_prefix
  have hstep : ∀ i, Stage.after config usizeMax onMetadata (items ++ [i]) =
      Stage.stepHeader config usizeMax onMetadata retries i := Stage.after_concat hstage
  rw [headerPass]
  split
  · exact yields_throw (hwithin _ s hs)
  rename_i hcan
  split
  · rename_i hnone
    rw [bytesOf_alone hnone] at hs
    have hreject := (hstep (Item.alone control hnone)).trans
      (Stage.stepHeader_none hcan (Item.block?_alone hnone))
    refine (yields_again Stage.header (fun _ => rfl) hreject hs).mono fun r s' hr => ?_
    obtain ⟨c, r', rfl, hs', hstage'⟩ := hr
    exact ⟨_, hs', hstage'⟩
  · rename_i size hsome
    refine (yields_readBlock (fun part s h => ?_) hs).bind fun frame s' hframe => ?_
    · exact hwithin ([control] ++ part) s (by rwa [← List.append_assoc])
    obtain ⟨hlen, hs'⟩ := hframe
    rw [bytesOf_framed hsome hlen] at hs'
    have hstep := hstep (Item.framed hsome hlen)
    have hblock := Item.block?_framed hsome hlen
    split
    · rename_i hbad
      have hreject : Stage.after config usizeMax onMetadata (items ++ [Item.framed hsome hlen]) =
          Stage.reject config [] retries Stage.header := by
        rw [hstep]
        by_cases hvalid : validFrame frame size = true
        · rw [if_pos hvalid] at hblock
          rw [Stage.stepHeader_some hcan hblock,
            if_pos (hbad.resolve_left (by rw [hvalid]; decide))]
        · rw [if_neg hvalid] at hblock
          exact Stage.stepHeader_none hcan hblock
      refine (yields_again Stage.header (fun _ => rfl) hreject hs').mono fun r s'' hr => ?_
      obtain ⟨c, r', rfl, hs'', hstage'⟩ := hr
      exact ⟨_, hs'', hstage'⟩
    · rename_i hgood
      rw [not_or, Bool.not_eq_false, not_not] at hgood
      rw [if_pos hgood.1] at hblock
      rw [Stage.stepHeader_some hcan hblock, if_neg (not_not.mpr hgood.2)] at hstep
      have hw : ∀ s, At (bytesOf (items ++ [Item.framed hsome hlen])) [] s →
          Received config usizeMax onMetadata s :=
        received_at List.nil_prefix
      split
      · exact yields_abort hw hs'
      · rename_i metadata hmeta
        rw [hmeta] at hstep
        split
        · exact yields_abort hw hs'
        · rename_i hok
          dsimp only at hstep
          rw [hok] at hstep
          refine (yields_write hw hs').bind fun _ s1 hs1 => ?_
          refine (yields_write hw hs1).bind fun _ s2 hs2 => ?_
          refine (yields_flush hw hs2).bind fun _ s3 hs3 => ?_
          exact yields_pure ⟨_, hs3, hstep⟩

theorem dataEnd_spec {size : Nat} {expected retries : UInt8} {d : DataState}
    (hcontrol : d.control = eot) (hwritten : d.written = out.length)
    (hs : At (bytesOf items ++ [d.control]) out s)
    (hstage : Stage.after config usizeMax onMetadata items = .data size out expected retries) :
    Yields (Received config usizeMax onMetadata) (dataPass config size d : Receiving ε ω μ _)
      (fun r s' => r = .inl () ∧ ∃ items, At (bytesOf items) out s' ∧
        Stage.after config usizeMax onMetadata items = .closing size out 0) s := by
  have heot : blockSize eot = none := rfl
  have hfirst := Stage.after_concat hstage (Item.alone eot heot)
  simp only [Stage.step, Stage.stepData, show (Item.alone eot heot).control = eot from rfl,
    if_neg (show eot ≠ can by decide), if_pos] at hfirst
  rw [hcontrol, bytesOf_alone heot] at hs
  have hw : ∀ s, At (bytesOf (items ++ [Item.alone eot heot])) out s →
      Received config usizeMax onMetadata s := by
    refine received_at ?_
    rw [hfirst]
    split
    · exact List.prefix_refl _
    · exact List.prefix_refl _
  unfold dataPass
  rw [hcontrol, if_neg (by decide), if_pos rfl]
  split
  · exact yields_abort hw hs
  rename_i hsize
  rw [← hwritten, if_neg hsize] at hfirst
  refine (yields_attempt (spec_flushOutput (hw s hs) hs)).bind fun r s' hs' => ?_
  cases r with
  | error e => exact yields_abort hw hs'
  | ok =>
    refine (yields_write hw hs').bind fun _ s1 hs1 => ?_
    refine (yields_flush hw hs1).bind fun _ s2 hs2 => ?_
    refine (yields_nextByte hw hs2).bind fun second s3 hs3 => ?_
    split
    · exact yields_abort (received_within (by rw [hfirst]; exact List.prefix_refl _) [second]) hs3
    · rename_i hsecond
      obtain rfl := not_not.mp hsecond
      rw [bytesOf_alone heot] at hs3
      have hclosing := Stage.after_concat hfirst (Item.alone eot heot)
      simp only [Stage.step, show (Item.alone eot heot).control = eot from rfl, if_pos] at hclosing
      have hw' : ∀ s, At (bytesOf (items ++ [Item.alone eot heot] ++ [Item.alone eot heot])) out s →
          Received config usizeMax onMetadata s :=
            received_at (by rw [hclosing]; exact List.prefix_refl _)
      refine (yields_write hw' hs3).bind fun _ s4 hs4 => ?_
      refine (yields_write hw' hs4).bind fun _ s5 hs5 => ?_
      refine (yields_flush hw' hs5).bind fun _ s6 hs6 => ?_
      exact yields_pure ⟨rfl, _, hs6, hclosing⟩

theorem dataPass_spec {size : Nat} {d : DataState} (hwritten : d.written = out.length)
    (hs : At (bytesOf items ++ [d.control]) out s)
    (hstage : Stage.after config usizeMax onMetadata items =
      .data size out d.expectedBlock d.retries) :
    Yields (Received config usizeMax onMetadata) (dataPass config size d : Receiving ε ω μ _)
      (Sum.elim (fun _ s' => ∃ items out, At (bytesOf items) out s' ∧
          Stage.after config usizeMax onMetadata items = .closing size out 0)
        fun d s' => ∃ items out, d.written = out.length ∧ At (bytesOf items ++ [d.control]) out s' ∧
          Stage.after config usizeMax onMetadata items = .data size out d.expectedBlock d.retries)
            s := by
  have hwithin : ∀ tail s, At (bytesOf items ++ tail) out s →
      Received config usizeMax onMetadata s :=
    received_within (by rw [hstage]; exact List.prefix_refl _)
  by_cases heot : d.control = eot
  · refine (dataEnd_spec heot hwritten hs hstage).mono fun r s' hr => ?_
    obtain ⟨rfl, items', hs', hstage'⟩ := hr
    exact ⟨items', out, hs', hstage'⟩
  have hstep : ∀ i, Stage.after config usizeMax onMetadata (items ++ [i]) =
      Stage.stepData config size out d.expectedBlock d.retries i := Stage.after_concat hstage
  unfold dataPass
  by_cases hcan : d.control = can
  · rw [if_pos hcan]
    exact yields_throw (hwithin _ s hs)
  rw [if_neg hcan, if_neg heot]
  split
  · rename_i hnone
    rw [bytesOf_alone hnone] at hs
    have hreject := (hstep (Item.alone d.control hnone)).trans
      (Stage.stepData_none hcan heot (Item.block?_alone hnone))
    refine (yields_again (Stage.data size out d.expectedBlock) (fun _ => rfl) hreject hs).mono
      fun r s' hr => ?_
    obtain ⟨c, r', rfl, hs', hstage'⟩ := hr
    exact ⟨_, out, hwritten, hs', hstage'⟩
  rename_i blockSize hsome
  refine (yields_readBlock (fun part s h => ?_) hs).bind fun frame s' hframe => ?_
  · exact hwithin ([d.control] ++ part) s (by rwa [← List.append_assoc])
  obtain ⟨hlen, hs'⟩ := hframe
  rw [bytesOf_framed hsome hlen] at hs'
  have hstep := hstep (Item.framed hsome hlen)
  have hblock := Item.block?_framed hsome hlen
  dsimp only
  split
  · rename_i hinvalid
    rw [if_neg (by rw [hinvalid]; decide)] at hblock
    rw [Stage.stepData_none hcan heot hblock] at hstep
    refine (yields_again (Stage.data size out d.expectedBlock) (fun _ => rfl) hstep hs').mono
      fun r s'' hr => ?_
    obtain ⟨c, r', rfl, hs'', hstage'⟩ := hr
    exact ⟨_, out, hwritten, hs'', hstage'⟩
  rename_i hvalid
  rw [Bool.not_eq_false] at hvalid
  rw [if_pos hvalid] at hblock
  rw [Stage.stepData_some hcan heot hblock, ← hwritten] at hstep
  split
  · rename_i hexpected
    rw [if_pos hexpected] at hstep
    split
    · rename_i hfull
      rw [if_pos hfull] at hstep
      exact yields_abort (received_at (by rw [hstep]; exact List.prefix_refl _)) hs'
    rename_i hroom
    have hchunk : (blockData frame blockSize).take (size - d.written) =
        (frame.drop 2).take (min (size - d.written) blockSize) := List.take_take
    rw [if_neg hroom, hchunk] at hstep
    have hw : ∀ out', out' <+: out ++ (frame.drop 2).take (min (size - d.written) blockSize) →
        ∀ s, At (bytesOf (items ++ [Item.framed hsome hlen])) out' s →
          Received config usizeMax onMetadata s :=
      fun out' hout => received_at (by rw [hstep]; exact hout)
    have hcount : d.written + min (size - d.written) blockSize =
        (out ++ (frame.drop 2).take (min (size - d.written) blockSize)).length := by
      rw [List.length_append, List.length_take, List.length_drop, hlen, ← hwritten]
      omega
    generalize (frame.drop 2).take (min (size - d.written) blockSize) = chunk at hw hcount hstep ⊢
    refine yields_attempt_bind (spec_writeOutput (hw out (List.prefix_append ..) s' hs') hs'
      (fun s1 hs1 => ?_) fun e n s1 hs1 => ?_)
    · refine (yields_write (hw _ (List.prefix_refl _)) hs1).bind fun _ s2 hs2 => ?_
      refine (yields_flush (hw _ (List.prefix_refl _)) hs2).bind fun _ s3 hs3 => ?_
      refine (yields_nextByte (hw _ (List.prefix_refl _)) hs3).bind fun c s4 hs4 => ?_
      exact yields_pure ⟨_, _, hcount, hs4, hstep⟩
    · exact yields_abort (hw _ ((List.prefix_append_right_inj out).mpr (List.take_prefix ..))) hs1
  · rename_i hother
    rw [if_neg hother] at hstep
    split
    · rename_i hbefore
      rw [if_pos hbefore] at hstep
      have hw : ∀ s, At (bytesOf (items ++ [Item.framed hsome hlen])) out s →
          Received config usizeMax onMetadata s :=
        received_at (by rw [hstep]; exact List.prefix_refl _)
      refine (yields_write hw hs').bind fun _ s1 hs1 => ?_
      refine (yields_flush hw hs1).bind fun _ s2 hs2 => ?_
      refine (yields_nextByte hw hs2).bind fun c s3 hs3 => ?_
      exact yields_pure ⟨_, out, hwritten, hs3, hstep⟩
    · rename_i hnotbefore
      rw [if_neg hnotbefore] at hstep
      refine (yields_again (Stage.data size out d.expectedBlock) (fun _ => rfl) hstep hs').mono
        fun r s'' hr => ?_
      obtain ⟨c, r', rfl, hs'', hstage'⟩ := hr
      exact ⟨_, out, hwritten, hs'', hstage'⟩

theorem closingPass_spec {size : Nat} {control retries : UInt8}
    (hs : At (bytesOf items ++ [control]) out s)
    (hstage : Stage.after config usizeMax onMetadata items = .closing size out retries) :
    Yields (Received config usizeMax onMetadata)
      (closingPass config (control, retries) : Receiving ε ω μ _) (Sum.elim
        (fun _ s' => ∃ items, At (bytesOf items) out s' ∧
          Stage.after config usizeMax onMetadata items = .done size out)
        fun x s' => ∃ items, At (bytesOf items ++ [x.1]) out s' ∧
          Stage.after config usizeMax onMetadata items = .closing size out x.2) s := by
  have hwithin : ∀ tail s, At (bytesOf items ++ tail) out s →
      Received config usizeMax onMetadata s :=
    received_within (by rw [hstage]; exact List.prefix_refl _)
  have hstep : ∀ i, Stage.after config usizeMax onMetadata (items ++ [i]) =
      Stage.stepClosing config size out retries i := Stage.after_concat hstage
  rw [closingPass]
  by_cases hcan : control = can
  · rw [if_pos hcan]
    exact yields_throw (hwithin _ s hs)
  rw [if_neg hcan]
  split
  · rename_i hnone
    rw [bytesOf_alone hnone] at hs
    have hreject := (hstep (Item.alone control hnone)).trans
      (Stage.stepClosing_none hcan (Item.block?_alone hnone))
    refine (yields_again (Stage.closing size out) (fun _ => rfl) hreject hs).mono fun r s' hr => ?_
    obtain ⟨c, r', rfl, hs', hstage'⟩ := hr
    exact ⟨_, hs', hstage'⟩
  rename_i blockSize hsome
  refine (yields_readBlock (fun part s h => ?_) hs).bind fun frame s' hframe => ?_
  · exact hwithin ([control] ++ part) s (by rwa [← List.append_assoc])
  obtain ⟨hlen, hs'⟩ := hframe
  rw [bytesOf_framed hsome hlen] at hs'
  have hstep := hstep (Item.framed hsome hlen)
  have hblock := Item.block?_framed hsome hlen
  split
  · rename_i hgood
    rw [if_pos hgood.1] at hblock
    rw [Stage.stepClosing_some hcan hblock, if_pos hgood.2] at hstep
    have hw : ∀ s, At (bytesOf (items ++ [Item.framed hsome hlen])) out s →
        Received config usizeMax onMetadata s :=
      received_at (by rw [hstep]; exact List.prefix_refl _)
    refine (yields_write hw hs').bind fun _ s1 hs1 => ?_
    refine (yields_flush hw hs1).bind fun _ s2 hs2 => ?_
    exact yields_pure ⟨_, hs2, hstep⟩
  · rename_i hbad
    have hreject : Stage.after config usizeMax onMetadata (items ++ [Item.framed hsome hlen]) =
        Stage.reject config out retries (Stage.closing size out) := by
      rw [hstep]
      by_cases hvalid : validFrame frame blockSize = true
      · rw [if_pos hvalid] at hblock
        rw [Stage.stepClosing_some hcan hblock, if_neg fun h => hbad ⟨hvalid, h⟩]
      · rw [if_neg hvalid] at hblock
        exact Stage.stepClosing_none hcan hblock
    refine (yields_again (Stage.closing size out) (fun _ => rfl) hreject hs').mono fun r s'' hr =>
      ?_
    obtain ⟨c, r', rfl, hs'', hstage'⟩ := hr
    exact ⟨_, hs'', hstage'⟩

theorem yields_requestControl (n : Nat) (hs : At [] [] s) :
    Yields (Received config usizeMax onMetadata) (requestControl n : Receiving ε ω μ UInt8)
      (fun b s' => At [b] [] s') s := by
  have hw : ∀ s, At (bytesOf []) [] s → Received config usizeMax onMetadata s :=
    received_at List.nil_prefix
  induction n generalizing s with
  | zero => exact yields_throw (hw s hs)
  | succ n ih =>
    refine (yields_write hw hs).bind fun _ s1 hs1 => ?_
    refine (yields_flush hw hs1).bind fun _ s2 hs2 => ?_
    refine yields_attempt_bind
      (spec_readByte (hw s2 hs2) (fun b => yields_pure (hs2.hear b)) fun e => ?_)
    cases e with
    | io e => exact yields_throw (hw s2 hs2)
    | timeout => exact ih hs2
    | eof => exact yields_throw (hw s2 hs2)

/-- The receiver ends where its items lead, and has given nothing else to its output at any moment.
-/
theorem receiveWith_spec (config : Config) (usizeMax : Nat)
    (onMetadata : Metadata → Except μ Unit) : Yields (Received config usizeMax onMetadata)
      (receiveWith config usizeMax onMetadata : Receiving ε ω μ Transfer)
      (fun t s => ∃ items, s.heard = bytesOf items ∧
        Stage.after config usizeMax onMetadata items = .done t.fileSize s.side) ⟨[], []⟩ := by
  unfold receiveWith
  refine (yields_requestControl _ ⟨rfl, rfl⟩).bind fun first s1 hs1 => ?_
  refine (yields_loop (I := fun x s => ∃ items, At (bytesOf items ++ [x.1]) [] s ∧
      Stage.after config usizeMax onMetadata items = .header x.2)
      (Q := fun size s => ∃ items, At (bytesOf items) [] s ∧
      Stage.after config usizeMax onMetadata items = .data size [] 1 0) (fun x s h => ?_)
        (fun x s h => ?_)
      ⟨[], hs1, rfl⟩).bind fun size s2 hs2 => ?_
  · obtain ⟨items, hs, -⟩ := h
    exact received_within List.nil_prefix _ s hs
  · obtain ⟨items, hs, hstage⟩ := h
    exact headerPass_spec hs hstage
  obtain ⟨items, hs2, hstage⟩ := hs2
  have hw : ∀ s, At (bytesOf items) [] s → Received config usizeMax onMetadata s :=
    received_at List.nil_prefix
  refine (yields_nextByte hw hs2).bind fun control s3 hs3 => ?_
  refine (yields_loop (I := fun d s => ∃ items out, d.written = out.length ∧
      At (bytesOf items ++ [d.control]) out s ∧
      Stage.after config usizeMax onMetadata items = .data size out d.expectedBlock d.retries)
      (Q := fun _ s => ∃ items out, At (bytesOf items) out s ∧
      Stage.after config usizeMax onMetadata items = .closing size out 0) (fun d s h => ?_)
        (fun d s h => ?_)
      ⟨items, [], rfl, hs3, hstage⟩).bind fun _ s4 hs4 => ?_
  · obtain ⟨items, out, -, hs, hstage⟩ := h
    exact received_within (by rw [hstage]; exact List.prefix_refl _) _ s hs
  · obtain ⟨items, out, hwritten, hs, hstage⟩ := h
    exact dataPass_spec hwritten hs hstage
  obtain ⟨items, out, hs4, hstage⟩ := hs4
  have hw : ∀ s, At (bytesOf items) out s → Received config usizeMax onMetadata s :=
    received_at (by rw [hstage]; exact List.prefix_refl _)
  refine (yields_nextByte hw hs4).bind fun control s5 hs5 => ?_
  refine (yields_loop (I := fun x s => ∃ items, At (bytesOf items ++ [x.1]) out s ∧
      Stage.after config usizeMax onMetadata items = .closing size out x.2) (Q :=
        fun _ s => ∃ items, At (bytesOf items) out s ∧
        Stage.after config usizeMax onMetadata items = .done size out) (fun x s h => ?_)
      (fun x s h => ?_) ⟨items, hs5, hstage⟩).bind fun _ s6 hs6 => ?_
  · obtain ⟨items, hs, hstage⟩ := h
    exact received_within (by rw [hstage]; exact List.prefix_refl _) _ s hs
  · obtain ⟨items, hs, hstage⟩ := h
    exact closingPass_spec hs hstage
  obtain ⟨items, ⟨hheard, rfl⟩, hstage⟩ := hs6
  exact yields_pure ⟨items, hheard, hstage⟩

end

/-! ### What a transfer is made of -/

theorem Item.eq_alone {i : Item} {control : UInt8} (hnone : blockSize control = none)
    (h : i.control = control) : i = Item.alone control hnone := by
  obtain ⟨c, frame, hlen⟩ := i
  cases h
  rw [frameLength, hnone] at hlen
  cases List.eq_nil_of_length_eq_zero hlen
  rfl

section

variable [Crc16] (config : Config) (usizeMax : Nat) (onMetadata : Metadata → Except μ Unit)

/-- Blocks of data that come one after the other from some number on, among items that are something
else. -/
inductive Carried : UInt8 → List Item → List (List UInt8) → Prop where
  | nil (expected : UInt8) : Carried expected [] []
  | other {expected : UInt8} {i : Item} {items : List Item} {blocks : List (List UInt8)}
    (hcan : i.control ≠ can)
      (heot : i.control ≠ eot) (h : ∀ block, i.block? ≠ some (expected, block))
      (rest : Carried expected items blocks) :
      Carried expected (i :: items) blocks
  | block {expected : UInt8} {i : Item} {items : List Item} {block : List UInt8}
    {blocks : List (List UInt8)}
      (h : i.block? = some (expected, block)) (rest : Carried (expected + 1) items blocks) :
      Carried expected (i :: items) (block :: blocks)

/-- Block 0 of a file, after items that are something else. -/
structure Opened (before : List Item) (header : Item) (m : Metadata) : Prop where
  others : ∀ i ∈ before, i.control ≠ can ∧ ∀ block, i.block? ≠ some (0, block)
  header : ∃ block, header.block? = some (0, block) ∧ parseMetadata usizeMax block = some m
  accepted : onMetadata m = .ok ()

/-- The empty block 0 at the end of a batch. -/
def Closes (i : Item) : Prop := ∃ block, i.block? = some (0, block) ∧ isEmptyHeader block = true

/-- A file of some size is being transferred: what it gives so far, and the number of the block that
comes next. -/
def Transferring (items : List Item) (size : Nat) (out : List UInt8) (expected : UInt8) : Prop :=
  ∃ before header data m blocks, items = before ++ header :: data ∧
    Opened usizeMax onMetadata before header m ∧
    Carried 1 data blocks ∧ size = m.fileSize ∧ expected = 1 + UInt8.ofNat blocks.length ∧
    out = blocks.flatten.take size

/-- What has led to a stage. -/
def Reached : Stage → List Item → Prop
  | .header _, items => ∀ i ∈ items, i.control ≠ can ∧ ∀ block, i.block? ≠ some (0, block)
  | .data size out expected _, items => Transferring usizeMax onMetadata items size out expected
  | .ended size out, items => ∃ part expected, items = part ++ [Item.eot] ∧
    Transferring usizeMax onMetadata part size out expected ∧ out.length = size
  | .closing size out _, items => ∃ part expected after, items =
    part ++ Item.eot :: Item.eot :: after ∧
    Transferring usizeMax onMetadata part size out expected ∧ out.length = size ∧
    ∀ i ∈ after, i.control ≠ can ∧ ¬Closes i
  | .done size out, items => ∃ part expected after closing,
      items = part ++ Item.eot :: Item.eot :: (after ++ [closing]) ∧
    Transferring usizeMax onMetadata part size out expected ∧ out.length = size ∧
    (∀ i ∈ after, i.control ≠ can ∧ ¬Closes i) ∧ Closes closing
  | .stopped out, items => out = [] ∨ ∃ part rest size expected, items = part ++ rest ∧
    Transferring usizeMax onMetadata part size out expected

end

section

variable [Crc16] {config : Config} {usizeMax : Nat} {onMetadata : Metadata → Except μ Unit}
  {expected : UInt8} {items : List Item} {i : Item} {blocks : List (List UInt8)}
  {block out : List UInt8} {size : Nat} {retries : UInt8}

theorem Carried.concat_other (h : Carried expected items blocks) (hcan : i.control ≠ can)
    (heot : i.control ≠ eot)
    (hi : ∀ block, i.block? ≠ some (expected + UInt8.ofNat blocks.length, block)) :
    Carried expected (items ++ [i]) blocks := by
  induction h with
  | nil expected => exact .other hcan heot (by simpa using hi) (.nil _)
  | other hcan' heot' h' rest ih => exact .other hcan' heot' h' (ih hi)
  | block h' rest ih =>
    refine .block h' (ih fun block => ?_)
    have hnumber := hi block
    rwa [List.length_cons, UInt8.ofNat_add, UInt8.add_comm (UInt8.ofNat _),
      ← UInt8.add_assoc] at hnumber

theorem Carried.concat_block (h : Carried expected items blocks)
    (hi : i.block? = some (expected + UInt8.ofNat blocks.length, block)) :
    Carried expected (items ++ [i]) (blocks ++ [block]) := by
  induction h with
  | nil expected => exact .block (by simpa using hi) (.nil _)
  | other hcan' heot' h' rest ih => exact .other hcan' heot' h' (ih hi)
  | block h' rest ih =>
    refine .block h' (ih ?_)
    rwa [List.length_cons, UInt8.ofNat_add, UInt8.add_comm (UInt8.ofNat _), ← UInt8.add_assoc] at hi

theorem Transferring.other (h : Transferring usizeMax onMetadata items size out expected)
    (hcan : i.control ≠ can) (heot : i.control ≠ eot)
    (hi : ∀ block, i.block? ≠ some (expected, block)) :
    Transferring usizeMax onMetadata (items ++ [i]) size out expected := by
  obtain ⟨before, header, data, m, blocks, rfl, hopened, hcarried, hsize, rfl, hout⟩ := h
  refine ⟨before, header, data ++ [i], m, blocks, ?_, hopened, hcarried.concat_other hcan heot hi,
    hsize, rfl, hout⟩
  rw [List.append_assoc, List.cons_append]

theorem Transferring.accept (h : Transferring usizeMax onMetadata items size out expected)
    (hroom : ¬size ≤ out.length) (hi : i.block? = some (expected, block)) :
    Transferring usizeMax onMetadata (items ++ [i]) size (out ++ block.take (size - out.length))
      (expected + 1) := by
  obtain ⟨before, header, data, m, blocks, rfl, hopened, hcarried, hsize, rfl, rfl⟩ := h
  rw [List.length_take] at hroom
  refine ⟨before, header, data ++ [i], m, blocks ++ [block], ?_, hopened, hcarried.concat_block hi,
    hsize, ?_, ?_⟩
  · rw [List.append_assoc, List.cons_append]
  · rw [List.length_append, UInt8.ofNat_add, UInt8.add_assoc]
    rfl
  · have hall : blocks.flatten.take size = blocks.flatten := List.take_of_length_le (by omega)
    rw [hall, List.flatten_append, List.flatten_singleton, List.take_append, hall]

theorem reached_reject {next : UInt8 → Stage}
    (hstop : Reached usizeMax onMetadata (.stopped out) items)
    (hnext : ∀ r, Reached usizeMax onMetadata (next r) items) :
    Reached usizeMax onMetadata (Stage.reject config out retries next) items := by
  unfold Stage.reject
  split
  · exact hstop
  · exact hnext _

theorem reached_header (h : Reached usizeMax onMetadata (.header retries) items) :
    Reached usizeMax onMetadata (Stage.stepHeader config usizeMax onMetadata retries i)
      (items ++ [i]) := by
  have hstop : Reached usizeMax onMetadata (.stopped []) (items ++ [i]) := Or.inl rfl
  by_cases hcan : i.control = can
  · rw [Stage.stepHeader, if_pos hcan]
    exact hstop
  have hagain : (∀ block, i.block? ≠ some (0, block)) →
      Reached usizeMax onMetadata (Stage.reject config [] retries Stage.header) (items ++ [i]) := by
    intro hi
    refine reached_reject hstop fun _ => ?_
    intro j hj
    rcases List.mem_append.mp hj with hj | hj
    · exact h j hj
    · obtain rfl := List.mem_singleton.mp hj
      exact ⟨hcan, hi⟩
  cases hblock : i.block? with
  | none =>
    rw [Stage.stepHeader_none hcan hblock]
    exact hagain fun block hsome => by rw [hblock] at hsome; cases hsome
  | some found =>
    obtain ⟨number, block⟩ := found
    rw [Stage.stepHeader_some hcan hblock]
    split
    · rename_i hnumber
      refine hagain fun block hsome => hnumber ?_
      rw [hblock] at hsome
      cases hsome
      rfl
    rename_i hnumber
    obtain rfl := not_not.mp hnumber
    cases hmeta : parseMetadata usizeMax block with
    | none => exact hstop
    | some m =>
      dsimp only
      cases hok : onMetadata m with
      | error e => exact hstop
      | ok => exact ⟨items, i, [], m, [], rfl, ⟨h, ⟨block, hblock, hmeta⟩, hok⟩, .nil 1, rfl,
        rfl, by simp⟩

theorem reached_data (h : Transferring usizeMax onMetadata items size out expected) :
    Reached usizeMax onMetadata (Stage.stepData config size out expected retries i)
      (items ++ [i]) := by
  have hstop : Reached usizeMax onMetadata (.stopped out) (items ++ [i]) :=
    Or.inr ⟨items, [i], size, expected, rfl, h⟩
  by_cases hcan : i.control = can
  · rw [Stage.stepData, if_pos hcan]
    exact hstop
  by_cases heot : i.control = eot
  · rw [Stage.stepData, if_neg hcan, if_pos heot]
    split
    · exact hstop
    · rename_i hsize
      rw [Item.eq_alone rfl heot]
      exact ⟨items, expected, rfl, h, not_not.mp hsize⟩
  have hagain : (∀ block, i.block? ≠ some (expected, block)) → ∀ r,
      Reached usizeMax onMetadata (.data size out expected r) (items ++ [i]) :=
    fun hi _ => h.other hcan heot hi
  cases hblock : i.block? with
  | none =>
    rw [Stage.stepData_none hcan heot hblock]
    exact reached_reject hstop (hagain fun block hsome => by rw [hblock] at hsome; cases hsome)
  | some found =>
    obtain ⟨number, block⟩ := found
    rw [Stage.stepData_some hcan heot hblock]
    split
    · rename_i hnumber
      cases hnumber
      split
      · exact hstop
      · rename_i hroom
        exact h.accept hroom hblock
    · rename_i hnumber
      have hagain := hagain fun block hsome => hnumber (by rw [hblock] at hsome; cases hsome; rfl)
      split
      · exact hagain _
      · exact reached_reject hstop hagain

theorem reached_step {stage : Stage} (h : Reached usizeMax onMetadata stage items) :
    Reached usizeMax onMetadata (stage.step config usizeMax onMetadata i) (items ++ [i]) := by
  cases stage with
  | header retries => exact reached_header h
  | data size out expected retries => exact reached_data h
  | ended size out =>
    obtain ⟨part, expected, rfl, htransfer, hsize⟩ := h
    rw [Stage.step]
    split
    · rename_i heot
      rw [Item.eq_alone rfl heot]
      exact ⟨part, expected,
        [], by rw [List.append_assoc]; rfl, htransfer, hsize, List.forall_mem_nil _⟩
    · exact Or.inr ⟨part, [Item.eot, i], size, expected, by rw [List.append_assoc]; rfl, htransfer⟩
  | closing size out retries =>
    obtain ⟨part, expected, after, rfl, htransfer, hsize, hafter⟩ := h
    have hitems : part ++ Item.eot :: Item.eot :: after ++ [i] = part ++ Item.eot :: Item.eot ::
        (after ++ [i]) := by
      rw [List.append_assoc]
      rfl
    rw [hitems]
    have hstop : Reached usizeMax onMetadata (.stopped out)
        (part ++ Item.eot :: Item.eot :: (after ++ [i])) :=
      Or.inr ⟨part, _, size, expected, rfl, htransfer⟩
    rw [Stage.step]
    by_cases hcan : i.control = can
    · rw [Stage.stepClosing, if_pos hcan]
      exact hstop
    have hagain : ¬Closes i → ∀ r, Reached usizeMax onMetadata (.closing size out r)
        (part ++ Item.eot :: Item.eot :: (after ++ [i])) := by
      intro hi _
      refine ⟨part, expected, after ++ [i], rfl, htransfer, hsize, fun j hj => ?_⟩
      rcases List.mem_append.mp hj with hj | hj
      · exact hafter j hj
      · obtain rfl := List.mem_singleton.mp hj
        exact ⟨hcan, hi⟩
    cases hblock : i.block? with
    | none =>
      rw [Stage.stepClosing_none hcan hblock]
      refine reached_reject hstop (hagain ?_)
      rintro ⟨block, hsome, -⟩
      rw [hblock] at hsome
      cases hsome
    | some found =>
      obtain ⟨number, block⟩ := found
      rw [Stage.stepClosing_some hcan hblock]
      split
      · rename_i hcloses
        obtain ⟨rfl, hempty⟩ := hcloses
        exact ⟨part, expected, after, i, rfl, htransfer, hsize, hafter, block, hblock, hempty⟩
      · rename_i hopen
        refine reached_reject hstop (hagain ?_)
        rintro ⟨block, hsome, hempty⟩
        rw [hblock] at hsome
        cases hsome
        exact hopen ⟨rfl, hempty⟩
  | done size out =>
    obtain ⟨part, expected, after, closing, rfl, htransfer, -⟩ := h
    exact Or.inr ⟨part, _, size, expected, List.append_assoc .., htransfer⟩
  | stopped out =>
    rcases h with rfl | ⟨part, rest, size, expected, rfl, htransfer⟩
    · exact Or.inl rfl
    · exact Or.inr ⟨part, rest ++ [i], size, expected, List.append_assoc .., htransfer⟩

theorem reached_after (config : Config) (usizeMax : Nat) (onMetadata : Metadata → Except μ Unit)
    (items : List Item) :
    Reached usizeMax onMetadata (Stage.after config usizeMax onMetadata items) items := by
  induction items using List.reverseRecOn with
  | nil => exact List.forall_mem_nil _
  | append_singleton items i ih =>
    rw [Stage.after_concat rfl]
    exact reached_step ih

theorem Reached.output {stage : Stage} (h : Reached usizeMax onMetadata stage items) :
    stage.output = [] ∨ ∃ part rest size expected, items = part ++ rest ∧
      Transferring usizeMax onMetadata part size stage.output expected := by
  cases stage with
  | header retries => exact Or.inl rfl
  | data size out expected retries =>
    exact Or.inr ⟨items, [], size, expected, (List.append_nil _).symm, h⟩
  | ended size out =>
    obtain ⟨part, expected, rfl, htransfer, -⟩ := h
    exact Or.inr ⟨part, _, size, expected, rfl, htransfer⟩
  | closing size out retries =>
    obtain ⟨part, expected, after, rfl, htransfer, -⟩ := h
    exact Or.inr ⟨part, _, size, expected, rfl, htransfer⟩
  | done size out =>
    obtain ⟨part, expected, after, closing, rfl, htransfer, -⟩ := h
    exact Or.inr ⟨part, _, size, expected, rfl, htransfer⟩
  | stopped out => exact h

theorem received_spec (config : Config) (usizeMax : Nat) (onMetadata : Metadata → Except μ Unit)
    (answers : List (Answer ε (Option (Nat × ω)))) :
    (∀ t, (received config usizeMax onMetadata answers).1 = some (.ok t) → ∃ items,
      (received config usizeMax onMetadata answers).2.heard = bytesOf items ∧
      Stage.after config usizeMax onMetadata items =
        .done t.fileSize (received config usizeMax onMetadata answers).2.side) ∧
    Received config usizeMax onMetadata (received config usizeMax onMetadata answers).2 := by
  obtain ⟨hdone, hrest⟩ := Yields.exec (receiveWith_spec config usizeMax onMetadata) answers
  refine ⟨hdone, ?_⟩
  by_cases h : ∃ t, (received config usizeMax onMetadata answers).1 = some (.ok t)
  · obtain ⟨t, ht⟩ := h
    obtain ⟨items, hheard, hstage⟩ := hdone t ht
    exact received_at (by rw [hstage]; exact List.prefix_refl _) _ ⟨hheard, rfl⟩
  · exact hrest fun t ht => h ⟨t, ht⟩

/-- Whatever is heard: a transfer that ends well has heard block 0 of a file, its blocks one after
the other, and the end of the batch, and its output is the file; at every moment, and however it
ends, the output has nothing but what such blocks give. -/
theorem receive_integrity (answers : List (Answer ε (Option (Nat × ω)))) :
    (∀ t, (received config usizeMax onMetadata answers).1 = some (.ok t) →
      ∃ before header data after closing m blocks,
        (received config usizeMax onMetadata answers).2.heard =
          bytesOf (before ++ header :: data ++ Item.eot :: Item.eot :: (after ++ [closing])) ∧
        Opened usizeMax onMetadata before header m ∧ Carried 1 data blocks ∧
        (∀ i ∈ after, i.control ≠ can ∧ ¬Closes i) ∧ Closes closing ∧ t.fileSize = m.fileSize ∧
        m.fileSize ≤ blocks.flatten.length ∧
        (received config usizeMax onMetadata answers).2.side = blocks.flatten.take m.fileSize) ∧
    ((received config usizeMax onMetadata answers).2.side = [] ∨ ∃ before header data m blocks tail,
        (received config usizeMax onMetadata answers).2.heard = bytesOf
        (before ++ header :: data) ++ tail ∧
        Opened usizeMax onMetadata before header m ∧ Carried 1 data blocks ∧
        (received config usizeMax onMetadata answers).2.side <+: blocks.flatten.take
          m.fileSize) := by
  obtain ⟨hdone, items, tail, hheard, hside⟩ := received_spec config usizeMax onMetadata answers
  constructor
  · intro t ht
    obtain ⟨items, hheard, hstage⟩ := hdone t ht
    have hreached := reached_after config usizeMax onMetadata items
    rw [hstage] at hreached
    obtain ⟨part, expected, after, closing, rfl, htransfer, hsize, hafter, hcloses⟩ := hreached
    obtain ⟨before, header, data, m, blocks, rfl, hopened, hcarried, hm, -, hout⟩ := htransfer
    refine ⟨before, header, data, after, closing, m, blocks, hheard, hopened, hcarried, hafter,
      hcloses, hm, ?_, ?_⟩
    · rw [hout, List.length_take, hm] at hsize
      omega
    · rw [hout, hm]
  · rcases (reached_after config usizeMax onMetadata items).output with
      hnone | ⟨part, rest, size, expected, rfl, htransfer⟩
    · rw [hnone] at hside
      exact Or.inl (List.prefix_nil.mp hside)
    · obtain ⟨before, header, data, m, blocks, rfl, hopened, hcarried, hm, -, hout⟩ := htransfer
      rw [hout, hm] at hside
      refine Or.inr ⟨before, header, data, m, blocks, bytesOf rest ++ tail, ?_, hopened, hcarried,
        hside⟩
      rw [hheard, bytesOf_append, List.append_assoc]

end

end Microtun.Ymodem
