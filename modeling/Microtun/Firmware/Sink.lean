import Microtun.Firmware.Record

/-! The sink that programs a firmware image into the DFU partition, `firmware.rs` of the STM32
application. The constants of the chip and its flash driver are parameters. -/

namespace Microtun.Firmware

/-- The constants of the flash driver. -/
structure Chip where
  FLASH_BASE : Nat
  WRITE_SIZE : Nat
  MAX_ERASE_SIZE : Nat
  write_pos : 0 < WRITE_SIZE
  erase_pos : 0 < MAX_ERASE_SIZE

/-- Addresses from `start` on and before `stop`. -/
structure Partition where
  start : Nat
  stop : Nat

def Partition.len (partition : Partition) : Nat := partition.stop - partition.start

def Partition.flashOffset (chip : Chip) (partition : Partition) : Nat :=
  partition.start - chip.FLASH_BASE

inductive Stm32SinkError (ε : Type) where
  | flash (error : ε)
  | invalidVectorTable
  | nonSequentialWrite
  | outOfBounds

/-- A call that fails ends the transfer. -/
abbrev Sinking (ε α : Type) := Except (Panic ⊕ Stm32SinkError ε) α

/-- `calls` is what was done to the flash. -/
structure Stm32FirmwareSink (σ : Type) where
  flash : σ
  logicalOffset : Nat
  writtenOffset : Nat
  erasedUntil : Nat
  pending : List UInt8
  pendingLen : Nat
  vector : List UInt8
  vectorLen : Nat
  vectorChecked : Bool
  calls : List FlashCall

def orPanic {ε α : Type} (x : Except Panic α) : Sinking ε α :=
  match x with
  | .error p => .error (.inl p)
  | .ok a => .ok a

def fail {ε α : Type} (e : Stm32SinkError ε) : Sinking ε α := .error (.inr e)

/-- Addition of `u32`. -/
def addU32 (a b : Nat) : Nat := (a + b) % 2 ^ 32

/-- The stack is in RAM and the reset handler is in the image. -/
def ValidVector (active : Partition) (vector : List UInt8) : Prop :=
  let initialSp := ofLeBytes (field vector ⟨0, 4⟩)
  let reset := ofLeBytes (field vector ⟨4, 8⟩)
  let resetAddr := reset / 2 * 2
  (0x20000000 ≤ initialSp ∧ initialSp < 0x40000000) ∧
    reset % 2 = 1 ∧ active.start ≤ resetAddr ∧ resetAddr < active.stop

instance (active : Partition) (vector : List UInt8) : Decidable (ValidVector active vector) :=
  inferInstanceAs (Decidable (_ ∧ _))

namespace Stm32FirmwareSink

variable {σ ε : Type} (chip : Chip) (active dfu : Partition) (F : NorFlash σ ε)

def new (flash : σ) : Stm32FirmwareSink σ where
  flash := flash
  logicalOffset := 0
  writtenOffset := 0
  erasedUntil := 0
  pending := List.replicate chip.WRITE_SIZE 0xff
  pendingLen := 0
  vector := List.replicate 8 0
  vectorLen := 0
  vectorChecked := false
  calls := []

def validateVector (sink : Stm32FirmwareSink σ) : Sinking ε Unit :=
  if ValidVector active sink.vector then return () else fail .invalidVectorTable

def captureVector (sink : Stm32FirmwareSink σ) (bytes : List UInt8) :
    Sinking ε (Stm32FirmwareSink σ) :=
  if sink.vectorChecked || sink.vectorLen == sink.vector.length then return sink
  else do
    let take := min (sink.vector.length - sink.vectorLen) bytes.length
    let vector ← orPanic (copyAt sink.vector sink.vectorLen (bytes.take take))
    let sink := { sink with vector := vector, vectorLen := sink.vectorLen + take }
    if sink.vectorLen = sink.vector.length then
      sink.validateVector active
      return { sink with vectorChecked := true }
    else return sink

def ensureErased (sink : Stm32FirmwareSink σ) (stop : Nat) : Sinking ε (Stm32FirmwareSink σ) :=
  if sink.erasedUntil < stop then
    let eraseEnd := sink.erasedUntil + chip.MAX_ERASE_SIZE
    if 2 ^ 32 ≤ eraseEnd then fail .outOfBounds
    else if dfu.len < eraseEnd then fail .outOfBounds
    else
      let start := addU32 (dfu.flashOffset chip) sink.erasedUntil
      let eraseStop := addU32 (dfu.flashOffset chip) eraseEnd
      match F.erase sink.flash start eraseStop with
      | (.error e, _) => fail (.flash e)
      | (.ok _, flash) =>
        ensureErased { sink with
          flash := flash, erasedUntil := eraseEnd, calls := sink.calls ++ [.erase start eraseStop] }
            stop
  else return sink
termination_by stop - sink.erasedUntil
decreasing_by
  have := chip.erase_pos
  omega

def writeAligned (sink : Stm32FirmwareSink σ) (bytes : List UInt8) :
    Sinking ε (Stm32FirmwareSink σ) :=
  if bytes.length % chip.WRITE_SIZE ≠ 0 then .error
    (.inl (.assertion "bytes.len() % WRITE_SIZE == 0"))
  else
    let stop := sink.writtenOffset + bytes.length % 2 ^ 32
    if 2 ^ 32 ≤ stop then fail .outOfBounds
    else if active.len < stop then fail .outOfBounds
    else do
      let sink ← sink.ensureErased chip dfu F stop
      let offset := addU32 (dfu.flashOffset chip) sink.writtenOffset
      match F.write sink.flash offset bytes with
      | (.error e, _) => fail (.flash e)
      | (.ok _, flash) =>
        return { sink with
          flash := flash, writtenOffset := stop, calls := sink.calls ++ [.write offset bytes] }

def finish (sink : Stm32FirmwareSink σ) : Sinking ε (Stm32FirmwareSink σ) :=
  if sink.vectorLen ≠ sink.vector.length then fail .invalidVectorTable
  else do
    let sink ←
      if !sink.vectorChecked then do
        sink.validateVector active
        pure { sink with vectorChecked := true }
      else pure sink
    if sink.pendingLen ≠ 0 then
      let pending ← orPanic (fillAt sink.pending sink.pendingLen sink.pending.length 0xff)
      let sink ← { sink with pending := pending }.writeAligned chip active dfu F pending
      return { sink with pendingLen := 0 }
    else return sink

/-- The part of `write` that fills the word that is pending, and the bytes that are left. -/
def fillPending (sink : Stm32FirmwareSink σ) (bytes : List UInt8) :
    Sinking ε (Stm32FirmwareSink σ × List UInt8) :=
  if sink.pendingLen ≠ 0 then do
    let take := min (chip.WRITE_SIZE - sink.pendingLen) bytes.length
    let pending ← orPanic (copyAt sink.pending sink.pendingLen (bytes.take take))
    let sink := { sink with pending := pending, pendingLen := sink.pendingLen + take }
    if sink.pendingLen = chip.WRITE_SIZE then
      let sink ← sink.writeAligned chip active dfu F sink.pending
      return ({ sink with pendingLen := 0, pending := List.replicate sink.pending.length 0xff },
        bytes.drop take)
    else return (sink, bytes.drop take)
  else return (sink, bytes)

/-- The part of `write` that writes whole words, and the bytes that are left. -/
def writeWords (sink : Stm32FirmwareSink σ) (bytes : List UInt8) :
    Sinking ε (Stm32FirmwareSink σ × List UInt8) :=
  let alignedLen := bytes.length / chip.WRITE_SIZE * chip.WRITE_SIZE
  if alignedLen ≠ 0 then do
    let sink ← sink.writeAligned chip active dfu F (bytes.take alignedLen)
    return (sink, bytes.drop alignedLen)
  else return (sink, bytes)

/-- The part of `write` that keeps what is left. -/
def keepPending (sink : Stm32FirmwareSink σ) (bytes : List UInt8) :
    Sinking ε (Stm32FirmwareSink σ) :=
  if bytes ≠ [] then do
    let pending ← orPanic (copyAt sink.pending 0 bytes)
    return { sink with pending := pending, pendingLen := bytes.length }
  else return sink

def write (sink : Stm32FirmwareSink σ) (offset : Nat) (bytes : List UInt8) :
    Sinking ε (Stm32FirmwareSink σ) :=
  if offset ≠ sink.logicalOffset then fail .nonSequentialWrite
  else
    let stop := offset + bytes.length % 2 ^ 32
    if 2 ^ 32 ≤ stop then fail .outOfBounds
    else if active.len < stop then fail .outOfBounds
    else do
      let sink ← sink.captureVector active bytes
      let (sink, bytes) ← sink.fillPending chip active dfu F bytes
      let (sink, bytes) ← sink.writeWords chip active dfu F bytes
      let sink ← sink.keepPending bytes
      return { sink with logicalOffset := stop }

/-- The chunks of a payload, one after the other, and the end. -/
def writeAll (sink : Stm32FirmwareSink σ) (offset : Nat) : List (List UInt8) →
    Sinking ε (Stm32FirmwareSink σ)
  | [] => sink.finish chip active dfu F
  | chunk :: chunks => do
    let sink ← sink.write chip active dfu F offset chunk
    sink.writeAll (offset + chunk.length) chunks

end Stm32FirmwareSink

end Microtun.Firmware
