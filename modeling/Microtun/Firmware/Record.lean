import Microtun.Buffer

/-! The record that holds the configuration of a device, `configuration.rs`, and how it is written
to flash, `storage.rs`. The checksum and the decoder of the text are parameters. -/

namespace Microtun.Firmware

def recordMagic : List UInt8 := [0x4d, 0x54, 0x55, 0x4e]
def recordFormatVersion : Nat := 2
def headerLen : Nat := 16
def recordSize : Nat := 4096
def maxTomlLen : Nat := recordSize - headerLen

inductive EncodeRecordError where
  | recordTooSmall
  | tomlTooLarge
  | invalidConfig
deriving DecidableEq, Repr

variable {ε κ : Type} (crc32 : List UInt8 → UInt32) (decodeToml : List UInt8 → Except ε κ)

def recordCrc32 (payloadLen : UInt32) (payload : List UInt8) : UInt32 :=
  let pre := recordMagic ++ toLeBytes 2 recordFormatVersion ++ toLeBytes 2 headerLen ++
    toLeBytes 4 payloadLen.toNat
  crc32 (pre ++ payload)

/-- The header, as both encoders write it. -/
def writeHeader (record : List UInt8) (payloadLen crc : UInt32) : Except Panic (List UInt8) := do
  let record ← copyAt record 0 recordMagic
  let record ← copyAt record 4 (toLeBytes 2 recordFormatVersion)
  let record ← copyAt record 6 (toLeBytes 2 headerLen)
  let record ← copyAt record 8 (toLeBytes 4 payloadLen.toNat)
  copyAt record 12 (toLeBytes 4 crc.toNat)

/-- The result, and the record after it. -/
abbrev Encoded := Except Panic (Except EncodeRecordError Unit × List UInt8)

def encodeRecord (toml record : List UInt8) : Encoded :=
  if record.length < recordSize then return (.error .recordTooSmall, record)
  else if maxTomlLen < toml.length then return (.error .tomlTooLarge, record)
  else match decodeToml toml with
  | .error _ => return (.error .invalidConfig, record)
  | .ok _ => do
    let record ← fillAt record 0 recordSize 0xff
    let payloadLen := UInt32.ofNat toml.length
    let record ← writeHeader record payloadLen (recordCrc32 crc32 payloadLen toml)
    let record ← copyAt record headerLen toml
    return (.ok (), record)

/-- The payload is in the record already. -/
def encodeRecordInPlace (record : List UInt8) (payloadLen : Nat) : Encoded :=
  if maxTomlLen < payloadLen then return (.error .tomlTooLarge, record)
  else match slice record ⟨headerLen, headerLen + payloadLen⟩ with
  | none => throw .index
  | some payload =>
    match decodeToml payload with
    | .error _ => return (.error .invalidConfig, record)
    | .ok _ => do
      let payloadLenU32 := UInt32.ofNat payloadLen
      let crc := recordCrc32 crc32 payloadLenU32 payload
      let record ← fillAt record (headerLen + payloadLen) record.length 0xff
      let record ← writeHeader record payloadLenU32 crc
      return (.ok (), record)

def decodeRecord (record : List UInt8) : Option κ :=
  if record.length < recordSize || field record ⟨0, 4⟩ ≠ recordMagic ||
      ofLeBytes (field record ⟨4, 6⟩) ≠ recordFormatVersion ||
      ofLeBytes (field record ⟨6, 8⟩) ≠ headerLen then none
  else
    let payloadLen := ofLeBytes (field record ⟨8, 12⟩)
    if maxTomlLen < payloadLen then none
    else
      let payload := field record ⟨headerLen, headerLen + payloadLen⟩
      let storedCrc := UInt32.ofNat (ofLeBytes (field record ⟨12, 16⟩))
      if recordCrc32 crc32 (UInt32.ofNat payloadLen) payload ≠ storedCrc then none
      else (decodeToml payload).toOption

/-! ### Flash -/

/-- A flash, whose operations may fail and may do anything to what is stored. A read overwrites a
buffer. -/
structure NorFlash (σ ε : Type) where
  capacity : σ → Nat
  erase : σ → Nat → Nat → Except ε Unit × σ
  write : σ → Nat → List UInt8 → Except ε Unit × σ
  read : σ → Nat → List UInt8 → Except ε Unit × List UInt8 × σ

/-- What was done to a flash. -/
inductive FlashCall where
  | erase (start stop : Nat)
  | write (offset : Nat) (bytes : List UInt8)
  | read (offset : Nat) (bytes : List UInt8)
deriving DecidableEq, Repr

/-- The result of an operation on the flash, the record and the flash after it, and what was done.
-/
structure Stored (σ : Type) where
  result : Except String Unit
  record : List UInt8
  flash : σ
  calls : List FlashCall

def storeConfig {σ ε' : Type} (F : NorFlash σ ε') (flash : σ) (record : List UInt8) : Stored σ :=
  match decodeRecord crc32 decodeToml record with
  | none => ⟨.error "invalid config", record, flash, []⟩
  | some _ =>
    let capacity := (UInt32.ofNat (F.capacity flash)).toNat
    let erased := FlashCall.erase 0 capacity
    match F.erase flash 0 capacity with
    | (.error _, flash) => ⟨.error "flash operation failed", record, flash, [erased]⟩
    | (.ok _, flash) =>
      let written := FlashCall.write 0 record
      match F.write flash 0 record with
      | (.error _, flash) => ⟨.error "flash operation failed", record, flash, [erased, written]⟩
      | (.ok _, flash) =>
        match F.read flash 0 (List.replicate record.length 0) with
        | (.error _, record, flash) =>
          ⟨.error "flash operation failed", record, flash, [erased, written, .read 0 record]⟩
        | (.ok _, record, flash) =>
          let calls := [erased, written, .read 0 record]
          match decodeRecord crc32 decodeToml record with
          | none => ⟨.error "flash verification failed", record, flash, calls⟩
          | some _ => ⟨.ok (), record, flash, calls⟩

end Microtun.Firmware
