import Microtun.Bytes

/-! Streaming validation of MCUboot images: the header, the payload that goes to a sink, the
protected and the regular TLV area, and padding. -/

namespace Microtun.Mcuboot

def imageMagic : Nat := 0x96f3b83d
def imageHeaderSize : Nat := 32
def maxProtectedTlvSize : Nat := 64
def tlvInfoMagic : Nat := 0x6907
def tlvProtectedInfoMagic : Nat := 0x6908

def tlvKeyhash : Nat := 0x01
def tlvSha256 : Nat := 0x10
def tlvEd25519 : Nat := 0x24
def tlvSigPure : Nat := 0x25
def tlvUuidVid : Nat := 0x74
def tlvUuidCid : Nat := 0x75

/-- What precedes a raw Ed25519 key in its DER form. -/
def ed25519SpkiPrefix : List UInt8 :=
  [0x30, 0x2a, 0x30, 0x05, 0x06, 0x03, 0x2b, 0x65, 0x70, 0x03, 0x21, 0x00]

/-- The hash and the signature check of the image format. -/
class ImageCrypto where
  sha256 : List UInt8 → Bytes 32
  /-- Whether the bytes are a public key. -/
  verifyingKey : Bytes 32 → Bool
  verifyStrict : Bytes 32 → Bytes 32 → Bytes 64 → Bool

structure ImageVersion where
  major : Nat
  minor : Nat
  revision : Nat
  build : Nat
deriving DecidableEq, Repr

/-- Older by major, minor and revision.  The build number plays no part. -/
def ImageVersion.semverIsOlderThan (self other : ImageVersion) : Bool :=
  self.major < other.major ||
    self.major == other.major && (self.minor < other.minor ||
      self.minor == other.minor && self.revision < other.revision)

structure ImageHeader where
  loadAddress : Nat
  headerSize : Nat
  protectedTlvSize : Nat
  imageSize : Nat
  flags : Nat
  version : ImageVersion
deriving DecidableEq, Repr

inductive Error
  | invalidPublicKey
  | invalidMagic
  | unsupportedHeaderSize
  | unsupportedLoadAddress
  | unsupportedImageFlags
  | emptyImage
  | imageTooLarge
  | invalidProtectedTlvSize
  | invalidTlvInfoMagic
  | invalidTlvAreaSize
  | truncatedTlv
  | duplicateTlv
  | invalidTlvLength
  | missingSha256
  | missingKeyHash
  | missingSignature
  | missingVid
  | missingCid
  | versionTooLow
  | protectedTlvAreaTooLarge
  | unsupportedReadGranularity
  | wrongVid
  | wrongCid
  | unsupportedPureSignature
  | hashMismatch
  | keyHashMismatch
  | signatureInvalid
  | incompleteImage
  | invalidPadding
  | storedImageInvalid
deriving DecidableEq, Repr

inductive FeedError (E : Type)
  | image (error : Error)
  | sink (error : E)
deriving DecidableEq, Repr

def ImageHeader.parse (bytes : List UInt8) : Except Error ImageHeader :=
  if ofLeBytes (field bytes ⟨0, 4⟩) ≠ imageMagic then .error .invalidMagic
  else
    let header : ImageHeader :=
      { loadAddress := ofLeBytes (field bytes ⟨4, 8⟩)
        headerSize := ofLeBytes (field bytes ⟨8, 10⟩)
        protectedTlvSize := ofLeBytes (field bytes ⟨10, 12⟩)
        imageSize := ofLeBytes (field bytes ⟨12, 16⟩)
        flags := ofLeBytes (field bytes ⟨16, 20⟩)
        version :=
          { major := ofLeBytes (field bytes ⟨20, 21⟩)
            minor := ofLeBytes (field bytes ⟨21, 22⟩)
            revision := ofLeBytes (field bytes ⟨22, 24⟩)
            build := ofLeBytes (field bytes ⟨24, 28⟩) } }
    if header.headerSize ≠ imageHeaderSize then .error .unsupportedHeaderSize
    else if header.loadAddress ≠ 0 then .error .unsupportedLoadAddress
    else if header.flags ≠ 0 then .error .unsupportedImageFlags
    else if header.imageSize = 0 then .error .emptyImage
    else if header.protectedTlvSize ≠ 0 ∧ header.protectedTlvSize < 4 then
      .error .invalidProtectedTlvSize
    else .ok header

structure Policy where
  expectedVid : Option (Bytes 16)
  expectedCid : Bytes 16
  maxImageSize : Nat
  minVersion : ImageVersion
deriving DecidableEq

structure VerifiedImage where
  header : ImageHeader
  digest : Bytes 32
  vid : Option (Bytes 16)
  cid : Bytes 16
  containerSize : Nat
  headerBytes : List UInt8
  protectedTlv : List UInt8
  protectedTlvSize : Nat
deriving DecidableEq

inductive TlvAreaKind
  | protectedArea
  | regularArea
deriving DecidableEq, Repr

/-- A TLV area as far as it has been read.  The bytes collected so far stand for the source's arrays
and their fill counts. -/
structure TlvArea where
  kind : TlvAreaKind
  expectedMagic : Nat
  expectedTotal : Option Nat
  total : Option Nat
  consumed : Nat
  info : List UInt8
  entryHeader : List UInt8
  entryType : Nat
  entryLen : Nat
  entryFill : Nat
  entryValue : List UInt8
  entryCollect : Bool
deriving DecidableEq, Repr

structure FoundTlvs where
  keyHash : Option (Bytes 32) := none
  sha256 : Option (Bytes 32) := none
  signature : Option (Bytes 64) := none
  vid : Option (Bytes 16) := none
  cid : Option (Bytes 16) := none
  pureSignature : Bool := false
deriving DecidableEq

def setOnceArray {n : Nat} (slot : Option (Bytes n)) (value : List UInt8) :
    Except Error (Option (Bytes n)) :=
  if value.length ≠ n then .error .invalidTlvLength
  else if slot.isSome then .error .duplicateTlv
  else .ok (some (Bytes.ofList n value))

namespace TlvArea

def new (kind : TlvAreaKind) (expectedMagic : Nat) (expectedTotal : Option Nat) : TlvArea :=
  { kind, expectedMagic, expectedTotal, total := none, consumed := 0, info := [], entryHeader := [],
    entryType := 0, entryLen := 0, entryFill := 0, entryValue := [], entryCollect := false }

def isComplete (area : TlvArea) : Bool := area.total == some area.consumed

/-- The entry types whose values are kept. -/
def collects (type : Nat) : Bool :=
  type == tlvKeyhash || type == tlvSha256 || type == tlvEd25519 || type == tlvSigPure ||
    type == tlvUuidVid || type == tlvUuidCid

/-- What an entry adds to what was found.  Each type counts in one kind of area only. -/
def record (kind : TlvAreaKind) (type : Nat) (value : List UInt8) (found : FoundTlvs) :
    Except Error FoundTlvs :=
  match kind with
  | .regularArea =>
    if type = tlvKeyhash then do
      let keyHash ← setOnceArray found.keyHash value
      .ok { found with keyHash }
    else if type = tlvSha256 then do
      let sha256 ← setOnceArray found.sha256 value
      .ok { found with sha256 }
    else if type = tlvEd25519 then do
      let signature ← setOnceArray found.signature value
      .ok { found with signature }
    else if type = tlvSigPure then .ok { found with pureSignature := true }
    else .ok found
  | .protectedArea =>
    if type = tlvUuidVid then do
      let vid ← setOnceArray found.vid value
      .ok { found with vid }
    else if type = tlvUuidCid then do
      let cid ← setOnceArray found.cid value
      .ok { found with cid }
    else .ok found

def finishEntry (area : TlvArea) (found : FoundTlvs) : Except Error (TlvArea × FoundTlvs) := do
  let found ← record area.kind area.entryType area.entryValue found
  .ok ({ area with
    entryHeader := []
    entryType := 0
    entryLen := 0
    entryFill := 0
    entryCollect := false
    entryValue := [] }, found)

/-- The start of the area, as far as it has come: its magic and its size. -/
def feedInfo (area : TlvArea) (bytes : List UInt8) : Except Error TlvArea :=
  let info := area.info ++ bytes
  let area := { area with info, consumed := area.consumed + bytes.length }
  if info.length = 4 then
    let magic := ofLeBytes (field info ⟨0, 2⟩)
    let total := ofLeBytes (field info ⟨2, 4⟩)
    if magic ≠ area.expectedMagic then .error .invalidTlvInfoMagic
    else if total < 4 then .error .invalidTlvAreaSize
    else if area.expectedTotal.any (fun expected => total != expected) then .error
      .invalidTlvAreaSize
    else .ok { area with total := some total }
  else .ok area

/-- The type and length of an entry, as far as they have come. -/
def feedEntryHeader (area : TlvArea) (found : FoundTlvs) (total : Nat) (bytes : List UInt8) :
    Except Error (TlvArea × FoundTlvs) :=
  let entryHeader := area.entryHeader ++ bytes
  let area := { area with entryHeader, consumed := area.consumed + bytes.length }
  if entryHeader.length = 4 then
    let entryType := ofLeBytes (field entryHeader ⟨0, 2⟩)
    let entryLen := ofLeBytes (field entryHeader ⟨2, 4⟩)
    let area :=
      { area with entryType, entryLen, entryFill := 0, entryCollect := collects entryType }
    if entryLen > total - area.consumed then .error .truncatedTlv
    else if area.entryCollect && entryLen > 64 then .error .invalidTlvLength
    else if entryLen = 0 then area.finishEntry found
    else .ok (area, found)
  else .ok (area, found)

/-- The value of an entry, as far as it has come. -/
def feedEntryValue (area : TlvArea) (found : FoundTlvs) (bytes : List UInt8) :
    Except Error (TlvArea × FoundTlvs) :=
  let area := { area with
    entryValue := if area.entryCollect then area.entryValue ++ bytes else area.entryValue
    entryFill := area.entryFill + bytes.length
    consumed := area.consumed + bytes.length }
  if area.entryFill = area.entryLen then area.finishEntry found
  else .ok (area, found)

/-- One round of the loop, on input that is not empty and an area that is not complete. The number
is how many bytes it takes. -/
def feedRound (area : TlvArea) (found : FoundTlvs) (input : List UInt8) :
    Except Error (TlvArea × FoundTlvs × Nat) :=
  if area.info.length < 4 then do
    let take := min (4 - area.info.length) input.length
    let area ← area.feedInfo (input.take take)
    .ok (area, found, take)
  else
    match area.total with
    | none => .error .invalidTlvAreaSize
    | some total =>
      if area.entryHeader.length < 4 then
        if total - area.consumed < 4 - area.entryHeader.length then .error .truncatedTlv
        else do
          let take := min (4 - area.entryHeader.length) input.length
          let (area, found) ← area.feedEntryHeader found total (input.take take)
          .ok (area, found, take)
      else do
        let take := min (area.entryLen - area.entryFill) input.length
        let (area, found) ← area.feedEntryValue found (input.take take)
        .ok (area, found, take)

def feedLoop : Nat → TlvArea → FoundTlvs → List UInt8 → Nat →
    Except Error (TlvArea × FoundTlvs × Nat)
  | 0, area, found, _, inputOffset => .ok (area, found, inputOffset)
  | fuel + 1, area, found, input, inputOffset =>
    if input.isEmpty || area.isComplete then .ok (area, found, inputOffset)
    else do
      let (area, found, take) ← area.feedRound found input
      feedLoop fuel area found (input.drop take) (inputOffset + take)

/-- Read what belongs to the area, and say how much that was. -/
def feed (area : TlvArea) (found : FoundTlvs) (input : List UInt8) :
    Except Error (TlvArea × FoundTlvs × Nat) :=
  feedLoop (input.length + 1) area found input 0

end TlvArea

/-- Where the payload goes. -/
class PayloadSink (S : Type) where
  Error : Type
  write : S → Nat → List UInt8 → Except Error Unit × S

/-- The verifier as far as the container has come.  The hasher is what it has been given. -/
structure StreamingVerifier where
  publicKey : Bytes 32
  expectedKeyHash : Bytes 32
  policy : Policy
  headerBytes : List UInt8
  header : Option ImageHeader
  payloadOffset : Nat
  protectedArea : Option TlvArea
  regular : TlvArea
  found : FoundTlvs
  hasher : List UInt8
  protectedBytes : List UInt8
  containerPosition : Nat
  complete : Bool
deriving DecidableEq

namespace StreamingVerifier

section

variable [ImageCrypto]

open ImageCrypto

/-- The verifier before the first byte. -/
def start (publicKey : Bytes 32) (policy : Policy) : StreamingVerifier :=
  { publicKey
    expectedKeyHash := sha256 (ed25519SpkiPrefix ++ publicKey.toList)
    policy
    headerBytes := []
    header := none
    payloadOffset := 0
    protectedArea := none
    regular := TlvArea.new .regularArea tlvInfoMagic none
    found := {}
    hasher := []
    protectedBytes := []
    containerPosition := 0
    complete := false }

def new (publicKey : Bytes 32) (policy : Policy) : Except Error StreamingVerifier :=
  if verifyingKey publicKey then .ok (start publicKey policy) else .error .invalidPublicKey

end

/-- The position in the container is a saturating `u32`. -/
def advance (position taken : Nat) : Nat := min (position + taken) (2 ^ 32 - 1)

/-- The header, as far as it has come. -/
def feedHeader (v : StreamingVerifier) (bytes : List UInt8) : Except Error StreamingVerifier := do
  let v := { v with
    headerBytes := v.headerBytes ++ bytes
    hasher := v.hasher ++ bytes
    containerPosition := advance v.containerPosition bytes.length }
  if v.headerBytes.length = imageHeaderSize then
    let header ← ImageHeader.parse v.headerBytes
    if header.imageSize > v.policy.maxImageSize then .error .imageTooLarge
    else if header.protectedTlvSize > maxProtectedTlvSize then .error .protectedTlvAreaTooLarge
    else
      .ok { v with
        protectedArea :=
          if header.protectedTlvSize ≠ 0 then
            some (TlvArea.new .protectedArea tlvProtectedInfoMagic (some header.protectedTlvSize))
          else none
        header := some header }
  else .ok v

/-- What the verifier keeps of the payload that the sink has taken. -/
def feedPayload (v : StreamingVerifier) (bytes : List UInt8) : StreamingVerifier :=
  { v with
    hasher := v.hasher ++ bytes
    payloadOffset := v.payloadOffset + bytes.length
    containerPosition := advance v.containerPosition bytes.length }

/-- The protected area, as far as it has come. -/
def feedProtected (v : StreamingVerifier) (area : TlvArea) (bytes : List UInt8) :
    Except Error StreamingVerifier := do
  let (area, found, _) ← area.feed v.found bytes
  .ok { v with
    hasher := v.hasher ++ bytes
    protectedBytes := v.protectedBytes ++ bytes
    protectedArea := some area
    found
    containerPosition := advance v.containerPosition bytes.length }

/-- The regular area, and how much of the input belongs to it. -/
def feedRegular (v : StreamingVerifier) (input : List UInt8) :
    Except Error (StreamingVerifier × Nat) := do
  let (regular, found, consumed) ← v.regular.feed v.found input
  if consumed = 0 then .error .invalidTlvAreaSize
  else
    .ok ({ v with
      regular
      found
      containerPosition := advance v.containerPosition consumed
      complete := regular.isComplete }, consumed)

def feedLoop {S : Type} [PayloadSink S] :
    Nat → StreamingVerifier → List UInt8 → S →
      Except (FeedError (PayloadSink.Error S)) StreamingVerifier × S
  | 0, v, _, sink => (.ok v, sink)
  | fuel + 1, v, input, sink =>
    if input.isEmpty then (.ok v, sink)
    else if v.complete then
      (if input.any (fun byte => byte != 0x1a) then .error (.image .invalidPadding)
        else .ok v, sink)
    else if v.headerBytes.length < imageHeaderSize then
      let take := min (imageHeaderSize - v.headerBytes.length) input.length
      match v.feedHeader (input.take take) with
      | .error error => (.error (.image error), sink)
      | .ok v => feedLoop fuel v (input.drop take) sink
    else
      match v.header with
      | none => (.error (.image .incompleteImage), sink)
      | some header =>
        if v.payloadOffset < header.imageSize then
          let take := min (header.imageSize - v.payloadOffset) input.length
          match PayloadSink.write sink v.payloadOffset (input.take take) with
          | (.error error, sink) => (.error (.sink error), sink)
          | (.ok (), sink) => feedLoop fuel (v.feedPayload (input.take take)) (input.drop take) sink
        else
          match v.protectedArea.filter (fun area => !area.isComplete) with
          | some area =>
            let take := min (header.protectedTlvSize - area.consumed) input.length
            match v.feedProtected area (input.take take) with
            | .error error => (.error (.image error), sink)
            | .ok v => feedLoop fuel v (input.drop take) sink
          | none =>
            match v.feedRegular input with
            | .error error => (.error (.image error), sink)
            | .ok (v, consumed) => feedLoop fuel v (input.drop consumed) sink

/-- Take the next bytes of the container, and write the payload among them to the sink. -/
def feed {S : Type} [PayloadSink S] (v : StreamingVerifier) (input : List UInt8) (sink : S) :
    Except (FeedError (PayloadSink.Error S)) StreamingVerifier × S :=
  feedLoop input.length v input sink

/-- The vendor is checked only if the policy names one. -/
def checkVid (v : StreamingVerifier) : Except Error Unit :=
  match v.policy.expectedVid with
  | none => .ok ()
  | some expectedVid => do
    let vid ← v.found.vid.elim (.error .missingVid) .ok
    if vid ≠ expectedVid then .error .wrongVid else .ok ()

variable [ImageCrypto]

open ImageCrypto

def finish (v : StreamingVerifier) : Except Error VerifiedImage := do
  if !v.complete then .error .incompleteImage
  else if v.found.pureSignature then .error .unsupportedPureSignature
  else
    let header ← v.header.elim (.error .incompleteImage) .ok
    let expectedDigest ← v.found.sha256.elim (.error .missingSha256) .ok
    let keyHash ← v.found.keyHash.elim (.error .missingKeyHash) .ok
    let signature ← v.found.signature.elim (.error .missingSignature) .ok
    if keyHash ≠ v.expectedKeyHash then .error .keyHashMismatch
    else
      let digest := sha256 v.hasher
      if digest ≠ expectedDigest then .error .hashMismatch
      else if !verifyStrict v.publicKey digest signature then .error .signatureInvalid
      else
        v.checkVid
        let cid ← v.found.cid.elim (.error .missingCid) .ok
        if cid ≠ v.policy.expectedCid then .error .wrongCid
        else if header.version.semverIsOlderThan v.policy.minVersion then .error .versionTooLow
        else
          .ok {
            header
            digest
            vid := v.found.vid
            cid
            containerSize := v.containerPosition
            headerBytes := v.headerBytes
            protectedTlv := v.protectedBytes
            protectedTlvSize := header.protectedTlvSize }

end StreamingVerifier

end Microtun.Mcuboot
