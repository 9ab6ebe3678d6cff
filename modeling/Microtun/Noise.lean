import Microtun.Messages

/-! The Noise `IKpsk2` handshake of `noise.rs`. -/

namespace Microtun

namespace Noise

open Messages

/-- The bytes of a text of the protocol. -/
def ascii (text : String) : List UInt8 := text.toUTF8.toList

def construction : List UInt8 := ascii "Noise_IKpsk2_25519_ChaChaPoly_BLAKE2s"

def identifier : List UInt8 := ascii "WireGuard v1 zx2c4 Jason@zx2c4.com"

/-- The pre-shared key, fixed to zero. -/
def pskQ : Key := .zero 32

/-- Initiator-side state kept until the response. -/
structure InitiatorState where
  chain : Key
  hash : Key
  ePriv : Key
deriving DecidableEq, Repr

/-- An initiation whose sender has proved possession of its static key. -/
structure ConsumedInitiation where
  chain : Key
  hash : Key
  ePubI : Key
  sPubI : Key
  timestamp : Bytes 12
  sender : UInt32
deriving DecidableEq, Repr

structure TransportKeys where
  send : Key
  recv : Key
deriving DecidableEq, Repr

/-- An initiation that names a static key, without proof yet. -/
structure IdentifiedInitiation where
  chain : Key
  hash : Key
  ePubI : Key
  sPubI : Key
  encryptedTimestamp : Bytes 28
  sender : UInt32
deriving DecidableEq, Repr

variable [Crypto] {R : Type} [RngCore R]

def prologue : Key × Key :=
  let c := hash [construction]
  (c, hash [c.toList, identifier])

/-- What `createInitiation` computes once the ephemeral key pair is drawn. -/
def initiationOf (ePriv ePub sPrivI sPubI sPubR : Key) (sender : UInt32) (timestamp : Bytes 12)
    (msg : List UInt8) : Except Error (InitiatorState × List UInt8) := do
  let (c, h) := prologue
  let h := hash [h.toList, sPubR.toList]
  let c ← kdf1 c ePub.toList
  let msg ← writeType msg msgInitiation
  let msg := setField msg Init.sender (toLeBytes 4 sender.toNat)
  let msg := setField msg Init.ephemeral ePub.toList
  let h := hash [h.toList, ePub.toList]
  let (c, k) ← kdf2 c (← dh ePriv sPubR).toList
  let out := sPubI.toList ++ (field msg Init.static).drop 32
  let msg := setField msg Init.static (← aeadSeal k 0 out 32 h.toList)
  let h := hash [h.toList, field msg Init.static]
  let (c, k) ← kdf2 c (← dh sPrivI sPubR).toList
  let out := timestamp.toList ++ (field msg Init.timestamp).drop timestampLen
  let msg := setField msg Init.timestamp (← aeadSeal k 0 out timestampLen h.toList)
  let h := hash [h.toList, field msg Init.timestamp]
  let msg := setField msg Init.mac1 (List.replicate 16 0)
  let msg := setField msg Init.mac2 (List.replicate 16 0)
  return (⟨c, h, ePriv⟩, msg)

/-- Build a handshake initiation into `msg`. -/
def createInitiation (rng : R) (sPrivI sPubI sPubR : Key) (sender : UInt32) (timestamp : Bytes 12)
    (msg : List UInt8) : Except Error (InitiatorState × List UInt8) × R :=
  if msg.length ≠ initiationLen then (.error .bufferTooSmall, rng)
  else
    let ((ePriv, ePub), rng) := dhGenerate rng
    (initiationOf ePriv ePub sPrivI sPubI sPubR sender timestamp msg, rng)

/-- Recover the claimed static key of an initiation. -/
def identifyInitiation (sPrivR sPubR : Key) (msg : List UInt8) :
    Except Error IdentifiedInitiation := do
  if msg.length ≠ initiationLen then throw .crypto
  let (c, h) := prologue
  let h := hash [h.toList, sPubR.toList]
  let ePubI : Key := .ofList 32 (field msg Init.ephemeral)
  let c ← kdf1 c ePubI.toList
  let h := hash [h.toList, ePubI.toList]
  let (c, k) ← kdf2 c (← dh sPrivR ePubI).toList
  let static ← aeadOpen k 0 (field msg Init.static) h.toList
  let h := hash [h.toList, field msg Init.static]
  return {
    chain := c
    hash := h
    ePubI
    sPubI := .ofList 32 static
    encryptedTimestamp := .ofList 28 (field msg Init.timestamp)
    sender := UInt32.ofNat (ofLeBytes (field msg Init.sender)) }

/-- Complete authentication with the static-static secret. -/
def authenticateIdentifiedWithSharedSecret (identified : IdentifiedInitiation) (shared : Key) :
    Except Error ConsumedInitiation := do
  let (c, k) ← kdf2 identified.chain shared.toList
  let timestamp ← aeadOpen k 0 identified.encryptedTimestamp.toList identified.hash.toList
  return {
    chain := c
    hash := hash [identified.hash.toList, identified.encryptedTimestamp.toList]
    ePubI := identified.ePubI
    sPubI := identified.sPubI
    timestamp := .ofList 12 timestamp
    sender := identified.sender }

def authenticateIdentifiedInitiation (sPrivR : Key) (identified : IdentifiedInitiation) :
    Except Error ConsumedInitiation := do
  let shared ← dh sPrivR identified.sPubI
  authenticateIdentifiedWithSharedSecret identified shared

/-- What `createResponse` computes once the ephemeral key pair is drawn. -/
def responseOf (ePrivR ePubR : Key) (consumed : ConsumedInitiation) (sender : UInt32)
    (msg : List UInt8) : Except Error (TransportKeys × List UInt8) := do
  let c ← kdf1 consumed.chain ePubR.toList
  let msg ← writeType msg msgResponse
  let msg := setField msg Resp.sender (toLeBytes 4 sender.toNat)
  let msg := setField msg Resp.receiver (toLeBytes 4 consumed.sender.toNat)
  let msg := setField msg Resp.ephemeral ePubR.toList
  let h := hash [consumed.hash.toList, ePubR.toList]
  let c ← kdf1 c (← dh ePrivR consumed.ePubI).toList
  let c ← kdf1 c (← dh ePrivR consumed.sPubI).toList
  let (c, tau, k) ← kdf3 c pskQ.toList
  let h := hash [h.toList, tau.toList]
  let msg := setField msg Resp.empty (← aeadSeal k 0 (field msg Resp.empty) 0 h.toList)
  let msg := setField msg Resp.mac1 (List.replicate 16 0)
  let msg := setField msg Resp.mac2 (List.replicate 16 0)
  let (t1, t2) ← kdf2 c []
  return (⟨t2, t1⟩, msg)

/-- Build the handshake response into `msg` and derive the responder's transport keys. -/
def createResponse (rng : R) (consumed : ConsumedInitiation) (sender : UInt32)
    (msg : List UInt8) : Except Error (TransportKeys × List UInt8) × R :=
  if msg.length ≠ responseLen then (.error .bufferTooSmall, rng)
  else
    let ((ePrivR, ePubR), rng) := dhGenerate rng
    (responseOf ePrivR ePubR consumed sender msg, rng)

/-- Consume a handshake response and derive the initiator's transport keys. -/
def consumeResponse (state : InitiatorState) (sPrivI : Key) (msg : List UInt8) :
    Except Error (TransportKeys × UInt32) := do
  if msg.length ≠ responseLen then throw .crypto
  let ePubR : Key := .ofList 32 (field msg Resp.ephemeral)
  let c ← kdf1 state.chain ePubR.toList
  let h := hash [state.hash.toList, ePubR.toList]
  let c ← kdf1 c (← dh state.ePriv ePubR).toList
  let c ← kdf1 c (← dh sPrivI ePubR).toList
  let (c, tau, k) ← kdf3 c pskQ.toList
  let h := hash [h.toList, tau.toList]
  let _ ← aeadOpen k 0 (field msg Resp.empty) h.toList
  let (t1, t2) ← kdf2 c []
  return (⟨t1, t2⟩, UInt32.ofNat (ofLeBytes (field msg Resp.sender)))

end Noise

end Microtun
