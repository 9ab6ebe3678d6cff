import Microtun.Core.State
import Microtun.Ip
import Microtun.KeyText

/-! The wire contract of the Peers API, `message.rs` and `lib.rs` of `microtun-api`: methods, error
codes, message envelopes and the peer record. -/

namespace Microtun.Api

def methodByKey : String := "peer.by_key"
def methodByAddress : String := "peer.by_address"
def methodWatch : String := "peer.watch"
def methodUnwatch : String := "peer.unwatch"
def methodChanged : String := "peer.changed"
def methodRemoved : String := "peer.removed"

namespace Codes

def badMessage : UInt16 := 1
def unknownMethod : UInt16 := 2
def invalidParams : UInt16 := 3
def internal : UInt16 := 4
def notAdmitted : UInt16 := 5
def rateLimited : UInt16 := 6

end Codes

def maxAddressTextLen : Nat := 45
def maxEndpointTextLen : Nat := maxAddressTextLen + 8
def maxCidrTextLen : Nat := maxAddressTextLen + 4
def recordMessageLen : Nat := 1024
def queryMessageLen : Nat := 256
def queryTextLen : Nat := maxAddressTextLen
def maxErrorTextLen : Nat := 64

inductive Error where
  | bufferTooSmall
  | badJson
  | invalidSyntax
deriving DecidableEq, Repr

/-- Text of at most `n` bytes. -/
structure Text (n : Nat) where
  val : String
  fits : val.utf8ByteSize ≤ n
deriving DecidableEq

namespace Text

variable {n : Nat}

/-- Write text into an empty buffer. -/
def write (s : String) : Except Error (Text n) :=
  if h : s.utf8ByteSize ≤ n then .ok ⟨s, h⟩ else .error .bufferTooSmall

/-- The characters that fit, up to the first that does not. -/
def takeFitting : Nat → List Char → List Char
  | _, [] => []
  | room, c :: cs => if c.utf8Size ≤ room then c :: takeFitting (room - c.utf8Size) cs else []

theorem utf8ByteSize_takeFitting (room : Nat) (cs : List Char) :
    (String.ofList (takeFitting room cs)).utf8ByteSize ≤ room := by
  induction cs generalizing room with
  | nil => simp [takeFitting]
  | cons c cs ih =>
    unfold takeFitting
    by_cases hroom : c.utf8Size ≤ room
    · rw [if_pos hroom, String.ofList_cons, String.utf8ByteSize_append,
        String.utf8ByteSize_singleton]
      have := ih (room - c.utf8Size)
      omega
    · simp [hroom]

def truncate (s : String) : Text n := ⟨_, utf8ByteSize_takeFitting n s.toList⟩

end Text

/-! ### Message envelopes -/

/-- The parameters of a call, which name a key or an address. -/
inductive QueryParams where
  | byKey (publicKey : String)
  | byAddress (address : String)
deriving DecidableEq, Repr

/-- A request or, without an id, a notification. -/
structure OutCall where
  id : Option UInt32
  method : String
  params : Option QueryParams
deriving DecidableEq, Repr

structure PeerInfo where
  publicKey : Text keyTextLen
  endpoint : Option (Text maxEndpointTextLen)
  relay : Option (Text keyTextLen)
  address : Text maxCidrTextLen
  persistentKeepalive : Option UInt16
deriving DecidableEq

inductive LookupResult where
  | found (info : PeerInfo)
  | notFound
deriving DecidableEq

structure OutResult where
  id : UInt32
  result : LookupResult
deriving DecidableEq

structure ErrorObject where
  code : UInt16
  message : String
deriving DecidableEq, Repr

structure OutError where
  id : Option UInt32
  error : ErrorObject
deriving DecidableEq, Repr

/-- What the first pass over a message reads. -/
structure Envelope where
  id : Option UInt32
  method : Option String
deriving DecidableEq, Repr

/-- What the second pass over a response reads. -/
structure ResponseEnvelope where
  result : Option LookupResult
  error : Option ErrorObject
deriving DecidableEq

structure RemoteError where
  code : UInt16
  message : Text maxErrorTextLen
deriving DecidableEq

def RemoteError.new (code : UInt16) (message : String) : RemoteError := ⟨code, .truncate message⟩

/-- The crate `serde_json_core` at the envelope types: what it prints and what it parses. -/
structure Codec where
  call : OutCall → List UInt8
  result : OutResult → List UInt8
  error : OutError → List UInt8
  envelope : List UInt8 → Option Envelope
  keyParams : List UInt8 → Option (Option String)
  addressParams : List UInt8 → Option (Option String)
  response : List UInt8 → Option ResponseEnvelope

/-- The authoritative miss is printed unlike records and errors, and it fits the buffer of a
server. -/
structure Codec.Faithful (C : Codec) : Prop where
  notFound_ne_found : ∀ id id' info, C.result ⟨id, .notFound⟩ ≠ C.result ⟨id', .found info⟩
  notFound_ne_error : ∀ id e, C.result ⟨id, .notFound⟩ ≠ C.error e
  notFound_fits : ∀ id, (C.result ⟨id, .notFound⟩).length ≤ recordMessageLen

/-- Print into a buffer of `n` bytes. -/
def toSlice (n : Nat) (text : List UInt8) : Option (List UInt8) :=
  if text.length ≤ n then some text else none

/-! ### Queries and records -/

/-- The text forms of addresses, of socket addresses and of prefixes, these always with their
length. -/
structure Texts where
  parseIpAddr : String → Option IpAddr
  parseSocketAddr : String → Option SocketAddr
  parseIpCidr : String → Option IpCidr
  showIpAddr : IpAddr → String
  showSocketAddr : SocketAddr → String
  showIpCidr : IpCidr → String

structure Query where
  method : String
  params : QueryParams
deriving DecidableEq, Repr

/-- Render a query of the core as the call that answers it. -/
def encodeQuery (T : Texts) : ResolveQuery → Except Error Query
  | .byPublicKey key => do
    let text : Text queryTextLen ← Text.write (encodeKey key)
    return ⟨methodByKey, .byKey text.val⟩
  | .byDstAddress address => do
    let text : Text queryTextLen ← Text.write (T.showIpAddr address)
    return ⟨methodByAddress, .byAddress text.val⟩

def PeerInfo.fromFields (T : Texts) (publicKey : Key) (endpoint : Option SocketAddr)
    (relay : Option Key) (address : IpCidr) (persistentKeepalive : Option UInt16) :
    Except Error PeerInfo := do
  let address ← Text.write (T.showIpCidr address)
  let publicKey ← Text.write (encodeKey publicKey)
  let endpoint ← match endpoint with
    | some endpoint => some <$> Text.write (T.showSocketAddr endpoint)
    | none => pure none
  let relay ← match relay with
    | some relay => some <$> Text.write (encodeKey relay)
    | none => pure none
  return { publicKey, endpoint, relay, address, persistentKeepalive }

def keyFromWire (value : String) : Except Error Key :=
  match decodeKey value with
  | some key => .ok key
  | none => .error .invalidSyntax

/-- Decode a peer record.  Its meaning is for the core to judge. -/
def decodePeer (T : Texts) (info : PeerInfo) : Except Error ResolvedPeer := do
  let publicKey ← keyFromWire info.publicKey.val
  let endpoint ← match info.endpoint with
    | none => .ok none
    | some value => match T.parseSocketAddr value.val with
      | some endpoint => .ok (some (Ip.unmapSocketAddr endpoint))
      | none => .error .invalidSyntax
  let relay ← match info.relay with
    | none => .ok none
    | some value => some <$> keyFromWire value.val
  let address ← match T.parseIpCidr info.address.val with
    | some address => .ok address
    | none => .error .invalidSyntax
  return {
    publicKey, endpoint, relay, address
    inboundPolicy := .allowAll
    persistentKeepalive :=
      (info.persistentKeepalive.filter (· ≠ 0)).map fun seconds => seconds.toNat * 1000 }

/-- Only the explicit miss becomes an authoritative one. -/
def classifyResult (T : Texts) : LookupResult → ResolveOutcome
  | .found info => match decodePeer T info with
    | .ok peer => .found peer
    | .error _ => .failed
  | .notFound => .notFound

theorem classifyResult_eq_notFound {T : Texts} {r : LookupResult}
    (h : classifyResult T r = .notFound) : r = .notFound := by
  cases r with
  | notFound => rfl
  | found info =>
    simp only [classifyResult] at h
    cases hinfo : decodePeer T info with
    | ok peer =>
      rw [hinfo] at h
      exact nomatch h
    | error e =>
      rw [hinfo] at h
      exact nomatch h

end Microtun.Api
