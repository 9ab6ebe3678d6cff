import Microtun.Session

/-! Peer-owned state, `peer.rs`. -/

namespace Microtun

inductive PeerKind where
  | pinned
  | dynamic
deriving DecidableEq, Repr

/-- The session generations of a peer and their timers. -/
structure PeerSessions where
  current : Option Nat
  previous : Option Nat
  next : Option Nat
  handshake : Option Nat
  keepaliveDue : Option Nat
  persistentKeepaliveDue : Option Nat
  replyDue : Option Nat
  attemptDeadline : Option Nat
deriving DecidableEq, Repr

namespace PeerSessions

def default : PeerSessions := ⟨none, none, none, none, none, none, none, none⟩

def slots (s : PeerSessions) : List (Option Nat) := [s.current, s.previous, s.next, s.handshake]

def validateResponderInstall (s : PeerSessions) (sidx : Nat) : Except Error Unit :=
  if s.next.isSome ∧ s.next ≠ some sidx then .error .internalInvariant else .ok ()

def commitResponderInstall (s : PeerSessions) (sidx : Nat) : PeerSessions :=
  { s with next := some sidx }

/-- Make `sidx` the current session; gives the session that stops being the previous one. -/
def rotateCurrent (s : PeerSessions) (sidx : Nat) : Option Nat × PeerSessions :=
  (s.previous, { s with previous := s.current, current := some sidx })

def installInitiator (s : PeerSessions) (sidx : Nat) : Except Error (Option Nat) × PeerSessions :=
  if s.handshake ≠ some sidx then (.error .internalInvariant, s)
  else
    let (old, s) := { s with handshake := none, attemptDeadline := none }.rotateCurrent sidx
    (.ok old, s)

def confirmResponder (s : PeerSessions) (sidx : Nat) : Except Error (Option Nat) × PeerSessions :=
  if s.next ≠ some sidx then (.error .internalInvariant, s)
  else
    let (old, s) := { s with next := none }.rotateCurrent sidx
    (.ok old, s)

def beginHandshake (s : PeerSessions) (sidx deadline : Nat) : Except Error Unit × PeerSessions :=
  if s.handshake.isSome then (.error .internalInvariant, s)
  else
    (.ok (), { s with
      handshake := some sidx
      attemptDeadline := if s.attemptDeadline.isNone then some deadline else s.attemptDeadline })

def abortHandshake (s : PeerSessions) : PeerSessions :=
  { s with handshake := none, attemptDeadline := none }

/-- Forget a slot. -/
def unlink (s : PeerSessions) (sidx : Nat) : PeerSessions :=
  let s := if s.current = some sidx then { s with current := none } else s
  let s := if s.previous = some sidx then { s with previous := none } else s
  let s := if s.next = some sidx then { s with next := none } else s
  if s.handshake = some sidx then s.abortHandshake else s

end PeerSessions

/-- A peer. -/
structure PeerEntry where
  publicKey : Key
  precomputedStaticStatic : Key
  kind : PeerKind
  endpoint : Option SocketAddr
  endpointConfirmed : Option Nat
  relay : Option Key
  inboundPolicy : InboundPolicy
  persistentKeepalive : Option Nat
  address : IpCidr
  greatestTs : Bytes 12
  lastInitiationConsumption : Option Nat
  cookie : Option (Bytes 16 × Nat)
  lastMac1 : Option (Bytes 16)
  sessions : PeerSessions
  lastRelayResolve : Option Nat
  latestHandshake : Option Nat
  rxBytes : Nat
  txBytes : Nat
  lastActivity : Nat
deriving DecidableEq, Repr

namespace PeerEntry

def new (publicKey : Key) (kind : PeerKind) (precomputedStaticStatic : Key)
    (endpoint : Option SocketAddr) (relay : Option Key) (inboundPolicy : InboundPolicy)
    (persistentKeepalive : Option Nat) (address : IpCidr) (now : Nat) : PeerEntry :=
  let persistentKeepalive := persistentKeepalive.filter (· ≠ 0)
  { publicKey
    precomputedStaticStatic
    kind
    endpoint := endpoint.map Ip.unmapSocketAddr
    endpointConfirmed := none
    relay
    inboundPolicy
    persistentKeepalive
    address
    greatestTs := .zero 12
    lastInitiationConsumption := none
    cookie := none
    lastMac1 := none
    sessions := { PeerSessions.default with
      persistentKeepaliveDue := persistentKeepalive.map (saturatingAdd now) }
    lastRelayResolve := none
    latestHandshake := none
    rxBytes := 0
    txBytes := 0
    lastActivity := now }

/-- Apply an endpoint learned from authenticated traffic; says whether that is news. -/
def observeDirectEndpoint (p : PeerEntry) (endpoint : SocketAddr) (now : Nat) : Bool × PeerEntry :=
  if p.relay.isSome then (false, p)
  else
    (p.endpointConfirmed.isNone ∨ p.endpoint ≠ some endpoint,
      { p with endpoint := some endpoint, endpointConfirmed := some now })

def isPinned (p : PeerEntry) : Bool := p.kind = .pinned

end PeerEntry

end Microtun
