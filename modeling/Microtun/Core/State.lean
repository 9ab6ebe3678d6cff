import Microtun.Cookie
import Microtun.Peer
import Microtun.Pending
import Microtun.Rate
import Microtun.Routing.Model

/-! The state of the engine, `lib.rs`.  A run also keeps a log of what the engine gave to its sink,
together with marks that the code does not have, by which the sessions and counters of a run can be
talked about. -/

namespace Microtun

/-- The const parameters of an engine and its storage backend. -/
structure Capacities where
  backend : Backend
  maxPeers : Nat
  maxSessions : Nat
  replayWords : Nat
  maxRoutes : Nat
deriving DecidableEq, Repr

/-- Decides which relay envelopes may be forwarded. -/
class RelayPolicy (P : Type) where
  authorizeRelay : P → (source destination : Key) → Bool × P

/-- What the resolver is being asked. -/
inductive ResolveQuery where
  | byPublicKey (key : Key)
  | byDstAddress (address : IpAddr)
deriving DecidableEq, Repr

/-- A peer record of the resolver. -/
structure ResolvedPeer where
  publicKey : Key
  endpoint : Option SocketAddr
  relay : Option Key
  address : IpCidr
  inboundPolicy : InboundPolicy
  persistentKeepalive : Option Nat
deriving DecidableEq, Repr

inductive ResolveOutcome where
  | found (info : ResolvedPeer)
  | notFound
  | failed
deriving DecidableEq, Repr

structure ResolveRequest where
  id : Nat
  query : ResolveQuery
deriving DecidableEq, Repr

structure ResolveResponse where
  id : Nat
  outcome : ResolveOutcome
deriving DecidableEq, Repr

/-- Pair an outcome with its request. -/
def ResolveRequest.complete (request : ResolveRequest) (outcome : ResolveOutcome) :
    ResolveResponse :=
  ⟨request.id, outcome⟩

structure PeerUpdate where
  publicKey : Key
  outcome : ResolveOutcome
deriving DecidableEq, Repr

inductive ResolverEvent where
  | resolved (response : ResolveResponse)
  | peerUpdated (update : PeerUpdate)
deriving DecidableEq, Repr

inductive ResolverCommand where
  | resolve (request : ResolveRequest)
  | forget (publicKey : Key)
deriving DecidableEq, Repr

inductive InstallSource where
  | authenticatedInitiator
  | relay
deriving DecidableEq, Repr

inductive PeerAdmission where
  | authenticatedInitiator
  | lazyOutbound
  | lazyRelay
  | heldUpdate
deriving DecidableEq, Repr

inductive ResolveKind where
  | outbound
  | install (source : InstallSource)
  | negative
  | reconcile
deriving DecidableEq, Repr

structure InflightResolve where
  id : Nat
  query : ResolveQuery
  kind : ResolveKind
  deadline : Nat
  emitted : Bool
deriving DecidableEq, Repr

/-- A reconciliation that is owed, and when it may be asked for. -/
structure PendingReconcile where
  publicKey : Key
  due : Nat
deriving DecidableEq, Repr

/-- A handshake attempt of ours. -/
structure Initiating where
  peer : Nat
  localIndex : UInt32
  noise : Noise.InitiatorState
  retryAt : Nat

/-- A session slot. -/
inductive Slot (replayWords : Nat) where
  | free
  | initiating (handshake : Initiating)
  | established (session : Session replayWords)

namespace Slot

variable {replayWords : Nat}

def isFree : Slot replayWords → Bool
  | free => true
  | _ => false

def localIndex : Slot replayWords → Option UInt32
  | free => none
  | initiating handshake => some handshake.localIndex
  | established session => some session.localIndex

/-- The peer that owns a slot. -/
def owner : Slot replayWords → Option Nat
  | free => none
  | initiating handshake => some handshake.peer
  | established session => some session.peer

/-- Does the slot hold a session that is too old to be used? -/
def isExpired (now : Nat) : Slot replayWords → Bool
  | established session => rejectAfterTime ≤ saturatingSince now session.created
  | _ => false

end Slot

structure WallClock where
  baseUnixNanos : Nat
  baseInstant : Nat
deriving DecidableEq, Repr

structure EvictedPeerGhost where
  publicKey : Key
  expires : Nat
deriving DecidableEq, Repr

/-- An authenticated initiation that waits for its lookup. -/
structure PendingInitiation where
  resolveId : Nat
  src : SocketAddr
  consumed : Noise.ConsumedInitiation
deriving DecidableEq, Repr

/-- The engine.  The scratch buffers of the source are left out: what is staged in them is passed
as a value. -/
structure Core (cap : Capacities) (R P : Type) where
  rng : R
  relayPolicy : P
  coreConfig : CoreConfig
  sPriv : Key
  sPub : Key
  ourMac1Key : Key
  ourCookieKey : Key
  peers : Vector (Option PeerEntry) cap.maxPeers
  peersByPublicKey : AList fun _ : Key => Nat
  slots : Vector (Slot cap.replayWords) cap.maxSessions
  sessionIndices : SessionIndexMap cap.backend cap.maxSessions
  routes : RouteCache cap.maxRoutes
  timers : TimerCache
  pending : PendingPool cap.backend.maxPendingPackets
  pendingInitiations : Vector (Option PendingInitiation) cap.backend.maxPendingInitiations
  resolves : List InflightResolve
  pendingPeerEvictions : List Key
  pendingReconciles : List PendingReconcile
  nextResolveId : Nat
  cookieSecret : CookieSecret
  rate : RateLimiter
  remoteResolves : TokenBucket
  unknownAuthentications : TokenBucket
  peerEvictions : IntervalBudget
  evictedPeerGhosts : Vector (Option EvictedPeerGhost) cap.backend.maxPeerEvictionGhosts
  firewall : Firewall cap.maxPeers
  wall : Option WallClock
  lastTs : Bytes 12
  hsWindowStart : Nat
  hsWindowCount : Nat
  hsPrevCount : Nat

/-- The functions that report a broken link between the tables as an internal error. -/
inductive Site where
  | freeSlot
  | evictPeer
  | beginHandshake
  | installInitiator
  | confirmResponder
deriving DecidableEq, Repr

/-- A transport datagram at the moment it is sealed. -/
structure Seal where
  serial : Nat
  counter : Nat
  messageType : UInt8
  confirmed : Bool
  age : Nat
  datagram : List UInt8
deriving DecidableEq, Repr

/-- What a run logs: the calls of the sink, and marks. -/
inductive Event where
  | outerDatagram (destination : SocketAddr) (datagram : List UInt8)
  /-- A delivery, with the session and the counter of the datagram that carried it. -/
  | innerPacket (serial counter : Nat) (srcPeerKey : Key) (srcEndpoint : Option SocketAddr)
    (packet : List UInt8)
  | resolve (request : ResolveRequest) (accepted : Bool)
  | peerEndpointUpdate (publicKey : Key) (endpoint : SocketAddr)
  | peerEvicted (publicKey : Key)
  /-- Mark: a datagram was sealed under a session. -/
  | sealed (record : Seal)
  /-- Mark: a datagram was authenticated under a session and is no replay. -/
  | accepted (serial counter : Nat)
  /-- Mark: one of the functions of `Site` returned `internalInvariant`. -/
  | fault (site : Site)
  /-- Mark: a relayed send under a session failed; the session had used `nSend` counters before. -/
  | relayFailed (serial nSend : Nat)
  /-- Mark: a live lookup left its table: it was answered, it expired, or it was replaced. -/
  | closed (query : ResolveQuery)
  /-- Mark: an initiation was built for a peer; it is `fresh` if it starts an attempt. -/
  | initiation (peer now : Nat) (fresh : Bool)
  /-- Mark: a peer was installed at an index. -/
  | installed (peer : Nat)
  /-- Mark: a peer is removed to make room for another. -/
  | displaced (peer : PeerEntry) (now : Nat)
  /-- Mark: an initiation of a peer passed the replay check and the gate, and is to be answered. -/
  | admitted (peer : Nat) (timestamp : Bytes 12) (now : Nat)
  /-- Mark: an initiation was authenticated; its sender is an installed peer if it is `known`. -/
  | authenticated (consumed : Noise.ConsumedInitiation) (known : Bool)
  /-- Mark: the lookup of an unknown sender was queued; the pool has `room` for its initiation. -/
  | sought (id : Nat) (consumed : Noise.ConsumedInitiation) (room : Bool)
deriving DecidableEq, Repr

/-- An engine with the log of its run, latest event first. -/
structure World (cap : Capacities) (R P : Type) where
  core : Core cap R P
  log : List Event
  /-- The number of sessions established so far. -/
  established : Nat

namespace Core

variable {cap : Capacities} {R P : Type} (c : Core cap R P)

/-- The peer at an index. -/
def peer (pidx : Nat) : Option PeerEntry := c.peers[pidx]?.join

def setPeer (pidx : Nat) (p : Option PeerEntry) : Core cap R P :=
  { c with peers := c.peers.setIfInBounds pidx p }

/-- Change the peer at an index, if there is one. -/
def modifyPeer (pidx : Nat) (f : PeerEntry → PeerEntry) : Core cap R P :=
  match c.peer pidx with
  | some p => c.setPeer pidx (some (f p))
  | none => c

def slot (sidx : Nat) : Option (Slot cap.replayWords) := c.slots[sidx]?

def setSlot (sidx : Nat) (s : Slot cap.replayWords) : Core cap R P :=
  { c with slots := c.slots.setIfInBounds sidx s }

/-- The session in a slot. -/
def session (sidx : Nat) : Option (Session cap.replayWords) :=
  match c.slot sidx with
  | some (.established s) => some s
  | _ => none

/-- Change the session in a slot, if there is one. -/
def modifySession (sidx : Nat) (f : Session cap.replayWords → Session cap.replayWords) :
    Core cap R P :=
  match c.session sidx with
  | some s => c.setSlot sidx (.established (f s))
  | none => c

def arm (instant : Nat) : Core cap R P := { c with timers := c.timers.arm instant }

/-- Arm the timer for a deadline, if there is one. -/
def armSome (deadline : Option Nat) : Core cap R P :=
  match deadline with
  | some instant => c.arm instant
  | none => c

def findPeer (publicKey : Key) : Option Nat := c.peersByPublicKey.lookup publicKey

def slotOwner (sidx : Nat) : Option Nat := (c.slot sidx).bind Slot.owner

def slotForSessionIndex (index : UInt32) : Option Nat := c.sessionIndices.slotFor index

/-- The peer's current session, if it may encrypt now. -/
def usableSession (pidx now : Nat) : Option Nat := do
  let p ← c.peer pidx
  let sidx ← p.sessions.current
  let s ← c.session sidx
  if s.canSend now then some sidx else none

end Core

/-- Programs of the engine. -/
abbrev CoreM (cap : Capacities) (R P : Type) := StateT (World cap R P) (Except Panic)

/-- Programs of the engine that may fail. -/
abbrev CoreE (cap : Capacities) (R P : Type) := ExceptT Error (CoreM cap R P)

section

variable {cap : Capacities} {R P α : Type} {m : Type → Type} [Monad m]
  [MonadState (World cap R P) m]

def getCore : m (Core cap R P) := do return (← get).core

/-- Run a change of the state that gives a result. -/
def updateCore (f : Core cap R P → α × Core cap R P) : m α :=
  modifyGet fun w => ((f w.core).1, { w with core := (f w.core).2 })

def modifyCore (f : Core cap R P → Core cap R P) : m Unit := updateCore fun c => ((), f c)

/-- The marks for the live lookups that a change of the table removes. -/
def closings (before after : List InflightResolve) : List Event :=
  (before.filter fun r => r.kind ≠ .negative ∧ r ∉ after).map fun r => .closed r.query

/-- Run a change of the table of lookups, with a mark for every live lookup that it removes. -/
def changeLookups (f : Core cap R P → α × Core cap R P) : m α :=
  modifyGet fun w => ((f w.core).1, { w with
    core := (f w.core).2
    log := closings w.core.resolves (f w.core).2.resolves ++ w.log })

/-- Use the random number generator. -/
def withRng (f : R → α × R) : m α :=
  updateCore fun c => ((f c.rng).1, { c with rng := (f c.rng).2 })

/-- The number of a session that is being established. -/
def newSerial : m Nat :=
  modifyGet fun w => (w.established, { w with established := w.established + 1 })

/-- Give something to the sink, or leave a mark. -/
def emit (e : Event) : m Unit := modifyGet fun w => ((), { w with log := e :: w.log })

end

variable {cap : Capacities} {R P α : Type}

/-- Run a change of the state that may fail. -/
def tryCore (f : Core cap R P → Except Error α × Core cap R P) : CoreE cap R P α :=
  ExceptT.mk (updateCore f)

/-- Use the random number generator in a step that may fail. -/
def tryRng (f : R → Except Error α × R) : CoreE cap R P α := ExceptT.mk (withRng f)

/-- A step that does not touch the state and may fail. -/
def liftExcept (r : Except Error α) : CoreE cap R P α := ExceptT.mk (pure r)

/-- Run a program and look at how it ended. -/
def attempt (prog : CoreE cap R P α) : CoreE cap R P (Except Error α) :=
  ExceptT.mk do return .ok (← prog.run)

/-- Run a program and drop its result, `let _ = ...`. -/
def ignore (prog : CoreE cap R P α) : CoreM cap R P Unit := do
  let _ ← prog.run
  return ()

/-- Mark the return of an internal error. -/
def watch (site : Site) (prog : CoreE cap R P α) : CoreE cap R P α := ExceptT.mk do
  let r ← prog.run
  match r with
  | .error .internalInvariant => emit (.fault site)
  | _ => pure ()
  return r

/-- An operation of the route cache. -/
def withRoutes (f : RouteCache cap.maxRoutes → Except Panic (α × RouteCache cap.maxRoutes)) :
    CoreM cap R P α := fun w =>
  match f w.core.routes with
  | .error e => .error e
  | .ok (a, routes) => .ok (a, { w with core := { w.core with routes } })

/-- An operation of the route cache that may fail. -/
def tryRoutes
    (f : RouteCache cap.maxRoutes → Except Panic (Except Error α × RouteCache cap.maxRoutes)) :
    CoreE cap R P α := ExceptT.mk (withRoutes f)

end Microtun
