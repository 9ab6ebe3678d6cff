import Microtun.Core.Admission

/-! Timers, construction and the public calls of `lib.rs`, and the runs of an engine. -/

namespace Microtun

variable {cap : Capacities} {R P : Type}

namespace Core

/-- The next instant at which the engine should be called. -/
def pollAt (c : Core cap R P) : Option Nat := c.timers.get

/-- The earliest timer of a peer. -/
def peerDeadline (peer : PeerEntry) : Option Nat :=
  minDeadline (minDeadline peer.sessions.keepaliveDue peer.sessions.persistentKeepaliveDue)
    peer.sessions.replyDue

/-- The earliest timer of a slot. -/
def slotDeadline (c : Core cap R P) : Slot cap.replayWords → Option Nat
  | .free => none
  | .initiating handshake =>
    minDeadline (some handshake.retryAt)
      ((c.peer handshake.peer).bind fun p => p.sessions.attemptDeadline)
  | .established session => some (saturatingAdd session.created rejectAfterTime)

/-- Walk all timer state for the true earliest deadline. -/
def scanDeadlines (c : Core cap R P) : Option Nat :=
  let at_ := c.peers.toList.foldl (fun at_ o => minDeadline at_ (o.bind peerDeadline)) none
  let at_ := c.slots.toList.foldl (fun at_ s => minDeadline at_ (c.slotDeadline s)) at_
  let at_ := minDeadline at_ c.pending.nextDeadline
  let at_ := c.resolves.foldl (fun at_ r => minDeadline at_ (some r.deadline)) at_
  c.pendingReconciles.foldl (fun at_ p => minDeadline at_ (some p.due)) at_

/-- Has the deadline passed? -/
def isDue (now : Nat) (deadline : Option Nat) : Bool := deadline.any (· ≤ now)

end Core

section

variable [Crypto] [RngCore R]

/-- The timer action of one slot, if one is due. -/
def slotTimer (now sidx : Nat) : CoreM cap R P Bool := do
  let core ← getCore
  match core.slot sidx with
  | some (.initiating handshake) =>
    let pidx := handshake.peer
    if Core.isDue now ((core.peer pidx).bind fun p => p.sessions.attemptDeadline) then
      ignore (freeSlot sidx)
      modifyCore fun c => { c with pending := c.pending.dropIf fun p => p.wait = .handshake pidx }
      return true
    else if handshake.retryAt ≤ now then
      retransmitInitiation pidx sidx now
      return true
    else return false
  | some (.established session) =>
    if rejectAfterTime ≤ saturatingSince now session.created then
      ignore (freeSlot sidx)
      return true
    else return false
  | _ => return false

/-- Change the timers of a peer. -/
def modifyTimers (pidx : Nat) (f : PeerSessions → PeerSessions) : CoreM cap R P Unit :=
  modifyCore fun c => c.modifyPeer pidx fun p => { p with sessions := f p.sessions }

/-- The timer action of one peer, if one is due: a keepalive, a persistent keepalive, or a new
handshake for data that went unanswered. -/
def peerTimer (now pidx : Nat) : CoreM cap R P Bool := do
  let core ← getCore
  match core.peer pidx with
  | none => return false
  | some peer =>
    if Core.isDue now peer.sessions.keepaliveDue then
      modifyTimers pidx fun s => { s with keepaliveDue := none }
      match core.usableSession pidx now with
      | some sidx => ignore (encryptAndSend pidx sidx [] now)
      | none => pure ()
      return true
    else if Core.isDue now peer.sessions.persistentKeepaliveDue then
      modifyTimers pidx fun s => { s with persistentKeepaliveDue := none }
      match core.usableSession pidx now with
      | some sidx => ignore (encryptAndSend pidx sidx [] now)
      | none =>
        ignore (ensureHandshake pidx now)
        match peer.persistentKeepalive with
        | some interval =>
          let deadline := saturatingAdd now interval
          modifyTimers pidx fun s => { s with persistentKeepaliveDue := some deadline }
          modifyCore fun c => c.arm deadline
        | none => pure ()
      return true
    else if Core.isDue now peer.sessions.replyDue then
      modifyTimers pidx fun s => { s with replyDue := none }
      ignore (ensureHandshake pidx now)
      return true
    else return false

/-- The first action of a list that finds something due. -/
def firstDue (action : Nat → CoreM cap R P Bool) : List Nat → CoreM cap R P Bool
  | [] => return false
  | i :: rest => do
    if ← action i then return true else firstDue action rest

/-- Process one timer action that is due. -/
def timeout (now : Nat) : CoreM cap R P Bool := do
  let expired ← updateCore fun c =>
    let (expired, pending) := c.pending.expireOne now
    (expired, { c with pending })
  if expired then return true
  else if ← changeLookups (Core.expireOneResolve now) then return true
  else if ← updateCore (Core.promoteDueReconcile now) then return true
  else if ← firstDue (slotTimer now) (List.range cap.maxSessions) then return true
  else firstDue (peerTimer now) (List.range cap.maxPeers)

end

/-- The embedding's sink: whether it accepts a lookup may depend on all that happened before.  The
other calls of the sink return nothing. -/
structure Sink where
  resolve : List Event → ResolveRequest → Bool

/-- Report released records, the last one first. -/
def flushEvictions : CoreM cap R P Unit := modifyGet fun w =>
  ((), { w with
    core := { w.core with pendingPeerEvictions := [] }
    log := (w.core.pendingPeerEvictions.map Event.peerEvicted) ++ w.log })

/-- Offer the lookups that were not offered yet, until the sink refuses one.  There are no more of
them than `fuel`. -/
def flushResolves (sink : Sink) : (fuel : Nat) → CoreM cap R P Unit
  | 0 => return ()
  | fuel + 1 => do
    let w ← get
    match w.core.resolves.findIdx? fun r => !r.emitted with
    | none => return ()
    | some pos =>
      match w.core.resolves[pos]? with
      | none => return ()
      | some pending =>
        let request : ResolveRequest := ⟨pending.id, pending.query⟩
        let accepted := sink.resolve w.log request
        emit (.resolve request accepted)
        if !accepted then return ()
        else
          modifyCore fun c =>
            { c with resolves := c.resolves.modify pos fun r => { r with emitted := true } }
          flushResolves sink fuel

/-- Deliver pending control-plane output. -/
def flushSinkOutput (sink : Sink) : CoreM cap R P Unit := do
  flushEvictions
  let core ← getCore
  flushResolves sink core.resolves.length

section

variable [Crypto] [RngCore R]

/-- Send a plaintext inner packet through the tunnel. -/
def sendInner (now : Nat) (packet : List UInt8) (sink : Sink) : CoreM cap R P (Except Error Unit) :=
  do
  let result ← (outbound now packet).run
  flushSinkOutput sink
  return result

/-- Feed one datagram from the outer network to the engine. -/
def receiveOuter [RelayPolicy P] (now : Nat) (source : SocketAddr) (data : List UInt8)
    (sink : Sink) : CoreM cap R P (Except Error Unit) := do
  let source := Ip.unmapSocketAddr source
  let result ←
    if maxUdpSize < data.length then pure (.error .packetTooLarge)
    else (datagram now source data).run
  flushSinkOutput sink
  return result

/-- Process at most one timer action.  Says whether there was one; if not, the cached deadline is
recomputed exactly. -/
def handleTimeout (now : Nat) (sink : Sink) : CoreM cap R P Bool := do
  let handled ← timeout now
  if handled then
    modifyCore fun c => c.arm now
  else
    modifyCore fun c => { c with timers := c.timers.setExact c.scanDeadlines }
  flushSinkOutput sink
  return handled

/-- Deliver a lookup completion or an update of a held peer. -/
def resolverEventCompleted (now : Nat) (event : ResolverEvent) (sink : Sink) :
    CoreM cap R P (Except Error Unit) := do
  let result ← (match event with
    | .resolved response => resolved now response
    | .peerUpdated update => peerUpdated now update).run
  flushSinkOutput sink
  return result

end

/-- Inject the wall clock. -/
def setUnixTime (unixSecs nanos now : Nat) : CoreM cap R P Unit :=
  let nanosNow := min (min (unixSecs * 1000000000) maxMillis + nanos) maxMillis
  modifyCore fun c => { c with wall := some ⟨nanosNow, now⟩ }

section

variable [Crypto]

/-- Do two prefixes overlap? -/
def cidrsOverlap (a b : IpCidr) : Bool := a.contains b.firstAddress || b.contains a.firstAddress

/-- Refuse pool parameters that no table can be built with. -/
def validatePoolParameters (cap : Capacities) : Except Error Unit :=
  if cap.maxPeers = 0 ∨ cap.maxSessions = 0 ∨ cap.replayWords = 0 ∨ maxU32 < cap.maxPeers ∨
      maxU32 < cap.maxSessions then .error .invalidCapacity
  else if cap.backend = .inline ∧ (cap.maxPeers ≤ 1 ∨ ¬cap.maxPeers.isPowerOfTwo ∨
      cap.maxSessions ≤ 1 ∨ ¬cap.maxSessions.isPowerOfTwo) then .error .invalidCapacity
  else .ok ()

/-- Is a pinned peer's relay another pinned peer that is directly reachable? -/
def relayReachable (pinned : List PinnedPeer) (peer : PinnedPeer) : Bool :=
  peer.relay.all fun relayKey => relayKey ≠ peer.publicKey &&
    (pinned.find? fun candidate => candidate.publicKey = relayKey).any fun relay =>
      relay.endpoint.isSome && relay.relay.isNone

/-- Check the pinned peers one after the other, each against those before it. -/
def validatePinned (sPub : Key) (pinned : List PinnedPeer) :
    List PinnedPeer → List PinnedPeer → Except Error Unit
  | _, [] => .ok ()
  | previous, peer :: rest =>
    if peer.publicKey = sPub ∨ (previous.any fun other => other.publicKey = peer.publicKey) ∨
        !relayReachable pinned peer ∨ peer.address.networkLength = 0 ∨
        (previous.any fun other => cidrsOverlap other.address peer.address) then
      .error .invalidPinnedConfiguration
    else validatePinned sPub pinned (previous ++ [peer]) rest

/-- Install the pinned peers and their routes. -/
def installPinned (now : Nat) : Nat → List PinnedPeer → CoreE cap R P Unit
  | _, [] => return ()
  | i, p :: rest => do
    let core ← getCore
    let shared ← liftExcept (dh core.sPriv p.publicKey)
    installPeer i (.new p.publicKey .pinned shared p.endpoint p.relay p.inboundPolicy
      p.persistentKeepalive p.address now)
    tryRoutes fun routes => routes.insert p.address i true now
    installPinned now (i + 1) rest

/-- An engine with empty tables. -/
def Core.empty (config : Config) (rng : R) (relayPolicy : P) (cookieSecret : CookieSecret)
    (now : Nat) : Core cap R P :=
  let cc := config.coreConfig
  let sPub := Crypto.publicKey config.privateKey
  { rng
    relayPolicy
    coreConfig := cc
    sPriv := config.privateKey
    sPub
    ourMac1Key := Cookie.mac1Key sPub
    ourCookieKey := Cookie.cookieKey sPub
    peers := Vector.replicate _ none
    peersByPublicKey := ∅
    slots := Vector.replicate _ .free
    sessionIndices := .new _ _
    routes := .new _ cap.backend
    timers := .new
    pending := .new _
    pendingInitiations := Vector.replicate _ none
    resolves := []
    pendingPeerEvictions := []
    pendingReconciles := []
    nextResolveId := 1
    cookieSecret
    rate := .new cc.rateLimitPerSec cc.rateLimitBurst cc.rateLimitEntries
    remoteResolves := .new cc.remoteResolvePerSec cc.remoteResolveBurst now
    unknownAuthentications := .new cc.unknownAuthPerSec cc.unknownAuthBurst now
    peerEvictions := .new cc.peerEvictionInterval cc.peerEvictionBurst now
    evictedPeerGhosts := Vector.replicate _ none
    firewall := .withLimitsAndTimeouts _ cap.backend.maxFirewallFlows cc.firewallFlowEntries
      cc.firewallFlowsPerPeer cc.firewallUdpTimeout cc.firewallIcmpTimeout cc.firewallTcpTimeout
      cc.firewallTcpClosingTimeout
    wall := none
    lastTs := .zero 12
    hsWindowStart := now
    hsWindowCount := 0
    hsPrevCount := 0 }

variable [RngCore R]

/-- Build an engine: check the configuration, then install the pinned peers. -/
def Core.new (config : Config) (rng : R) (relayPolicy : P) (now : Nat) :
    Except Panic (Except Error (World cap R P)) :=
  let checked : Except Error Unit := do
    validatePoolParameters cap
    config.coreConfig.validateAgainstLimits cap.backend
    if cap.maxPeers < config.coreConfig.lazyPeerReserve then throw .invalidCapacity
    if config.privateKey = .zero 32 then throw .invalidPrivateKey
    if cap.maxPeers < config.pinned.length then throw .peerTableFull
    validatePinned (Crypto.publicKey config.privateKey) config.pinned [] config.pinned
  match checked with
  | .error e => .ok (.error e)
  | .ok () =>
    let (cookieSecret, rng) := CookieSecret.new rng now
    match (installPinned now 0 config.pinned).run
        ⟨Core.empty config rng relayPolicy cookieSecret now, [], 0⟩ with
    | .error panic => .error panic
    | .ok (.error e, _) => .ok (.error e)
    | .ok (.ok (), w) => .ok (.ok w)

end

section

variable [Crypto] [RngCore R] [RelayPolicy P]

/-- A public call.  The wall clock can be set between any two others. -/
inductive Call where
  | sendInner (now : Nat) (packet : List UInt8) (sink : Sink)
  | receiveOuter (now : Nat) (source : SocketAddr) (data : List UInt8) (sink : Sink)
  | handleTimeout (now : Nat) (sink : Sink)
  | resolverEventCompleted (now : Nat) (event : ResolverEvent) (sink : Sink)
  | setUnixTime (unixSecs nanos now : Nat)

/-- What a call does to the world. -/
def Call.run : Call → CoreM cap R P Unit
  | .sendInner now packet sink => do let _ ← Microtun.sendInner now packet sink
  | .receiveOuter now source data sink => do let _ ← Microtun.receiveOuter now source data sink
  | .handleTimeout now sink => do let _ ← Microtun.handleTimeout now sink
  | .resolverEventCompleted now event sink => do
    let _ ← Microtun.resolverEventCompleted now event sink
  | .setUnixTime unixSecs nanos now => Microtun.setUnixTime unixSecs nanos now

/-- The time of a call. -/
def Call.now : Call → Nat
  | .sendInner now .. | .receiveOuter now .. | .handleTimeout now _ | .resolverEventCompleted now
    .. |
    .setUnixTime _ _ now => now

/-- The runs of an engine that is built from `config` at the instant `start`: the calls so far with
the worlds they were made in, latest first, and the world they lead to. -/
inductive Run (cap : Capacities) (config : Config) (start : Nat) :
    List (World cap R P × Call) → World cap R P → Prop
  | new {rng : R} {relayPolicy : P} {w : World cap R P}
    (h : Core.new config rng relayPolicy start = .ok (.ok w)) : Run cap config start [] w
  | call {trace : List (World cap R P × Call)} {w w' : World cap R P} (call : Call)
    (hw : Run cap config start trace w) (h : call.run w = .ok ((), w')) :
    Run cap config start ((w, call) :: trace) w'

/-- The worlds that an engine built from `config` can reach, with any calls at any times. -/
inductive Reachable (cap : Capacities) (config : Config) : World cap R P → Prop
  | new {rng : R} {relayPolicy : P} {now : Nat} {w : World cap R P}
    (h : Core.new config rng relayPolicy now = .ok (.ok w)) : Reachable cap config w
  | call {w w' : World cap R P} (call : Call) (hw : Reachable cap config w)
    (h : call.run w = .ok ((), w')) : Reachable cap config w'

end

end Microtun
