import Microtun.Core.Receive

/-! Admission, update and removal of dynamic peers, and resolver answers, `resolver.rs`. -/

namespace Microtun

variable {cap : Capacities} {R P : Type}

namespace Core

/-- Note that a resolver record was released. -/
def queuePeerEvicted (publicKey : Key) (c : Core cap R P) : Core cap R P :=
  if publicKey ∈ c.pendingPeerEvictions then c
  else if cap.backend = .inline ∧ cap.maxPeers ≤ c.pendingPeerEvictions.length then c
  else { c with pendingPeerEvictions := c.pendingPeerEvictions ++ [publicKey] }

/-- Is every listed slot owned by the peer and addressed by its own index? -/
def ownsSlots (pidx : Nat) (slots : List Nat) (c : Core cap R P) : Bool :=
  slots.all fun sidx =>
    match c.slot sidx with
    | none => false
    | some slot => slot.owner = some pidx ∧
        (slot.localIndex.all fun index => c.sessionIndices.slotFor index = some sidx)

/-- Free the slots of a peer that was taken out of the table. -/
def releaseSlots : List Nat → Core cap R P → Except Error Unit × Core cap R P
  | [], c => (.ok (), c)
  | sidx :: rest, c =>
    match c.slot sidx with
    | none => (.error .internalInvariant, c)
    | some slot =>
      match slot.localIndex with
      | none => releaseSlots rest (c.setSlot sidx .free)
      | some index =>
        match c.sessionIndices.remove index sidx with
        | (.error e, sessionIndices) => (.error e, { c with sessionIndices })
        | (.ok (), sessionIndices) =>
          releaseSlots rest ({ c with sessionIndices }.setSlot sidx .free)

/-- The dynamic peer to give up for capacity: idle for long enough, without sessions, with at least
so many routes; of these the one that was active least recently. -/
def capacityVictimExcluding (now : Nat) (exclude : Option Nat) (minimumRoutesToFree : Nat)
    (c : Core cap R P) : Option Nat :=
  let candidates := c.peers.toList.zipIdx.filterMap fun (o, pidx) =>
    match o with
    | none => none
    | some peer =>
      if some pidx ≠ exclude ∧ !peer.isPinned ∧ peer.sessions.slots.all Option.isNone ∧
          c.coreConfig.dynamicPeerMinIdle ≤ saturatingSince now peer.lastActivity ∧
          minimumRoutesToFree ≤ c.routes.peerRouteCount pidx then
        some (pidx, peer.lastActivity)
      else none
  (minByKey (·.2) candidates).map (·.1)

/-- Charge the budget for destructive evictions. -/
def takeEviction (now : Nat) (c : Core cap R P) : Bool × Core cap R P :=
  let (allowed, peerEvictions) := c.peerEvictions.tryTake now
  (allowed, { c with peerEvictions })

/-- The invariants that every resolver answer has to meet. -/
def checkResolvedAnswer (query : ResolveQuery) (info : ResolvedPeer) (c : Core cap R P) :
    Except Error Unit :=
  if (match query with
      | .byPublicKey expected => decide (info.publicKey ≠ expected)
      | .byDstAddress _ => false) then .error .invalidResolverAnswer
  else if info.publicKey = c.sPub then .error .invalidResolverAnswer
  else if ((c.findPeer info.publicKey).bind c.peer).any PeerEntry.isPinned then
    .error .invalidResolverAnswer
  else if info.relay = some info.publicKey then .error .invalidResolverAnswer
  else if info.address.networkLength = 0 then .error .invalidResolverAnswer
  else .ok ()

/-- Normalize and check a resolver answer. -/
def canonicalizeResolvedAnswer (query : ResolveQuery) (info : ResolvedPeer) (c : Core cap R P) :
    Except Error ResolvedPeer := do
  let info := { info with endpoint := info.endpoint.map Ip.unmapSocketAddr }
  c.checkResolvedAnswer query info
  return info

/-- A record replaces the peer's metadata; its address is committed with its route. -/
def refreshedPeer (info : ResolvedPeer) (now : Nat) (peer : PeerEntry) : PeerEntry :=
  let peer :=
    if peer.endpoint ≠ info.endpoint then
      { peer with endpoint := info.endpoint, endpointConfirmed := none }
    else peer
  let peer := { peer with relay := info.relay, inboundPolicy := info.inboundPolicy }
  let persistentKeepalive : Option Nat := info.persistentKeepalive.filter (· ≠ 0)
  if peer.persistentKeepalive ≠ persistentKeepalive then
    { peer with
      persistentKeepalive
      sessions := { peer.sessions with
        persistentKeepaliveDue := persistentKeepalive.map (saturatingAdd now) } }
  else peer

/-- Refresh an installed peer; says whether its address has to change. -/
def refreshPeer (pidx : Nat) (info : ResolvedPeer) (now : Nat) (c : Core cap R P) :
    Except Error Bool × Core cap R P :=
  match c.peer pidx with
  | none => (.error .invalidResolverAnswer, c)
  | some peer =>
    let updated := refreshedPeer info now peer
    let c := c.setPeer pidx (some updated)
    let c :=
      if peer.persistentKeepalive ≠ updated.persistentKeepalive then
        c.armSome updated.sessions.persistentKeepaliveDue
      else c
    let c :=
      if peer.inboundPolicy ≠ info.inboundPolicy then
        { c with firewall := c.firewall.removePeer pidx }
      else c
    (.ok (decide (peer.address ≠ info.address)), c)

end Core

/-- Remove a peer, with its slots, routes, flows and parked packets. -/
def evictPeer (pidx : Nat) : CoreE cap R P Unit := watch .evictPeer do
  let core ← getCore
  match core.peer pidx with
  | none => return ()
  | some peer =>
    let slots := peer.sessions.slots.reduceOption
    if !core.ownsSlots pidx slots then throw .internalInvariant
    else
      match ← tryCore (Core.takePeer pidx) with
      | none => return ()
      | some peer =>
        tryCore (Core.releaseSlots slots)
        tryRoutes fun routes => routes.removePeer pidx
        modifyCore fun c => { c with
          firewall := c.firewall.removePeer pidx
          pending := c.pending.dropIf fun p => p.wait = .handshake pidx }
        if !peer.isPinned then
          modifyCore (Core.queuePeerEvicted peer.publicKey)

def evictPeerAndRemember (pidx now : Nat) : CoreE cap R P Unit := do
  let core ← getCore
  match core.peer pidx with
  | none => return ()
  | some peer =>
    emit (.displaced peer now)
    evictPeer pidx
    modifyCore (Core.rememberEvictedPeer peer.publicKey now)

def evictPeerForCapacity (pidx now : Nat) : CoreE cap R P Unit := do
  if !(← updateCore (Core.takeEviction now)) then throw .peerAdmissionLimited
  else evictPeerAndRemember pidx now

/-- Make room for one more route, if there is none. -/
def makeRouteRoom (pidx now : Nat) (allowPeerEviction : Bool) : CoreE cap R P Unit := do
  let core ← getCore
  let available := core.routes.availableSlots + core.routes.peerRouteCount pidx
  if available ≠ 0 then return ()
  else if !allowPeerEviction then throw .routeCacheFull
  else
    match core.capacityVictimExcluding now (some pidx) 1 with
    | none => throw .routeCacheFull
    | some victim =>
      if !(← updateCore (Core.takeEviction now)) then throw .peerAdmissionLimited
      else evictPeerAndRemember victim now

/-- Reinstall the peer's single route. -/
def replaceDynamicRoute (pidx : Nat) (address : IpCidr) (now : Nat) (allowPeerEviction : Bool) :
    CoreE cap R P Unit := do
  makeRouteRoom pidx now allowPeerEviction
  tryRoutes fun routes => routes.removePeer pidx
  tryRoutes fun routes => routes.insert address pidx false now
  tryCore fun c =>
    match c.peer pidx with
    | none => (.error .internalInvariant, c)
    | some peer => (.ok (), c.setPeer pidx (some { peer with address }))

variable [Crypto]

/-- The entry of a new dynamic peer. -/
def newDynamicPeer (info : ResolvedPeer) (now : Nat) : CoreE cap R P PeerEntry := do
  let core ← getCore
  let shared ← liftExcept (dh core.sPriv info.publicKey)
  return .new info.publicKey .dynamic shared info.endpoint info.relay info.inboundPolicy
    info.persistentKeepalive info.address now

/-- Admit a new peer: into a free slot that it may use, else in place of an idle peer. -/
def admitPeer (info : ResolvedPeer) (now : Nat) (admission : PeerAdmission) :
    CoreE cap R P Nat := do
  let ghosted ← updateCore (Core.peerIsGhosted info.publicKey now)
  if ghosted then throw .peerAdmissionLimited
  else
    let core ← getCore
    let freeIndex := core.peers.toList.findIdx? Option.isNone
    let mayUseFree : Bool := admission = .authenticatedInitiator ∨
      core.coreConfig.lazyPeerReserve < core.freePeers
    match if mayUseFree then freeIndex else none with
    | some i =>
      let peer ← newDynamicPeer info now
      installPeer i peer
      return i
    | none =>
      if admission = .heldUpdate then throw .invalidResolverAnswer
      else if admission = .lazyRelay then throw .peerAdmissionLimited
      else
        match core.capacityVictimExcluding now none (1 - core.routes.availableSlots) with
        | none =>
          if admission = .lazyOutbound then throw .peerAdmissionLimited else throw .peerTableFull
        | some i =>
          let peer ← newDynamicPeer info now
          evictPeerForCapacity i now
          installPeer i peer
          return i

/-- Insert or refresh a dynamic peer.  Gives the peer, whether its route has to change, and whether
it is new. -/
def upsertPeerUnchecked (info : ResolvedPeer) (now : Nat) (admission : PeerAdmission) :
    CoreE cap R P (Nat × Bool × Bool) := do
  let core ← getCore
  match core.findPeer info.publicKey with
  | some pidx =>
    let routesChanged ← tryCore (Core.refreshPeer pidx info now)
    return (pidx, routesChanged, false)
  | none =>
    let pidx ← admitPeer info now admission
    return (pidx, true, true)

/-- Replace the record of an installed dynamic peer, its route first. -/
def commitExistingResolvedPeer (pidx : Nat) (info : ResolvedPeer) (now : Nat)
    (admission : PeerAdmission) (allowPeerEviction : Bool) : CoreE cap R P Unit := do
  let core ← getCore
  match core.peer pidx with
  | none => throw .internalInvariant
  | some peer =>
    if peer.address ≠ info.address then
      replaceDynamicRoute pidx info.address now allowPeerEviction
    let (updated, _, installedNew) ← upsertPeerUnchecked info now admission
    if updated ≠ pidx ∨ installedNew then throw .internalInvariant

/-- Reconcile a record that this device holds. -/
def applyHeldAnswer (now : Nat) (publicKey : Key) (outcome : ResolveOutcome) :
    CoreE cap R P Unit := do
  let core ← getCore
  match core.findPeer publicKey with
  | none => modifyCore (Core.forgetReconcile publicKey)
  | some pidx =>
    if !((core.peer pidx).any fun p => !p.isPinned && decide (p.publicKey = publicKey)) then
      modifyCore (Core.forgetReconcile publicKey)
    else
      let query := ResolveQuery.byPublicKey publicKey
      match outcome with
      | .found info =>
        match core.canonicalizeResolvedAnswer query info with
        | .error _ => modifyCore (Core.queueReconcile publicKey now)
        | .ok info =>
          match ← attempt (commitExistingResolvedPeer pidx info now .heldUpdate true) with
          | .error _ => modifyCore (Core.queueReconcile publicKey now)
          | .ok () =>
            modifyCore (Core.forgetReconcile publicKey)
            modifyCore (Core.clearNegative query)
      | .notFound =>
        modifyCore (Core.forgetReconcile publicKey)
        evictPeer pidx
        markNegative query now
      | .failed => modifyCore (Core.queueReconcile publicKey now)

/-- How the peer of a by-key answer is admitted. -/
def InstallSource.admission : InstallSource → PeerAdmission
  | .authenticatedInitiator => .authenticatedInitiator
  | .relay => .lazyRelay

/-- Install the peer of a by-key answer.  `none` if the answer was not kept. -/
def installResolved (info : ResolvedPeer) (infoKey : Key) (now : Nat) (source : InstallSource) :
    CoreE cap R P (Option Nat) := do
  let core ← getCore
  let admission := source.admission
  let mayEvict : Bool := source ≠ .relay
  match core.findPeer info.publicKey with
  | some pidx =>
    match ← attempt (commitExistingResolvedPeer pidx info now admission mayEvict) with
    | .ok () => return some pidx
    | .error e =>
      if e = .routeCacheFull ∨ e = .peerAdmissionLimited then return none else throw e
  | none =>
    match ← attempt (upsertPeerUnchecked info now admission) with
    | .error e =>
      if e = .peerTableFull ∨ e = .peerAdmissionLimited then
        modifyCore (Core.queuePeerEvicted infoKey)
        return none
      else throw e
    | .ok (pidx, routesChanged, installedNew) =>
      if !routesChanged then return some pidx
      else
        match ← attempt (replaceDynamicRoute pidx info.address now mayEvict) with
        | .ok () => return some pidx
        | .error _ =>
          if installedNew then
            evictPeer pidx
          return none

variable [RngCore R]

/-- A by-key answer for an unknown initiator or a relay destination. -/
def resolvedInstall (now : Nat) (entry : InflightResolve) (source : InstallSource)
    (outcome : ResolveOutcome) : CoreE cap R P Unit := do
  match entry.query with
  | .byDstAddress _ => return ()
  | .byPublicKey expectedKey =>
    let pending ← updateCore fun c =>
      if source = .authenticatedInitiator then c.takePendingInitiation entry.id else (none, c)
    match outcome with
    | .failed => return ()
    | .notFound => markNegative entry.query now
    | .found info =>
      let infoKey := info.publicKey
      let core ← getCore
      match core.canonicalizeResolvedAnswer entry.query info with
      | .error _ => modifyCore (Core.queuePeerEvicted infoKey)
      | .ok info =>
        match ← installResolved info infoKey now source with
        | none => return ()
        | some pidx =>
          modifyCore (Core.clearNegative entry.query)
          match pending with
          | none => return ()
          | some pending =>
            if pending.consumed.sPubI ≠ expectedKey ∨ info.publicKey ≠ expectedKey then return ()
            else acceptAuthenticatedInitiation pidx pending.consumed pending.src now

/-- Drop what is parked behind a lookup. -/
def dropParked (id : Nat) : CoreE cap R P Unit :=
  modifyCore fun c => { c with pending := c.pending.dropIf fun p => p.wait = .resolve id }

/-- Install the peer of a by-address answer, and say whether it is new.  `none` if the answer was
not kept. -/
def installOutbound (info : ResolvedPeer) (infoKey : Key) (entry : InflightResolve) (now : Nat) :
    CoreE cap R P (Option (Nat × Bool)) := do
  let core ← getCore
  match core.findPeer info.publicKey with
  | some pidx =>
    match ← attempt (commitExistingResolvedPeer pidx info now .lazyOutbound true) with
    | .ok () => return some (pidx, false)
    | .error e =>
      if e = .routeCacheFull ∨ e = .peerAdmissionLimited then
        markNegative entry.query now
        dropParked entry.id
        return none
      else throw e
  | none =>
    match ← attempt (upsertPeerUnchecked info now .lazyOutbound) with
    | .error e =>
      if e = .peerTableFull ∨ e = .peerAdmissionLimited then
        modifyCore (Core.queuePeerEvicted infoKey)
        dropParked entry.id
        return none
      else throw e
    | .ok (pidx, routesChanged, installedNew) =>
      if !routesChanged then return some (pidx, installedNew)
      else
        match ← attempt (replaceDynamicRoute pidx info.address now true) with
        | .ok () => return some (pidx, installedNew)
        | .error _ =>
          if installedNew then
            evictPeer pidx
          markNegative entry.query now
          dropParked entry.id
          return none

/-- Send the packets that waited for a lookup.  The pool holds no more packets than `fuel`, and a
packet that is sent again does not wait for the same lookup. -/
def replayParked (id now : Nat) : (fuel : Nat) → CoreM cap R P Unit
  | 0 => return ()
  | fuel + 1 => do
    match ← takeParked fun p => p.wait = .resolve id with
    | none => return ()
    | some p =>
      ignore (outbound now p.packet)
      replayParked id now fuel

/-- A by-address answer. -/
def resolvedOutbound (now : Nat) (entry : InflightResolve) (outcome : ResolveOutcome) :
    CoreE cap R P Unit := do
  match entry.query with
  | .byPublicKey _ => return ()
  | .byDstAddress address =>
    match outcome with
    | .failed => dropParked entry.id
    | .notFound =>
      markNegative entry.query now
      dropParked entry.id
    | .found info =>
      let infoKey := info.publicKey
      let core ← getCore
      if !info.address.contains address then
        modifyCore (Core.queuePeerEvicted infoKey)
        dropParked entry.id
      else
        match core.canonicalizeResolvedAnswer entry.query info with
        | .error _ =>
          modifyCore (Core.queuePeerEvicted infoKey)
          dropParked entry.id
        | .ok info =>
          match ← installOutbound info infoKey entry now with
          | none => return ()
          | some (pidx, installedNew) =>
            if (← (routeOwner address : CoreM cap R P (Option Nat))).isNone then
              if installedNew then
                evictPeer pidx
              markNegative entry.query now
              dropParked entry.id
            else
              modifyCore (Core.clearNegative entry.query)
              (replayParked entry.id now cap.backend.maxPendingPackets : CoreM cap R P Unit)

/-- Take the lookup of a completion out of the table. -/
def Core.takeResolve (id : Nat) (c : Core cap R P) : Option InflightResolve × Core cap R P :=
  match c.resolves.findIdx? fun r => r.id = id with
  | none => (none, c)
  | some pos => (c.resolves[pos]?, { c with resolves := swapRemove c.resolves pos })

/-- Apply a resolver completion; a stale one is ignored. -/
def resolved (now : Nat) (response : ResolveResponse) : CoreE cap R P Unit := do
  match ← changeLookups (Core.takeResolve response.id) with
  | none => return ()
  | some entry =>
    match entry.kind with
    | .outbound => resolvedOutbound now entry response.outcome
    | .install source => resolvedInstall now entry source response.outcome
    | .reconcile =>
      match entry.query with
      | .byPublicKey publicKey => applyHeldAnswer now publicKey response.outcome
      | .byDstAddress _ => return ()
    | .negative => return ()

/-- Apply an update of a held peer. -/
def peerUpdated (now : Nat) (update : PeerUpdate) : CoreE cap R P Unit :=
  applyHeldAnswer now update.publicKey update.outcome

end Microtun
