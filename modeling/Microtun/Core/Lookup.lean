import Microtun.Core.Transport

/-! In-flight lookups, negative markers, reconciliations and the ghosts of evicted peers,
`resolver.rs`. -/

namespace Microtun

/-- Remove an element, putting the last one in its place. -/
def swapRemove {α : Type} (l : List α) (pos : Nat) : List α :=
  match l.getLast? with
  | some last => (l.set pos last).dropLast
  | none => []

namespace Core

variable {cap : Capacities} {R P : Type}

/-- The first identifier from `id` on that is not in use, and the one to try next.  Identifiers wrap
around; one more candidate than there are entries is enough. -/
def nextUnusedId (used : List Nat) : (attempts id : Nat) → Nat × Nat
  | 0, id => (id % 2 ^ 64, (id + 1) % 2 ^ 64)
  | attempts + 1, id =>
    if id % 2 ^ 64 ∈ used then nextUnusedId used attempts (id + 1)
    else (id % 2 ^ 64, (id + 1) % 2 ^ 64)

def allocResolveId (c : Core cap R P) : Nat × Core cap R P :=
  let (id, next) := nextUnusedId (c.resolves.map (·.id)) c.resolves.length c.nextResolveId
  (id, { c with nextResolveId := next })

/-- Is a lookup for `query` in flight, or a negative answer still honoured? -/
def resolveSuppressed (query : ResolveQuery) (now : Nat) (c : Core cap R P) : Bool :=
  c.resolves.any fun r => r.query = query ∧ (r.kind = .negative → now < r.deadline)

/-- Append to the table of lookups, if the limit allows it. -/
def tryPushResolve (entry : InflightResolve) (c : Core cap R P) :
    Except Error Unit × Core cap R P :=
  if c.coreConfig.maxInflightResolves ≤ c.resolves.length then (.error .resolverBusy, c)
  else (.ok (), { c with resolves := c.resolves ++ [entry] }.arm entry.deadline)

/-- Push a live lookup, evicting the negative marker that is soonest to expire from a full table. -/
def pushResolve (entry : InflightResolve) (c : Core cap R P) : Except Error Unit × Core cap R P :=
  match c.tryPushResolve entry with
  | (.ok (), c) => (.ok (), c)
  | (.error _, _) =>
    match minPosition (fun r : InflightResolve => r.kind = .negative) (·.deadline) c.resolves with
    | none => (.error .resolverBusy, c)
    | some index => { c with resolves := swapRemove c.resolves index }.tryPushResolve entry

/-- Record an authoritative miss. -/
def markNegative (query : ResolveQuery) (now : Nat) (c : Core cap R P) : Core cap R P :=
  let c := { c with resolves := c.resolves.filter fun r => r.query ≠ query }
  let (id, c) := c.allocResolveId
  (c.tryPushResolve
    ⟨id, query, .negative, saturatingAdd now c.coreConfig.negativeTtl, true⟩).2

/-- Drop any negative marker for `query`. -/
def clearNegative (query : ResolveQuery) (c : Core cap R P) : Core cap R P :=
  { c with resolves := c.resolves.filter fun r => !(decide (r.kind = .negative ∧ r.query = query)) }

def pushReconcile (pending : PendingReconcile) (c : Core cap R P) :
    Except Error Unit × Core cap R P :=
  if cap.maxPeers ≤ c.pendingReconciles.length then (.error .resolverBusy, c)
  else (.ok (), { c with pendingReconciles := c.pendingReconciles ++ [pending] })

/-- Record that a peer still needs reconciling.  An obligation is never pushed further out. -/
def queueReconcile (publicKey : Key) (now : Nat) (c : Core cap R P) : Core cap R P :=
  let due := saturatingAdd now c.coreConfig.negativeTtl
  match c.pendingReconciles.findIdx? fun p => p.publicKey = publicKey with
  | some index =>
    match c.pendingReconciles[index]? with
    | none => c
    | some pending =>
      let armed := if due < pending.due then due else pending.due
      { c with pendingReconciles := c.pendingReconciles.set index { pending with due := armed }
        }.arm
        armed
  | none =>
    match c.pushReconcile ⟨publicKey, due⟩ with
    | (.error _, c) => c
    | (.ok (), c) => c.arm due

def forgetReconcile (publicKey : Key) (c : Core cap R P) : Core cap R P :=
  { c with pendingReconciles := c.pendingReconciles.filter fun p => p.publicKey ≠ publicKey }

def deferReconcile (index now : Nat) (c : Core cap R P) : Core cap R P :=
  let due := saturatingAdd now c.coreConfig.negativeTtl
  { c with pendingReconciles := c.pendingReconciles.modify index ({ · with due }) }.arm due

/-- Turn at most one due obligation into a lookup. -/
def promoteDueReconcile (now : Nat) (c : Core cap R P) : Bool × Core cap R P :=
  match c.pendingReconciles.findIdx? fun p => p.due ≤ now with
  | none => (false, c)
  | some index =>
    match c.pendingReconciles[index]? with
    | none => (false, c)
    | some pending =>
      if (c.findPeer pending.publicKey).isNone then
        (true, { c with pendingReconciles := swapRemove c.pendingReconciles index })
      else
        let query := ResolveQuery.byPublicKey pending.publicKey
        if c.resolveSuppressed query now then (true, c.deferReconcile index now)
        else
          let (id, c) := c.allocResolveId
          let entry : InflightResolve :=
            ⟨id, query, .reconcile, saturatingAdd now c.coreConfig.resolveTimeout, false⟩
          match c.pushResolve entry with
          | (.error _, c) => (true, c.deferReconcile index now)
          | (.ok (), c) =>
            (true, { c with pendingReconciles := swapRemove c.pendingReconciles index })

def takePendingInitiation (resolveId : Nat) (c : Core cap R P) :
    Option PendingInitiation × Core cap R P :=
  match c.pendingInitiations.toList.findIdx? fun o => o.any fun p => p.resolveId = resolveId with
  | none => (none, c)
  | some i =>
    (c.pendingInitiations[i]?.join,
      { c with pendingInitiations := c.pendingInitiations.setIfInBounds i none })

def dropPendingInitiation (resolveId : Nat) (c : Core cap R P) : Core cap R P :=
  (c.takePendingInitiation resolveId).2

/-- Is there a free slot for an initiation, and none under this identifier?  Only a mark asks. -/
def hasRoom (resolveId : Nat) (c : Core cap R P) : Bool :=
  c.pendingInitiations.toList.any Option.isNone &&
    !c.pendingInitiations.toList.any fun o => o.any fun p => p.resolveId = resolveId

/-- Retain an authenticated initiation until its lookup completes; a newer one replaces it. -/
def parkPendingInitiation (resolveId : Nat) (src : SocketAddr)
    (consumed : Noise.ConsumedInitiation) (c : Core cap R P) : Core cap R P :=
  let entry : PendingInitiation := ⟨resolveId, src, consumed⟩
  match c.pendingInitiations.toList.findIdx? fun o => o.any fun p => p.resolveId = resolveId with
  | some i =>
    if (c.pendingInitiations[i]?.join).any fun p =>
        p.consumed.timestamp.toList < consumed.timestamp.toList then
      { c with pendingInitiations := c.pendingInitiations.setIfInBounds i (some entry) }
    else c
  | none =>
    match c.pendingInitiations.toList.findIdx? Option.isNone with
    | some i => { c with pendingInitiations := c.pendingInitiations.setIfInBounds i (some entry) }
    | none => c

/-- Expire one lookup, unwinding what was parked behind it. -/
def expireOneResolve (now : Nat) (c : Core cap R P) : Bool × Core cap R P :=
  match c.resolves.findIdx? fun r => r.deadline ≤ now with
  | none => (false, c)
  | some pos =>
    match c.resolves[pos]? with
    | none => (false, c)
    | some entry =>
      let c := { c with resolves := swapRemove c.resolves pos }
      match entry.kind with
      | .outbound =>
        (true, { c with pending := c.pending.dropIf fun p => p.wait = .resolve entry.id })
      | .install .authenticatedInitiator => (true, c.dropPendingInitiation entry.id)
      | .install .relay => (true, c)
      | .reconcile =>
        match entry.query with
        | .byPublicKey publicKey =>
          if (c.findPeer publicKey).isSome then (true, c.queueReconcile publicKey now)
            else (true, c)
        | .byDstAddress _ => (true, c)
      | .negative => (true, c)

/-- The number of ghosts in use. -/
def ghostLimit (c : Core cap R P) : Nat :=
  min c.coreConfig.peerEvictionGhostEntries cap.backend.maxPeerEvictionGhosts

/-- Was the peer evicted recently?  Expired ghosts are forgotten on the way. -/
def peerIsGhosted (publicKey : Key) (now : Nat) (c : Core cap R P) : Bool × Core cap R P :=
  let ghosts := c.evictedPeerGhosts.mapIdx fun i g =>
    if i < c.ghostLimit ∧ g.any fun entry => entry.expires ≤ now then none else g
  ((ghosts.toList.take c.ghostLimit).any fun g => g.any fun entry => entry.publicKey = publicKey,
    { c with evictedPeerGhosts := ghosts })

/-- The ghost slot for a key: its own, else a spare one, else the one soonest to expire. -/
def ghostSlot (publicKey : Key) (now : Nat) (c : Core cap R P) : Nat :=
  let ghosts := c.evictedPeerGhosts.toList.take c.ghostLimit
  match ghosts.findIdx? fun g => g.any fun entry => entry.publicKey = publicKey with
  | some i => i
  | none =>
    match ghosts.findIdx? fun g => g.all fun entry => entry.expires ≤ now with
    | some i => i
    | none => (minPosition (fun _ => true) (fun g => (g.map (·.expires)).getD now) ghosts).getD 0

def rememberEvictedPeer (publicKey : Key) (now : Nat) (c : Core cap R P) : Core cap R P :=
  if c.ghostLimit = 0 ∨ c.coreConfig.peerEvictionGhostTtl = 0 then c
  else
    let entry : EvictedPeerGhost :=
      ⟨publicKey, saturatingAdd now c.coreConfig.peerEvictionGhostTtl⟩
    { c with
      evictedPeerGhosts := c.evictedPeerGhosts.setIfInBounds (c.ghostSlot publicKey now)
        (some entry) }

/-- Queue the lookup of a peer by its key, on the budget for remote requests. -/
def queuePeerInstall (key : Key) (source : InstallSource) (now : Nat) (c : Core cap R P) :
    Option Nat × Core cap R P :=
  if c.resolveSuppressed (.byPublicKey key) now then (none, c)
  else
    let (allowed, remoteResolves) := c.remoteResolves.tryTake now
    let c := { c with remoteResolves }
    if !allowed then (none, c)
    else
      let (id, c) := c.allocResolveId
      let entry : InflightResolve := ⟨id, .byPublicKey key, .install source,
        saturatingAdd now c.coreConfig.resolveTimeout, false⟩
      match c.pushResolve entry with
      | (.error _, c) => (none, c)
      | (.ok (), c) => (some id, c)

/-- Ask the resolver for an authenticated unknown initiator. -/
def requestPeerInstall (key : Key) (now : Nat) (c : Core cap R P) : Option Nat × Core cap R P :=
  let (ghosted, c) := c.peerIsGhosted key now
  if ghosted then (none, c) else c.queuePeerInstall key .authenticatedInitiator now

/-- The live lookup that an authenticated initiation of `key` started. -/
def authenticatedInitiatorResolveId (key : Key) (now : Nat) (c : Core cap R P) : Option Nat :=
  (c.resolves.find? fun r => r.query = .byPublicKey key ∧ now < r.deadline ∧
    r.kind = .install .authenticatedInitiator).map (·.id)

def freePeers (c : Core cap R P) : Nat := (c.peers.toList.filter Option.isNone).length

/-- Ask the resolver for a relay destination, with a quota for the submitter. -/
def requestRelayPeerInstall (submitter : Nat) (key : Key) (now : Nat) (c : Core cap R P) :
    Core cap R P :=
  if c.resolveSuppressed (.byPublicKey key) now then c
  else
    let (ghosted, c) := c.peerIsGhosted key now
    if ghosted then c
    else if c.freePeers ≤ c.coreConfig.lazyPeerReserve then c
    else
      let interval := c.coreConfig.relayResolveMinInterval
      if interval ≠ 0 then
        match c.peer submitter with
        | none => c
        | some peer =>
          if peer.lastRelayResolve.any fun last => saturatingSince now last < interval then c
          else
            ((c.setPeer submitter
              (some { peer with lastRelayResolve := some now })).queuePeerInstall
              key .relay now).2
      else (c.queuePeerInstall key .relay now).2

end Core

variable {cap : Capacities} {R P : Type}

def markNegative {m : Type → Type} [Monad m] [MonadState (World cap R P) m] (query : ResolveQuery)
    (now : Nat) : m Unit :=
  changeLookups fun c => ((), c.markNegative query now)

/-- The lookup that a packet for `dst` waits for; `none` if the packet is to be dropped. -/
def Core.outboundResolve (dst : IpAddr) (now : Nat) (c : Core cap R P) :
    Except Error (Option Nat) × Core cap R P :=
  let query := ResolveQuery.byDstAddress dst
  let deadline := saturatingAdd now c.coreConfig.resolveOutboundTimeout
  match c.resolves.findIdx? fun r => r.query = query with
  | some pos =>
    match c.resolves[pos]? with
    | none => (.ok none, c)
    | some existing =>
      if existing.kind = .negative then
        if now < existing.deadline then (.ok none, c)
        else
          let (id, c) := c.allocResolveId
          (.ok (some id),
            { c with resolves := c.resolves.set pos ⟨id, query, .outbound, deadline, false⟩ })
      else (.ok (some existing.id), c)
  | none =>
    let (id, c) := c.allocResolveId
    match c.pushResolve ⟨id, query, .outbound, deadline, false⟩ with
    | (.error _, c) => (.error .resolverBusy, c)
    | (.ok (), c) => (.ok (some id), c)

/-- Park an unrouted packet behind a lookup of its address. -/
def queueOutboundResolution (dst : IpAddr) (packet : List UInt8) (now : Nat) :
    CoreE cap R P Unit := do
  let core ← getCore
  match ← tryCore (Core.outboundResolve dst now) with
  | none => return ()
  | some id =>
    park packet (.resolve id) (saturatingAdd now core.coreConfig.resolveOutboundTimeout)

/-- The peer that owns an address, with its route marked as used. -/
def lookupRoute (dst : IpAddr) (now : Nat) : CoreE cap R P (Option Nat) :=
  tryRoutes fun routes => do
    let (pidx, routes) ← routes.lookup dst now
    return (.ok pidx, routes)

variable [Crypto] [RngCore R]

/-- Route an inner packet. -/
def outbound (now : Nat) (packet : List UInt8) : CoreE cap R P Unit := do
  if maxInnerSize < packet.length then throw .packetTooLarge
  else
    match Ip.parseHeader packet with
    | none => throw .malformedIpPacket
    | some header =>
      match ← lookupRoute header.dst now with
      | some pidx => sendToPeer pidx packet now
      | none => queueOutboundResolution header.dst packet now

end Microtun
