import Microtun.Core.State

/-! The peer table, the session slot pool, load tracking and the wall clock of `lib.rs`. -/

namespace Microtun

/-- The next timestamp that keeps the low 24 bits of the nanoseconds clear. -/
def nextWhitenedTimestamp (last : Bytes 12) : Except Error (Bytes 12) :=
  let seconds := ofBeBytes (last.toList.take 8)
  let nanos := ofBeBytes (last.toList.drop 8) / 2 ^ 24 * 2 ^ 24
  let nextNanos := min (nanos + 2 ^ 24) maxU32
  if 1000000000 ≤ nextNanos then
    if 2 ^ 64 ≤ seconds + 1 then .error .timeOverflow
    else .ok (.ofList 12 (toBeBytes 8 (seconds + 1) ++ toBeBytes 4 0))
  else .ok (.ofList 12 (toBeBytes 8 seconds ++ toBeBytes 4 nextNanos))

variable {R P : Type} [RngCore R]

def rekeyTimeoutJitter (rng : R) : Nat × R :=
  let (draw, rng) := RngCore.nextU32 rng
  (draw.toNat % (rekeyTimeoutJitterMax + 1), rng)

def handshakeRetryDeadline (rng : R) (now : Nat) : Nat × R :=
  let (jitter, rng) := rekeyTimeoutJitter rng
  (saturatingAdd (saturatingAdd now rekeyTimeout) jitter, rng)

/-- The age at which a session rekeys. -/
def rekeyAfterSample (rng : R) : Nat × R :=
  let (draw, rng) := RngCore.nextU32 rng
  (rekeyAfterTime - draw.toNat % (min rekeyAfterTimeJitterMax rekeyAfterTime + 1), rng)

namespace Core

variable {cap : Capacities}

omit [RngCore R]

/-- Install a peer into an empty slot. -/
def installPeer (pidx : Nat) (peer : PeerEntry) (c : Core cap R P) :
    Except Error Unit × Core cap R P :=
  if cap.maxPeers ≤ pidx ∨ (c.peer pidx).isSome ∨ (c.findPeer peer.publicKey).isSome then
    (.error .internalInvariant, c)
  else if cap.backend = .inline ∧ cap.maxPeers ≤ c.peersByPublicKey.entries.length then
    (.error .internalInvariant, c)
  else
    let c := { c with peersByPublicKey := c.peersByPublicKey.insert peer.publicKey pidx }
    let c := c.setPeer pidx (some peer)
    (.ok (), c.armSome peer.sessions.persistentKeepaliveDue)

/-- Take a peer out of its slot. -/
def takePeer (pidx : Nat) (c : Core cap R P) : Except Error (Option PeerEntry) × Core cap R P :=
  if cap.maxPeers ≤ pidx then (.error .internalInvariant, c)
  else
    match c.peer pidx with
    | none => (.ok none, c)
    | some peer =>
      if c.findPeer peer.publicKey ≠ some pidx then (.error .internalInvariant, c)
      else
        let c := { c with peersByPublicKey := c.peersByPublicKey.erase peer.publicKey }
        (.ok (some peer), c.setPeer pidx none)

/-- Free a slot: unlink it from its owner and forget its wire index. -/
def freeSlot (sidx : Nat) (c : Core cap R P) : Except Error Unit × Core cap R P :=
  match c.slot sidx with
  | none => (.error .internalInvariant, c)
  | some slot =>
    if slot.owner.any fun pidx => (c.peer pidx).isNone then (.error .internalInvariant, c)
    else
      let (removed, sessionIndices) :=
        match slot.localIndex with
        | some index => c.sessionIndices.remove index sidx
        | none => (.ok (), c.sessionIndices)
      match removed with
      | .error e => (.error e, { c with sessionIndices })
      | .ok () =>
        let c := { c with sessionIndices }
        let c :=
          match slot.owner with
          | some pidx => c.modifyPeer pidx fun p => { p with sessions := p.sessions.unlink sidx }
          | none => c
        (.ok (), c.setSlot sidx .free)

/-- The first previous session of a peer. -/
def firstPrevious (c : Core cap R P) : Option Nat :=
  c.peers.toList.findSome? fun o => o.bind fun p => p.sessions.previous

/-- The established session of the peer that was active least recently, other than the current
sessions of pinned peers. -/
def leastRecentSession (c : Core cap R P) : Option Nat :=
  let candidates := c.slots.toList.zipIdx.filterMap fun (s, i) =>
    match s with
    | .established session =>
      match c.peer session.peer with
      | some p =>
        if p.isPinned ∧ p.sessions.current = some i then none else some (i, p.lastActivity)
      | none => some (i, 0)
    | _ => none
  (minByKey (·.2) candidates).map (·.1)

/-- The slot that an allocation takes and whether it has to be freed first. -/
def allocVictim (now : Nat) (c : Core cap R P) : Option (Nat × Bool) :=
  match c.slots.toList.findIdx? Slot.isFree with
  | some i => some (i, false)
  | none =>
    match c.slots.toList.findIdx? (Slot.isExpired now) with
    | some i => some (i, true)
    | none =>
      match c.firstPrevious with
      | some i => some (i, true)
      | none => c.leastRecentSession.map (·, true)

/-- Count a handshake message whose `mac1` is valid. -/
def noteHandshakeMsg (now : Nat) (c : Core cap R P) : Core cap R P :=
  let elapsed := saturatingSince now c.hsWindowStart
  let c :=
    if 1000 ≤ elapsed then
      { c with
        hsPrevCount := if elapsed < 2000 then c.hsWindowCount else 0
        hsWindowCount := 0
        hsWindowStart := now }
    else c
  { c with hsWindowCount := min (c.hsWindowCount + 1) maxU32 }

def underLoad (now : Nat) (c : Core cap R P) : Bool :=
  let free := (c.slots.toList.filter fun s => s.isFree || s.isExpired now).length
  free ≤ c.coreConfig.underLoadFreeSlots ∨
    c.coreConfig.underLoadHandshakesPerSec < c.hsWindowCount ∨
    c.coreConfig.underLoadHandshakesPerSec < c.hsPrevCount

/-- The wall clock as a timestamp. -/
def wallTimestamp (now : Nat) (c : Core cap R P) : Except Error (Bytes 12) :=
  match c.wall with
  | none => .error .noWallClock
  | some wall =>
    let elapsedMs := saturatingSince now wall.baseInstant
    let nanosTotal := min (wall.baseUnixNanos + min (elapsedMs * 1000000) maxMillis) maxMillis
    tai64n (nanosTotal / 1000000000) (nanosTotal % 1000000000)

/-- The current timestamp, later than every one before. -/
def timestamp (now : Nat) (c : Core cap R P) : Except Error (Bytes 12) × Core cap R P :=
  match c.wallTimestamp now with
  | .error e => (.error e, c)
  | .ok ts =>
    if ts.toList ≤ c.lastTs.toList then
      match nextWhitenedTimestamp c.lastTs with
      | .error e => (.error e, c)
      | .ok ts => (.ok ts, { c with lastTs := ts })
    else (.ok ts, { c with lastTs := ts })

end Core

variable {cap : Capacities}

def installPeer (pidx : Nat) (peer : PeerEntry) : CoreE cap R P Unit := do
  tryCore (Core.installPeer pidx peer)
  emit (.installed pidx)

def freeSlot (sidx : Nat) : CoreE cap R P Unit := watch .freeSlot (tryCore (Core.freeSlot sidx))

/-- Allocate a session slot.  In order: a free slot, an expired session, any previous session, the
least recently active session. -/
def allocSlot (now : Nat) : CoreE cap R P (Option Nat) := do
  let core ← getCore
  match core.allocVictim now with
  | none => return none
  | some (sidx, occupied) =>
    if occupied then
      freeSlot sidx
    return some sidx

variable [Crypto]

/-- Spend a token and a scalar multiplication on a rejected initiation; the product is not used. -/
def equalizeUnknownIdentityCost (now : Nat) : CoreM cap R P Unit :=
  modifyCore fun c => { c with
    unknownAuthentications := (c.unknownAuthentications.tryTake now).2 }

end Microtun
