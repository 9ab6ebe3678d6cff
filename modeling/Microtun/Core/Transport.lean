import Microtun.Core.Pool

/-! Handshake initiation and the outbound path of `lib.rs`: sealing, relaying and sending. -/

namespace Microtun

open Messages

variable {cap : Capacities} {R P : Type} [Crypto] [RngCore R]

/-- Reserve a slot for a new handshake, unless one is already in flight. -/
def allocateHandshakeSlot (pidx now : Nat) : CoreE cap R P (Option Nat) := do
  let core ← getCore
  match core.peer pidx with
  | none => return none
  | some peer =>
    if peer.sessions.handshake.isSome then return none
    else if peer.endpoint.isNone ∧ peer.relay.isNone then throw .noEndpoint
    else
      match ← allocSlot now with
      | none => throw .sessionPoolFull
      | some sidx => return some sidx

/-- The wire index of a slot that is about to carry an initiation, `none` for a fresh one. -/
def existingIndex (sidx : Nat) (c : Core cap R P) : Except Error (Option UInt32) :=
  match c.slot sidx with
  | none => .error .internalInvariant
  | some (.initiating handshake) => .ok (some handshake.localIndex)
  | some .free => .ok none
  | some (.established _) => .error .crypto

/-- The wire index of an initiation: the one its slot has, or a fresh one. -/
def initiationIndex (existing : Option UInt32) : CoreE cap R P UInt32 := do
  match existing with
  | some index => return index
  | none =>
    let core ← getCore
    tryRng (core.sessionIndices.randomUnused SessionIndexMap.maxRandomAttempts)

/-- Claim a wire index for a slot. -/
def insertIndex (index : UInt32) (sidx : Nat) : CoreE cap R P Unit :=
  tryCore fun c =>
    let (r, sessionIndices) := c.sessionIndices.insert index sidx
    (r, { c with sessionIndices })

/-- Build an initiation with a fresh ephemeral key and update its retry state. -/
def buildInitiation (pidx sidx now : Nat) : CoreE cap R P (List UInt8) := do
  let core ← getCore
  match core.peer pidx with
  | none => throw .internalInvariant
  | some peer =>
    if peer.endpoint.isNone ∧ peer.relay.isNone then throw .noEndpoint
    else
      let ts ← tryCore (Core.timestamp now)
      let existing ← liftExcept (existingIndex sidx core)
      let localIndex ← initiationIndex existing
      let (noise, msg) ← tryRng fun rng => Noise.createInitiation rng core.sPriv core.sPub
        peer.publicKey localIndex ts (List.replicate initiationLen 0)
      let (mac1, msg) ← liftExcept (Cookie.applyMacs msg peer.publicKey peer.cookie now)
      let retryAt ← withRng fun rng => handshakeRetryDeadline rng now
      if existing.isNone then
        insertIndex localIndex sidx
      modifyCore fun c => c.setSlot sidx (.initiating ⟨pidx, localIndex, noise, retryAt⟩)
      modifyCore fun c => c.modifyPeer pidx fun p => { p with lastMac1 := some mac1 }
      modifyCore fun c => c.arm retryAt
      emit (.initiation pidx now existing.isNone)
      return msg

/-- Link the peer to its handshake slot. -/
def beginHandshake (pidx sidx deadline : Nat) : CoreE cap R P Unit :=
  tryCore fun c =>
    match c.peer pidx with
    | none => (.error .internalInvariant, c)
    | some peer =>
      let (r, sessions) := peer.sessions.beginHandshake sidx deadline
      (r, c.setPeer pidx (some { peer with sessions }))

def commitHandshakeStart (pidx sidx now : Nat) : CoreE cap R P Unit := do
  let deadline := saturatingAdd now rekeyAttemptTime
  match ← attempt (watch .beginHandshake (beginHandshake pidx sidx deadline)) with
  | .error e =>
    freeSlot sidx
    throw e
  | .ok () => modifyCore fun c => c.arm deadline

/-- Allocate a slot, build an initiation for it and commit the handshake state. -/
def stageInitiation (pidx now : Nat) : CoreE cap R P (Option (List UInt8)) := do
  match ← allocateHandshakeSlot pidx now with
  | none => return none
  | some sidx =>
    match ← attempt (buildInitiation pidx sidx now) with
    | .error e =>
      freeSlot sidx
      throw e
    | .ok msg =>
      commitHandshakeStart pidx sidx now
      return some msg

/-- Start a handshake with a peer that is directly reachable. -/
def ensureDirectHandshake (pidx now : Nat) : CoreE cap R P Unit := do
  let core ← getCore
  match core.peer pidx with
  | none => return ()
  | some peer =>
    if peer.relay.isSome then throw .relayUnavailable
    else
      match peer.endpoint with
      | none => throw .noEndpoint
      | some endpoint =>
        match ← stageInitiation pidx now with
        | none => return ()
        | some msg => emit (.outerDatagram endpoint msg)

/-- A usable peer, session and endpoint of a relay; starts a handshake if there is no session. -/
def relayPath (relayKey : Key) (now : Nat) : CoreE cap R P (Nat × Nat × SocketAddr) := do
  let core ← getCore
  match core.findPeer relayKey with
  | none => throw .relayUnavailable
  | some rpidx =>
    match core.peer rpidx with
    | none => throw .relayUnavailable
    | some rpeer =>
      if rpeer.relay.isSome then throw .relayUnavailable
      else
        match rpeer.endpoint with
        | none => throw .relayUnavailable
        | some endpoint =>
          match core.usableSession rpidx now with
          | some rsidx => return (rpidx, rsidx, endpoint)
          | none =>
            let _ ← attempt (ensureDirectHandshake rpidx now)
            throw .relayUnavailable

/-- The associated data of a transport message type. -/
def transportAd (messageType : UInt8) : Except Error (List UInt8) :=
  if messageType = msgData then .ok []
  else if messageType = msgRelay then .ok relayAeadAd
  else .error .internalInvariant

/-- The datagram that seals `payload` as the next message of a session. -/
def sealedDatagram (sess : Session cap.replayWords) (messageType : UInt8) (payload : List UInt8) :
    Except Error (List UInt8) := do
  let paddedLen := padded payload.length
  let header := [messageType, 0, 0, 0] ++ toLeBytes 4 sess.remoteIndex.toNat ++
    toLeBytes 8 sess.nSend
  let ad ← transportAd messageType
  let buf := payload ++ List.replicate (paddedLen - payload.length + tagLen) 0
  let ciphertext ← aeadSeal sess.tSend sess.nSend buf paddedLen ad
  return header ++ ciphertext

/-- Has the session reached an age or a message count at which it triggers a rekey? -/
def hitsRekey (sess : Session cap.replayWords) (nSend now : Nat) : Bool :=
  !sess.rekeyTriggered && (decide (rekeyAfterMessages ≤ nSend) ||
    (decide (sess.role = .initiator) && decide (sess.rekeyDeadline ≤ now)))

/-- The deadline for an answer to data. -/
def replyDeadline (rng : R) (now : Nat) : Nat × R :=
  let (jitter, rng) := rekeyTimeoutJitter rng
  (saturatingAdd (saturatingAdd (saturatingAdd now keepaliveTimeout) rekeyTimeout) jitter, rng)

/-- The state after a message was sealed under a session: the counter, the rekey mark, and the
peer's send-side timers. -/
def afterSeal (pidx sidx : Nat) (peer : PeerEntry) (sess : Session cap.replayWords)
    (payloadLen total now : Nat) (c : Core cap R P) : Core cap R P :=
  let nSend := sess.nSend + 1
  let c := c.setSlot sidx (.established { sess with
    nSend, rekeyTriggered := sess.rekeyTriggered || hitsRekey sess nSend now })
  let persistent := peer.persistentKeepalive.map (saturatingAdd now)
  let expectsReply := 0 < payloadLen ∧ peer.sessions.replyDue.isNone
  let reply := replyDeadline c.rng now
  let c := if expectsReply then { c with rng := reply.2 } else c
  let armed := if expectsReply then some reply.1 else none
  let c := c.setPeer pidx (some { peer with
    txBytes := min (peer.txBytes + total) maxMillis
    lastActivity := now
    sessions := { peer.sessions with
      keepaliveDue := none
      persistentKeepaliveDue := persistent
      replyDue := armed.or peer.sessions.replyDue } })
  (c.armSome armed).armSome persistent

/-- Seal `payload` as transport data or as a relay message under a session: padding, counters,
rekey triggers and the peer's send-side timers.  Gives the datagram, and whether to rekey. -/
def sealTransport (pidx sidx : Nat) (messageType : UInt8) (payload : List UInt8) (now : Nat) :
    CoreE cap R P (List UInt8 × Bool) := do
  let total := dataHeaderLen + padded payload.length + tagLen
  if maxUdpSize < total then throw .packetTooLarge
  else
    let core ← getCore
    match core.peer pidx, core.session sidx with
    | some peer, some sess =>
      if !sess.canSend now then throw .crypto
      else
        let datagram ← liftExcept (sealedDatagram sess messageType payload)
        modifyCore (afterSeal pidx sidx peer sess payload.length total now)
        emit (.sealed ⟨sess.serial, sess.nSend, messageType, sess.confirmed,
          saturatingSince now sess.created, datagram⟩)
        return (datagram, hitsRekey sess (sess.nSend + 1) now)
    | _, _ => throw .internalInvariant

/-- Seal an inner datagram for `destination` as a relay message under the relay's session. -/
def wrapAndSeal (rpidx rsidx : Nat) (destination : Key) (inner : List UInt8) (now : Nat) :
    CoreE cap R P (List UInt8 × Bool) := do
  match Relay.writeHeader destination inner.length with
  | none => throw .internalInvariant
  | some header => sealTransport rpidx rsidx msgRelay (header ++ inner) now

/-- Deliver a handshake message: to the source being answered, to the endpoint, or wrapped to the
relay. -/
def transmitWire (pidx : Nat) (directDst : Option SocketAddr) (msg : List UInt8) (now : Nat) :
    CoreE cap R P Unit := do
  let core ← getCore
  match core.peer pidx with
  | none => throw .internalInvariant
  | some peer =>
    match peer.relay with
    | none =>
      match directDst.or peer.endpoint with
      | none => throw .noEndpoint
      | some dst => emit (.outerDatagram dst msg)
    | some relayKey =>
      let (rpidx, rsidx, relayEndpoint) ← relayPath relayKey now
      if Relay.maxRelayInnerSize < msg.length then throw .packetTooLarge
      else
        let (datagram, rekeyRelay) ← wrapAndSeal rpidx rsidx peer.publicKey msg now
        emit (.outerDatagram relayEndpoint datagram)
        if rekeyRelay then
          let _ ← attempt (ensureDirectHandshake rpidx now)

/-- Make sure a handshake with the peer is in flight. -/
def ensureHandshake (pidx now : Nat) : CoreE cap R P Unit := do
  match ← stageInitiation pidx now with
  | none => return ()
  | some msg =>
    let _ ← attempt (transmitWire pidx none msg now)

def sendInitiation (pidx sidx now : Nat) : CoreE cap R P Unit := do
  let msg ← buildInitiation pidx sidx now
  let _ ← attempt (transmitWire pidx none msg now)

/-- Retransmit an initiation, or give the attempt up if it cannot be rebuilt. -/
def retransmitInitiation (pidx sidx now : Nat) : CoreM cap R P Unit := do
  match ← (sendInitiation pidx sidx now).run with
  | .ok () => return ()
  | .error _ => ignore (freeSlot sidx)

/-- Record a locally initiated flow of a protected peer. -/
def noteOutboundFlow (pidx : Nat) (packet : List UInt8) (now : Nat) : CoreE cap R P Unit :=
  modifyCore fun c =>
    if (c.peer pidx).any fun p => p.inboundPolicy = .establishedOnly then
      { c with firewall := c.firewall.observeOutbound pidx packet now }
    else c

/-- Relayed send: seal the end-to-end datagram, then carry it to the relay in a second one. -/
def encryptViaRelayBody (pidx sidx : Nat) (relayKey : Key) (packet : List UInt8) (now : Nat) :
    CoreE cap R P Unit := do
  let (rpidx, rsidx, relayEndpoint) ← relayPath relayKey now
  let innerTotal := dataHeaderLen + padded packet.length + tagLen
  if Relay.maxRelayInnerSize < innerTotal then throw .packetTooLarge
  else
    let core ← getCore
    match core.peer pidx with
    | none => throw .internalInvariant
    | some peer =>
      let (inner, rekeyDest) ← sealTransport pidx sidx msgData packet now
      let (datagram, rekeyRelay) ← wrapAndSeal rpidx rsidx peer.publicKey inner now
      emit (.outerDatagram relayEndpoint datagram)
      noteOutboundFlow pidx packet now
      if rekeyDest then
        let _ ← attempt (ensureHandshake pidx now)
      if rekeyRelay then
        let _ ← attempt (ensureDirectHandshake rpidx now)

/-- `encryptViaRelayBody`, marking a failure with the session and its counter at entry. -/
def encryptViaRelay (pidx sidx : Nat) (relayKey : Key) (packet : List UInt8) (now : Nat) :
    CoreE cap R P Unit := ExceptT.mk do
  let core ← getCore
  let r ← (encryptViaRelayBody pidx sidx relayKey packet now).run
  match r, core.session sidx with
  | .error _, some sess => emit (.relayFailed sess.serial sess.nSend)
  | _, _ => pure ()
  return r

/-- Encrypt a packet, empty for a keepalive, and deliver it directly or through the relay. -/
def encryptAndSend (pidx sidx : Nat) (packet : List UInt8) (now : Nat) : CoreE cap R P Unit := do
  if maxInnerSize < packet.length then throw .packetTooLarge
  else
    let core ← getCore
    match (core.peer pidx).bind (·.relay) with
    | some relayKey => encryptViaRelay pidx sidx relayKey packet now
    | none =>
      match (core.peer pidx).bind (·.endpoint) with
      | none => throw .noEndpoint
      | some endpoint =>
        let (datagram, rekey) ← sealTransport pidx sidx msgData packet now
        emit (.outerDatagram endpoint datagram)
        noteOutboundFlow pidx packet now
        if rekey then
          let _ ← attempt (ensureHandshake pidx now)

/-- Park a packet and arm its deadline. -/
def park (packet : List UInt8) (wait : Wait) (deadline : Nat) : CoreE cap R P Unit :=
  modifyCore fun c =>
    { c with pending := (c.pending.park packet wait deadline).2 }.arm deadline

/-- Send a packet to a known peer, or park it behind a handshake. -/
def sendToPeer (pidx : Nat) (packet : List UInt8) (now : Nat) : CoreE cap R P Unit := do
  let core ← getCore
  match core.usableSession pidx now with
  | some sidx => encryptAndSend pidx sidx packet now
  | none =>
    park packet (.handshake pidx) (saturatingAdd now rekeyAttemptTime)
    ensureHandshake pidx now

end Microtun
