import Microtun.Core.Lookup

/-! The inbound datagram path and relay forwarding of `lib.rs`. -/

namespace Microtun

open Messages

variable {cap : Capacities} {R P : Type} [Crypto] [RngCore R]

/-- The sender index of a handshake message. -/
def senderIndex (data : List UInt8) : Option UInt32 :=
  if data.head? = some msgInitiation then (slice data Init.sender).bind readU32Le
  else (slice data Resp.sender).bind readU32Le

/-- Under load: demand a valid `mac2`, or answer with a cookie reply.  Says whether to go on. -/
def checkMac2OrReply (now : Nat) (src : SocketAddr) (data : List UInt8) (mac1 : Bytes 16) :
    CoreM cap R P Bool := do
  modifyCore fun c =>
    let (cookieSecret, rng) := c.cookieSecret.refresh c.rng now
    { c with cookieSecret, rng }
  let core ← getCore
  if core.cookieSecret.verifyMac2 data src then
    updateCore fun c =>
      let (allowed, rate) := c.rate.allow src.ip now
      (allowed, { c with rate })
  else
    match senderIndex data with
    | none => return false
    | some sender =>
      let reply ← withRng fun rng => Cookie.createCookieReply rng core.cookieSecret
        core.ourCookieKey sender src mac1 (List.replicate cookieReplyLen 0)
      match reply with
      | .ok reply => emit (.outerDatagram src reply)
      | .error _ => pure ()
      return false

/-- Adopt the source of authenticated traffic as the endpoint of a direct peer. -/
def observeEndpoint (pidx : Nat) (src : SocketAddr) (now : Nat) : CoreM cap R P Unit := do
  let core ← getCore
  match core.peer pidx with
  | none => return ()
  | some peer =>
    let (observed, peer) := peer.observeDirectEndpoint src now
    modifyCore fun c => c.setPeer pidx (some { peer with lastActivity := now })
    if observed then
      emit (.peerEndpointUpdate peer.publicKey src)

/-- The slot and the wire index of a responder session: the slot of the peer's unconfirmed session,
or a fresh one. -/
def responderSlot (replacement : Option Nat) (now : Nat) :
    CoreE cap R P (Option (Nat × UInt32)) := do
  match replacement with
  | some sidx =>
    let core ← getCore
    let index ← tryRng (core.sessionIndices.randomUnused SessionIndexMap.maxRandomAttempts)
    return some (sidx, index)
  | none =>
    match ← allocSlot now with
    | none => return none
    | some sidx =>
      let core ← getCore
      match ← attempt (tryRng
          (core.sessionIndices.randomUnused SessionIndexMap.maxRandomAttempts)) with
      | .ok index => return some (sidx, index)
      | .error e =>
        freeSlot sidx
        throw e

/-- The response to an initiation, with its keys and its `mac1`. -/
def responseMessage (pidx : Nat) (consumed : Noise.ConsumedInitiation) (localIndex : UInt32)
    (now : Nat) : CoreE cap R P (Noise.TransportKeys × Bytes 16 × List UInt8) := do
  let (keys, msg) ← tryRng fun rng =>
    Noise.createResponse rng consumed localIndex (List.replicate responseLen 0)
  let core ← getCore
  match core.peer pidx with
  | none => throw .internalInvariant
  | some peer =>
    let (mac1, msg) ← liftExcept (Cookie.applyMacs msg consumed.sPubI peer.cookie now)
    return (keys, mac1, msg)

/-- Give a slot its new wire index, in place of the old one if it has one. -/
def claimIndex (sidx : Nat) (localIndex : UInt32) : CoreE cap R P Unit :=
  tryCore fun c =>
    match c.slot sidx with
    | none => (.error .internalInvariant, c)
    | some slot =>
      let (r, sessionIndices) :=
        match slot.localIndex with
        | some old => c.sessionIndices.replace old localIndex sidx
        | none => c.sessionIndices.insert localIndex sidx
      (r, { c with sessionIndices })

/-- Install the unconfirmed responder session and link it to its peer. -/
def installResponder (pidx sidx : Nat) (sess : Session cap.replayWords) (mac1 : Bytes 16)
    (now : Nat) : CoreE cap R P Unit := do
  let core ← getCore
  match core.peer pidx with
  | none => throw .internalInvariant
  | some peer =>
    liftExcept (peer.sessions.validateResponderInstall sidx)
    claimIndex sidx sess.localIndex
    let serial ← newSerial
    modifyCore fun c => c.setSlot sidx (.established { sess with serial })
    modifyCore fun c => c.arm (saturatingAdd now rejectAfterTime)
    modifyCore fun c => c.modifyPeer pidx fun p => { p with
      lastMac1 := some mac1
      sessions := p.sessions.commitResponderInstall sidx
      latestHandshake := some now }

/-- Answer an initiation of a known peer. -/
def respondToInitiation (pidx : Nat) (consumed : Noise.ConsumedInitiation) (src : SocketAddr)
    (now : Nat) : CoreE cap R P Unit := do
  let core ← getCore
  match core.peer pidx with
  | none => throw .internalInvariant
  | some peer =>
    match ← responderSlot peer.sessions.next now with
    | none => return ()
    | some (sidx, localIndex) =>
      match ← attempt (responseMessage pidx consumed localIndex now) with
      | .error e =>
        if peer.sessions.next.isNone then
          freeSlot sidx
        throw e
      | .ok (keys, mac1, msg) =>
        let rekeyAfter ← withRng rekeyAfterSample
        let sess := Session.new keys .responder localIndex consumed.sender now
        installResponder pidx sidx { sess with peer := pidx, rekeyAfter } mac1 now
        (observeEndpoint pidx src now : CoreM cap R P Unit)
        let _ ← attempt (transmitWire pidx (some src) msg now)

/-- Apply the timestamp replay check and the per-peer gate, then answer. -/
def acceptAuthenticatedInitiation (pidx : Nat) (consumed : Noise.ConsumedInitiation)
    (src : SocketAddr) (now : Nat) : CoreE cap R P Unit := do
  let core ← getCore
  match core.peer pidx with
  | none => return ()
  | some peer =>
    if consumed.timestamp.toList ≤ peer.greatestTs.toList then return ()
    else if peer.lastInitiationConsumption.any fun last =>
        saturatingSince now last ≤ handshakeInitiationMinInterval then return ()
    else
      modifyCore fun c => c.setPeer pidx (some { peer with
        greatestTs := consumed.timestamp
        lastInitiationConsumption := some now })
      emit (.admitted pidx consumed.timestamp now)
      respondToInitiation pidx consumed src now

/-- An initiation that proved a known peer's identity, or not. -/
def rxKnownInitiation (pidx : Nat) (identified : Noise.IdentifiedInitiation) (src : SocketAddr)
    (now : Nat) : CoreE cap R P Unit := do
  let core ← getCore
  match core.peer pidx with
  | none => return ()
  | some peer =>
    match Noise.authenticateIdentifiedWithSharedSecret identified peer.precomputedStaticStatic with
    | .error _ => (equalizeUnknownIdentityCost now : CoreM cap R P Unit)
    | .ok consumed =>
      emit (.authenticated consumed true)
      acceptAuthenticatedInitiation pidx consumed src now

/-- An initiation of an unknown peer: authenticate it within the budget, and look the peer up. -/
def rxUnknownInitiation (identified : Noise.IdentifiedInitiation) (src : SocketAddr) (now : Nat) :
    CoreM cap R P Unit := do
  let core ← getCore
  let pendingResolve := core.authenticatedInitiatorResolveId identified.sPubI now
  if pendingResolve.isNone ∧ core.resolveSuppressed (.byPublicKey identified.sPubI) now then
    equalizeUnknownIdentityCost now
  else
    let allowed ← updateCore fun c =>
      let (allowed, unknownAuthentications) := c.unknownAuthentications.tryTake now
      (allowed, { c with unknownAuthentications })
    if !allowed then return ()
    else
      match Noise.authenticateIdentifiedInitiation core.sPriv identified with
      | .error _ => return ()
      | .ok consumed =>
        emit (.authenticated consumed false)
        match pendingResolve with
        | some resolveId => modifyCore (Core.parkPendingInitiation resolveId src consumed)
        | none =>
          match ← updateCore (Core.requestPeerInstall consumed.sPubI now) with
          | some resolveId =>
            let core ← getCore
            emit (.sought resolveId consumed (core.hasRoom resolveId))
            modifyCore (Core.parkPendingInitiation resolveId src consumed)
          | none => return ()

/-- May a handshake message with a valid `mac1` be processed? -/
def admitHandshake (now : Nat) (src : SocketAddr) (data : List UInt8) (mac1 : Bytes 16) :
    CoreM cap R P Bool := do
  modifyCore (Core.noteHandshakeMsg now)
  let core ← getCore
  if core.underLoad now then checkMac2OrReply now src data mac1 else return true

def rxInitiation (now : Nat) (src : SocketAddr) (data : List UInt8) : CoreE cap R P Unit := do
  let core ← getCore
  match Cookie.verifyMac1 data core.ourMac1Key with
  | none => return ()
  | some mac1 =>
    if !(← (admitHandshake now src data mac1 : CoreM cap R P Bool)) then return ()
    else
      match Noise.identifyInitiation core.sPriv core.sPub data with
      | .error _ => return ()
      | .ok identified =>
        let core ← getCore
        match core.findPeer identified.sPubI with
        | some pidx => rxKnownInitiation pidx identified src now
        | none => (rxUnknownInitiation identified src now : CoreM cap R P Unit)

/-- The handshake attempt that a response completes, with the keys and the responder's index. -/
def Core.matchResponse (data : List UInt8) (c : Core cap R P) :
    Option (Nat × Initiating × Noise.TransportKeys × UInt32) := do
  let receiver ← (slice data Resp.receiver).bind readU32Le
  let sidx ← c.slotForSessionIndex receiver
  match c.slot sidx with
  | some (.initiating handshake) =>
    let (keys, remoteIndex) ← (Noise.consumeResponse handshake.noise c.sPriv data).toOption
    return (sidx, handshake, keys, remoteIndex)
  | _ => none

def installInitiator (pidx sidx now : Nat) : CoreE cap R P (Option Nat) :=
  tryCore fun c =>
    match c.peer pidx with
    | none => (.error .internalInvariant, c)
    | some peer =>
      match peer.sessions.installInitiator sidx with
      | (.error e, _) => (.error e, c)
      | (.ok old, sessions) =>
        (.ok old, c.setPeer pidx (some { peer with sessions, latestHandshake := some now }))

/-- Free a superseded slot. -/
def freeSuperseded (old : Option Nat) : CoreM cap R P Unit := do
  match old with
  | some sidx => ignore (freeSlot sidx)
  | none => return ()

def takeParked (pred : PendingPacket → Bool) : CoreM cap R P (Option PendingPacket) :=
  updateCore fun c =>
    let (packet, pending) := c.pending.takeIf pred
    (packet, { c with pending })

/-- Send what is parked for the peer; says whether anything was sent.  The pool holds no more
packets than `fuel`, and sending parks none. -/
def flushHandshake (pidx sidx now : Nat) : (fuel : Nat) → CoreM cap R P Bool
  | 0 => return false
  | fuel + 1 => do
    match ← takeParked fun p => p.wait = .handshake pidx with
    | none => return false
    | some p =>
      let r ← (encryptAndSend pidx sidx p.packet now).run
      let sent ← flushHandshake pidx sidx now fuel
      return r.isOk || sent

/-- Turn a handshake attempt into the peer's current session. -/
def completeHandshake (sidx : Nat) (handshake : Initiating) (keys : Noise.TransportKeys)
    (remoteIndex : UInt32) (src : SocketAddr) (now : Nat) : CoreM cap R P Unit := do
  let rekeyAfter ← withRng rekeyAfterSample
  let pidx := handshake.peer
  let sess := Session.new keys .initiator handshake.localIndex remoteIndex now
  let core ← getCore
  if (core.peer pidx).isNone then
    ignore (freeSlot sidx)
  else
    match ← (watch .installInitiator (installInitiator pidx sidx now)).run with
    | .error _ => return ()
    | .ok oldPrevious =>
      observeEndpoint pidx src now
      let serial ← newSerial
      modifyCore fun c =>
        c.setSlot sidx (.established { sess with peer := pidx, rekeyAfter, serial })
      modifyCore fun c => c.arm (saturatingAdd now rejectAfterTime)
      freeSuperseded oldPrevious
      if !(← flushHandshake pidx sidx now cap.backend.maxPendingPackets) then
        ignore (encryptAndSend pidx sidx [] now)

def rxResponse (now : Nat) (src : SocketAddr) (data : List UInt8) : CoreM cap R P Unit := do
  let core ← getCore
  match Cookie.verifyMac1 data core.ourMac1Key with
  | none => return ()
  | some mac1 =>
    if !(← admitHandshake now src data mac1) then return ()
    else
      let core ← getCore
      match core.matchResponse data with
      | none => return ()
      | some (sidx, handshake, keys, remoteIndex) =>
        completeHandshake sidx handshake keys remoteIndex src now

/-- The peer whose challenge a cookie reply answers, and the cookie. -/
def Core.matchCookieReply (data : List UInt8) (c : Core cap R P) : Option (Nat × Bytes 16) := do
  let receiver ← (slice data CookieReply.receiver).bind readU32Le
  let sidx ← c.slotForSessionIndex receiver
  let pidx ← c.slotOwner sidx
  let peer ← c.peer pidx
  let lastMac1 ← peer.lastMac1
  let cookie ← (Cookie.consumeCookieReply peer.publicKey lastMac1 data).toOption
  return (pidx, cookie)

def rxCookieReply (now : Nat) (data : List UInt8) : CoreM cap R P Unit :=
  modifyCore fun c =>
    match c.matchCookieReply data with
    | some (pidx, cookie) => c.modifyPeer pidx fun p => { p with cookie := some (cookie, now) }
    | none => c

/-- The associated data of the two kinds of transport message. -/
def receiveAd (isRelay : Bool) : List UInt8 := if isRelay then relayAeadAd else []

/-- Authenticate a transport datagram: the slot and the session its receiver index names, its
counter, and its plaintext. -/
def Core.openData (isRelay : Bool) (now : Nat) (data : List UInt8) (c : Core cap R P) :
    Option (Nat × Session cap.replayWords × Nat × List UInt8) := do
  let receiver ← (slice data Data.receiver).bind readU32Le
  let sidx ← c.slotForSessionIndex receiver
  let counter ← (slice data Data.counter).bind readU64Le
  if rejectAfterMessages ≤ counter then none
  else
    let sess ← c.session sidx
    if rejectAfterTime ≤ saturatingSince now sess.created then none
    else
      let ciphertext ← slice data ⟨Data.packetStart, data.length⟩
      let plaintext ← (aeadOpen sess.tRecv counter ciphertext (receiveAd isRelay)).toOption
      return (sidx, sess, counter, plaintext)

/-- Confirm the peer's unconfirmed session; gives the session that stops being the previous one. -/
def confirmResponder (pidx sidx : Nat) : CoreE cap R P (Option Nat) :=
  tryCore fun c =>
    match c.peer pidx with
    | none => (.error .internalInvariant, c)
    | some peer =>
      match peer.sessions.confirmResponder sidx with
      | (.error e, _) => (.error e, c)
      | (.ok old, sessions) => (.ok old, c.setPeer pidx (some { peer with sessions }))

/-- Confirm a session that is the peer's unconfirmed one. -/
def confirmSession (pidx sidx : Nat) : CoreE cap R P (Option Nat) := do
  let core ← getCore
  if (core.peer pidx).any fun p => p.sessions.next = some sidx then
    let old ← watch .confirmResponder (confirmResponder pidx sidx)
    modifyCore fun c => c.modifySession sidx fun s => { s with confirmed := true }
    return old
  else return none

/-- The peer after a datagram of `len` bytes was received from it. -/
def receivedPeer (len : Nat) (isKeepalive : Bool) (now : Nat) (peer : PeerEntry) : PeerEntry :=
  { peer with
    rxBytes := min (peer.rxBytes + len) maxMillis
    lastActivity := now
    sessions := { peer.sessions with
      replyDue := none
      persistentKeepaliveDue := peer.persistentKeepalive.map (saturatingAdd now)
      keepaliveDue := if isKeepalive then peer.sessions.keepaliveDue
        else some (saturatingAdd now keepaliveTimeout) } }

/-- Update the peer's receive-side timers. -/
def notePeerReceive (pidx len : Nat) (isKeepalive : Bool) (now : Nat) : CoreM cap R P Unit :=
  modifyCore fun c =>
    match c.peer pidx with
    | none => c
    | some peer =>
      let c := c.setPeer pidx (some (receivedPeer len isKeepalive now peer))
      let c := if isKeepalive then c else c.arm (saturatingAdd now keepaliveTimeout)
      c.armSome (peer.persistentKeepalive.map (saturatingAdd now))

/-- The receive-path rekey of the initiator. -/
def receiveRekey (pidx sidx : Nat) (sess : Session cap.replayWords) (now : Nat) :
    CoreM cap R P Unit := do
  if sess.role = .initiator ∧ !sess.rekeyTriggered ∧
      rejectAfterTime - keepaliveTimeout - rekeyTimeout ≤ saturatingSince now sess.created then
    modifyCore fun c => c.modifySession sidx fun s => { s with rekeyTriggered := true }
    ignore (ensureHandshake pidx now)

/-- Process a relay envelope: parse, ask the policy, forward to a directly reachable peer. -/
def rxRelay [RelayPolicy P] (pidx : Nat) (plaintext : List UInt8) (now : Nat) :
    CoreM cap R P Unit := do
  let core ← getCore
  match core.peer pidx with
  | none => return ()
  | some submitter =>
    match Relay.parse plaintext with
    | none => return ()
    | some envelope =>
      let allowed ← updateCore fun c =>
        let (allowed, relayPolicy) :=
          RelayPolicy.authorizeRelay c.relayPolicy submitter.publicKey envelope.destination
        (allowed, { c with relayPolicy })
      if !allowed then return ()
      else
        match core.findPeer envelope.destination with
        | none => modifyCore (Core.requestRelayPeerInstall pidx envelope.destination now)
        | some dpidx =>
          match core.peer dpidx with
          | none => return ()
          | some destination =>
            if destination.relay.isSome then return ()
            else
              match destination.endpoint with
              | none => return ()
              | some endpoint => emit (.outerDatagram endpoint envelope.inner)

/-- The peer that owns an address. -/
def routeOwner (src : IpAddr) : CoreM cap R P (Option Nat) :=
  withRoutes fun routes => do return (← routes.lookupReadonly src, routes)

/-- Does the peer's ingress policy admit the packet? -/
def admitInbound (pidx : Nat) (packet : List UInt8) (now : Nat) : CoreM cap R P Bool :=
  updateCore fun c =>
    if (c.peer pidx).any fun p => p.inboundPolicy = .establishedOnly then
      let (allowed, firewall) := c.firewall.allowsInbound pidx packet now
      (allowed, { c with firewall })
    else (true, c)

/-- Deliver a plaintext as an inner packet, if its source belongs to the peer and the ingress
policy admits it. -/
def deliver (pidx serial counter : Nat) (src : SocketAddr) (inner : List UInt8) (now : Nat) :
    CoreM cap R P Unit := do
  match Ip.parseHeader inner with
  | none => return ()
  | some header =>
    if (← routeOwner header.src) ≠ some pidx then return ()
    else
      let packet := inner.take header.totalLen
      if !(← admitInbound pidx packet now) then return ()
      else
        let core ← getCore
        match core.peer pidx with
        | none => return ()
        | some peer =>
          emit (.innerPacket serial counter peer.publicKey
            (if peer.relay.isNone then some src else none) packet)

/-- Everything that an authenticated datagram does to its peer and session. -/
def acceptData (sidx : Nat) (sess : Session cap.replayWords) (src : SocketAddr) (len : Nat)
    (isKeepalive : Bool) (now : Nat) : CoreM cap R P Bool := do
  let pidx := sess.peer
  let core ← getCore
  if (core.peer pidx).isNone then return false
  else
    match ← (confirmSession pidx sidx).run with
    | .error _ => return false
    | .ok freed =>
      notePeerReceive pidx len isKeepalive now
      observeEndpoint pidx src now
      freeSuperseded freed
      receiveRekey pidx sidx sess now
      return true

def rxData [RelayPolicy P] (now : Nat) (src : SocketAddr) (data : List UInt8) (isRelay : Bool) :
    CoreM cap R P Unit := do
  let core ← getCore
  match core.openData isRelay now data with
  | none => return ()
  | some (sidx, sess, counter, plaintext) =>
    let (fresh, replay) := sess.replay.checkAndUpdate counter
    modifyCore fun c => c.setSlot sidx (.established { sess with replay })
    if !fresh then return ()
    else
      emit (.accepted sess.serial counter)
      if !(← acceptData sidx sess src data.length plaintext.isEmpty now) then return ()
      else if plaintext.isEmpty then return ()
      else if isRelay then rxRelay sess.peer plaintext now
      else deliver sess.peer sess.serial counter src plaintext now

/-- Process one encrypted datagram. -/
def datagram [RelayPolicy P] (now : Nat) (src : SocketAddr) (data : List UInt8) :
    CoreE cap R P Unit := do
  match classify data with
  | some .initiation => rxInitiation now src data
  | some .response => (rxResponse now src data : CoreM cap R P Unit)
  | some .cookieReply => (rxCookieReply now data : CoreM cap R P Unit)
  | some .data => (rxData now src data false : CoreM cap R P Unit)
  | some .relayData => (rxData now src data true : CoreM cap R P Unit)
  | none => return ()

end Microtun
