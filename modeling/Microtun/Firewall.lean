import Microtun.Ip
import Microtun.Routing.Model
import Microtun.Time

/-! The stateful ingress firewall of `firewall.rs`. -/

namespace Microtun

/-- Inbound filtering applied to an authenticated peer. -/
inductive InboundPolicy where
  | allowAll
  | establishedOnly
deriving DecidableEq, Repr

/-- The identity of a flow.  The ports of an echo are both its identifier. -/
structure FlowKey where
  src : IpAddr
  dst : IpAddr
  protocol : UInt8
  srcPort : Nat
  dstPort : Nat
deriving DecidableEq, Repr

def FlowKey.isReverseOf (key other : FlowKey) : Bool :=
  key.protocol = other.protocol ∧ key.src = other.dst ∧ key.dst = other.src ∧
    key.srcPort = other.dstPort ∧ key.dstPort = other.srcPort

namespace Firewall

def ipprotoIcmp : UInt8 := 1
def ipprotoTcp : UInt8 := 6
def ipprotoUdp : UInt8 := 17
def ipprotoIcmpv6 : UInt8 := 58

def tcpFin : UInt8 := 0x01
def tcpSyn : UInt8 := 0x02
def tcpRst : UInt8 := 0x04
def tcpAck : UInt8 := 0x10

def icmpHeaderLen : Nat := 8

/-- What a packet is to its flow. -/
inductive Kind where
  | tcp (flags : UInt8)
  | udp
  | echoRequest
  | echoReply
  /-- An ICMP error; the flow is that of the packet quoted inside it. -/
  | error
deriving DecidableEq, Repr

structure Parsed where
  key : FlowKey
  kind : Kind
deriving DecidableEq, Repr

namespace Parsed

/-- A connection attempt: `SYN` without `ACK`. -/
def isBareSyn (flags : UInt8) : Bool := flags &&& tcpSyn ≠ 0 ∧ flags &&& tcpAck = 0

def opensNewFlow (p : Parsed) : Bool :=
  match p.kind with
  | .udp | .echoRequest => true
  | .tcp flags => isBareSyn flags
  | .echoReply | .error => false

def isClosing (p : Parsed) : Bool :=
  match p.kind with
  | .tcp flags => flags &&& (tcpFin ||| tcpRst) ≠ 0
  | _ => false

end Parsed

/-- Flag combinations that no conforming stack produces are refused. -/
def plausibleTcpFlags (f : UInt8) : Bool :=
  f &&& (tcpSyn ||| tcpFin) ≠ tcpSyn ||| tcpFin ∧ f &&& (tcpSyn ||| tcpRst) ≠ tcpSyn ||| tcpRst ∧
    f &&& (tcpFin ||| tcpRst) ≠ tcpFin ||| tcpRst ∧
    f &&& (tcpSyn ||| tcpFin ||| tcpRst ||| tcpAck) ≠ 0

def parseTransport (packet : List UInt8) (totalLen offset : Nat) (src dst : IpAddr)
    (protocol : UInt8) : Option Parsed := do
  let minimum ← if protocol = ipprotoTcp then some 20 else if protocol = ipprotoUdp then some 8
    else none
  if totalLen < offset + minimum then none
  let transport ← slice packet ⟨offset, offset + minimum⟩
  let srcPort ← Ip.readU16Be transport 0
  let dstPort ← Ip.readU16Be transport 2
  let key : FlowKey := { src, dst, protocol, srcPort, dstPort }
  if protocol = ipprotoTcp then
    let flags ← transport[13]?
    if plausibleTcpFlags flags then return ⟨key, .tcp flags⟩ else none
  else return ⟨key, .udp⟩

/-- The addresses, the protocol and the header length of a quoted packet. -/
def parseQuotedHeader (quoted : List UInt8) (v4 : Bool) : Option (IpAddr × IpAddr × UInt8 × Nat) :=
  if v4 then do
    let header ← slice quoted ⟨0, 20⟩
    let ihl := ((← header.head?) &&& 0x0f).toNat * 4
    if ihl < 20 then none
    if (← Ip.readU16Be header 6) % 0x2000 ≠ 0 then none
    return (Ip.addressV4 (← slice header ⟨12, 16⟩), Ip.addressV4 (← slice header ⟨16, 20⟩),
      ← header[9]?, ihl)
  else do
    let header ← slice quoted ⟨0, 40⟩
    return (Ip.addressV6 (← slice header ⟨8, 24⟩), Ip.addressV6 (← slice header ⟨24, 40⟩),
      ← header[6]?, 40)

/-- Recover the flow of the packet quoted inside an ICMP error. -/
def parseQuoted (quoted : List UInt8) (v4 : Bool) : Option FlowKey := do
  if (← quoted.head?) >>> 4 ≠ (if v4 then 4 else 6) then none
  let (src, dst, protocol, offset) ← parseQuotedHeader quoted v4
  if protocol = ipprotoTcp ∨ protocol = ipprotoUdp then
    let a ← slice quoted ⟨offset, offset + 4⟩
    return { src, dst, protocol, srcPort := ← Ip.readU16Be a 0, dstPort := ← Ip.readU16Be a 2 }
  else if protocol = ipprotoIcmp ∨ protocol = ipprotoIcmpv6 then
    let a ← slice quoted ⟨offset, offset + 6⟩
    let messageType ← a.head?
    if (protocol = ipprotoIcmp ∧ messageType = 8) ∨
        (protocol = ipprotoIcmpv6 ∧ messageType = 128) then
      let ident ← Ip.readU16Be a 4
      return { src, dst, protocol, srcPort := ident, dstPort := ident }
    else none
  else none

/-- Parse an ICMPv4 or ICMPv6 message. -/
def parseIcmp (packet : List UInt8) (totalLen offset : Nat) (src dst : IpAddr) (v4 : Bool) :
    Option Parsed := do
  if totalLen < offset + icmpHeaderLen then none
  let protocol := if v4 then ipprotoIcmp else ipprotoIcmpv6
  let icmp ← slice packet ⟨offset, offset + icmpHeaderLen⟩
  let icmpType ← icmp.head?
  let (echoRequest, echoReply) : UInt8 × UInt8 := if v4 then (8, 0) else (128, 129)
  if icmpType = echoRequest ∨ icmpType = echoReply then
    let ident ← Ip.readU16Be icmp 4
    return ⟨{ src, dst, protocol, srcPort := ident, dstPort := ident },
      if icmpType = echoRequest then .echoRequest else .echoReply⟩
  else if (if v4 then icmpType ∈ [3, 11, 12] else icmpType ∈ [1, 2, 3, 4]) then
    let quoted ← slice packet ⟨offset + icmpHeaderLen, totalLen⟩
    let key ← parseQuoted quoted v4
    if key.src ≠ dst then none else return ⟨key, .error⟩
  else none

/-- Parse an inner packet down to the flow it belongs to. -/
def parseFlow (packet : List UInt8) : Option Parsed := do
  let header ← Ip.parseHeader packet
  if Ip.isV4Fragment packet then none
  let ⟨src, dst, protocol, headerLen, totalLen⟩ := header
  let v4 := src matches .v4 _
  if protocol = ipprotoTcp ∨ protocol = ipprotoUdp then
    parseTransport packet totalLen headerLen src dst protocol
  else if protocol = ipprotoIcmp ∧ v4 then parseIcmp packet totalLen headerLen src dst true
  else if protocol = ipprotoIcmpv6 ∧ !v4 then parseIcmp packet totalLen headerLen src dst false
  else none

/-- A tracked flow. -/
structure Entry where
  peer : Nat
  flow : FlowKey
  expires : Nat
  lastSeen : Nat
  closing : Bool
deriving DecidableEq, Repr

end Firewall

/-- The flow tracker. -/
structure Firewall (maxPeers : Nat) where
  udpTimeout : Nat
  icmpTimeout : Nat
  tcpTimeout : Nat
  tcpClosingTimeout : Nat
  maxEntries : Nat
  maxEntriesPerPeer : Nat
  entries : List Firewall.Entry
  peerCounts : Vector Nat maxPeers
deriving DecidableEq, Repr

namespace Firewall

variable {maxPeers : Nat}

def withLimitsAndTimeouts (maxPeers maxFlows maxEntries maxEntriesPerPeer udpTimeout icmpTimeout
    tcpTimeout tcpClosingTimeout : Nat) : Firewall maxPeers where
  udpTimeout
  icmpTimeout
  tcpTimeout
  tcpClosingTimeout
  maxEntries := min maxEntries maxFlows
  maxEntriesPerPeer := min (min maxEntriesPerPeer maxEntries) maxFlows
  entries := []
  peerCounts := Vector.replicate maxPeers 0

def effectiveTimeout (f : Firewall maxPeers) (e : Entry) : Nat :=
  if e.flow.protocol = ipprotoUdp then f.udpTimeout
  else if e.flow.protocol = ipprotoIcmp ∨ e.flow.protocol = ipprotoIcmpv6 then f.icmpTimeout
  else if e.closing then f.tcpClosingTimeout
  else f.tcpTimeout

def peerCount (f : Firewall maxPeers) (peer : Nat) : Nat := f.peerCounts[peer]?.getD 0

def setPeerCount (f : Firewall maxPeers) (peer count : Nat) : Firewall maxPeers :=
  { f with peerCounts := f.peerCounts.setIfInBounds peer count }

/-- The largest count. -/
def maxCount : Nat := 65535

def incrementPeer (f : Firewall maxPeers) (peer : Nat) : Firewall maxPeers :=
  f.setPeerCount peer (min (f.peerCount peer + 1) maxCount)

def decrementPeer (f : Firewall maxPeers) (peer : Nat) : Firewall maxPeers :=
  f.setPeerCount peer (f.peerCount peer - 1)

def rebuildPeerCounts (f : Firewall maxPeers) : Firewall maxPeers :=
  f.entries.foldl (fun g e => g.incrementPeer e.peer)
    { f with peerCounts := Vector.replicate maxPeers 0 }

def collectExpired (f : Firewall maxPeers) (now : Nat) : Firewall maxPeers :=
  let entries := f.entries.filter fun e => now < e.expires
  if entries.length ≠ f.entries.length then
    { f with entries := entries }.rebuildPeerCounts
  else { f with entries := entries }

/-- The flow of the peer to give up: a closing one if there is one, else the longest unseen.  The
key orders pairs whose second component is below `2 ^ 64`. -/
def victimOwnedBy (f : Firewall maxPeers) (peer : Nat) : Option Nat :=
  minPosition (fun e => e.peer = peer)
    (fun e => (if e.closing then 0 else 2 ^ 64) + e.lastSeen) f.entries

/-- The peer with the most flows, if it has more than `count`. -/
def largestOwner (f : Firewall maxPeers) (count : Nat) : Option Nat :=
  (f.peerCounts.toList.zipIdx.foldl
    (fun best x => if best.2 < x.1 then (some x.2, x.1) else best) (none, count)).1

/-- A peer at its quota recycles its own flows; otherwise a full table yields a flow of the most
represented peer, if that peer has more than the requester. -/
def fairVictim (f : Firewall maxPeers) (requester : Nat) : Option Nat :=
  let requesterCount := f.peerCount requester
  if f.maxEntriesPerPeer ≤ requesterCount then f.victimOwnedBy requester
  else
    ((f.largestOwner requesterCount).bind f.victimOwnedBy).or (f.victimOwnedBy requester)

def replace (f : Firewall maxPeers) (position : Nat) (e : Entry) : Firewall maxPeers :=
  match f.entries[position]? with
  | none => f
  | some previous =>
    let f := if previous.peer ≠ e.peer then (f.decrementPeer previous.peer).incrementPeer e.peer
      else f
    { f with entries := f.entries.set position e }

def push (f : Firewall maxPeers) (e : Entry) : Bool × Firewall maxPeers :=
  if f.maxEntries ≤ f.entries.length then (false, f)
  else (true, { f with entries := f.entries ++ [e] }.incrementPeer e.peer)

/-- The entry after a packet of its flow. -/
def refreshed (f : Firewall maxPeers) (e : Entry) (parsed : Parsed) (now : Nat) : Entry :=
  let e := { e with lastSeen := now, closing := e.closing || parsed.isClosing }
  { e with expires := saturatingAdd now (f.effectiveTimeout e) }

/-- Record an outbound packet. -/
def observeOutbound (f : Firewall maxPeers) (peer : Nat) (packet : List UInt8) (now : Nat) :
    Firewall maxPeers :=
  if maxPeers ≤ peer then f
  else
    match parseFlow packet with
    | none => f
    | some parsed =>
      if parsed.kind = .error then f
      else
        match f.entries.findIdx? fun e => e.peer = peer ∧ now < e.expires ∧ e.flow = parsed.key with
        | some pos =>
          { f with entries := f.entries.modify pos fun e => f.refreshed e parsed now }
        | none =>
          if !parsed.opensNewFlow then f
          else
            let f := f.collectExpired now
            let e : Entry := ⟨peer, parsed.key, now, now, false⟩
            let e := { e with expires := saturatingAdd now (f.effectiveTimeout e) }
            let (pushed, g) := if f.peerCount peer < f.maxEntriesPerPeer then f.push e
              else (false, f)
            if pushed then g
            else
              match f.fairVictim peer with
              | some victim => f.replace victim e
              | none => f

/-- Does an inbound packet belong to a live flow, or is it an error related to one? -/
def allowsInbound (f : Firewall maxPeers) (peer : Nat) (packet : List UInt8) (now : Nat) :
    Bool × Firewall maxPeers :=
  match parseFlow packet with
  | none => (false, f)
  | some parsed =>
    let unsolicited : Bool :=
      match parsed.kind with
      | .tcp flags => Parsed.isBareSyn flags
      | .echoRequest => true
      | _ => false
    if parsed.kind = .error then
      (f.entries.any fun e => e.peer = peer ∧ now < e.expires ∧ e.flow = parsed.key, f)
    else if unsolicited then (false, f)
    else
      match f.entries.findIdx? fun e =>
          e.peer = peer ∧ now < e.expires ∧ parsed.key.isReverseOf e.flow with
      | none => (false, f)
      | some pos =>
        (true, { f with entries := f.entries.modify pos fun e => f.refreshed e parsed now })

/-- Forget the flows of a peer. -/
def removePeer (f : Firewall maxPeers) (peer : Nat) : Firewall maxPeers :=
  { f with entries := f.entries.filter fun e => e.peer ≠ peer }.setPeerCount peer 0

/-! ### Whose flows are tracked -/

/-- Every flow belongs to a peer in `S`, and no other peer is counted. -/
def Within (f : Firewall maxPeers) (S : Nat → Prop) : Prop :=
  (∀ e ∈ f.entries, S e.peer) ∧ ∀ p, ¬S p → f.peerCount p = 0

variable {f : Firewall maxPeers} {S : Nat → Prop}

theorem peerCount_setPeerCount (peer count q : Nat) :
    (f.setPeerCount peer count).peerCount q =
      if q = peer ∧ peer < maxPeers then count else f.peerCount q := by
  simp only [peerCount, setPeerCount, Vector.getElem?_setIfInBounds]
  by_cases h : peer = q
  · subst h
    by_cases hlt : peer < maxPeers
    · simp [hlt]
    · simp [hlt]
  · simp [h, Ne.symm h]

theorem within_new (maxFlows maxEntries maxEntriesPerPeer udpTimeout icmpTimeout tcpTimeout
    tcpClosingTimeout : Nat) :
    (withLimitsAndTimeouts maxPeers maxFlows maxEntries maxEntriesPerPeer udpTimeout icmpTimeout
      tcpTimeout tcpClosingTimeout).Within S := by
  refine ⟨fun e he => ?_, fun p _ => ?_⟩
  · simp [withLimitsAndTimeouts] at he
  · simp only [peerCount, withLimitsAndTimeouts, Vector.getElem?_replicate]
    split <;> rfl

theorem Within.mono {S' : Nat → Prop} (h : f.Within S) (hS : ∀ p, S p → S' p) : f.Within S' :=
  ⟨fun e he => hS _ (h.1 e he), fun p hp => h.2 p fun hs => hp (hS p hs)⟩

theorem Within.incrementPeer (h : f.Within S) {peer : Nat} (hp : S peer) :
    (f.incrementPeer peer).Within S := by
  refine ⟨h.1, fun q hq => ?_⟩
  have hne : q ≠ peer := fun heq => hq (heq ▸ hp)
  rw [Firewall.incrementPeer, peerCount_setPeerCount, if_neg (by simp [hne]), h.2 q hq]

theorem Within.decrementPeer (h : f.Within S) (peer : Nat) : (f.decrementPeer peer).Within S := by
  refine ⟨h.1, fun q hq => ?_⟩
  rw [Firewall.decrementPeer, peerCount_setPeerCount]
  split
  · rename_i heq
    rw [← heq.1, h.2 q hq]
  · exact h.2 q hq

theorem Within.withEntries (h : f.Within S) {entries : List Entry}
    (he : ∀ e ∈ entries, S e.peer) : { f with entries := entries }.Within S := ⟨he, h.2⟩

theorem Within.rebuildPeerCounts (h : ∀ e ∈ f.entries, S e.peer) :
    f.rebuildPeerCounts.Within S := by
  have hfold : ∀ (l : List Entry) (g : Firewall maxPeers), (∀ e ∈ l, S e.peer) → g.Within S →
      (l.foldl (fun g e => g.incrementPeer e.peer) g).Within S := by
    intro l
    induction l with
    | nil => exact fun g _ hg => hg
    | cons e l ih =>
      intro g hl hg
      exact ih _ (fun e' he' => hl e' (List.mem_cons_of_mem _ he'))
        (hg.incrementPeer (hl e List.mem_cons_self))
  refine hfold f.entries _ h ⟨h, fun p _ => ?_⟩
  simp only [peerCount, Vector.getElem?_replicate]
  split <;> rfl

theorem Within.collectExpired (h : f.Within S) (now : Nat) : (f.collectExpired now).Within S := by
  have hmem : ∀ e ∈ f.entries.filter fun e => now < e.expires, S e.peer := fun e he =>
    h.1 e (List.mem_filter.mp he).1
  unfold Firewall.collectExpired
  simp only []
  split
  · exact Within.rebuildPeerCounts hmem
  · exact h.withEntries hmem

theorem Within.push (h : f.Within S) {e : Entry} (he : S e.peer) : (f.push e).2.Within S := by
  unfold Firewall.push
  split
  · exact h
  · refine Within.incrementPeer (h.withEntries fun e' he' => ?_) he
    rcases List.mem_append.mp he' with he' | he'
    · exact h.1 e' he'
    · rw [List.mem_singleton.mp he']
      exact he

theorem Within.replace (h : f.Within S) (position : Nat) {e : Entry} (he : S e.peer) :
    (f.replace position e).Within S := by
  unfold Firewall.replace
  split
  · exact h
  · have hset : ∀ e' ∈ f.entries.set position e, S e'.peer := by
      intro e' he'
      rcases List.mem_or_eq_of_mem_set he' with he' | rfl
      · exact h.1 e' he'
      · exact he
    split
    · exact ((h.decrementPeer _).incrementPeer he).withEntries hset
    · exact h.withEntries hset

theorem Within.refresh (h : f.Within S) (pos now : Nat) (parsed : Parsed) :
    { f with entries := f.entries.modify pos fun e => f.refreshed e parsed now }.Within S := by
  refine h.withEntries fun e he => ?_
  obtain ⟨i, hi⟩ := List.mem_iff_getElem?.mp he
  rw [List.getElem?_modify] at hi
  obtain ⟨e', he', rfl⟩ := Option.map_eq_some_iff.mp hi
  have hmem := h.1 e' (List.mem_of_getElem? he')
  split
  · exact hmem
  · exact hmem

theorem Within.observeOutbound (h : f.Within S) {peer : Nat} (hp : S peer) (packet : List UInt8)
    (now : Nat) : (f.observeOutbound peer packet now).Within S := by
  have hc := h.collectExpired now
  unfold Firewall.observeOutbound
  dsimp only
  -- The branches keep the flows, refresh one, add one of `peer`, or put one in another's place.
  repeat' split
  all_goals first
    | exact h
    | exact h.refresh _ now _
    | exact hc
    | exact hc.push hp
    | exact Within.replace hc _ (show S _ from hp)

theorem Within.allowsInbound (h : f.Within S) (peer : Nat) (packet : List UInt8) (now : Nat) :
    (f.allowsInbound peer packet now).2.Within S := by
  unfold Firewall.allowsInbound
  cases parseFlow packet with
  | none => exact h
  | some parsed =>
    dsimp only
    by_cases herr : parsed.kind = .error
    · rw [if_pos herr]
      exact h
    rw [if_neg herr]
    split_ifs
    · exact h
    · cases f.entries.findIdx? fun e =>
          e.peer = peer ∧ now < e.expires ∧ parsed.key.isReverseOf e.flow with
      | none => exact h
      | some pos => exact h.refresh pos now parsed

theorem Within.removePeer (h : f.Within S) (peer : Nat) :
    (f.removePeer peer).Within fun q => S q ∧ q ≠ peer := by
  refine ⟨fun e he => ?_, fun q hq => ?_⟩
  · obtain ⟨hmem, hne⟩ := List.mem_filter.mp he
    exact ⟨h.1 e hmem, by simpa using hne⟩
  · rw [Firewall.removePeer, peerCount_setPeerCount]
    split
    · rfl
    · rename_i hne
      by_cases hs : S q
      · have heq : q = peer := Classical.byContradiction fun hn => hq ⟨hs, hn⟩
        have hge : maxPeers ≤ peer := Nat.le_of_not_lt fun hlt => hne ⟨heq, hlt⟩
        simp [peerCount, heq, hge]
      · exact h.2 q hs

end Firewall

end Microtun
