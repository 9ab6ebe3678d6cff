import Microtun.Crypto
import Microtun.Lib.HashMap
import Microtun.Net
import Microtun.Tracker.Rpc

/-! Which key opened a connection, `net.rs` of the tracker: the endpoints that have sent a `SYN`,
each with the key of the peer that sent it, until the connection is accepted. -/

namespace Microtun.Tracker

def maxPeers : Nat := 128
def maxPendingEndpoints : Nat := maxPeers * maxConnectionsPerPeer

/-- The address and port of a peer that connects. -/
abbrev Endpoint := IpAddr × UInt16

structure PendingKeys where
  connections : HashMap Endpoint Key
  order : List Endpoint

namespace PendingKeys

def new : PendingKeys := ⟨∅, []⟩

/-- The loop of `record`, over the order. -/
def evict (connections : HashMap Endpoint Key) : List Endpoint → PendingKeys
  | [] => ⟨connections, []⟩
  | oldest :: order =>
    if (oldest :: order).length > maxPendingEndpoints then evict (connections.erase oldest) order
    else ⟨connections, oldest :: order⟩

def record (p : PendingKeys) (endpoint : Endpoint) (key : Key) : PendingKeys :=
  let order := if (p.connections.lookup endpoint).isNone then p.order ++ [endpoint] else p.order
  evict (p.connections.insert endpoint key) order

def take (p : PendingKeys) (endpoint : Endpoint) : Option Key × PendingKeys :=
  match p.connections.lookup endpoint with
  | none => (none, p)
  | some key =>
    (some key, {
      connections := p.connections.erase endpoint
      order :=
        match p.order.findIdx? (· = endpoint) with
        | some position => p.order.eraseIdx position
        | none => p.order })

end PendingKeys

/-! ### The network interface -/

/-- A checked view of an IP packet. -/
structure IpPacket (w : Nat) where
  nextHeader : UInt8
  srcAddr : BitVec w
  payload : List UInt8

/-- A checked view of a TCP segment. -/
structure TcpPacket where
  syn : Bool
  ack : Bool
  srcPort : UInt16

/-- `new_checked` of the packets of the TCP stack. -/
structure Wire where
  ipv4 : List UInt8 → Option (IpPacket 32)
  ipv6 : List UInt8 → Option (IpPacket 128)
  tcp : List UInt8 → Option TcpPacket

def ipProtocolTcp : UInt8 := 6

def openingPort (tcp : TcpPacket) : Option UInt16 := if tcp.syn && !tcp.ack then some tcp.srcPort
    else none

/-- An endpoint of a version of IP. -/
def synEndpointOf {w : Nat} (wire : Wire) (address : BitVec w → IpAddr)
    (packet : Option (IpPacket w)) :
    Option Endpoint := do
  let ip ← packet
  if ip.nextHeader ≠ ipProtocolTcp then failure
  let tcp ← wire.tcp ip.payload
  (openingPort tcp).map fun port => (address ip.srcAddr, port)

/-- The endpoint that a bare `SYN` came from, if the packet is one. -/
def synEndpoint (wire : Wire) (packet : List UInt8) : Option Endpoint :=
  match packet with
  | [] => none
  | first :: _ =>
    if first >>> 4 = 4 then synEndpointOf wire .v4 (wire.ipv4 packet)
    else if first >>> 4 = 6 then synEndpointOf wire .v6 (wire.ipv6 packet)
    else none

/-- `send` of the interface, up to the queue of the stack. -/
def nicSend (wire : Wire) (p : PendingKeys) (srcPeerKey : Key) (packet : List UInt8) :
    PendingKeys :=
  match synEndpoint wire packet with
  | some endpoint => p.record endpoint srcPeerKey
  | none => p

/-- `accept` of a socket with a remote endpoint: the key of the stream. -/
def accept (p : PendingKeys) (endpoint : Option Endpoint) : Option Key × PendingKeys :=
  match endpoint with
  | some endpoint => p.take endpoint
  | none => (none, p)

end Microtun.Tracker
