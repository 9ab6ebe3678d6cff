import Microtun.Firewall
import Microtun.Messages
import Microtun.Relay

/-! Protocol constants and engine configuration, `constants.rs` and `config.rs`.  Durations are
milliseconds. -/

namespace Microtun

def rekeyAfterMessages : Nat := 2 ^ 60
def rejectAfterMessages : Nat := 2 ^ 64 - 1 - 2 ^ 13
def rekeyAfterTime : Nat := 120000
def rejectAfterTime : Nat := 180000
def rekeyAttemptTime : Nat := 90000
def rekeyTimeout : Nat := 5000
def handshakeInitiationMinInterval : Nat := 20
def rekeyTimeoutJitterMax : Nat := 333
def rekeyAfterTimeJitterMax : Nat := 10000
def keepaliveTimeout : Nat := 10000

namespace Backend

/-- A limit that is larger in builds with an allocator. -/
def pick (alloc inline : Nat) : Backend → Nat
  | .alloc => alloc
  | .inline => inline

def maxFirewallFlows : Backend → Nat := pick 16384 64
def maxPeerEvictionGhosts : Backend → Nat := pick 256 16
def maxRateLimitEntries : Backend → Nat := pick 4096 64
def maxInflightResolves : Backend → Nat := pick 256 12
def maxPendingInitiations : Backend → Nat := pick 32 4
def maxPendingPackets : Backend → Nat := pick 64 2

end Backend

/-- A peer of the configuration. -/
structure PinnedPeer where
  publicKey : Key
  endpoint : Option SocketAddr
  relay : Option Key
  address : IpCidr
  inboundPolicy : InboundPolicy
  persistentKeepalive : Option Nat
deriving DecidableEq, Repr

/-- Operational settings. -/
structure CoreConfig where
  resolveTimeout : Nat
  resolveOutboundTimeout : Nat
  negativeTtl : Nat
  dynamicPeerMinIdle : Nat
  peerEvictionInterval : Nat
  peerEvictionBurst : Nat
  peerEvictionGhostTtl : Nat
  peerEvictionGhostEntries : Nat
  relayResolveMinInterval : Nat
  lazyPeerReserve : Nat
  firewallUdpTimeout : Nat
  firewallIcmpTimeout : Nat
  firewallTcpTimeout : Nat
  firewallTcpClosingTimeout : Nat
  firewallFlowEntries : Nat
  firewallFlowsPerPeer : Nat
  underLoadHandshakesPerSec : Nat
  underLoadFreeSlots : Nat
  rateLimitPerSec : Nat
  rateLimitBurst : Nat
  rateLimitEntries : Nat
  remoteResolvePerSec : Nat
  remoteResolveBurst : Nat
  unknownAuthPerSec : Nat
  unknownAuthBurst : Nat
  maxInflightResolves : Nat
deriving DecidableEq, Repr

namespace CoreConfig

/-- The hardened operational policy. -/
def default (backend : Backend) : CoreConfig where
  resolveTimeout := 10000
  resolveOutboundTimeout := 10000
  negativeTtl := 60000
  dynamicPeerMinIdle := 30000
  peerEvictionInterval := 10000
  peerEvictionBurst := 1
  peerEvictionGhostTtl := 60000
  peerEvictionGhostEntries := 8
  relayResolveMinInterval := 5000
  lazyPeerReserve := 1
  firewallUdpTimeout := 60000
  firewallIcmpTimeout := 30000
  firewallTcpTimeout := 1800000
  firewallTcpClosingTimeout := 30000
  firewallFlowEntries := backend.pick 4096 64
  firewallFlowsPerPeer := backend.pick 128 8
  underLoadHandshakesPerSec := 8
  underLoadFreeSlots := 1
  rateLimitPerSec := 20
  rateLimitBurst := 5
  rateLimitEntries := backend.pick 1024 64
  remoteResolvePerSec := 1
  remoteResolveBurst := 4
  unknownAuthPerSec := 2
  unknownAuthBurst := 4
  maxInflightResolves := 12

/-- Refuse settings beyond the storage, and those that cannot make progress. -/
def validateAgainstLimits (backend : Backend) (c : CoreConfig) : Except Error Unit :=
  if backend.maxRateLimitEntries < c.rateLimitEntries ∨
      backend.maxFirewallFlows < c.firewallFlowEntries ∨ c.firewallFlowEntries = 0 ∨
      c.firewallFlowsPerPeer = 0 ∨ c.firewallFlowEntries < c.firewallFlowsPerPeer ∨
      backend.maxInflightResolves < c.maxInflightResolves ∨
      backend.maxPeerEvictionGhosts < c.peerEvictionGhostEntries then
    .error .invalidCapacity
  else if c.resolveTimeout = 0 ∨ c.resolveOutboundTimeout = 0 ∨ c.peerEvictionInterval = 0 ∨
      c.peerEvictionBurst = 0 then
    .error .invalidCoreConfig
  else .ok ()

theorem validate_default (backend : Backend) :
    (default backend).validateAgainstLimits backend = .ok () := by
  cases backend <;> rfl

end CoreConfig

/-- What an engine is built from. -/
structure Config where
  privateKey : Key
  pinned : List PinnedPeer
  coreConfig : CoreConfig
deriving DecidableEq, Repr

end Microtun
