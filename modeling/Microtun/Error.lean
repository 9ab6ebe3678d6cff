/-! The error type of the crate. -/

namespace Microtun

/-- Errors surfaced by the protocol engine and its helpers. -/
inductive Error where
  | bufferTooSmall
  | invalidCapacity
  | invalidCoreConfig
  | timeOverflow
  | internalInvariant
  | malformedIpPacket
  | packetTooLarge
  | peerTableFull
  | peerAdmissionLimited
  | invalidPrivateKey
  | invalidPinnedConfiguration
  | sessionPoolFull
  | sessionIndexGenerationFailed
  | routeCacheFull
  | resolverBusy
  | crypto
  | noWallClock
  | noEndpoint
  | relayUnavailable
  | invalidResolverAnswer
deriving DecidableEq, Repr

end Microtun
