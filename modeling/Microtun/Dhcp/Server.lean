import Microtun.Buffer

/-! The DHCP server of the fallback link, `dhcp.rs`. -/

namespace Microtun.Dhcp

abbrev Ipv4 := Bytes 4

def fallbackDeviceIpv4 : Ipv4 := #v[192, 168, 7, 1]
def fallbackDhcpRangeStart : Ipv4 := #v[192, 168, 7, 2]
def fallbackDhcpRangeEnd : Ipv4 := #v[192, 168, 7, 20]
def fallbackIpv4PrefixLen : Nat := 24

def dhcpClientPort : UInt16 := 68
def dhcpPacketBuffer : Nat := 600
def dhcpFixedHeaderLen : Nat := 240
def dhcpMinReplyLen : Nat := 300
def dhcpLeaseSeconds : Nat := 60 * 60
def dhcpLeaseCapacity : Nat := (fallbackDhcpRangeEnd[3] - fallbackDhcpRangeStart[3] + 1).toNat

def bootrequest : UInt8 := 1
def bootreply : UInt8 := 2
def ethernetHtype : UInt8 := 1
def dhcpMagicCookie : Bytes 4 := #v[99, 130, 83, 99]

def optionPad : UInt8 := 0
def optionSubnetMask : UInt8 := 1
def optionBroadcastAddress : UInt8 := 28
def optionRequestedIp : UInt8 := 50
def optionLeaseTime : UInt8 := 51
def optionMessageType : UInt8 := 53
def optionServerIdentifier : UInt8 := 54
def optionClientIdentifier : UInt8 := 61
def optionEnd : UInt8 := 255

def dhcpDiscover : UInt8 := 1
def dhcpOffer : UInt8 := 2
def dhcpRequest : UInt8 := 3
def dhcpDecline : UInt8 := 4
def dhcpAck : UInt8 := 5
def dhcpNak : UInt8 := 6
def dhcpRelease : UInt8 := 7

/-- `bytes` is an array of 16. -/
structure ClientKey where
  bytes : List UInt8
  len : Nat
deriving DecidableEq, Repr

namespace ClientKey

def empty : ClientKey := ⟨List.replicate 16 0, 0⟩

def fromSlice (value : List UInt8) : ClientKey :=
  let len := min value.length empty.bytes.length
  ⟨value.take len ++ empty.bytes.drop len, len⟩

def matchesKey (key other : ClientKey) : Bool :=
  key.len == other.len && key.bytes.take key.len == other.bytes.take other.len

end ClientKey

structure Lease where
  inUse : Bool
  client : ClientKey
deriving DecidableEq, Repr

def Lease.empty : Lease := ⟨false, ClientKey.empty⟩

structure Request where
  messageType : UInt8
  client : ClientKey
  requestedIp : Option Ipv4
  serverIdentifier : Option Ipv4
  ciaddr : Ipv4
  htype : UInt8
  hlen : UInt8
  xid : Bytes 4
  flags : Bytes 2
  giaddr : Ipv4
  chaddr : Bytes 16

/-! ### Requests -/

/-- What `parse_request` has found in the options. -/
structure Options where
  messageType : Option UInt8
  client : ClientKey
  requestedIp : Option Ipv4
  serverIdentifier : Option Ipv4

/-- What an option changes. -/
def Options.set (options : Options) (code : UInt8) (value : List UInt8) : Options :=
  if code = optionMessageType ∧ value.length = 1 then { options with messageType := value[0]? }
  else if code = optionRequestedIp ∧ value.length = 4 then
    { options with requestedIp := some (Bytes.ofList 4 value) }
  else if code = optionServerIdentifier ∧ value.length = 4 then
    { options with serverIdentifier := some (Bytes.ofList 4 value) }
  else if code = optionClientIdentifier ∧ value ≠ [] then
    { options with client := .fromSlice value }
  else options

/-- The loop of `parse_request` over the options. -/
def parseOptions (packet : List UInt8) (offset : Nat) (options : Options) : Except Panic Options :=
  if offset < packet.length then do
    let code ← byteAt packet offset
    if code = optionPad then parseOptions packet (offset + 1) options
    else if code = optionEnd then return options
    else
      match packet[offset + 1]? with
      | none => return options
      | some optionLen =>
        match slice packet ⟨offset + 2, offset + 2 + optionLen.toNat⟩ with
        | none => return options
        | some value => parseOptions packet (offset + 2 + optionLen.toNat) (options.set code value)
  else return options
termination_by packet.length - offset

def parseRequest (packet : List UInt8) : Except Panic (Option Request) :=
  if packet.length < dhcpFixedHeaderLen then return none
  else do
    let op ← byteAt packet 0
    let htype ← byteAt packet 1
    let hlen ← byteAt packet 2
    let cookie ← arrayAt 4 packet 236
    if op ≠ bootrequest ∨ htype ≠ ethernetHtype ∨ hlen = 0 ∨ 16 < hlen ∨
      cookie ≠ dhcpMagicCookie then
      return none
    else
      let ciaddr ← arrayAt 4 packet 12
      let hardware ← arrayAt hlen.toNat packet 28
      let options ← parseOptions packet dhcpFixedHeaderLen
        ⟨none, .fromSlice hardware.toList, none, none⟩
      let chaddr ← arrayAt 16 packet 28
      let xid ← arrayAt 4 packet 4
      let flags ← arrayAt 2 packet 10
      let giaddr ← arrayAt 4 packet 24
      return options.messageType.map fun messageType =>
        { messageType := messageType, client := options.client, requestedIp := options.requestedIp
          serverIdentifier := options.serverIdentifier, ciaddr := ciaddr, htype := htype, hlen :=
            hlen
          xid := xid, flags := flags, giaddr := giaddr, chaddr := chaddr }

/-! ### Replies -/

def prefixMask (prefixLen : Nat) : List UInt8 :=
  toBeBytes 4 (if prefixLen = 0 then 0 else (2 ^ 32 - 1) <<< (32 - prefixLen) % 2 ^ 32)

def nonzeroIpv4 (ip : Ipv4) : Option Ipv4 := if ip ≠ #v[0, 0, 0, 0] then some ip else none

/-- The packet, and the offset behind the option. -/
def pushOption (packet : List UInt8) (offset : Nat) (code : UInt8) (value : List UInt8) :
    Except Panic (List UInt8 × Nat) := do
  let packet ← copyAt packet offset [code]
  let packet ← copyAt packet (offset + 1) [UInt8.ofNat value.length]
  let packet ← copyAt packet (offset + 2) value
  return (packet, offset + (value.length + 2))

/-- The part of `build_reply` for an acknowledgement. -/
def copyCiaddr (request : Request) (reply : List UInt8) (messageType : UInt8) :
    Except Panic (List UInt8) :=
  if messageType = dhcpAck then copyAt reply 12 request.ciaddr.toList else return reply

/-- The part of `build_reply` for an offer or an acknowledgement. -/
def pushLease (reply : List UInt8) (offset : Nat) (messageType : UInt8) :
    Except Panic (List UInt8 × Nat) :=
  if messageType = dhcpOffer ∨ messageType = dhcpAck then do
    let (reply, offset) ← pushOption reply offset optionLeaseTime (toBeBytes 4 dhcpLeaseSeconds)
    let (reply, offset) ← pushOption reply offset optionSubnetMask
      (prefixMask fallbackIpv4PrefixLen)
    pushOption reply offset optionBroadcastAddress
      [fallbackDeviceIpv4[0], fallbackDeviceIpv4[1], fallbackDeviceIpv4[2], 255]
  else return (reply, offset)

/-- The reply and its length. -/
def buildReply (request : Request) (reply : List UInt8) (messageType : UInt8) (yiaddr : Ipv4) :
    Except Panic (List UInt8 × Nat) := do
  let reply := List.replicate reply.length 0
  let reply ← copyAt reply 0 [bootreply]
  let reply ← copyAt reply 1 [request.htype]
  let reply ← copyAt reply 2 [request.hlen]
  let reply ← copyAt reply 4 request.xid.toList
  let reply ← copyAt reply 10 request.flags.toList
  let reply ← copyCiaddr request reply messageType
  let reply ← copyAt reply 16 yiaddr.toList
  let reply ← copyAt reply 24 request.giaddr.toList
  let reply ← copyAt reply 28 request.chaddr.toList
  let reply ← copyAt reply 236 dhcpMagicCookie.toList
  let (reply, offset) ← pushOption reply dhcpFixedHeaderLen optionMessageType [messageType]
  let (reply, offset) ← pushOption reply offset optionServerIdentifier fallbackDeviceIpv4.toList
  let (reply, offset) ← pushLease reply offset messageType
  let reply ← copyAt reply offset [optionEnd]
  return (reply, max (offset + 1) dhcpMinReplyLen)

/-- An address and a port. -/
structure IpEndpoint where
  ip : Ipv4
  port : UInt16
deriving DecidableEq

def replyDestination (request : Request) (messageType : UInt8) : IpEndpoint :=
  let broadcast : Ipv4 := #v[255, 255, 255, 255]
  let ip := if messageType ≠ dhcpNak then (nonzeroIpv4 request.ciaddr).getD broadcast else broadcast
  ⟨ip, dhcpClientPort⟩

/-! ### Leases -/

def leaseIp (slot : Nat) : Ipv4 :=
  #v[fallbackDhcpRangeStart[0], fallbackDhcpRangeStart[1], fallbackDhcpRangeStart[2],
    fallbackDhcpRangeStart[3] + UInt8.ofNat slot]

def leaseSlot (ip : Ipv4) : Option Nat :=
  if ip[0] ≠ fallbackDhcpRangeStart[0] ∨ ip[1] ≠ fallbackDhcpRangeStart[1] ∨
      ip[2] ≠ fallbackDhcpRangeStart[2] ∨ ip[3] < fallbackDhcpRangeStart[3] ∨
      fallbackDhcpRangeEnd[3] < ip[3] then none
  else some (ip[3] - fallbackDhcpRangeStart[3]).toNat

def findClientLease (leases : List Lease) (client : ClientKey) : Option Nat :=
  leases.findIdx? fun lease => lease.inUse && lease.client.matchesKey client

/-- The slot, and the leases after it. -/
def existingOrAllocateLease (leases : List Lease) (client : ClientKey) :
    Option (Nat × List Lease) :=
  match findClientLease leases client with
  | some slot => some (slot, leases)
  | none =>
    (leases.findIdx? fun lease => !lease.inUse).map fun slot =>
      (slot, leases.set slot ⟨true, client⟩)

def assignLease (leases : List Lease) (slot : Nat) (client : ClientKey) : List Lease :=
  (leases.map fun lease => if lease.inUse && lease.client.matchesKey client then Lease.empty
    else lease).set
    slot ⟨true, client⟩

def releaseLease (leases : List Lease) (client : ClientKey) : List Lease :=
  match findClientLease leases client with
  | some slot => leases.set slot Lease.empty
  | none => leases

def declineLease (leases : List Lease) (client : ClientKey) : List Lease :=
  match findClientLease leases client with
  | some slot => leases.set slot ⟨true, ClientKey.empty⟩
  | none => leases

/-! ### The loop -/

structure Datagram where
  bytes : List UInt8
  destination : IpEndpoint

/-- The reply to a request, built in the buffer of the request. -/
def sendReply (request : Request) (packet : List UInt8) (messageType : UInt8) (yiaddr : Ipv4) :
    Except Panic Datagram := do
  let buffer := packet ++ List.replicate (dhcpPacketBuffer - packet.length) 0
  let (reply, replyLen) ← buildReply request buffer messageType yiaddr
  return ⟨reply.take replyLen, replyDestination request messageType⟩

/-- What a request for an address is answered, and the leases after it. -/
def answerRequest (leases : List Lease) (request : Request) (requestedIp : Ipv4) :
    Except Panic (List Lease × UInt8) :=
  match leaseSlot requestedIp with
  | none => return (leases, dhcpNak)
  | some slot =>
    match leases[slot]? with
    | none => throw .index
    | some lease =>
      if !lease.inUse || lease.client.matchesKey request.client then
        return (assignLease leases slot request.client, dhcpAck)
      else return (leases, dhcpNak)

/-- What the loop does with a packet: the leases after it, and what it sends. -/
def serve (leases : List Lease) (packet : List UInt8) :
    Except Panic (List Lease × Option Datagram) := do
  match ← parseRequest packet with
  | none => return (leases, none)
  | some request =>
    if request.giaddr ≠ #v[0, 0, 0, 0] then return (leases, none)
    else if request.serverIdentifier.any (· ≠ fallbackDeviceIpv4) then return (leases, none)
    else if request.messageType = dhcpDiscover then
      match existingOrAllocateLease leases request.client with
      | none => return (leases, none)
      | some (slot, leases) =>
        let sent ← sendReply request packet dhcpOffer (leaseIp slot)
        return (leases, some sent)
    else if request.messageType = dhcpRequest then
      let requestedIp := request.requestedIp <|> nonzeroIpv4 request.ciaddr <|>
        (findClientLease leases request.client).map leaseIp
      match requestedIp with
      | none => return (leases, none)
      | some requestedIp =>
        let (leases, replyType) ← answerRequest leases request requestedIp
        let yiaddr := if replyType = dhcpAck then requestedIp else #v[0, 0, 0, 0]
        let sent ← sendReply request packet replyType yiaddr
        return (leases, some sent)
    else if request.messageType = dhcpRelease then return (releaseLease leases request.client, none)
    else if request.messageType = dhcpDecline then return (declineLease leases request.client, none)
    else return (leases, none)

def initialLeases : List Lease := List.replicate dhcpLeaseCapacity Lease.empty

/-- The server serves the request. -/
def Request.Served (request : Request) : Prop :=
  request.giaddr = #v[0, 0, 0, 0] ∧ ¬request.serverIdentifier.any (· ≠ fallbackDeviceIpv4) = true

instance (request : Request) : Decidable request.Served := inferInstanceAs (Decidable (_ ∧ _))

end Microtun.Dhcp
