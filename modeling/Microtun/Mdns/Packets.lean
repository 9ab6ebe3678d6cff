import Microtun.Mdns.Wire

/-! Queries and responses of service discovery, `mdns.rs`. -/

namespace Microtun.Mdns

def dnsPacketBuffer : Nat := 768
def dnsHeaderLen : Nat := 12
def dnsClassIn : UInt16 := 1
def dnsClassQu : UInt16 := 0x8000
def dnsClassCacheFlush : UInt16 := 0x8000
def dnsTypeA : UInt16 := 1
def dnsTypePtr : UInt16 := 12
def dnsTypeTxt : UInt16 := 16
def dnsTypeSrv : UInt16 := 33
def dnsTypeAny : UInt16 := 255
def dnsResponseAuthoritative : UInt16 := 0x8400
def dnsTtlSeconds : UInt32 := 120
def dnsSdEnumeration : Text := "_services._dns-sd._udp.local".toList
def maxDnsNameLen : Nat := 192
def microtunMdnsService : Text := "_microtun._tcp.local".toList
def deviceHostnamePrefix : Text := "microtun-".toList
def maxDeviceHostnameLen : Nat := 32
def maxMdnsDeviceIdLen : Nat := 23
def maxMdnsModelLen : Nat := 192

abbrev Name := HString maxDnsNameLen

/-! ### Names of a device -/

def deviceHostname (deviceId : Text) : Option (HString maxDeviceHostnameLen) := do
  let hostname ← HString.new.pushStr deviceHostnamePrefix
  hostname.pushStr deviceId

/-- The hostname, the name of the service's instance and the id. -/
def serviceNames (deviceId : Text) :
    Option (HString 72 × HString 128 × HString maxMdnsDeviceIdLen) := do
  let deviceIdValue ← HString.new.pushStr deviceId
  let hostLabel ← deviceHostname deviceId
  let hostname ← HString.new.pushStr hostLabel.text
  let hostname ← hostname.pushStr ".local".toList
  let instanceName ← HString.new.pushStr hostLabel.text
  let instanceName ← instanceName.push '.'
  let instanceName ← instanceName.pushStr microtunMdnsService
  return (hostname, instanceName, deviceIdValue)

/-! ### Writing packets -/

/-- The owner of a record, its type, its class and how long it lives. -/
def writeRecordHead (offset : Nat) (owner : Text) (type class_ : UInt16) : Writer Nat := do
  let offset ← writeName offset owner
  let offset ← writeU16At offset type
  let offset ← writeU16At offset class_
  writeU32At offset dnsTtlSeconds

/-- The data of a record, after its length. -/
def writeRdata (offset : Nat) (rdata : Nat → Writer Nat) : Writer Nat := do
  let rdlengthAt := offset
  let offset ← writeU16At offset 0
  let rdataStart := offset
  let offset ← rdata offset
  if offset - rdataStart < 2 ^ 16 then
    writeU16 rdlengthAt (UInt16.ofNat (offset - rdataStart))
    return offset
  else failure

def writePtrRecord (offset : Nat) (owner target : Text) (cacheFlush : Bool) : Writer Nat := do
  let offset ← writeRecordHead offset owner dnsTypePtr
    (dnsClassIn ||| if cacheFlush then dnsClassCacheFlush else 0)
  writeRdata offset fun offset => writeName offset target

def writeSrvRecord (offset : Nat) (owner target : Text) (port : UInt16) : Writer Nat := do
  let offset ← writeRecordHead offset owner dnsTypeSrv (dnsClassIn ||| dnsClassCacheFlush)
  writeRdata offset fun offset => do
    let offset ← writeU16At offset 0
    let offset ← writeU16At offset 0
    let offset ← writeU16At offset port
    writeName offset target

/-- `key=value` as a string of a TXT record, made in a string of at most `N` bytes. -/
def writeTxtEntry (N : Nat) (offset : Nat) (key value : Text) : Writer Nat := do
  let txt ← ((HString.new : HString N).pushStr key).bind (·.pushStr value)
  writeTxtString offset txt.text

def writeTxtRecord (offset : Nat) (owner deviceId model : Text) : Writer Nat :=
  if (Utf8.encode deviceId).length > maxMdnsDeviceIdLen ∨
    (Utf8.encode model).length > maxMdnsModelLen then
    failure
  else do
    let offset ← writeRecordHead offset owner dnsTypeTxt (dnsClassIn ||| dnsClassCacheFlush)
    writeRdata offset fun offset => do
      let offset ← writeTxtEntry 64 offset "device_id=".toList deviceId
      writeTxtEntry 200 offset "model=".toList model

def writeARecord (offset : Nat) (owner : Text) (ip : Bytes 4) : Writer Nat := do
  let offset ← writeRecordHead offset owner dnsTypeA (dnsClassIn ||| dnsClassCacheFlush)
  let offset ← writeU16At offset 4
  writeBytes offset ip.toList

/-- The length of the query and the packet with it. -/
def buildDiscoveryQuery (packet : Packet) : Option (Nat × Packet) :=
  let query : Writer Nat := do
    writeU16 4 1
    let offset ← writeName dnsHeaderLen microtunMdnsService
    let offset ← writeU16At offset dnsTypePtr
    writeU16At offset (dnsClassIn ||| dnsClassQu)
  query (List.replicate packet.length 0)

def buildServiceResponse (packet : Packet) (id : UInt16)
    (service instanceName hostname deviceId model : Text) (port : UInt16) (ip : Bytes 4) : Option
    (Nat × Packet) :=
  let response : Writer Nat := do
    writeU16 0 id
    writeU16 2 dnsResponseAuthoritative
    writeU16 6 4
    let offset ← writePtrRecord dnsHeaderLen service instanceName false
    let offset ← writeSrvRecord offset instanceName hostname port
    let offset ← writeTxtRecord offset instanceName deviceId model
    writeARecord offset hostname ip
  response (List.replicate packet.length 0)

/-! ### Reading queries -/

structure MatchingQuery where
  id : UInt16
  preferUnicast : Bool
  enumeration : Bool
deriving DecidableEq, Repr

/-- What the questions so far asked for. -/
structure Asked where
  matched : Bool
  enumeration : Bool
  preferUnicast : Bool

/-- The loop of `matching_query` over the questions. -/
def matchQuestions (packet : Packet) (service instanceName hostname : Text) : Nat → Nat → Asked →
    Option Asked
  | 0, _, asked => some asked
  | count + 1, offset, asked => do
    let (offset, name) ← readName (N := maxDnsNameLen) packet offset
    let qtype ← readU16 packet offset
    let qclass ← readU16 packet (offset + 2)
    let offset := offset + 4
    let typeMatches (expected : UInt16) : Bool := qtype = expected || qtype = dnsTypeAny
    let unicast : Bool := asked.preferUnicast || qclass &&& dnsClassQu ≠ 0
    matchQuestions packet service instanceName hostname count offset <|
      if qclass &&& 0x7fff ≠ dnsClassIn then asked
      else if eqDnsName name.text dnsSdEnumeration &&
        typeMatches dnsTypePtr then ⟨true, true, unicast⟩
      else if (eqDnsName name.text service && typeMatches dnsTypePtr) ||
          (eqDnsName name.text instanceName && (typeMatches dnsTypeSrv || typeMatches dnsTypeTxt))
            ||
          (eqDnsName name.text hostname && typeMatches dnsTypeA) then
        { asked with matched := true, preferUnicast := unicast }
      else asked

def matchingQuery (packet : Packet) (service instanceName hostname : Text) :
    Option MatchingQuery := do
  if packet.length < dnsHeaderLen then failure
  else if (← readU16 packet 2) &&& 0x8000 ≠ 0 then failure
  else
    let qdcount ← readU16 packet 4
    if qdcount = 0 then failure
    else
      let asked ← matchQuestions packet service instanceName hostname qdcount.toNat dnsHeaderLen
        ⟨false, false, false⟩
      if asked.matched then return ⟨← readU16 packet 0, asked.preferUnicast, asked.enumeration⟩
        else failure

/-! ### Reading responses -/

structure ParsedDevice where
  deviceId : HString maxMdnsDeviceIdLen
  model : Option (HString maxMdnsModelLen)
  address : Bytes 4
  port : UInt16
deriving DecidableEq

/-- The loop of `parse_discovery_response` over the questions. -/
def skipQuestions (packet : Packet) : Nat → Nat → Option Nat
  | 0, offset => some offset
  | count + 1, offset => do
    let (offset, _) ← readName (N := maxDnsNameLen) packet offset
    if offset + 4 > packet.length then failure else skipQuestions packet count (offset + 4)

/-- What the records so far said. -/
structure Found where
  serviceInstance : Option Name
  srvOwner : Option Name
  srvTarget : Option Name
  srvPort : Option UInt16
  txtOwner : Option Name
  deviceId : Option (HString maxMdnsDeviceIdLen)
  model : Option (HString maxMdnsModelLen)
  addresses : List (Name × Bytes 4)

def Found.nothing : Found := ⟨none, none, none, none, none, none, none, []⟩

/-- What a string of a TXT record says. -/
def readTxtEntry (text : Text) (found : Found) : Option Found :=
  match "device_id=".toList.isPrefixOf? text with
  | some value => (HString.new.pushStr value).map fun parsed =>
    { found with deviceId := some parsed }
  | none => match "model=".toList.isPrefixOf? text with
    | some value => (HString.new.pushStr value).map fun parsed =>
      { found with model := some parsed }
    | none => some found

/-- The loop of `parse_discovery_response` over the strings of a TXT record. -/
def readTxt (packet : Packet) (at_ stop : Nat) (found : Found) : Option Found :=
  if _ : at_ < stop then
    match packet[at_]? with
    | none => none
    | some len =>
      let textEnd := at_ + 1 + len.toNat
      if textEnd > stop then none
      else
        match slice packet ⟨at_ + 1, textEnd⟩ with
        | none => none
        | some bytes =>
          match (Utf8.decode? bytes).bind (readTxtEntry · found) with
          | none => none
          | some found => readTxt packet textEnd stop found
  else some found
termination_by stop - at_

/-- What a record says, and where it ends. -/
def readRecord (packet : Packet) (offset : Nat) (found : Found) : Option (Nat × Found) := do
  let (next, name) ← readName (N := maxDnsNameLen) packet offset
  let recordType ← readU16 packet next
  let rdlength ← readU16 packet (next + 8)
  let rdata := next + 10
  let stop := rdata + rdlength.toNat
  if stop > packet.length then failure
  else if recordType = dnsTypePtr ∧ eqDnsName name.text microtunMdnsService then
    let (_, target) ← readName packet rdata
    return (stop, { found with serviceInstance := some target })
  else if recordType = dnsTypeSrv ∧ rdlength ≥ 6 then
    let port ← readU16 packet (rdata + 4)
    let (_, target) ← readName packet (rdata + 6)
    return (stop,
      { found with srvOwner := some name, srvPort := some port, srvTarget := some target })
  else if recordType = dnsTypeTxt then
    let found ← readTxt packet rdata stop { found with txtOwner := some name }
    return (stop, found)
  else if recordType = dnsTypeA ∧ rdlength = 4 then
    -- the addresses past the eighth are dropped
    let addresses :=
      if found.addresses.length < 8 then found.addresses ++
        [(name, Bytes.ofList 4 (packet.drop rdata))]
      else found.addresses
    return (stop, { found with addresses })
  else return (stop, found)

/-- The loop of `parse_discovery_response` over the records. -/
def readRecords (packet : Packet) : Nat → Nat → Found → Option Found
  | 0, _, found => some found
  | count + 1, offset, found => do
    let (offset, found) ← readRecord packet offset found
    readRecords packet count offset found

def deviceIdFromInstance (instanceName : Text) : Option (HString maxMdnsDeviceIdLen) := do
  let label ← (instanceName.splitOn '.').head?
  let value ← deviceHostnamePrefix.isPrefixOf? label
  HString.new.pushStr value

/-- What `parse_discovery_response` makes of the records. -/
def parsedDevice (found : Found) : Option ParsedDevice := do
  let instanceName ← found.serviceInstance
  if found.srvOwner.any (fun owner => !eqDnsName owner.text instanceName.text) ||
      found.txtOwner.any (fun owner => !eqDnsName owner.text instanceName.text) then failure
  else
    let target ← found.srvTarget
    let address ← found.addresses.findSome? fun (owner, address) =>
      if eqDnsName owner.text target.text then some address else none
    let deviceId ← found.deviceId.or (deviceIdFromInstance instanceName.text)
    return ⟨deviceId, found.model, address, ← found.srvPort⟩

def parseDiscoveryResponse (packet : Packet) : Option ParsedDevice := do
  if packet.length < dnsHeaderLen then failure
  else if (← readU16 packet 2) &&& 0x8000 = 0 then failure
  else
    let qdcount ← readU16 packet 4
    let answers ← readU16 packet 6
    let authorities ← readU16 packet 8
    let additionals ← readU16 packet 10
    let offset ← skipQuestions packet qdcount.toNat dnsHeaderLen
    let found ← readRecords packet (answers.toNat + authorities.toNat + additionals.toNat) offset
      .nothing
    parsedDevice found

end Microtun.Mdns
