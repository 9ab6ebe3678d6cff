import Microtun.Mdns.Records

/-! The packets of service discovery are read back as they were built, where the names are ASCII. -/

namespace Microtun.Mdns

/-! ### The names of a device -/

theorem writable_append {a b : Text} : Writable (a ++ '.' :: b) ↔ Writable a ∧ Writable b := by
  rw [Writable, List.splitOn_append_cons_self]
  exact List.forall_mem_append

theorem Ascii.append {a b : Text} : Ascii (a ++ b) ↔ Ascii a ∧ Ascii b := List.forall_mem_append

theorem Ascii.lower {text : Text} (h : Ascii text) : Ascii (lower text) := by
  have hall : ∀ v : Fin 128, (Char.ofNat v).toLower.toNat < 128 := by decide
  intro c hc
  obtain ⟨c, hmem, rfl⟩ := List.mem_map.mp hc
  have hlower := hall ⟨c.toNat, h c hmem⟩
  rwa [Char.ofNat_toNat] at hlower

theorem Ascii.length {text : Text} (h : Ascii text) : (Utf8.encode text).length = text.length := by
  induction text with
  | nil => rfl
  | cons c text ih =>
    rw [Utf8.encode_cons, Utf8.encodeChar_ascii (h c List.mem_cons_self), List.singleton_append,
      List.length_cons, ih fun c' hc' => h c' (List.mem_cons_of_mem _ hc'), List.length_cons]

theorem Ascii.length_lower {text : Text} (h : Ascii text) :
    (Utf8.encode (Mdns.lower text)).length = (Utf8.encode text).length := by
  rw [h.lower.length, h.length, Mdns.lower, List.length_map]

/-- The label of a device. -/
def hostLabel (deviceId : Text) : Text := deviceHostnamePrefix ++ deviceId

theorem HString.text_pushStr {N : Nat} {s s' : HString N} {text : Text}
    (h : s.pushStr text = some s') : s'.text = s.text ++ text := by
  unfold HString.pushStr at h
  split at h
  · exact Option.some.inj h ▸ rfl
  · cases h

theorem serviceNames_eq {deviceId : Text} {hostname : HString 72} {instanceName : HString 128}
    {value : HString maxMdnsDeviceIdLen}
    (h : serviceNames deviceId = some (hostname, instanceName, value)) :
    hostname.text = hostLabel deviceId ++ '.' :: "local".toList ∧
    instanceName.text = hostLabel deviceId ++ '.' :: microtunMdnsService ∧
    value.text = deviceId ∧ (Utf8.encode (hostLabel deviceId)).length ≤ 32 := by
  simp only [serviceNames, deviceHostname, Option.bind_eq_bind, Option.bind_eq_some_iff] at h
  obtain ⟨value', hvalue, label, ⟨start, hstart, hlabel⟩, host, hhost, host', hhost', inst, hinst,
    inst', hinst', inst'', hinst'', heq⟩ := h
  cases heq
  have hlabelText := HString.text_pushStr hlabel
  rw [HString.text_pushStr hstart] at hlabelText
  refine ⟨?_, ?_, ?_, ?_⟩
  · rw [HString.text_pushStr hhost', HString.text_pushStr hhost, hlabelText]
    rfl
  · rw [HString.text_pushStr hinst'', HString.text_pushStr hinst', HString.text_pushStr hinst,
      hlabelText]
    simp [hostLabel, HString.new]
  · exact HString.text_pushStr hvalue
  · have hfits := label.fits
    rwa [hlabelText] at hfits

/-! ### Whole packets -/

/-- The header of a response with four records. -/
def responseHeader (id : UInt16) : List UInt8 :=
  toBeBytes 2 id.toNat ++
    (toBeBytes 2 dnsResponseAuthoritative.toNat ++ ([0, 0] ++ (toBeBytes 2 4 ++ [0, 0, 0, 0])))

theorem writeU16_over (front : List UInt8) {old : List UInt8} (h : old.length = 2)
    (rest : List UInt8) (value : UInt16) : writeU16 front.length value (front ++ (old ++ rest)) =
      some ((), front ++ (toBeBytes 2 value.toNat ++ rest)) := by
  have hput : put front.length (toBeBytes 2 value.toNat) (front ++ (old ++ rest)) =
      some (front.length + 2, front ++ (toBeBytes 2 value.toNat ++ rest)) := by
    show (if _ then _ else _) = _
    rw [if_pos (by simp [h])]
    simp [setField, List.drop_append, h]
  rw [writeU16, bind_run, writeU16At, hput]
  rfl

theorem writes_header {n : Nat} (h : 12 ≤ n) (id : UInt16) (next : Writer Nat) :
    (writeU16 0 id >>= fun _ => writeU16 2 dnsResponseAuthoritative >>= fun _ =>
      writeU16 6 4 >>= fun _ => next) (List.replicate n 0) =
      next (responseHeader id ++ List.replicate (n - 12) 0) := by
  obtain ⟨n, rfl⟩ : ∃ k, n = k + 12 := ⟨n - 12, by omega⟩
  rw [Nat.add_sub_cancel]
  generalize hrest : List.replicate n (0 : UInt8) = rest
  have hzeros : List.replicate (n + 12) (0 : UInt8) =
      [0, 0] ++ ([0, 0] ++ ([0, 0] ++ ([0, 0] ++ ([0, 0, 0, 0] ++ rest)))) := hrest ▸ rfl
  have hid : writeU16 0 id ([0, 0] ++ ([0, 0] ++ ([0, 0] ++ ([0, 0] ++ ([0, 0, 0, 0] ++ rest))))) =
      some ((), toBeBytes 2 id.toNat ++
        ([0, 0] ++ ([0, 0] ++ ([0, 0] ++ ([0, 0, 0, 0] ++ rest))))) :=
    writeU16_over [] (rfl : ([0, 0] : List UInt8).length = 2) _ id
  have hflags : writeU16 2 dnsResponseAuthoritative
    (toBeBytes 2 id.toNat ++ ([0, 0] ++ ([0, 0] ++ ([0, 0] ++
      ([0, 0, 0, 0] ++ rest))))) =
        some ((), toBeBytes 2 id.toNat ++ (toBeBytes 2 dnsResponseAuthoritative.toNat ++
        ([0, 0] ++ ([0, 0] ++ ([0, 0, 0, 0] ++ rest))))) :=
          writeU16_over (toBeBytes 2 id.toNat) rfl _ _
  have hcount := writeU16_over
    (toBeBytes 2 id.toNat ++ (toBeBytes 2 dnsResponseAuthoritative.toNat ++ [0, 0]))
    (rfl : ([0, 0] : List UInt8).length = 2) ([0, 0, 0, 0] ++ rest) 4
  have hsix : (toBeBytes 2 id.toNat ++
      (toBeBytes 2 dnsResponseAuthoritative.toNat ++ [0, 0])).length = 6 := by simp
  rw [hsix, List.append_assoc, List.append_assoc, List.append_assoc, List.append_assoc] at hcount
  rw [hzeros, bind_run, hid, Option.bind_some]
  show (writeU16 2 dnsResponseAuthoritative >>= _) _ = _
  rw [bind_run, hflags, Option.bind_some]
  show (writeU16 6 4 >>= _) _ = _
  rw [bind_run, hcount, responseHeader]
  simp only [List.append_assoc]
  rfl

/-- The records of a response. -/
def responseRecords (instanceName hostname deviceId model : Text) (port : UInt16) (ip : Bytes 4) :
    List UInt8 :=
  recordBytes microtunMdnsService dnsTypePtr dnsClassIn (nameBytes instanceName) ++
    (recordBytes instanceName dnsTypeSrv uniqueClass (srvRdata hostname port) ++
    (recordBytes instanceName dnsTypeTxt uniqueClass (txtRdata deviceId model) ++
    recordBytes hostname dnsTypeA uniqueClass ip.toList))

section
variable {instanceName hostname deviceId model : Text} (port : UInt16) (ip : Bytes 4)

theorem length_responseRecords (hi : (Utf8.encode instanceName).length ≤ 53)
    (hh : (Utf8.encode hostname).length ≤ 38)
    (hid : (Utf8.encode deviceId).length ≤ maxMdnsDeviceIdLen)
    (hmodel : (Utf8.encode model).length ≤ maxMdnsModelLen) :
    (responseRecords instanceName hostname deviceId model port ip).length ≤ 550 := by
  have hservice : (Utf8.encode microtunMdnsService).length = 20 := by decide
  have htxt := length_txtRdata hid hmodel
  simp only [responseRecords, List.length_append, length_recordBytes, length_nameBytes, srvRdata,
    length_toBeBytes, Vector.length_toList]
  omega

theorem build_response (hi : Writable instanceName) (hh : Writable hostname)
    (hilen : (Utf8.encode instanceName).length ≤ 53) (hhlen : (Utf8.encode hostname).length ≤ 38)
    (hid : (Utf8.encode deviceId).length ≤ maxMdnsDeviceIdLen)
    (hmodel : (Utf8.encode model).length ≤ maxMdnsModelLen) {packet : Packet}
    (hroom : 562 ≤ packet.length) (id : UInt16) :
    ∃ zeros, buildServiceResponse packet id microtunMdnsService instanceName hostname deviceId model
      port ip =
      some ((responseHeader id ++ responseRecords instanceName hostname deviceId model port
        ip).length, responseHeader id ++ responseRecords instanceName hostname deviceId model port
        ip ++ zeros) := by
  have hlen := length_responseRecords port ip hilen hhlen hid hmodel
  have hrecords := ((writes_ptr service_writable hi (by omega)).bind
    ((writes_srv hi hh port (by omega)).bind ((writes_txt hi hid hmodel).bind (writes_a hh ip))))
    (responseHeader id) (List.replicate (packet.length - 12) 0) (by
      rw [List.length_replicate]
      exact Nat.le_trans hlen (by omega))
  rw [← List.length_append] at hrecords
  exact ⟨_, (writes_header (by omega) id _).trans hrecords⟩

theorem readRecords_cons {front record rest : List UInt8} {found found' : Found} (count : Nat)
    (h : readRecord (front ++ (record ++ rest)) front.length found =
      some (front.length + record.length, found')) :
    readRecords (front ++ (record ++ rest)) (count + 1) front.length found =
      readRecords ((front ++ record) ++ rest) count (front ++ record).length found' := by
  rw [readRecords, h, List.length_append, List.append_assoc]
  rfl

theorem parse_header (id : UInt16) (records : List UInt8) :
    parseDiscoveryResponse (responseHeader id ++ records) =
      (readRecords (responseHeader id ++ records) 4 (responseHeader id).length .nothing).bind
        parsedDevice := by
  rfl

theorem parse_none (hi : Writable instanceName) (hlen : (Utf8.encode instanceName).length ≤ 53)
    (hascii : ¬Ascii instanceName) (id : UInt16) : parseDiscoveryResponse
      (responseHeader id ++ responseRecords instanceName hostname deviceId model port ip) =
      none := by
  have htarget : (nameBytes instanceName).length < 2 ^ 16 := by
    rw [length_nameBytes]
    omega
  rw [parse_header, responseRecords, readRecords, readRecord_ptr_none _ _ _ _ hi htarget hascii]
  rfl

theorem parse_some (hi : Writable instanceName) (hh : Writable hostname) (hia : Ascii instanceName)
    (hha : Ascii hostname) (hilen : (Utf8.encode instanceName).length ≤ 53)
    (hhlen : (Utf8.encode hostname).length ≤ 38)
    (hid : (Utf8.encode deviceId).length ≤ maxMdnsDeviceIdLen)
    (hmodel : (Utf8.encode model).length ≤ maxMdnsModelLen) (id : UInt16) : parseDiscoveryResponse
      (responseHeader id ++ responseRecords instanceName hostname deviceId model port ip) =
      some ⟨⟨deviceId, hid⟩, some ⟨model, hmodel⟩, ip, port⟩ := by
  have hifits : (Utf8.encode (lower instanceName)).length ≤ maxDnsNameLen := by
    rw [hia.length_lower]
    exact Nat.le_trans hilen (by decide)
  have hhfits : (Utf8.encode (lower hostname)).length ≤ maxDnsNameLen := by
    rw [hha.length_lower]
    exact Nat.le_trans hhlen (by decide)
  have hsrvLen : (srvRdata hostname port).length < 2 ^ 16 := by
    simp only [srvRdata, List.length_append, length_toBeBytes, length_nameBytes]
    omega
  rw [parse_header, responseRecords,
    readRecords_cons _ (readRecord_ptr _ _ _ _ hi (by rw [length_nameBytes]; omega) hia hifits),
    readRecords_cons _ (readRecord_srv _ _ _ _ hi hia hifits port hh hha hhfits hsrvLen),
    readRecords_cons _ (readRecord_txt _ _ _ _ hi hia hifits hid hmodel)]
  have ha (front : List UInt8) (found : Found) :=
    readRecord_a front [] uniqueClass found hh hha hhfits
    ip
  simp only [List.append_nil] at ha
  rw [readRecords, ha]
  show parsedDevice _ = _
  simp [parsedDevice, Found.nothing, eqDnsName_self]

end

/-! ### The round trip -/

/-- The query of a host is matched by every device, and asks for an answer to itself alone. -/
theorem query_matched {packet : Packet} (hroom : packet.length = dnsPacketBuffer)
    (instanceName hostname : Text) :
    ∃ len packet', buildDiscoveryQuery packet = some (len, packet') ∧
      matchingQuery (packet'.take len) microtunMdnsService instanceName hostname =
        some ⟨0, true, false⟩ := by
  have hbuild : (buildDiscoveryQuery packet).map (fun r => (r.1, r.2.take r.1)) = some
      (38, [0, 0, 0, 0, 0, 1, 0, 0, 0, 0, 0, 0] ++
        (nameBytes microtunMdnsService ++ [0, 12, 128, 1])) := by
    rw [buildDiscoveryQuery, hroom]
    decide +kernel
  obtain ⟨⟨len, packet'⟩, hquery, hbytes⟩ := Option.map_eq_some_iff.mp hbuild
  refine ⟨len, packet', hquery, ?_⟩
  have htake : packet'.take len = _ := congrArg Prod.snd hbytes
  rw [htake]
  have hname : readName _ 12 = _ := readName_ascii (N := maxDnsNameLen)
    [0, 0, 0, 0, 0, 1, 0, 0, 0, 0, 0, 0] [0, 12, 128, 1] service_writable service_ascii service_fits
  have hmatch : eqDnsName (lower microtunMdnsService) microtunMdnsService = true := by decide
  have henum : eqDnsName (lower microtunMdnsService) dnsSdEnumeration = false := by decide
  show (matchQuestions _ _ _ _ 1 12 _).bind _ = _
  rw [matchQuestions, hname]
  simp only [Option.bind_eq_bind, Option.bind_some, hmatch, henum]
  rfl

theorem bind_none {α β : Type} {write : Writer α} {next : α → Writer β}
    (h : ∀ a packet, next a packet = none) (packet : Packet) : (write >>= next) packet = none := by
  rw [bind_run]
  cases write packet with
  | none => rfl
  | some r => exact h r.1 r.2

theorem bind_none_left {α β : Type} {write : Writer α} {next : α → Writer β} {packet : Packet}
    (h : write packet = none) : (write >>= next) packet = none := by
  rw [bind_run, h]
  rfl

/-- A name with an empty label fails the response in a buffer of any size. -/
theorem response_none {instanceName : Text} (h : ¬Writable instanceName) (packet : Packet)
    (id : UInt16) (service hostname deviceId model : Text) (port : UInt16) (ip : Bytes 4) :
    buildServiceResponse packet id service instanceName hostname deviceId model port ip = none := by
  simp only [Writable, not_forall] at h
  obtain ⟨label, hmem, hlabel⟩ := h
  have hptr (offset : Nat) (packet : Packet) : writePtrRecord offset service instanceName false
      packet = none :=
    bind_none (fun _ => bind_none fun _ _ => bind_none_left (writeName_none hmem hlabel _ _)) packet
  exact bind_none (fun _ => bind_none fun _ => bind_none fun _ _ => bind_none_left (hptr _ _)) _

variable {deviceId model : Text} {hostname : HString 72} {instanceName : HString 128}
  {value : HString maxMdnsDeviceIdLen}

/-- What service discovery promises of a device: the query of a host is matched, the response in a
buffer is read back as it was given, and a response that fails does so in a buffer of any size. -/
theorem discovery_round_trip (hnames : serviceNames deviceId = some (hostname, instanceName, value))
    (hmodel : (Utf8.encode model).length ≤ maxMdnsModelLen) {packet : Packet}
    (hroom : packet.length = dnsPacketBuffer) (id port : UInt16) (ip : Bytes 4) :
    (∃ len packet', buildDiscoveryQuery packet = some (len, packet') ∧
      matchingQuery (packet'.take len) microtunMdnsService instanceName.text hostname.text =
        some ⟨0, true, false⟩) ∧
    (buildServiceResponse packet id microtunMdnsService instanceName.text hostname.text value.text
      model port ip =
      none → ∀ packet', buildServiceResponse packet' id microtunMdnsService instanceName.text
        hostname.text value.text model port ip = none) ∧
    ∀ len packet', buildServiceResponse packet id microtunMdnsService instanceName.text
      hostname.text value.text model port ip = some (len, packet') →
      ((∃ device, parseDiscoveryResponse (packet'.take len) = some device ∧ device.deviceId.text =
        deviceId ∧
        device.model.map HString.text = some model ∧ device.address = ip ∧ device.port = port) ↔
          Ascii deviceId) := by
  obtain ⟨hhost, hinst, hvalue, hlabel⟩ := serviceNames_eq hnames
  have hidlen : (Utf8.encode deviceId).length ≤ maxMdnsDeviceIdLen := hvalue ▸ value.fits
  have hservice : (Utf8.encode microtunMdnsService).length = 20 := by decide
  have hlocal : (Utf8.encode "local".toList).length = 5 := by decide
  have hdot : (String.utf8EncodeChar '.').length = 1 := rfl
  have hilen : (Utf8.encode (hostLabel deviceId ++ '.' :: microtunMdnsService)).length ≤ 53 := by
    simp only [Utf8.encode_append, Utf8.encode_cons, List.length_append]
    omega
  have hhlen : (Utf8.encode (hostLabel deviceId ++ '.' :: "local".toList)).length ≤ 38 := by
    simp only [Utf8.encode_append, Utf8.encode_cons, List.length_append]
    omega
  rw [hhost, hinst, hvalue]
  have hi : Writable (hostLabel deviceId ++ '.' :: microtunMdnsService) ↔
      Writable (hostLabel deviceId) :=
    writable_append.trans (and_iff_left (by decide))
  have hh : Writable (hostLabel deviceId ++ '.' :: "local".toList) ↔
      Writable (hostLabel deviceId) :=
    writable_append.trans (and_iff_left (by decide))
  have hbuild (hwritable : Writable (hostLabel deviceId)) :=
    build_response port ip (hi.mpr hwritable) (hh.mpr hwritable) hilen hhlen hidlen hmodel
      (hroom ▸ by decide : 562 ≤ packet.length) id
  refine ⟨query_matched hroom _ _, ?_, ?_⟩
  · intro hnone packet'
    refine response_none (fun hwritable => ?_) packet' id _ _ _ _ _ _
    obtain ⟨zeros, hsome⟩ := hbuild (hi.mp hwritable)
    exact nomatch hnone.symm.trans hsome
  · intro len packet' hsome
    have hwritable : Writable (hostLabel deviceId) := by
      by_contra hwritable
      rw [response_none (fun h => hwritable (hi.mp h))] at hsome
      cases hsome
    obtain ⟨zeros, hpacket⟩ := hbuild hwritable
    obtain ⟨rfl, rfl⟩ := Prod.mk.inj (Option.some.inj (hsome.symm.trans hpacket))
    have hprefix : Ascii deviceHostnamePrefix := by decide
    have hinstance : Ascii (hostLabel deviceId ++ '.' :: microtunMdnsService) ↔ Ascii deviceId :=
      Ascii.append.trans ((and_iff_left (by decide)).trans
        (Ascii.append.trans (and_iff_right hprefix)))
    have hhostname : Ascii (hostLabel deviceId ++ '.' :: "local".toList) ↔ Ascii deviceId :=
      Ascii.append.trans ((and_iff_left (by decide)).trans
        (Ascii.append.trans (and_iff_right hprefix)))
    rw [List.take_left]
    constructor
    · rintro ⟨device, hparse, -⟩
      by_contra hascii
      rw [parse_none _ _ (hi.mpr hwritable) hilen fun h => hascii (hinstance.mp h)] at hparse
      cases hparse
    · intro hascii
      exact ⟨_, parse_some _ _ (hi.mpr hwritable) (hh.mpr hwritable) (hinstance.mpr hascii)
        (hhostname.mpr hascii) hilen
        hhlen hidlen hmodel id, rfl, rfl, rfl, rfl⟩

theorem discovery_round_trip_id : ∃ hostname instanceName value len packet',
    serviceNames "0svmx1udh1".toList = some (hostname, instanceName, value) ∧
      buildServiceResponse (List.replicate dnsPacketBuffer 0) 7 microtunMdnsService
        instanceName.text
        hostname.text value.text "esp32".toList 23 (Bytes.zero 4) = some (len, packet') ∧
      ∃ device, parseDiscoveryResponse (packet'.take len) = some device ∧
        device.deviceId.text = "0svmx1udh1".toList ∧ device.model.map HString.text =
          some "esp32".toList ∧ device.address = Bytes.zero 4 ∧ device.port = 23 := by
  have hsome : (serviceNames "0svmx1udh1".toList).isSome = true := by decide
  obtain ⟨⟨hostname, instanceName, value⟩, hnames⟩ := Option.isSome_iff_exists.mp hsome
  obtain ⟨hhost, hinst, hvalue, -⟩ := serviceNames_eq hnames
  have hmodel : (Utf8.encode "esp32".toList).length ≤ maxMdnsModelLen := by decide
  have hroom : 562 ≤ (List.replicate dnsPacketBuffer (0 : UInt8)).length := by decide +kernel
  obtain ⟨zeros, hbuilt⟩ := build_response 23 (Bytes.zero 4)
    (hinst ▸ by decide : Writable instanceName.text) (hhost ▸ by decide : Writable hostname.text)
    (hinst ▸ by decide) (hhost ▸ by decide) value.fits hmodel hroom 7
  refine ⟨hostname, instanceName, value, _, _, hnames, hbuilt, ?_⟩
  exact ((discovery_round_trip hnames hmodel (List.length_replicate ..) 7 23 (Bytes.zero 4)).2.2 _ _
    hbuilt).mpr (by decide)

/-- A device whose id is not ASCII is published, and not read back. -/
theorem discovery_loses_device : ∃ hostname instanceName value len packet',
    serviceNames ['é'] = some (hostname, instanceName, value) ∧
      buildServiceResponse (List.replicate dnsPacketBuffer 0) 0 microtunMdnsService
        instanceName.text
        hostname.text value.text "esp32".toList 23 (Bytes.zero 4) = some (len, packet') ∧
      parseDiscoveryResponse (packet'.take len) = none := by
  have hsome : (serviceNames ['é']).isSome = true := by decide
  obtain ⟨⟨hostname, instanceName, value⟩, hnames⟩ := Option.isSome_iff_exists.mp hsome
  obtain ⟨hhost, hinst, hvalue, -⟩ := serviceNames_eq hnames
  have hwritable : Writable instanceName.text := hinst ▸ by decide
  have hlen : (Utf8.encode instanceName.text).length ≤ 53 := hinst ▸ by decide
  have hmodel : (Utf8.encode "esp32".toList).length ≤ maxMdnsModelLen := by decide
  have hroom : 562 ≤ (List.replicate dnsPacketBuffer (0 : UInt8)).length := by decide +kernel
  obtain ⟨zeros, hbuilt⟩ := build_response 23 (Bytes.zero 4) hwritable
    (hhost ▸ by decide : Writable hostname.text) hlen (hhost ▸ by decide) value.fits hmodel hroom 0
  refine ⟨hostname, instanceName, value, _, _, hnames, hbuilt, ?_⟩
  rw [List.take_left]
  exact parse_none _ _ hwritable hlen (hinst ▸ by decide) 0

end Microtun.Mdns
