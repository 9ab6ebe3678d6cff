import Microtun.Mdns.Names

/-! The records of a response: what is written for each, and what is read from it. -/

namespace Microtun.Mdns

/-! ### Numbers -/

theorem readU16_at (front rest : List UInt8) (value : UInt16) :
    readU16 (front ++ (toBeBytes 2 value.toNat ++ rest)) front.length = some value := by
  have hbytes : toBeBytes 2 value.toNat =
      [UInt8.ofNat (value.toNat / 256), UInt8.ofNat value.toNat] := rfl
  have hback := ofBeBytes_toBeBytes 2 value.toNat
  rw [hbytes] at hback
  rw [hbytes, readU16, List.getElem?_append_right (Nat.le_refl _),
    List.getElem?_append_right (Nat.le_add_right _ _), Nat.sub_self, Nat.add_sub_cancel_left]
  simp only [List.cons_append, List.getElem?_cons_zero, List.getElem?_cons_succ, List.nil_append,
    Option.bind_some, Option.pure_def, Option.bind_eq_bind]
  have hlt : value.toNat < 256 ^ 2 := UInt16.toNat_lt value
  rw [hback, Nat.mod_eq_of_lt hlt, UInt16.ofNat_toNat]

/-! ### Records -/

/-- A record on the wire. -/
def recordBytes (owner : Text) (type class_ : UInt16) (rdata : List UInt8) : List UInt8 :=
  nameBytes owner ++ (toBeBytes 2 type.toNat ++
    (toBeBytes 2 class_.toNat ++ (toBeBytes 4 dnsTtlSeconds.toNat ++
    (toBeBytes 2 rdata.length ++ rdata))))

theorem writes_recordHead {owner : Text} (h : Writable owner) (type class_ : UInt16) :
    Writes (writeRecordHead · owner type class_) (nameBytes owner ++ (toBeBytes 2 type.toNat ++
      (toBeBytes 2 class_.toNat ++ toBeBytes 4 dnsTtlSeconds.toNat))) :=
  (writes_name h).bind ((writes_put _).bind ((writes_put _).bind (writes_put _)))

theorem writes_record {owner : Text} (h : Writable owner) (type class_ : UInt16)
    {rdata : Nat → Writer Nat} {bytes : List UInt8} (hrdata : Writes rdata bytes)
    (hlen : bytes.length < 2 ^ 16) :
    Writes (fun offset => writeRecordHead offset owner type class_ >>= fun offset =>
      writeRdata offset rdata) (recordBytes owner type class_ bytes) := by
  have hwrites := (writes_recordHead h type class_).bind (hrdata.rdata hlen)
  simpa only [recordBytes, List.append_assoc] using hwrites

/-- An entry of a TXT record on the wire. -/
def entryBytes (key value : Text) : List UInt8 :=
  UInt8.ofNat (Utf8.encode (key ++ value)).length :: Utf8.encode (key ++ value)

theorem lift_run {α β : Type} (o : Option α) (next : α → Writer β) (packet : Packet) :
    (liftM o >>= next : Writer β) packet = o.bind fun a => next a packet := by
  cases o <;> rfl

theorem writes_entry {N : Nat} {key value : Text} (hfits : (Utf8.encode (key ++ value)).length ≤ N)
    (hlen : (Utf8.encode (key ++ value)).length < 256) :
    Writes (writeTxtEntry N · key value) (entryBytes key value) := by
  have hkey : (Utf8.encode ((HString.new : HString N).text ++ key)).length ≤ N :=
    Nat.le_trans (length_encode_append key value) hfits
  have hentry : ((HString.new : HString N).pushStr key).bind (·.pushStr value) =
      some ⟨key ++ value, hfits⟩ := by
    rw [HString.pushStr_eq hkey, Option.bind_some]
    exact HString.pushStr_eq hfits
  intro front rest hroom
  refine Eq.trans ?_ (writes_put (entryBytes key value) front rest hroom)
  show (liftM _ >>= _ : Writer Nat) (front ++ rest) = _
  rw [lift_run, hentry, Option.bind_some]
  show (if _ then _ else _ : Writer Nat) _ = _
  rw [if_pos hlen]
  rfl

/-! ### The records of a response -/

theorem length_key {key value : Text} {N : Nat} (h : (Utf8.encode value).length ≤ N) :
    (Utf8.encode (key ++ value)).length ≤ (Utf8.encode key).length + N := by
  rw [Utf8.encode_append, List.length_append]
  exact Nat.add_le_add_left h _

/-- The class of a record that is not shared. -/
def uniqueClass : UInt16 := dnsClassIn ||| dnsClassCacheFlush

def srvRdata (target : Text) (port : UInt16) : List UInt8 :=
  toBeBytes 2 0 ++ (toBeBytes 2 0 ++ (toBeBytes 2 port.toNat ++ nameBytes target))

def txtRdata (deviceId model : Text) : List UInt8 :=
  entryBytes "device_id=".toList deviceId ++ entryBytes "model=".toList model

theorem length_recordBytes (owner : Text) (type class_ : UInt16) (rdata : List UInt8) :
    (recordBytes owner type class_ rdata).length =
    (Utf8.encode owner).length + 12 + rdata.length := by
  simp [recordBytes, length_nameBytes]
  omega

section
variable {owner target : Text}

theorem writes_ptr (ho : Writable owner) (ht : Writable target)
    (hlen : (Utf8.encode target).length + 2 < 2 ^ 16) : Writes (writePtrRecord · owner target false)
      (recordBytes owner dnsTypePtr dnsClassIn (nameBytes target)) :=
  writes_record ho dnsTypePtr dnsClassIn (writes_name ht) (by rw [length_nameBytes]; exact hlen)

theorem writes_srv (ho : Writable owner) (ht : Writable target) (port : UInt16)
    (hlen : (Utf8.encode target).length + 8 < 2 ^ 16) : Writes (writeSrvRecord · owner target port)
      (recordBytes owner dnsTypeSrv uniqueClass (srvRdata target port)) :=
  writes_record ho dnsTypeSrv uniqueClass
    ((writes_put _).bind ((writes_put _).bind ((writes_put _).bind (writes_name ht)))) (by
      simp [srvRdata, length_nameBytes]
      omega)

theorem writes_txt (ho : Writable owner) {deviceId model : Text}
    (hid : (Utf8.encode deviceId).length ≤ maxMdnsDeviceIdLen)
    (hmodel : (Utf8.encode model).length ≤ maxMdnsModelLen) :
    Writes (writeTxtRecord · owner deviceId model)
      (recordBytes owner dnsTypeTxt uniqueClass (txtRdata deviceId model)) := by
  have hidKey : (Utf8.encode ("device_id=".toList ++ deviceId)).length ≤ 33 := length_key hid
  have hmodelKey : (Utf8.encode ("model=".toList ++ model)).length ≤ 198 := length_key hmodel
  have hentries : Writes
    (fun offset => writeTxtEntry 64 offset "device_id=".toList deviceId >>= fun offset =>
      writeTxtEntry 200 offset "model=".toList model) (txtRdata deviceId model) :=
    (writes_entry (by omega) (by omega)).bind (writes_entry (by omega) (by omega))
  have hrecord := writes_record ho dnsTypeTxt uniqueClass hentries (by
    simp only [txtRdata, entryBytes, List.length_append, List.length_cons]
    omega)
  intro front rest hroom
  refine Eq.trans ?_ (hrecord front rest hroom)
  show (if _ then _ else _ : Writer Nat) _ = _
  rw [if_neg fun hbad => hbad.elim (Nat.not_lt.mpr hid) (Nat.not_lt.mpr hmodel)]
  rfl

theorem writes_a (ho : Writable owner) (ip : Bytes 4) :
    Writes (writeARecord · owner ip) (recordBytes owner dnsTypeA uniqueClass ip.toList) := by
  have hwrites := (writes_recordHead ho dnsTypeA uniqueClass).bind
    ((writes_put (toBeBytes 2 4)).bind (writes_put ip.toList))
  simp only [List.append_assoc] at hwrites
  rw [recordBytes, Vector.length_toList]
  exact hwrites
end

/-! ### Reading a record -/

theorem service_writable : Writable microtunMdnsService := by decide

theorem service_ascii : Ascii microtunMdnsService := by decide

theorem service_fits : (Utf8.encode (lower microtunMdnsService)).length ≤ maxDnsNameLen := by decide

section
variable (front rest : List UInt8) {rdata : List UInt8} {owner : Text} (type class_ : UInt16)

/-- A record in a packet: its fields, and its data at the end of what is before it. -/
theorem record_fields (ho : Writable owner) (hascii : Ascii owner)
    (hfits : (Utf8.encode (lower owner)).length ≤ maxDnsNameLen) (hlen : rdata.length < 2 ^ 16) :
    ∃ (next : Nat) (before : List UInt8),
      front ++ (recordBytes owner type class_ rdata ++ rest) = before ++ (rdata ++ rest) ∧
      before.length = next + 10 ∧
      front.length + (recordBytes owner type class_ rdata).length = before.length + rdata.length ∧
      readName (before ++ (rdata ++ rest)) front.length =
        some (next, (⟨lower owner, hfits⟩ : Name)) ∧
      readU16 (before ++ (rdata ++ rest)) next = some type ∧
      readU16 (before ++ (rdata ++ rest)) (next + 8) = some (UInt16.ofNat rdata.length) := by
  have hname := readName_ascii front (toBeBytes 2 type.toNat ++ (toBeBytes 2 class_.toNat ++
    (toBeBytes 4 dnsTtlSeconds.toNat ++ (toBeBytes 2 rdata.length ++ (rdata ++ rest))))) ho hascii
      hfits
  have htype := readU16_at (front ++ nameBytes owner) (toBeBytes 2 class_.toNat ++
    (toBeBytes 4 dnsTtlSeconds.toNat ++ (toBeBytes 2 rdata.length ++ (rdata ++ rest)))) type
  have hnat : (UInt16.ofNat rdata.length).toNat = rdata.length := UInt16.toNat_ofNat_of_lt' hlen
  have hrdlength := readU16_at (front ++ nameBytes owner ++ toBeBytes 2 type.toNat ++
    toBeBytes 2 class_.toNat ++ toBeBytes 4 dnsTtlSeconds.toNat) (rdata ++ rest)
      (UInt16.ofNat rdata.length)
  rw [hnat] at hrdlength
  refine ⟨front.length + (nameBytes owner).length,
    front ++ nameBytes owner ++ toBeBytes 2 type.toNat ++
    toBeBytes 2 class_.toNat ++ toBeBytes 4 dnsTtlSeconds.toNat ++ toBeBytes 2 rdata.length, ?_, ?_,
      ?_, ?_, ?_, ?_⟩
  · simp only [recordBytes, List.append_assoc]
  · simp only [List.length_append, length_toBeBytes]
  · simp only [recordBytes, List.length_append, Nat.add_assoc]
  · simpa only [List.append_assoc] using hname
  · simpa only [List.append_assoc, List.length_append] using htype
  · simpa only [List.append_assoc, List.length_append, length_toBeBytes,
      Nat.add_assoc] using hrdlength

variable (found : Found)

section
variable {target : Text} (ht : Writable target) (hlen : (nameBytes target).length < 2 ^ 16)
include ht hlen

theorem readRecord_ptr (hascii : Ascii target)
    (hfits : (Utf8.encode (lower target)).length ≤ maxDnsNameLen) :
    readRecord (front ++
      (recordBytes microtunMdnsService dnsTypePtr class_ (nameBytes target) ++ rest))
        front.length found =
      some (front.length +
        (recordBytes microtunMdnsService dnsTypePtr class_ (nameBytes target)).length,
        { found with serviceInstance := some ⟨lower target, hfits⟩ }) := by
  obtain ⟨next, before, hpacket, hbefore, hstop, hname, htype, hrdlength⟩ :=
    record_fields front rest dnsTypePtr class_ service_writable service_ascii service_fits hlen
  have hroom : ¬before.length + (nameBytes target).length >
      (before ++ (nameBytes target ++ rest)).length := by
    simp
  rw [hpacket, hstop, readRecord, hname]
  simp only [Option.bind_eq_bind, Option.bind_some, htype, hrdlength,
    UInt16.toNat_ofNat_of_lt' hlen, ← hbefore, if_neg hroom]
  rw [if_pos ⟨trivial, by decide⟩, readName_ascii _ _ ht hascii hfits]
  rfl

theorem readRecord_ptr_none (hascii : ¬Ascii target) : readRecord (front ++
      (recordBytes microtunMdnsService dnsTypePtr class_ (nameBytes target) ++ rest))
        front.length found = none := by
  obtain ⟨next, before, hpacket, hbefore, hstop, hname, htype, hrdlength⟩ :=
    record_fields front rest dnsTypePtr class_ service_writable service_ascii service_fits hlen
  have hroom : ¬before.length + (nameBytes target).length >
      (before ++ (nameBytes target ++ rest)).length := by
    simp
  rw [hpacket, readRecord, hname]
  simp only [Option.bind_eq_bind, Option.bind_some, htype, hrdlength,
    UInt16.toNat_ofNat_of_lt' hlen, ← hbefore, if_neg hroom]
  rw [if_pos ⟨trivial, by decide⟩, readName_none _ _ ht hascii]
  rfl
end

/-! #### The strings of a TXT record -/

theorem eqDnsName_self (name : Text) : eqDnsName name name = true := decide_eq_true rfl

theorem readTxt_stop (packet : Packet) (stop : Nat) : readTxt packet stop stop found =
    some found := by
  rw [readTxt, dif_neg (Nat.lt_irrefl _)]

theorem readTxt_entry (before rest : List UInt8) {key value : Text} (stop : Nat)
    {found found' : Found} (hlen : (Utf8.encode (key ++ value)).length < 256)
    (hstop : (before ++ entryBytes key value).length ≤ stop)
    (hread : readTxtEntry (key ++ value) found = some found') :
    readTxt (before ++ (entryBytes key value ++ rest)) before.length stop found =
      readTxt (before ++ (entryBytes key value ++ rest))
        (before ++ entryBytes key value).length stop found' := by
  have hbyte : (UInt8.ofNat (Utf8.encode (key ++ value)).length).toNat =
      (Utf8.encode (key ++ value)).length :=
    UInt8.toNat_ofNat_of_lt' hlen
  have hget : (before ++ (entryBytes key value ++ rest))[before.length]? =
      some (UInt8.ofNat (Utf8.encode (key ++ value)).length) := by
    rw [List.getElem?_append_right (Nat.le_refl _), Nat.sub_self]
    rfl
  have hend : before.length + 1 + (Utf8.encode (key ++ value)).length =
      (before ++ entryBytes key value).length := by
    simp only [entryBytes, List.length_append, List.length_cons]
    omega
  have hslice := slice_at (before ++ [UInt8.ofNat (Utf8.encode (key ++ value)).length])
    (Utf8.encode (key ++ value)) rest
  rw [List.length_append, List.length_singleton, List.append_assoc, hend] at hslice
  rw [readTxt, dif_pos
    (by simp only [List.length_append, entryBytes, List.length_cons] at hstop; omega), hget]
  simp only [hbyte, hend, if_neg (Nat.not_lt.mpr hstop)]
  have hpacket : before ++ (entryBytes key value ++ rest) =
      before ++ ([UInt8.ofNat (Utf8.encode (key ++ value)).length] ++
        (Utf8.encode (key ++ value) ++ rest)) := rfl
  rw [hpacket, hslice]
  simp only [Utf8.decode?_encode, Option.bind_some, hread]

theorem readTxtEntry_deviceId {value : Text}
    (hfits : (Utf8.encode value).length ≤ maxMdnsDeviceIdLen) :
    readTxtEntry ("device_id=".toList ++ value) found =
      some { found with deviceId := some ⟨value, hfits⟩ } := by
  have hrest : "device_id=".toList.isPrefixOf? ("device_id=".toList ++ value) = some value :=
    List.isPrefixOf?_eq_some_iff_append_eq.mpr rfl
  rw [readTxtEntry, hrest]
  show (HString.pushStr _ value).map _ = _
  rw [HString.pushStr_eq hfits]
  rfl

theorem readTxtEntry_model {value : Text} (hfits : (Utf8.encode value).length ≤ maxMdnsModelLen) :
    readTxtEntry ("model=".toList ++ value) found =
      some { found with model := some ⟨value, hfits⟩ } := by
  have hnone : "device_id=".toList.isPrefixOf? ("model=".toList ++ value) = none := rfl
  have hrest : "model=".toList.isPrefixOf? ("model=".toList ++ value) = some value :=
    List.isPrefixOf?_eq_some_iff_append_eq.mpr rfl
  rw [readTxtEntry, hnone, hrest]
  show (HString.pushStr _ value).map _ = _
  rw [HString.pushStr_eq hfits]
  rfl

section
variable {deviceId model : Text}

theorem length_txtRdata (hid : (Utf8.encode deviceId).length ≤ maxMdnsDeviceIdLen)
    (hmodel : (Utf8.encode model).length ≤ maxMdnsModelLen) :
    (txtRdata deviceId model).length ≤ 233 := by
  have hidKey : (Utf8.encode ("device_id=".toList ++ deviceId)).length ≤ 33 := length_key hid
  have hmodelKey : (Utf8.encode ("model=".toList ++ model)).length ≤ 198 := length_key hmodel
  simp only [txtRdata, entryBytes, List.length_append, List.length_cons]
  omega

theorem readTxt_rdata {before rest : List UInt8}
    (hid : (Utf8.encode deviceId).length ≤ maxMdnsDeviceIdLen)
    (hmodel : (Utf8.encode model).length ≤ maxMdnsModelLen) :
    readTxt (before ++ (txtRdata deviceId model ++ rest)) before.length
        (before.length + (txtRdata deviceId model).length) found =
      some { found with deviceId := some ⟨deviceId, hid⟩, model := some ⟨model, hmodel⟩ } := by
  have hidKey : (Utf8.encode ("device_id=".toList ++ deviceId)).length ≤ 33 := length_key hid
  have hmodelKey : (Utf8.encode ("model=".toList ++ model)).length ≤ 198 := length_key hmodel
  have hend : (before ++ entryBytes "device_id=".toList deviceId ++ entryBytes "model=".toList
    model).length =
      before.length + (txtRdata deviceId model).length := by
    simp [txtRdata]
  have hfirst := readTxt_entry before (entryBytes "model=".toList model ++ rest)
    (before.length + (txtRdata deviceId model).length) (by omega) (by simp [txtRdata])
    (readTxtEntry_deviceId found hid)
  have hsecond := readTxt_entry (before ++ entryBytes "device_id=".toList deviceId) rest
    (before.length + (txtRdata deviceId model).length) (by omega) (by simp [txtRdata])
    (readTxtEntry_model { found with deviceId := some ⟨deviceId, hid⟩ } hmodel)
  rw [hend, readTxt_stop, List.append_assoc] at hsecond
  rw [txtRdata, List.append_assoc]
  rw [txtRdata] at hfirst hsecond
  exact hfirst.trans hsecond
end

section
variable (ho : Writable owner) (hascii : Ascii owner)
  (hfits : (Utf8.encode (lower owner)).length ≤ maxDnsNameLen)
include ho hascii

theorem readRecord_srv {target : Text} (port : UInt16) (ht : Writable target) (hta : Ascii target)
    (htf : (Utf8.encode (lower target)).length ≤ maxDnsNameLen)
    (hlen : (srvRdata target port).length < 2 ^ 16) :
    readRecord (front ++ (recordBytes owner dnsTypeSrv class_ (srvRdata target port) ++ rest))
      front.length found =
      some (front.length + (recordBytes owner dnsTypeSrv class_ (srvRdata target port)).length,
        { found with
          srvOwner := some ⟨lower owner, hfits⟩
          srvPort := some port
          srvTarget := some ⟨lower target, htf⟩ }) := by
  obtain ⟨next, before, hpacket, hbefore, hstop, hname, htype, hrdlength⟩ :=
    record_fields front rest dnsTypeSrv class_ ho hascii hfits hlen
  have hroom : ¬before.length + (srvRdata target port).length >
      (before ++ (srvRdata target port ++ rest)).length := by
    simp
  have hsix : UInt16.ofNat (srvRdata target port).length ≥ 6 := by
    rw [ge_iff_le, UInt16.le_iff_toNat_le, UInt16.toNat_ofNat_of_lt' hlen]
    simp [srvRdata]
    omega
  have hport :=
    readU16_at (before ++ toBeBytes 2 0 ++ toBeBytes 2 0) (nameBytes target ++ rest) port
  have htarget := readName_ascii
    (before ++ toBeBytes 2 0 ++ toBeBytes 2 0 ++ toBeBytes 2 port.toNat) rest ht hta htf
  simp only [List.append_assoc, List.length_append, length_toBeBytes,
    Nat.add_assoc] at hport htarget
  rw [hpacket, hstop, readRecord, hname]
  simp only [Option.bind_eq_bind, Option.bind_some, htype, hrdlength,
    UInt16.toNat_ofNat_of_lt' hlen, ← hbefore, if_neg hroom]
  rw [if_neg fun hptr => absurd hptr.1 (by decide), if_pos ⟨trivial, hsix⟩]
  simp only [srvRdata, List.append_assoc, hport, htarget, Option.bind_some]
  rfl

theorem readRecord_a (ip : Bytes 4) :
    readRecord (front ++ (recordBytes owner dnsTypeA class_ ip.toList ++ rest)) front.length found =
      some (front.length + (recordBytes owner dnsTypeA class_ ip.toList).length,
        { found with addresses := if found.addresses.length < 8 then found.addresses ++
          [(⟨lower owner, hfits⟩, ip)]
          else found.addresses }) := by
  have hlen : ip.toList.length < 2 ^ 16 := by rw [Vector.length_toList]; decide
  obtain ⟨next, before, hpacket, hbefore, hstop, hname, htype, hrdlength⟩ :=
    record_fields front rest dnsTypeA class_ ho hascii hfits hlen
  have hroom : ¬before.length + ip.toList.length > (before ++ (ip.toList ++ rest)).length := by
    simp
  have hip : Bytes.ofList 4 ((before ++ (ip.toList ++ rest)).drop before.length) = ip := by
    have htake : (ip.toList ++ rest).take 4 = ip.toList := List.take_left' ip.length_toList
    ext i hi
    simp [Bytes.ofList, List.rightpad, htake]
  rw [hpacket, hstop, readRecord, hname]
  simp only [Option.bind_eq_bind, Option.bind_some, htype, hrdlength,
    UInt16.toNat_ofNat_of_lt' hlen, ← hbefore, if_neg hroom]
  rw [if_neg fun hptr => absurd hptr.1 (by decide), if_neg fun hsrv => absurd hsrv.1 (by decide),
    if_neg (by decide), if_pos ⟨trivial, by rw [Vector.length_toList]; rfl⟩, hip]
  rfl

theorem readRecord_txt {deviceId model : Text}
    (hid : (Utf8.encode deviceId).length ≤ maxMdnsDeviceIdLen)
    (hmodel : (Utf8.encode model).length ≤ maxMdnsModelLen) :
    readRecord (front ++ (recordBytes owner dnsTypeTxt class_ (txtRdata deviceId model) ++ rest))
      front.length
        found =
      some (front.length + (recordBytes owner dnsTypeTxt class_ (txtRdata deviceId model)).length,
        { found with
          txtOwner := some ⟨lower owner, hfits⟩
          deviceId := some ⟨deviceId, hid⟩
          model := some ⟨model, hmodel⟩ }) := by
  have hlen : (txtRdata deviceId model).length < 2 ^ 16 :=
    Nat.lt_of_le_of_lt (length_txtRdata hid hmodel) (by decide)
  obtain ⟨next, before, hpacket, hbefore, hstop, hname, htype, hrdlength⟩ :=
    record_fields front rest dnsTypeTxt class_ ho hascii hfits hlen
  have hroom : ¬before.length + (txtRdata deviceId model).length >
      (before ++ (txtRdata deviceId model ++ rest)).length := by
    simp
  rw [hpacket, hstop, readRecord, hname]
  simp only [Option.bind_eq_bind, Option.bind_some, htype, hrdlength,
    UInt16.toNat_ofNat_of_lt' hlen, ← hbefore, if_neg hroom]
  rw [if_neg fun hptr => absurd hptr.1 (by decide), if_neg fun hsrv => absurd hsrv.1 (by decide),
    if_pos trivial, readTxt_rdata _ hid hmodel]
  rfl
end

end

end Microtun.Mdns
