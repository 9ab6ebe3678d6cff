import Microtun.Api
import Microtun.Net.Display

/-! Peer records on the wire: which records fit it, and that they come back from it. -/

namespace Microtun.Api

/-- The text forms are those of the standard library and of the `cidr` crate. -/
structure Texts.Standard (T : Texts) : Prop where
  showSocketAddr : ∀ endpoint, T.showSocketAddr endpoint = .ofList (Display.socketAddr endpoint)
  showIpCidr : ∀ cidr, T.showIpCidr cidr = .ofList (Display.ipCidr cidr)

/-- The address, the scope and the port of an endpoint leave room for its brackets and separators.
-/
def Renderable : SocketAddr → Prop
  | .v4 .. => True
  | .v6 address port _ scopeId => scopeId = 0 ∨
      (Display.ipv6 address).length + (Display.decimal scopeId.toNat).length +
        (Display.decimal port.toNat).length + 4 ≤ maxEndpointTextLen

instance : DecidablePred Renderable
  | .v4 .. => inferInstanceAs (Decidable True)
  | .v6 .. => inferInstanceAs (Decidable (_ ∨ _))

variable {T : Texts}

theorem Text.write_eq {n : Nat} {s : String} (h : s.utf8ByteSize ≤ n) :
    (Text.write s : Except Error (Text n)) = .ok ⟨s, h⟩ := dif_pos h

theorem Text.write_error {n : Nat} {s : String} (h : ¬ s.utf8ByteSize ≤ n) :
    (Text.write s : Except Error (Text n)) = .error .bufferTooSmall := dif_neg h

theorem utf8ByteSize_showIpCidr (hT : T.Standard) (cidr : IpCidr) :
    (T.showIpCidr cidr).utf8ByteSize ≤ maxCidrTextLen := by
  rw [hT.showIpCidr, utf8ByteSize_ofList (Display.utf8Size_ipCidr cidr)]
  cases cidr with
  | v4 cidr =>
    have := Display.length_ipv4_le cidr.firstAddress
    have := Display.length_decimal_le (n := cidr.networkLength) (k := 3) (by decide)
      (Nat.lt_of_le_of_lt cidr.length_le (by decide))
    simp only [Display.ipCidr, List.length_append, List.length_cons, maxCidrTextLen,
      maxAddressTextLen]
    omega
  | v6 cidr =>
    have := Display.length_ipv6_le cidr.firstAddress
    have := Display.length_decimal_le (n := cidr.networkLength) (k := 3) (by decide)
      (Nat.lt_of_le_of_lt cidr.length_le (by decide))
    simp only [Display.ipCidr, List.length_append, List.length_cons, maxCidrTextLen,
      maxAddressTextLen]
    omega

theorem utf8ByteSize_showSocketAddr (hT : T.Standard) (endpoint : SocketAddr) :
    (T.showSocketAddr endpoint).utf8ByteSize ≤ maxEndpointTextLen ↔ Renderable endpoint := by
  rw [hT.showSocketAddr, utf8ByteSize_ofList (Display.utf8Size_socketAddr endpoint)]
  have hport : ∀ port : BitVec 16, (Display.decimal port.toNat).length ≤ 5 := fun port =>
    Display.length_decimal_le (by decide) (Nat.lt_trans port.isLt (by decide))
  cases endpoint with
  | v4 address port =>
    have := Display.length_ipv4_le address
    have := hport port
    refine iff_of_true ?_ trivial
    simp only [Display.socketAddr, List.length_append, List.length_cons, maxEndpointTextLen,
      maxAddressTextLen]
    omega
  | v6 address port flowinfo scopeId =>
    have := Display.length_ipv6_le address
    have := hport port
    by_cases hscope : scopeId = 0
    · refine iff_of_true ?_ (.inl hscope)
      simp only [Display.socketAddr, if_pos hscope, List.length_append, List.length_cons,
        List.length_nil, maxEndpointTextLen, maxAddressTextLen]
      omega
    · simp only [Renderable, hscope, false_or, Display.socketAddr, if_false, List.length_append,
        List.length_cons, maxEndpointTextLen, maxAddressTextLen]
      omega

theorem write_key (key : Key) : (Text.write (encodeKey key) : Except Error (Text keyTextLen)) =
    .ok ⟨encodeKey key, Nat.le_of_eq (utf8ByteSize_encodeKey key)⟩ := Text.write_eq _

theorem keyFromWire_encodeKey (key : Key) : keyFromWire (encodeKey key) = .ok key := by
  rw [keyFromWire, decodeKey_encodeKey]

theorem fromFields_ok (hT : T.Standard) (publicKey : Key) (endpoint : Option SocketAddr)
    (relay : Option Key) (address : IpCidr) (persistentKeepalive : Option UInt16)
    (h : ∀ e, endpoint = some e → Renderable e) :
    ∃ info, PeerInfo.fromFields T publicKey endpoint relay address persistentKeepalive = .ok info ∧
      info.publicKey.val = encodeKey publicKey ∧
      info.endpoint.map (·.val) = endpoint.map T.showSocketAddr ∧
      info.relay.map (·.val) = relay.map encodeKey ∧ info.address.val = T.showIpCidr address ∧
      info.persistentKeepalive = persistentKeepalive := by
  unfold PeerInfo.fromFields
  rw [Text.write_eq (utf8ByteSize_showIpCidr hT address), write_key]
  cases endpoint with
  | none =>
    cases relay with
    | none => exact ⟨_, rfl, rfl, rfl, rfl, rfl, rfl⟩
    | some relay =>
      simp only [write_key]
      exact ⟨_, rfl, rfl, rfl, rfl, rfl, rfl⟩
  | some endpoint =>
    simp only [Text.write_eq ((utf8ByteSize_showSocketAddr hT endpoint).mpr (h endpoint rfl))]
    cases relay with
    | none => exact ⟨_, rfl, rfl, rfl, rfl, rfl, rfl⟩
    | some relay =>
      simp only [write_key]
      exact ⟨_, rfl, rfl, rfl, rfl, rfl, rfl⟩

theorem fromFields_error (hT : T.Standard) (publicKey : Key) (endpoint : SocketAddr)
    (relay : Option Key) (address : IpCidr) (persistentKeepalive : Option UInt16)
    (h : ¬ Renderable endpoint) :
    PeerInfo.fromFields T publicKey (some endpoint) relay address persistentKeepalive =
      .error .bufferTooSmall := by
  unfold PeerInfo.fromFields
  rw [Text.write_eq (utf8ByteSize_showIpCidr hT address), write_key]
  simp only [Text.write_error ((utf8ByteSize_showSocketAddr hT endpoint).not.mpr h)]
  rfl

/-- What is written for fields whose texts parse back is decoded to the fields. -/
theorem decodePeer_eq {info : PeerInfo} {publicKey : Key} {endpoint : Option SocketAddr}
    {relay : Option Key} {address : IpCidr} (hkey : info.publicKey.val = encodeKey publicKey)
    (hendpoint : info.endpoint.map (·.val) = endpoint.map T.showSocketAddr)
    (hrelay : info.relay.map (·.val) = relay.map encodeKey)
    (haddress : info.address.val = T.showIpCidr address)
    (hparse : ∀ e, endpoint = some e → T.parseSocketAddr (T.showSocketAddr e) = some e)
    (hparseCidr : T.parseIpCidr (T.showIpCidr address) = some address) :
    decodePeer T info = .ok {
      publicKey, endpoint := endpoint.map Ip.unmapSocketAddr, relay, address
      inboundPolicy := .allowAll
      persistentKeepalive :=
        (info.persistentKeepalive.filter (· ≠ 0)).map fun seconds => seconds.toNat * 1000 } := by
  obtain ⟨keyText, endpointText, relayText, addressText, seconds⟩ := info
  simp only at hkey hendpoint hrelay haddress
  cases relay with
  | none =>
    obtain rfl := Option.map_eq_none_iff.mp hrelay
    cases endpoint with
    | none =>
      obtain rfl := Option.map_eq_none_iff.mp hendpoint
      simp only [decodePeer, hkey, keyFromWire_encodeKey, haddress, hparseCidr]
      rfl
    | some e =>
      obtain ⟨text, rfl, htext⟩ := Option.map_eq_some_iff.mp hendpoint
      simp only [decodePeer, hkey, keyFromWire_encodeKey, haddress, hparseCidr, htext, hparse e rfl]
      rfl
  | some key =>
    obtain ⟨keyText, rfl, hrelayText⟩ := Option.map_eq_some_iff.mp hrelay
    cases endpoint with
    | none =>
      obtain rfl := Option.map_eq_none_iff.mp hendpoint
      simp only [decodePeer, hkey, keyFromWire_encodeKey, haddress, hparseCidr, hrelayText]
      rfl
    | some e =>
      obtain ⟨text, rfl, htext⟩ := Option.map_eq_some_iff.mp hendpoint
      simp only [decodePeer, hkey, keyFromWire_encodeKey, haddress, hparseCidr, hrelayText, htext,
        hparse e rfl]
      rfl

/-- A record whose endpoint has no flow information is written and comes back, with its endpoint
un-mapped and a keepalive of 0 as none, exactly if the endpoint is renderable. -/
theorem record_roundtrip (T : Texts) (hT : T.Standard) (publicKey : Key)
    (endpoint : Option SocketAddr) (relay : Option Key) (address : IpCidr)
    (persistentKeepalive : Option UInt16)
    (hflow : ∀ e, endpoint = some e → e.flowinfo = 0)
    (hparse : ∀ e, endpoint = some e → e.flowinfo = 0 → T.parseSocketAddr (T.showSocketAddr e) =
      some e)
    (hparseCidr : T.parseIpCidr (T.showIpCidr address) = some address) :
    (∃ info, PeerInfo.fromFields T publicKey endpoint relay address persistentKeepalive = .ok info ∧
      decodePeer T info = .ok {
        publicKey, endpoint := endpoint.map Ip.unmapSocketAddr, relay, address
        inboundPolicy := .allowAll
        persistentKeepalive :=
          (persistentKeepalive.filter (· ≠ 0)).map fun seconds => seconds.toNat * 1000 }) ↔
    ∀ e, endpoint = some e → Renderable e := by
  constructor
  · rintro ⟨info, hinfo, -⟩ e rfl
    by_contra hlong
    rw [fromFields_error hT publicKey e relay address persistentKeepalive hlong] at hinfo
    exact nomatch hinfo
  · intro h
    obtain ⟨info, hinfo, hkey, hendpoint, hrelay, haddress, rfl⟩ :=
      fromFields_ok hT publicKey endpoint relay address persistentKeepalive h
    exact ⟨info, hinfo, decodePeer_eq hkey hendpoint hrelay haddress
      (fun e he => hparse e he (hflow e he))
      hparseCidr⟩

namespace Sample

def hostCidr : IpCidr := .host (.v4 0x0a000001#32)

/-- A link-local address in full. -/
def linkLocal : BitVec 128 := 0xfe80111122223333444455556666ffff#128

/-- The parsers know the text of one endpoint and of one prefix. -/
def texts (endpoint : SocketAddr) : Texts where
  parseIpAddr _ := none
  parseSocketAddr text :=
    if text = .ofList (Display.socketAddr endpoint) then some endpoint else none
  parseIpCidr text := if text = .ofList (Display.ipCidr hostCidr) then some hostCidr else none
  showIpAddr _ := ""
  showSocketAddr endpoint := .ofList (Display.socketAddr endpoint)
  showIpCidr cidr := .ofList (Display.ipCidr cidr)

theorem standard_texts (endpoint : SocketAddr) : (texts endpoint).Standard :=
    ⟨fun _ => rfl, fun _ => rfl⟩

theorem parse_endpoint (endpoint : SocketAddr) :
    (texts endpoint).parseSocketAddr ((texts endpoint).showSocketAddr endpoint) = some endpoint :=
      if_pos rfl

theorem parse_cidr (endpoint : SocketAddr) :
    (texts endpoint).parseIpCidr ((texts endpoint).showIpCidr hostCidr) = some hostCidr := by
  simp only [texts, if_true]

end Sample

open Sample

/-- The endpoint of a link-local peer on the third interface, whose address is short. -/
theorem record_roundtrip_scoped :
    ∃ info, PeerInfo.fromFields (texts (.v6 0xfe80000000000000000000000000000a#128 51820 0 3))
      (Vector.replicate 32 7) (some (.v6 0xfe80000000000000000000000000000a#128 51820 0 3))
        none hostCidr (some 0) = .ok info := by
  obtain ⟨info, hinfo, -⟩ := (record_roundtrip _ (standard_texts _) (Vector.replicate 32 7)
    (some (.v6 0xfe80000000000000000000000000000a#128 51820 0 3)) none hostCidr (some 0)
    (by rintro _ ⟨⟩; rfl) (by rintro _ ⟨⟩ -; exact parse_endpoint _) (parse_cidr _)).mpr
    (by rintro _ ⟨⟩; decide)
  exact ⟨info, hinfo⟩

/-- A full address with a long scope does not fit. -/
theorem record_unrenderable :
    ¬ ∀ (T : Texts), T.Standard → ∀ (publicKey : Key) (endpoint : SocketAddr) (relay : Option Key)
      (address : IpCidr) (persistentKeepalive : Option UInt16), endpoint.flowinfo = 0 →
      T.parseSocketAddr (T.showSocketAddr endpoint) = some endpoint →
      T.parseIpCidr (T.showIpCidr address) = some address →
      ∃ info, PeerInfo.fromFields T publicKey (some endpoint) relay address persistentKeepalive =
        .ok info := by
  intro h
  obtain ⟨info, hinfo⟩ := h (texts (.v6 linkLocal 51820 0 4294967295)) (standard_texts _)
    (Vector.replicate 32 7) (.v6 linkLocal 51820 0 4294967295) none hostCidr none rfl
      (parse_endpoint _)
    (parse_cidr _)
  rw [fromFields_error (standard_texts _) _ _ _ _ _ (by decide)] at hinfo
  exact nomatch hinfo

end Microtun.Api
