import Microtun.Api.Records
import Microtun.Tracker.Resolver
import Microtun.Tracker.Rpc

/-! The two ways to resolve a query at the Tracker: its own tunnel asks the published registry, and
a client asks over the Peers API. -/

namespace Microtun.Tracker

open Api

/-- The lookup that a call asks for. -/
def lookupOf : QueryParams → Lookup
  | .byKey publicKey => .key publicKey
  | .byAddress address => .address address

/-- What a client makes of an answer; an error is a failure. -/
def outcomeOf (T : Texts) : Answer → ResolveOutcome
  | .record info => classifyResult T (.found info)
  | .miss => classifyResult T .notFound
  | .notAdmitted | .badArgument => .failed

/-- The outcome of a query for a client. -/
def AppState.resolveRemote (T : Texts) (s : AppState) (caller : Key) (query : ResolveQuery) :
    Except Panic ResolveOutcome :=
  match encodeQuery T query with
  | .error _ => .ok .failed
  | .ok call => do
    let (answer, _) ← s.lookup T caller (lookupOf call.params)
    return outcomeOf T answer

/-- The outcome of a client is that of the Tracker with its endpoint un-mapped. A relay that is the
Tracker is cleared there. -/
def Agrees (localPublicKey : Key) : ResolveOutcome → ResolveOutcome → Prop
  | .found here, .found there =>
    here.publicKey = there.publicKey ∧ there.endpoint = here.endpoint.map Ip.unmapSocketAddr ∧
      here.relay = (if there.relay = some localPublicKey then none else there.relay) ∧
      here.address = there.address ∧ here.persistentKeepalive = there.persistentKeepalive
  | .notFound, .notFound => True
  | .failed, .failed => True
  | _, _ => False

namespace PublishedRegistry

variable (p : PublishedRegistry)

/-- The record that answers a query. -/
def Answers (record : PeerRecord) : ResolveQuery → Prop
  | .byPublicKey key => record ∈ p.registry.val.peers ∧ record.publicKey = key
  | .byDstAddress address => record ∈ p.registry.val.peers ∧ record.address.contains address =
    true ∧
    ∀ record' ∈ p.registry.val.peers, record'.address.contains address = true →
      record'.address.networkLength ≤ record.address.networkLength

/-- The record crosses the wire: its endpoint has a text of the length there is and no flow
information, and its keepalive is not the spelled out 0. -/
def Portable (record : PeerRecord) : Prop :=
  (∀ e, p.effectiveEndpoint record = some e → Renderable e ∧ (Ip.unmapSocketAddr e).flowinfo = 0) ∧
    record.persistentKeepalive ≠ some 0

/-- An address that un-mapping changes is in no prefix, mapped or not. -/
def Unmixed : ResolveQuery → Prop
  | .byPublicKey _ => True
  | .byDstAddress address => Ip.unmapIp address = address ∨ ∀ record ∈ p.registry.val.peers,
    record.address.contains address = false ∧ record.address.contains (Ip.unmapIp address) = false

end PublishedRegistry

/-! ### One record -/

variable {T : Texts} {s : AppState} {localPublicKey : Key}

/-- The texts of the records parse back, without the flow information of endpoints. -/
def Parses (T : Texts) (p : PublishedRegistry) : Prop :=
  ∀ record ∈ p.registry.val.peers, T.parseIpCidr (T.showIpCidr record.address) =
    some record.address ∧
    ∀ e, p.effectiveEndpoint record = some e → T.parseSocketAddr (T.showSocketAddr e) =
      some e.withoutFlowinfo

theorem withoutFlowinfo_unmap (e : SocketAddr) :
    Ip.unmapSocketAddr e.withoutFlowinfo = Ip.unmapSocketAddr e ↔
      (Ip.unmapSocketAddr e).flowinfo = 0 := by
  cases e with
  | v4 address port => exact iff_of_true rfl rfl
  | v6 address port flowinfo scopeId =>
    by_cases hmapped : address >>> 32 = 0xffff
    · have hunmap (flow : BitVec 32) :
          Ip.unmapSocketAddr (.v6 address port flow scopeId) = .v4 (address.setWidth 32) port := by
        simp only [Ip.unmapSocketAddr, SocketAddr.ip, Ip.unmapIp, if_pos hmapped]
        rfl
      rw [SocketAddr.withoutFlowinfo, hunmap, hunmap]
      exact iff_of_true rfl rfl
    · have hunmap (flow : BitVec 32) :
          Ip.unmapSocketAddr (.v6 address port flow scopeId) = .v6 address port flow scopeId := by
        simp only [Ip.unmapSocketAddr, SocketAddr.ip, Ip.unmapIp, if_neg hmapped]
      rw [SocketAddr.withoutFlowinfo, hunmap, hunmap, SocketAddr.v6.injEq]
      exact ⟨fun h => h.2.2.1.symm, fun h => ⟨rfl, rfl, h.symm, rfl⟩⟩

/-- A record that can be rendered reaches the client, and another one stops the server. -/
theorem answer_record (hT : T.Standard) {record : PeerRecord}
    (hcidr : T.parseIpCidr (T.showIpCidr record.address) = some record.address)
    (hendpoint : ∀ e, s.published.effectiveEndpoint record = some e →
      T.parseSocketAddr (T.showSocketAddr e) = some e.withoutFlowinfo) :
    ((∀ e, s.published.effectiveEndpoint record = some e → Renderable e) ∧
      ∃ answer, s.answer T (some record) = .ok answer ∧ outcomeOf T answer = .found {
        publicKey := record.publicKey
        endpoint := (s.published.effectiveEndpoint record).map fun e =>
          Ip.unmapSocketAddr e.withoutFlowinfo
        relay := record.relay
        address := record.address
        inboundPolicy := .allowAll
        persistentKeepalive :=
          (record.persistentKeepalive.filter (· ≠ 0)).map fun seconds => seconds.toNat * 1000 }) ∨
    ((∃ e, s.published.effectiveEndpoint record = some e ∧ ¬Renderable e) ∧
      ∃ panic, s.answer T (some record) = .error panic) := by
  by_cases hrender : ∀ e, s.published.effectiveEndpoint record = some e → Renderable e
  · left
    obtain ⟨info, hinfo, hkey, hend, hrelay, haddress, hkeep⟩ := fromFields_ok hT record.publicKey
      (s.published.effectiveEndpoint record) record.relay record.address record.persistentKeepalive
        hrender
    have hshow (e : SocketAddr) : T.showSocketAddr e.withoutFlowinfo = T.showSocketAddr e := by
      rw [hT.showSocketAddr, hT.showSocketAddr]
      cases e <;> rfl
    have hend' : info.endpoint.map (·.val) =
        ((s.published.effectiveEndpoint record).map SocketAddr.withoutFlowinfo).map
          T.showSocketAddr := by
      rw [hend, Option.map_map]
      exact congrArg (fun f => Option.map f _) (funext fun e => (hshow e).symm)
    have hdecode := decodePeer_eq hkey hend' hrelay haddress (fun e he => by
      obtain ⟨e, hsome, rfl⟩ := Option.map_eq_some_iff.mp he
      rw [hshow]
      exact hendpoint e hsome) hcidr
    refine ⟨hrender, .record info, ?_, ?_⟩
    · rw [AppState.answer, PublishedRegistry.info, hinfo]
    · rw [outcomeOf, classifyResult, hdecode, hkeep, Option.map_map]
      rfl
  · right
    simp only [not_forall] at hrender
    obtain ⟨e, hsome, hlong⟩ := hrender
    refine ⟨⟨e, hsome, hlong⟩, .expect "validated Tracker records fit the bounded API type", ?_⟩
    rw [AppState.answer, PublishedRegistry.info, hsome, fromFields_error hT _ _ _ _ _ hlong]

theorem agrees_record (hT : T.Standard) {record : PeerRecord}
    (hcidr : T.parseIpCidr (T.showIpCidr record.address) = some record.address)
    (hendpoint : ∀ e, s.published.effectiveEndpoint record = some e →
      T.parseSocketAddr (T.showSocketAddr e) = some e.withoutFlowinfo) :
    (∃ answer, s.answer T (some record) = .ok answer ∧
      Agrees localPublicKey (s.published.resolved localPublicKey (some record))
        (outcomeOf T answer)) ↔ s.published.Portable record := by
  have hlocal : s.published.resolved localPublicKey (some record) = .found {
      publicKey := record.publicKey
      endpoint := s.published.effectiveEndpoint record
      relay := if record.relay = some localPublicKey then none else record.relay
      address := record.address
      inboundPolicy := .allowAll
      persistentKeepalive :=
        record.persistentKeepalive.map fun seconds => seconds.toNat * 1000 } := by
    by_cases hrelay : record.relay = some localPublicKey
    · simp [PublishedRegistry.resolved, resolveRecord, PeerRecord.resolvedWithEndpoint, hrelay]
    · simp [PublishedRegistry.resolved, resolveRecord, PeerRecord.resolvedWithEndpoint, hrelay]
  have hkeep : (record.persistentKeepalive.map fun seconds => seconds.toNat * 1000) =
      ((record.persistentKeepalive.filter (· ≠ 0)).map fun seconds => seconds.toNat * 1000) ↔
      record.persistentKeepalive ≠ some 0 := by
    cases record.persistentKeepalive with
    | none => exact iff_of_true rfl (by simp)
    | some seconds =>
      by_cases hzero : seconds = 0
      · subst hzero
        exact iff_of_false (by simp) fun h => h rfl
      · simp [hzero]
  rcases answer_record (s := s) hT hcidr hendpoint with ⟨hrender, answer, hanswer, hout⟩ | ⟨hlong,
    panic, hpanic⟩
  · have hiff : (∃ a, s.answer T (some record) = .ok a ∧ Agrees localPublicKey
        (s.published.resolved localPublicKey (some record)) (outcomeOf T a)) ↔
        Agrees localPublicKey (s.published.resolved localPublicKey (some record))
          (outcomeOf T answer) := by
      rw [hanswer]
      constructor
      · rintro ⟨a, ha, h⟩
        exact Except.ok.inj ha ▸ h
      · exact fun h => ⟨answer, rfl, h⟩
    rw [hiff, hlocal, hout]
    constructor
    · rintro ⟨-, hend, -, -, hseconds⟩
      refine ⟨fun e he => ⟨hrender e he, ?_⟩, hkeep.mp hseconds⟩
      rw [he] at hend
      exact (withoutFlowinfo_unmap e).mp (Option.some.inj hend)
    · rintro ⟨hportable, hseconds⟩
      refine ⟨rfl, ?_, rfl, rfl, hkeep.mpr hseconds⟩
      cases he : s.published.effectiveEndpoint record with
      | none => rfl
      | some e => exact congrArg some ((withoutFlowinfo_unmap e).mpr (hportable e he).2)
  · rw [hpanic]
    refine iff_of_false ?_ fun hportable => ?_
    · rintro ⟨_, h, -⟩
      cases h
    · obtain ⟨e, he, hlong⟩ := hlong
      exact hlong (hportable.1 e he).1

/-! ### A query -/

/-- The outcomes of the two paths agree. -/
def PathsAgree (T : Texts) (s : AppState) (caller localPublicKey : Key) (query : ResolveQuery) :
    Prop :=
  ∃ here there, s.published.resolveShared localPublicKey query = .ok here ∧
    s.resolveRemote T caller query = .ok there ∧ Agrees localPublicKey here there

theorem admits_configured {caller : Key} (hcaller : s.published.Configured (.key caller)) :
    ∃ record, s.admits s.published.registry caller = (true, s.note record) := by
  rcases AppState.admits_spec (s := s) caller with ⟨-, hno⟩ | ⟨record, hadmits, -⟩
  · exact absurd hcaller hno
  · exact ⟨record, hadmits⟩

theorem resolveRemote_key {caller : Key} (hcaller : s.published.Configured (.key caller))
    (key : Key) : s.resolveRemote T caller (.byPublicKey key) =
      (s.answer T (s.published.lookupKey key)).map (outcomeOf T) := by
  obtain ⟨record, hadmits⟩ := admits_configured hcaller
  have hfits : (encodeKey key).utf8ByteSize ≤ queryTextLen := by
    rw [utf8ByteSize_encodeKey]
    decide
  have hquery : encodeQuery T (.byPublicKey key) = .ok ⟨methodByKey, .byKey (encodeKey key)⟩ := by
    rw [encodeQuery, Text.write_eq hfits]
    rfl
  have hanswer : (s.note record).answer T = s.answer T := rfl
  rw [AppState.resolveRemote, hquery]
  simp only [lookupOf, AppState.lookup, hadmits, decodeKey_encodeKey]
  show ((s.note record).answer T (s.published.lookupKey key) >>= _) >>= _ = _
  rw [hanswer]
  cases s.answer T (s.published.lookupKey key) <;> rfl

theorem length_ipAddr (address : IpAddr) : (Display.ipAddr address).length ≤ queryTextLen := by
  cases address with
  | v4 a => exact Nat.le_trans (Display.length_ipv4_le a) (by decide)
  | v6 a => exact Nat.le_trans (Display.length_ipv6_le a) (by decide)

theorem utf8Size_ipAddr (address : IpAddr) : ∀ c ∈ Display.ipAddr address, c.utf8Size = 1 := by
  cases address with
  | v4 a => exact Display.utf8Size_ipv4 a
  | v6 a => exact Display.utf8Size_ipv6 a

theorem resolveRemote_address {caller : Key} (hcaller : s.published.Configured (.key caller))
    {address : IpAddr} (hshow : T.showIpAddr address = .ofList (Display.ipAddr address))
    (hparse : T.parseIpAddr (T.showIpAddr address) = some address) {found : Option PeerRecord}
    (hfound : s.published.lookupAddress (Ip.unmapIp address) = .ok found) :
    s.resolveRemote T caller (.byDstAddress address) = (s.answer T found).map (outcomeOf T) := by
  obtain ⟨record, hadmits⟩ := admits_configured hcaller
  have hfits : (T.showIpAddr address).utf8ByteSize ≤ queryTextLen := by
    rw [hshow, utf8ByteSize_ofList (utf8Size_ipAddr address)]
    exact length_ipAddr address
  have hquery : encodeQuery T (.byDstAddress address) =
      .ok ⟨methodByAddress, .byAddress (T.showIpAddr address)⟩ := by
    rw [encodeQuery, Text.write_eq hfits]
    rfl
  have hanswer : (s.note record).answer T = s.answer T := rfl
  have hlookup : (s.note record).published.lookupAddress (Ip.unmapIp address) = .ok found := hfound
  rw [AppState.resolveRemote, hquery]
  simp only [lookupOf, AppState.lookup, hadmits, hparse, hlookup]
  show ((s.note record).answer T found >>= _) >>= _ = _
  rw [hanswer]
  cases s.answer T found <;> rfl

theorem pathsAgree_same (hT : T.Standard) (hparses : Parses T s.published) {caller : Key}
    {query : ResolveQuery} {found : Option PeerRecord} (hmem : ∀ record, found = some record →
    record ∈ s.published.registry.val.peers)
    (hhere : s.published.resolveShared localPublicKey query =
      .ok (s.published.resolved localPublicKey found))
    (hthere : s.resolveRemote T caller query = (s.answer T found).map (outcomeOf T)) :
    PathsAgree T s caller localPublicKey query ↔ ∀ record, found = some record →
      s.published.Portable record := by
  have hiff : PathsAgree T s caller localPublicKey query ↔ ∃ answer, s.answer T found = .ok answer ∧
      Agrees localPublicKey (s.published.resolved localPublicKey found) (outcomeOf T answer) := by
    rw [PathsAgree, hhere, hthere]
    constructor
    · rintro ⟨here, there, hh, ht, hagree⟩
      cases hanswer : s.answer T found with
      | error panic =>
        rw [hanswer] at ht
        cases ht
      | ok answer =>
        rw [hanswer] at ht
        cases hh
        cases ht
        exact ⟨answer, rfl, hagree⟩
    · rintro ⟨answer, hanswer, hagree⟩
      exact ⟨_, _, rfl, by rw [hanswer]; rfl, hagree⟩
  rw [hiff]
  cases found with
  | none => exact iff_of_true ⟨.miss, rfl, trivial⟩ nofun
  | some record =>
    obtain ⟨hcidr, hendpoint⟩ := hparses record (hmem record rfl)
    rw [agrees_record hT hcidr hendpoint]
    exact ⟨fun h _ heq => Option.some.inj heq ▸ h, fun h => h record rfl⟩

/-- An address that un-mapping changes is looked up in one family here and in the other there. -/
theorem pathsAgree_mixed (hT : T.Standard) (hparses : Parses T s.published) {caller : Key}
    {address : IpAddr} (hmixed : Ip.unmapIp address ≠ address) {here there : Option PeerRecord}
    (hhere : s.published.lookupAddress address = .ok here)
    (hthere : s.published.lookupAddress (Ip.unmapIp address) = .ok there)
    (hremote : s.resolveRemote T caller (.byDstAddress address) =
      (s.answer T there).map (outcomeOf T)) :
    PathsAgree T s caller localPublicKey (.byDstAddress address) ↔ here = none ∧ there = none := by
  have hlocal : s.published.resolveShared localPublicKey (.byDstAddress address) =
      .ok (s.published.resolved localPublicKey here) := by
    rw [PublishedRegistry.resolveShared, hhere]
    rfl
  rw [PathsAgree, hlocal, hremote]
  constructor
  · rintro ⟨_, outcome, ⟨⟩, hout, hagree⟩
    cases there with
    | none =>
      cases hout
      cases here with
      | none => exact ⟨rfl, rfl⟩
      | some record => exact hagree.elim
    | some record =>
      exfalso
      have hrecord := (Built.lookupAddress_iff s.published.registry (Ip.unmapIp address) record).mp
        hthere
      obtain ⟨hmem, hcontains, -⟩ := hrecord
      obtain ⟨hcidr, hendpoint⟩ := hparses record hmem
      rcases answer_record (s := s) hT hcidr hendpoint with ⟨-, answer, hanswer, hfound⟩ | ⟨-,
        panic, hpanic⟩
      · rw [hanswer] at hout
        obtain rfl : outcomeOf T answer = outcome := Except.ok.inj hout
        rw [hfound] at hagree
        cases here with
        | none => exact hagree.elim
        | some record' =>
          obtain ⟨hmem', hcontains', -⟩ :=
            (Built.lookupAddress_iff s.published.registry address record').mp hhere
          have hkey : record'.publicKey = record.publicKey := by
            have hpublic : (s.published.resolved localPublicKey (some record')) = .found
                (resolveRecord record' (s.published.effectiveEndpoint record') localPublicKey) :=
                  rfl
            rw [hpublic] at hagree
            refine Eq.trans ?_ hagree.1
            rw [resolveRecord]
            split <;> rfl
          have hsame : record' = record := Option.some.inj
            (((Registry.lookupKey_iff s.published.registry.sound _ _).mpr ⟨hmem', hkey⟩).symm.trans
              ((Registry.lookupKey_iff s.published.registry.sound _ _).mpr ⟨hmem, rfl⟩))
          subst hsame
          -- no prefix contains addresses of both families
          cases address with
          | v4 a => exact hmixed rfl
          | v6 a =>
            rw [Ip.unmapIp] at hcontains hmixed
            split at hcontains
            · cases haddress : record'.address with
              | v4 c =>
                rw [haddress] at hcontains'
                cases hcontains'
              | v6 c =>
                rw [haddress] at hcontains
                cases hcontains
            · next hno => exact hmixed (if_neg hno)
      · rw [hpanic] at hout
        cases hout
  · rintro ⟨rfl, rfl⟩
    exact ⟨.notFound, .notFound, rfl, rfl, trivial⟩

/-- For a client that is admitted, the two paths agree exactly on the queries by key and by an
address that is not mapped, or that no prefix has in either form, whose record crosses the wire. -/
theorem paths_agree (hT : T.Standard) (hparses : Parses T s.published) {caller : Key}
    (hcaller : s.published.Configured (.key caller)) (query : ResolveQuery)
    (hquery : ∀ address, query = .byDstAddress address → T.showIpAddr address =
      .ofList (Display.ipAddr address) ∧ T.parseIpAddr (T.showIpAddr address) = some address) :
    PathsAgree T s caller localPublicKey query ↔
      s.published.Unmixed query ∧ ∀ record, s.published.Answers record query →
        s.published.Portable record := by
  cases query with
  | byPublicKey key =>
    have hlookup (record : PeerRecord) : s.published.lookupKey key = some record ↔
        s.published.Answers record (.byPublicKey key) :=
          Registry.lookupKey_iff s.published.registry.sound key record
    rw [pathsAgree_same hT hparses (fun record h => ((hlookup record).mp h).1) rfl
      (resolveRemote_key hcaller key)]
    simp only [hlookup, PublishedRegistry.Unmixed, true_and]
  | byDstAddress address =>
    obtain ⟨hshow, hparse⟩ := hquery address rfl
    have hlookup (address : IpAddr) (record : PeerRecord) :
        s.published.lookupAddress address = .ok (some record) ↔
          s.published.Answers record (.byDstAddress address) :=
      Built.lookupAddress_iff s.published.registry address record
    obtain ⟨here, hhere, hnone, hsome⟩ :=
      Registry.lookupAddress_spec s.published.registry.sound address
    obtain ⟨there, hthere, htnone, htsome⟩ :=
      Registry.lookupAddress_spec s.published.registry.sound (Ip.unmapIp address)
    have hremote := resolveRemote_address hcaller hshow hparse hthere
    by_cases hsame : Ip.unmapIp address = address
    · obtain rfl : there = here :=
        Except.ok.inj (hthere.symm.trans ((congrArg _ hsame).trans hhere))
      have hlocal : s.published.resolveShared localPublicKey (.byDstAddress address) =
          .ok (s.published.resolved localPublicKey there) := by
        rw [PublishedRegistry.resolveShared, PublishedRegistry.lookupAddress, hhere]
        rfl
      have hanswers (record : PeerRecord) :
          there = some record ↔ s.published.Answers record (.byDstAddress address) := by
        rw [← hlookup, PublishedRegistry.lookupAddress, hhere]
        exact ⟨fun h => h ▸ rfl, Except.ok.inj⟩
      rw [pathsAgree_same hT hparses (fun record h => (hsome record h).1) hlocal hremote]
      simp only [hanswers, PublishedRegistry.Unmixed, hsame, true_or, true_and]
    · rw [pathsAgree_mixed hT hparses hsame hhere hthere hremote]
      constructor
      · rintro ⟨rfl, rfl⟩
        refine ⟨.inr fun record hmem => ⟨hnone rfl record hmem, htnone rfl record hmem⟩,
          fun record hanswers => ?_⟩
        cases (hnone rfl record hanswers.1).symm.trans hanswers.2.1
      · rintro ⟨hunmixed, -⟩
        have hall := hunmixed.resolve_left hsame
        constructor
        · cases here with
          | none => rfl
          | some record =>
            obtain ⟨hmem, hcontains, -⟩ := hsome record rfl
            cases (hall record hmem).1.symm.trans hcontains
        · cases there with
          | none => rfl
          | some record =>
            obtain ⟨hmem, hcontains, -⟩ := htsome record rfl
            cases (hall record hmem).2.symm.trans hcontains

namespace Paths.Sample

open Local.Sample

def state : AppState := ⟨⟨registry, ∅⟩, .empty, ∅, 0, ∅, 0, 0⟩

/-- The parsers know the text of one address and of one prefix. -/
def texts (address : IpAddr) : Texts where
  parseIpAddr text := if text = .ofList (Display.ipAddr address) then some address else none
  parseSocketAddr _ := none
  parseIpCidr text := if text = .ofList (Display.ipCidr record.address) then some record.address
    else none
  showIpAddr address := .ofList (Display.ipAddr address)
  showSocketAddr endpoint := .ofList (Display.socketAddr endpoint)
  showIpCidr cidr := .ofList (Display.ipCidr cidr)

theorem peers_state : state.published.registry.val.peers = [record] := rfl

theorem parses_texts (address : IpAddr) : Parses (texts address) state.published := by
  intro record' hmem
  rw [peers_state] at hmem
  obtain rfl := List.mem_singleton.mp hmem
  refine ⟨?_, nofun⟩
  simp only [texts, if_true]

theorem parse_address (address : IpAddr) :
    (texts address).parseIpAddr ((texts address).showIpAddr address) = some address := by
  simp only [texts, if_true]

theorem configured_record : state.published.Configured (.key record.publicKey) :=
  ⟨record, List.mem_singleton_self _, rfl⟩

end Paths.Sample

open Paths.Sample Local.Sample

theorem paths_agree_host : PathsAgree (texts (.v4 0x0a000001#32)) state record.publicKey
    (Vector.replicate 32 2) (.byDstAddress (.v4 0x0a000001#32)) := by
  refine (paths_agree ⟨fun _ => rfl, fun _ => rfl⟩ (parses_texts _) configured_record _ ?_).mpr
    ⟨.inl rfl, ?_⟩
  · rintro _ ⟨⟩
    exact ⟨rfl, parse_address _⟩
  · rintro record' ⟨hmem, -⟩
    rw [peers_state] at hmem
    obtain rfl := List.mem_singleton.mp hmem
    exact ⟨nofun, nofun⟩

/-- The mapped spelling of a peer's address is found by a client and not by the Tracker itself. -/
theorem paths_differ : ¬PathsAgree (texts (.v6 (Ip.mapped 0x0a000001#32))) state record.publicKey
    (Vector.replicate 32 2) (.byDstAddress (.v6 (Ip.mapped 0x0a000001#32))) := by
  have hhere : state.published.lookupAddress (.v6 (Ip.mapped 0x0a000001#32)) = .ok none := by decide
  have hthere : state.published.lookupAddress (Ip.unmapIp (.v6 (Ip.mapped 0x0a000001#32))) =
      .ok (some record) := by
    decide
  rw [pathsAgree_mixed ⟨fun _ => rfl, fun _ => rfl⟩ (parses_texts _) (by decide) hhere hthere
    (resolveRemote_address configured_record rfl (parse_address _) hthere)]
  exact nofun

end Microtun.Tracker
