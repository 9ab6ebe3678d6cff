import Microtun.Core.State
import Microtun.KeyText
import Microtun.PrefixTrie.Correct
import Microtun.Tracker.Dispatch

/-! Peer records and the published registry, `registry.rs`. -/

namespace Microtun.Tracker

/-- A configured peer. -/
structure PeerRecord where
  publicKey : Key
  publicKeyText : String
  endpoint : Option SocketAddr
  relay : Option Key
  persistentKeepalive : Option UInt16
  address : IpCidr
deriving DecidableEq

namespace PeerRecord

def new (publicKey : Key) (endpoint : Option SocketAddr) (relay : Option Key) (address : IpCidr)
    (persistentKeepalive : Option UInt16) : PeerRecord :=
  ⟨publicKey, encodeKey publicKey, endpoint, relay, persistentKeepalive, address⟩

/-- The record in the shape of the tunnel resolver, with the endpoint in force. -/
def resolvedWithEndpoint (r : PeerRecord) (endpoint : Option SocketAddr) : ResolvedPeer where
  publicKey := r.publicKey
  endpoint := endpoint
  relay := r.relay
  address := r.address
  inboundPolicy := .allowAll
  persistentKeepalive := r.persistentKeepalive.map fun seconds => seconds.toNat * 1000

end PeerRecord

/-- Why records do not make a registry. -/
inductive BuildError where
  | sharedKey (text : String)
  | sharedPrefix (owner claimant : PeerRecord) (cidr : IpCidr)
deriving DecidableEq

/-- Peers indexed by public key and by tunnel prefix. -/
structure Registry where
  peers : List PeerRecord
  byKey : HashMap Key Nat
  routes : PrefixTrie Nat 0
  routeCount : Nat

namespace Registry

def empty : Registry := ⟨[], ∅, .new 0 .alloc, 0⟩

/-- One turn of the loop of `build`. -/
def add (r : Registry) (record : PeerRecord) : Except Panic (Except BuildError Registry) := do
  let index := r.peers.length
  if record.publicKey ∈ r.byKey then return .error (.sharedKey record.publicKeyText)
  let cidr := record.address
  match ← r.routes.get cidr with
  | some owner =>
    match r.peers[owner]? with
    | some owner => return .error (.sharedPrefix owner record cidr)
    | none => throw .index
  | none =>
    match ← r.routes.insert cidr index with
    | (.error _, _) => throw (.expect "allocator-backed prefix trie grows on demand")
    | (.ok _, routes) => return .ok {
        peers := r.peers ++ [record]
        byKey := r.byKey.insert record.publicKey index
        routes
        routeCount := r.routeCount + 1 }

def buildFrom (r : Registry) : List PeerRecord → Except Panic (Except BuildError Registry)
  | [] => return .ok r
  | record :: records => do
    match ← r.add record with
    | .error e => return .error e
    | .ok r => buildFrom r records

/-- Index a set of records, rejecting collisions. -/
def build (records : List PeerRecord) : Except Panic (Except BuildError Registry) :=
  empty.buildFrom records

def lookupKey (r : Registry) (publicKey : Key) : Option PeerRecord :=
  (r.byKey.lookup publicKey).bind fun index => r.peers[index]?

/-- Longest prefix wins. -/
def lookupAddress (r : Registry) (address : IpAddr) : Except Panic (Option PeerRecord) := do
  match ← r.routes.lookup address with
  | none => return none
  | some index =>
    match r.peers[index]? with
    | some record => return some record
    | none => throw .index

/-! ### What `build` makes -/

/-- The indexes hold the positions of the records. -/
structure Sound (r : Registry) : Prop where
  byKey : ∀ k i, r.byKey.lookup k = some i ↔ ∃ record, r.peers[i]? = some record ∧
    record.publicKey = k
  routes : ∃ T m, PrefixTrie.Models .alloc r.routes.nodes T m ∧
    ∀ net i, m.lookup net = some i ↔ ∃ record, r.peers[i]? = some record ∧ record.address = net

theorem sound_empty : empty.Sound where
  byKey k i := by simp [empty]
  routes := by
    refine ⟨_, ∅, PrefixTrie.models_new .alloc, fun net i => ?_⟩
    simp [empty]

variable {r : Registry}

theorem getElem?_append_iff (peers : List PeerRecord) (record : PeerRecord) (i : Nat)
    (p : PeerRecord → Prop) : (∃ x, (peers ++ [record])[i]? = some x ∧ p x) ↔
      (∃ x, peers[i]? = some x ∧ p x) ∨ (i = peers.length ∧ p record) := by
  by_cases hi : i < peers.length
  · rw [List.getElem?_append_left hi]
    have hne : i ≠ peers.length := Nat.ne_of_lt hi
    simp [hne]
  · have hnone : peers[i]? = none := List.getElem?_eq_none (Nat.le_of_not_lt hi)
    rw [List.getElem?_append_right (Nat.le_of_not_lt hi), hnone]
    by_cases he : i = peers.length
    · simp [he]
    · have hpos : i - peers.length ≠ 0 := by omega
      cases hk : i - peers.length with
      | zero => exact absurd hk hpos
      | succ k => simp [he]

/-- A record whose key and prefix are new is added; another one is refused. -/
theorem add_spec (h : r.Sound) (record : PeerRecord) :
    ((∃ x ∈ r.peers, x.publicKey = record.publicKey ∨ x.address = record.address) ∧
      ∃ e, r.add record = .ok (.error e)) ∨
    ((∀ x ∈ r.peers, x.publicKey ≠ record.publicKey ∧ x.address ≠ record.address) ∧
      ∃ r', r.add record = .ok (.ok r') ∧ r'.peers = r.peers ++ [record] ∧ r'.Sound) := by
  obtain ⟨T, m, hT, hm⟩ := h.routes
  unfold add
  by_cases hkey : record.publicKey ∈ r.byKey
  · left
    obtain ⟨i, hi⟩ := Option.isSome_iff_exists.mp (AList.lookup_isSome.mpr hkey)
    obtain ⟨x, hx, hxk⟩ := (h.byKey _ i).mp hi
    refine ⟨⟨x, List.mem_of_getElem? hx, .inl hxk⟩, .sharedKey record.publicKeyText, ?_⟩
    simp only [if_pos hkey]
    rfl
  · have hnew : ∀ x ∈ r.peers, x.publicKey ≠ record.publicKey := by
      intro x hx hxk
      obtain ⟨i, hi⟩ := List.mem_iff_getElem?.mp hx
      have := (h.byKey _ i).mpr ⟨x, hi, hxk⟩
      exact hkey (AList.lookup_isSome.mp (by rw [this]; rfl))
    simp only [if_neg hkey, PrefixTrie.get_spec hT]
    cases hown : m.lookup record.address with
    | some owner =>
      left
      obtain ⟨x, hx, hxa⟩ := (hm _ owner).mp hown
      refine ⟨⟨x, List.mem_of_getElem? hx, .inr hxa⟩, .sharedPrefix x record record.address, ?_⟩
      simp only [bind, Except.bind, hx]
      rfl
    | none =>
      right
      refine ⟨fun x hx => ⟨hnew x hx, fun hxa => ?_⟩, ?_⟩
      · obtain ⟨i, hi⟩ := List.mem_iff_getElem?.mp hx
        have := (hm _ i).mpr ⟨x, hi, hxa⟩
        rw [hown] at this
        exact nomatch this
      · rcases PrefixTrie.insert_spec hT record.address r.peers.length with ⟨-, hfull⟩ |
          ⟨t', T', hins, hT'⟩
        · -- with an allocator the pool grows on demand
          exfalso
          have hwf := hT.wf
          cases hs : r.routes.nodes with
          | pool p =>
            rw [hs] at hwf
            exact hwf.elim
          | heap nodes free =>
            rw [hs] at hfull
            exact nomatch hfull
        · refine ⟨_, by simp only [bind, Except.bind, hins]; rfl, rfl, ?_, T', _, hT', ?_⟩
          · intro k i
            rw [getElem?_append_iff, HashMap.lookup_insert_eq_ite, ← h.byKey]
            by_cases hk : k = record.publicKey
            · subst hk
              have hnone : r.byKey.lookup record.publicKey = none := AList.lookup_eq_none.mpr hkey
              simp [hnone, eq_comm]
            · simp [hk, eq_comm]
          · intro net i
            rw [getElem?_append_iff, PrefixTrie.lookup_insert, ← hm]
            by_cases hn : net = record.address
            · subst hn
              simp [hown, eq_comm]
            · simp [hn, eq_comm]

theorem buildFrom_spec (h : r.Sound) (hkeys : (r.peers.map (·.publicKey)).Nodup)
    (haddrs : (r.peers.map (·.address)).Nodup) (records : List PeerRecord) :
    (∃ e, r.buildFrom records = .ok (.error e)) ∧
        ¬ (((r.peers ++ records).map (·.publicKey)).Nodup ∧
          ((r.peers ++ records).map (·.address)).Nodup) ∨
      ∃ r', r.buildFrom records = .ok (.ok r') ∧ r'.Sound ∧ r'.peers = r.peers ++ records ∧
        ((r.peers ++ records).map (·.publicKey)).Nodup ∧
        ((r.peers ++ records).map (·.address)).Nodup := by
  induction records generalizing r with
  | nil =>
    rw [List.append_nil]
    exact .inr ⟨r, rfl, h, rfl, hkeys, haddrs⟩
  | cons record records ih =>
    unfold buildFrom
    cases add_spec h record with
    | inl hbad =>
      left
      obtain ⟨⟨x, hx, hclash⟩, e, hrun⟩ := hbad
      refine ⟨⟨e, by simp only [hrun, ok_bind]; rfl⟩, ?_⟩
      rintro ⟨hk, ha⟩
      rw [List.map_append, List.nodup_append] at hk ha
      cases hclash with
      | inl hc => exact hk.2.2 _ (List.mem_map_of_mem hx) _ (by simp) hc
      | inr hc => exact ha.2.2 _ (List.mem_map_of_mem hx) _ (by simp) hc
    | inr hgood =>
      obtain ⟨hnew, r', hrun, hpeers, hr'⟩ := hgood
      have hk' : (r'.peers.map (·.publicKey)).Nodup := by
        rw [hpeers, List.map_append, List.nodup_append]
        refine ⟨hkeys, List.nodup_singleton _, ?_⟩
        intro k hk k' hk' heq
        obtain ⟨x, hx, rfl⟩ := List.mem_map.mp hk
        exact (hnew x hx).1 (heq.trans (List.mem_singleton.mp hk'))
      have ha' : (r'.peers.map (·.address)).Nodup := by
        rw [hpeers, List.map_append, List.nodup_append]
        refine ⟨haddrs, List.nodup_singleton _, ?_⟩
        intro a ha a' ha' heq
        obtain ⟨x, hx, rfl⟩ := List.mem_map.mp ha
        exact (hnew x hx).2 (heq.trans (List.mem_singleton.mp ha'))
      have hcat : r'.peers ++ records = r.peers ++ record :: records := by
        rw [hpeers, List.append_assoc]
        rfl
      simp only [hrun, ok_bind]
      rw [← hcat]
      exact ih hr' hk' ha'

/-- `build` accepts the records exactly if neither a key nor a prefix occurs twice. -/
theorem build_spec (records : List PeerRecord) : (∃ e, build records = .ok (.error e)) ∧
        ¬ ((records.map (·.publicKey)).Nodup ∧ (records.map (·.address)).Nodup) ∨
      ∃ r, build records = .ok (.ok r) ∧ r.Sound ∧ r.peers = records ∧
        (records.map (·.publicKey)).Nodup ∧ (records.map (·.address)).Nodup :=
  buildFrom_spec sound_empty .nil .nil records

theorem lookupKey_iff (h : r.Sound) (k : Key) (record : PeerRecord) :
    r.lookupKey k = some record ↔ record ∈ r.peers ∧ record.publicKey = k := by
  unfold lookupKey
  rw [Option.bind_eq_some_iff]
  constructor
  · rintro ⟨i, hi, hrec⟩
    obtain ⟨x, hx, hk⟩ := (h.byKey k i).mp hi
    obtain rfl : x = record := Option.some.inj (hx.symm.trans hrec)
    exact ⟨List.mem_of_getElem? hx, hk⟩
  · rintro ⟨hmem, hk⟩
    obtain ⟨i, hi⟩ := List.mem_iff_getElem?.mp hmem
    exact ⟨i, (h.byKey k i).mpr ⟨record, hi, hk⟩, hi⟩

theorem lookupKey_publicKey (h : r.Sound) {k : Key} {record : PeerRecord}
    (hk : r.lookupKey k = some record) : record.publicKey = k :=
  ((lookupKey_iff h k record).mp hk).2

theorem mem_byKey_iff (h : r.Sound) (k : Key) : k ∈ r.byKey ↔ (r.lookupKey k).isSome := by
  rw [← AList.lookup_isSome]
  unfold lookupKey
  cases hk : r.byKey.lookup k with
  | none => rfl
  | some i =>
    obtain ⟨x, hx, -⟩ := (h.byKey k i).mp hk
    simp [hx]

/-- A lookup by address finds the record of the longest prefix that contains the address. -/
theorem lookupAddress_spec (h : r.Sound) (address : IpAddr) :
    ∃ found, r.lookupAddress address = .ok found ∧
      (found = none → ∀ record ∈ r.peers, record.address.contains address = false) ∧
      ∀ record, found = some record → record ∈ r.peers ∧ record.address.contains address = true ∧
        ∀ record' ∈ r.peers, record'.address.contains address = true →
          record'.address.networkLength ≤ record.address.networkLength := by
  obtain ⟨T, m, hT, hm⟩ := h.routes
  have hnet : ∀ record ∈ r.peers, record.address ∈ m := by
    intro record hrec
    obtain ⟨i, hi⟩ := List.mem_iff_getElem?.mp hrec
    rw [← AList.lookup_isSome, (hm _ i).mpr ⟨record, hi, rfl⟩]
    rfl
  obtain ⟨o, hrun, hlong⟩ := PrefixTrie.lookup_spec hT address
  unfold lookupAddress
  simp only [hrun, ok_bind]
  cases hlong with
  | inl hnone =>
    obtain ⟨rfl, hnone⟩ := hnone
    exact ⟨none, rfl, fun _ record hrec => hnone _ (hnet record hrec), fun _ h => nomatch h⟩
  | inr hsome =>
    obtain ⟨net, hmem, hcontains, rfl, hmax⟩ := hsome
    obtain ⟨i, hi⟩ := Option.isSome_iff_exists.mp (AList.lookup_isSome.mpr hmem)
    obtain ⟨x, hx, hxa⟩ := (hm net i).mp hi
    simp only [hi, hx]
    refine ⟨some x, rfl, fun h => (nomatch h), fun record hrec => ?_⟩
    obtain rfl : x = record := Option.some.inj hrec
    refine ⟨List.mem_of_getElem? hx, hxa ▸ hcontains, fun record' hrec' hc' => ?_⟩
    rw [hxa]
    exact hmax _ (hnet record' hrec') hc'

end Registry

/-! ### The published state -/

/-- A registry that `build` made. -/
structure Built where
  val : Registry
  built : ∃ records, Registry.build records = .ok (.ok val)

theorem Built.sound (b : Built) : b.val.Sound := by
  obtain ⟨r, records, h⟩ := b
  cases Registry.build_spec records with
  | inl hbad =>
    obtain ⟨⟨e, he⟩, -⟩ := hbad
    exact nomatch Except.ok.inj (h.symm.trans he)
  | inr hgood =>
    obtain ⟨r', hr', hs, -⟩ := hgood
    exact Except.ok.inj (Except.ok.inj (hr'.symm.trans h)) ▸ hs

theorem cidr_eq {w : Nat} {a b : Cidr w} {address : BitVec w} (ha : a.contains address = true)
    (hb : b.contains address = true) (hlen : a.networkLength = b.networkLength) : a = b := by
  have hpa := (Cidr.contains_iff a address).mp ha
  have hpb := (Cidr.contains_iff b address).mp hb
  refine Cidr.bits_injective ?_
  rw [List.prefix_iff_eq_take.mp hpa, List.prefix_iff_eq_take.mp hpb, a.length_bits, b.length_bits]
  exact congrArg (fun n => List.take n _) hlen

theorem eq_of_contains {a b : IpCidr} {address : IpAddr} (ha : a.contains address = true)
    (hb : b.contains address = true) (hlen : a.networkLength = b.networkLength) : a = b := by
  cases address with
  | v4 address =>
    cases a with
    | v6 a => exact nomatch ha
    | v4 a =>
      cases b with
      | v6 b => exact nomatch hb
      | v4 b => rw [cidr_eq ha hb hlen]
  | v6 address =>
    cases a with
    | v4 a => exact nomatch ha
    | v6 a =>
      cases b with
      | v4 b => exact nomatch hb
      | v6 b => rw [cidr_eq ha hb hlen]

theorem Built.prefixes (b : Built) : (b.val.peers.map (·.address)).Nodup := by
  obtain ⟨r, records, h⟩ := b
  rcases Registry.build_spec records with ⟨⟨e, he⟩, -⟩ | ⟨r', hr', -, hpeers, -, hprefixes⟩
  · exact nomatch Except.ok.inj (h.symm.trans he)
  · obtain rfl := Except.ok.inj (Except.ok.inj (hr'.symm.trans h))
    rwa [hpeers]

/-- A lookup by address finds a record exactly if its prefix is the longest that contains the
address. -/
theorem Built.lookupAddress_iff (b : Built) (address : IpAddr) (record : PeerRecord) :
    b.val.lookupAddress address = .ok (some record) ↔ record ∈ b.val.peers ∧
      record.address.contains address = true ∧
        ∀ record' ∈ b.val.peers, record'.address.contains address = true →
        record'.address.networkLength ≤ record.address.networkLength := by
  obtain ⟨found, hrun, hnone, hsome⟩ := Registry.lookupAddress_spec b.sound address
  rw [hrun]
  constructor
  · intro h
    exact hsome record (Except.ok.inj h)
  · rintro ⟨hmem, hcontains, hmax⟩
    cases found with
    | none => exact nomatch (hnone rfl record hmem).symm.trans hcontains
    | some other =>
      obtain ⟨hother, hoc, homax⟩ := hsome other rfl
      have hlen := Nat.le_antisymm (hmax other hother hoc) (homax record hmem hcontains)
      rw [List.inj_on_of_nodup_map b.prefixes hother hmem (eq_of_contains hoc hcontains hlen)]

/-- The configuration in force and the endpoints learned from authenticated traffic. -/
structure PublishedRegistry where
  registry : Built
  observedEndpoints : HashMap Key SocketAddr

namespace PublishedRegistry

variable (p : PublishedRegistry)

def lookupKey (publicKey : Key) : Option PeerRecord := p.registry.val.lookupKey publicKey

def lookupAddress (address : IpAddr) : Except Panic (Option PeerRecord) :=
  p.registry.val.lookupAddress address

/-- A learned endpoint goes before the configured one. -/
def effectiveEndpoint (record : PeerRecord) : Option SocketAddr :=
  (p.observedEndpoints.lookup record.publicKey).or record.endpoint

/-- Learn an endpoint; gives the change to announce. -/
def observeEndpoint (publicKey : Key) (endpoint : SocketAddr) :
    PublishedRegistry × List RegistryChange :=
  match p.lookupKey publicKey with
  | none => (p, [])
  | some record =>
    let before := (p.observedEndpoints.lookup publicKey).or record.endpoint
    if p.observedEndpoints.lookup publicKey = some endpoint then (p, [])
    else
      let p' := { p with observedEndpoints := p.observedEndpoints.insert publicKey endpoint }
      (p', if before ≠ some endpoint then [⟨publicKey, .changed⟩] else [])

/-- What happened to a key between two published states. -/
def changeKind (after : PublishedRegistry) (publicKey : Key) : Option RegistryChangeKind :=
  match p.lookupKey publicKey, after.lookupKey publicKey with
  | none, some _ => some .changed
  | some _, none => some .removed
  | some b, some a =>
    let beforeEndpoint := (p.observedEndpoints.lookup publicKey).or b.endpoint
    let afterEndpoint := (after.observedEndpoints.lookup publicKey).or a.endpoint
    if b.publicKey ≠ a.publicKey ∨ beforeEndpoint ≠ afterEndpoint ∨ b.relay ≠ a.relay ∨
        b.persistentKeepalive ≠ a.persistentKeepalive ∨ b.address ≠ a.address then
      some .changed
    else none
  | none, none => none

/-- The state after a reload.  Learned endpoints last as long as their keys. -/
def reloaded (registry : Built) : PublishedRegistry where
  registry := registry
  observedEndpoints := p.observedEndpoints.retain fun k => (registry.val.lookupKey k).isSome

/-- An order in which the set of the keys of both registries may list them. -/
def Lists (registry : Built) (keys : List Key) : Prop :=
  keys.Perm (p.registry.val.byKey.keys ++ registry.val.byKey.keys).dedup

instance (registry : Built) (keys : List Key) : Decidable (p.Lists registry keys) :=
  inferInstanceAs (Decidable (keys.Perm _))

/-- Publish a replacement; gives the changes to announce, in the order the keys are listed. -/
def replace (registry : Built) (keys : List Key) : PublishedRegistry × List RegistryChange :=
  let after := p.reloaded registry
  (after, keys.filterMap fun k => (p.changeKind after k).map fun kind => ⟨k, kind⟩)

/-- The record served for a key. -/
def served (publicKey : Key) : Option ResolvedPeer :=
  (p.lookupKey publicKey).map fun record =>
    record.resolvedWithEndpoint (p.effectiveEndpoint record)

variable {p}

theorem Lists.mem_iff {registry : Built} {keys : List Key} (h : p.Lists registry keys) (k : Key) :
    k ∈ keys ↔ k ∈ p.registry.val.byKey ∨ k ∈ registry.val.byKey := by
  rw [List.Perm.mem_iff h, List.mem_dedup, List.mem_append]
  rfl

theorem lookupKey_publicKey {k : Key} {record : PeerRecord} (h : p.lookupKey k = some record) :
    record.publicKey = k :=
  Registry.lookupKey_publicKey p.registry.sound h

theorem lookupAddress_lookupKey (address : IpAddr) : ∃ found, p.lookupAddress address = .ok found ∧
      ∀ record, found = some record → p.lookupKey record.publicKey = some record := by
  obtain ⟨found, hrun, -, hsome⟩ := Registry.lookupAddress_spec p.registry.sound address
  refine ⟨found, hrun, fun record hrec => ?_⟩
  exact (Registry.lookupKey_iff p.registry.sound _ record).mpr ⟨(hsome record hrec).1, rfl⟩

theorem served_eq {k : Key} {record : PeerRecord} (h : p.lookupKey k = some record) :
    p.served k = some (record.resolvedWithEndpoint
      ((p.observedEndpoints.lookup k).or record.endpoint)) := by
  unfold served effectiveEndpoint
  rw [h, Option.map_some, lookupKey_publicKey h]

theorem changeKind_of_served {after : PublishedRegistry} {k : Key}
    (h : after.served k ≠ p.served k) : ∃ kind, p.changeKind after k = some kind := by
  unfold changeKind
  cases hb : p.lookupKey k with
  | none =>
    cases ha : after.lookupKey k with
    | none => simp [served, hb, ha] at h
    | some a => exact ⟨.changed, rfl⟩
  | some b =>
    cases ha : after.lookupKey k with
    | none => exact ⟨.removed, rfl⟩
    | some a =>
      rw [served_eq hb, served_eq ha] at h
      refine ⟨.changed, if_pos ?_⟩
      refine Classical.byContradiction fun hsame => h ?_
      simp only [not_or, not_not] at hsame
      obtain ⟨hkey, hend, hrelay, hkeep, haddr⟩ := hsame
      simp [PeerRecord.resolvedWithEndpoint, hkey, hend, hrelay, hkeep, haddr]

/-- A key served otherwise after a reload is announced. -/
theorem mem_replace {registry : Built} {keys : List Key} (hkeys : p.Lists registry keys) {k : Key}
    (h : (p.replace registry keys).1.served k ≠ p.served k) :
    ∃ c ∈ (p.replace registry keys).2, c.publicKey = k := by
  obtain ⟨kind, hkind⟩ := changeKind_of_served h
  refine ⟨⟨k, kind⟩, ?_, rfl⟩
  have hk : k ∈ keys := by
    rw [hkeys.mem_iff, Registry.mem_byKey_iff p.registry.sound,
      Registry.mem_byKey_iff registry.sound]
    refine Classical.byContradiction fun hno => h ?_
    simp only [not_or, Bool.not_eq_true, Option.isSome_eq_false_iff,
      Option.isNone_iff_eq_none] at hno
    have hb : p.lookupKey k = none := hno.1
    have ha : (p.replace registry keys).1.lookupKey k = none := hno.2
    rw [served, served, hb, ha]
    rfl
  exact List.mem_filterMap.mpr ⟨k, hk, by
    have hkind' : p.changeKind (p.reloaded registry) k = some kind := hkind
    rw [hkind']
    rfl⟩

theorem mem_observeEndpoint {publicKey : Key} {endpoint : SocketAddr} {k : Key}
    (h : (p.observeEndpoint publicKey endpoint).1.served k ≠ p.served k) :
    ∃ c ∈ (p.observeEndpoint publicKey endpoint).2, c.publicKey = k := by
  unfold observeEndpoint at h ⊢
  cases hrec : p.lookupKey publicKey with
  | none =>
    simp only [hrec] at h
    exact absurd rfl h
  | some record =>
    simp only [hrec] at h ⊢
    by_cases hsame : p.observedEndpoints.lookup publicKey = some endpoint
    · rw [if_pos hsame] at h
      exact absurd rfl h
    · rw [if_neg hsame] at h ⊢
      simp only at h ⊢
      by_cases hk : k = publicKey
      · subst hk
        have hne : (p.observedEndpoints.lookup k).or record.endpoint ≠ some endpoint := by
          intro heq
          apply h
          have hrec' : ({ p with observedEndpoints := p.observedEndpoints.insert k endpoint } :
              PublishedRegistry).lookupKey k = some record := hrec
          rw [served_eq hrec', served_eq hrec, heq, AList.lookup_insert]
          rfl
        rw [if_pos hne]
        exact ⟨_, List.mem_singleton_self _, rfl⟩
      · exfalso
        apply h
        have hlookup : ∀ k',
            ({ p with observedEndpoints := p.observedEndpoints.insert publicKey endpoint } :
              PublishedRegistry).lookupKey k' = p.lookupKey k' := fun _ => rfl
        cases hkrec : p.lookupKey k with
        | none => simp [served, hlookup, hkrec]
        | some record' =>
          rw [served_eq ((hlookup k).trans hkrec), served_eq hkrec]
          simp only [HashMap.lookup_insert_eq_ite, if_neg hk]

end PublishedRegistry

end Microtun.Tracker
