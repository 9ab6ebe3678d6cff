import Microtun.Dhcp.Steps

/-! Who holds which address after a run, and that nobody is given an address that somebody else
holds. -/

namespace Microtun.Dhcp

/-- An identity holds the address that it was handed last, until it releases or declines it or is
handed another one. The last event comes first. -/
def Holds : List Event → Ipv4 → List UInt8 → Prop
  | [], _, _ => False
  | .handed ip' identity' :: earlier, ip, identity =>
    if identity' = identity then ip' = ip else Holds earlier ip identity
  | .released identity' :: earlier, ip, identity => identity' ≠ identity ∧ Holds earlier ip identity
  | .declined identity' :: earlier, ip, identity => identity' ≠ identity ∧ Holds earlier ip identity
  | .other :: earlier, ip, identity => Holds earlier ip identity

/-- An address was declined by the one that held it. -/
def Declined : List Event → Ipv4 → Prop
  | [], _ => False
  | .declined identity :: earlier, ip => Holds earlier ip identity ∨ Declined earlier ip
  | _ :: earlier, ip => Declined earlier ip

/-- The packets that the server has received since it was started, each of any bytes that fit its
buffer, what they were about, and the leases. -/
inductive Run : List (List UInt8) → List Event → List Lease → Prop where
  | start : Run [] [] initialLeases
  | step {packets : List (List UInt8)} {events : List Event} {leases leases' : List Lease}
    {packet : List UInt8}
    {sent : Option Datagram} (run : Run packets events leases)
      (hpacket : packet.length ≤ dhcpPacketBuffer)
    (hserve : serve leases packet = .ok (leases', sent)) :
    Run (packet :: packets) (event packet sent :: events) leases'

/-- Each identity owns one address, that of its lease, which is in the range; an address is handed
only to the one that holds it, if somebody does, and never again once it was declined. -/
structure Safe (events : List Event) (leases : List Lease) : Prop where
  held : ∀ ip identity, Holds events ip identity →
    ∃ slot, ip = leaseIp slot ∧ leases[slot]? = some ⟨true, .fromSlice identity⟩
  single : ∀ ip ip' identity, Holds events ip identity → Holds events ip' identity → ip = ip'
  leased : ∀ (identity : List UInt8) (slot slot' : Nat) (lease lease' : Lease), identity ≠ [] →
    leases[slot]? = some lease → lease.inUse = true →
    lease.client.matchesKey (.fromSlice identity) = true → leases[slot']? = some lease' →
      lease'.inUse = true →
    lease'.client.matchesKey (.fromSlice identity) = true → slot = slot'
  exclusive : ∀ later ip identity earlier, events = later ++ .handed ip identity :: earlier →
    ∀ identity', Holds earlier ip identity' → identity' = identity
  retired : ∀ later ip identity earlier, events = later ++ .handed ip identity :: earlier →
    ¬Declined earlier ip
  range : ∀ ip identity, .handed ip identity ∈ events → ∃ slot < dhcpLeaseCapacity, ip =
    leaseIp slot

/-- The identities of the requests can be told apart by what a key holds of them. -/
def Distinguished (packets : List (List UInt8)) : Prop :=
  ∀ packet ∈ packets, ∀ packet' ∈ packets, isRequest packet = true → isRequest packet' = true →
    (identityOf packet).take 16 = (identityOf packet').take 16 →
      identityOf packet = identityOf packet'

instance (packets : List (List UInt8)) : Decidable (Distinguished packets) :=
  inferInstanceAs (Decidable (∀ packet ∈ packets, ∀ packet' ∈ packets, _ → _ → _ → _))

/-! ### Keys -/

variable {x y : List UInt8} {leases leases' : List Lease} {e : Event}

theorem fromSlice_def (x : List UInt8) : ClientKey.fromSlice x =
    ⟨x.take 16 ++ List.replicate (16 - (x.take 16).length) 0, (x.take 16).length⟩ := by
  have hmin : x.take (min x.length 16) = x.take 16 := by rw [Nat.min_comm, ← List.take_eq_take_min]
  have hlen : (x.take 16).length = min x.length 16 := by rw [List.length_take, Nat.min_comm]
  rw [ClientKey.fromSlice, ClientKey.empty]
  simp only [List.length_replicate, List.drop_replicate]
  rw [hmin, hlen]

theorem take_fromSlice (x : List UInt8) :
    (ClientKey.fromSlice x).bytes.take (ClientKey.fromSlice x).len = x.take 16 := by
  rw [fromSlice_def]
  exact List.take_left

theorem fromSlice_eq : ClientKey.fromSlice x = .fromSlice y ↔ x.take 16 = y.take 16 := by
  constructor
  · intro h
    rw [← take_fromSlice x, h, take_fromSlice]
  · intro h
    rw [fromSlice_def, h, ← fromSlice_def]

theorem matchesKey_fromSlice : (ClientKey.fromSlice x).matchesKey (.fromSlice y) = true ↔
      ClientKey.fromSlice x = .fromSlice y := by
  rw [ClientKey.matchesKey, Bool.and_eq_true, beq_iff_eq, beq_iff_eq, take_fromSlice,
    take_fromSlice]
  exact ⟨fun h => fromSlice_eq.mpr h.2, fun h => ⟨congrArg ClientKey.len h, fromSlice_eq.mp h⟩⟩

theorem empty_eq_fromSlice : ClientKey.empty = .fromSlice [] := rfl

theorem fromSlice_ne_empty (h : x ≠ []) : ClientKey.fromSlice x ≠ .empty := by
  rw [empty_eq_fromSlice]
  intro heq
  have htake := fromSlice_eq.mp heq
  rw [List.take_nil, List.take_eq_nil_iff] at htake
  exact htake.elim (by decide) h

theorem leaseIp_injective {slot slot' : Nat} (h : slot < dhcpLeaseCapacity)
    (h' : slot' < dhcpLeaseCapacity) (heq : leaseIp slot = leaseIp slot') : slot = slot' := by
  have hlast : (2 : UInt8) + UInt8.ofNat slot = 2 + UInt8.ofNat slot' :=
    congrArg (fun ip : Ipv4 => ip[3]) heq
  have hnat := congrArg UInt8.toNat hlast
  rw [UInt8.toNat_add, UInt8.toNat_add, UInt8.toNat_ofNat', UInt8.toNat_ofNat'] at hnat
  have hcapacity : dhcpLeaseCapacity = 19 := rfl
  have htwo : (2 : UInt8).toNat = 2 := rfl
  omega

/-! ### The table -/

/-- The leases in use have keys of identities, and no two have the same one. -/
structure Table (leases : List Lease) : Prop where
  length : leases.length = dhcpLeaseCapacity
  keys : ∀ (slot : Nat) (client : ClientKey), leases[slot]? = some ⟨true, client⟩ →
    ∃ x, client = .fromSlice x
  unique : ∀ (slot slot' : Nat) (client : ClientKey), client ≠ .empty →
    leases[slot]? = some ⟨true, client⟩ →
    leases[slot']? = some ⟨true, client⟩ → slot = slot'

theorem Table.matches_iff (h : Table leases) {slot : Nat} {lease : Lease}
    (hlease : leases[slot]? = some lease) (huse : lease.inUse = true) :
    lease.client.matchesKey (.fromSlice y) = true ↔ leases[slot]? = some ⟨true, .fromSlice y⟩ := by
  obtain ⟨inUse, client⟩ := lease
  simp only at huse
  subst huse
  obtain ⟨x, rfl⟩ := h.keys slot client hlease
  rw [matchesKey_fromSlice, hlease, Option.some.injEq, Lease.mk.injEq, eq_self, true_and]

theorem Table.find_iff (h : Table leases) (hy : y ≠ []) {slot : Nat} :
    findClientLease leases (.fromSlice y) = some slot ↔
      leases[slot]? = some ⟨true, .fromSlice y⟩ := by
  constructor
  · intro hfind
    obtain ⟨lease, hlease, huse, hmatch⟩ := findClientLease_eq_some hfind
    exact (h.matches_iff hlease huse).mp hmatch
  · intro hlease
    match hfind : findClientLease leases (.fromSlice y) with
    | none =>
      have hno := findClientLease_eq_none hfind hlease rfl
      rw [(h.matches_iff hlease rfl).mpr hlease] at hno
      cases hno
    | some slot' =>
      obtain ⟨lease, hlease', huse, hmatch⟩ := findClientLease_eq_some hfind
      rw [h.unique slot slot' _ (fromSlice_ne_empty hy) hlease
        ((h.matches_iff hlease' huse).mp hmatch)]

/-- A lease is put into a slot, in use by nobody or by an identity that has no other lease. -/
theorem Table.set (h : Table leases) (slot : Nat) (lease : Lease)
    (hlease : lease.inUse = true → lease.client = .empty ∨
      (∃ x, lease.client = .fromSlice x) ∧ ∀ slot', slot' ≠ slot →
        leases[slot']? ≠ some ⟨true, lease.client⟩) :
    Table (leases.set slot lease) where
  length := by rw [List.length_set, h.length]
  keys := by
    intro slot' client hget
    rw [List.getElem?_set] at hget
    split at hget
    · split at hget
      · obtain rfl := Option.some.inj hget
        exact (hlease rfl).elim (fun hempty => ⟨[], hempty⟩) fun hkey => hkey.1
      · cases hget
    · exact h.keys slot' client hget
  unique := by
    intro slot₁ slot₂ client hne h₁ h₂
    have hother (i j : Nat) (hi : (leases.set slot lease)[i]? = some ⟨true, client⟩)
        (hj : (leases.set slot lease)[j]? = some ⟨true, client⟩) (hslot : slot = i) : i = j := by
      subst hslot
      rw [List.getElem?_set_self'] at hi
      obtain ⟨-, -, rfl⟩ := Option.map_eq_some_iff.mp hi
      by_contra hij
      rw [List.getElem?_set_ne hij] at hj
      exact (hlease rfl).elim (fun hempty => hne hempty) fun hkey => hkey.2 j (Ne.symm hij) hj
    by_cases hs₁ : slot = slot₁
    · exact hother slot₁ slot₂ h₁ h₂ hs₁
    · by_cases hs₂ : slot = slot₂
      · exact (hother slot₂ slot₁ h₂ h₁ hs₂).symm
      · rw [List.getElem?_set_ne hs₁] at h₁
        rw [List.getElem?_set_ne hs₂] at h₂
        exact h.unique slot₁ slot₂ client hne h₁ h₂

/-- The leases of a client are cleared. -/
def cleared (leases : List Lease) (client : ClientKey) : List Lease :=
  leases.map fun lease => if lease.inUse && lease.client.matchesKey client then Lease.empty
    else lease

theorem Table.getElem?_cleared (h : Table leases) {slot : Nat} {client : ClientKey} :
    (cleared leases (.fromSlice y))[slot]? = some ⟨true, client⟩ ↔
      leases[slot]? = some ⟨true, client⟩ ∧ client ≠ .fromSlice y := by
  rw [cleared, List.getElem?_map]
  constructor
  · intro hget
    obtain ⟨lease, hlease, hif⟩ := Option.map_eq_some_iff.mp hget
    split at hif
    · cases hif
    next hno =>
      subst hif
      refine ⟨hlease, fun heq => hno ?_⟩
      rw [Bool.true_and]
      exact (h.matches_iff hlease rfl).mpr (heq ▸ hlease)
  · rintro ⟨hlease, hne⟩
    have hno : ¬(true && client.matchesKey (.fromSlice y)) = true := by
      rw [Bool.true_and]
      intro hmatch
      have := (h.matches_iff hlease rfl).mp hmatch
      rw [hlease, Option.some.injEq, Lease.mk.injEq] at this
      exact hne this.2
    rw [hlease, Option.map_some]
    simp only [if_neg hno]

theorem Table.cleared (h : Table leases) (y : List UInt8) :
    Table (cleared leases (.fromSlice y)) where
  length := by rw [Dhcp.cleared, List.length_map, h.length]
  keys slot client hget := h.keys slot client (h.getElem?_cleared.mp hget).1
  unique slot slot' client hne hget hget' :=
    h.unique slot slot' client hne (h.getElem?_cleared.mp hget).1 (h.getElem?_cleared.mp hget').1

theorem Step.table (hstep : Step leases y e leases') (h : Table leases) : Table leases' := by
  cases hstep with
  | other => exact h
  | found => exact h
  | @allocated slot lease hy hnone hlease hfree =>
    refine h.set slot _ fun _ => .inr ⟨⟨y, rfl⟩, fun slot' _ hget => ?_⟩
    rw [(h.find_iff hy).mpr hget] at hnone
    cases hnone
  | @assigned slot lease hy hlease hfree =>
    refine (h.cleared y).set slot _ fun _ => .inr ⟨⟨y, rfl⟩, fun slot' _ hget => ?_⟩
    exact (h.getElem?_cleared.mp hget).2 rfl
  | released hy =>
    rw [releaseLease]
    split
    · exact h.set _ _ fun huse => nomatch huse
    · exact h
  | declined hy =>
    rw [declineLease]
    split
    · exact h.set _ _ fun _ => .inl rfl
    · exact h

theorem Step.kept (hstep : Step leases y e leases') (h : Table leases) {slot : Nat}
    {client : ClientKey} (hget : leases[slot]? = some ⟨true, client⟩)
    (hne : client ≠ .fromSlice y) : leases'[slot]? = some ⟨true, client⟩ := by
  have hset (slot' : Nat) (lease : Lease) (hmine : leases[slot']? = some ⟨true, .fromSlice y⟩) :
      (leases.set slot' lease)[slot]? = some ⟨true, client⟩ := by
    rw [List.getElem?_set_ne, hget]
    rintro rfl
    rw [hmine, Option.some.injEq, Lease.mk.injEq] at hget
    exact hne hget.2.symm
  cases hstep with
  | other => exact hget
  | found => exact hget
  | @allocated slot' lease hy hnone hlease hfree =>
    rw [List.getElem?_set_ne, hget]
    rintro rfl
    rw [hlease, Option.some.injEq] at hget
    rw [hget] at hfree
    cases hfree
  | @assigned slot' lease hy hlease hfree =>
    rw [assignLease, List.getElem?_set_ne]
    · exact h.getElem?_cleared.mpr ⟨hget, hne⟩
    · rintro rfl
      obtain rfl : lease = ⟨true, client⟩ := Option.some.inj (hlease.symm.trans hget)
      rcases hfree with hfree | hmatch
      · cases hfree
      · have := (h.matches_iff hlease rfl).mp hmatch
        rw [hget, Option.some.injEq, Lease.mk.injEq] at this
        exact hne this.2
  | released hy =>
    rw [releaseLease]
    split
    next slot' hfind => exact hset slot' _ ((h.find_iff hy).mp hfind)
    next => exact hget
  | declined hy =>
    rw [declineLease]
    split
    next slot' hfind => exact hset slot' _ ((h.find_iff hy).mp hfind)
    next => exact hget

theorem Step.handed {ip : Ipv4} {x : List UInt8} (hstep : Step leases y (.handed ip x) leases')
    (h : Table leases) :
    x = y ∧ y ≠ [] ∧ ∃ slot, ip = leaseIp slot ∧ leases'[slot]? = some ⟨true, .fromSlice y⟩ ∧
      ∀ client, leases[slot]? = some ⟨true, client⟩ → client = .fromSlice y := by
  cases hstep with
  | @found slot hy hfind =>
    have hget := (h.find_iff hy).mp hfind
    refine ⟨rfl, hy, slot, rfl, hget, fun client hclient => ?_⟩
    rw [hget, Option.some.injEq, Lease.mk.injEq] at hclient
    exact hclient.2.symm
  | @allocated slot lease hy hnone hlease hfree =>
    refine ⟨rfl, hy, slot, rfl, ?_, fun client hclient => ?_⟩
    · rw [List.getElem?_set_self (List.getElem?_eq_some_iff.mp hlease).1]
    · rw [hlease, Option.some.injEq] at hclient
      rw [hclient] at hfree
      cases hfree
  | @assigned slot lease hy hlease hfree =>
    refine ⟨rfl, hy, slot, rfl, ?_, fun client hclient => ?_⟩
    · rw [assignLease, List.getElem?_set_self]
      rw [List.length_map]
      exact (List.getElem?_eq_some_iff.mp hlease).1
    · obtain rfl : lease = ⟨true, client⟩ := Option.some.inj (hlease.symm.trans hclient)
      rcases hfree with hfree | hmatch
      · cases hfree
      · have := (h.matches_iff hlease rfl).mp hmatch
        rw [hlease, Option.some.injEq, Lease.mk.injEq] at this
        exact this.2

theorem Step.released_eq (hstep : Step leases y (.released x) leases') : x = y ∧ y ≠ [] := by
  cases hstep with
  | released hy => exact ⟨rfl, hy⟩

theorem Step.declined_eq (hstep : Step leases y (.declined x) leases') : x = y ∧ y ≠ [] := by
  cases hstep with
  | declined hy => exact ⟨rfl, hy⟩

theorem Step.declines {x : List UInt8} (hstep : Step leases y (.declined x) leases')
    (h : Table leases) {slot : Nat} (hget : leases[slot]? = some ⟨true, .fromSlice y⟩) :
    leases'[slot]? = some ⟨true, .empty⟩ := by
  cases hstep with
  | declined hy =>
    rw [declineLease, (h.find_iff hy).mpr hget]
    simp only
    rw [List.getElem?_set_self (List.getElem?_eq_some_iff.mp hget).1]

/-! ### Runs -/

variable {packets : List (List UInt8)} {events : List Event}

theorem Run.table (run : Run packets events leases) : Table leases := by
  induction run with
  | start =>
    have hempty (slot : Nat) (client : ClientKey) : initialLeases[slot]? ≠ some ⟨true, client⟩ := by
      rw [initialLeases, List.getElem?_replicate]
      split
      · exact fun h => nomatch h
      · exact fun h => nomatch h
    exact ⟨List.length_replicate, fun slot client hget => absurd hget (hempty slot client),
      fun slot _ client _ hget => absurd hget (hempty slot client)⟩
  | step _ hpacket hserve ih =>
    obtain ⟨leases₁, sent₁, hserve₁, hstep⟩ := serve_spec ih.length hpacket
    obtain ⟨rfl, rfl⟩ := Prod.mk.inj (Except.ok.inj (hserve.symm.trans hserve₁))
    exact hstep.table ih

/-- Those who hold an address have its lease, and what was declined is in use by nobody. -/
structure Agrees (packets : List (List UInt8)) (events : List Event) (leases : List Lease) :
    Prop where
  holds : ∀ ip x, Holds events ip x →
    (∃ packet ∈ packets, isRequest packet = true ∧ identityOf packet = x) ∧ x ≠ [] ∧
    ∃ slot, ip = leaseIp slot ∧ leases[slot]? = some ⟨true, .fromSlice x⟩
  declined : ∀ ip, Declined events ip → ∃ slot, ip = leaseIp slot ∧
    leases[slot]? = some ⟨true, .empty⟩

theorem Distinguished.ne {packet : List UInt8} (h : Distinguished (packet :: packets))
    (hrequest : isRequest packet = true)
    (hx : ∃ packet ∈ packets, isRequest packet = true ∧ identityOf packet = x)
    (hne : identityOf packet ≠ x) : ClientKey.fromSlice x ≠ .fromSlice (identityOf packet) := by
  obtain ⟨packet', hmem, hrequest', rfl⟩ := hx
  intro heq
  exact hne (h packet (List.mem_cons_self ..) packet' (List.mem_cons_of_mem _ hmem) hrequest
    hrequest'
    (fromSlice_eq.mp heq).symm)

theorem Agrees.step {packet : List UInt8} (h : Agrees packets events leases) (htable : Table leases)
    (hstep : Step leases (identityOf packet) e leases')
    (hrequest : e ≠ .other → isRequest packet = true)
    (hdistinguished : Distinguished (packet :: packets)) : Agrees (packet :: packets)
    (e :: events) leases' := by
  have hothers (he : e ≠ .other) (ip : Ipv4) (x : List UInt8) (hne : identityOf packet ≠ x)
      (hholds : Holds events ip x) :
      (∃ packet' ∈ packet :: packets, isRequest packet' = true ∧ identityOf packet' = x) ∧ x ≠ [] ∧
        ∃ slot, ip = leaseIp slot ∧ leases'[slot]? = some ⟨true, .fromSlice x⟩ := by
    obtain ⟨hknown, hx, slot, hip, hget⟩ := h.holds ip x hholds
    refine ⟨?_, hx, slot, hip, hstep.kept htable hget (hdistinguished.ne (hrequest he) hknown hne)⟩
    obtain ⟨packet', hmem, hidentity⟩ := hknown
    exact ⟨packet', List.mem_cons_of_mem _ hmem, hidentity⟩
  have hretired (hidentity : identityOf packet ≠ []) (ip : Ipv4) (hdeclined : Declined events ip) :
      ∃ slot, ip = leaseIp slot ∧ leases'[slot]? = some ⟨true, .empty⟩ := by
    obtain ⟨slot, hip, hget⟩ := h.declined ip hdeclined
    exact ⟨slot, hip, hstep.kept htable hget (fromSlice_ne_empty hidentity).symm⟩
  match e with
  | .other =>
    obtain rfl : leases = leases' := by
      cases hstep
      rfl
    refine ⟨fun ip x hholds => ?_, h.declined⟩
    obtain ⟨⟨packet', hmem, hidentity⟩, hx⟩ := h.holds ip x hholds
    exact ⟨⟨packet', List.mem_cons_of_mem _ hmem, hidentity⟩, hx⟩
  | .handed ip' x' =>
    obtain ⟨rfl, hidentity, slot, hip, hget, -⟩ := hstep.handed htable
    refine ⟨fun ip x hholds => ?_, hretired hidentity⟩
    rw [Holds] at hholds
    split at hholds
    next heq =>
      subst heq hholds
      exact ⟨⟨packet, List.mem_cons_self .., hrequest nofun, rfl⟩, hidentity, slot, hip, hget⟩
    next hne => exact hothers nofun ip x hne hholds
  | .released x' =>
    obtain ⟨rfl, hidentity⟩ := hstep.released_eq
    exact ⟨fun ip x hholds => hothers nofun ip x hholds.1 hholds.2, hretired hidentity⟩
  | .declined x' =>
    obtain ⟨rfl, hidentity⟩ := hstep.declined_eq
    refine ⟨fun ip x hholds => hothers nofun ip x hholds.1 hholds.2, fun ip hdeclined => ?_⟩
    rcases hdeclined with hholds | hdeclined
    · obtain ⟨-, -, slot, hip, hget⟩ := h.holds ip _ hholds
      exact ⟨slot, hip, hstep.declines htable hget⟩
    · exact hretired hidentity ip hdeclined

theorem Run.agrees (run : Run packets events leases) (h : Distinguished packets) :
    Agrees packets events leases := by
  induction run with
  | start => exact ⟨fun _ _ h => h.elim, fun _ h => h.elim⟩
  | step run hpacket hserve ih =>
    obtain ⟨leases₁, sent₁, hserve₁, hstep⟩ := serve_spec run.table.length hpacket
    obtain ⟨rfl, rfl⟩ := Prod.mk.inj (Except.ok.inj (hserve.symm.trans hserve₁))
    have hpackets : Distinguished _ := fun p hp p' hp' =>
      h p (List.mem_cons_of_mem _ hp) p' (List.mem_cons_of_mem _ hp')
    exact (ih hpackets).step run.table hstep (isRequest_of_event hserve) h

theorem Table.slot_lt (h : Table leases) {slot : Nat} {lease : Lease}
    (hget : leases[slot]? = some lease) :
    slot < dhcpLeaseCapacity := h.length ▸ (List.getElem?_eq_some_iff.mp hget).1

/-- What is handed is not held by anybody else, and was not declined. -/
theorem Agrees.handed {packet : List UInt8} {ip : Ipv4} (h : Agrees packets events leases)
    (htable : Table leases) (hstep : Step leases (identityOf packet) (.handed ip x) leases')
    (hrequest : isRequest packet = true) (hdistinguished : Distinguished (packet :: packets)) :
    (∀ x', Holds events ip x' → x' = x) ∧ ¬Declined events ip := by
  obtain ⟨rfl, hidentity, slot, hip, hget, hmine⟩ := hstep.handed htable
  have hslot {slot' : Nat} {client : ClientKey} (hip' : ip = leaseIp slot')
      (hget' : leases[slot']? = some ⟨true, client⟩) : client = .fromSlice (identityOf packet) := by
    have heq := leaseIp_injective (htable.slot_lt hget') ((hstep.table htable).slot_lt hget)
      (hip'.symm.trans hip)
    exact hmine client (heq ▸ hget')
  refine ⟨fun x' hholds => ?_, fun hdeclined => ?_⟩
  · obtain ⟨hknown, -, slot', hip', hget'⟩ := h.holds ip x' hholds
    by_contra hne
    exact hdistinguished.ne hrequest hknown (Ne.symm hne) (hslot hip' hget')
  · obtain ⟨slot', hip', hget'⟩ := h.declined ip hdeclined
    exact fromSlice_ne_empty hidentity (hslot hip' hget').symm

theorem Run.handed (run : Run packets events leases) (hdistinguished : Distinguished packets)
    {later earlier : List Event} {ip : Ipv4} (hevents : events = later ++ .handed ip x :: earlier) :
    (∀ x', Holds earlier ip x' → x' = x) ∧ ¬Declined earlier ip := by
  induction run generalizing later with
  | start =>
    cases later with
    | nil => cases hevents
    | cons => cases hevents
  | step run hpacket hserve ih =>
    have hpackets : Distinguished _ := fun p hp p' hp' =>
      hdistinguished p (List.mem_cons_of_mem _ hp) p' (List.mem_cons_of_mem _ hp')
    obtain ⟨leases₁, sent₁, hserve₁, hstep⟩ := serve_spec run.table.length hpacket
    obtain ⟨rfl, rfl⟩ := Prod.mk.inj (Except.ok.inj (hserve.symm.trans hserve₁))
    cases later with
    | nil =>
      rw [List.nil_append, List.cons.injEq] at hevents
      obtain ⟨hevent, rfl⟩ := hevents
      have hrequest := isRequest_of_event hserve (by rw [hevent]; exact nofun)
      rw [hevent] at hstep
      exact (run.agrees hpackets).handed run.table hstep hrequest hdistinguished
    | cons e later => exact ih hpackets (List.cons.inj hevents).2

theorem Run.range (run : Run packets events leases) {ip : Ipv4} (h : .handed ip x ∈ events) :
    ∃ slot < dhcpLeaseCapacity, ip = leaseIp slot := by
  induction run with
  | start => cases h
  | step run hpacket hserve ih =>
    obtain ⟨leases₁, sent₁, hserve₁, hstep⟩ := serve_spec run.table.length hpacket
    obtain ⟨rfl, rfl⟩ := Prod.mk.inj (Except.ok.inj (hserve.symm.trans hserve₁))
    rcases List.mem_cons.mp h with hevent | hmem
    · rw [← hevent] at hstep
      obtain ⟨-, -, slot, hip, hget, -⟩ := hstep.handed run.table
      exact ⟨slot, (hstep.table run.table).slot_lt hget, hip⟩
    · exact ih hmem

/-- No packet makes the server panic, and no two hosts own an address in a run whose identities the
keys tell apart: the first 16 bytes of different identities are different. -/
theorem leases_safe (run : Run packets events leases) :
    (∀ packet, packet.length ≤ dhcpPacketBuffer → ∃ leases' sent, serve leases packet =
      .ok (leases', sent)) ∧ (Distinguished packets → Safe events leases) := by
  refine ⟨fun packet hpacket => ?_, fun hdistinguished => ?_⟩
  · obtain ⟨leases', sent, hserve, -⟩ := serve_spec run.table.length hpacket
    exact ⟨leases', sent, hserve⟩
  · have hagrees := run.agrees hdistinguished
    exact {
      held := fun ip x hholds => (hagrees.holds ip x hholds).2.2
      single := by
        intro ip ip' x hholds hholds'
        obtain ⟨-, hx, slot, rfl, hget⟩ := hagrees.holds ip x hholds
        obtain ⟨-, -, slot', rfl, hget'⟩ := hagrees.holds ip' x hholds'
        rw [run.table.unique slot slot' _ (fromSlice_ne_empty hx) hget hget']
      leased := by
        intro x slot slot' lease lease' hx hget huse hmatch hget' huse' hmatch'
        exact run.table.unique slot slot' _ (fromSlice_ne_empty hx)
          ((run.table.matches_iff hget huse).mp hmatch)
          ((run.table.matches_iff hget' huse').mp hmatch')
      exclusive := fun later ip x earlier hevents => (run.handed hdistinguished hevents).1
      retired := fun later ip x earlier hevents => (run.handed hdistinguished hevents).2
      range := fun ip x hmem => run.range hmem }

/-! ### Two hosts -/

/-- The run over packets, of which the last comes first. -/
def replay : List (List UInt8) → Option (List Event × List Lease)
  | [] => some ([], initialLeases)
  | packet :: packets =>
    if packet.length ≤ dhcpPacketBuffer then
      match replay packets with
      | none => none
      | some (events, leases) =>
        match serve leases packet with
        | .ok (leases, sent) => some (event packet sent :: events, leases)
        | .error _ => none
    else none

theorem run_of_replay (h : replay packets = some (events, leases)) : Run packets events leases := by
  induction packets generalizing events leases with
  | nil =>
    obtain ⟨rfl, rfl⟩ := Prod.mk.inj (Option.some.inj h)
    exact .start
  | cons packet packets ih =>
    rw [replay] at h
    split at h
    next hpacket =>
      match hreplay : replay packets with
      | none =>
        rw [hreplay] at h
        cases h
      | some (events₁, leases₁) =>
        rw [hreplay] at h
        simp only at h
        match hserve : serve leases₁ packet with
        | .error _ =>
          rw [hserve] at h
          cases h
        | .ok (leases₂, sent) =>
          rw [hserve] at h
          obtain ⟨rfl, rfl⟩ := Prod.mk.inj (Option.some.inj h)
          exact .step (ih hreplay) hpacket hserve
    next => cases h

/-- A discover message with a client identifier. -/
def discover (identity : List UInt8) : List UInt8 :=
  [1, 1, 6, 0] ++ List.replicate 232 0 ++ dhcpMagicCookie.toList ++
    [optionMessageType, 1, dhcpDiscover, optionClientIdentifier, UInt8.ofNat identity.length] ++
      identity ++
    [optionEnd]

theorem leases_safe_discover : Safe [.handed (leaseIp 1) [1, 2], .handed (leaseIp 0) [1]]
      (⟨true, .fromSlice [1]⟩ :: ⟨true, .fromSlice [1, 2]⟩ :: List.replicate 17 .empty) :=
  (leases_safe (run_of_replay
    (show replay [discover [1, 2], discover [1]] =
      some ([.handed (leaseIp 1) [1, 2], .handed (leaseIp 0) [1]],
      ⟨true, .fromSlice [1]⟩ :: ⟨true, .fromSlice [1, 2]⟩ :: List.replicate 17 .empty) by
      decide +kernel))).2
    (by decide +kernel)

/-- Two hosts whose client identifiers differ in the last of 17 bytes are offered the same address.
-/
theorem leases_unsafe : ¬∀ packets events leases, Run packets events leases →
    Safe events leases := by
  intro h
  let a : List UInt8 := List.replicate 16 7 ++ [1]
  let b : List UInt8 := List.replicate 16 7 ++ [2]
  have hreplay : replay [discover b, discover a] =
    some ([.handed (leaseIp 0) b, .handed (leaseIp 0) a],
    ⟨true, .fromSlice a⟩ :: List.replicate 18 .empty) := by decide +kernel
  have hsafe := h _ _ _ (run_of_replay hreplay)
  have hab : a = b := hsafe.exclusive [] (leaseIp 0) b [.handed (leaseIp 0) a] rfl a rfl
  exact absurd hab (by decide)

end Microtun.Dhcp
