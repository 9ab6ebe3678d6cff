import Microtun.Core.Promises

/-! What a run says about initiations of unknown senders.  While the peer of such an initiation is
looked up, the newest one waits, however they arrive and however often. -/

namespace Microtun

open Function (update update_self update_of_ne)

/-- The initiation that queued the lookup `id`, and whether there was room for it. -/
def seeker (id : Nat) : List Event → Option (Noise.ConsumedInitiation × Bool)
  | [] => none
  | .sought id' consumed room :: rest => if id' = id then some (consumed, room) else seeker id rest
  | _ :: rest => seeker id rest

/-- The initiations of a sender that were authenticated since the lookup `id` was queued, latest
first, each with whether the sender was an installed peer then. The last one queued the lookup. -/
def authenticatedSince (id : Nat) (key : Key) : List Event → List (Noise.ConsumedInitiation × Bool)
  | [] => []
  | .sought id' consumed _ :: rest =>
    if id' = id then [(consumed, false)] else authenticatedSince id key rest
  | .authenticated consumed known :: rest =>
    if consumed.sPubI = key then (consumed, known) :: authenticatedSince id key rest
    else authenticatedSince id key rest
  | _ :: rest => authenticatedSince id key rest

/-- The initiation is one of an unknown sender, and none of these is newer. -/
structure Newest (l : List (Noise.ConsumedInitiation × Bool))
    (consumed : Noise.ConsumedInitiation) :
    Prop where
  mem : (consumed, false) ∈ l
  upper : ∀ x, (x, false) ∈ l → x.timestamp.toList ≤ consumed.timestamp.toList

namespace Newest

variable {l l' : List (Noise.ConsumedInitiation × Bool)} {x y : Noise.ConsumedInitiation}

theorem single (x : Noise.ConsumedInitiation) : Newest [(x, false)] x := by
  refine ⟨List.mem_singleton.mpr rfl, fun y hy => ?_⟩
  obtain rfl : y = x := congrArg Prod.fst (List.mem_singleton.mp hy)
  exact List.le_refl _

theorem newer (h : Newest l x) (hlt : x.timestamp.toList < y.timestamp.toList) :
    Newest ((y, false) :: l) y := by
  refine ⟨List.mem_cons_self .., fun z hz => ?_⟩
  rcases List.mem_cons.mp hz with heq | hz
  · obtain rfl : z = y := congrArg Prod.fst heq
    exact List.le_refl _
  · exact List.le_trans (h.upper z hz) (List.le_of_lt hlt)

theorem older (h : Newest l x) (hle : y.timestamp.toList ≤ x.timestamp.toList) :
    Newest ((y, false) :: l) x := by
  refine ⟨List.mem_cons_of_mem _ h.mem, fun z hz => ?_⟩
  rcases List.mem_cons.mp hz with heq | hz
  · obtain rfl : z = y := congrArg Prod.fst heq
    exact hle
  · exact h.upper z hz

theorem congr (h : Newest l x) (hmem : ∀ y, (y, false) ∈ l ↔ (y, false) ∈ l') : Newest l' x :=
  ⟨(hmem x).mp h.mem, fun y hy => h.upper y ((hmem y).mpr hy)⟩

end Newest

/-! ### Marks about lookups -/

theorem seeker_filter (id : Nat) (log : List Event) :
    seeker id (log.filter fun e => e.topic = .lookup) = seeker id log := by
  induction log with
  | nil => rfl
  | cons e rest ih =>
    cases e with
    | sought id' consumed room =>
      change seeker id (.sought id' consumed room :: rest.filter _) = _
      simp only [seeker, ih]
    | resolve request taken => cases taken <;> exact ih
    | authenticated consumed known => cases known <;> exact ih
    | _ => exact ih

theorem authenticatedSince_filter (id : Nat) (key : Key) (log : List Event)
    (x : Noise.ConsumedInitiation) :
    (x, false) ∈ authenticatedSince id key (log.filter fun e => e.topic = .lookup) ↔
      (x, false) ∈ authenticatedSince id key log := by
  induction log with
  | nil => exact Iff.rfl
  | cons e rest ih =>
    cases e with
    | sought id' consumed room =>
      change _ ∈ authenticatedSince id key (.sought id' consumed room :: rest.filter _) ↔ _
      simp only [authenticatedSince]
      split
      · exact Iff.rfl
      · exact ih
    | resolve request taken => cases taken <;> exact ih
    | authenticated consumed known =>
      cases known with
      | true =>
        change _ ∈ authenticatedSince id key (rest.filter _) ↔ _
        rw [ih, authenticatedSince]
        split
        · rw [List.mem_cons]
          constructor
          · exact Or.inr
          · exact fun h => h.resolve_left fun heq => Bool.noConfusion (congrArg Prod.snd heq)
        · exact Iff.rfl
      | false =>
        change _ ∈ authenticatedSince id key (.authenticated consumed false :: rest.filter _) ↔ _
        simp only [authenticatedSince]
        split
        · rw [List.mem_cons, List.mem_cons, ih]
        · exact ih
    | _ => exact ih

/-- What waits for another lookup is not touched when an initiation is parked. -/
theorem Parked.keeps {initiations initiations' : Nat → Option PendingInitiation}
    {e x : PendingInitiation} {n : Nat} (h : Parked initiations e initiations')
    (hx : initiations n = some x) (hne : x.resolveId ≠ e.resolveId) : initiations' n = some x := by
  cases h with
  | @newer i y hy hid _ =>
    have hni : n ≠ i := by
      rintro rfl
      obtain rfl : x = y := Option.some.inj (hx.symm.trans hy)
      exact hne hid
    rw [update_of_ne hni]
    exact hx
  | @spare i hi _ =>
    have hni : n ≠ i := by
      rintro rfl
      rw [hi] at hx
      cases hx
    rw [update_of_ne hni]
    exact hx
  | older | full => exact hx

namespace Tables

variable {cap : Capacities} {t t' : Tables cap} {now : Nat} {scope : Scope}

/-- The lookup was queued by an initiation of the sender it is about. If there was room for that
one, the newest that was authenticated since waits. -/
def Awaited (t : Tables cap) (r : InflightResolve) : Prop :=
  ∃ first room, seeker r.id t.diary = some (first, room) ∧ r.query = .byPublicKey first.sPubI ∧
    (room = true → ∃ n e, t.initiations n = some e ∧ e.resolveId = r.id ∧
      Newest (authenticatedSince r.id first.sPubI t.diary) e.consumed)

/-- Every lookup that an initiation queued is awaited. -/
def Waiting (t : Tables cap) : Prop :=
  ∀ r ∈ t.lookups, r.kind = .install .authenticatedInitiator → t.Awaited r

theorem Awaited.keep {r r' : InflightResolve} (h : t.Awaited r) (hid : r'.id = r.id)
    (hquery : r'.query = r.query)
    (hinit : ∀ n e, t.initiations n = some e → e.resolveId = r.id → t'.initiations n = some e)
    (hseeker : seeker r.id t'.diary = seeker r.id t.diary)
    (hsince : ∀ key, r.query = .byPublicKey key →
      authenticatedSince r.id key t'.diary = authenticatedSince r.id key t.diary) :
        t'.Awaited r' := by
  obtain ⟨first, room, hfirst, hkey, hnewest⟩ := h
  refine ⟨first, room, ?_, hquery.trans hkey, fun hroom => ?_⟩
  · rw [hid, hseeker]
    exact hfirst
  · obtain ⟨n, e, he, heid, hmost⟩ := hnewest hroom
    rw [hid, hsince _ hkey]
    exact ⟨n, e, hinit n e he heid, heid, hmost⟩

theorem Waiting.shrink (h : Waiting t) (hle : t'.lookups ≤ t.lookups)
    (hinit : ∀ r ∈ t'.lookups, ∀ n e, t.initiations n = some e → e.resolveId = r.id →
      t'.initiations n = some e)
    (hseeker : ∀ id, seeker id t'.diary = seeker id t.diary)
    (hsince : ∀ id key, authenticatedSince id key t'.diary = authenticatedSince id key t.diary) :
    Waiting t' := fun r hr hkind =>
  (h r (Multiset.mem_of_le hle hr) hkind).keep rfl rfl (hinit r hr) (hseeker _) fun key _ =>
    hsince _ key

theorem Waiting.add (h : Waiting t) {r : InflightResolve}
    (hkind : r.kind ≠ .install .authenticatedInitiator) :
    Waiting (t.withLookups (r ::ₘ t.lookups)) := by
  intro x hx hxkind
  rcases Multiset.mem_cons.mp hx with rfl | hx
  · exact absurd hxkind hkind
  · exact h x hx hxkind

/-- The identifier of a lookup that goes is not that of one that stays. -/
theorem Desk.id_ne (h : Desk t) {r x : InflightResolve} {rest : Multiset InflightResolve}
    (hl : t.lookups = r ::ₘ rest) (hx : x ∈ rest) : x.id ≠ r.id := by
  have hids := h.ids
  rw [hl, Multiset.map_cons, Multiset.nodup_cons] at hids
  exact fun heq => hids.1 (Multiset.mem_map.mpr ⟨x, hx, heq⟩)

variable {r : InflightResolve} {e : PendingInitiation}
  {initiations : Nat → Option PendingInitiation} {room : Bool}

/-- The lookup of an unknown sender is queued, and its initiation waits if there is room. -/
theorem Waiting.seek (h : Waiting t) (hkind : r.kind = .install .authenticatedInitiator)
    (hkey : r.query = .byPublicKey e.consumed.sPubI) (hid : ∀ x ∈ t.lookups, x.id ≠ r.id)
    (hown : e.resolveId = r.id) (hpark : Parked t.initiations e initiations)
    (hroom : room = true → ∃ n, initiations n = some e) :
    Waiting ({ t.withLookups (r ::ₘ t.lookups) with initiations }.enter
      (.sought r.id e.consumed room)) := by
  intro x hx hxkind
  rcases Multiset.mem_cons.mp hx with rfl | hx
  · refine ⟨e.consumed, room, ?_, hkey, fun h => ?_⟩
    · exact if_pos rfl
    · obtain ⟨n, hn⟩ := hroom h
      refine ⟨n, e, hn, hown, ?_⟩
      change Newest (if x.id = x.id then _ else _) _
      rw [if_pos rfl]
      exact Newest.single e.consumed
  · have hne := Ne.symm (hid x hx)
    refine (h x hx hxkind).keep rfl rfl (fun n y hy hyid => hpark.keeps hy ?_) ?_ fun key _ => ?_
    · rw [hyid, hown]
      exact hid x hx
    · exact if_neg hne
    · exact if_neg hne

/-- An initiation of an unknown sender is authenticated, and waits if it is the newest. -/
theorem Waiting.hold (h : Waiting t) (hdesk : Desk t) (hr : r ∈ t.lookups)
    (hid : r.id = e.resolveId) (hkind : r.kind = .install .authenticatedInitiator)
    (hquery : r.query = .byPublicKey e.consumed.sPubI)
    (hpark : Parked t.initiations e initiations) :
    Waiting ({ t with initiations }.enter (.authenticated e.consumed false)) := by
  intro x hx hxkind
  by_cases hxr : x = r
  · subst hxr
    obtain ⟨first, room, hfirst, hkey, hnewest⟩ := h x hx hxkind
    have hsender : e.consumed.sPubI = first.sPubI :=
      ResolveQuery.byPublicKey.inj (hquery.symm.trans hkey)
    refine ⟨first, room, hfirst, hkey, fun hroom => ?_⟩
    obtain ⟨n, y, hy, hyid, hmost⟩ := hnewest hroom
    change ∃ n z, initiations n = some z ∧ z.resolveId = x.id ∧
      Newest (if e.consumed.sPubI = first.sPubI then _ else _) z.consumed
    rw [if_pos hsender]
    have hown : y.resolveId = e.resolveId := hyid.trans hid
    -- The initiation that waits is the one that the new one is compared with.
    cases hpark with
    | @newer i z hz hzid hlater =>
      obtain rfl := hdesk.slots i n z y hz hy (hzid.trans hown.symm)
      obtain rfl : z = y := Option.some.inj (hz.symm.trans hy)
      exact ⟨i, e, update_self .., hid.symm, hmost.newer hlater⟩
    | @older i z hz hzid hearlier =>
      obtain rfl := hdesk.slots i n z y hz hy (hzid.trans hown.symm)
      obtain rfl : z = y := Option.some.inj (hz.symm.trans hy)
      exact ⟨i, z, hz, hyid, hmost.older hearlier⟩
    | spare _ hnone => exact absurd hown (hnone n y hy)
    | full hnone => exact absurd hown (hnone n y hy)
  · refine (h x hx hxkind).keep rfl rfl (fun n y hy hyid => hpark.keeps hy ?_) rfl fun key hkey =>
      ?_
    · rw [hyid, ← hid]
      exact fun heq => hxr (hdesk.unique hx hr heq)
    · refine if_neg fun hsender => hxr ?_
      refine hdesk.only hx hr (live_of_kind hxkind) (live_of_kind hkind) ?_
      rw [hkey, hquery, hsender]

variable [Crypto]

theorem Waiting.step (h : Waiting t) (hdesk : Desk t) (hstep : Step now scope t t') :
    Waiting t' := by
  cases hstep with
  | ask _ _ hkind _ _ _ _ _ => exact h.add hkind
  | deny hneg _ _ _ _ _ =>
    refine h.add fun hkind => ?_
    rw [live_of_kind hkind] at hneg
    cases hneg
  | forget hle _ => exact h.shrink hle (fun _ _ _ _ he _ => he) (fun _ => rfl) fun _ _ => rfl
  | @close _ x rest _ _ hl _ _ _ =>
    refine h.shrink (hl ▸ Multiset.le_cons_self _ _) (fun r hr n e he hid => ?_) (fun _ => rfl)
      fun _ _ => rfl
    change (if x.kind = .install .authenticatedInitiator then (t.letGo x.id).initiations
      else t.initiations) n = some e
    split
    · refine Option.filter_eq_some_iff.mpr ⟨he, ?_⟩
      rw [hid]
      simpa using hdesk.id_ne hl hr
    · exact he
  | strand hl _ _ =>
    exact h.shrink (hl ▸ Multiset.le_cons_self _ _) (fun _ _ _ _ he _ => he) (fun _ => rfl)
      fun _ _ => rfl
  | identify hnone =>
    intro x hx hxkind
    refine (h x hx hxkind).keep rfl rfl (fun _ _ he _ => he) rfl fun key hkey =>
      if_neg fun hsender => ?_
    have hdead := hnone x hx (hkey.trans (congrArg _ hsender.symm))
    rw [live_of_kind hxkind] at hdead
    cases hdead
  | seek hkind _ hkey hid _ _ _ hown hpark hroom => exact h.seek hkind hkey hid hown hpark hroom
  | hold hr hid hkind hquery hpark => exact h.hold hdesk hr hid hkind hquery hpark
  | @offer _ r rest hl _ =>
    intro x hx hxkind
    have hmem : ∀ y ∈ rest, y ∈ t.lookups := fun y hy => hl ▸ Multiset.mem_cons_of_mem hy
    rcases Multiset.mem_cons.mp hx with rfl | hx
    · exact (h r (hl ▸ Multiset.mem_cons_self r rest) hxkind).keep rfl rfl (fun _ _ he _ => he) rfl
        fun _ _ => rfl
    · exact (h x (hmem x hx) hxkind).keep rfl rfl (fun _ _ he _ => he) rfl fun _ _ => rfl
  | _ => exact h

end Tables

end Microtun
