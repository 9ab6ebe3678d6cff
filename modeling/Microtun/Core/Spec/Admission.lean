import Microtun.Core.Spec.Eviction

/-! What admitting and refreshing a peer does to the tables. -/

namespace Microtun

open Hoare Tables
open Function (update update_self update_of_ne)

variable {cap : Capacities} {R P : Type} {w : World cap R P} {c : Core cap R P} {now : Nat}

/-! ### Making room -/

/-- May the peer be removed to make room?  It is a dynamic peer without slots that was idle for long
enough. -/
def Core.Expendable (now : Nat) (c : Core cap R P) (e : PeerEntry) : Prop :=
  e.isPinned = false ∧ e.sessions.slots = [none, none, none, none] ∧
    c.coreConfig.dynamicPeerMinIdle ≤ saturatingSince now e.lastActivity

theorem slots_none {ps : PeerSessions} (h : ps.slots.all Option.isNone = true) :
    ps.slots = [none, none, none, none] := by
  simp only [PeerSessions.slots, List.all_cons, List.all_nil, Bool.and_true, Bool.and_eq_true,
    Option.isNone_iff_eq_none] at h ⊢
  obtain ⟨h1, h2, h3, h4⟩ := h
  rw [h1, h2, h3, h4]

/-- A capacity victim is a peer that may go and is not excluded, with enough routes. -/
theorem capacityVictimExcluding_some {i n : Nat} {exclude : Option Nat}
    (h : c.capacityVictimExcluding now exclude n = some i) :
    ∃ e, c.peer i = some e ∧ c.Expendable now e ∧ some i ≠ exclude ∧
      n ≤ c.routes.peerRouteCount i := by
  obtain ⟨x, hx, rfl⟩ := Option.map_eq_some_iff.mp h
  obtain ⟨⟨o, j⟩, hmem, hval⟩ := List.mem_filterMap.mp (minByKey_spec hx).1
  have hget := List.mem_zipIdx_iff_getElem?.mp hmem
  cases o with
  | none => cases hval
  | some e =>
    dsimp only at hval
    split at hval
    · rename_i hcond
      obtain ⟨hne, hpin, hslots, hidle, hroutes⟩ := hcond
      cases hval
      refine ⟨e, ?_, ⟨by simpa using hpin, slots_none hslots, hidle⟩, hne, hroutes⟩
      rw [Vector.getElem?_toList] at hget
      exact Option.join_eq_some_iff.mpr hget
    · cases hval

theorem entry_of_peerRouteCount {n : Nat} {routes : RouteCache n} {p : Nat}
    (h : routes.peerRouteCount p ≠ 0) : ∃ i e, routes.entry i = some e ∧ e.peer = p := by
  obtain ⟨e, he⟩ := List.exists_mem_of_length_pos (Nat.pos_of_ne_zero h)
  obtain ⟨hmem, hp⟩ := List.mem_filter.mp he
  obtain ⟨i, hi⟩ := List.mem_iff_getElem?.mp (List.reduceOption_mem_iff.mp hmem)
  exact ⟨i, e, RouteCache.entry_eq_some.mpr hi, by simpa using hp⟩

/-- A slot of the route cache is free, or the peer's own. -/
def Room (routes : RouteCache cap.maxRoutes) (p : Nat) : Prop :=
  ∃ i, i < cap.maxRoutes ∧ (routes.entry i).all fun e => e.peer = p

theorem room_of_available {routes : RouteCache cap.maxRoutes} {m : PrefixTrie.Map Nat} {p : Nat}
    (hcon : RouteCache.Consistent cap.backend routes m)
    (h : routes.availableSlots + routes.peerRouteCount p ≠ 0) : Room routes p := by
  by_cases hown : routes.peerRouteCount p = 0
  · have hlen := hcon.len
    have hlt : routes.occupied.card < cap.maxRoutes := by
      unfold RouteCache.availableSlots at h
      omega
    by_contra hfull
    have hall : ∀ i, i < cap.maxRoutes → i ∈ routes.occupied := by
      intro i hi
      refine RouteCache.mem_occupied.mpr fun hnone => hfull ⟨i, hi, ?_⟩
      rw [hnone]
      rfl
    have hcard := Finset.card_le_card (s := Finset.range cap.maxRoutes) fun i hi =>
      hall i (Finset.mem_range.mp hi)
    rw [Finset.card_range] at hcard
    omega
  · obtain ⟨i, e, he, hp⟩ := entry_of_peerRouteCount hown
    exact ⟨i, RouteCache.lt_of_entry he, by rw [he]; simpa using hp⟩

variable [Crypto]

/-- Nothing changed, but for the budget. -/
structure Tables.Spent (now : Nat) (t t' : Tables cap) : Prop where
  steps : Steps now .admin t t'
  same : t' = { t with budget := t'.budget }

theorem Tables.Spent.refl (t : Tables cap) : Tables.Spent now t t := ⟨Steps.refl t, rfl⟩

theorem Tables.Spent.owed {t t' : Tables cap} (h : Tables.Spent now t t') : t'.owed = t.owed := by
  rw [h.same]

theorem Tables.Spent.peer {t t' : Tables cap} (h : Tables.Spent now t t') : t'.peer = t.peer := by
  rw [h.same]

theorem Tables.Spent.released {t t' : Tables cap} (h : Tables.Spent now t t') :
    t'.released = t.released := by
  rw [h.same]

theorem spent_takeEviction (h : (w.core.takeEviction now).1 = false) :
    Tables.Spent now w.tables (w.withCore (w.core.takeEviction now).2).tables := by
  have hrefused : w.tables.budget.tryTake now =
      (false, (w.core.takeEviction now).2.peerEvictions) :=
    Prod.ext h rfl
  exact ⟨(Step.refuse hrefused).steps, rfl⟩

/-- Charging the budget for a peer that may go, and removing the peer. -/
theorem evictPeerAndRemember_spec (hI : w.tables.Inv) {p : Nat} {e : PeerEntry}
    (he : w.core.peer p = some e) (hvictim : w.core.Expendable now e)
    (hbudget : (w.core.takeEviction now).1 = true) :
    wpx (evictPeerAndRemember p now : CoreE cap R P Unit) (fun r w' => r = .ok () ∧
      Steps now .admin w.tables w'.tables ∧ Removed w.tables w'.tables p e.member)
      (w.withCore (w.core.takeEviction now).2) := by
  obtain ⟨hpinned, hslots, hidle⟩ := hvictim
  unfold evictPeerAndRemember
  have he' : (w.core.takeEviction now).2.peer p = some e := he
  simp only [wpx_bind, wpx_getCore, then_ok, he', wpx_emit]
  generalize hw0 : (⟨(w.core.takeEviction now).2, .displaced e now :: w.log, w.established⟩ :
    World cap R P) = w0
  have htaken : w.tables.budget.tryTake now = (true, (w.core.takeEviction now).2.peerEvictions) :=
    Prod.ext hbudget rfl
  have hcharge : Steps now .admin w.tables w0.tables := by
    rw [← hw0]
    exact (Step.displace htaken (tables_peer he) hpinned hslots rfl rfl rfl hidle).steps
  have hpeer0 : w0.core.peer p = some e := by
    rw [← hw0]
    exact he
  refine wpx_mono (evictPeer_spec (hcharge.inv hI) hpeer0 hpinned now) ?_
  rintro _ w1 ⟨rfl, h1, -, hgone⟩
  simp only [then_ok, wpx_modifyCore]
  have hsame : World.tables ⟨w1.core.rememberEvictedPeer e.publicKey now, w1.log, w1.established⟩ =
      w1.tables := by
    unfold Core.rememberEvictedPeer
    split <;> rfl
  rw [hsame]
  refine ⟨trivial, hcharge.trans h1, ?_⟩
  rw [← hw0] at hgone
  exact ⟨hgone.peer, hgone.find, hgone.entry, hgone.released⟩

/-- The errors of an admission that the budget or the table refuses. -/
def Error.Refusal (e : Error) : Prop := e = .routeCacheFull ∨ e = .peerAdmissionLimited

/-- Making room for a route of a peer: nothing changes, or another peer goes. -/
theorem makeRouteRoom_spec (hI : w.tables.Inv) (p now : Nat) (allowPeerEviction : Bool) :
    wpx (makeRouteRoom p now allowPeerEviction : CoreE cap R P Unit) (fun r w' =>
      (∃ e, r = .error e ∧ e.Refusal ∧ Spent now w.tables w'.tables) ∨
      (r = .ok () ∧ Steps now .admin w.tables w'.tables ∧ Room w'.tables.routes p ∧
        (w'.tables = w.tables ∨ ∃ q m, q ≠ p ∧ w.tables.peer q = some m ∧
          Removed w.tables w'.tables q m))) w := by
  unfold makeRouteRoom
  simp only [wpx_bind, wpx_getCore, then_ok]
  obtain ⟨m, hcon, -⟩ := hI.registry.sound
  by_cases havail : w.core.routes.availableSlots + w.core.routes.peerRouteCount p ≠ 0
  · rw [if_pos havail, wpx_pure]
    exact Or.inr ⟨rfl, Steps.refl _, room_of_available hcon havail, Or.inl rfl⟩
  rw [if_neg havail]
  cases allowPeerEviction with
  | false => exact wpx_throw.mpr (Or.inl ⟨_, rfl, Or.inl rfl, Spent.refl _⟩)
  | true =>
    simp only [Bool.not_true, Bool.false_eq_true, if_false]
    cases hvictim : w.core.capacityVictimExcluding now (some p) 1 with
    | none => exact wpx_throw.mpr (Or.inl ⟨_, rfl, Or.inl rfl, Spent.refl _⟩)
    | some q =>
      obtain ⟨e, he, hgo, hne, hroutes⟩ := capacityVictimExcluding_some hvictim
      simp only [wpx_bind, wpx_updateCore, then_ok]
      by_cases hbudget : (w.core.takeEviction now).1 = true
      · simp only [hbudget, Bool.not_true, Bool.false_eq_true, if_false]
        refine wpx_mono (evictPeerAndRemember_spec hI he hgo hbudget) ?_
        rintro _ w1 ⟨rfl, h1, hgone⟩
        refine Or.inr ⟨rfl, h1, ?_, Or.inr ⟨q, e.member, fun h => hne (by rw [h]),
          tables_peer he, hgone⟩⟩
        obtain ⟨i, x, hx, hxp⟩ := @entry_of_peerRouteCount _ w.core.routes q (by omega)
        refine ⟨i, RouteCache.lt_of_entry hx, ?_⟩
        have hentry := hgone.entry i
        rw [show w.tables.routes.entry i = some x from hx, Option.filter_some,
          if_neg (by simpa using hxp)] at hentry
        rw [hentry]
        rfl
      · rw [Bool.not_eq_true] at hbudget
        simp only [hbudget, Bool.not_false, if_true]
        exact wpx_throw.mpr (Or.inl ⟨_, rfl, Or.inr rfl, spent_takeEviction hbudget⟩)

/-- Moving the route of a dynamic peer: nothing changes, or the peer has the one route, and at most
one other peer is gone. -/
theorem replaceDynamicRoute_spec (hI : w.tables.Inv) {p : Nat} {e : PeerEntry}
    (he : w.core.peer p = some e) (hpinned : e.isPinned = false) (address : IpCidr) (now : Nat)
    (allowPeerEviction : Bool) :
    wpx (replaceDynamicRoute p address now allowPeerEviction : CoreE cap R P Unit) (fun r w' =>
      (∃ e, r = .error e ∧ e.Refusal ∧ Spent now w.tables w'.tables) ∨
      (r = .ok () ∧ Steps now .admin w.tables w'.tables ∧ ¬w'.tables.Unrouted p ∧
        w'.tables.peer p = some { e.member with address })) w := by
  unfold replaceDynamicRoute
  refine wpx_seq (makeRouteRoom_spec hI p now allowPeerEviction) ?_ ?_
  · rintro _ w1 (h | ⟨h, -⟩)
    · exact Or.inl h
    · cases h
  rintro _ w1 (⟨_, h, -⟩ | ⟨-, h1, ⟨i, hi, hroom⟩, hgone⟩)
  · cases h
  have hI1 := h1.inv hI
  have hm1 : w1.tables.peer p = some e.member := by
    rcases hgone with hsame | ⟨q, m, hqp, -, hremoved⟩
    · rw [hsame]
      exact tables_peer he
    · rw [hremoved.peer, update_of_ne (Ne.symm hqp)]
      exact tables_peer he
  obtain ⟨e1, he1, hmember⟩ := peer_of_tables hm1
  obtain ⟨routes, hremove, hsound, hentry⟩ := hI1.registry.sound.removePeer p
  have hfree : routes.entry i = none := by
    rw [hentry i]
    cases hx : w1.tables.routes.entry i with
    | none => rfl
    | some x =>
      rw [hx] at hroom
      simpa using hroom
  simp only [wpx_bind]
  refine wpx_tryRoutes (show _ = Except.ok (Except.ok (), routes) from hremove) ?_
  simp only [then_ok, wpx_bind]
  have hown : ∀ j x, routes.entry j = some x → x.peer ≠ p := by
    intro j x hx
    rw [hentry j, Option.filter_eq_some_iff] at hx
    simpa using hx.2
  obtain ⟨j, routes', hins, hsound', hnone, hentry'⟩ := hsound.insert false now hown
    ⟨i, hi, hfree⟩ (by rintro ⟨⟩)
  refine wpx_tryRoutes (show _ = Except.ok (Except.ok (), routes') from hins) ?_
  simp only [then_ok, wpx_tryCore, show Core.peer { w1.core with routes := routes' } p =
    some e1 from he1]
  generalize hentry₂ : (⟨address, p, false, now, routes.nextInsertionOrder⟩ : Entry) = x at hentry'
  have htables : World.tables ⟨Core.setPeer { w1.core with routes := routes' } p
      (some { e1 with address }), w1.log, w1.established⟩ =
      { w1.tables.setPeer p { e.member with address := x.cidr } with routes := routes' } := by
    rw [tables_setPeer (Core.lt_of_peer he1), ← hmember, ← hentry₂]
    rfl
  rw [htables]
  have hslots : ∀ k, routes'.entry k =
      update (fun k => (w1.tables.routes.entry k).filter fun e => e.peer ≠ p) j (some x) k := by
    intro k
    rw [hentry', funext hentry]
  have hstep : Step now .admin w1.tables
      { w1.tables.setPeer p { e.member with address := x.cidr } with routes := routes' } := by
    refine Step.route hm1 hsound' hslots ?_ (by rw [← hentry₂])
      (by rw [← hentry₂]; exact hpinned.symm) ?_
    · rw [hentry j, Option.filter_eq_none_iff] at hnone
      cases hy : w1.tables.routes.entry j with
      | none => rfl
      | some y => simpa using hnone y hy
    · intro hpin
      rw [show e.member.pinned = e.isPinned from rfl, hpinned] at hpin
      cases hpin
  refine Or.inr ⟨trivial, h1.trans hstep.steps, fun hun => ?_, ?_⟩
  · refine hun.2 j x ?_ (by rw [← hentry₂])
    rw [show ({ w1.tables.setPeer p { e.member with address := x.cidr } with
      routes := routes' } : Tables cap).routes.entry j = routes'.entry j from rfl, hentry',
        update_self]
  · rw [← hentry₂]
    exact update_self ..

/-! ### Admission -/

/-- A free place in the table leaves room in the map of keys. -/
theorem keys_lt (hI : w.tables.Inv) {p : Nat} (hp : p < cap.maxPeers)
    (hfree : w.core.peer p = none) : w.core.peersByPublicKey.entries.length < cap.maxPeers := by
  have hlen : w.core.peersByPublicKey.entries.length =
      w.core.peersByPublicKey.keys.toFinset.card := by
    rw [List.toFinset_card_of_nodup w.core.peersByPublicKey.keys_nodup, AList.keys, List.keys,
      List.length_map]
  have hat : ∀ key ∈ w.core.peersByPublicKey.keys, ∃ q, w.core.findPeer key = some q := by
    intro key hkey
    exact Option.ne_none_iff_exists'.mp fun hnone => AList.lookup_eq_none.mp hnone hkey
  have hinj : w.core.peersByPublicKey.keys.toFinset.card ≤
      ((Finset.range cap.maxPeers).erase p).card := by
    refine Finset.card_le_card_of_injOn (fun key => (w.core.findPeer key).getD 0) ?_ ?_
    · intro key hkey
      obtain ⟨q, hq⟩ := hat key (List.mem_toFinset.mp hkey)
      obtain ⟨m, hm, -⟩ := (hI.registry.find key q).mp hq
      obtain ⟨e, he, -⟩ := peer_of_tables hm
      have hqp : q ≠ p := by
        rintro rfl
        rw [hfree] at he
        cases he
      simp only [hq, Option.getD_some]
      exact Finset.mem_coe.mpr
        (Finset.mem_erase.mpr ⟨hqp, Finset.mem_range.mpr (Core.lt_of_peer he)⟩)
    · intro key hkey key' hkey' heq
      obtain ⟨q, hq⟩ := hat key (List.mem_toFinset.mp hkey)
      obtain ⟨q', hq'⟩ := hat key' (List.mem_toFinset.mp hkey')
      simp only [hq, hq', Option.getD_some] at heq
      obtain ⟨m, hm, hk⟩ := (hI.registry.find key q).mp hq
      obtain ⟨m', hm', hk'⟩ := (hI.registry.find key' q').mp hq'
      rw [heq] at hm
      obtain rfl : m = m' := Option.some.inj (hm.symm.trans hm')
      exact hk.symm.trans hk'
  rw [Finset.card_erase_of_mem (Finset.mem_range.mpr hp), Finset.card_range] at hinj
  omega

omit [Crypto] in
theorem tables_installPeer {log : List Event} {n p : Nat} {e : PeerEntry} (hp : p < cap.maxPeers) :
    World.tables ⟨Core.setPeer { c with
      peersByPublicKey := c.peersByPublicKey.insert e.publicKey p } p (some e), log, n⟩ =
      { (World.tables ⟨c, log, n⟩).setPeer p e.member with
        find := update (World.tables ⟨c, log, n⟩).find e.publicKey (some p) } := by
  have hfind : Core.findPeer
      { c with peersByPublicKey := c.peersByPublicKey.insert e.publicKey p } =
      update c.findPeer e.publicKey (some p) := by
    funext k
    show (c.peersByPublicKey.insert e.publicKey p).lookup k = _
    by_cases hk : k = e.publicKey
    · rw [hk, update_self]
      exact AList.lookup_insert _
    · rw [update_of_ne hk]
      exact AList.lookup_insert_ne hk
  rw [tables_setPeer hp]
  show ({ World.tables ⟨c, log, n⟩ with find := Core.findPeer { c with
    peersByPublicKey := c.peersByPublicKey.insert e.publicKey p } } : Tables cap).setPeer p _ = _
  rw [hfind]
  rfl

theorem installPeer_spec (hI : w.tables.Inv) {p : Nat} (hp : p < cap.maxPeers)
    (hfree : w.core.peer p = none) {key : Key} (hkey : w.core.findPeer key = none) (kind : PeerKind)
    (shared : Key) (endpoint : Option SocketAddr) (relay : Option Key) (policy : InboundPolicy)
    (keepalive : Option Nat) (address : IpCidr) (now : Nat) :
    wpx (installPeer p (.new key kind shared endpoint relay policy keepalive address now) :
      CoreE cap R P Unit) (fun r w' => r = .ok () ∧ Steps now .install w.tables w'.tables ∧
        w'.tables.peer = update w.tables.peer p (some (PeerEntry.new key kind shared endpoint relay
          policy keepalive address now).member) ∧
        w'.tables.find = update w.tables.find key (some p) ∧
        w'.tables.routes = w.tables.routes ∧ w'.tables.released = w.tables.released) w := by
  generalize he : PeerEntry.new key kind shared endpoint relay policy keepalive address now = e
  have hek : e.publicKey = key := by rw [← he]; rfl
  have hinstall : Core.installPeer p e w.core = (.ok (), (Core.setPeer { w.core with
      peersByPublicKey := w.core.peersByPublicKey.insert e.publicKey p } p (some e)).armSome
        e.sessions.persistentKeepaliveDue) := by
    have hcond : ¬(cap.maxPeers ≤ p ∨ (w.core.peer p).isSome = true ∨
        (w.core.findPeer e.publicKey).isSome = true) := by
      rw [hfree, hek, hkey]
      simpa using hp
    have hroom : ¬(cap.backend = .inline ∧
        cap.maxPeers ≤ w.core.peersByPublicKey.entries.length) :=
      fun h => Nat.not_le.mpr (keys_lt hI hp hfree) h.2
    unfold Core.installPeer
    rw [if_neg hcond, if_neg hroom]
  unfold installPeer
  simp only [wpx_bind, wpx_tryCore, hinstall, then_ok, wpx_emit]
  rw [tables_note rfl, tables_armSome, tables_installPeer hp]
  generalize hdue : e.sessions.persistentKeepaliveDue = due
  have hpeer : (w.tables.armSome due).peer p = none := by
    rw [show (w.tables.armSome due).peer = w.tables.peer by cases due <;> rfl]
    exact tables_peer_none hfree
  have hfind : (w.tables.armSome due).find e.member.key = none := by
    rw [show (w.tables.armSome due).find = w.tables.find by cases due <;> rfl,
      show e.member.key = key from hek]
    exact hkey
  have hinterval : e.member.interval ≠ some 0 := by
    rw [← he]
    intro hzero
    simpa using (Option.filter_eq_some_iff.mp hzero).2
  have hmember : e.member.sessions = { PeerSessions.default with
      persistentKeepaliveDue := e.member.sessions.persistentKeepaliveDue } := by
    rw [← he]
    rfl
  have hreset : (w.tables.armSome due).Reset now none due := by
    refine reset_armSome fun x hx hn _ => ?_
    have hx' : e.sessions.persistentKeepaliveDue = some x := hdue.trans hx
    rw [← he] at hx'
    obtain ⟨interval, hi, rfl⟩ := Option.map_eq_some_iff.mp hx'
    refine lt_saturatingAdd_of_lt (Nat.pos_of_ne_zero ?_) hn
    rintro rfl
    simpa using (Option.filter_eq_some_iff.mp hi).2
  have hkeep : e.member.sessions.persistentKeepaliveDue.isSome = e.member.interval.isSome := by
    rw [← he]
    exact Option.isSome_map
  have hstep : Step now .install (w.tables.armSome due)
      ({ (w.tables.armSome due).setPeer p e.member with
        find := update (w.tables.armSome due).find e.member.key (some p) }.note (.installed p)) :=
    Step.install hpeer hfind hinterval hmember
      (by rw [show e.member.sessions.persistentKeepaliveDue = due from hdue]; exact hreset) hkeep
  refine ⟨trivial, ?_, ?_, ?_, ?_, ?_⟩
  · refine ((steps_armSome w.tables due).widen (Scope.quiet_le _)).trans ?_
    convert hstep.steps using 1
    cases due <;> rfl
  · cases due <;> rfl
  · rw [← hek]
    cases due <;> rfl
  · cases due <;> rfl
  · cases due <;> rfl

/-- Is there a place that an admission of the key may take? -/
def Core.admits (key : Key) (admission : PeerAdmission) (now : Nat) (c : Core cap R P) : Bool :=
  !(c.peerIsGhosted key now).1 &&
    ((decide (admission = .authenticatedInitiator ∨ c.coreConfig.lazyPeerReserve < c.freePeers) &&
      (c.peers.toList.findIdx? Option.isNone).isSome) ||
    (decide (admission ≠ .heldUpdate ∧ admission ≠ .lazyRelay) &&
      (c.capacityVictimExcluding now none (1 - c.routes.availableSlots)).isSome))

/-- A peer was admitted; it still lacks its route.  At most one other peer is gone. -/
structure Tables.Admitted (now : Nat) (info : ResolvedPeer) (t t' : Tables cap) (i : Nat) :
    Prop where
  steps : Steps now .install t t'
  peer : ∃ m, t'.peer i = some m ∧ m.key = info.publicKey ∧ m.pinned = false
  unrouted : ∀ q, q ≠ i → t'.Unrouted q → t.Unrouted q
  released : t'.released.length ≤ t.released.length + 1

omit [Crypto] in
theorem findIdx?_free {i : Nat} (h : c.peers.toList.findIdx? Option.isNone = some i) :
    i < cap.maxPeers ∧ c.peer i = none := by
  obtain ⟨hlt, hnone, -⟩ := List.findIdx?_eq_some_iff_getElem.mp h
  rw [Vector.length_toList] at hlt
  refine ⟨hlt, ?_⟩
  rw [Vector.getElem_toList] at hnone
  rw [Core.peer, Vector.getElem?_eq_getElem hlt, Option.join_some]
  exact Option.isNone_iff_eq_none.mp hnone

omit [Crypto] in
theorem release_length (t : Tables cap) (key : Key) :
    (t.release key).released.length ≤ t.released.length + 1 := by
  unfold release
  dsimp only
  split
  · exact Nat.le_succ _
  split
  · exact Nat.le_succ _
  · exact (List.length_append).le

theorem evictPeerForCapacity_spec (hI : w.tables.Inv) {p : Nat} {e : PeerEntry}
    (he : w.core.peer p = some e) (hvictim : w.core.Expendable now e) :
    wpx (evictPeerForCapacity p now : CoreE cap R P Unit) (fun r w' =>
      (r = .error .peerAdmissionLimited ∧ Spent now w.tables w'.tables) ∨
      (r = .ok () ∧ Steps now .admin w.tables w'.tables ∧
        Removed w.tables w'.tables p e.member)) w := by
  unfold evictPeerForCapacity
  simp only [wpx_bind, wpx_updateCore, then_ok]
  by_cases hbudget : (w.core.takeEviction now).1 = true
  · simp only [hbudget, Bool.not_true, Bool.false_eq_true, if_false]
    exact wpx_mono (evictPeerAndRemember_spec hI he hvictim hbudget) fun _ _ h => Or.inr h
  · rw [Bool.not_eq_true] at hbudget
    simp only [hbudget, Bool.not_false, if_true]
    exact wpx_throw.mpr (Or.inl ⟨rfl, spent_takeEviction hbudget⟩)

theorem newDynamicPeer_spec (info : ResolvedPeer) (now : Nat) :
    wpx (newDynamicPeer info now : CoreE cap R P PeerEntry) (fun r w' => w' = w ∧
      ((r = .error .crypto ∧ dh w.core.sPriv info.publicKey = .error .crypto) ∨
      ∃ shared, dh w.core.sPriv info.publicKey = .ok shared ∧
        r = .ok (.new info.publicKey .dynamic shared info.endpoint info.relay info.inboundPolicy
          info.persistentKeepalive info.address now))) w := by
  unfold newDynamicPeer
  simp only [wpx_bind, wpx_getCore, then_ok, wpx_liftExcept]
  cases hdh : dh w.core.sPriv info.publicKey with
  | error err =>
    have hcrypto : err = .crypto := by
      unfold dh at hdh
      dsimp only at hdh
      split at hdh
      · exact (Except.error.inj hdh).symm
      · cases hdh
    rw [hcrypto]
    exact ⟨rfl, Or.inl ⟨rfl, rfl⟩⟩
  | ok shared => exact wpx_pure.mpr ⟨rfl, Or.inr ⟨shared, rfl, rfl⟩⟩

/-- The errors of an admission that is refused before anything is done. -/
def Error.Declines (admission : PeerAdmission) (e : Error) : Prop :=
  e = .peerAdmissionLimited ∨ e = .peerTableFull ∨
    (e = .invalidResolverAnswer ∧ admission = .heldUpdate)

/-- A new peer takes a place that is free. -/
theorem installNew_spec (hI : w.tables.Inv) (info : ResolvedPeer) {i : Nat} {shared : Key}
    (hi : i < cap.maxPeers) (hfree : w.core.peer i = none)
    (hkey : w.core.findPeer info.publicKey = none) (now : Nat) :
    wpx (do
        installPeer i (.new info.publicKey .dynamic shared info.endpoint info.relay
          info.inboundPolicy info.persistentKeepalive info.address now)
        return i : CoreE cap R P Nat) (fun r w' => r = .ok i ∧
          Steps now .install w.tables w'.tables ∧
      (∃ m, w'.tables.peer i = some m ∧ m.key = info.publicKey ∧ m.pinned = false) ∧
      (∀ q, q ≠ i → w'.tables.peer q = w.tables.peer q) ∧
      w'.tables.routes = w.tables.routes ∧ w'.tables.released = w.tables.released) w := by
  refine wpx_seq (installPeer_spec hI hi hfree hkey .dynamic shared info.endpoint info.relay
    info.inboundPolicy info.persistentKeepalive info.address now) ?_ ?_
  · rintro _ w1 ⟨h, -⟩
    cases h
  rintro _ w1 ⟨-, h1, hpeer, -, hroutes, hreleased⟩
  refine wpx_pure.mpr ⟨rfl, h1, ⟨_, by rw [hpeer, update_self], rfl, rfl⟩, fun q hq => ?_,
    hroutes, hreleased⟩
  rw [hpeer, update_of_ne hq]

/-- Admitting a peer that is not installed.  It fails without a change, and with a cryptographic
error if and only if there is a place and no shared secret. -/
theorem admitPeer_spec (hI : w.tables.Inv) (info : ResolvedPeer) (now : Nat)
    (admission : PeerAdmission) (hkey : w.core.findPeer info.publicKey = none) :
    wpx (admitPeer info now admission : CoreE cap R P Nat) (fun r w' =>
      (r = .error .crypto ∧ w.core.admits info.publicKey admission now = true ∧
        dh w.core.sPriv info.publicKey = .error .crypto ∧ w'.tables = w.tables) ∨
      (∃ err, r = .error err ∧ err.Declines admission ∧
        (w.core.admits info.publicKey admission now = false ∨
          ∃ shared, dh w.core.sPriv info.publicKey = .ok shared) ∧ Spent now w.tables w'.tables) ∨
      ∃ i shared, r = .ok i ∧ dh w.core.sPriv info.publicKey = .ok shared ∧
        Admitted now info w.tables w'.tables i) w := by
  unfold admitPeer
  simp only [wpx_bind, wpx_updateCore, then_ok]
  by_cases hghost : (w.core.peerIsGhosted info.publicKey now).1 = true
  · rw [if_pos hghost]
    refine wpx_throw.mpr (Or.inr (Or.inl ⟨_, rfl, Or.inl rfl, Or.inl ?_, Spent.refl _⟩))
    simp [Core.admits, hghost]
  rw [if_neg hghost]
  have hghost' : (w.core.peerIsGhosted info.publicKey now).1 = false := Bool.eq_false_iff.mpr hghost
  generalize hw0 : (⟨(w.core.peerIsGhosted info.publicKey now).2, w.log, w.established⟩ :
    World cap R P) = w0
  have h0 : w0.tables = w.tables := by rw [← hw0]; rfl
  have hpriv : w0.core.sPriv = w.core.sPriv := by rw [← hw0]; rfl
  have hadmits : w.core.admits info.publicKey admission now =
      ((decide (admission = .authenticatedInitiator ∨
        w0.core.coreConfig.lazyPeerReserve < w0.core.freePeers) &&
          (w0.core.peers.toList.findIdx? Option.isNone).isSome) ||
      (decide (admission ≠ .heldUpdate ∧ admission ≠ .lazyRelay) &&
        (w0.core.capacityVictimExcluding now none (1 - w0.core.routes.availableSlots)).isSome)) :=
          by
    rw [Core.admits, hghost', ← hw0]
    rfl
  have hkey0 : w0.core.findPeer info.publicKey = none := by rw [← hw0]; exact hkey
  have hI0 : w0.tables.Inv := h0 ▸ hI
  rw [hadmits, ← hpriv, ← h0]
  simp only [wpx_bind, wpx_getCore, then_ok]
  cases hplace : (if decide (admission = .authenticatedInitiator ∨
      w0.core.coreConfig.lazyPeerReserve < w0.core.freePeers) = true
    then w0.core.peers.toList.findIdx? Option.isNone else none) with
  | some i =>
    have hplaces : (decide (admission = .authenticatedInitiator ∨
        w0.core.coreConfig.lazyPeerReserve < w0.core.freePeers) &&
        (w0.core.peers.toList.findIdx? Option.isNone).isSome) = true := by
      split at hplace
      · rename_i hmay
        rw [hmay, hplace]
        rfl
      · cases hplace
    have hfree : w0.core.peers.toList.findIdx? Option.isNone = some i := by
      split at hplace
      · exact hplace
      · cases hplace
    obtain ⟨hi, hnone⟩ := findIdx?_free hfree
    refine wpx_seq (newDynamicPeer_spec info now) ?_ ?_
    · rintro err w1 ⟨rfl, ⟨herr, hdh⟩ | ⟨shared, -, h⟩⟩
      · exact Or.inl ⟨congrArg _ (Except.error.inj herr), by rw [hplaces]; rfl, hdh, rfl⟩
      · cases h
    rintro e w1 ⟨rfl, ⟨h, -⟩ | ⟨shared, hdh, he⟩⟩
    · cases h
    obtain rfl := Except.ok.inj he
    refine wpx_mono (installNew_spec hI0 info hi hnone hkey0 now) ?_
    rintro _ w2 ⟨rfl, h2, hpeer, hothers, hroutes, hreleased⟩
    refine Or.inr (Or.inr ⟨i, shared, rfl, hdh, h2, hpeer, fun q hq hun => ⟨?_, ?_⟩, ?_⟩)
    · have := hun.1
      rwa [Installed, hothers q hq] at this
    · rw [← hroutes]
      exact hun.2
    · rw [hreleased]
      exact Nat.le_succ _
  | none =>
    dsimp only
    have hnone : (decide (admission = .authenticatedInitiator ∨
        w0.core.coreConfig.lazyPeerReserve < w0.core.freePeers) &&
        (w0.core.peers.toList.findIdx? Option.isNone).isSome) = false := by
      split at hplace
      · rw [hplace, Option.isSome_none, Bool.and_false]
      · rename_i hmay
        rw [Bool.eq_false_iff.mpr hmay, Bool.false_and]
    rw [hnone, Bool.false_or]
    by_cases hheld : admission = .heldUpdate
    · rw [if_pos hheld]
      refine wpx_throw.mpr (Or.inr (Or.inl ⟨_, rfl, Or.inr (Or.inr ⟨rfl, hheld⟩), Or.inl ?_,
        Spent.refl _⟩))
      simp [hheld]
    rw [if_neg hheld]
    by_cases hrelay : admission = .lazyRelay
    · rw [if_pos hrelay]
      refine wpx_throw.mpr (Or.inr (Or.inl ⟨_, rfl, Or.inl rfl, Or.inl ?_, Spent.refl _⟩))
      simp [hrelay]
    rw [if_neg hrelay]
    cases hvictim : w0.core.capacityVictimExcluding now
      none (1 - w0.core.routes.availableSlots) with
    | none =>
      dsimp only
      split
      · exact wpx_throw.mpr (Or.inr (Or.inl ⟨_, rfl, Or.inl rfl, Or.inl (by simp), Spent.refl _⟩))
      · exact wpx_throw.mpr (Or.inr (Or.inl ⟨_, rfl, Or.inr (Or.inl rfl), Or.inl (by simp),
          Spent.refl _⟩))
    | some i =>
      obtain ⟨victim, hpeer, hgo, -, -⟩ := capacityVictimExcluding_some hvictim
      refine wpx_seq (newDynamicPeer_spec info now) ?_ ?_
      · rintro err w1 ⟨rfl, ⟨herr, hdh⟩ | ⟨shared, -, h⟩⟩
        · exact Or.inl ⟨congrArg _ (Except.error.inj herr), by simp [hheld, hrelay], hdh, rfl⟩
        · cases h
      rintro e w1 ⟨rfl, ⟨h, -⟩ | ⟨shared, hdh, he⟩⟩
      · cases h
      obtain rfl := Except.ok.inj he
      refine wpx_seq (evictPeerForCapacity_spec hI0 hpeer hgo) ?_ ?_
      · rintro err w2 (⟨herr, hsame⟩ | ⟨h, -⟩)
        · exact Or.inr (Or.inl ⟨err, rfl, Or.inl (Except.error.inj herr), Or.inr ⟨shared, hdh⟩,
            hsame⟩)
        · cases h
      rintro _ w2 (⟨h, -⟩ | ⟨-, h2, hgone⟩)
      · cases h
      have hfree2 : w2.core.peer i = none := by
        have : w2.tables.peer i = none := by rw [hgone.peer, update_self]
        exact Option.map_eq_none_iff.mp this
      have hkey2 : w2.core.findPeer info.publicKey = none := by
        have : w2.tables.find info.publicKey = none := by
          rw [hgone.find, Function.update_apply]
          split
          · rfl
          · exact hkey0
        exact this
      refine wpx_mono (installNew_spec (h2.inv hI0) info (Core.lt_of_peer hpeer) hfree2 hkey2 now)
        ?_
      rintro _ w3 ⟨rfl, h3, hpeer3, hothers, hroutes, hreleased⟩
      refine Or.inr (Or.inr ⟨i, shared, rfl, hdh, (h2.widen (by decide)).trans h3, hpeer3,
        fun q hq hun => ?_, ?_⟩)
      · refine h2.unrouted le_rfl ⟨?_, ?_⟩
        · have := hun.1
          rwa [Installed, hothers q hq] at this
        · rw [← hroutes]
          exact hun.2
      · rw [hreleased, hgone.released]
        exact release_length _ _

/-! ### Refreshing -/

omit [Crypto] in
theorem refreshedPeer_member (info : ResolvedPeer) (now : Nat) (e : PeerEntry) :
    (e.persistentKeepalive = info.persistentKeepalive.filter (· ≠ 0) ∧
      (Core.refreshedPeer info now e).member =
        { e.member with policy := info.inboundPolicy, relay := info.relay }) ∨
    (e.persistentKeepalive ≠ info.persistentKeepalive.filter (· ≠ 0) ∧
      (Core.refreshedPeer info now e).member = { e.member with
        policy := info.inboundPolicy
        relay := info.relay
        interval := info.persistentKeepalive.filter (· ≠ 0)
        sessions := { e.member.sessions with
          persistentKeepaliveDue :=
            (info.persistentKeepalive.filter (· ≠ 0)).map (saturatingAdd now) } }) := by
  by_cases hkeep : e.persistentKeepalive = info.persistentKeepalive.filter (· ≠ 0)
  · refine Or.inl ⟨hkeep, ?_⟩
    unfold Core.refreshedPeer
    by_cases hendpoint : e.endpoint ≠ info.endpoint
    · simp only [if_pos hendpoint, if_neg (not_not.mpr hkeep)]
      rfl
    · simp only [if_neg hendpoint, if_neg (not_not.mpr hkeep)]
      rfl
  · refine Or.inr ⟨hkeep, ?_⟩
    unfold Core.refreshedPeer
    by_cases hendpoint : e.endpoint ≠ info.endpoint
    · simp only [if_pos hendpoint]
      rw [if_pos hkeep]
      rfl
    · simp only [if_neg hendpoint]
      rw [if_pos hkeep]
      rfl

theorem refreshPeer_spec (hI : w.tables.Inv) {p : Nat} {e : PeerEntry} (he : w.core.peer p = some e)
    (hpinned : e.isPinned = false) (info : ResolvedPeer) (now : Nat) :
    ∃ c', w.core.refreshPeer p info now = (.ok (decide (e.address ≠ info.address)), c') ∧
      Steps now .admin w.tables (w.withCore c').tables ∧
      (∃ m, (w.withCore c').tables.peer p = some m ∧ m.key = e.publicKey ∧ m.pinned = false ∧
        m.address = e.address) ∧ (w.withCore c').tables.routes = w.tables.routes := by
  have hm := tables_peer he
  generalize hu : Core.refreshedPeer info now e = u
  -- The tables that the code leaves, before the flows.
  have hrefresh : ∀ due, (e.persistentKeepalive ≠ u.persistentKeepalive →
      due = u.sessions.persistentKeepaliveDue) → (e.persistentKeepalive = u.persistentKeepalive →
      due = none) → Steps now .admin w.tables ((w.tables.setPeer p u.member).armSome due) := by
    intro due hchanged hkept
    rcases refreshedPeer_member info now e with ⟨hsame, hmember⟩ | ⟨hne, hmember⟩
    · rw [hu] at hmember
      have hdue : due = none := hkept (congrArg Member.interval hmember).symm
      rw [hdue, hmember]
      refine (Step.refresh
        hm hpinned
        (hI.registry.interval p _ hm) (Or.inl rfl) (Or.inl ⟨rfl, rfl⟩)).steps
    · rw [hu] at hmember
      have hzero : info.persistentKeepalive.filter (· ≠ 0) ≠ some 0 := fun h => by
        simpa using (Option.filter_eq_some_iff.mp h).2
      generalize info.persistentKeepalive.filter (· ≠ 0) = interval at hne hmember hzero
      have hchange : e.persistentKeepalive ≠ u.persistentKeepalive := by
        rw [show u.persistentKeepalive = interval from congrArg Member.interval hmember]
        exact hne
      have hdue : due = interval.map (saturatingAdd now) := by
        rw [hchanged hchange]
        exact congrArg (fun m : Member => m.sessions.persistentKeepaliveDue) hmember
      have hreset : (w.tables.armSome due).Reset now e.member.sessions.persistentKeepaliveDue
          due := by
        refine reset_armSome fun x hx hn _ => ?_
        rw [hdue] at hx
        obtain ⟨i, hi, rfl⟩ := Option.map_eq_some_iff.mp hx
        refine lt_saturatingAdd_of_lt (Nat.pos_of_ne_zero ?_) hn
        rintro rfl
        exact hzero hi
      have hm' : (w.tables.armSome due).peer p = some e.member := by
        rw [show (w.tables.armSome due).peer = w.tables.peer by cases due <;> rfl]
        exact hm
      have hstep := @Step.refresh _ _ now _ _ _ info.inboundPolicy info.relay _ _ hm' hpinned hzero
        hreset
        (Or.inr (by rw [hdue, Option.isSome_map]))
      refine ((steps_armSome w.tables due).widen (Scope.quiet_le _)).trans ?_
      convert hstep.steps using 1
      rw [hmember, ← hdue]
      cases due <;> rfl
  have hidentity : u.member.key = e.publicKey ∧ u.member.pinned = false ∧
      u.member.address = e.address := by
    rcases refreshedPeer_member info now e with ⟨-, hmember⟩ | ⟨-, hmember⟩
    · rw [hu] at hmember
      rw [hmember]
      exact ⟨rfl, hpinned, rfl⟩
    · rw [hu] at hmember
      rw [hmember]
      exact ⟨rfl, hpinned, rfl⟩
  have hset : ∀ due, World.tables ⟨(w.core.setPeer p (some u)).armSome due, w.log, w.established⟩ =
      (w.tables.setPeer p u.member).armSome due := by
    intro due
    rw [tables_armSome, tables_setPeer (Core.lt_of_peer he)]
  -- Whether the flows of the peer are dropped or not.
  have hflows : ∀ (due : Option Nat) (c' : Core cap R P),
      c' = (w.core.setPeer p (some u)).armSome due ∨
        c' = { (w.core.setPeer p (some u)).armSome due with
          firewall := ((w.core.setPeer p (some u)).armSome due).firewall.removePeer p } →
      Steps now .admin w.tables ((w.tables.setPeer p u.member).armSome due) →
      Steps now .admin w.tables (w.withCore c').tables ∧
      (∃ m, (w.withCore c').tables.peer p = some m ∧ m.key = e.publicKey ∧ m.pinned = false ∧
        m.address = e.address) ∧ (w.withCore c').tables.routes = w.tables.routes := by
    intro due c' hc' hsteps
    have hpeer : ∃ m, ((w.tables.setPeer p u.member).armSome due).peer p = some m ∧
        m.key = e.publicKey ∧ m.pinned = false ∧ m.address = e.address := by
      refine ⟨u.member, ?_, hidentity⟩
      rw [show ((w.tables.setPeer p u.member).armSome due).peer =
        (w.tables.setPeer p u.member).peer by
        cases due <;> rfl]
      exact update_self ..
    have hroutes : ((w.tables.setPeer p u.member).armSome due).routes = w.tables.routes := by
      cases due <;> rfl
    rw [← hset] at hsteps hpeer hroutes
    rcases hc' with rfl | rfl
    · exact ⟨hsteps, hpeer, hroutes⟩
    · refine ⟨hsteps.trans ((Step.flows ?_).steps.widen (by decide)), hpeer, hroutes⟩
      exact ((hsteps.inv hI).registry.flows.removePeer p).mono fun _ hq => hq.1
  unfold Core.refreshPeer
  simp only [he, hu]
  by_cases hkeep : e.persistentKeepalive = u.persistentKeepalive
  · refine ⟨_, rfl, hflows none _ ?_ (hrefresh none (fun h => absurd hkeep h) fun _ => rfl)⟩
    rw [if_neg (not_not.mpr hkeep)]
    split
    · exact Or.inr rfl
    · exact Or.inl rfl
  · refine ⟨_, rfl, hflows _ _ ?_ (hrefresh _ (fun _ => rfl) fun h => absurd h hkeep)⟩
    rw [if_pos hkeep]
    split
    · exact Or.inr rfl
    · exact Or.inl rfl

/-- Refreshing a dynamic peer whose route is in place: the peer has the record. -/
theorem commitInPlace_spec (hI : w.tables.Inv) {p : Nat} {e : PeerEntry}
    (he : w.core.peer p = some e) (hpinned : e.isPinned = false) {info : ResolvedPeer}
    (hkey : info.publicKey = e.publicKey) (now : Nat)
    (admission : PeerAdmission) :
    wpx (do
      let (updated, _, installedNew) ← upsertPeerUnchecked info now admission
      if updated ≠ p ∨ installedNew then throw .internalInvariant : CoreE cap R P Unit)
      (fun r w' => r = .ok () ∧ Steps now .admin w.tables w'.tables ∧
        ∃ m, w'.tables.peer p = some m ∧ m.key = e.publicKey ∧ m.pinned = false ∧
          m.address = e.address) w := by
  have hfind : w.core.findPeer info.publicKey = some p :=
    (hI.registry.find _ p).mpr ⟨_, tables_peer he, hkey.symm⟩
  obtain ⟨c', hrun, h, ⟨m, hm, hmk, hmp, hma⟩, -⟩ := refreshPeer_spec hI he hpinned info now
  unfold upsertPeerUnchecked
  simp only [wpx_bind, wpx_getCore, then_ok, hfind, wpx_tryCore, hrun, wpx_pure]
  rw [if_neg (by simp)]
  exact wpx_pure.mpr ⟨rfl, h, m, hm, hmk, hmp, hma⟩

/-- Replacing the record of a dynamic peer: nothing changes, or the peer has the record. -/
theorem commitExistingResolvedPeer_spec (hI : w.tables.Inv) {p : Nat} {e : PeerEntry}
    (he : w.core.peer p = some e) (hpinned : e.isPinned = false) {info : ResolvedPeer}
    (hkey : info.publicKey = e.publicKey) (now : Nat) (admission : PeerAdmission)
    (allowPeerEviction : Bool) :
    wpx (commitExistingResolvedPeer p info now admission allowPeerEviction : CoreE cap R P Unit)
      (fun r w' => (∃ err, r = .error err ∧ err.Refusal ∧ Spent now w.tables w'.tables) ∨
        (r = .ok () ∧ Steps now .admin w.tables w'.tables ∧
          ∃ m, w'.tables.peer p = some m ∧ m.key = e.publicKey ∧ m.pinned = false ∧
            m.address = info.address)) w := by
  unfold commitExistingResolvedPeer
  simp only [wpx_bind, wpx_getCore, then_ok, he]
  by_cases haddr : e.address = info.address
  · rw [if_neg (not_not.mpr haddr)]
    refine wpx_mono (commitInPlace_spec hI he hpinned hkey now admission) ?_
    rintro r w' ⟨rfl, h, m, hm, hmk, hmp, hma⟩
    exact Or.inr ⟨rfl, h, m, hm, hmk, hmp, hma.trans haddr⟩
  · rw [if_pos haddr]
    refine wpx_seq (replaceDynamicRoute_spec hI he hpinned info.address now allowPeerEviction) ?_ ?_
    · rintro err w1 (⟨_, h, hrefusal, hsame⟩ | ⟨h, -⟩)
      · exact Or.inl ⟨err, rfl, (Except.error.inj h) ▸ hrefusal, hsame⟩
      · cases h
    · rintro _ w1 (⟨_, h, -⟩ | ⟨-, h1, -, hm1⟩)
      · cases h
      obtain ⟨e1, he1, hmember⟩ := peer_of_tables hm1
      have hkey1 : e1.publicKey = e.publicKey := congrArg Member.key hmember
      refine wpx_mono (commitInPlace_spec (h1.inv hI) he1
        ((congrArg Member.pinned hmember).trans hpinned)
        (hkey.trans hkey1.symm) now admission) ?_
      rintro r w' ⟨rfl, h2, m, hm, hmk, hmp, hma⟩
      exact Or.inr ⟨rfl, h1.trans h2, m, hm, hmk.trans hkey1, hmp,
        hma.trans (congrArg Member.address hmember)⟩

/-! ### Answers about peers that are held -/

omit [Crypto] in
theorem canOwe_iff (key : Key) : w.core.canOwe key = true ↔
    (∃ o ∈ w.tables.owed, o.publicKey = key) ∨ w.tables.owed.card < cap.maxPeers := by
  simp only [Core.canOwe, Bool.or_eq_true, List.any_eq_true, decide_eq_true_eq]
  exact Iff.rfl

omit [Crypto] in
theorem canOwe_congr {w' : World cap R P} (h : w'.tables.owed = w.tables.owed) (key : Key) :
    w'.core.canOwe key = w.core.canOwe key := by
  rw [Bool.eq_iff_iff, canOwe_iff, canOwe_iff, h]

omit [Crypto] in
/-- An answer that is kept is the answer that was given, but for the form of its endpoint. -/
theorem canonicalize_ok {query : ResolveQuery} {info info' : ResolvedPeer}
    (h : c.canonicalizeResolvedAnswer query info = .ok info') :
    info' = { info with endpoint := info.endpoint.map Ip.unmapSocketAddr } ∧
      c.checkResolvedAnswer query info' = .ok () := by
  unfold Core.canonicalizeResolvedAnswer at h
  dsimp only at h
  cases hcheck : c.checkResolvedAnswer query
      { info with endpoint := info.endpoint.map Ip.unmapSocketAddr } with
  | error err =>
    rw [hcheck] at h
    cases h
  | ok u =>
    rw [hcheck] at h
    cases h
    exact ⟨rfl, hcheck⟩

omit [Crypto] in
/-- What a checked answer meets: it is about the key that was asked for, and not about a pinned
peer. -/
theorem checkResolvedAnswer_ok {query : ResolveQuery} {info : ResolvedPeer}
    (h : c.checkResolvedAnswer query info = .ok ()) :
    (∀ key, query = .byPublicKey key → info.publicKey = key) ∧
      ∀ p e, c.findPeer info.publicKey = some p → c.peer p = some e → e.isPinned = false := by
  have hpin : ((c.findPeer info.publicKey).bind c.peer).any PeerEntry.isPinned = false := by
    by_contra hpinned
    unfold Core.checkResolvedAnswer at h
    cases query <;> simp [Bool.eq_true_of_not_eq_false hpinned] at h
  refine ⟨?_, fun p e hfind he => ?_⟩
  · rintro key rfl
    by_contra hkey
    unfold Core.checkResolvedAnswer at h
    rw [if_pos (by simpa using hkey)] at h
    cases h
  · rw [hfind, Option.bind_some, he] at hpin
    simpa using hpin

end Microtun
