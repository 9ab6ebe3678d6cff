import Microtun.Core.Spec.Calls

/-! Construction: the pinned peers are installed into empty tables, by the same steps. -/

namespace Microtun

open Hoare Tables
open Function (update update_self update_of_ne update_eq_self)

variable {cap : Capacities} {R P : Type} [Crypto] {w : World cap R P} {now : Nat}

omit [Crypto] in
theorem IpCidr.contains_firstAddress (c : IpCidr) : c.contains c.firstAddress = true := by
  cases c <;> simp [IpCidr.contains, IpCidr.firstAddress, Cidr.contains]

omit [Crypto] in
theorem validatePinned_cons {sPub : Key} {pinned previous rest : List PinnedPeer}
    {peer : PinnedPeer} (h : validatePinned sPub pinned previous (peer :: rest) = .ok ()) :
    (∀ x ∈ previous, x.publicKey ≠ peer.publicKey) ∧ (∀ x ∈ previous, x.address ≠ peer.address) ∧
      validatePinned sPub pinned (previous ++ [peer]) rest = .ok () := by
  rw [validatePinned] at h
  split at h
  · cases h
  rename_i hcond
  simp only [not_or] at hcond
  obtain ⟨-, hkeys, -, -, hoverlap⟩ := hcond
  refine ⟨fun x hx hkey => hkeys ?_, fun x hx haddr => hoverlap ?_, h⟩
  · exact List.any_eq_true.mpr ⟨x, hx, by simpa using hkey⟩
  · refine List.any_eq_true.mpr ⟨x, hx, ?_⟩
    rw [cidrsOverlap, haddr, IpCidr.contains_firstAddress]
    rfl

/-- A pinned peer that was just installed gets its route, or construction fails. -/
theorem insertPinned_spec (hI : w.tables.Inv) {i : Nat} {e : PeerEntry}
    (he : w.core.peer i = some e) (hpinned : e.isPinned = true)
    (hnone : ∀ j x, w.tables.routes.entry j = some x → x.peer ≠ i ∧ x.cidr ≠ e.address)
    (now : Nat) :
    wpx (tryRoutes fun routes => routes.insert e.address i true now : CoreE cap R P Unit)
      (fun r w' => r = .ok () → Steps now .admin w.tables w'.tables ∧ ¬w'.tables.Unrouted i ∧
        w'.tables.released = w.tables.released ∧ w'.core.peer = w.core.peer ∧
          w'.core.findPeer = w.core.findPeer ∧ ∀ j x, w'.tables.routes.entry j = some x →
          x.cidr = e.address ∨ w.tables.routes.entry j = some x) w := by
  by_cases hfree : ∃ k, k < cap.maxRoutes ∧ w.tables.routes.entry k = none
  · obtain ⟨k, routes, hins, hsound, hk, hentry⟩ := hI.registry.sound.insert true
      now (fun j x hx => (hnone j x hx).1) hfree fun _ j x hx => (hnone j x hx).2
    refine wpx_tryRoutes (show _ = Except.ok (Except.ok (), routes) from hins) fun _ => ?_
    have hm := tables_peer he
    have hstep : Step now .admin w.tables
        { w.tables.setPeer i { e.member with address := e.address } with routes } := by
      refine Step.route (e := ⟨e.address, i, true, now, w.tables.routes.nextInsertionOrder⟩) hm
        hsound
        (fun j => ?_) (by rw [hk]; rfl) rfl hpinned.symm fun _ => rfl
      rw [hentry]
      congr 1
      funext j
      cases hj : w.tables.routes.entry j with
      | none => rfl
      | some x => rw [Option.filter_some, if_pos (by simpa using (hnone j x hj).1)]
    have hsame : ({ w.tables.setPeer i { e.member with address := e.address } with routes } :
        Tables cap) = World.tables ⟨{ w.core with routes }, w.log, w.established⟩ := by
      have hpeer : update w.tables.peer i (some e.member) = w.tables.peer := by
        rw [← hm, update_eq_self]
      show ({ ({ w.tables with peer := update w.tables.peer i (some e.member) } : Tables cap) with
        routes } : Tables cap) = _
      rw [hpeer]
      rfl
    refine ⟨hsame ▸ hstep.steps, fun hun => ?_, rfl, rfl, rfl, fun j x hx => ?_⟩
    · exact hun.2 k _ ((congrFun hentry k).trans (update_self ..)) rfl
    · have hx' : update w.tables.routes.entry k _ j = some x := (congrFun hentry j).symm.trans hx
      by_cases hj : j = k
      · rw [hj, update_self] at hx'
        rw [← Option.some.inj hx']
        exact Or.inl rfl
      · rw [update_of_ne hj] at hx'
        exact Or.inr hx'
  · obtain ⟨m, hcon, -⟩ := hI.registry.sound
    rcases RouteCache.insert_spec hcon e.address i true now with ⟨j, x, hx, -, hxp, -⟩ |
      ⟨-, ⟨-, hins⟩ | ⟨j, -, -, hj, hfreej, -⟩⟩
    · exact absurd hxp (hnone j x hx).1
    · refine wpx_tryRoutes
        (show _ = Except.ok (Except.error .routeCacheFull, w.core.routes) from hins) ?_
      rintro ⟨⟩
    · exact absurd ⟨j, hj, hfreej⟩ hfree

/-- What a pinned peer is configured to be. -/
def PinnedPeer.identity (x : PinnedPeer) : Identity :=
  ⟨x.publicKey, true, x.address, x.inboundPolicy, x.relay, x.persistentKeepalive.filter (· ≠ 0)⟩

/-- The pinned peers that are left to install. -/
structure Installing (previous : List PinnedPeer) (i : Nat) (w : World cap R P) : Prop where
  inv : w.tables.Inv
  keys : ∀ key p, w.core.findPeer key = some p → ∃ x ∈ previous, x.publicKey = key
  routes : ∀ j e, w.tables.routes.entry j = some e → ∃ x ∈ previous, x.address = e.cidr
  free : ∀ j, i ≤ j → w.core.peer j = none

theorem installPinned_spec {sPub : Key} {pinned : List PinnedPeer} (rest : List PinnedPeer) :
    ∀ (previous : List PinnedPeer) (i : Nat) (w : World cap R P),
      validatePinned sPub pinned previous rest = .ok () → Installing previous i w →
      i + rest.length ≤ cap.maxPeers →
      wpx (installPinned now i rest : CoreE cap R P Unit) (fun r w' => r = .ok () →
        Steps now .install w.tables w'.tables ∧ w'.tables.released = w.tables.released ∧
          (∀ q, w'.tables.Unrouted q → w.tables.Unrouted q) ∧
          (∀ q, q < i → w'.tables.peer q = w.tables.peer q) ∧
          ∀ k, (w'.tables.peer (i + k)).map Member.identity = rest[k]?.map PinnedPeer.identity)
            w := by
  induction rest with
  | nil =>
    refine fun _ i w _ hw _ => wpx_pure.mpr fun _ =>
      ⟨Steps.refl _, rfl, fun _ h => h, fun _ _ => rfl, ?_⟩
    intro k
    rw [tables_peer_none (hw.free (i + k) (Nat.le_add_right i k))]
    rfl
  | cons peer rest ih =>
    intro previous i w hvalid hw hroom
    rw [List.length_cons] at hroom
    obtain ⟨hkey, haddr, hnext⟩ := validatePinned_cons hvalid
    rw [installPinned]
    simp only [wpx_bind, wpx_getCore, then_ok, wpx_liftExcept]
    cases hdh : dh w.core.sPriv peer.publicKey with
    | error err =>
      rw [then_error]
      rintro ⟨⟩
    | ok shared =>
      have hi : i < cap.maxPeers := by omega
      have hfind : w.core.findPeer peer.publicKey = none := by
        by_contra hsome
        obtain ⟨p, hp⟩ := Option.ne_none_iff_exists'.mp hsome
        obtain ⟨x, hx, hxk⟩ := hw.keys _ p hp
        exact hkey x hx hxk
      rw [then_ok, wpx_bind]
      refine wpx_mono (installPeer_spec hw.inv hi (hw.free i (Nat.le_refl i)) hfind .pinned shared
        peer.endpoint peer.relay peer.inboundPolicy peer.persistentKeepalive peer.address now) ?_
      rintro _ w1 ⟨rfl, h1, hpeer1, hfind1, hroutes1, hreleased1⟩
      rw [then_ok, wpx_bind]
      have hm1 : w1.tables.peer i = some (PeerEntry.new peer.publicKey .pinned shared peer.endpoint
          peer.relay peer.inboundPolicy peer.persistentKeepalive peer.address now).member := by
        rw [hpeer1, update_self]
      obtain ⟨e1, he1, hmember⟩ := peer_of_tables hm1
      have haddr1 : e1.address = peer.address := congrArg Member.address hmember
      have hpin1 : e1.isPinned = true := congrArg Member.pinned hmember
      have hI1 := h1.inv hw.inv
      -- The peer that was just installed has no route yet, and nobody has its prefix.
      have hnone1 : ∀ j x, w1.tables.routes.entry j = some x → x.peer ≠ i ∧
          x.cidr ≠ e1.address := by
        intro j x hx
        rw [hroutes1] at hx
        refine ⟨fun hxi => ?_, fun hxa => ?_⟩
        · obtain ⟨m, hm, -⟩ := hw.inv.registry.owner j x hx
          rw [hxi, tables_peer_none (hw.free i (Nat.le_refl i))] at hm
          cases hm
        · obtain ⟨y, hy, hya⟩ := hw.routes j x hx
          exact haddr y hy (hya.trans (hxa.trans haddr1))
      have hinsert := insertPinned_spec hI1 he1 hpin1 hnone1 now
      rw [haddr1] at hinsert
      refine wpx_mono hinsert ?_
      intro r w2 h2
      cases r with
      | error err =>
        rw [then_error]
        rintro ⟨⟩
      | ok u =>
        obtain ⟨hsteps2, hrouted2, hreleased2, hpeer2, hfind2, hentry2⟩ := h2 rfl
        rw [then_ok]
        refine wpx_mono (ih (previous ++ [peer]) (i + 1) w2 hnext ⟨hsteps2.inv hI1, ?_, ?_, ?_⟩
          (by omega)) ?_
        · intro key p hp
          rw [hfind2] at hp
          have hp1 : w1.tables.find key = some p := hp
          rw [hfind1] at hp1
          by_cases hk : key = peer.publicKey
          · exact ⟨peer, by simp, hk.symm⟩
          · rw [update_of_ne hk] at hp1
            obtain ⟨x, hx, hxk⟩ := hw.keys key p hp1
            exact ⟨x, List.mem_append_left _ hx, hxk⟩
        · intro j x hx
          rcases hentry2 j x hx with hcidr | hold
          · exact ⟨peer, by simp, hcidr.symm⟩
          · rw [hroutes1] at hold
            obtain ⟨y, hy, hya⟩ := hw.routes j x hold
            exact ⟨y, List.mem_append_left _ hy, hya⟩
        · intro j hj
          rw [hpeer2]
          have hj1 : w1.tables.peer j = none := by
            rw [hpeer1, update_of_ne (by omega)]
            exact tables_peer_none (hw.free j (by omega))
          exact Option.map_eq_none_iff.mp hj1
        · intro r' w3 h3 hr'
          obtain ⟨hsteps3, hreleased3, hrouted3, hbelow3, hpeers3⟩ := h3 hr'
          have hpeer2 : w2.tables.peer = w1.tables.peer := by
            show (fun q => (w2.core.peer q).map PeerEntry.member) = _
            rw [hpeer2]
            rfl
          refine ⟨h1.trans ((hsteps2.widen (by decide)).trans hsteps3),
            hreleased3.trans (hreleased2.trans hreleased1), fun q hq => ?_, fun q hq => ?_, fun k =>
              ?_⟩
          · have hq2 := hrouted3 q hq
            have hqi : q ≠ i := by
              rintro rfl
              exact hrouted2 hq2
            have hq1 := hsteps2.unrouted (Nat.le_refl 4) hq2
            refine ⟨?_, hroutes1 ▸ hq1.2⟩
            have hinst := hq1.1
            rwa [Installed, hpeer1, update_of_ne hqi] at hinst
          · rw [hbelow3 q (by omega), hpeer2, hpeer1, update_of_ne (by omega)]
          · cases k with
            | zero =>
              rw [Nat.add_zero, hbelow3 i (Nat.lt_succ_self i), hpeer2, hm1]
              rfl
            | succ k =>
              have hnext := hpeers3 k
              rwa [Nat.add_assoc, Nat.add_comm 1 k] at hnext

/-! ### Empty tables -/

/-- Nothing is in the tables, and nothing has happened. -/
structure Tables.Blank (now : Nat) (t : Tables cap) : Prop where
  peer : t.peer = fun _ => none
  find : t.find = fun _ => none
  slot : t.slot = fun _ => .free
  slotFor : t.slotFor = fun _ => none
  routes : t.routes = .new _ cap.backend
  firewall : t.firewall.Within fun _ => False
  parked : t.parked = 0
  lookups : t.lookups = 0
  owed : t.owed = 0
  initiations : t.initiations = fun _ => none
  released : t.released = []
  budget : t.budget = .new t.config.peerEvictionInterval t.config.peerEvictionBurst now
  timer : t.timer = .new
  established : t.established = 0
  marks : t.marks = []
  diary : t.diary = []
  attempts : t.attempts = []
  reports : t.reports = []
  rooms : t.rooms = []

theorem blank_empty (config : Config) (rng : R) (relayPolicy : P) (cookieSecret : CookieSecret)
    (now : Nat) : Tables.Blank now
      (World.tables ⟨(Core.empty config rng relayPolicy cookieSecret now : Core cap R P),
        [], 0⟩) := by
  have hpeer : ∀ p, (Core.empty config rng relayPolicy cookieSecret now : Core cap R P).peer p =
      none := by
    intro p
    simp only [Core.peer, Core.empty, Vector.getElem?_replicate]
    split <;> rfl
  have hslot : ∀ s, ((Core.empty config rng relayPolicy cookieSecret now : Core cap R P).slot
    s).getD
      .free = .free := by
    intro s
    simp only [Core.slot, Core.empty, Vector.getElem?_replicate]
    split <;> rfl
  have hinit : ∀ i : Nat, ((Core.empty config rng relayPolicy cookieSecret now :
      Core cap R P).pendingInitiations[i]?).join = none := by
    intro i
    simp only [Core.empty, Vector.getElem?_replicate]
    split <;> rfl
  refine ⟨funext fun p => ?_, rfl, funext hslot, rfl, rfl, ?_, ?_, rfl, rfl, funext hinit, rfl, rfl,
    rfl, rfl, rfl, rfl, rfl, rfl, rfl⟩
  · exact Option.map_eq_none_iff.mpr (hpeer p)
  · exact Firewall.within_new ..
  · show ((Vector.replicate _ none : Vector (Option PendingPacket) _).toList.reduceOption :
      Multiset PendingPacket) = 0
    rw [Vector.toList_replicate, List.reduceOption_replicate_none]
    rfl

namespace Tables.Blank

variable {t : Tables cap}

omit [Crypto] in
theorem links (h : Blank now t) : t.Links := by
  refine ⟨?_, ?_, ?_, ?_, ?_, ?_⟩
  · simp [h.slotFor, h.slot, Slot.localIndex]
  · simp [h.slot, Slot.holder]
  all_goals simp [h.peer, h.slot]

omit [Crypto] in
theorem registry (h : Blank now t) : t.Registry := by
  have hentry : ∀ i, t.routes.entry i = none := by
    intro i
    rw [h.routes]
    exact RouteCache.entry_new ..
  refine ⟨?_, ?_, ?_, ?_, ?_, ?_, ?_⟩
  · simp [h.find, h.peer]
  · simp [h.peer]
  · simp [h.parked]
  · exact h.firewall.mono fun _ hf => hf.elim
  · refine ⟨∅, ?_, fun i e he => ?_⟩
    · rw [h.routes]
      exact RouteCache.consistent_new ..
    · rw [hentry i] at he
      cases he
  · simp [hentry]
  · simp [hentry]

theorem ledger (h : Blank now t) (hwords : 0 < cap.replayWords) : t.Ledger := by
  refine ⟨hwords, ?_, ?_, ?_, ?_, ?_, fun n => ⟨0, ?_⟩, ?_, ?_, ?_, ?_⟩
  all_goals simp [h.slot, h.marks, sealsOf, acceptsOf, deliveries]

omit [Crypto] in
theorem desk (h : Blank now t) (hlimit : t.config.maxInflightResolves ≤ 256) : t.Desk := by
  refine ⟨hlimit, ?_, ?_, ?_, ?_, ?_, ?_, ?_, ?_⟩
  all_goals simp [h.lookups, h.initiations]

theorem inv (h : Blank now t) (hwords : 0 < cap.replayWords)
    (hlimit : t.config.maxInflightResolves ≤ 256) (hresolve : t.config.resolveTimeout ≠ 0)
    (houtbound : t.config.resolveOutboundTimeout ≠ 0) : t.Inv :=
  ⟨h.links, h.registry, h.ledger hwords, h.desk hlimit, hresolve, houtbound⟩

omit [Crypto] in
theorem timely (h : Blank now t) : Timely t := by
  refine ⟨fun c => ?_, fun d hd => ?_⟩
  · have hnone : t.clock c = none := by
      cases c <;> simp [clock, sessionsOf, h.peer, h.slot, Slot.deadline, PeerSessions.default]
    rw [hnone]
    exact notAfter_none _
  · simp [deadlines, h.parked, h.lookups, h.owed] at hd

omit [Crypto] in
theorem candid (h : Blank now t) : Candid t := by
  refine ⟨fun query hq => ?_, fun later request earlier heq => ?_⟩
  · simp [h.diary, asked] at hq
  · simp [h.diary] at heq

omit [Crypto] in
theorem unrouted (h : Blank now t) (q : Nat) : ¬t.Unrouted q := by
  rintro ⟨hq, -⟩
  simp [Installed, h.peer] at hq

end Tables.Blank

/-! ### New engines -/

section

variable [RngCore R] {config : Config} {rng : R} {relayPolicy : P}

/-- The checks that an engine passes before its peers are installed. -/
structure Checked (cap : Capacities) (config : Config) : Prop where
  words : 0 < cap.replayWords
  peers : cap.backend = .inline → 2 ≤ cap.maxPeers
  limits : config.coreConfig.validateAgainstLimits cap.backend = .ok ()
  pinned : config.pinned.length ≤ cap.maxPeers
  valid : validatePinned (Crypto.publicKey config.privateKey) config.pinned [] config.pinned =
    .ok ()

omit [Crypto] in
theorem validateAgainstLimits_ok {backend : Backend} {c : CoreConfig}
    (h : c.validateAgainstLimits backend = .ok ()) : c.maxInflightResolves ≤ 256 ∧
      c.resolveTimeout ≠ 0 ∧ c.resolveOutboundTimeout ≠ 0 ∧ c.peerEvictionInterval ≠ 0 ∧
      c.peerEvictionBurst ≠ 0 := by
  unfold CoreConfig.validateAgainstLimits at h
  split at h
  · cases h
  rename_i hlimits
  split at h
  · cases h
  rename_i hzero
  simp only [not_or, Nat.not_lt] at hlimits hzero
  have hmax : backend.maxInflightResolves ≤ 256 := by cases backend <;> decide
  exact ⟨hlimits.2.2.2.2.2.1.trans hmax, hzero.1, hzero.2.1, hzero.2.2.1, hzero.2.2.2⟩

omit [Crypto] in
theorem validatePoolParameters_ok (h : validatePoolParameters cap = .ok ()) :
    0 < cap.replayWords ∧ (cap.backend = .inline → 2 ≤ cap.maxPeers) := by
  unfold validatePoolParameters at h
  split at h
  · cases h
  rename_i hzero
  split at h
  · cases h
  rename_i hinline
  simp only [not_or] at hzero
  refine ⟨Nat.pos_of_ne_zero hzero.2.2.1, fun hb => ?_⟩
  simp only [not_and, not_or] at hinline
  have := (hinline hb).1
  omega

/-- A new engine passed the checks, and installed its pinned peers. -/
theorem new_cases (h : Core.new config rng relayPolicy now = .ok (.ok w)) : Checked cap config ∧
    ∃ cookieSecret rng', (installPinned now 0 config.pinned : CoreE cap R P Unit).run
      ⟨Core.empty config rng' relayPolicy cookieSecret now, [], 0⟩ = .ok (.ok (), w) := by
  unfold Core.new at h
  dsimp only at h
  split at h
  · cases h
  rename_i hchecked
  constructor
  · cases hpool : validatePoolParameters cap with
    | error e =>
      rw [hpool] at hchecked
      cases hchecked
    | ok u =>
      rw [hpool] at hchecked
      cases hlimits : config.coreConfig.validateAgainstLimits cap.backend with
      | error e =>
        rw [hlimits] at hchecked
        cases hchecked
      | ok u =>
        rw [hlimits] at hchecked
        simp only [bind, Except.bind, throw, throwThe, MonadExceptOf.throw] at hchecked
        split at hchecked
        · cases hchecked
        split at hchecked
        · cases hchecked
        split at hchecked
        · cases hchecked
        rename_i hpinned
        obtain ⟨hwords, hpeers⟩ := validatePoolParameters_ok hpool
        exact ⟨hwords, hpeers, hlimits, Nat.not_lt.mp hpinned, hchecked⟩
  · split at h
    · cases h
    · cases h
    · rename_i hrun
      cases h
      exact ⟨_, _, hrun⟩

theorem Checked.inv {t : Tables cap} (h : Checked cap config) (hblank : Blank now t)
    (hconfig : t.config = config.coreConfig) : t.Inv := by
  obtain ⟨hlimit, hresolve, houtbound, -, -⟩ := validateAgainstLimits_ok h.limits
  rw [← hconfig] at hlimit hresolve houtbound
  exact hblank.inv h.words hlimit hresolve houtbound

/-- The tables of a new engine are reached from empty ones. -/
theorem new_spec (h : Core.new config rng relayPolicy now = .ok (.ok w)) :
    Checked cap config ∧ ∃ t, Blank now t ∧ t.config = config.coreConfig ∧
      Steps now .install t w.tables ∧ w.tables.released = [] ∧ (∀ q, ¬w.tables.Unrouted q) ∧
      ∀ p, (w.tables.peer p).map Member.identity = config.pinned[p]?.map PinnedPeer.identity := by
  obtain ⟨hchecked, cookieSecret, rng', hrun⟩ := new_cases h
  refine ⟨hchecked, ?_⟩
  generalize hw0 : (⟨Core.empty config rng' relayPolicy cookieSecret now, [], 0⟩ : World cap R P) =
    w0
    at hrun
  have hblank : Blank now w0.tables := by
    rw [← hw0]
    exact blank_empty config rng' relayPolicy cookieSecret now
  have hconfig : w0.tables.config = config.coreConfig := by
    rw [← hw0]
    rfl
  have hI0 : w0.tables.Inv := hchecked.inv hblank hconfig
  have hfresh : Installing [] 0 w0 := by
    refine ⟨hI0, fun key p hp => ?_, fun j e he => ?_, fun j _ => ?_⟩
    · have hnone : w0.core.findPeer key = none := congrFun hblank.find key
      rw [hnone] at hp
      cases hp
    · rw [hblank.routes, RouteCache.entry_new] at he
      cases he
    · exact Option.map_eq_none_iff.mp (congrFun hblank.peer j)
  obtain ⟨r, w', hrun', hdone⟩ := installPinned_spec config.pinned [] 0 w0 hchecked.valid
    hfresh (by rw [Nat.zero_add]; exact hchecked.pinned)
  rw [hrun] at hrun'
  cases hrun'
  obtain ⟨hsteps, hreleased, hrouted, -, hpeers⟩ := hdone rfl
  refine ⟨w0.tables, hblank, hconfig, hsteps, hreleased.trans hblank.released, fun q hq =>
    ?_, fun p => ?_⟩
  · exact hblank.unrouted q (hrouted q hq)
  · have hp := hpeers p
    rwa [Nat.zero_add] at hp

theorem new_sound (h : Core.new config rng relayPolicy now = .ok (.ok w)) : w.Sound := by
  obtain ⟨hchecked, t, hblank, hconfig, hsteps, hreleased, hrouted, -⟩ := new_spec h
  obtain ⟨hlimit, hresolve, houtbound, -, -⟩ := validateAgainstLimits_ok hchecked.limits
  have hI : t.Inv := hblank.inv hchecked.words (by rw [hconfig]; exact hlimit)
    (by rw [hconfig]; exact hresolve) (by rw [hconfig]; exact houtbound)
  exact ⟨hsteps.inv hI, hrouted, hreleased, hsteps.timely hblank.timely,
    hsteps.candid hI hblank.candid, hchecked.peers⟩

end

end Microtun
