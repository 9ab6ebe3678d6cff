import Microtun.Core.Desk
import Microtun.Core.Ledger

/-! What is kept for a peer outside of its sessions, and the invariant of all tables.  Every step
keeps it, and so does every run. -/

namespace Microtun

open Function (update update_self update_of_ne)

namespace Tables

variable {cap : Capacities} {t t' : Tables cap}

/-- What is kept for a peer outside of the sessions: its key, its route, its flows and the packets
that wait for its handshake.  It may still lack the route. -/
structure Registry (t : Tables cap) : Prop where
  find : ∀ key p, t.find key = some p ↔ ∃ m, t.peer p = some m ∧ m.key = key
  interval : ∀ p m, t.peer p = some m → m.interval ≠ some 0
  waits : ∀ q ∈ t.parked, ∀ p, q.wait = .handshake p → t.Installed p
  flows : t.firewall.Within t.Installed
  sound : RoutesSound t.routes
  owner : ∀ i e, t.routes.entry i = some e → ∃ m, t.peer e.peer = some m ∧ m.address = e.cidr ∧
    m.pinned = e.pinned
  single : ∀ i j e e', t.routes.entry i = some e → t.routes.entry j = some e' →
    e.peer = e'.peer → i = j

/-- The invariant of the tables. -/
structure Inv [Crypto] (t : Tables cap) : Prop where
  links : Links t
  registry : Registry t
  ledger : Ledger t
  desk : Desk t
  resolveTimeout : t.config.resolveTimeout ≠ 0
  resolveOutboundTimeout : t.config.resolveOutboundTimeout ≠ 0

/-- The peers that have no route. -/
def Unrouted (t : Tables cap) (p : Nat) : Prop :=
  t.Installed p ∧ ∀ i e, t.routes.entry i = some e → e.peer ≠ p

/-! ### Routes -/

section

variable {routes : RouteCache cap.maxRoutes}

theorem RoutesSound.refresh (h : RoutesSound routes) {i : Nat} {e : Entry}
    (he : routes.entry i = some e) (now : Nat) :
    RoutesSound (routes.setEntry i (some { e with lastUsed := now })) := by
  obtain ⟨m, hcon, hpin⟩ := h
  refine ⟨m, hcon.refresh he rfl rfl, fun j x hx hpinned => ?_⟩
  rw [RouteCache.entry_setEntry (RouteCache.lt_of_entry he)] at hx
  by_cases hj : j = i
  · rw [hj, update_self] at hx
    obtain rfl := Option.some.inj hx
    rw [hj]
    exact hpin i e he hpinned
  · rw [update_of_ne hj] at hx
    exact hpin j x hx hpinned

theorem RoutesSound.removePeer (h : RoutesSound routes) (p : Nat) :
    ∃ routes', routes.removePeer p = .ok (.ok (), routes') ∧ RoutesSound routes' ∧
      ∀ j, routes'.entry j = (routes.entry j).filter fun e => e.peer ≠ p := by
  obtain ⟨m, hcon, hpin⟩ := h
  obtain ⟨routes', m', hremove, hcon', hentry, -, hstay, -⟩ := RouteCache.removePeer_spec hcon p
  refine ⟨routes', hremove, ⟨m', hcon', fun j x hx hpinned => hstay _ _ ?_ (by simp [hx])⟩, hentry⟩
  rw [hentry] at hx
  exact hpin j x (Option.filter_eq_some_iff.mp hx).1 hpinned

/-- A route of a peer without routes is added where there is room; the prefix of a pinned route is
nobody else's. -/
theorem RoutesSound.insert (h : RoutesSound routes) {cidr : IpCidr} {p : Nat} (pinned : Bool)
    (now : Nat) (hown : ∀ i e, routes.entry i = some e → e.peer ≠ p)
    (hfree : ∃ i, i < cap.maxRoutes ∧ routes.entry i = none)
    (hpinned : pinned = true → ∀ i e, routes.entry i = some e → e.cidr ≠ cidr) :
    ∃ i routes', routes.insert cidr p pinned now = .ok (.ok (), routes') ∧ RoutesSound routes' ∧
      routes.entry i = none ∧ routes'.entry = update routes.entry i
        (some ⟨cidr, p, pinned, now, routes.nextInsertionOrder⟩) := by
  obtain ⟨m, hcon, hpin⟩ := h
  obtain ⟨k, hk, hnone⟩ := hfree
  rcases RouteCache.insert_spec hcon cidr p pinned now with ⟨j, x, hx, -, hxp, -⟩ |
    ⟨-, ⟨hfull, -⟩ | ⟨j, routes', m', hj, hfreej, hins, hentry, -, hcon', hstay, hnew, -⟩⟩
  · exact absurd hxp (hown j x hx)
  · exact absurd hfull (Nat.ne_of_lt (RouteCache.occupied_card_lt hk hnone))
  · refine ⟨j, routes', hins, ⟨m', hcon', fun i x hx hxpin => ?_⟩, hfreej, hentry⟩
    by_cases hij : i = j
    · subst hij
      rw [hentry, update_self] at hx
      obtain rfl := Option.some.inj hx
      refine hnew ?_
      by_contra hsome
      obtain ⟨i', hi'⟩ := Option.ne_none_iff_exists'.mp hsome
      obtain ⟨e, he, hcidr⟩ := hcon.incumbent cidr i' hi'
      exact hpinned hxpin i' e he hcidr
    · have hx' := hx
      rw [hentry, update_of_ne hij] at hx'
      exact hstay _ _ (hpin i x hx' hxpin) (by simp [hx])

end

/-! ### What a step of sessions leaves alone -/

/-- Only sessions and jobs changed. -/
structure Frame (t t' : Tables cap) : Prop where
  config : t'.config = t.config
  find : t'.find = t.find
  routes : t'.routes = t.routes
  firewall : t'.firewall = t.firewall
  identity : ∀ p, (t'.peer p).map Member.identity = (t.peer p).map Member.identity

theorem Frame.refl (t : Tables cap) : Frame t t := ⟨rfl, rfl, rfl, rfl, fun _ => rfl⟩

theorem Frame.trans {t'' : Tables cap} (h : Frame t t') (h' : Frame t' t'') : Frame t t'' :=
  ⟨h'.config.trans h.config, h'.find.trans h.find, h'.routes.trans h.routes,
    h'.firewall.trans h.firewall, fun p => (h'.identity p).trans (h.identity p)⟩

theorem Frame.installed (h : Frame t t') (p : Nat) : t'.Installed p ↔ t.Installed p := by
  have := congrArg Option.isSome (h.identity p)
  simp only [Option.isSome_map] at this
  simp [Installed, this]

theorem Frame.peer (h : Frame t t') {p : Nat} {m : Member} (hp : t.peer p = some m) :
    ∃ m', t'.peer p = some m' ∧ m'.identity = m.identity := by
  have hid := h.identity p
  rw [hp, Option.map_some] at hid
  exact Option.map_eq_some_iff.mp hid

theorem identity_update {p : Nat} {m m' : Member} (hp : t.peer p = some m)
    (h : m'.identity = m.identity) (q : Nat) :
    (update t.peer p (some m') q).map Member.identity = (t.peer q).map Member.identity := by
  by_cases hq : q = p
  · rw [hq, update_self, hp, Option.map_some, Option.map_some, h]
  · rw [update_of_ne hq]

theorem identity_clear (s q : Nat) :
    ((t.clear s).peer q).map Member.identity = (t.peer q).map Member.identity := by
  show (if (t.slot s).owner = some q then (t.peer q).map fun m => m.unlink s
    else t.peer q).map Member.identity = _
  split
  · rw [Option.map_map]
    rfl
  · rfl

/-! ### The registry -/

theorem Registry.congr (h : Registry t) (hf : Frame t t')
    (hw : ∀ q ∈ t'.parked, ∀ p, q.wait = .handshake p → t'.Installed p) : Registry t' := by
  have hpeer : ∀ {p m'}, t'.peer p = some m' → ∃ m, t.peer p = some m ∧
      m.identity = m'.identity := by
    intro p m' hp
    have hid := hf.identity p
    rw [hp, Option.map_some] at hid
    exact Option.map_eq_some_iff.mp hid.symm
  refine ⟨fun key p => ?_, fun p m' hp => ?_, hw, ?_, ?_, fun i e he => ?_, ?_⟩
  · rw [hf.find, h.find]
    constructor
    · rintro ⟨m, hm, rfl⟩
      obtain ⟨m', hm', hid⟩ := hf.peer hm
      exact ⟨m', hm', congrArg Identity.key hid⟩
    · rintro ⟨m', hm', rfl⟩
      obtain ⟨m, hm, hid⟩ := hpeer hm'
      exact ⟨m, hm, congrArg Identity.key hid⟩
  · obtain ⟨m, hm, hid⟩ := hpeer hp
    have hint : m.interval = m'.interval := congrArg Identity.interval hid
    rw [← hint]
    exact h.interval p m hm
  · rw [hf.firewall]
    exact h.flows.mono fun p => (hf.installed p).mpr
  · rw [hf.routes]
    exact h.sound
  · rw [hf.routes] at he
    obtain ⟨m, hm, haddr, hpin⟩ := h.owner i e he
    obtain ⟨m', hm', hid⟩ := hf.peer hm
    exact ⟨m', hm', (congrArg Identity.address hid).trans haddr,
      (congrArg Identity.pinned hid).trans hpin⟩
  · rw [hf.routes]
    exact h.single

/-- The record of a peer changes, apart from its key and its route. -/
theorem Registry.refresh (h : Registry t) {p : Nat} {m m' : Member} (hp : t.peer p = some m)
    (hkey : m'.key = m.key) (haddr : m'.address = m.address) (hpin : m'.pinned = m.pinned)
    (hint : m'.interval ≠ some 0) : Registry (t.setPeer p m') := by
  have hinst : ∀ q, (t.setPeer p m').Installed q ↔ t.Installed q := by
    intro q
    by_cases hq : q = p
    · simp [Installed, Tables.setPeer, hq, hp]
    · simp [Installed, Tables.setPeer, hq]
  have hpeer : ∀ q mq, t.peer q = some mq → ∃ mq', (t.setPeer p m').peer q = some mq' ∧
      mq'.key = mq.key ∧ mq'.address = mq.address ∧ mq'.pinned = mq.pinned := by
    intro q mq hq
    by_cases hqp : q = p
    · subst hqp
      obtain rfl : m = mq := Option.some.inj (hp.symm.trans hq)
      exact ⟨m', by simp [Tables.setPeer], hkey, haddr, hpin⟩
    · exact ⟨mq, by simpa [Tables.setPeer, hqp] using hq, rfl, rfl, rfl⟩
  refine ⟨fun key q => ?_, fun q mq hq => ?_, fun x hx q hq =>
    (hinst q).mpr (h.waits x hx q hq), ?_, h.sound, fun i e he => ?_, h.single⟩
  · show t.find key = some q ↔ _
    rw [h.find]
    constructor
    · rintro ⟨mq, hq, rfl⟩
      obtain ⟨mq', hq', hk, -, -⟩ := hpeer q mq hq
      exact ⟨mq', hq', hk⟩
    · rintro ⟨mq', hq', rfl⟩
      obtain ⟨mq, hq⟩ := Option.isSome_iff_exists.mp ((hinst q).mp (by simp [Installed, hq']))
      obtain ⟨mq'', hq'', hk, -, -⟩ := hpeer q mq hq
      obtain rfl : mq' = mq'' := Option.some.inj (hq'.symm.trans hq'')
      exact ⟨mq, hq, hk.symm⟩
  · by_cases hqp : q = p
    · obtain rfl : m' = mq := by simpa [Tables.setPeer, hqp] using hq
      exact hint
    · exact h.interval q mq (by simpa [Tables.setPeer, hqp] using hq)
  · exact h.flows.mono fun q => (hinst q).mpr
  · obtain ⟨m, hm, ha, hpn⟩ := h.owner i e he
    obtain ⟨m', hm', -, ha', hpn'⟩ := hpeer _ m hm
    exact ⟨m', hm', ha'.trans ha, hpn'.trans hpn⟩

theorem Registry.use (h : Registry t) {routes : RouteCache cap.maxRoutes}
    (hsound : RoutesSound routes)
    (hr : ∀ i, (routes.entry i).map (fun e => (e.cidr, e.peer, e.pinned)) =
      (t.routes.entry i).map fun e => (e.cidr, e.peer, e.pinned)) :
    Registry { t with routes } := by
  have hof : ∀ i e, routes.entry i = some e →
      ∃ e', t.routes.entry i = some e' ∧ e'.cidr = e.cidr ∧ e'.peer = e.peer ∧
        e'.pinned = e.pinned := by
    intro i e he
    have := hr i
    rw [he, Option.map_some] at this
    obtain ⟨e', he', heq⟩ := Option.map_eq_some_iff.mp this.symm
    exact ⟨e', he', by simpa using heq⟩
  refine ⟨h.find, h.interval, h.waits, h.flows, hsound, fun i e he => ?_,
    fun i j e e' he he' hpeer => ?_⟩
  · obtain ⟨e', he', hc, hpe, hpin⟩ := hof i e he
    rw [← hc, ← hpe, ← hpin]
    exact h.owner i e' he'
  · obtain ⟨x, hx, -, hxp, -⟩ := hof i e he
    obtain ⟨y, hy, -, hyp, -⟩ := hof j e' he'
    exact h.single i j x y hx hy (by rw [hxp, hyp, hpeer])

theorem Registry.route (h : Registry t) {p i : Nat} {m : Member} {e : Entry}
    {routes : RouteCache cap.maxRoutes} (hp : t.peer p = some m) (hsound : RoutesSound routes)
    (hentry : ∀ j, routes.entry j =
      update (fun j => (t.routes.entry j).filter fun e => e.peer ≠ p) i (some e) j)
    (hpeer : e.peer = p) (hpinned : e.pinned = m.pinned) :
    Registry { t.setPeer p { m with address := e.cidr } with routes } := by
  have hof : ∀ j x, routes.entry j = some x →
      (j = i ∧ x = e) ∨ (j ≠ i ∧ t.routes.entry j = some x ∧ x.peer ≠ p) := by
    intro j x hx
    rw [hentry] at hx
    by_cases hj : j = i
    · exact Or.inl ⟨hj, by simpa [hj] using hx.symm⟩
    · rw [update_of_ne hj, Option.filter_eq_some_iff] at hx
      exact Or.inr ⟨hj, hx.1, by simpa using hx.2⟩
  have hinst : ∀ q, t.Installed q →
      (update t.peer p (some { m with address := e.cidr }) q).isSome := by
    intro q hq
    by_cases hqp : q = p
    · simp [hqp]
    · rwa [update_of_ne hqp]
  refine ⟨fun key q => ?_, fun q mq hq => ?_, fun x hx q hq => hinst q (h.waits x hx q hq),
    h.flows.mono hinst, hsound, fun j x hx => ?_, fun j k x y hx hy hxy => ?_⟩
  · show t.find key = some q ↔ ∃ mq, update t.peer p (some { m with address := e.cidr }) q =
      some mq ∧ _
    rw [h.find]
    by_cases hqp : q = p
    · simp [hqp, hp]
    · rw [update_of_ne hqp]
  · change update t.peer p (some { m with address := e.cidr }) q = some mq at hq
    by_cases hqp : q = p
    · obtain rfl : { m with address := e.cidr } = mq := by simpa [hqp] using hq
      exact h.interval p m hp
    · rw [update_of_ne hqp] at hq
      exact h.interval q mq hq
  · show ∃ mq, update t.peer p (some { m with address := e.cidr }) x.peer = some mq ∧ _
    rcases hof j x hx with ⟨-, rfl⟩ | ⟨-, hx, hne⟩
    · exact ⟨{ m with address := x.cidr }, by rw [hpeer, update_self], rfl, hpinned.symm⟩
    · rw [update_of_ne hne]
      exact h.owner j x hx
  · rcases hof j x hx with ⟨rfl, rfl⟩ | ⟨hj, hx, hne⟩
    · rcases hof k y hy with ⟨rfl, rfl⟩ | ⟨hk, hy, hne⟩
      · rfl
      · exact absurd (hxy.symm.trans hpeer) hne
    · rcases hof k y hy with ⟨rfl, rfl⟩ | ⟨hk, hy, -⟩
      · exact absurd (hxy.trans hpeer) hne
      · exact h.single j k x y hx hy hxy

theorem Registry.evict (h : Registry t) {p : Nat} {m : Member} {routes : RouteCache cap.maxRoutes}
    (hp : t.peer p = some m) (hwait : ∀ q ∈ t.parked, q.wait ≠ .handshake p)
    (hflows : t.firewall.Within fun q => t.Installed q ∧ q ≠ p) (hsound : RoutesSound routes)
    (hentry : ∀ j, routes.entry j = (t.routes.entry j).filter fun e => e.peer ≠ p) :
    Registry { t with peer := update t.peer p none, find := update t.find m.key none, routes } := by
  have hof : ∀ j x, routes.entry j = some x → t.routes.entry j = some x ∧ x.peer ≠ p := by
    intro j x hx
    rw [hentry, Option.filter_eq_some_iff] at hx
    exact ⟨hx.1, by simpa using hx.2⟩
  have hinst : ∀ q, t.Installed q ∧ q ≠ p → (update t.peer p none q).isSome := by
    intro q hq
    rw [update_of_ne hq.2]
    exact hq.1
  refine ⟨fun key q => ?_, fun q mq hq => ?_, fun x hx q hq => ?_, hflows.mono hinst, hsound,
    fun j x hx => ?_, fun j k x y hx hy hxy => ?_⟩
  · show update t.find m.key none key = some q ↔ ∃ mq, update t.peer p none q = some mq ∧
      mq.key = key
    have hself := (h.find m.key p).mpr ⟨m, hp, rfl⟩
    by_cases hkey : key = m.key
    · subst hkey
      rw [update_self]
      refine iff_of_false (by simp) ?_
      rintro ⟨mq, hq, hmq⟩
      by_cases hqp : q = p
      · simp [hqp] at hq
      · rw [update_of_ne hqp] at hq
        have := (h.find m.key q).mpr ⟨mq, hq, hmq⟩
        exact hqp (Option.some.inj (this.symm.trans hself))
    · rw [update_of_ne hkey, h.find]
      by_cases hqp : q = p
      · simp [hqp, hp, Ne.symm hkey]
      · rw [update_of_ne hqp]
  · change update t.peer p none q = some mq at hq
    by_cases hqp : q = p
    · simp [hqp] at hq
    · rw [update_of_ne hqp] at hq
      exact h.interval q mq hq
  · refine hinst q ⟨h.waits x hx q hq, ?_⟩
    rintro rfl
    exact hwait x hx hq
  · obtain ⟨hx, hne⟩ := hof j x hx
    show ∃ mq, update t.peer p none x.peer = some mq ∧ _
    rw [update_of_ne hne]
    exact h.owner j x hx
  · exact h.single j k x y (hof j x hx).1 (hof k y hy).1 hxy

theorem Registry.install (h : Registry t) {p : Nat} {m : Member} (hp : t.peer p = none)
    (hkey : t.find m.key = none) (hinterval : m.interval ≠ some 0) :
    Registry { t.setPeer p m with find := update t.find m.key (some p) } := by
  have hinst : ∀ q, t.Installed q → (update t.peer p (some m) q).isSome := by
    intro q hq
    by_cases hqp : q = p
    · simp [hqp]
    · rwa [update_of_ne hqp]
  refine ⟨fun key q => ?_, fun q mq hq => ?_, fun x hx q hq => hinst q (h.waits x hx q hq),
    h.flows.mono hinst, h.sound, fun j x hx => ?_, h.single⟩
  · show update t.find m.key (some p) key = some q ↔
      ∃ mq, update t.peer p (some m) q = some mq ∧ mq.key = key
    by_cases hk : key = m.key
    · subst hk
      rw [update_self]
      by_cases hqp : q = p
      · simp [hqp]
      · rw [update_of_ne hqp, ← h.find, hkey]
        simp [Ne.symm hqp]
    · rw [update_of_ne hk, h.find]
      by_cases hqp : q = p
      · simp [hqp, hp, Ne.symm hk]
      · rw [update_of_ne hqp]
  · change update t.peer p (some m) q = some mq at hq
    by_cases hqp : q = p
    · obtain rfl : m = mq := by simpa [hqp] using hq
      exact hinterval
    · rw [update_of_ne hqp] at hq
      exact h.interval q mq hq
  · obtain ⟨mx, hmx, hrest⟩ := h.owner j x hx
    refine ⟨mx, ?_, hrest⟩
    show update t.peer p (some m) x.peer = some mx
    rw [update_of_ne]
    · exact hmx
    · intro heq
      rw [heq, hp] at hmx
      cases hmx

/-! ### Steps -/

section

variable {now : Nat} {scope : Scope} [Crypto]

theorem Step.frame (hstep : Step now scope t t') (hk : scope.Routine) : Frame t t' := by
  cases hstep with
  | clear s => exact ⟨rfl, rfl, rfl, rfl, identity_clear s⟩
  | initiate hp _ _ _ _ _ _ _ => exact ⟨rfl, rfl, rfl, rfl, identity_update hp rfl⟩
  | pass hp _ _ => exact ⟨rfl, rfl, rfl, rfl, identity_update hp rfl⟩
  | respond hp _ _ _ _ _ => exact ⟨rfl, rfl, rfl, rfl, identity_update hp rfl⟩
  | complete hp _ _ _ _ _ _ => exact ⟨rfl, rfl, rfl, rfl, identity_update hp rfl⟩
  | confirm hp _ _ _ => exact ⟨rfl, rfl, rfl, rfl, identity_update hp rfl⟩
  | timers hp _ _ _ _ => exact ⟨rfl, rfl, rfl, rfl, identity_update hp rfl⟩
  | lapse hp => exact ⟨rfl, rfl, rfl, rfl, identity_update hp rfl⟩
  | flows _ => exact absurd hk (by decide)
  | use _ _ => exact absurd hk (by decide)
  | refresh _ _ _ _ _ => exact absurd hk (by decide)
  | route _ _ _ _ _ _ => exact absurd hk (by decide)
  | evict _ _ _ _ _ _ _ => exact absurd hk (by decide)
  | install _ _ _ _ _ _ => exact absurd hk (by decide)
  | _ => exact ⟨rfl, rfl, rfl, rfl, fun _ => rfl⟩

theorem Step.quiet (hstep : Step now scope t t') (hk : scope.rank = 0) : t'.marks = t.marks := by
  cases hstep with
  | sealed _ _ _ _ _ _ _ => exact absurd hk (by decide)
  | accept _ _ => exact absurd hk (by decide)
  | deliver _ _ => exact absurd hk (by decide)
  | relayFailed _ => exact absurd hk (by decide)
  | _ => rfl

theorem Step.sessions (hstep : Step now scope t t') (hk : scope.rank ≤ 2) {s : Nat}
    {sess' : Session cap.replayWords} (hs : t'.slot s = .established sess') :
    ∃ sess, t.slot s = .established sess ∧ sess'.peer = sess.peer := by
  have hkeep : ∀ (r : Nat) (x : Slot cap.replayWords), update t.slot r x s = .established sess' →
      (∀ sess', x = .established sess' → ∃ sess, t.slot r = .established sess ∧
        sess'.peer = sess.peer) →
      ∃ sess, t.slot s = .established sess ∧ sess'.peer = sess.peer := by
    intro r x hr hx
    by_cases hsr : s = r
    · subst hsr
      rw [update_self] at hr
      exact hx sess' hr
    · rw [update_of_ne hsr] at hr
      exact ⟨sess', hr, rfl⟩
  cases hstep with
  | clear r => exact hkeep r .free hs (by rintro _ ⟨⟩)
  | initiate _ _ _ _ _ _ _ _ => exact hkeep _ _ hs (by rintro _ ⟨⟩)
  | retry _ _ _ _ _ _ => exact hkeep _ _ hs (by rintro _ ⟨⟩)
  | respond _ _ _ _ _ _ => exact absurd hk (by decide)
  | complete _ _ _ _ _ _ _ => exact absurd hk (by decide)
  | confirm _ hr _ _ => exact hkeep _ _ hs (by rintro _ ⟨⟩; exact ⟨_, hr, rfl⟩)
  | noteRekey hr _ => exact hkeep _ _ hs (by rintro _ ⟨⟩; exact ⟨_, hr, rfl⟩)
  | sealed hr _ _ _ _ _ _ => exact hkeep _ _ hs (by rintro _ ⟨⟩; exact ⟨_, hr, rfl⟩)
  | accept hr _ => exact hkeep _ _ hs (by rintro _ ⟨⟩; exact ⟨_, hr, rfl⟩)
  | reject hr _ => exact hkeep _ _ hs (by rintro _ ⟨⟩; exact ⟨_, hr, rfl⟩)
  | _ => exact ⟨sess', hs, rfl⟩

theorem Step.config (hstep : Step now scope t t') : t'.config = t.config := by
  cases hstep <;> rfl

/-- Packets that are kept, or parked by a step, wait for peers that are there. -/
theorem Registry.waits_step (h : Registry t) (hstep : Step now scope t t') (hk : scope.Routine) :
    ∀ q ∈ t'.parked, ∀ p, q.wait = .handshake p → t'.Installed p := by
  intro q hmem p hq
  rw [(hstep.frame hk).installed]
  cases hstep with
  | dropParked hle => exact h.waits q (Multiset.mem_of_le hle hmem) p hq
  | park hd hw hp =>
    rcases Multiset.mem_cons.mp hmem with rfl | hmem
    · rw [hq] at hw
      cases hw
      exact hp
    · exact h.waits q hmem p hq
  | await hd hw _ _ _ _ =>
    rcases Multiset.mem_cons.mp hmem with rfl | hmem
    · rw [hq] at hw
      cases hw
    · exact h.waits q hmem p hq
  | _ => exact h.waits q hmem p hq

theorem Registry.step (h : Registry t) (hstep : Step now scope t t') : Registry t' := by
  by_cases hk : scope.Routine
  · exact h.congr (hstep.frame hk) (h.waits_step hstep hk)
  · cases hstep with
    | flows hf => exact ⟨h.find, h.interval, h.waits, hf, h.sound, h.owner, h.single⟩
    | use hsound hr => exact h.use hsound hr
    | refresh hp _ hint _ _ => exact h.refresh hp rfl rfl rfl hint
    | route hp hsound hentry _ hpeer hpinned => exact h.route hp hsound hentry hpeer hpinned
    | evict hp _ _ hwait hflows hsound hentry =>
      have hgone := h.evict hp hwait hflows hsound hentry
      exact ⟨hgone.find, hgone.interval, hgone.waits, hgone.flows, hgone.sound, hgone.owner,
        hgone.single⟩
    | release key => exact ⟨h.find, h.interval, h.waits, h.flows, h.sound, h.owner, h.single⟩
    | install hp hkey hint _ _ _ =>
      have hnew := h.install hp hkey hint
      exact ⟨hnew.find, hnew.interval, hnew.waits, hnew.flows, hnew.sound, hnew.owner, hnew.single⟩
    | refuse | displace | flush =>
      exact ⟨h.find, h.interval, h.waits, h.flows, h.sound, h.owner, h.single⟩
    | _ => exact absurd (by simp [Scope.Routine]) hk

theorem Inv.step (h : Inv t) (hstep : Step now scope t t') : Inv t' :=
  ⟨h.links.step hstep, h.registry.step hstep, h.ledger.step hstep, h.desk.step hstep,
    hstep.config ▸ h.resolveTimeout, hstep.config ▸ h.resolveOutboundTimeout⟩

/-- Only an installation leaves a peer without a route. -/
theorem Step.unrouted (hstep : Step now scope t t') (hk : scope.rank ≤ 4) {p : Nat}
    (hp : t'.Unrouted p) : t.Unrouted p := by
  by_cases hs : scope.Routine
  · have hf := hstep.frame hs
    exact ⟨(hf.installed p).mp hp.1, hf.routes ▸ hp.2⟩
  · cases hstep with
    | flows _ => exact hp
    | use _ hr =>
      refine ⟨hp.1, fun i e he => ?_⟩
      have := hr i
      rw [he, Option.map_some] at this
      obtain ⟨e', he', heq⟩ := Option.map_eq_some_iff.mp this
      have hpe : e'.peer = e.peer := (Prod.mk.inj (Prod.mk.inj heq).2).1
      exact hpe ▸ hp.2 i e' he'
    | @refresh _ q m _ _ _ _ hq _ _ _ _ =>
      refine ⟨?_, hp.2⟩
      have := hp.1
      by_cases hpq : p = q
      · simp [Installed, hpq, hq]
      · simpa [Installed, Tables.setPeer, hpq] using this
    | @route _ q i m e routes hq _ hentry hi hpeer _ =>
      have hpq : p ≠ q := by
        rintro rfl
        exact hp.2 i e (by rw [hentry, update_self]) hpeer
      refine ⟨?_, fun j x hx heq => ?_⟩
      · simpa [Installed, Tables.setPeer, hpq] using hp.1
      · have hji : j ≠ i := by
          rintro rfl
          rw [hx] at hi
          exact hpq (heq.symm.trans (by simpa using hi))
        refine hp.2 j x ?_ heq
        rw [hentry, update_of_ne hji, hx]
        simp [heq, hpq]
    | @evict _ q m routes hq _ _ _ _ _ hentry =>
      have hinst : (update t.peer q none p).isSome := hp.1
      have hfree : ∀ i e, routes.entry i = some e → e.peer ≠ p := hp.2
      have hpq : p ≠ q := by
        rintro rfl
        simp at hinst
      refine ⟨by simpa [Installed, hpq] using hinst, fun j x hx heq => ?_⟩
      refine hfree j x ?_ heq
      rw [hentry, hx]
      simp [heq, hpq]
    | release | refuse | displace => exact hp
    | install _ _ _ _ _ _ => exact absurd hk (by decide)
    | flush => exact absurd hk (by decide)
    | _ => exact absurd (by simp [Scope.Routine]) hs

end

/-! ### Runs -/

section

variable {now : Nat} {scope scope' : Scope} {t'' : Tables cap} [Crypto]

theorem Steps.refl (t : Tables cap) : Steps now scope t t := Relation.ReflTransGen.refl

theorem Steps.trans (h : Steps now scope t t') (h' : Steps now scope t' t'') :
    Steps now scope t t'' := Relation.ReflTransGen.trans h h'

theorem Step.steps (h : Step now scope t t') : Steps now scope t t' :=
  Relation.ReflTransGen.single ⟨scope, Scope.le_refl scope, h⟩

theorem Steps.widen (h : Steps now scope t t') (hk : scope ≤ scope') : Steps now scope' t t' := by
  induction h with
  | refl => exact Steps.refl t
  | tail _ hlast ih =>
    obtain ⟨k, hle, hstep⟩ := hlast
    exact ih.tail ⟨k, Scope.le_trans hle hk, hstep⟩

theorem Steps.of_eq (h : t' = t) : Steps now scope t t' := by
  rw [h]
  exact Steps.refl t

theorem Steps.then_quiet (h : Steps now scope t t')
    (h' : Steps now .quiet t' t'') : Steps now scope t t'' :=
  h.trans (h'.widen (Scope.quiet_le _))

theorem Steps.keeps {I : Tables cap → Prop} (h : Steps now scope t t')
    (hstep : ∀ k t t', k ≤ scope → Step now k t t' → I t → I t') (ht : I t) : I t' := by
  induction h with
  | refl => exact ht
  | tail _ hlast ih =>
    obtain ⟨k, hk, hlast⟩ := hlast
    exact hstep k _ _ hk hlast ih

theorem Steps.inv (h : Steps now scope t t') (ht : Inv t) : Inv t' :=
  h.keeps (fun _ _ _ _ hs hi => hi.step hs) ht

theorem Steps.frame (h : Steps now scope t t') (hk : scope.rank ≤ 1) : Frame t t' :=
  h.keeps (I := Frame t) (fun _ _ _ hle hs hf => hf.trans (hs.frame (Or.inl (hle.1.trans hk))))
    (Frame.refl t)

theorem Steps.quiet (h : Steps now scope t t') (hk : scope.rank = 0) : t'.marks = t.marks :=
  h.keeps (I := fun u => u.marks = t.marks)
    (fun _ _ _ hle hs hm => (hs.quiet (Nat.le_zero.mp (hk ▸ hle.1))).trans hm) rfl

theorem Steps.sessions (h : Steps now scope t t') (hk : scope.rank ≤ 2) {s : Nat}
    {sess' : Session cap.replayWords} (hs : t'.slot s = .established sess') :
    ∃ sess, t.slot s = .established sess ∧ sess'.peer = sess.peer := by
  refine h.keeps (I := fun u => ∀ sess', u.slot s = .established sess' →
    ∃ sess, t.slot s = .established sess ∧ sess'.peer = sess.peer) ?_ ?_ sess' hs
  · intro k u u' hle hstep hu sess' hs
    obtain ⟨sess₁, h₁, hp₁⟩ := hstep.sessions (hle.1.trans hk) hs
    obtain ⟨sess, hsess, hp⟩ := hu sess₁ h₁
    exact ⟨sess, hsess, hp₁.trans hp⟩
  · exact fun sess' hs => ⟨sess', hs, rfl⟩

theorem Steps.config (h : Steps now scope t t') : t'.config = t.config :=
  h.keeps (I := fun u => u.config = t.config) (fun _ _ _ _ hs hc => hs.config.trans hc) rfl

theorem Steps.unrouted (h : Steps now scope t t') (hk : scope.rank ≤ 4) {p : Nat}
    (hp : t'.Unrouted p) : t.Unrouted p :=
  h.keeps (I := fun u => u.Unrouted p → t.Unrouted p)
    (fun _ _ _ hle hs hu hp => hu (hs.unrouted (hle.1.trans hk) hp)) id hp

end

end Tables

end Microtun
