import Microtun.Core.Spec.Resolved

/-! What the answer to a lookup by address does to the tables and to the packets that wait for it.
-/

namespace Microtun

open Hoare Tables
open Function (update update_self update_of_ne)

namespace Tables

variable {cap : Capacities} {t t' : Tables cap} {now : Nat} {scope : Scope}

/-- Nothing waits for the lookup. -/
def Unawaited (t : Tables cap) (id : Nat) : Prop := ∀ q ∈ t.parked, q.wait ≠ .resolve id

/-- Some route leads to the address. -/
def Reaches (t : Tables cap) (address : IpAddr) : Prop :=
  ∃ i e, t.routes.entry i = some e ∧ e.cidr.contains address = true

theorem Unawaited.of_waiting {id : Nat} (h : Unawaited t id)
    (hle : t'.parked.filter (·.wait = .resolve id) ≤ t.parked.filter (·.wait = .resolve id)) :
    Unawaited t' id := by
  intro q hq hwait
  have hmem := Multiset.mem_of_le hle (Multiset.mem_filter.mpr ⟨hq, hwait⟩)
  exact h q (Multiset.mem_filter.mp hmem).1 hwait

variable [Crypto]

theorem Step.reaches (hstep : Step now scope t t') (hk : scope.rank ≤ 2) {address : IpAddr}
    (h : Reaches t address) : Reaches t' address := by
  obtain ⟨i, e, he, haddr⟩ := h
  by_cases hs : scope.Routine
  · exact ⟨i, e, by rw [(hstep.frame hs).routes]; exact he, haddr⟩
  · cases hstep with
    | flows _ => exact ⟨i, e, he, haddr⟩
    | use _ hr =>
      have := hr i
      rw [he, Option.map_some] at this
      obtain ⟨e', he', heq⟩ := Option.map_eq_some_iff.mp this
      have hcidr : e'.cidr = e.cidr := (Prod.mk.inj heq).1
      exact ⟨i, e', he', by rw [hcidr]; exact haddr⟩
    | refresh | route | evict | release | refuse | displace | install | flush =>
      exact absurd hk (by decide)
    | _ => exact absurd (by simp [Scope.Routine]) hs

theorem Steps.reaches (h : Steps now scope t t') (hk : scope.rank ≤ 2) {address : IpAddr}
    (ht : Reaches t address) : Reaches t' address :=
  h.keeps (I := fun u => Reaches u address)
    (fun _ _ _ hle hs hu => hs.reaches (hle.1.trans hk) hu) ht

end Tables

variable {cap : Capacities} {R P : Type} {w : World cap R P} {now : Nat}

theorem lookupReadonly_of_reaches (hI : w.tables.Registry) {address : IpAddr}
    (h : w.tables.Reaches address) : ∃ p, w.core.routes.lookupReadonly address = .ok (some p) := by
  obtain ⟨m, hm, -⟩ := hI.sound
  obtain ⟨i, e, he, haddr⟩ := h
  rcases RouteCache.lookup_spec hm address 0 with ⟨-, -, hnone⟩ | ⟨j, x, -, -, -, -, -, hread⟩
  · rw [hnone i e he] at haddr
    cases haddr
  · exact ⟨x.peer, hread⟩

theorem reaches_of_routed (hI : w.tables.Registry) {p : Nat} {m : Member}
    (hm : w.tables.peer p = some m) (hrouted : ¬w.tables.Unrouted p) {address : IpAddr}
    (haddr : m.address.contains address = true) : w.tables.Reaches address := by
  have hentry : ∃ i e, w.tables.routes.entry i = some e ∧ e.peer = p := by
    by_contra hno
    push Not at hno
    exact hrouted ⟨by rw [Installed, hm]; rfl, fun i e he => hno i e he⟩
  obtain ⟨i, e, he, hp⟩ := hentry
  obtain ⟨m', hm', hcidr, -⟩ := hI.owner i e he
  rw [hp, hm] at hm'
  obtain rfl := Option.some.inj hm'
  exact ⟨i, e, he, hcidr ▸ haddr⟩

theorem dropParked_spec [Crypto] (id now : Nat) :
    wpx (dropParked id : CoreE cap R P Unit) (fun r w' => r = .ok () ∧
      Steps now .quiet w.tables w'.tables ∧ Unawaited w'.tables id) w := by
  unfold dropParked
  rw [wpx_modifyCore]
  have hparked : ((w.core.pending.dropIf fun p => decide (p.wait = .resolve id)).packets :
      Multiset PendingPacket) = w.tables.parked.filter fun p => p.wait ≠ .resolve id := by
    rw [PendingPool.dropIf_packets]
    show _ = Multiset.filter _ (Multiset.ofList _)
    rw [Multiset.filter_coe]
    congr 1
    refine List.filter_congr fun q _ => ?_
    simp
  refine ⟨rfl, ?_, fun q hq => ?_⟩
  · refine (@Step.dropParked _ _ _ w.tables ((w.core.pending.dropIf fun p =>
      decide (p.wait = .resolve id)).packets) ?_).steps
    rw [hparked]
    exact Multiset.filter_le _ _
  · change q ∈ ((w.core.pending.dropIf fun p => decide (p.wait = .resolve id)).packets :
      Multiset PendingPacket) at hq
    rw [hparked] at hq
    exact (Multiset.mem_filter.mp hq).2

/-- The packets that wait for a lookup are about its address. -/
def Awaits (t : Tables cap) (id : Nat) (address : IpAddr) : Prop :=
  ∀ q ∈ t.parked, q.wait = .resolve id →
    ∃ header, Ip.parseHeader q.packet = some header ∧ header.dst = address

variable [Crypto] [RngCore R]

/-- Sending the packets that waited for a lookup, whatever they are. -/
theorem replayParked_steps (hI : w.tables.Inv) (id now fuel : Nat) :
    wp (replayParked id now fuel : CoreM cap R P Unit) (fun _ w' =>
      Steps now (.atDesk .flow) w.tables w'.tables) w := by
  induction fuel generalizing w with
  | zero => exact wp_pure.mpr (Steps.refl _)
  | succ fuel ih =>
    rw [replayParked]
    refine wp_seq (takeParked_spec now _) ?_
    rintro o w1 ⟨h1, -⟩
    cases o with
    | none => exact wp_pure.mpr (h1.widen (by decide))
    | some q =>
      simp only [wp_bind, wp_ignore]
      refine wpx_mono (outbound_spec (h1.inv hI) now q.packet) ?_
      rintro _ w2 ⟨h2, -⟩
      refine wp_mono (ih (h2.inv (h1.inv hI))) fun _ w3 h3 => ?_
      exact (h1.widen (by decide)).trans (h2.trans h3)

/-- Sending the packets that waited for a lookup: none waits for it any more. -/
theorem replayParked_spec (hI : w.tables.Inv) {id : Nat} {address : IpAddr}
    (hreach : w.tables.Reaches address) (hawaits : Awaits w.tables id address) (now fuel : Nat)
    (hfuel : (w.tables.parked.filter (·.wait = .resolve id)).card ≤ fuel) :
    wp (replayParked id now fuel : CoreM cap R P Unit) (fun _ w' =>
      Steps now .flow w.tables w'.tables ∧ Unawaited w'.tables id) w := by
  induction fuel generalizing w with
  | zero =>
    refine wp_pure.mpr ⟨Steps.refl _, fun q hq hwait => ?_⟩
    have hmem : q ∈ w.tables.parked.filter (·.wait = .resolve id) :=
      Multiset.mem_filter.mpr ⟨hq, hwait⟩
    rw [Multiset.card_eq_zero.mp (Nat.le_zero.mp hfuel)] at hmem
    exact Multiset.notMem_zero q hmem
  | succ fuel ih =>
    rw [replayParked]
    refine wp_seq (takeParked_spec now _) ?_
    rintro _ w1 ⟨h1, ⟨rfl, rfl, hnone⟩ | ⟨q, rfl, hpred, hparked⟩⟩
    · refine wp_pure.mpr ⟨Steps.refl _, fun q hq => ?_⟩
      simpa using hnone q (Multiset.mem_coe.mp hq)
    · have hwait : q.wait = .resolve id := by simpa using hpred
      have hq : q ∈ w.tables.parked := by
        rw [hparked]
        exact Multiset.mem_cons_self _ _
      obtain ⟨header, hparse, hdst⟩ := hawaits q hq hwait
      have hreach1 := h1.reaches (by decide) hreach
      have hI1 := h1.inv hI
      obtain ⟨p, hroute⟩ := lookupReadonly_of_reaches hI1.registry hreach1
      rw [← hdst] at hroute
      have hcard : (w1.tables.parked.filter (·.wait = .resolve id)).card + 1 =
          (w.tables.parked.filter (·.wait = .resolve id)).card := by
        rw [hparked, Multiset.filter_cons_of_pos
          (p := fun x : PendingPacket => x.wait = .resolve id) _ hwait, Multiset.card_cons]
      simp only [wp_bind, wp_ignore]
      refine wpx_mono (outbound_spec hI1 now q.packet) ?_
      rintro _ w2 ⟨-, h2⟩
      have h2 := h2 header p hparse hroute
      have hstill := h2.still rfl
      refine wp_mono (ih (h2.inv hI1) (h2.reaches (by decide) hreach1) ?_ ?_) ?_
      · intro x hx hxw
        have hmem := Multiset.mem_of_le (hstill.waiting id) (Multiset.mem_filter.mpr ⟨hx, hxw⟩)
        refine hawaits x ?_ hxw
        rw [hparked]
        exact Multiset.mem_cons_of_mem (Multiset.mem_filter.mp hmem).1
      · have := Multiset.card_le_card (hstill.waiting id)
        omega
      · rintro _ w3 ⟨h3, hdone⟩
        exact ⟨(h1.widen (by decide)).trans (h2.trans h3), hdone⟩

omit [RngCore R] in
/-- A negative answer for a lookup that is gone, and the packets that waited for it dropped. -/
theorem denyOutbound_spec (hI : w.tables.Inv) {entry : InflightResolve}
    (hnone : ∀ r ∈ w.core.resolves, r.live = true → r.query ≠ entry.query) (now : Nat) :
    wpx (do
      markNegative entry.query now
      dropParked entry.id : CoreE cap R P Unit) (fun r w' => r = .ok () ∧ Answered now w w' ∧
        Steps now (.atDesk .quiet) w.tables w'.tables ∧ Unawaited w'.tables entry.id) w := by
  unfold markNegative
  rw [wpx_bind, wpx_changeLookups, then_ok]
  have h1 := @markNegative_quiet _ _ _ _ now _ hI _ hnone
  change wpx _ _ (w.marked entry.query now)
  refine wpx_mono (dropParked_spec entry.id now) ?_
  rintro _ w2 ⟨rfl, h2, hdone⟩
  refine ⟨rfl, (Answered.of_desk h1 (marked_parked _ now).le).trans
    (Answered.of_steps h2 (Scope.quiet_le _)), h1.trans (h2.widen (Scope.quiet_le _)), hdone⟩

omit [Crypto] [RngCore R] in
theorem other_of_lookups {w' : World cap R P} (hl : w'.tables.lookups = w.tables.lookups)
    {query : ResolveQuery} (hnone : ∀ r ∈ w.core.resolves, r.live = true → r.query ≠ query) :
    ∀ r ∈ w'.core.resolves, r.live = true → r.query ≠ query := by
  intro r hr
  have hmem : r ∈ w'.tables.lookups := Multiset.mem_coe.mpr hr
  rw [hl] at hmem
  exact hnone r (Multiset.mem_coe.mp hmem)

omit [RngCore R] in
theorem installOutbound_spec (hI : w.tables.Inv) (hcap : cap.backend = .inline → 2 ≤ cap.maxPeers)
    (hreleased : w.tables.released = []) {entry : InflightResolve}
    (hnone : ∀ r ∈ w.core.resolves, r.live = true → r.query ≠ entry.query) {info : ResolvedPeer}
    (hcheck : w.core.checkResolvedAnswer entry.query info = .ok ()) (now : Nat) :
    wpx (installOutbound info info.publicKey entry now : CoreE cap R P _) (fun r w' =>
      (r = .error .crypto ∧ w.core.Secretless info.publicKey .lazyOutbound now ∧
        w'.tables = w.tables) ∨
      ∃ o, r = .ok o ∧ ¬w.core.Secretless info.publicKey .lazyOutbound now ∧ Answered now w w' ∧
        KeptOrReleased w' info.publicKey ∧ (o = none → Unawaited w'.tables entry.id) ∧
        ∀ p new, o = some (p, new) → ∃ m, w'.tables.peer p = some m ∧ m.address = info.address)
          w := by
  unfold installOutbound
  simp only [wpx_bind, wpx_getCore, then_ok]
  cases hfind : w.core.findPeer info.publicKey with
  | some p =>
    have hnot : ¬w.core.Secretless info.publicKey .lazyOutbound now := by
      rintro ⟨h, -⟩
      rw [hfind] at h
      cases h
    obtain ⟨e, he, hkey, hpin⟩ := dynamic_of_check hcheck hI.registry hfind
    dsimp only
    refine wpx_attempt_seq (commitExistingResolvedPeer_spec hI he hpin hkey now _ _) ?_
    rintro _ w1 (⟨err, rfl, href, hsame⟩ | ⟨rfl, h1, m, hm, hmk, hmp, hma⟩)
    · have hrefusal : err = .routeCacheFull ∨ err = .peerAdmissionLimited := href
      dsimp only
      rw [if_pos hrefusal, ← bind_assoc]
      have h1 : Answered now w w1 := Answered.of_steps hsame.steps (Scope.le_refl _)
      refine wpx_seq (denyOutbound_spec (hsame.steps.inv hI)
        (other_of_lookups (hsame.steps.still rfl).lookups hnone) now) ?_ ?_
      · rintro _ _ ⟨⟨⟩, -⟩
      · rintro _ w2 ⟨-, h2, hsteps, hdone⟩
        refine wpx_pure.mpr (Or.inr ⟨none, rfl, hnot, h1.trans h2, Or.inl ?_, fun _ => hdone,
          by rintro _ _ ⟨⟩⟩)
        refine hsteps.holds (by decide) ⟨p, e.member, ?_, hkey.symm, hpin⟩
        rw [hsame.peer]
        exact tables_peer he
    · refine wpx_pure.mpr (Or.inr ⟨_, rfl, hnot, Answered.of_steps h1 (Scope.le_refl _),
        Or.inl ⟨p, m, hm, hmk.trans hkey.symm, hmp⟩, by rintro ⟨⟩, ?_⟩)
      rintro _ _ ⟨⟩
      exact ⟨m, hm, hma⟩
  | none =>
    dsimp only
    refine wpx_attempt_seq (upsertPeerUnchecked_new hI info now .lazyOutbound hfind) ?_
    rintro _ w1 (⟨rfl, hsecret, hsame⟩ | ⟨err, rfl, hdecl, hnot, hsame⟩ | ⟨i, rfl, hnot, hadm⟩)
    · dsimp only
      rw [if_neg (by decide), wpx_throw]
      exact Or.inl ⟨rfl, hsecret, hsame⟩
    · have herr : err = .peerTableFull ∨ err = .peerAdmissionLimited := by
        rcases hdecl with h | h | ⟨-, h⟩
        · exact Or.inr h
        · exact Or.inl h
        · cases h
      dsimp only
      rw [if_pos herr]
      have h1 : Answered now w w1 := Answered.of_steps hsame.steps (Scope.le_refl _)
      refine wpx_seq (@release_spec _ _ _ _ now _ hcap (by rw [hsame.released]; exact hreleased)
        info.publicKey)
        ?_ ?_
      · rintro _ _ ⟨⟨⟩, -⟩
      rintro _ w2 ⟨-, h2, hkept⟩
      refine wpx_seq (dropParked_spec entry.id now) ?_ ?_
      · rintro _ _ ⟨⟨⟩, -⟩
      rintro _ w3 ⟨-, h3, hdone⟩
      refine wpx_pure.mpr (Or.inr ⟨none, rfl, hnot, (h1.trans (Answered.of_steps h2
        (Scope.le_refl _))).trans (Answered.of_steps h3 (Scope.quiet_le _)),
        hkept.steps h3 (by decide), fun _ => hdone, by rintro _ _ ⟨⟩⟩)
    · simp only [Bool.not_true, Bool.false_eq_true, if_false]
      have hI1 := hadm.steps.inv hI
      refine wpx_attempt_seq (routeNew_spec hI1 hadm _) ?_
      rintro _ w2 (⟨err, rfl, hsame⟩ | ⟨rfl, h2, hrouted, m, hm, hmk, hmp, hma⟩)
      · simp only [if_true]
        refine wpx_seq (evictNew_spec (hsame.steps.inv hI1) hcap hreleased (hadm.spent hsame)) ?_ ?_
        · rintro _ _ ⟨⟨⟩, -⟩
        rintro _ w3 ⟨-, h3, hrouted, hmem⟩
        have htake : Takes now w w3 := ⟨h3, hrouted⟩
        rw [← bind_assoc]
        refine wpx_seq (denyOutbound_spec (h3.inv hI)
          (other_of_lookups (h3.still rfl).lookups hnone)
          now) ?_ ?_
        · rintro _ _ ⟨⟨⟩, -⟩
        rintro _ w4 ⟨-, h4, hsteps, hdone⟩
        exact wpx_pure.mpr (Or.inr ⟨none, rfl, hnot, htake.answered.trans h4,
          KeptOrReleased.steps (Or.inr hmem) hsteps (by decide), fun _ => hdone, by rintro _ _ ⟨⟩⟩)
      · have htake : Takes now w w2 := ⟨h2, hrouted⟩
        refine wpx_pure.mpr (Or.inr ⟨_, rfl, hnot, htake.answered, Or.inl ⟨i, m, hm, hmk, hmp⟩,
          by rintro ⟨⟩, ?_⟩)
        rintro _ _ ⟨⟩
        exact ⟨m, hm, hma⟩

omit [Crypto] [RngCore R] in
theorem parked_card (w : World cap R P) (id : Nat) :
    (w.tables.parked.filter (·.wait = .resolve id)).card ≤ cap.backend.maxPendingPackets := by
  refine (Multiset.card_le_card (Multiset.filter_le _ _)).trans ?_
  show w.core.pending.slots.toList.reduceOption.length ≤ _
  refine (List.reduceOption_length_le _).trans ?_
  rw [Vector.length_toList]

omit [RngCore R] in
theorem Answered.awaits {w' : World cap R P} (h : Answered now w w') {id : Nat} {address : IpAddr}
    (hawaits : Awaits w.tables id address) : Awaits w'.tables id address := by
  intro q hq hwait
  have hmem : q ∈ w.tables.parked.filter (·.wait = .resolve id) :=
    Multiset.mem_of_le (h.waiting id) (Multiset.mem_filter.mpr ⟨hq, hwait⟩)
  exact hawaits q (Multiset.mem_filter.mp hmem).1 hwait

omit [RngCore R] in
/-- The peer of an answer is not kept: it is released, and the packets that waited are dropped. -/
theorem discardAnswer_spec (hcap : cap.backend = .inline → 2 ≤ cap.maxPeers)
    (hreleased : w.tables.released = []) (key : Key) (id now : Nat) :
    wpx (do
      modifyCore (Core.queuePeerEvicted key)
      dropParked id : CoreE cap R P Unit) (fun r w' => r = .ok () ∧ Answered now w w' ∧
        KeptOrReleased w' key ∧ Unawaited w'.tables id) w := by
  refine wpx_seq (@release_spec _ _ _ _ now _ hcap hreleased key) ?_ ?_
  · rintro _ _ ⟨⟨⟩, -⟩
  rintro _ w1 ⟨-, h1, hkept⟩
  refine wpx_mono (dropParked_spec id now) ?_
  rintro _ w2 ⟨rfl, h2, hdone⟩
  exact ⟨rfl, (Answered.of_steps h1 (Scope.le_refl _)).trans
    (Answered.of_steps h2 (Scope.quiet_le _)), hkept.steps h2 (by decide), hdone⟩

/-- The answer to a lookup by address, from an engine in which the lookup was removed. -/
theorem resolvedOutbound_spec (hI : w.tables.Inv) (hcap : cap.backend = .inline → 2 ≤ cap.maxPeers)
    (hreleased : w.tables.released = []) (hrouted : ∀ q, ¬w.tables.Unrouted q)
    {entry : InflightResolve} {address : IpAddr} (hquery : entry.query = .byDstAddress address)
    (hnone : ∀ r ∈ w.core.resolves, r.live = true → r.query ≠ entry.query)
    (outcome : ResolveOutcome) (now : Nat) :
    wpx (resolvedOutbound now entry outcome) (fun _ w' => Attended now w w' ∧
      PeerSettled w w' entry .lazyOutbound outcome now ∧
      (Awaits w.tables entry.id address → Answered now w w' ∧
        ((∀ info, outcome = .found info → ¬w.core.Stops entry.query .lazyOutbound info now) →
          Unawaited w'.tables entry.id))) w := by
  unfold resolvedOutbound
  simp only [hquery]
  cases outcome with
  | failed =>
    refine wpx_mono (dropParked_spec entry.id now) ?_
    rintro _ w1 ⟨-, h1, hdone⟩
    have h1 : Answered now w w1 := Answered.of_steps h1 (Scope.quiet_le _)
    exact ⟨h1.toAttended, by rintro _ ⟨⟩, fun _ => ⟨h1, fun _ => hdone⟩⟩
  | notFound =>
    rw [← hquery]
    refine wpx_mono (denyOutbound_spec hI hnone now) ?_
    rintro _ w1 ⟨-, h1, -, hdone⟩
    exact ⟨h1.toAttended, by rintro _ ⟨⟩, fun _ => ⟨h1, fun _ => hdone⟩⟩
  | found info =>
    dsimp only
    simp only [wpx_bind, wpx_getCore, then_ok]
    by_cases hcontains : info.address.contains address = true
    · rw [if_neg (by simp [hcontains])]
      cases hcheck : w.core.canonicalizeResolvedAnswer (.byDstAddress address) info with
      | error err =>
        refine wpx_mono (discardAnswer_spec hcap hreleased info.publicKey entry.id now) ?_
        rintro _ w1 ⟨-, h1, hkept, hdone⟩
        refine ⟨h1.toAttended, ?_, fun _ => ⟨h1, fun _ => hdone⟩⟩
        rintro _ ⟨⟩
        refine iff_of_true hkept ?_
        rintro ⟨-, ⟨info', hok⟩, -⟩
        rw [hquery, hcheck] at hok
        cases hok
      | ok info' =>
        obtain ⟨hinfo, hok⟩ := canonicalize_ok hcheck
        have hkey : info.publicKey = info'.publicKey := by rw [hinfo]
        have haddr : info'.address = info.address := by rw [hinfo]
        dsimp only
        rw [hkey]
        rw [← hquery] at hok
        refine wpx_seq (installOutbound_spec hI hcap hreleased hnone hok now) ?_ ?_
        · rintro err w1 (⟨-, hsecret, hsame⟩ | ⟨_, h, -⟩)
          · have hstops : w.core.Stops entry.query .lazyOutbound info now := by
              refine ⟨?_, ⟨info', hquery ▸ hcheck⟩, hkey ▸ hsecret⟩
              intro address' haddress
              rw [hquery] at haddress
              rwa [← ResolveQuery.byDstAddress.inj haddress]
            have h1 : Answered now w w1 := Answered.of_steps (Steps.of_eq hsame) (Scope.le_refl _)
            refine ⟨h1.toAttended, ?_,
              fun _ => ⟨h1, fun h => absurd (hquery ▸ hstops) (h info rfl)⟩⟩
            rintro _ ⟨⟩
            refine iff_of_false ?_ (not_not.mpr hstops)
            have hI1 : w1.tables.Inv := hsame ▸ hI
            refine not_keptOrReleased hI1.registry ?_ (by rw [hsame]; exact hreleased)
            have hfind : w1.tables.find = w.tables.find := by rw [hsame]
            rw [hkey]
            exact (congrFun hfind _).trans hsecret.1
          · cases h
        rintro o w1 (⟨h, -⟩ | ⟨_, ho, hnot, h1, hkept, hgone, hsome⟩)
        · cases h
        cases ho
        have hsettle : ∀ w' : World cap R P, KeptOrReleased w' info'.publicKey →
            PeerSettled w w' entry .lazyOutbound (.found info) now := by
          intro w' hk
          rintro _ ⟨⟩
          refine iff_of_true (hkey ▸ hk) ?_
          rw [hquery]
          exact not_stops hcheck hnot
        cases o with
        | none =>
          exact wpx_pure.mpr ⟨h1.toAttended, hsettle w1 hkept, fun _ => ⟨h1, fun _ => hgone rfl⟩⟩
        | some o =>
          obtain ⟨p, new⟩ := o
          obtain ⟨m, hm, hma⟩ := hsome p new rfl
          have hI1 := h1.steps.inv hI
          -- The peer has its route, and its route leads to the address.
          have hreach : w1.tables.Reaches address := by
            refine reaches_of_routed hI1.registry hm (fun h => hrouted p (h1.routed p h)) ?_
            rw [hma, haddr]
            exact hcontains
          obtain ⟨q, hq⟩ := lookupReadonly_of_reaches hI1.registry hreach
          dsimp only
          refine wpx_lift_seq (routeOwner_spec hI1 address) ?_
          rintro owner w2 ⟨rfl, howner⟩
          rw [hq] at howner
          cases howner
          rw [if_neg (by simp)]
          simp only [wpx_bind, wpx_modifyCore, then_ok, wpx_liftM]
          have hclear := @clearNegative_steps _ _ _ w2 now _ (.byDstAddress address)
          have h3 : Answered now w (w2.withCore (w2.core.clearNegative (.byDstAddress address))) :=
            h1.trans (Answered.of_desk hclear le_rfl)
          have hkept3 := hkept.steps hclear (by decide)
          by_cases hawaits : Awaits w.tables entry.id address
          · refine wp_mono (replayParked_spec (h3.steps.inv hI) (hclear.reaches (by decide) hreach)
              (h3.awaits hawaits) now _ (parked_card _ _)) ?_
            rintro _ w4 ⟨h4, hdone⟩
            have hend := h3.trans (Answered.of_steps h4 (by decide))
            exact ⟨hend.toAttended, hsettle w4 (hkept3.steps h4 (by decide)),
              fun _ => ⟨hend, fun _ => hdone⟩⟩
          · refine wp_mono (replayParked_steps (h3.steps.inv hI) entry.id now _) fun _ w4 h4 => ?_
            refine ⟨⟨h3.steps.trans (h4.widen (by decide)), fun q hq => ?_⟩,
              hsettle w4 (hkept3.steps h4 (by decide)), fun h => absurd h hawaits⟩
            exact h3.routed q (h4.unrouted (by decide) hq)
    · rw [if_pos (by simp [hcontains])]
      refine wpx_mono (discardAnswer_spec hcap hreleased info.publicKey entry.id now) ?_
      rintro _ w1 ⟨-, h1, hkept, hdone⟩
      refine ⟨h1.toAttended, ?_, fun _ => ⟨h1, fun _ => hdone⟩⟩
      rintro _ ⟨⟩
      refine iff_of_true hkept ?_
      rintro ⟨h, -⟩
      exact hcontains (h address hquery)

end Microtun
