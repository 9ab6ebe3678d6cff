import Microtun.Core.Spec.Reconcile

/-! What requests to the resolver and packets of ours do to the tables. -/

namespace Microtun

open Hoare Tables
open Function (update update_self update_of_ne)

variable {cap : Capacities} {R P : Type} [Crypto] {w : World cap R P} {now : Nat}

/-! ### Requests -/

/-- A lookup that was queued is in the table. -/
def Queued (c : Core cap R P) (id : Nat) (kind : ResolveKind) (query : ResolveQuery) : Prop :=
  ∃ r ∈ c.resolves, r.id = id ∧ r.kind = kind ∧ r.query = query

/-- A lookup of a peer by its key is queued as `id`, where it could be asked for. -/
structure Requested (now : Nat) (key : Key) (source : InstallSource) (t t' : Tables cap) (id : Nat)
    (r : InflightResolve) : Prop where
  asked : Askable now t r
  id : r.id = id
  kind : r.kind = .install source
  query : r.query = .byPublicKey key
  emitted : r.emitted = false
  queued : t' = t.withLookups (r ::ₘ t.lookups)

theorem queuePeerInstall_spec (hI : w.tables.Inv) (key : Key) (source : InstallSource) (now : Nat) :
    ((w.core.queuePeerInstall key source now).1 = none ∧
      (w.withCore (w.core.queuePeerInstall key source now).2).tables = w.tables) ∨
    ∃ id r t, (w.core.queuePeerInstall key source now).1 = some id ∧
      Steps now (.atDesk .quiet) w.tables t ∧
      Requested now key source t (w.withCore (w.core.queuePeerInstall key source now).2).tables id
        r := by
  unfold Core.queuePeerInstall
  split
  · exact Or.inl ⟨rfl, rfl⟩
  rename_i hunasked
  have hunasked := unasked_of_not_suppressed (Bool.eq_false_iff.mpr hunasked)
  dsimp only
  split
  · exact Or.inl ⟨rfl, rfl⟩
  generalize hx : Core.allocResolveId { w.core with
    remoteResolves := (w.core.remoteResolves.tryTake now).2 } = x
  have hsame : (w.withCore x.2).tables = w.tables := by
    rw [← hx]
    rfl
  have hfresh : ∀ r ∈ x.2.resolves, r.id ≠ x.1 := by
    rw [← hx]
    exact allocResolveId_fresh (resolves_lt hI)
  have hpush := @pushResolve_room _ _ _ (w.withCore x.2) _ _ (hsame ▸ hI)
    ⟨x.1, .byPublicKey key, .install source, saturatingAdd now x.2.coreConfig.resolveTimeout, false⟩
    hfresh (by rw [hsame]; exact hunasked)
    fun hn _ => lt_saturatingAdd_of_lt (Nat.pos_of_ne_zero (hsame ▸ hI).resolveTimeout) hn
  rcases hpush with ⟨hbusy, -⟩ | ⟨rest, hok, hsteps⟩
  · rw [show x.2.pushResolve _ = _ from hbusy]
    exact Or.inl ⟨rfl, hsame⟩
  · rw [show x.2.pushResolve _ = _ from hok]
    obtain ⟨hroom, hask⟩ := hsteps w.tables (by rw [hsame]) (by rw [hsame])
    refine Or.inr ⟨x.1, _, _, rfl, hroom, ⟨hask, rfl, rfl, rfl, rfl, ?_⟩⟩
    rw [← hsame]
    show ((w.withCore x.2).tables.withLookups ((rest ++ [_] : List _) : Multiset _)).arm _ = _
    rw [withLookups_push]
    rfl

theorem requestPeerInstall_spec (hI : w.tables.Inv) (key : Key) (now : Nat) :
    ((w.core.requestPeerInstall key now).1 = none ∧
      (w.withCore (w.core.requestPeerInstall key now).2).tables = w.tables) ∨
    ∃ id r t, (w.core.requestPeerInstall key now).1 = some id ∧
      Steps now (.atDesk .quiet) w.tables t ∧ Requested now key .authenticatedInitiator t
        (w.withCore (w.core.requestPeerInstall key now).2).tables id r := by
  unfold Core.requestPeerInstall
  dsimp only
  split
  · exact Or.inl ⟨rfl, rfl⟩
  · exact queuePeerInstall_spec (w := w.withCore (w.core.peerIsGhosted key now).2) hI key _ now

theorem queuePeerInstall_relay (hI : w.tables.Inv) (key : Key) (now : Nat) :
    Steps now (.atDesk .quiet) w.tables
      (w.withCore (w.core.queuePeerInstall key .relay now).2).tables := by
  rcases queuePeerInstall_spec hI key .relay now with ⟨-, hsame⟩ | ⟨id, r, t, -, hsteps, hreq⟩
  · exact Steps.of_eq hsame
  · rw [hreq.queued]
    refine hsteps.trans (hreq.asked.ask ?_ hreq.emitted ?_ ?_)
    · simp [InflightResolve.live, hreq.kind]
    · rw [hreq.kind]
      rintro ⟨⟩
    · rw [InflightResolve.Fits, hreq.query]
      dsimp only
      rw [hreq.kind]
      rintro ⟨⟩

theorem requestRelayPeerInstall_steps (hI : w.tables.Inv) (submitter : Nat) (key : Key)
    (now : Nat) : Steps now (.atDesk .quiet) w.tables
      (w.withCore (w.core.requestRelayPeerInstall submitter key now)).tables := by
  unfold Core.requestRelayPeerInstall
  split
  · exact Steps.refl _
  dsimp only
  split
  · exact Steps.refl _
  split
  · exact Steps.refl _
  generalize hc : (w.core.peerIsGhosted key now).2 = c
  have hsame : (w.withCore c).tables = w.tables := by
    rw [← hc]
    rfl
  split
  · split
    · exact Steps.of_eq hsame
    · rename_i peer hpeer
      split
      · exact Steps.of_eq hsame
      -- The time of the request is not in the tables.
      have hset : (w.withCore (c.setPeer submitter (some { peer with
          lastRelayResolve := some now }))).tables = w.tables :=
        (@tables_setPeer_same _ _ _ _ _ _ _ _ { peer with lastRelayResolve := some now } hpeer
          rfl).trans
          hsame
      rw [← hset] at hI ⊢
      exact queuePeerInstall_relay hI key now
  · rw [← hsame] at hI ⊢
    exact queuePeerInstall_relay hI key now

/-! ### Packets without a route -/

omit [Crypto] in
/-- There is no other entry for an address that has a negative answer. -/
theorem unasked_address {t : Tables cap} (h : t.Desk) {existing : InflightResolve}
    {rest : Multiset InflightResolve} {dst : IpAddr} (hl : t.lookups = existing ::ₘ rest)
    (hneg : existing.live = false) (hquery : existing.query = .byDstAddress dst) :
    ∀ x ∈ rest, x.query ≠ .byDstAddress dst := by
  intro x hx hq
  have hmem : existing ∈ t.lookups := hl ▸ Multiset.mem_cons_self _ _
  have hmem' : x ∈ t.lookups := hl ▸ Multiset.mem_cons_of_mem hx
  cases hlive : x.live with
  | true =>
    obtain ⟨key, hkey⟩ := h.apart existing hmem hneg x hmem' hlive (hq.trans hquery.symm)
    rw [hquery] at hkey
    cases hkey
  | false =>
    have hnodup := h.negative
    rw [hl, Multiset.filter_cons_of_pos _ (by simp [hneg]), Multiset.map_cons,
      Multiset.nodup_cons] at hnodup
    refine hnodup.1 (Multiset.mem_map.mpr ⟨x, Multiset.mem_filter.mpr ⟨hx, by simp [hlive]⟩, ?_⟩)
    exact hq.trans hquery.symm

/-- The lookup that a packet will wait for is in the table, or it replaces an expired marker; then
the timer is not armed yet. -/
theorem outboundResolve_spec (hI : w.tables.Inv) (dst : IpAddr) (now : Nat) :
    wpx (tryCore (Core.outboundResolve dst now)) (fun r w' =>
      ∃ lookups : List InflightResolve, w'.core.resolves = lookups ∧
        (∀ id, r = .ok (some id) → Queued w'.core id .outbound (.byDstAddress dst)) ∧
        (w'.tables = w.tables ∨ (w'.tables = w.tables.withLookups lookups ∨
            w'.tables = (w.tables.withLookups lookups).arm
              (saturatingAdd now w.core.coreConfig.resolveOutboundTimeout)) ∧
          (∃ id, r = .ok (some id)) ∧
          Steps now (.atDesk .quiet) w.tables ((w.tables.withLookups lookups).arm
            (saturatingAdd now w.core.coreConfig.resolveOutboundTimeout)))) w := by
  have hahead : now < maxMillis → w.core.coreConfig.negativeTtl ≠ 0 →
      now < saturatingAdd now w.core.coreConfig.resolveOutboundTimeout :=
    fun hn _ => lt_saturatingAdd_of_lt (Nat.pos_of_ne_zero hI.resolveOutboundTimeout) hn
  have hfresh := allocResolveId_fresh (c := w.core) (resolves_lt hI)
  rw [wpx_tryCore]
  refine ⟨_, rfl, ?_⟩
  unfold Core.outboundResolve
  dsimp only
  cases hfind : w.core.resolves.findIdx? fun r => decide (r.query = .byDstAddress dst) with
  | some pos =>
    obtain ⟨existing, hget, hquery⟩ := findIdx?_some hfind
    have hquery : existing.query = .byDstAddress dst := by simpa using hquery
    have hmem : existing ∈ w.core.resolves := List.mem_iff_getElem?.mpr ⟨pos, hget⟩
    dsimp only
    rw [hget]
    dsimp only
    by_cases hneg : existing.kind = .negative
    · rw [if_pos hneg]
      by_cases hfuture : now < existing.deadline
      · rw [if_pos hfuture]
        exact ⟨by rintro _ ⟨⟩, Or.inl rfl⟩
      · rw [if_neg hfuture]
        obtain ⟨rest, hperm, hset⟩ := set_perm_of_getElem? hget
          ⟨(w.core.allocResolveId).1, .byDstAddress dst, .outbound,
            saturatingAdd now w.core.coreConfig.resolveOutboundTimeout, false⟩
        have hold := lookups_perm hperm
        have hneg' := kind_negative.mpr hneg
        refine ⟨?_, Or.inr ⟨Or.inl rfl, ⟨_, rfl⟩, ?_⟩⟩
        · rintro _ ⟨⟩
          exact ⟨_, hset.mem_iff.mpr (List.mem_cons_self ..), rfl, rfl, rfl⟩
        · have hnew : ((w.core.resolves.set pos ⟨(w.core.allocResolveId).1, .byDstAddress dst,
              .outbound, saturatingAdd now w.core.coreConfig.resolveOutboundTimeout, false⟩ :
                List _) : Multiset InflightResolve) = _ ::ₘ (rest : Multiset InflightResolve) :=
            Multiset.coe_eq_coe.mpr hset
          show Steps _ _ _ ((w.tables.withLookups ((w.core.resolves.set pos _ : List _) :
            Multiset InflightResolve)).arm _)
          rw [hnew]
          refine steps_ask
            (hold ▸ Multiset.le_cons_self _ existing) ?_ ?_ rfl rfl (by rintro ⟨⟩) rfl hfresh
            (fun x hx hq => ?_) hahead
          · rw [hold, Multiset.filter_cons_of_neg _ (by simp [hneg'])]
          · have hroom := hI.desk.room
            rw [hold, Multiset.card_cons] at hroom
            exact hroom
          · exact absurd hq (unasked_address hI.desk hold hneg' hquery x hx)
    · rw [if_neg hneg]
      have hlive : existing.live = true := by simpa [InflightResolve.live] using hneg
      have hfits := hI.desk.fits existing hmem hlive
      rw [InflightResolve.Fits, hquery] at hfits
      refine ⟨?_, Or.inl rfl⟩
      rintro _ ⟨⟩
      exact ⟨existing, hmem, rfl, hfits, hquery⟩
  | none =>
    have hnone : ∀ x ∈ w.core.resolves, x.query ≠ .byDstAddress dst := by
      intro x hx
      simpa using List.findIdx?_eq_none_iff.mp hfind x hx
    have hpush := @pushResolve_spec _ _ _ (w.withCore w.core.allocResolveId.2) _ _ hI
      ⟨w.core.allocResolveId.1, .byDstAddress dst, .outbound,
      saturatingAdd now w.core.coreConfig.resolveOutboundTimeout, false⟩ hfresh rfl rfl
      (by rintro ⟨⟩) rfl (fun x hx hq => absurd hq (hnone x hx)) hahead
    rcases hpush with ⟨hbusy, -⟩ | ⟨rest, hok, hsteps⟩
    · dsimp only
      rw [show w.core.allocResolveId.2.pushResolve _ = _ from hbusy]
      exact ⟨by rintro _ ⟨⟩, Or.inl rfl⟩
    · dsimp only
      rw [show w.core.allocResolveId.2.pushResolve _ = _ from hok]
      refine ⟨?_, Or.inr ⟨Or.inr rfl, ⟨_, rfl⟩, hsteps _ rfl rfl⟩⟩
      rintro _ ⟨⟩
      exact ⟨_, List.mem_append_right _ (List.mem_singleton.mpr rfl), rfl, rfl, rfl⟩

/-- A packet waits for the lookup of its destination, and others may go. -/
theorem steps_await {t : Tables cap} {packet : List UInt8} {header : IpHeader} {id deadline : Nat}
    {parked : Multiset PendingPacket} {r : InflightResolve} (hparked : parked = t.parked ∨
      ∃ kept, kept ≤ t.parked ∧ parked = ⟨packet, .resolve id, deadline⟩ ::ₘ kept)
    (hd : now < maxMillis → t.config.negativeTtl ≠ 0 → now < deadline)
    (hr : r ∈ t.lookups) (hid : r.id = id) (hkind : r.kind = .outbound)
    (hquery : r.query = .byDstAddress header.dst) (hparse : Ip.parseHeader packet = some header) :
    Steps now (.atDesk .quiet) t ((t.withParked parked).arm deadline) := by
  have harm : Steps now (.atDesk .quiet) t (t.arm deadline) :=
    (Step.arm _).steps.widen (Scope.quiet_le _)
  rcases hparked with rfl | ⟨kept, hkept, rfl⟩
  · exact harm
  · have hdrop : Steps now (.atDesk .quiet) (t.arm deadline) ((t.withParked kept).arm deadline) :=
      (Step.dropParked (t := t.arm deadline) hkept).steps.widen (Scope.quiet_le _)
    have hadd : Steps now (.atDesk .quiet) ((t.withParked kept).arm deadline)
        ((t.withParked (⟨packet, .resolve id, deadline⟩ ::ₘ kept)).arm deadline) :=
      (Step.await (t := (t.withParked kept).arm deadline) (p := ⟨packet, .resolve id, deadline⟩)
        (ahead_arm hd) (congrArg _ hid.symm) hr hparse hquery hkind).steps
    exact harm.trans (hdrop.trans hadd)

theorem queueOutboundResolution_spec (hI : w.tables.Inv) {packet : List UInt8} {header : IpHeader}
    (hparse : Ip.parseHeader packet = some header) (now : Nat) :
    wpx (queueOutboundResolution header.dst packet now)
      (fun _ w' => Steps now (.atDesk .quiet) w.tables w'.tables) w := by
  unfold queueOutboundResolution
  simp only [wpx_bind, wpx_getCore, then_ok]
  generalize hd : saturatingAdd now w.core.coreConfig.resolveOutboundTimeout = deadline
  have hahead : now < maxMillis → w.tables.config.negativeTtl ≠ 0 → now < deadline := by
    intro hn _
    rw [← hd]
    exact lt_saturatingAdd_of_lt (Nat.pos_of_ne_zero hI.resolveOutboundTimeout) hn
  refine wpx_mono (outboundResolve_spec hI header.dst now) ?_
  rw [hd]
  rintro r w1 ⟨lookups, hl, hqueued, hcase⟩
  rcases r with e | _ | id
  · rcases hcase with h1 | ⟨-, ⟨_, h⟩, -⟩
    · exact Steps.of_eq h1
    · cases h
  · rcases hcase with h1 | ⟨-, ⟨_, h⟩, -⟩
    · exact wpx_pure.mpr (Steps.of_eq h1)
    · cases h
  · obtain ⟨x, hx, hid, hkind, hquery⟩ := hqueued id rfl
    rw [then_ok]
    refine wpx_mono park_tables ?_
    rintro _ w2 ⟨-, parked, h2, hparked⟩
    rcases hcase with h1 | ⟨h1, -, hask⟩
    · rw [h2, h1]
      rw [h1] at hparked
      refine steps_await hparked hahead ?_ hid hkind hquery hparse
      rw [← h1]
      exact hx
    · -- The timer that is armed for the packet serves the lookup as well.
      have htables : w2.tables =
          (((w.tables.withLookups lookups).arm deadline).withParked parked).arm deadline := by
        have htwice : ∀ t : Tables cap, (t.arm deadline).arm deadline = t.arm deadline := by
          intro t
          simp [Tables.arm, TimerCache.arm_idem]
        rcases h1 with h1 | h1
        · rw [h2, h1]
          exact (htwice ((w.tables.withLookups lookups).withParked parked)).symm
        · rw [h2, h1]
      have hsame : w1.tables.parked = w.tables.parked := by
        rcases h1 with h1 | h1
        · rw [h1]
          rfl
        · rw [h1]
          rfl
      rw [htables]
      rw [hsame] at hparked
      refine hask.trans (steps_await (r := x) (t := (w.tables.withLookups lookups).arm deadline)
        hparked hahead ?_ hid hkind hquery hparse)
      rw [← hl]
      exact hx

theorem lookupRoute_spec (hI : w.tables.Inv) (dst : IpAddr) (now : Nat) :
    wpx (lookupRoute dst now) (fun r w' => Steps now .flow w.tables w'.tables ∧
      ∃ o, r = .ok o ∧ w.core.routes.lookupReadonly dst = .ok o ∧
        ∀ p, o = some p → w'.tables.Installed p) w := by
  obtain ⟨m, hm, -⟩ := hI.registry.sound
  rcases RouteCache.lookup_spec hm dst now with ⟨hrun, hread, -⟩ | ⟨i, e, -, he, -, -, hrun, hread⟩
  · refine wpx_tryRoutes (show _ = Except.ok (Except.ok none, w.core.routes) from ?_)
      ⟨Steps.refl _, none, rfl, hread, by rintro _ ⟨⟩⟩
    simp only [show w.core.routes.lookup dst now = _ from hrun]
    rfl
  · have hentry := RouteCache.entry_setEntry (c := w.tables.routes) (RouteCache.lt_of_entry he)
      (some { e with lastUsed := now })
    refine wpx_tryRoutes (show _ = Except.ok (Except.ok (some e.peer),
      w.core.routes.setEntry i (some { e with lastUsed := now })) from ?_)
      ⟨?_, some e.peer, rfl, hread, ?_⟩
    · simp only [show w.core.routes.lookup dst now = _ from hrun]
      rfl
    · have hsound : RoutesSound (w.tables.routes.setEntry i (some { e with lastUsed := now })) :=
        hI.registry.sound.refresh he now
      refine (Step.use (t := w.tables) hsound fun j => ?_).steps
      rw [hentry]
      by_cases hj : j = i
      · rw [hj, update_self, he]
        rfl
      · rw [update_of_ne hj]
    · rintro _ ⟨⟩
      obtain ⟨m, hm, -⟩ := hI.registry.owner i e he
      show (w.tables.peer e.peer).isSome = true
      rw [hm]
      rfl

theorem outbound_spec [RngCore R] (hI : w.tables.Inv) (now : Nat) (packet : List UInt8) :
    wpx (outbound now packet) (fun _ w' => Steps now (.atDesk .flow) w.tables w'.tables ∧
      ∀ header p, Ip.parseHeader packet = some header →
        w.core.routes.lookupReadonly header.dst = .ok (some p) →
          Steps now .flow w.tables w'.tables) w := by
  unfold outbound
  split
  · exact wpx_throw.mpr ⟨Steps.refl _, fun _ _ _ _ => Steps.refl _⟩
  cases hparse : Ip.parseHeader packet with
  | none => exact wpx_throw.mpr ⟨Steps.refl _, by rintro _ _ ⟨⟩⟩
  | some header =>
    refine wpx_seq (lookupRoute_spec hI header.dst now) ?_ ?_
    · rintro _ w1 ⟨-, _, h, -⟩
      cases h
    rintro o w1 ⟨h1, _, ho, hread, hp⟩
    cases ho
    cases o with
    | none =>
      refine wpx_mono (queueOutboundResolution_spec (h1.inv hI) hparse now) fun _ w2 h2 => ⟨?_, ?_⟩
      · exact (h1.widen (by decide)).trans (h2.widen (by decide))
      · rintro _ p ⟨⟩ hroute
        rw [hread] at hroute
        cases hroute
    | some p =>
      refine wpx_mono (sendToPeer_spec (h1.inv hI) (hp p rfl) packet now) fun _ w2 h2 => ?_
      exact ⟨(h1.trans h2).widen (by decide), fun _ _ _ _ => h1.trans h2⟩

end Microtun
