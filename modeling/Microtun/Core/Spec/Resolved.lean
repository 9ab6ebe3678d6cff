import Microtun.Core.Spec.Answers

/-! What the answer to a lookup does to the tables. -/

namespace Microtun

open Hoare Tables
open Function (update update_self update_of_ne)

namespace Tables

variable {cap : Capacities} {t t' : Tables cap} {now : Nat} {scope : Scope} {key : Key}

/-- Is the key that of a dynamic peer? -/
def Holds (t : Tables cap) (key : Key) : Prop :=
  ∃ p m, t.peer p = some m ∧ m.key = key ∧ m.pinned = false

theorem mem_release {n : Nat} (hn : cap.backend = .inline → n < cap.maxPeers)
    (hlen : t.released.length ≤ n) (key : Key) : key ∈ (t.release key).released := by
  unfold release
  dsimp only
  split
  · assumption
  split
  · rename_i hfull
    have := hn hfull.1
    omega
  · simp

variable [Crypto]

theorem Step.holds (hstep : Step now scope t t') (hk : scope.rank ≤ 3) (h : Holds t key) :
    Holds t' key := by
  obtain ⟨p, m, hp, hkey, hpinned⟩ := h
  by_cases hs : scope.Routine
  · obtain ⟨m', hm', hid⟩ := (hstep.frame hs).peer hp
    exact ⟨p, m', hm', (congrArg Identity.key hid).trans hkey,
      (congrArg Identity.pinned hid).trans hpinned⟩
  · cases hstep with
    | flows _ => exact ⟨p, m, hp, hkey, hpinned⟩
    | use _ _ => exact ⟨p, m, hp, hkey, hpinned⟩
    | refresh | route | evict | release | refuse | displace | install | flush =>
      exact absurd hk (by decide)
    | _ => exact absurd (by simp [Scope.Routine]) hs

theorem Steps.holds (h : Steps now scope t t') (hk : scope.rank ≤ 3) (ht : Holds t key) :
    Holds t' key :=
  h.keeps (I := fun u => Holds u key) (fun _ _ _ hle hs hu => hs.holds (hle.1.trans hk) hu) ht

omit [Crypto] in
theorem release_subset (t : Tables cap) (key : Key) : t.released ⊆ (t.release key).released := by
  intro x hx
  unfold release
  dsimp only
  split
  · exact hx
  split
  · exact hx
  · exact List.mem_append_left _ hx

theorem Step.released (hstep : Step now scope t t') (hk : scope.rank ≤ 5) :
    t.released ⊆ t'.released := by
  cases hstep with
  | evict _ _ _ _ _ _ _ => exact release_subset t _
  | release key => exact release_subset t key
  | flush => exact absurd hk (by decide)
  | _ => exact fun _ hx => hx

theorem Steps.released (h : Steps now scope t t') (hk : scope.rank ≤ 5) :
    t.released ⊆ t'.released :=
  h.keeps (I := fun u => t.released ⊆ u.released)
    (fun _ _ _ hle hs hu => List.Subset.trans hu (hs.released (hle.1.trans hk))) fun _ hx => hx

theorem Step.reports (hstep : Step now scope t t') (hk : scope.rank ≤ 5) :
    t'.reports = t.reports := by
  cases hstep with
  | flush => exact absurd hk (by decide)
  | _ => rfl

theorem Steps.reports (h : Steps now scope t t') (hk : scope.rank ≤ 5) : t'.reports = t.reports :=
  h.keeps (I := fun u => u.reports = t.reports)
    (fun _ _ _ hle hs hu => (hs.reports (hle.1.trans hk)).trans hu) rfl

end Tables

variable {cap : Capacities} {R P : Type} {w : World cap R P} {c : Core cap R P} {now : Nat} [Crypto]

/-- An answer for a new peer that there is a place for, but no shared secret. -/
def Core.Secretless (key : Key) (admission : PeerAdmission) (now : Nat) (c : Core cap R P) : Prop :=
  c.findPeer key = none ∧ c.admits key admission now = true ∧ dh c.sPriv key = .error .crypto

/-- An answer is kept by the engine, or released to the resolver. -/
def KeptOrReleased (w : World cap R P) (key : Key) : Prop :=
  w.tables.Holds key ∨ key ∈ w.tables.released

/-- Inserting a peer that is not there: it fails without a change, or the peer is admitted. -/
theorem upsertPeerUnchecked_new (hI : w.tables.Inv) (info : ResolvedPeer) (now : Nat)
    (admission : PeerAdmission) (hkey : w.core.findPeer info.publicKey = none) :
    wpx (upsertPeerUnchecked info now admission : CoreE cap R P _) (fun r w' =>
      (r = .error .crypto ∧ w.core.Secretless info.publicKey admission now ∧ w'.tables = w.tables) ∨
      (∃ err, r = .error err ∧ err.Declines admission ∧
        ¬w.core.Secretless info.publicKey admission now ∧ Spent now w.tables w'.tables) ∨
      ∃ i, r = .ok (i, true, true) ∧ ¬w.core.Secretless info.publicKey admission now ∧
        Admitted now info w.tables w'.tables i) w := by
  unfold upsertPeerUnchecked
  simp only [wpx_bind, wpx_getCore, then_ok, hkey]
  refine wpx_mono (admitPeer_spec hI info now admission hkey) ?_
  rintro _ w1 (⟨rfl, hadm, hdh, hsame⟩ | ⟨err, rfl, hdecl, hwhy, hsame⟩ |
    ⟨i, shared, rfl, hdh, hadm⟩)
  · exact Or.inl ⟨rfl, ⟨hkey, hadm, hdh⟩, hsame⟩
  · refine Or.inr (Or.inl ⟨err, rfl, hdecl, ?_, hsame⟩)
    rintro ⟨-, hadm, hdh⟩
    rcases hwhy with h | ⟨shared, h⟩
    · rw [hadm] at h
      cases h
    · rw [hdh] at h
      cases h
  · refine wpx_pure.mpr (Or.inr (Or.inr ⟨i, rfl, ?_, hadm⟩))
    rintro ⟨-, -, h⟩
    rw [hdh] at h
    cases h

theorem Tables.Admitted.spent {t u u' : Tables cap} {info : ResolvedPeer} {i : Nat}
    (hadm : Admitted now info t u i) (h : Spent now u u') : Admitted now info t u' i := by
  refine ⟨hadm.steps.trans (h.steps.widen (by decide)), ?_, fun q hq hun => ?_, ?_⟩
  · rw [h.peer]
    exact hadm.peer
  · exact hadm.unrouted q hq (h.steps.unrouted le_rfl hun)
  · rw [h.released]
    exact hadm.released

/-- The route of a peer that was just admitted: it gets one, or the peer goes again. -/
theorem routeNew_spec {t : Tables cap} (hI : w.tables.Inv) {info : ResolvedPeer} {i : Nat}
    (hadm : Admitted now info t w.tables i) (mayEvict : Bool) :
    wpx (replaceDynamicRoute i info.address now mayEvict : CoreE cap R P Unit) (fun r w' =>
      (∃ err, r = .error err ∧ Spent now w.tables w'.tables) ∨
      (r = .ok () ∧ Steps now .install t w'.tables ∧ (∀ q, w'.tables.Unrouted q → t.Unrouted q) ∧
        ∃ m, w'.tables.peer i = some m ∧ m.key = info.publicKey ∧ m.pinned = false ∧
          m.address = info.address)) w := by
  obtain ⟨m, hm, hkey, hpin⟩ := hadm.peer
  obtain ⟨e, he, rfl⟩ := peer_of_tables hm
  refine wpx_mono (replaceDynamicRoute_spec hI he hpin info.address now mayEvict) ?_
  rintro _ w1 (⟨err, rfl, -, hsame⟩ | ⟨rfl, h1, hrouted, hm1⟩)
  · exact Or.inl ⟨err, rfl, hsame⟩
  · refine Or.inr ⟨rfl, hadm.steps.trans (h1.widen (by decide)), fun q hq => ?_, _, hm1, hkey, hpin,
      rfl⟩
    refine hadm.unrouted q ?_ (h1.unrouted le_rfl hq)
    rintro rfl
    exact hrouted hq

/-- A peer that was just admitted and got no route goes again, and is released. -/
theorem evictNew_spec {t : Tables cap} (hI : w.tables.Inv)
    (hcap : cap.backend = .inline → 2 ≤ cap.maxPeers) (hreleased : t.released = [])
    {info : ResolvedPeer} {i : Nat} (hadm : Admitted now info t w.tables i) :
    wpx (evictPeer i : CoreE cap R P Unit) (fun r w' => r = .ok () ∧
      Steps now .install t w'.tables ∧ (∀ q, w'.tables.Unrouted q → t.Unrouted q) ∧
      info.publicKey ∈ w'.tables.released) w := by
  obtain ⟨m, hm, hkey, hpin⟩ := hadm.peer
  obtain ⟨e, he, rfl⟩ := peer_of_tables hm
  refine wpx_mono (evictPeer_spec hI he hpin now) ?_
  rintro _ w1 ⟨rfl, h1, -, hgone⟩
  refine ⟨rfl, hadm.steps.trans (h1.widen (by decide)), fun q hq => ?_, ?_⟩
  · refine hadm.unrouted q ?_ (h1.unrouted le_rfl hq)
    rintro rfl
    have := hq.1
    rw [Installed, hgone.peer, update_self] at this
    cases this
  · rw [hgone.released, ← hkey]
    refine mem_release (n := 1) (fun h => hcap h) ?_ _
    have := hadm.released
    rwa [hreleased] at this

/-- What keeping an answer does, whichever way it ends. -/
structure Takes (now : Nat) (w w' : World cap R P) : Prop where
  steps : Steps now .install w.tables w'.tables
  routed : ∀ q, w'.tables.Unrouted q → w.tables.Unrouted q

theorem Takes.of_admin {w' : World cap R P} (h : Steps now .admin w.tables w'.tables) :
    Takes now w w' :=
  ⟨h.widen (by decide), fun _ hq => h.unrouted le_rfl hq⟩

omit [Crypto] in
theorem dynamic_of_check {query : ResolveQuery} {info : ResolvedPeer}
    (hcheck : w.core.checkResolvedAnswer query info = .ok ()) {p : Nat}
    (hI : w.tables.Registry) (hfind : w.core.findPeer info.publicKey = some p) :
    ∃ e, w.core.peer p = some e ∧ info.publicKey = e.publicKey ∧ e.isPinned = false := by
  obtain ⟨m, hm, hkey⟩ := (hI.find info.publicKey p).mp hfind
  obtain ⟨e, he, rfl⟩ := peer_of_tables hm
  exact ⟨e, he, hkey.symm, (checkResolvedAnswer_ok hcheck).2 p e hfind he⟩

theorem installResolved_spec (hI : w.tables.Inv) (hcap : cap.backend = .inline → 2 ≤ cap.maxPeers)
    (hreleased : w.tables.released = []) {query : ResolveQuery} {info : ResolvedPeer}
    (hcheck : w.core.checkResolvedAnswer query info = .ok ()) (now : Nat) (source : InstallSource) :
    wpx (installResolved info info.publicKey now source : CoreE cap R P _) (fun r w' =>
      (r = .error .crypto ∧ w.core.Secretless info.publicKey source.admission now ∧
        w'.tables = w.tables) ∨
      ∃ o, r = .ok o ∧ ¬w.core.Secretless info.publicKey source.admission now ∧ Takes now w w' ∧
        KeptOrReleased w' info.publicKey ∧
        ∀ p, o = some p → w'.tables.Holds info.publicKey ∧ w'.tables.Installed p) w := by
  unfold installResolved
  simp only [wpx_bind, wpx_getCore, then_ok]
  cases hfind : w.core.findPeer info.publicKey with
  | some p =>
    have hnot : ¬w.core.Secretless info.publicKey source.admission now := by
      rintro ⟨h, -⟩
      rw [hfind] at h
      cases h
    obtain ⟨e, he, hkey, hpin⟩ := dynamic_of_check hcheck hI.registry hfind
    dsimp only
    refine wpx_attempt_seq (commitExistingResolvedPeer_spec hI he hpin hkey now _ _) ?_
    rintro _ w1 (⟨err, rfl, href, hsame⟩ | ⟨rfl, h1, m, hm, hmk, hmp, -⟩)
    · have hrefusal : err = .routeCacheFull ∨ err = .peerAdmissionLimited := href
      dsimp only
      rw [if_pos hrefusal, wpx_pure]
      refine Or.inr ⟨none, rfl, hnot, Takes.of_admin hsame.steps, Or.inl ?_, by rintro _ ⟨⟩⟩
      exact ⟨p, _, by rw [hsame.peer]; exact tables_peer he, hkey.symm, hpin⟩
    · refine wpx_pure.mpr (Or.inr ⟨some p, rfl, hnot, Takes.of_admin h1, ?_, ?_⟩)
      · exact Or.inl ⟨p, m, hm, hmk.trans hkey.symm, hmp⟩
      · rintro _ ⟨⟩
        exact ⟨⟨p, m, hm, hmk.trans hkey.symm, hmp⟩, by rw [Installed, hm]; rfl⟩
  | none =>
    dsimp only
    refine wpx_attempt_seq (upsertPeerUnchecked_new hI info now source.admission hfind) ?_
    rintro _ w1 (⟨rfl, hsecret, hsame⟩ | ⟨err, rfl, hdecl, hnot, hsame⟩ | ⟨i, rfl, hnot, hadm⟩)
    · dsimp only
      rw [if_neg (by decide), wpx_throw]
      exact Or.inl ⟨rfl, hsecret, hsame⟩
    · have herr : err = .peerTableFull ∨ err = .peerAdmissionLimited := by
        rcases hdecl with h | h | ⟨-, h⟩
        · exact Or.inr h
        · exact Or.inl h
        · cases source <;> cases h
      dsimp only
      rw [if_pos herr]
      simp only [wpx_bind, wpx_modifyCore, then_ok, wpx_pure]
      have hrel : World.tables ⟨w1.core.queuePeerEvicted info.publicKey, w1.log, w1.established⟩ =
          w1.tables.release info.publicKey := tables_queuePeerEvicted info.publicKey
      refine Or.inr ⟨none, rfl, hnot, Takes.of_admin ?_, Or.inr ?_, by rintro _ ⟨⟩⟩
      · rw [hrel]
        exact hsame.steps.trans (Step.release info.publicKey).steps
      · rw [hrel]
        refine mem_release (n := 0) (fun h => Nat.lt_of_lt_of_le (by decide) (hcap h)) ?_ _
        rw [hsame.released, hreleased]
        exact Nat.le_refl _
    · simp only [Bool.not_true, Bool.false_eq_true, if_false]
      have hI1 := hadm.steps.inv hI
      refine wpx_attempt_seq (routeNew_spec hI1 hadm _) ?_
      rintro _ w2 (⟨err, rfl, hsame⟩ | ⟨rfl, h2, hrouted, m, hm, hmk, hmp, -⟩)
      · simp only [if_true, wpx_bind]
        refine wpx_mono (evictNew_spec (hsame.steps.inv hI1) hcap hreleased (hadm.spent hsame)) ?_
        rintro _ w3 ⟨rfl, h3, hrouted, hmem⟩
        exact wpx_pure.mpr (Or.inr ⟨none, rfl, hnot, ⟨h3, hrouted⟩, Or.inr hmem, by rintro _ ⟨⟩⟩)
      · refine wpx_pure.mpr
          (Or.inr ⟨some i, rfl, hnot, ⟨h2, hrouted⟩, Or.inl ⟨i, m, hm, hmk, hmp⟩, ?_⟩)
        rintro _ ⟨⟩
        exact ⟨⟨i, m, hm, hmk, hmp⟩, by rw [Installed, hm]; rfl⟩

/-! ### Lookups by key -/

/-- A positive answer that passes the checks, for a new peer that there is a place for, but no
shared secret. -/
def Core.Stops (query : ResolveQuery) (admission : PeerAdmission) (info : ResolvedPeer) (now : Nat)
    (c : Core cap R P) : Prop :=
  (∀ address, query = .byDstAddress address → info.address.contains address = true) ∧
    (∃ info', c.canonicalizeResolvedAnswer query info = .ok info') ∧
    c.Secretless info.publicKey admission now

/-- What becomes of the peer of a positive answer. -/
def PeerSettled (w w' : World cap R P) (entry : InflightResolve) (admission : PeerAdmission)
    (outcome : ResolveOutcome) (now : Nat) : Prop :=
  ∀ info, outcome = .found info →
    (KeptOrReleased w' info.publicKey ↔ ¬w.core.Stops entry.query admission info now)

/-- What an answer to a lookup may do that is not about a reconciliation. -/
structure Attended (now : Nat) (w w' : World cap R P) : Prop where
  steps : Steps now { rank := 5, desk := true } w.tables w'.tables
  routed : ∀ q, w'.tables.Unrouted q → w.tables.Unrouted q

/-- The same, and no packet comes to wait for a lookup. -/
structure Answered (now : Nat) (w w' : World cap R P) : Prop extends Attended now w w' where
  waiting : ∀ id, w'.tables.parked.filter (·.wait = .resolve id) ≤
    w.tables.parked.filter (·.wait = .resolve id)

theorem Answered.trans {w' w'' : World cap R P} (h : Answered now w w') (h' : Answered now w' w'') :
    Answered now w w'' :=
  ⟨⟨h.steps.trans h'.steps, fun q hq => h.routed q (h'.routed q hq)⟩,
    fun id => (h'.waiting id).trans (h.waiting id)⟩

theorem Answered.of_steps {w' : World cap R P} {scope : Scope}
    (h : Steps now scope w.tables w'.tables) (hk : scope ≤ .admin) : Answered now w w' := by
  have hadmin := h.widen hk
  exact ⟨⟨hadmin.widen (by decide), fun _ hq => hadmin.unrouted le_rfl hq⟩,
    (hadmin.still rfl).waiting⟩

theorem Answered.of_desk {w' : World cap R P} (h : Steps now (.atDesk .quiet) w.tables w'.tables)
    (hparked : w'.tables.parked ≤ w.tables.parked) : Answered now w w' :=
  ⟨⟨h.widen (by decide), fun _ hq => h.unrouted (by decide) hq⟩,
    fun _ => Multiset.filter_le_filter _ hparked⟩

theorem Takes.answered {w' : World cap R P} (h : Takes now w w') : Answered now w w' :=
  ⟨⟨h.steps.widen (by decide), h.routed⟩, (h.steps.still rfl).waiting⟩

omit [Crypto] in
/-- Nobody is kept or released for a key that is neither installed nor noted. -/
theorem not_keptOrReleased (hI : w.tables.Registry) {key : Key} (hfind : w.core.findPeer key = none)
    (hreleased : w.tables.released = []) : ¬KeptOrReleased w key := by
  rintro (⟨p, m, hm, hkey, -⟩ | hmem)
  · have hsome : w.core.findPeer key = some p := (hI.find key p).mpr ⟨m, hm, hkey⟩
    rw [hfind] at hsome
    cases hsome
  · rw [hreleased] at hmem
    cases hmem

theorem KeptOrReleased.steps {w' : World cap R P} {scope : Scope} {key : Key}
    (h : KeptOrReleased w key) (hsteps : Steps now scope w.tables w'.tables) (hk : scope.rank ≤ 3) :
    KeptOrReleased w' key := by
  rcases h with h | h
  · exact Or.inl (hsteps.holds hk h)
  · exact Or.inr (hsteps.released (hk.trans (by decide)) h)

theorem release_spec (hcap : cap.backend = .inline → 2 ≤ cap.maxPeers)
    (hreleased : w.tables.released = []) (key : Key) :
    wpx (modifyCore (Core.queuePeerEvicted key) : CoreE cap R P Unit) (fun r w' => r = .ok () ∧
      Steps now .admin w.tables w'.tables ∧ KeptOrReleased w' key) w := by
  rw [wpx_modifyCore]
  have htables := @tables_queuePeerEvicted _ _ _ w.core w.log w.established key
  refine ⟨rfl, ?_, Or.inr ?_⟩
  · rw [htables]
    exact (Step.release key).steps
  · rw [htables]
    refine mem_release (n := 0) (fun h => Nat.lt_of_lt_of_le (by decide) (hcap h)) ?_ _
    rw [show World.tables ⟨w.core, w.log, w.established⟩ = w.tables from rfl, hreleased]
    exact Nat.le_refl _

omit [Crypto] in
theorem marked_parked (query : ResolveQuery) (now : Nat) :
    (w.marked query now).tables.parked = w.tables.parked := by
  show ((w.core.markNegative query now).pending.packets : Multiset PendingPacket) = _
  unfold Core.markNegative
  dsimp only
  unfold Core.tryPushResolve
  split
  · rfl
  · rfl

theorem resolves_other (hI : w.tables.Inv) {entry : InflightResolve} {rest : List InflightResolve}
    (hperm : w.core.resolves.Perm (entry :: rest)) (hlive : entry.live = true) :
    ∀ r ∈ rest, r.live = true → r.query ≠ entry.query := by
  intro r hr hrl heq
  have hmem := mem_lookups hperm
  have hr' : r ∈ w.tables.lookups :=
    Multiset.mem_coe.mpr (hperm.mem_iff.mpr (List.mem_cons_of_mem _ hr))
  obtain rfl := hI.desk.only hr' hmem hrl hlive heq
  exact resolves_apart hI hperm r hr rfl

theorem not_stops {query : ResolveQuery} {admission : PeerAdmission} {info info' : ResolvedPeer}
    (hcanon : c.canonicalizeResolvedAnswer query info = .ok info')
    (hnot : ¬c.Secretless info'.publicKey admission now) : ¬c.Stops query admission info now := by
  rintro ⟨-, -, hsecret⟩
  refine hnot ?_
  rw [(canonicalize_ok hcanon).1]
  exact hsecret

variable [RngCore R]

/-- The answer to a lookup by key, from the engine in which the lookup was removed. -/
theorem resolvedInstall_spec (hI : w.tables.Inv) (hcap : cap.backend = .inline → 2 ≤ cap.maxPeers)
    (hreleased : w.tables.released = []) {entry : InflightResolve} {rest : List InflightResolve}
    (hperm : w.core.resolves.Perm (entry :: rest)) {source : InstallSource}
    (hkind : entry.kind = .install source) (outcome : ResolveOutcome) (now : Nat) :
    wpx (resolvedInstall now entry source outcome) (fun _ w' => Answered now w w' ∧
      PeerSettled w w' entry source.admission outcome now)
      (w.without rest { w.core with resolves := rest }) := by
  have hlive : entry.live = true := by simp [InflightResolve.live, hkind]
  have hmem := mem_lookups hperm
  have hlookups := lookups_perm hperm
  have hfits := hI.desk.fits entry hmem hlive
  cases hquery : entry.query with
  | byDstAddress address =>
    rw [InflightResolve.Fits, hquery] at hfits
    rw [hkind] at hfits
    cases hfits
  | byPublicKey expectedKey =>
    unfold resolvedInstall
    simp only [hquery, wpx_bind, wpx_updateCore, then_ok]
    -- The engine after the initiation was taken.
    generalize hx : (if source = .authenticatedInitiator then
      Core.takePendingInitiation entry.id (w.without rest { w.core with resolves := rest }).core
      else (none, (w.without rest { w.core with resolves := rest }).core)) = x
    have hcore : ∃ initiations, x.2 = { w.core with
        resolves := rest, pendingInitiations := initiations } := by
      rw [← hx]
      split
      · unfold Core.takePendingInitiation
        split
        · exact ⟨_, rfl⟩
        · exact ⟨_, rfl⟩
      · exact ⟨_, rfl⟩
    have htables : (w.without rest x.2).tables = w.tables.shut entry rest := by
      rw [← hx]
      by_cases hauth : source = .authenticatedInitiator
      · rw [if_pos hauth]
        exact expire_initiator hI hperm (hauth ▸ hkind)
      · rw [if_neg hauth]
        refine without_tables hI hperm hlive fun h => hauth ?_
        rw [hkind] at h
        exact ResolveKind.install.inj h
    have hclosed : Steps now (.atDesk .quiet) w.tables (w.without rest x.2).tables := by
      rw [htables]
      refine (Step.close hlookups hlive (fun _ h => ?_)
        (Or.inr fun h => ?_)).steps
      · rw [hkind] at h
        cases h
      · rw [hkind] at h
        cases h
    obtain ⟨initiations, hcore⟩ := hcore
    have hstart : Answered now w (w.without rest x.2) :=
      Answered.of_desk hclosed (by rw [htables]; exact le_rfl)
    have hrel1 : (w.without rest x.2).tables.released = [] := by
      rw [htables]
      exact hreleased
    have hI1 := hclosed.inv hI
    change wpx _ _ (w.without rest x.2)
    cases outcome with
    | failed => exact wpx_pure.mpr ⟨hstart, by rintro _ ⟨⟩⟩
    | notFound =>
      dsimp only
      unfold markNegative
      rw [wpx_changeLookups]
      refine ⟨hstart.trans (Answered.of_desk (markNegative_quiet hI1 fun r hr hrl => ?_)
        (marked_parked _ now).le), by rintro _ ⟨⟩⟩
      have hrest : (w.without rest x.2).core.resolves = rest := by
        show x.2.resolves = rest
        rw [hcore]
      rw [← hquery]
      exact resolves_other hI hperm hlive r (hrest ▸ hr) hrl
    | found info =>
      have hcanon : x.2.canonicalizeResolvedAnswer (.byPublicKey expectedKey) info =
          w.core.canonicalizeResolvedAnswer (.byPublicKey expectedKey) info := by
        rw [hcore]
        rfl
      have hsecret : ∀ key, x.2.Secretless key source.admission now ↔
          w.core.Secretless key source.admission now := by
        intro key
        rw [hcore]
        exact Iff.rfl
      simp only [wpx_bind, wpx_getCore, then_ok]
      rw [show (w.without rest x.2).core = x.2 from rfl, hcanon]
      cases hcheck : w.core.canonicalizeResolvedAnswer (.byPublicKey expectedKey) info with
      | error err =>
        refine wpx_mono (@release_spec _ _ _ (w.without rest x.2) now _ hcap hrel1
          info.publicKey) ?_
        rintro _ w2 ⟨-, h2, hkept⟩
        refine ⟨hstart.trans (Answered.of_steps h2 (Scope.le_refl _)), ?_⟩
        rintro _ ⟨⟩
        refine iff_of_true hkept ?_
        rintro ⟨-, ⟨info', hok⟩, -⟩
        rw [hquery, hcheck] at hok
        cases hok
      | ok info' =>
        obtain ⟨hinfo, hok⟩ := canonicalize_ok (hcanon.trans hcheck)
        have hkey : info.publicKey = info'.publicKey := by rw [hinfo]
        dsimp only
        rw [hkey]
        refine wpx_seq (installResolved_spec (w := w.without rest x.2) hI1 hcap hrel1 hok now
          source)
          ?_ ?_
        · rintro err w2 (⟨-, hstop, hsame⟩ | ⟨_, h, -⟩)
          · refine ⟨hstart.trans (Answered.of_steps (Steps.of_eq hsame) (Scope.le_refl _)), ?_⟩
            rintro _ ⟨⟩
            refine iff_of_false ?_ (not_not.mpr ?_)
            · have hI2 : w2.tables.Inv := hsame ▸ hI1
              refine not_keptOrReleased hI2.registry ?_ (by rw [hsame]; exact hrel1)
              have hfind : w2.tables.find = (w.without rest x.2).tables.find := by rw [hsame]
              rw [hkey]
              exact (congrFun hfind _).trans hstop.1
            · rw [hquery]
              exact ⟨by rintro _ ⟨⟩, ⟨info', hcheck⟩, (hsecret _).mp (hkey ▸ hstop)⟩
          · cases h
        rintro o w2 (⟨h, -⟩ | ⟨_, ho, hnot, htakes, hkept, hsome⟩)
        · cases h
        cases ho
        have hsettle : ∀ w' : World cap R P, KeptOrReleased w' info'.publicKey →
            PeerSettled w w' entry source.admission (.found info) now := by
          intro w' hk
          rintro _ ⟨⟩
          refine iff_of_true (hkey ▸ hk) ?_
          rw [hquery]
          exact not_stops hcheck fun h => hnot ((hsecret _).mpr h)
        have h2 := hstart.trans htakes.answered
        cases o with
        | none => exact wpx_pure.mpr ⟨h2, hsettle w2 hkept⟩
        | some p =>
          simp only [wpx_bind, wpx_modifyCore, then_ok]
          have hclear := @clearNegative_steps _ _ _ w2 now _ (.byPublicKey expectedKey)
          have h3 : Answered now w
              (w2.withCore (w2.core.clearNegative (.byPublicKey expectedKey))) :=
            h2.trans (Answered.of_desk hclear le_rfl)
          have hkept3 := hkept.steps hclear (by decide)
          cases x.1 with
          | none => exact wpx_pure.mpr ⟨h3, hsettle _ hkept3⟩
          | some pending =>
            dsimp only
            split
            · exact wpx_pure.mpr ⟨h3, hsettle _ hkept3⟩
            · refine wpx_mono (acceptAuthenticatedInitiation_spec
                (h3.steps.inv hI) p pending.consumed
                pending.src now) fun _ w4 h4 => ⟨h3.trans (Answered.of_steps h4 (by decide)), ?_⟩
              exact hsettle w4 (hkept3.steps h4 (by decide))

end Microtun
