import Microtun.Core.Spec.Address

/-! What the events of the resolver do to the tables. -/

namespace Microtun

open Hoare Tables
open Function (update update_self update_of_ne)

/-- How the peer of a positive answer is admitted, if the answer is for a new peer. -/
def ResolveKind.admission : ResolveKind → Option PeerAdmission
  | .outbound => some .lazyOutbound
  | .install source => some source.admission
  | .negative | .reconcile => none

namespace Tables

variable {cap : Capacities} {t : Tables cap}

/-- When a lookup goes, only the packets that wait for it are on their own. -/
theorem ServedBut.shut {entry : InflightResolve} {rest : Multiset InflightResolve}
    (h : ServedBut t none) (hlookups : t.lookups = entry ::ₘ rest) :
    ServedBut (t.shut entry rest) (some entry.id) := by
  intro q hq id hwait hne
  obtain ⟨r, hr, header, hid, hkind, hrest⟩ := h q hq id hwait (by rintro ⟨⟩)
  refine ⟨r, mem_rest hlookups hr ?_, header, hid, hkind, hrest⟩
  rintro rfl
  exact hne (congrArg some hid.symm)

theorem ServedBut.all {id : Nat} (h : ServedBut t (some id))
    (hdone : Unawaited t id) : ServedBut t none := by
  intro q hq id' hwait _
  refine h q hq id' hwait ?_
  rintro ⟨⟩
  exact hdone q hq hwait

theorem ServedBut.unawaited (h : ServedBut t none) (hdesk : t.Desk)
    {entry : InflightResolve} (hmem : entry ∈ t.lookups) (hkind : entry.kind ≠ .outbound) :
    Unawaited t entry.id := by
  intro q hq hwait
  obtain ⟨r, hr, -, hid, hout, -⟩ := h q hq entry.id hwait (by rintro ⟨⟩)
  obtain rfl := hdesk.unique hr hmem hid
  exact hkind hout

end Tables

variable {cap : Capacities} {R P : Type} {w : World cap R P} {now : Nat}

/-- The world in which the lookup of a completion was taken out of the table. -/
def World.taking (w : World cap R P) (id : Nat) : World cap R P :=
  w.without (w.core.takeResolve id).2.resolves (w.core.takeResolve id).2

theorem takeResolve_cases (id : Nat) :
    (w.core.takeResolve id = (none, w.core) ∧ ∀ r ∈ w.core.resolves, r.id ≠ id) ∨
    ∃ entry rest, w.core.takeResolve id = (some entry, { w.core with resolves := rest }) ∧
      entry.id = id ∧ w.core.resolves.Perm (entry :: rest) := by
  unfold Core.takeResolve
  cases hfind : w.core.resolves.findIdx? fun r => decide (r.id = id) with
  | none =>
    refine Or.inl ⟨rfl, fun r hr => ?_⟩
    simpa using List.findIdx?_eq_none_iff.mp hfind r hr
  | some pos =>
    obtain ⟨entry, hget, hid⟩ := findIdx?_some hfind
    exact Or.inr ⟨entry, _, by dsimp only; rw [hget], by simpa using hid, swapRemove_perm hget⟩

variable [Crypto]

/-- A positive answer that is neither kept nor released. -/
def Core.Lapses (c : Core cap R P) (now : Nat) (response : ResolveResponse) : Prop :=
  ∃ r ∈ c.resolves, ∃ admission info, r.id = response.id ∧ r.kind.admission = some admission ∧
    response.outcome = .found info ∧ c.Stops r.query admission info now

/-- What a completion does. -/
structure Completed (now : Nat) (response : ResolveResponse) (w w' : World cap R P) : Prop where
  steps : ∃ answers,
    Steps now { rank := 5, desk := true, answers, orphans := true } w.tables w'.tables ∧
    ∀ key, answers = some key → ∃ r ∈ w.core.resolves, r.id = response.id ∧ r.kind = .reconcile ∧
      r.query = .byPublicKey key
  routed : ∀ q, w'.tables.Unrouted q → w.tables.Unrouted q
  settled : ∀ r ∈ w.core.resolves, r.id = response.id → ∀ admission,
    r.kind.admission = some admission → PeerSettled w w' r admission response.outcome now
  served : ServedBut w.tables none → ¬w.core.Lapses now response → ServedBut w'.tables none ∧
    ∀ r ∈ w.core.resolves, r.id = response.id → r.kind.admission ≠ none →
      Unawaited w'.tables r.id
  owed : ∀ r ∈ w.core.resolves, r.id = response.id → r.kind = .reconcile → ∀ key,
    r.query = .byPublicKey key → w.core.holds key = true →
    Refused (w.taking response.id) now key response.outcome → w.core.canOwe key = true →
    OwedTo w'.tables key

section

variable {entry : InflightResolve} {rest : List InflightResolve}

theorem lookup_unique (hI : w.tables.Inv) (hperm : w.core.resolves.Perm (entry :: rest))
    {r : InflightResolve} (hr : r ∈ w.core.resolves) (hid : r.id = entry.id) : r = entry :=
  hI.desk.unique (Multiset.mem_coe.mpr hr) (mem_lookups hperm) hid

variable [RngCore R]

theorem completed_outbound (hI : w.tables.Inv) (hcap : cap.backend = .inline → 2 ≤ cap.maxPeers)
    (hreleased : w.tables.released = []) (hrouted : ∀ q, ¬w.tables.Unrouted q)
    (hperm : w.core.resolves.Perm (entry :: rest)) (hkind : entry.kind = .outbound)
    (outcome : ResolveOutcome) (now : Nat) :
    wpx (resolvedOutbound now entry outcome)
      (fun _ w' => Completed now ⟨entry.id, outcome⟩ w w')
      (w.without rest { w.core with resolves := rest }) := by
  have hlive : entry.live = true := by simp [InflightResolve.live, hkind]
  have hmem := mem_lookups hperm
  have hlookups := lookups_perm hperm
  have htables := without_tables hI hperm hlive (by rw [hkind]; rintro ⟨⟩)
  have hclosed : Steps now { desk := true, orphans := true } w.tables
      (w.without rest { w.core with resolves := rest }).tables := by
    rw [htables]
    refine (@Step.close _ _ _ _ _ _ none _ hlookups hlive (fun _ h => ?_) (Or.inl rfl)).steps
    rw [hkind] at h
    cases h
  have hfits := hI.desk.fits entry hmem hlive
  cases hquery : entry.query with
  | byPublicKey key =>
    rw [InflightResolve.Fits, hquery] at hfits
    exact absurd hkind hfits
  | byDstAddress address =>
    refine wpx_mono (resolvedOutbound_spec (hclosed.inv hI) hcap (by rw [htables]; exact hreleased)
      (fun q hq => hrouted q (hclosed.unrouted (by decide) hq)) hquery
      (resolves_other hI hperm hlive) outcome now) ?_
    rintro _ w' ⟨hatt, hsettled, hserve⟩
    refine ⟨⟨none, (hclosed.widen (by decide)).trans (hatt.steps.widen (by decide)),
      by rintro _ ⟨⟩⟩, fun q hq => hclosed.unrouted (by decide) (hatt.routed q hq), ?_, ?_, ?_⟩
    · intro r hr hid admission hadm
      obtain rfl := lookup_unique hI hperm hr hid
      rw [hkind] at hadm
      cases hadm
      exact hsettled
    · intro hall hnot
      have hserved1 := hall.shut hlookups
      rw [← htables] at hserved1
      have hawaits : Awaits (w.without rest { w.core with resolves := rest }).tables entry.id
          address := by
        intro q hq hwait
        rw [htables] at hq
        obtain ⟨r, hr, header, hid, -, hparse, hdst⟩ := hall q hq entry.id hwait (by rintro ⟨⟩)
        obtain rfl := hI.desk.unique hr hmem hid
        rw [hquery] at hdst
        exact ⟨header, hparse, (ResolveQuery.byDstAddress.inj hdst).symm⟩
      obtain ⟨hans, hdone⟩ := hserve hawaits
      have hdone : Unawaited w'.tables entry.id := by
        refine hdone fun info hinfo hstops => hnot ?_
        exact ⟨entry, Multiset.mem_coe.mp hmem, .lazyOutbound, info, rfl, by rw [hkind]; rfl, hinfo,
          hstops⟩
      refine ⟨(hans.steps.servedBut rfl hserved1).all hdone, fun r hr hid _ => ?_⟩
      obtain rfl := lookup_unique hI hperm hr hid
      exact hdone
    · intro r hr hid hrec
      obtain rfl := lookup_unique hI hperm hr hid
      rw [hkind] at hrec
      cases hrec

theorem completed_install (hI : w.tables.Inv) (hcap : cap.backend = .inline → 2 ≤ cap.maxPeers)
    (hreleased : w.tables.released = []) (hperm : w.core.resolves.Perm (entry :: rest))
    {source : InstallSource} (hkind : entry.kind = .install source) (outcome : ResolveOutcome)
    (now : Nat) :
    wpx (resolvedInstall now entry source outcome)
      (fun _ w' => Completed now ⟨entry.id, outcome⟩ w w')
      (w.without rest { w.core with resolves := rest }) := by
  have hmem := mem_lookups hperm
  refine wpx_mono (resolvedInstall_spec hI hcap hreleased hperm hkind outcome now) ?_
  rintro _ w' ⟨hans, hsettled⟩
  refine ⟨⟨none, hans.steps.widen (by decide), by rintro _ ⟨⟩⟩, hans.routed, ?_, ?_, ?_⟩
  · intro r hr hid admission hadm
    obtain rfl := lookup_unique hI hperm hr hid
    rw [hkind] at hadm
    cases hadm
    exact hsettled
  · intro hall _
    refine ⟨hans.steps.servedBut rfl hall, fun r hr hid _ => ?_⟩
    obtain rfl := lookup_unique hI hperm hr hid
    exact (hall.unawaited hI.desk hmem (by rw [hkind]; rintro ⟨⟩)).of_waiting (hans.waiting _)
  · intro r hr hid hrec
    obtain rfl := lookup_unique hI hperm hr hid
    rw [hkind] at hrec
    cases hrec

omit [RngCore R] in
theorem completed_reconcile (hI : w.tables.Inv) (hperm : w.core.resolves.Perm (entry :: rest))
    (htake : w.taking entry.id = w.without rest { w.core with resolves := rest })
    (hkind : entry.kind = .reconcile) {key : Key} (hquery : entry.query = .byPublicKey key)
    (outcome : ResolveOutcome) (now : Nat) :
    wpx (applyHeldAnswer now key outcome)
      (fun _ w' => Completed now ⟨entry.id, outcome⟩ w w')
      (w.without rest { w.core with resolves := rest }) := by
  have hlive : entry.live = true := by simp [InflightResolve.live, hkind]
  have hmem := mem_lookups hperm
  have hlookups := lookups_perm hperm
  have htables := without_tables hI hperm hlive (by rw [hkind]; rintro ⟨⟩)
  have hclosed : Steps now { desk := true, answers := some key } w.tables
      (w.without rest { w.core with resolves := rest }).tables := by
    rw [htables]
    refine (Step.close hlookups hlive (fun key' _ h => Or.inr ?_)
      (Or.inr fun h => ?_)).steps
    · rw [hquery] at h
      cases h
      rfl
    · rw [hkind] at h
      cases h
  refine wpx_mono (@applyHeldAnswer_spec _ _ _ _ _ (hclosed.inv hI) now key outcome false
    (Or.inr (Or.inr (Or.inr fun x hx hxq hxk => ?_)))) ?_
  · have hxlive : x.live = true := by simp [InflightResolve.live, hxk]
    exact absurd (hxq.trans hquery.symm) (resolves_other hI hperm hlive x hx hxlive)
  rintro _ w' ⟨hheld, howed⟩
  have hsteps : Steps now (.held key false) w.tables w'.tables :=
    (hclosed.widen (Scope.answers_le (Nat.zero_le _) rfl rfl)).trans hheld
  refine ⟨⟨some key, hsteps.widen ⟨Nat.le_succ 4, id, Or.inr rfl, id, by rintro ⟨⟩, Or.inl rfl, id⟩,
    ?_⟩,
    fun q hq => hsteps.unrouted le_rfl hq, ?_, ?_, ?_⟩
  · rintro _ ⟨⟩
    exact ⟨entry, Multiset.mem_coe.mp hmem, rfl, hkind, hquery⟩
  · intro r hr hid admission hadm
    obtain rfl := lookup_unique hI hperm hr hid
    rw [hkind] at hadm
    cases hadm
  · intro hall _
    refine ⟨hsteps.servedBut rfl hall, fun r hr hid hadm => ?_⟩
    obtain rfl := lookup_unique hI hperm hr hid
    rw [hkind] at hadm
    exact absurd rfl hadm
  · intro r hr hid _ key' hq hholds href hroom
    obtain rfl := lookup_unique hI hperm hr hid
    obtain rfl := ResolveQuery.byPublicKey.inj (hquery.symm.trans hq)
    rw [htake] at href
    exact (howed hholds href).2 hroom

omit [RngCore R] in
theorem completed_negative (hI : w.tables.Inv) (hperm : w.core.resolves.Perm (entry :: rest))
    (hkind : entry.kind = .negative) (outcome : ResolveOutcome) (now : Nat) :
    Completed now ⟨entry.id, outcome⟩ w (w.without rest { w.core with resolves := rest }) := by
  obtain ⟨-, hsteps⟩ := @forget_negative _ _ _ _ now _ _ _ hI hperm hkind
  refine ⟨⟨none, hsteps.widen (by decide), by rintro _ ⟨⟩⟩,
    fun q hq => hsteps.unrouted (by decide) hq, ?_, fun hall _ =>
      ⟨hsteps.servedBut rfl hall, ?_⟩, ?_⟩
  · intro r hr hid admission hadm
    obtain rfl := lookup_unique hI hperm hr hid
    rw [hkind] at hadm
    cases hadm
  · intro r hr hid hadm
    obtain rfl := lookup_unique hI hperm hr hid
    rw [hkind] at hadm
    exact absurd rfl hadm
  · intro r hr hid hrec
    obtain rfl := lookup_unique hI hperm hr hid
    rw [hkind] at hrec
    cases hrec

end

variable [RngCore R]

theorem resolved_spec (hI : w.tables.Inv) (hcap : cap.backend = .inline → 2 ≤ cap.maxPeers)
    (hreleased : w.tables.released = []) (hrouted : ∀ q, ¬w.tables.Unrouted q) (now : Nat)
    (response : ResolveResponse) : wpx (resolved now response : CoreE cap R P Unit)
      (fun _ w' => Completed now response w w') w := by
  obtain ⟨id, outcome⟩ := response
  unfold resolved
  simp only [wpx_bind, wpx_changeLookups, then_ok]
  rcases takeResolve_cases (w := w) id with ⟨htake, hstale⟩ | ⟨entry, rest, htake, rfl, hperm⟩
  · rw [htake]
    dsimp only
    have hlog : closings w.core.resolves w.core.resolves = [] := closings_nil fun _ hr _ => hr
    rw [hlog, wpx_pure]
    refine ⟨⟨none, Steps.refl _, by rintro _ ⟨⟩⟩, fun _ hq => hq, ?_, fun hall _ => ⟨hall, ?_⟩, ?_⟩
    · exact fun r hr hid => absurd hid (hstale r hr)
    · exact fun r hr hid => absurd hid (hstale r hr)
    · exact fun r hr hid => absurd hid (hstale r hr)
  · have hworld : w.taking entry.id = w.without rest { w.core with resolves := rest } := by
      rw [World.taking, htake]
    rw [htake]
    dsimp only
    change wpx _ _ (w.without rest { w.core with resolves := rest })
    have hmem := mem_lookups hperm
    cases hkind : entry.kind with
    | outbound => exact completed_outbound hI hcap hreleased hrouted hperm hkind outcome now
    | install source => exact completed_install hI hcap hreleased hperm hkind outcome now
    | negative => exact wpx_pure.mpr (completed_negative hI hperm hkind outcome now)
    | reconcile =>
      have hfits := hI.desk.fits entry hmem (by simp [InflightResolve.live, hkind])
      cases hquery : entry.query with
      | byDstAddress address =>
        rw [InflightResolve.Fits, hquery, hkind] at hfits
        cases hfits
      | byPublicKey key => exact completed_reconcile hI hperm hworld hkind hquery outcome now

/-- Does the initiation of a peer wait for a lookup that an update would remove? -/
def Core.Strands (c : Core cap R P) (update : PeerUpdate) : Prop :=
  update.outcome = .notFound ∧ c.holds update.publicKey = true ∧
    ∃ x ∈ c.resolves, x.query = .byPublicKey update.publicKey ∧
      x.kind = .install .authenticatedInitiator ∧
      ∃ (i : Nat) (e : PendingInitiation), c.pendingInitiations[i]?.join = some e ∧
        e.resolveId = x.id

omit [RngCore R] in
theorem peerUpdated_spec (hI : w.tables.Inv) (now : Nat) (update : PeerUpdate) :
    wpx (peerUpdated now update : CoreE cap R P Unit) (fun _ w' =>
      (∃ strands, Steps now (.held update.publicKey strands) w.tables w'.tables ∧
        (strands = true → w.core.Strands update)) ∧
      (w.core.holds update.publicKey = true → Refused w now update.publicKey update.outcome →
        w.core.canOwe update.publicKey = true → OwedTo w'.tables update.publicKey)) w := by
  obtain ⟨key, outcome⟩ := update
  unfold peerUpdated
  by_cases hstrands : w.core.Strands ⟨key, outcome⟩
  · refine wpx_mono (applyHeldAnswer_spec hI now key outcome (Or.inl rfl)) ?_
    rintro _ w' ⟨hsteps, howed⟩
    exact ⟨⟨true, hsteps, fun _ => hstrands⟩, fun hholds href => (howed hholds href).2⟩
  · have hnot : false = true ∨ outcome ≠ .notFound ∨ w.core.holds key = false ∨
        ∀ x ∈ w.core.resolves, x.query = .byPublicKey key →
          x.kind = .install .authenticatedInitiator →
          ∀ i e, w.tables.initiations i = some e → e.resolveId ≠ x.id := by
      by_contra hno
      push Not at hno
      obtain ⟨-, hout, hholds, x, hx, hq, hk, i, e, he, hid⟩ := hno
      exact hstrands ⟨hout, by simpa using hholds, x, hx, hq, hk, i, e, he, hid⟩
    refine wpx_mono (applyHeldAnswer_spec hI now key outcome hnot) ?_
    rintro _ w' ⟨hsteps, howed⟩
    exact ⟨⟨false, hsteps, by rintro ⟨⟩⟩, fun hholds href => (howed hholds href).2⟩

end Microtun
