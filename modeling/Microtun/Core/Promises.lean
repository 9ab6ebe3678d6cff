import Microtun.Core.Registry

/-! What the desk owes to others: an initiation waits for the lookup of its peer, a packet waits for
the lookup of its destination, and a reconciliation that is due to a peer is listed or under way.
Steps keep these promises unless their scope says otherwise. -/

namespace Microtun

namespace Tables

variable {cap : Capacities} {t t' : Tables cap}

/-- Every initiation waits for the lookup of its own peer. -/
def Held (t : Tables cap) : Prop :=
  ∀ i e, t.initiations i = some e → ∃ r ∈ t.lookups, r.id = e.resolveId ∧
    r.kind = .install .authenticatedInitiator ∧ r.query = .byPublicKey e.consumed.sPubI

/-- Every packet that waits for a lookup, other than one, waits for that of its destination. -/
def ServedBut (t : Tables cap) (except : Option Nat) : Prop :=
  ∀ q ∈ t.parked, ∀ id, q.wait = .resolve id → some id ≠ except →
    ∃ r ∈ t.lookups, ∃ header, r.id = id ∧ r.kind = .outbound ∧
      Ip.parseHeader q.packet = some header ∧ r.query = .byDstAddress header.dst

/-- The reconciliation of a peer is listed or under way. -/
def OwedTo (t : Tables cap) (key : Key) : Prop :=
  (∃ o ∈ t.owed, o.publicKey = key) ∨
    ∃ r ∈ t.lookups, r.kind = .reconcile ∧ r.query = .byPublicKey key

theorem mem_of_forget {lookups : Multiset InflightResolve}
    (h : lookups.filter (·.live) = t.lookups.filter (·.live)) {r : InflightResolve}
    (hr : r ∈ t.lookups) (hlive : r.live = true) : r ∈ lookups := by
  have hmem : r ∈ t.lookups.filter (·.live) := Multiset.mem_filter.mpr ⟨hr, hlive⟩
  rw [← h] at hmem
  exact (Multiset.mem_filter.mp hmem).1

theorem mem_rest {r x : InflightResolve} {rest : Multiset InflightResolve}
    (h : t.lookups = r ::ₘ rest) (hx : x ∈ t.lookups) (hne : x ≠ r) : x ∈ rest := by
  rw [h] at hx
  exact (Multiset.mem_cons.mp hx).resolve_left hne

theorem exists_offered {r x : InflightResolve} {rest : Multiset InflightResolve}
    (h : t.lookups = r ::ₘ rest) (hx : x ∈ t.lookups) :
    ∃ y ∈ ({ r with emitted := true } ::ₘ rest : Multiset InflightResolve),
      y.id = x.id ∧ y.kind = x.kind ∧ y.query = x.query := by
  by_cases hxr : x = r
  · exact ⟨_, Multiset.mem_cons_self _ _, by rw [hxr], by rw [hxr], by rw [hxr]⟩
  · exact ⟨x, Multiset.mem_cons_of_mem (mem_rest h hx hxr), rfl, rfl, rfl⟩

variable {now : Nat} {scope : Scope} [Crypto]

theorem Held.step (h : Held t) (hstep : Step now scope t t') (hk : scope.strands = false) :
    Held t' := by
  cases hstep with
  | ask _ _ _ _ _ _ _ _ =>
    intro i e he
    obtain ⟨r, hr, hrest⟩ := h i e he
    exact ⟨r, Multiset.mem_cons_of_mem hr, hrest⟩
  | forget _ hlive =>
    intro i e he
    obtain ⟨r, hr, hid, hkind, hquery⟩ := h i e he
    exact ⟨r, mem_of_forget hlive hr (by simp [InflightResolve.live, hkind]), hid, hkind, hquery⟩
  | deny _ _ _ _ _ _ =>
    intro i e he
    obtain ⟨r, hr, hrest⟩ := h i e he
    exact ⟨r, Multiset.mem_cons_of_mem hr, hrest⟩
  | @close _ x rest _ _ hl _ _ _ =>
    intro i e he
    change (if x.kind = .install .authenticatedInitiator then (t.letGo x.id).initiations
      else t.initiations) i = some e at he
    by_cases hx : x.kind = .install .authenticatedInitiator
    · -- The initiation of the lookup goes with it.
      rw [if_pos hx] at he
      obtain ⟨he, hne⟩ := Option.filter_eq_some_iff.mp he
      obtain ⟨r, hr, hid, hrest⟩ := h i e he
      refine ⟨r, mem_rest hl hr ?_, hid, hrest⟩
      rintro rfl
      exact absurd hid.symm (by simpa using hne)
    · rw [if_neg hx] at he
      obtain ⟨r, hr, hid, hkind, hquery⟩ := h i e he
      refine ⟨r, mem_rest hl hr ?_, hid, hkind, hquery⟩
      rintro rfl
      exact hx hkind
  | strand _ _ _ => cases hk
  | @seek _ r e' _ _ hkind _ hkey _ _ _ _ hown hpark _ =>
    intro i e he
    rcases hpark.of_some he with rfl | he
    · exact ⟨r, Multiset.mem_cons_self _ _, hown.symm, hkind, hkey⟩
    · obtain ⟨x, hx, hrest⟩ := h i e he
      exact ⟨x, Multiset.mem_cons_of_mem hx, hrest⟩
  | @hold _ e' r _ hr hid hkind hquery hpark =>
    intro i e he
    rcases hpark.of_some he with rfl | he
    · exact ⟨r, hr, hid, hkind, hquery⟩
    · exact h i e he
  | offer hl _ =>
    intro i e he
    obtain ⟨r, hr, hid, hkind, hquery⟩ := h i e he
    obtain ⟨y, hy, hyid, hykind, hyquery⟩ := exists_offered hl hr
    exact ⟨y, hy, hyid.trans hid, hykind.trans hkind, hyquery.trans hquery⟩
  | _ => exact h

/-- Only a step that may take away a lookup that packets wait for does. -/
theorem ServedBut.step {except : Option Nat} (h : ServedBut t except) (hstep : Step now scope t t')
    (hk : scope.orphans = false) : ServedBut t' except := by
  cases hstep with
  | dropParked hle => exact fun q hq => h q (Multiset.mem_of_le hle hq)
  | park _ hw _ =>
    intro q hq id hwait hne
    rcases Multiset.mem_cons.mp hq with rfl | hq
    · rw [hw] at hwait
      cases hwait
    · exact h q hq id hwait hne
  | @await _ p r header _ hw hr hparse hquery hkind =>
    intro q hq id hwait hne
    rcases Multiset.mem_cons.mp hq with rfl | hq
    · rw [hw] at hwait
      exact ⟨r, hr, header, Wait.resolve.inj hwait, hkind, hparse, hquery⟩
    · exact h q hq id hwait hne
  | ask _ _ _ _ _ _ _ _ | seek _ _ _ _ _ _ _ _ _ _ =>
    intro q hq id hwait hne
    obtain ⟨r, hr, hrest⟩ := h q hq id hwait hne
    exact ⟨r, Multiset.mem_cons_of_mem hr, hrest⟩
  | forget _ hlive =>
    intro q hq id hwait hne
    obtain ⟨r, hr, header, hid, hkind, hrest⟩ := h q hq id hwait hne
    exact ⟨r, mem_of_forget hlive hr (by simp [InflightResolve.live, hkind]), header, hid, hkind,
      hrest⟩
  | deny _ _ _ _ _ _ =>
    intro q hq id hwait hne
    obtain ⟨r, hr, hrest⟩ := h q hq id hwait hne
    exact ⟨r, Multiset.mem_cons_of_mem hr, hrest⟩
  | @close _ x rest _ orphans hl _ _ hserved =>
    intro q hq id hwait hne
    obtain ⟨r, hr, header, hid, hkind, hrest⟩ := h q hq id hwait hne
    refine ⟨r, mem_rest hl hr ?_, header, hid, hkind, hrest⟩
    rintro rfl
    have hnone := (hserved.resolve_left (by simpa using hk)) hkind q hq
    exact hnone (hid ▸ hwait)
  | @strand _ x rest key hl _ hquery =>
    intro q hq id hwait hne
    obtain ⟨r, hr, header, hid, hkind, hparse, hdst⟩ := h q hq id hwait hne
    refine ⟨r, mem_rest hl hr ?_, header, hid, hkind, hparse, hdst⟩
    rintro rfl
    rw [hquery] at hdst
    cases hdst
  | offer hl _ =>
    intro q hq id hwait hne
    obtain ⟨r, hr, header, hid, hkind, hparse, hdst⟩ := h q hq id hwait hne
    obtain ⟨y, hy, hyid, hykind, hyquery⟩ := exists_offered hl hr
    exact ⟨y, hy, header, hyid.trans hid, hykind.trans hkind, hparse, hyquery.trans hdst⟩
  | _ => exact h

/-- Only a step that may answer for a key discharges what is owed to it. -/
theorem OwedTo.step {key : Key} (h : OwedTo t key) (hstep : Step now scope t t')
    (hk : scope.answers ≠ some key) : OwedTo t' key := by
  cases hstep with
  | ask _ _ _ _ _ _ _ _ | seek _ _ _ _ _ _ _ _ _ _ =>
    rcases h with h | ⟨r, hr, hrest⟩
    · exact Or.inl h
    · exact Or.inr ⟨r, Multiset.mem_cons_of_mem hr, hrest⟩
  | forget _ hlive =>
    rcases h with h | ⟨r, hr, hkind, hquery⟩
    · exact Or.inl h
    · exact Or.inr ⟨r, mem_of_forget hlive hr (by simp [InflightResolve.live, hkind]), hkind,
        hquery⟩
  | deny _ _ _ _ _ _ =>
    rcases h with h | ⟨r, hr, hrest⟩
    · exact Or.inl h
    · exact Or.inr ⟨r, Multiset.mem_cons_of_mem hr, hrest⟩
  | @close _ x rest _ _ hl _ howed _ =>
    rcases h with h | ⟨r, hr, hkind, hquery⟩
    · exact Or.inl h
    · by_cases hrx : r = x
      · subst hrx
        exact Or.inl ((howed key hkind hquery).resolve_right hk)
      · exact Or.inr ⟨r, mem_rest hl hr hrx, hkind, hquery⟩
  | @strand _ x rest key' hl _ hquery' =>
    rcases h with h | ⟨r, hr, hkind, hquery⟩
    · exact Or.inl h
    · refine Or.inr ⟨r, mem_rest hl hr ?_, hkind, hquery⟩
      rintro rfl
      rw [hquery'] at hquery
      exact hk (congrArg some (ResolveQuery.byPublicKey.inj hquery))
  | @owe _ o rest howed _ =>
    rcases h with ⟨x, hx, hkey⟩ | h
    · refine Or.inl ?_
      rcases howed with hrest | ⟨y, hy, hrest⟩
      · exact ⟨x, Multiset.mem_cons_of_mem (hrest ▸ hx), hkey⟩
      · rw [hrest] at hx
        rcases Multiset.mem_cons.mp hx with rfl | hx
        · exact ⟨o, Multiset.mem_cons_self _ _, hy.symm.trans hkey⟩
        · exact ⟨x, Multiset.mem_cons_of_mem hx, hkey⟩
    · exact Or.inr h
  | @discharge _ o rest _ hl hwhy =>
    rcases h with ⟨x, hx, hkey⟩ | h
    · rw [hl] at hx
      rcases Multiset.mem_cons.mp hx with rfl | hx
      · rw [hkey] at hwhy
        exact Or.inr (hwhy.resolve_left hk)
      · exact Or.inl ⟨x, hx, hkey⟩
    · exact Or.inr h
  | offer hl _ =>
    rcases h with h | ⟨r, hr, hkind, hquery⟩
    · exact Or.inl h
    · obtain ⟨y, hy, -, hykind, hyquery⟩ := exists_offered hl hr
      exact Or.inr ⟨y, hy, hykind.trans hkind, hyquery.trans hquery⟩
  | _ => exact h

/-- Without the desk, the lookups and what goes with them stay as they are. -/
structure Still (t t' : Tables cap) : Prop where
  lookups : t'.lookups = t.lookups
  owed : t'.owed = t.owed
  initiations : t'.initiations = t.initiations
  diary : t'.diary = t.diary
  waiting : ∀ id, t'.parked.filter (·.wait = .resolve id) ≤ t.parked.filter (·.wait = .resolve id)

omit [Crypto] in
theorem Still.refl (t : Tables cap) : Still t t := ⟨rfl, rfl, rfl, rfl, fun _ => le_rfl⟩

omit [Crypto] in
theorem Still.trans {t'' : Tables cap} (h : Still t t') (h' : Still t' t'') : Still t t'' :=
  ⟨h'.lookups.trans h.lookups, h'.owed.trans h.owed, h'.initiations.trans h.initiations,
    h'.diary.trans h.diary, fun id => (h'.waiting id).trans (h.waiting id)⟩

theorem Step.still (hstep : Step now scope t t') (hk : scope.desk = false) : Still t t' := by
  cases hstep with
  | dropParked hle => exact ⟨rfl, rfl, rfl, rfl, fun id => Multiset.filter_le_filter _ hle⟩
  | @park _ p q _ hw _ =>
    refine ⟨rfl, rfl, rfl, rfl, fun id => ?_⟩
    show (p ::ₘ t.parked).filter _ ≤ _
    rw [Multiset.filter_cons_of_neg _ (by simp [hw])]
  | await _ _ _ _ _ _ => cases hk
  | ask _ _ _ _ _ _ _ _ => cases hk
  | identify _ => cases hk
  | seek _ _ _ _ _ _ _ _ _ _ => cases hk
  | forget _ _ => cases hk
  | deny _ _ _ _ _ _ => cases hk
  | close _ _ _ _ => cases hk
  | strand _ _ _ => cases hk
  | hold _ _ _ _ _ => cases hk
  | owe _ _ => cases hk
  | discharge _ _ => cases hk
  | offer _ _ => cases hk
  | _ => exact ⟨rfl, rfl, rfl, rfl, fun _ => le_rfl⟩

/-! ### Runs -/

theorem Steps.held (h : Steps now scope t t') (hk : scope.strands = false) (ht : Held t) :
    Held t' := by
  refine h.keeps (fun k u u' hle hstep hu => hu.step hstep ?_) ht
  exact Bool.eq_false_iff.mpr fun hs => by simp [hle.2.2.2.1 hs] at hk

theorem Steps.servedBut {except : Option Nat} (h : Steps now scope t t')
    (hk : scope.orphans = false) (ht : ServedBut t except) : ServedBut t' except := by
  refine h.keeps (I := fun u => ServedBut u except) (fun k u u' hle hstep hu => hu.step hstep ?_) ht
  exact Bool.eq_false_iff.mpr fun hs => by simp [hle.2.2.2.2.1 hs] at hk

theorem Steps.owedTo {key : Key} (h : Steps now scope t t') (hk : scope.answers ≠ some key)
    (ht : OwedTo t key) : OwedTo t' key := by
  refine h.keeps (I := fun u => OwedTo u key) (fun k u u' hle hstep hu => hu.step hstep ?_) ht
  intro hs
  rcases hle.2.2.1 with hnone | heq
  · rw [hnone] at hs
    cases hs
  · exact hk (heq ▸ hs)

theorem Steps.still (h : Steps now scope t t') (hk : scope.desk = false) : Still t t' := by
  refine h.keeps (I := Still t) (fun k u u' hle hstep hu => hu.trans (hstep.still ?_))
    (Still.refl t)
  exact Bool.eq_false_iff.mpr fun hs => by simp [hle.2.1 hs] at hk

end Tables

end Microtun
