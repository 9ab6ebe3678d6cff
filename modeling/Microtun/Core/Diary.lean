import Microtun.Core.Promises

/-! What a run says about lookups: no question is asked again before the lookup that asked it is
closed, and a negative answer only stands beside a question when its time is over. -/

namespace Microtun

/-- Has the question been asked, by a lookup that was not closed since? -/
def asked (query : ResolveQuery) : List Event → Bool
  | [] => false
  | .resolve request true :: rest => if request.query = query then true else asked query rest
  | .closed closed :: rest => if closed = query then false else asked query rest
  | _ :: rest => asked query rest

/-- Between two emissions of a question the first lookup was closed. -/
def AsksOnce (diary : List Event) : Prop :=
  ∀ later request earlier, diary = later ++ .resolve request true :: earlier →
    asked request.query earlier = false

/-- A question that was asked and is not being asked was closed in between. -/
theorem closed_of_asked {query : ResolveQuery} {diary mid rest : List Event} {id : Nat}
    (h : asked query diary = false) (hdiary : diary = mid ++ .resolve ⟨id, query⟩ true :: rest) :
    .closed query ∈ mid := by
  induction mid generalizing diary with
  | nil =>
    rw [hdiary] at h
    simp [asked] at h
  | cons e mid ih =>
    subst hdiary
    by_cases he : e = .closed query
    · exact he ▸ List.mem_cons_self
    · refine List.mem_cons_of_mem _ (ih ?_ rfl)
      cases e with
      | resolve request taken =>
        cases taken with
        | true =>
          simp only [List.cons_append, asked] at h
          split at h
          · cases h
          · exact h
        | false => exact h
      | closed closed =>
        simp only [List.cons_append, asked] at h
        rw [if_neg (fun hc => he (congrArg Event.closed hc))] at h
        exact h
      | _ => exact h

namespace Tables

variable {cap : Capacities} {t t' : Tables cap} {now limit : Nat} {scope : Scope}

/-- A question that is being asked has its lookup. -/
structure Candid (t : Tables cap) : Prop where
  lookup : ∀ query, asked query t.diary = true →
    ∃ r ∈ t.lookups, r.live = true ∧ r.query = query ∧ r.emitted = true
  once : AsksOnce t.diary

/-- A negative answer stands beside its question only if its time was over by `limit`. -/
def Expired (limit : Nat) (t : Tables cap) : Prop :=
  ∀ r ∈ t.lookups, r.live = false → ∀ x ∈ t.lookups, x.live = true → x.query = r.query →
    r.deadline ≤ limit

theorem Candid.congr (h : Candid t) (hdiary : t'.diary = t.diary)
    (hlookups : ∀ r ∈ t.lookups, r.live = true → r ∈ t'.lookups) : Candid t' := by
  refine ⟨fun query hq => ?_, hdiary ▸ h.once⟩
  rw [hdiary] at hq
  obtain ⟨r, hr, hlive, hrest⟩ := h.lookup query hq
  exact ⟨r, hlookups r hr hlive, hlive, hrest⟩

theorem Candid.mark (h : Candid t) {e : Event} (hdiary : t'.diary = e :: t.diary)
    (hrequest : ∀ request, e ≠ .resolve request true)
    (hasked : ∀ query, asked query (e :: t.diary) = asked query t.diary)
    (hlookups : ∀ r ∈ t.lookups, r.live = true → r ∈ t'.lookups) : Candid t' := by
  refine ⟨fun query hq => ?_, ?_⟩
  · rw [hdiary, hasked] at hq
    obtain ⟨r, hr, hlive, hrest⟩ := h.lookup query hq
    exact ⟨r, hlookups r hr hlive, hlive, hrest⟩
  · rw [hdiary]
    intro later request earlier heq
    cases later with
    | nil => exact absurd (List.cons.inj heq).1 (hrequest request)
    | cons e' later => exact h.once later request earlier (List.cons.inj heq).2

theorem Candid.close (h : Candid t) {r : InflightResolve} {rest : Multiset InflightResolve}
    (hl : t.lookups = r ::ₘ rest) (hlookups : t'.lookups = rest)
    (hdiary : t'.diary = .closed r.query :: t.diary) : Candid t' := by
  refine ⟨fun query hq => ?_, ?_⟩
  · rw [hdiary, asked] at hq
    split at hq
    · cases hq
    · rename_i hne
      obtain ⟨x, hx, hlive, hquery, hemit⟩ := h.lookup query hq
      refine ⟨x, ?_, hlive, hquery, hemit⟩
      rw [hlookups]
      refine mem_rest hl hx ?_
      rintro rfl
      exact hne hquery
  · rw [hdiary]
    intro later request earlier heq
    cases later with
    | nil => cases (List.cons.inj heq).1
    | cons e later => exact h.once later request earlier (List.cons.inj heq).2

variable [Crypto]

theorem Candid.step (h : Candid t) (hdesk : Desk t) (hstep : Step now scope t t') : Candid t' := by
  cases hstep with
  | ask _ _ _ _ _ _ _ _ => exact h.congr rfl fun r hr _ => Multiset.mem_cons_of_mem hr
  | identify _ => exact h.mark rfl (by rintro _ ⟨⟩) (fun _ => rfl) fun _ hr _ => hr
  | seek _ _ _ _ _ _ _ _ _ _ =>
    exact h.mark rfl (by rintro _ ⟨⟩) (fun _ => rfl) fun _ hr _ => Multiset.mem_cons_of_mem hr
  | hold _ _ _ _ _ => exact h.mark rfl (by rintro _ ⟨⟩) (fun _ => rfl) fun _ hr _ => hr
  | forget _ hlive => exact h.congr rfl fun r hr hrl => mem_of_forget hlive hr hrl
  | deny _ _ _ _ _ _ => exact h.congr rfl fun r hr _ => Multiset.mem_cons_of_mem hr
  | close hl _ _ _ => exact h.close hl rfl rfl
  | strand hl _ _ => exact h.close hl rfl rfl
  | @offer _ r rest hl hemit =>
    have hmem : r ∈ t.lookups := hl ▸ Multiset.mem_cons_self r rest
    have hlive : r.live = true := by
      cases hr : r.live with
      | true => rfl
      | false =>
        rw [hdesk.spent r hmem hr] at hemit
        cases hemit
    -- The lookup that is offered is the only one of its question.
    have hnot : asked r.query t.diary = false := by
      refine Bool.eq_false_iff.mpr fun hasked => ?_
      obtain ⟨x, hx, hxl, hquery, hxe⟩ := h.lookup r.query hasked
      obtain rfl := hdesk.only hx hmem hxl hlive hquery
      rw [hxe] at hemit
      cases hemit
    refine ⟨fun query hq => ?_, ?_⟩
    · change asked query (.resolve ⟨r.id, r.query⟩ true :: t.diary) = true at hq
      rw [asked] at hq
      split at hq
      · rename_i hquery
        exact ⟨_, Multiset.mem_cons_self _ _, hlive, hquery, rfl⟩
      · rename_i hne
        obtain ⟨x, hx, hxl, hquery, hxe⟩ := h.lookup query hq
        refine ⟨x, Multiset.mem_cons_of_mem (mem_rest hl hx ?_), hxl, hquery, hxe⟩
        rintro rfl
        exact hne hquery
    · intro later request earlier heq
      change .resolve ⟨r.id, r.query⟩ true :: t.diary = _ at heq
      cases later with
      | nil =>
        obtain ⟨hreq, rfl⟩ := List.cons.inj heq
        cases hreq
        exact hnot
      | cons e later => exact h.once later request earlier (List.cons.inj heq).2
  | _ => exact h.congr rfl fun _ hr _ => hr

omit [Crypto] in
theorem Expired.shrink (h : Expired limit t) (hle : t'.lookups ≤ t.lookups) : Expired limit t' :=
  fun r hr hneg x hx => h r (Multiset.mem_of_le hle hr) hneg x (Multiset.mem_of_le hle hx)

omit [Crypto] in
theorem Expired.add (h : Expired limit t) {r : InflightResolve} (hl : t'.lookups = r ::ₘ t.lookups)
    (hlive : r.live = true) (hover : ∀ x ∈ t.lookups, x.query = r.query → x.deadline ≤ limit) :
    Expired limit t' := by
  intro y hy hneg x hx hxl hq
  rw [hl] at hx hy
  rcases Multiset.mem_cons.mp hy with rfl | hy'
  · rw [hlive] at hneg
    cases hneg
  · rcases Multiset.mem_cons.mp hx with rfl | hx'
    · exact hover y hy' hq.symm
    · exact h y hy' hneg x hx' hxl hq

theorem Expired.step (h : Expired limit t) (hnow : now ≤ limit) (hstep : Step now scope t t') :
    Expired limit t' := by
  cases hstep with
  | @ask _ r hlive _ _ _ _ hquery _ _ =>
    exact h.add rfl hlive fun x hx hq => (hquery x hx hq).2.1.trans hnow
  | @seek _ r e _ _ hkind _ _ _ hquery _ _ _ _ _ =>
    exact h.add rfl (live_of_kind hkind) fun x hx hq => (hquery x hx hq).2.1.trans hnow
  | forget hle _ => exact h.shrink hle
  | @deny _ r hneg _ _ hquery _ _ =>
    intro y hy hyn x hx hxl hq
    rcases Multiset.mem_cons.mp hx with rfl | hx'
    · rw [hneg] at hxl
      cases hxl
    · rcases Multiset.mem_cons.mp hy with rfl | hy'
      · exact absurd hq (hquery x hx')
      · exact h y hy' hyn x hx' hxl hq
  | close hl _ _ _ => exact h.shrink (hl ▸ Multiset.le_cons_self _ _)
  | strand hl _ _ => exact h.shrink (hl ▸ Multiset.le_cons_self _ _)
  | @offer _ r rest hl _ =>
    have hback : ∀ y ∈ ({ r with emitted := true } ::ₘ rest : Multiset InflightResolve),
        ∃ x ∈ t.lookups, x.live = y.live ∧ x.query = y.query ∧ x.deadline = y.deadline := by
      intro y hy
      rw [hl]
      rcases Multiset.mem_cons.mp hy with rfl | hy
      · exact ⟨r, Multiset.mem_cons_self _ _, rfl, rfl, rfl⟩
      · exact ⟨y, Multiset.mem_cons_of_mem hy, rfl, rfl, rfl⟩
    intro y hy hneg x hx hxl hq
    obtain ⟨y', hy', hyl, hyq, hyd⟩ := hback y hy
    obtain ⟨x', hx', hxl', hxq, -⟩ := hback x hx
    rw [← hyd]
    exact h y' hy' (hyl.trans hneg) x' hx' (hxl'.trans hxl) (hxq.trans (hq.trans hyq.symm))
  | _ => exact h

/-! ### Runs -/

theorem Steps.candid (h : Steps now scope t t') (hI : Inv t) (ht : Candid t) : Candid t' := by
  have hboth : Inv t' ∧ Candid t' := by
    refine h.keeps (I := fun u => Inv u ∧ Candid u) ?_ ⟨hI, ht⟩
    rintro k u u' - hstep ⟨hu, hc⟩
    exact ⟨hu.step hstep, hc.step hu.desk hstep⟩
  exact hboth.2

theorem Steps.expired (h : Steps now scope t t') (hnow : now ≤ limit) (ht : Expired limit t) :
    Expired limit t' :=
  h.keeps (I := Expired limit) (fun _ _ _ _ hstep hu => hu.step hnow hstep) ht

end Tables

end Microtun
