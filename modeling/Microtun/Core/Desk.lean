import Microtun.Core.Tables

/-! The table of lookups: what is in it at all times, what waits for a lookup, and what a run says
about it. -/

namespace Microtun

open Function (update update_self update_of_ne)

theorem live_of_kind {r : InflightResolve} (h : r.kind = .install .authenticatedInitiator) :
    r.live = true := by simp [InflightResolve.live, h]

namespace Parked

variable {initiations initiations' : Nat → Option PendingInitiation} {e : PendingInitiation}

theorem of_some (h : Parked initiations e initiations') {i : Nat} {x : PendingInitiation}
    (hx : initiations' i = some x) : e = x ∨ initiations i = some x := by
  cases h with
  | @newer n | @spare n =>
    by_cases hi : i = n
    · rw [hi, update_self] at hx
      exact Or.inl (Option.some.inj hx)
    · rw [update_of_ne hi] at hx
      exact Or.inr hx
  | older | full => exact Or.inr hx

theorem slots (h : Parked initiations e initiations')
    (hslots : ∀ i j x y, initiations i = some x → initiations j = some y →
      x.resolveId = y.resolveId → i = j) (i j : Nat) (x y : PendingInitiation)
    (hx : initiations' i = some x) (hy : initiations' j = some y)
    (hid : x.resolveId = y.resolveId) : i = j := by
  -- The slot of `e` is the only one with its identifier.
  have hput : ∀ n, (∀ k z, initiations k = some z → z.resolveId = e.resolveId → k = n) →
      ∀ k z, update initiations n (some e) k = some z → z.resolveId = e.resolveId → k = n := by
    intro n hn k z hz hzid
    by_cases hk : k = n
    · exact hk
    · rw [update_of_ne hk] at hz
      exact hn k z hz hzid
  have hone : ∀ n, initiations' = update initiations n (some e) →
      (∀ k z, initiations k = some z → z.resolveId = e.resolveId → k = n) → i = j := by
    intro n heq hn
    rw [heq] at hx hy
    have hxn := hput n hn i x hx
    have hyn := hput n hn j y hy
    by_cases hxid : x.resolveId = e.resolveId
    · exact (hxn hxid).trans (hyn (hid ▸ hxid)).symm
    · have hi : i ≠ n := by
        rintro rfl
        rw [update_self] at hx
        cases hx
        exact hxid rfl
      have hj : j ≠ n := by
        rintro rfl
        rw [update_self] at hy
        cases hy
        exact hxid hid
      rw [update_of_ne hi] at hx
      rw [update_of_ne hj] at hy
      exact hslots i j x y hx hy hid
  cases h with
  | @newer n z hz hzid _ =>
    exact hone n rfl fun k u hu huid => hslots k n u z hu hz (huid.trans hzid.symm)
  | @spare n _ hnone => exact hone n rfl fun k u hu huid => absurd huid (hnone k u hu)
  | older | full => exact hslots i j x y hx hy hid

end Parked

namespace Tables

variable {cap : Capacities} {t t' : Tables cap} {now : Nat} {scope : Scope}

/-- The table of lookups: identifiers are unique, no question is asked twice, and negative answers
are remembered once.  A negative answer about an address does not coexist with a question. -/
structure Desk (t : Tables cap) : Prop where
  limit : t.config.maxInflightResolves ≤ 256
  room : t.lookups.card ≤ t.config.maxInflightResolves
  ids : (t.lookups.map (·.id)).Nodup
  live : ((t.lookups.filter (·.live)).map (·.query)).Nodup
  negative : ((t.lookups.filter (!·.live)).map (·.query)).Nodup
  fits : ∀ r ∈ t.lookups, r.live = true → r.Fits
  spent : ∀ r ∈ t.lookups, r.live = false → r.emitted = true
  apart : ∀ r ∈ t.lookups, r.live = false → ∀ x ∈ t.lookups, x.live = true → x.query = r.query →
    ∃ key, r.query = .byPublicKey key
  slots : ∀ i j e e', t.initiations i = some e → t.initiations j = some e' →
    e.resolveId = e'.resolveId → i = j

theorem Desk.shrink (h : Desk t) (hconfig : t'.config = t.config) (hle : t'.lookups ≤ t.lookups)
    (hi : ∀ i e, t'.initiations i = some e → t.initiations i = some e) : Desk t' := by
  have hmem : ∀ {r}, r ∈ t'.lookups → r ∈ t.lookups := fun hr => Multiset.mem_of_le hle hr
  refine ⟨hconfig ▸ h.limit, ?_, ?_, ?_, ?_, fun r hr => h.fits r (hmem hr),
    fun r hr => h.spent r (hmem hr), fun r hr hneg x hx => h.apart r (hmem hr) hneg x (hmem hx),
    fun i j e e' he he' => h.slots i j e e' (hi i e he) (hi j e' he')⟩
  · rw [hconfig]
    exact (Multiset.card_le_card hle).trans h.room
  · exact Multiset.nodup_of_le (Multiset.map_le_map hle) h.ids
  · exact Multiset.nodup_of_le (Multiset.map_le_map (Multiset.filter_le_filter _ hle)) h.live
  · exact Multiset.nodup_of_le (Multiset.map_le_map (Multiset.filter_le_filter _ hle)) h.negative

theorem Desk.congr (h : Desk t) (hconfig : t'.config = t.config) (hl : t'.lookups = t.lookups)
    (hi : t'.initiations = t.initiations) : Desk t' :=
  h.shrink hconfig hl.le fun i _ => by rw [hi]; exact id

/-- A lookup is added that keeps everything apart. -/
theorem Desk.add (h : Desk t) {r : InflightResolve} (hconfig : t'.config = t.config)
    (hl : t'.lookups = r ::ₘ t.lookups) (hi : t'.initiations = t.initiations)
    (hroom : t.lookups.card < t.config.maxInflightResolves)
    (hid : ∀ x ∈ t.lookups, x.id ≠ r.id) (hfits : r.live = true → r.Fits)
    (hspent : r.live = false → r.emitted = true)
    (hquery : ∀ x ∈ t.lookups, x.query = r.query → x.live ≠ r.live ∧
      ∃ key, r.query = .byPublicKey key) : Desk t' := by
  have hnot : ∀ (b : Bool), r.live = b →
      r.query ∉ (t.lookups.filter fun x => x.live = b).map (·.query) := by
    intro b hb hmem
    obtain ⟨x, hx, heq⟩ := Multiset.mem_map.mp hmem
    obtain ⟨hx, hxb⟩ := Multiset.mem_filter.mp hx
    exact (hquery x hx heq).1 (hxb.trans hb.symm)
  refine ⟨hconfig ▸ h.limit, ?_, ?_, ?_, ?_, fun x hx => ?_, fun x hx => ?_,
    fun x hx hneg y hy hy' heq => ?_, hi ▸ h.slots⟩
  · rw [hl, hconfig, Multiset.card_cons]
    exact hroom
  · rw [hl, Multiset.map_cons, Multiset.nodup_cons]
    refine ⟨fun hmem => ?_, h.ids⟩
    obtain ⟨x, hx, heq⟩ := Multiset.mem_map.mp hmem
    exact hid x hx heq
  · rw [hl]
    cases hr : r.live with
    | true =>
      rw [Multiset.filter_cons_of_pos t.lookups (p := fun x => x.live = true) hr, Multiset.map_cons,
        Multiset.nodup_cons]
      exact ⟨hnot true hr, h.live⟩
    | false =>
      rw [Multiset.filter_cons_of_neg _ (by simp [hr])]
      exact h.live
  · rw [hl]
    cases hr : r.live with
    | true =>
      rw [Multiset.filter_cons_of_neg _ (by simp [hr])]
      exact h.negative
    | false =>
      rw [Multiset.filter_cons_of_pos _ (by simp [hr]), Multiset.map_cons, Multiset.nodup_cons]
      refine ⟨?_, h.negative⟩
      simpa using hnot false hr
  · rw [hl] at hx
    rcases Multiset.mem_cons.mp hx with rfl | hx
    · exact hfits
    · exact h.fits x hx
  · rw [hl] at hx
    rcases Multiset.mem_cons.mp hx with rfl | hx
    · exact hspent
    · exact h.spent x hx
  · rw [hl] at hx hy
    rcases Multiset.mem_cons.mp hx with hxr | hxt
    · rw [hxr] at hneg heq ⊢
      rcases Multiset.mem_cons.mp hy with hyr | hyt
      · rw [hyr, hneg] at hy'
        cases hy'
      · exact (hquery y hyt heq).2
    · rcases Multiset.mem_cons.mp hy with hyr | hyt
      · rw [hyr] at heq
        rw [← heq]
        exact (hquery x hxt heq.symm).2
      · exact h.apart x hxt hneg y hyt hy' heq

theorem Desk.unique (h : Desk t) {r x : InflightResolve} (hr : r ∈ t.lookups) (hx : x ∈ t.lookups)
    (hid : r.id = x.id) : r = x :=
  Multiset.inj_on_of_nodup_map h.ids r hr x hx hid

theorem Desk.only (h : Desk t) {r x : InflightResolve} (hr : r ∈ t.lookups) (hx : x ∈ t.lookups)
    (hlive : r.live = true) (hxlive : x.live = true) (hq : r.query = x.query) : r = x :=
  Multiset.inj_on_of_nodup_map h.live r (Multiset.mem_filter.mpr ⟨hr, hlive⟩) x
    (Multiset.mem_filter.mpr ⟨hx, hxlive⟩) hq

variable [Crypto]

theorem Desk.step (h : Desk t) (hstep : Step now scope t t') : Desk t' := by
  cases hstep with
  | @ask _ r hlive hemit _ hfits hid hquery hroom hd =>
    refine h.add rfl rfl rfl hroom hid (fun _ => hfits) (by simp [hlive]) fun x hx heq => ?_
    obtain ⟨hneg, -, hkey⟩ := hquery x hx heq
    exact ⟨by simp [hneg, hlive], hkey⟩
  | forget hle _ => exact h.shrink rfl hle fun _ _ he => he
  | @deny _ r hneg hemit hid hquery hroom hd =>
    exact h.add rfl rfl rfl hroom hid (by simp [hneg]) (fun _ => hemit)
      fun x hx heq => absurd heq (hquery x hx)
  | @close _ r rest _ _ hl _ _ _ =>
    have hle : rest ≤ t.lookups := hl ▸ Multiset.le_cons_self rest r
    refine h.shrink rfl hle fun i e he => ?_
    simp only [shut] at he
    split at he
    · exact (Option.filter_eq_some_iff.mp he).1
    · exact he
  | @strand _ r rest _ hl _ _ =>
    exact h.shrink rfl (hl ▸ Multiset.le_cons_self rest r) fun _ _ he => he
  | @seek _ r e _ initiations hkind hemit hkey hid hquery hroom hd hown hpark _ =>
    have hasked : Desk (t.withLookups (r ::ₘ t.lookups)) := by
      refine h.add rfl rfl rfl hroom hid (fun _ => ?_) (fun hneg => ?_) fun x hx heq => ?_
      · rw [InflightResolve.Fits, hkey]
        dsimp only
        rw [hkind]
        rintro ⟨⟩
      · rw [live_of_kind hkind] at hneg
        cases hneg
      · obtain ⟨hneg, -, hkey⟩ := hquery x hx heq
        exact ⟨by simp [hneg, live_of_kind hkind], hkey⟩
    exact { hasked with slots := hpark.slots h.slots }
  | hold _ _ _ _ hpark => exact { h with slots := hpark.slots h.slots }
  | @offer _ r rest hl hemit =>
    -- Only the flag of the one lookup changes.
    have hrest : Desk (t.withLookups rest) :=
      h.shrink rfl (hl ▸ Multiset.le_cons_self rest r) fun _ _ he => he
    have hmem : r ∈ t.lookups := hl ▸ Multiset.mem_cons_self r rest
    have hsub : ∀ {x}, x ∈ rest → x ∈ t.lookups := fun hx => hl ▸ Multiset.mem_cons_of_mem hx
    have hlive : r.live = true := by
      cases hr : r.live with
      | true => rfl
      | false =>
        rw [h.spent r hmem hr] at hemit
        cases hemit
    have hids := h.ids
    rw [hl, Multiset.map_cons, Multiset.nodup_cons] at hids
    refine hrest.add (r := { r with emitted := true }) rfl rfl rfl ?_ (fun x hx heq => ?_)
      (fun _ => h.fits r hmem hlive) (fun _ => rfl) (fun x hx heq => ⟨?_, ?_⟩)
    · have := h.room
      rw [hl, Multiset.card_cons] at this
      exact this
    · exact hids.1 (Multiset.mem_map.mpr ⟨x, hx, heq⟩)
    · intro hxl
      have hx' : x.live = true := hxl.trans hlive
      obtain rfl := h.only (hsub hx) hmem hx' hlive heq
      exact hids.1 (Multiset.mem_map_of_mem _ hx)
    · cases hxl : x.live with
      | true =>
        obtain rfl := h.only (hsub hx) hmem hxl hlive heq
        exact absurd (Multiset.mem_map_of_mem _ hx) hids.1
      | false =>
        obtain ⟨key, hkey⟩ := h.apart x (hsub hx) hxl r hmem hlive heq.symm
        exact ⟨key, heq.symm.trans hkey⟩
  | _ => exact h.congr rfl rfl rfl

end Tables

end Microtun
