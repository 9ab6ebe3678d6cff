import Microtun.Core.Spec.Transport

/-! What the table of lookups and the reconciliations do to the tables. -/

namespace Microtun

open Hoare Tables
open Function (update update_self update_of_ne)

variable {cap : Capacities} {R P : Type} {w : World cap R P} {c : Core cap R P} {now : Nat}

/-! ### Lists -/

section

variable {α : Type} {l : List α} {pos : Nat} {a : α}

theorem swapRemove_perm (h : l[pos]? = some a) : l.Perm (a :: swapRemove l pos) := by
  obtain ⟨hlt, rfl⟩ := List.getElem?_eq_some_iff.mp h
  have hne : l ≠ [] := List.ne_nil_of_length_pos (Nat.zero_lt_of_lt hlt)
  obtain ⟨init, last, rfl⟩ : ∃ init last, l = init ++ [last] :=
    ⟨_, _, (List.dropLast_append_getLast hne).symm⟩
  have hswap : swapRemove (init ++ [last]) pos = ((init ++ [last]).set pos last).dropLast := by
    simp [swapRemove]
  rw [hswap]
  by_cases hpos : pos < init.length
  · rw [List.set_append_left _ _ hpos, List.dropLast_concat, List.getElem_append_left hpos]
    have hset := List.set_perm_cons_eraseIdx hpos last
    have hinit := (List.getElem_cons_eraseIdx_perm hpos).symm
    calc (init ++ [last]).Perm (last :: init) := List.perm_append_singleton _ _
      _ |>.Perm (last :: init[pos] :: init.eraseIdx pos) := hinit.cons last
      _ |>.Perm (init[pos] :: last :: init.eraseIdx pos) := List.Perm.swap _ _ _
      _ |>.Perm (init[pos] :: init.set pos last) := hset.symm.cons _
  · obtain rfl : pos = init.length := by
      simp only [List.length_append, List.length_cons, List.length_nil] at hlt
      omega
    have hself : (init ++ [last]).set init.length last = init ++ [last] := by simp
    rw [hself, List.dropLast_concat]
    simp

theorem set_perm_of_getElem? (h : l[pos]? = some a) (b : α) :
    ∃ rest, l.Perm (a :: rest) ∧ (l.set pos b).Perm (b :: rest) := by
  obtain ⟨hlt, rfl⟩ := List.getElem?_eq_some_iff.mp h
  exact ⟨l.eraseIdx pos, (List.getElem_cons_eraseIdx_perm hlt).symm,
    List.set_perm_cons_eraseIdx hlt b⟩

theorem findIdx?_some {p : α → Bool} (h : l.findIdx? p = some pos) :
    ∃ a, l[pos]? = some a ∧ p a = true := by
  obtain ⟨hlt, hp, -⟩ := List.findIdx?_eq_some_iff_getElem.mp h
  exact ⟨l[pos], List.getElem?_eq_getElem hlt, hp⟩

end

/-! ### Identifiers -/

/-- An identifier in use is given out only if a whole range is in use. -/
theorem nextUnusedId_range {used : List Nat} {attempts id : Nat}
    (h : (Core.nextUnusedId used attempts id).1 ∈ used) :
    ∀ k ≤ attempts, (id + k) % 2 ^ 64 ∈ used := by
  induction attempts generalizing id with
  | zero =>
    intro k hk
    obtain rfl : k = 0 := Nat.le_zero.mp hk
    exact h
  | succ attempts ih =>
    rw [Core.nextUnusedId] at h
    by_cases hid : id % 2 ^ 64 ∈ used
    · rw [if_pos hid] at h
      intro k hk
      cases k with
      | zero => exact hid
      | succ k =>
        have := ih h k (by omega)
        rwa [show id + 1 + k = id + (k + 1) by omega] at this
    · rw [if_neg hid] at h
      exact absurd h hid

/-- More candidates than there are identifiers in use cannot all be in use. -/
theorem nextUnusedId_unused {used : List Nat} {id : Nat} (hlen : used.length < 2 ^ 64) :
    (Core.nextUnusedId used used.length id).1 ∉ used := by
  intro h
  have hall := nextUnusedId_range h
  have hnodup : ((List.range (used.length + 1)).map fun k => (id + k) % 2 ^ 64).Nodup := by
    refine List.Nodup.map_on (fun x hx y hy heq => ?_) List.nodup_range
    rw [List.mem_range] at hx hy
    omega
  have hsub : ((List.range (used.length + 1)).map fun k => (id + k) % 2 ^ 64) ⊆ used := by
    intro x hx
    obtain ⟨k, hk, rfl⟩ := List.mem_map.mp hx
    exact hall k (by rw [List.mem_range] at hk; omega)
  have := (hnodup.subperm hsub).length_le
  simp only [List.length_map, List.length_range] at this
  omega

theorem allocResolveId_fresh (h : c.resolves.length < 2 ^ 64) :
    ∀ x ∈ c.resolves, x.id ≠ c.allocResolveId.1 := by
  intro x hx heq
  have hlen : (c.resolves.map (·.id)).length = c.resolves.length := List.length_map ..
  have := @nextUnusedId_unused (c.resolves.map (·.id)) c.nextResolveId
    (by rw [hlen]; exact h)
  rw [hlen] at this
  exact this (List.mem_map.mpr ⟨x, hx, heq⟩)

theorem resolves_lt [Crypto] (hI : w.tables.Inv) : w.core.resolves.length < 2 ^ 64 := by
  have hroom : w.core.resolves.length ≤ w.core.coreConfig.maxInflightResolves := hI.desk.room
  have hlimit : w.core.coreConfig.maxInflightResolves ≤ 256 := hI.desk.limit
  omega

/-! ### Adding a lookup -/

theorem kind_negative {r : InflightResolve} : r.live = false ↔ r.kind = .negative := by
  simp [InflightResolve.live]

/-- A full table of live lookups refuses; else the lookup is added, in the place of at most one
negative answer. -/
theorem pushResolve_cases (entry : InflightResolve)
    (hroom : c.resolves.length ≤ c.coreConfig.maxInflightResolves) :
    (c.pushResolve entry = (.error .resolverBusy, c) ∧
      c.resolves.length = c.coreConfig.maxInflightResolves ∧ ∀ r ∈ c.resolves, r.live = true) ∨
    ∃ rest, c.pushResolve entry =
      (.ok (), { c with resolves := rest ++ [entry] }.arm entry.deadline) ∧
      rest.length < c.coreConfig.maxInflightResolves ∧
      (rest = c.resolves ∨ ∃ r, r.live = false ∧ c.resolves.Perm (r :: rest)) := by
  unfold Core.pushResolve
  by_cases hfull : c.coreConfig.maxInflightResolves ≤ c.resolves.length
  · have hbusy : c.tryPushResolve entry = (.error .resolverBusy, c) := by
      rw [Core.tryPushResolve, if_pos hfull]
    rw [hbusy]
    dsimp only
    cases hpos : minPosition (fun r : InflightResolve => decide (r.kind = .negative)) (·.deadline)
        c.resolves with
    | none =>
      refine Or.inl ⟨rfl, Nat.le_antisymm hroom hfull, fun r hr => ?_⟩
      have hnone : c.resolves.zipIdx.filter (fun x => decide (x.1.kind = .negative)) = [] :=
        minByKey_eq_none.mp (Option.map_eq_none_iff.mp hpos)
      cases hlive : r.live with
      | true => rfl
      | false =>
        obtain ⟨i, hi⟩ := List.mem_iff_getElem?.mp hr
        have hmem : (r, i) ∈ c.resolves.zipIdx := List.mem_zipIdx_iff_getElem?.mpr hi
        have hin : (r, i) ∈ c.resolves.zipIdx.filter (fun x => decide (x.1.kind = .negative)) :=
          List.mem_filter.mpr ⟨hmem, by simpa using kind_negative.mp hlive⟩
        rw [hnone] at hin
        cases hin
    | some pos =>
      obtain ⟨r, hget, hneg⟩ := minPosition_spec hpos
      have hperm := swapRemove_perm hget
      have hlen := hperm.length_eq
      rw [List.length_cons] at hlen
      have hlt : (swapRemove c.resolves pos).length < c.coreConfig.maxInflightResolves := by omega
      refine Or.inr ⟨swapRemove c.resolves pos, ?_, hlt, Or.inr ⟨r, ?_, hperm⟩⟩
      · exact if_neg (Nat.not_le_of_lt hlt)
      · exact kind_negative.mpr (by simpa using hneg)
  · refine Or.inr ⟨c.resolves, ?_, Nat.lt_of_not_le hfull, Or.inl rfl⟩
    rw [Core.tryPushResolve, if_neg hfull]

theorem kept_of_push {l rest : List InflightResolve}
    (h : rest = l ∨ ∃ r, r.live = false ∧ l.Perm (r :: rest)) :
    (rest : Multiset InflightResolve) ≤ l ∧ (rest : Multiset InflightResolve).filter (·.live) =
        (l : Multiset InflightResolve).filter (·.live) := by
  rcases h with rfl | ⟨r, hneg, hperm⟩
  · exact ⟨le_refl _, rfl⟩
  · have heq : (l : Multiset InflightResolve) = r ::ₘ rest := Multiset.coe_eq_coe.mpr hperm
    rw [heq]
    exact ⟨Multiset.le_cons_self _ r, (Multiset.filter_cons_of_neg _ (by simp [hneg])).symm⟩

/-- Is no question about `query` open, nor an answer to it remembered that lasts? -/
def Unasked (now : Nat) (query : ResolveQuery) (lookups : Multiset InflightResolve) : Prop :=
  ∀ x ∈ lookups, x.query = query → x.live = false ∧ x.deadline ≤ now ∧
    ∃ key, query = .byPublicKey key

theorem unasked_of_not_suppressed {key : Key}
    (h : c.resolveSuppressed (.byPublicKey key) now = false) :
    Unasked now (.byPublicKey key) (c.resolves : Multiset InflightResolve) := by
  intro x hx hq
  have hx := List.any_eq_false.mp h x (Multiset.mem_coe.mp hx)
  have hx : ¬(x.kind = .negative → now < x.deadline) := by simpa [hq] using hx
  obtain ⟨hneg, hpast⟩ := Classical.not_imp.mp hx
  exact ⟨kind_negative.mpr hneg, Nat.le_of_not_lt hpast, key, rfl⟩

section

variable [Crypto] {t : Tables cap}

/-- A question can be added to the table of lookups. -/
structure Askable (now : Nat) (t : Tables cap) (entry : InflightResolve) : Prop where
  id : ∀ x ∈ t.lookups, x.id ≠ entry.id
  query : Unasked now entry.query t.lookups
  room : t.lookups.card < t.config.maxInflightResolves
  ahead : t.Ahead now entry.deadline

/-- Room is made for a question: negative answers may go, and its deadline is armed. -/
theorem steps_room {entry : InflightResolve} {rest : Multiset InflightResolve}
    (hrest : rest ≤ t.lookups) (hkept : rest.filter (·.live) = t.lookups.filter (·.live))
    (hroom : rest.card < t.config.maxInflightResolves) (hid : ∀ x ∈ t.lookups, x.id ≠ entry.id)
    (hquery : Unasked now entry.query rest)
    (hd : now < maxMillis → t.config.negativeTtl ≠ 0 → now < entry.deadline) :
    Steps now (.atDesk .quiet) t ((t.withLookups rest).arm entry.deadline) ∧
      Askable now ((t.withLookups rest).arm entry.deadline) entry := by
  have harm : Steps now (.atDesk .quiet) t (t.arm entry.deadline) :=
    (Step.arm _).steps.widen (Scope.quiet_le _)
  have hforget : Steps now (.atDesk .quiet) (t.arm entry.deadline)
      ((t.withLookups rest).arm entry.deadline) :=
    (Step.forget (t := t.arm entry.deadline) hrest hkept).steps
  exact ⟨harm.trans hforget,
    ⟨fun x hx => hid x (Multiset.mem_of_le hrest hx), hquery, hroom, ahead_arm hd⟩⟩

theorem Askable.ask {entry : InflightResolve} (h : Askable now t entry) (hlive : entry.live = true)
    (hemit : entry.emitted = false) (hkind : entry.kind ≠ .install .authenticatedInitiator)
    (hfits : entry.Fits) : Steps now (.atDesk .quiet) t (t.withLookups (entry ::ₘ t.lookups)) :=
  (Step.ask hlive hemit hkind hfits h.id h.query h.room h.ahead).steps

theorem steps_ask {entry : InflightResolve} {rest : Multiset InflightResolve}
    (hrest : rest ≤ t.lookups) (hkept : rest.filter (·.live) = t.lookups.filter (·.live))
    (hroom : rest.card < t.config.maxInflightResolves) (hlive : entry.live = true)
    (hemit : entry.emitted = false) (hkind : entry.kind ≠ .install .authenticatedInitiator)
    (hfits : entry.Fits) (hid : ∀ x ∈ t.lookups, x.id ≠ entry.id)
    (hquery : Unasked now entry.query rest)
    (hd : now < maxMillis → t.config.negativeTtl ≠ 0 → now < entry.deadline) :
    Steps now (.atDesk .quiet) t ((t.withLookups (entry ::ₘ rest)).arm entry.deadline) := by
  obtain ⟨hsteps, hask⟩ := steps_room hrest hkept hroom hid hquery hd
  exact hsteps.trans (hask.ask hlive hemit hkind hfits)

/-- A lookup that nobody asks for yet is added with a fresh identifier, unless the table is full of
live lookups. -/
theorem pushResolve_room (hI : w.tables.Inv) {entry : InflightResolve}
    (hid : ∀ x ∈ w.core.resolves, x.id ≠ entry.id)
    (hquery : Unasked now entry.query w.tables.lookups)
    (hd : now < maxMillis → w.core.coreConfig.negativeTtl ≠ 0 → now < entry.deadline) :
    (w.core.pushResolve entry = (.error .resolverBusy, w.core) ∧
      w.core.resolves.length = w.core.coreConfig.maxInflightResolves ∧
      ∀ r ∈ w.core.resolves, r.live = true) ∨
    ∃ rest : List InflightResolve, w.core.pushResolve entry =
        (.ok (), { w.core with resolves := rest ++ [entry] }.arm entry.deadline) ∧
      ∀ t : Tables cap, t.lookups = w.tables.lookups → t.config = w.tables.config →
        Steps now (.atDesk .quiet) t ((t.withLookups rest).arm entry.deadline) ∧
          Askable now ((t.withLookups rest).arm entry.deadline) entry := by
  rcases pushResolve_cases entry hI.desk.room with hfull | ⟨rest, heq, hroom, hrest⟩
  · exact Or.inl hfull
  · refine Or.inr ⟨rest, heq, fun t hl hconfig => ?_⟩
    obtain ⟨hle, hkept⟩ := kept_of_push hrest
    have hcoe : t.lookups = (w.core.resolves : Multiset InflightResolve) := hl
    exact steps_room (by rw [hcoe]; exact hle) (by rw [hcoe]; exact hkept)
      (by rw [hconfig]; exact hroom) (by rw [hcoe]; exact hid)
      (fun x hx => hquery x (Multiset.mem_of_le hle hx)) (by rw [hconfig]; exact hd)

omit [Crypto] in
theorem withLookups_push (t : Tables cap) (rest : List InflightResolve) (entry : InflightResolve) :
    t.withLookups ((rest ++ [entry] : List _) : Multiset InflightResolve) =
      t.withLookups (entry ::ₘ rest) := by
  rw [Multiset.coe_eq_coe.mpr (List.perm_append_singleton entry rest), ← Multiset.cons_coe]

/-- A question is asked with a fresh identifier, unless the table is full of live lookups. -/
theorem pushResolve_spec (hI : w.tables.Inv) {entry : InflightResolve}
    (hid : ∀ x ∈ w.core.resolves, x.id ≠ entry.id) (hlive : entry.live = true)
    (hemit : entry.emitted = false) (hkind : entry.kind ≠ .install .authenticatedInitiator)
    (hfits : entry.Fits) (hquery : Unasked now entry.query w.tables.lookups)
    (hd : now < maxMillis → w.core.coreConfig.negativeTtl ≠ 0 → now < entry.deadline) :
    (w.core.pushResolve entry = (.error .resolverBusy, w.core) ∧
      w.core.resolves.length = w.core.coreConfig.maxInflightResolves ∧
      ∀ r ∈ w.core.resolves, r.live = true) ∨
    ∃ rest, w.core.pushResolve entry =
        (.ok (), { w.core with resolves := rest ++ [entry] }.arm entry.deadline) ∧
      ∀ t : Tables cap, t.lookups = w.tables.lookups → t.config = w.tables.config →
        Steps now (.atDesk .quiet) t ((t.withLookups
          ((rest ++ [entry] : List _) : Multiset InflightResolve)).arm entry.deadline) := by
  rcases pushResolve_room hI hid hquery hd with hfull | ⟨rest, heq, hpush⟩
  · exact Or.inl hfull
  · refine Or.inr ⟨rest, heq, fun t hl hconfig => ?_⟩
    obtain ⟨hsteps, hask⟩ := hpush t hl hconfig
    rw [withLookups_push]
    exact hsteps.trans (hask.ask hlive hemit hkind hfits)

end

/-! ### Removing lookups -/

section

variable {before after rest : List InflightResolve} {entry : InflightResolve}

theorem closings_nil (h : ∀ r ∈ before, r.live = true → r ∈ after) : closings before after =
    [] := by
  rw [closings, List.map_eq_nil_iff, List.filter_eq_nil_iff]
  intro r hr hgone
  have hgone : r.kind ≠ .negative ∧ r ∉ after := by simpa using hgone
  exact hgone.2 (h r hr (by simpa [InflightResolve.live] using hgone.1))

/-- One mark is left if one live lookup goes. -/
theorem closings_one (hperm : before.Perm (entry :: rest)) (hlive : entry.live = true)
    (hkept : ∀ r ∈ rest, r.live = true → r ∈ after) (hgone : entry ∉ after) :
    closings before after = [.closed entry.query] := by
  have hfilter : (rest.filter fun r => decide (r.kind ≠ .negative ∧ r ∉ after)) = [] := by
    rw [List.filter_eq_nil_iff]
    intro r hr hgone
    have hgone : r.kind ≠ .negative ∧ r ∉ after := by simpa using hgone
    exact hgone.2 (hkept r hr (by simpa [InflightResolve.live] using hgone.1))
  have hself : entry.kind ≠ .negative ∧ entry ∉ after :=
    ⟨by simpa [InflightResolve.live] using hlive, hgone⟩
  have hone := hperm.filter fun r => decide (r.kind ≠ .negative ∧ r ∉ after)
  rw [List.filter_cons_of_pos (by simpa using hself), hfilter] at hone
  rw [closings, List.perm_singleton.mp hone]
  rfl

end

theorem lookups_perm {entry : InflightResolve} {rest : List InflightResolve}
    (hperm : w.core.resolves.Perm (entry :: rest)) :
    w.tables.lookups = entry ::ₘ (rest : Multiset InflightResolve) :=
  Multiset.coe_eq_coe.mpr hperm

theorem mem_lookups {entry : InflightResolve} {rest : List InflightResolve}
    (hperm : w.core.resolves.Perm (entry :: rest)) : entry ∈ w.tables.lookups :=
  Multiset.mem_coe.mpr (hperm.mem_iff.mpr List.mem_cons_self)

section

variable [Crypto]

theorem resolves_apart (hI : w.tables.Inv) {entry : InflightResolve} {rest : List InflightResolve}
    (hperm : w.core.resolves.Perm (entry :: rest)) : ∀ r ∈ rest, r.id ≠ entry.id := by
  intro r hr heq
  have hids : ((w.core.resolves : Multiset InflightResolve).map (·.id)).Nodup := hI.desk.ids
  rw [Multiset.map_coe, Multiset.coe_nodup, (hperm.map (·.id)).nodup_iff, List.map_cons,
    List.nodup_cons] at hids
  exact hids.1 (heq ▸ List.mem_map_of_mem hr)

theorem closings_remove (hI : w.tables.Inv) {entry : InflightResolve} {rest : List InflightResolve}
    (hperm : w.core.resolves.Perm (entry :: rest)) :
    closings w.core.resolves rest = if entry.live then [.closed entry.query] else [] := by
  split
  · rename_i hlive
    exact closings_one hperm hlive (fun _ hr _ => hr) fun hmem =>
      resolves_apart hI hperm entry hmem rfl
  · rename_i hneg
    refine closings_nil fun r hr hlive => ?_
    rcases List.mem_cons.mp (hperm.mem_iff.mp hr) with rfl | hr
    · exact absurd hlive hneg
    · exact hr

omit [Crypto] in
theorem letGo_of_none {t : Tables cap} {id : Nat}
    (h : ∀ i e, t.initiations i = some e → e.resolveId ≠ id) : t.letGo id = t := by
  have hsame : (fun i => (t.initiations i).filter fun e => e.resolveId ≠ id) = t.initiations := by
    funext i
    cases he : t.initiations i with
    | none => rfl
    | some e => simp [h i e he]
  simp only [letGo, hsame]

theorem steps_deny {t : Tables cap} {entry : InflightResolve} (hneg : entry.live = false)
    (hemit : entry.emitted = true) (hid : ∀ x ∈ t.lookups, x.id ≠ entry.id)
    (hquery : ∀ x ∈ t.lookups, x.query ≠ entry.query)
    (hroom : t.lookups.card < t.config.maxInflightResolves)
    (hd : now < maxMillis → t.config.negativeTtl ≠ 0 → now < entry.deadline) :
    Steps now (.atDesk .quiet) t ((t.withLookups (entry ::ₘ t.lookups)).arm entry.deadline) := by
  have harm : Steps now (.atDesk .quiet) t (t.arm entry.deadline) :=
    (Step.arm _).steps.widen (Scope.quiet_le _)
  exact harm.trans (Step.deny (t := t.arm entry.deadline) hneg hemit hid hquery hroom
    (ahead_arm hd)).steps

/-- The second half of recording a miss: the marker, if there is room for it. -/
theorem steps_marker {t : Tables cap} {kept : List InflightResolve} {query : ResolveQuery}
    (hlt : kept.length < 2 ^ 64) (hkept : ∀ r ∈ kept, r.query ≠ query)
    (hc : c.resolves = kept) (hconfig : c.coreConfig = t.config) (hl : t.lookups = kept) :
    ∃ resolves : List InflightResolve,
      (∀ r ∈ kept, r ∈ resolves) ∧ (∀ r ∈ resolves, r.live = true → r ∈ kept) ∧
      (∃ armed : Option Nat, ∃ next, (let x := c.allocResolveId
        (x.2.tryPushResolve ⟨x.1, query, .negative,
          saturatingAdd now x.2.coreConfig.negativeTtl, true⟩).2) =
        ({ c with resolves, nextResolveId := next } : Core cap R P).armSome armed ∧
      Steps now (.atDesk .quiet) t ((t.withLookups resolves).armSome armed)) := by
  have hfresh := allocResolveId_fresh (c := c) (by rw [hc]; exact hlt)
  dsimp only
  unfold Core.tryPushResolve
  split
  · refine ⟨kept, fun _ hr => hr, fun _ hr _ => hr, none, c.allocResolveId.2.nextResolveId, ?_, ?_⟩
    · rw [← hc]
      rfl
    · show Steps _ _ t (t.withLookups kept)
      rw [← hl]
      exact Steps.refl t
  · rename_i hroom
    refine ⟨kept ++ [⟨c.allocResolveId.1, query, .negative,
      saturatingAdd now c.coreConfig.negativeTtl, true⟩], fun r hr => List.mem_append_left _ hr,
      fun r hr hlive => ?_, some (saturatingAdd now c.coreConfig.negativeTtl),
      c.allocResolveId.2.nextResolveId, ?_, ?_⟩
    · rcases List.mem_append.mp hr with hr | hr
      · exact hr
      · rw [List.mem_singleton.mp hr] at hlive
        cases hlive
    · rw [← hc]
      rfl
    · have hlookups : ∀ entry : InflightResolve,
          ((kept ++ [entry] : List InflightResolve) : Multiset InflightResolve) =
            entry ::ₘ t.lookups := fun entry => by
        rw [hl]
        exact Multiset.coe_eq_coe.mpr (List.perm_append_singleton entry kept)
      rw [hlookups]
      refine steps_deny rfl rfl (fun x hx => ?_) (fun x hx => ?_) ?_ fun hn httl => ?_
      · rw [hl] at hx
        exact hfresh x (by rw [hc]; exact hx)
      · rw [hl] at hx
        exact hkept x hx
      · rw [hl, ← hconfig, ← hc]
        exact Nat.lt_of_not_le hroom
      · rw [hconfig]
        exact lt_saturatingAdd_of_lt (Nat.pos_of_ne_zero httl) hn

/-- The world after a miss was recorded. -/
def World.marked (w : World cap R P) (query : ResolveQuery) (now : Nat) : World cap R P :=
  ⟨w.core.markNegative query now,
    closings w.core.resolves (w.core.markNegative query now).resolves ++ w.log, w.established⟩

omit [Crypto] in
theorem filter_query_length (query : ResolveQuery) (h : c.resolves.length < 2 ^ 64) :
    (c.resolves.filter fun r => r.query ≠ query).length < 2 ^ 64 :=
  Nat.lt_of_le_of_lt (List.length_filter_le _ _) h

/-- A miss is recorded for a question that is not being asked. -/
theorem markNegative_quiet (hI : w.tables.Inv) {query : ResolveQuery}
    (hnone : ∀ x ∈ w.core.resolves, x.live = true → x.query ≠ query) :
    Steps now (.atDesk .quiet) w.tables (w.marked query now).tables := by
  have hforget : Steps now (.atDesk .quiet) w.tables (w.tables.withLookups
      ((w.core.resolves.filter fun r => r.query ≠ query : List _) : Multiset InflightResolve)) := by
    refine (Step.forget (Multiset.coe_le.mpr List.filter_sublist.subperm) ?_).steps
    show Multiset.filter _ (Multiset.ofList _) = Multiset.filter _ (Multiset.ofList _)
    rw [Multiset.filter_coe, Multiset.filter_coe, List.filter_filter]
    congr 1
    refine List.filter_congr fun x hx => ?_
    cases hlive : x.live with
    | false => rfl
    | true => simpa using hnone x hx hlive
  obtain ⟨resolves, hin, hlive, armed, next, heq, hsteps⟩ := steps_marker
    (t := w.tables.withLookups
      ((w.core.resolves.filter fun r => r.query ≠ query : List _) : Multiset InflightResolve))
    (c := { w.core with resolves := w.core.resolves.filter fun r => r.query ≠ query })
    (filter_query_length query (resolves_lt hI))
    (fun r hr => by simpa using (List.mem_filter.mp hr).2) rfl rfl rfl
  have hcore : w.core.markNegative query now =
      ({ w.core with resolves, nextResolveId := next } : Core cap R P).armSome armed := heq
  have hres : (w.core.markNegative query now).resolves = resolves := by
    rw [hcore]
    cases armed <;> rfl
  refine hforget.trans ?_
  have hclosings : closings w.core.resolves resolves = [] :=
    closings_nil fun r hr hl => hin r (List.mem_filter.mpr ⟨hr, by simpa using hnone r hr hl⟩)
  rw [World.marked, hres, hclosings, hcore, List.nil_append, tables_armSome]
  exact hsteps

/-- A miss is recorded for a peer: the lookup of the peer is answered by it. -/
theorem markNegative_key (hI : w.tables.Inv) {key : Key} {strands : Bool}
    (hstrands : strands = true ∨ ∀ x ∈ w.core.resolves, x.query = .byPublicKey key →
      x.kind = .install .authenticatedInitiator →
      ∀ i e, w.tables.initiations i = some e → e.resolveId ≠ x.id) :
    Steps now { desk := true, answers := some key, strands } w.tables
      (w.marked (.byPublicKey key) now).tables := by
  by_cases hnone : ∀ x ∈ w.core.resolves, x.live = true → x.query ≠ .byPublicKey key
  · exact (markNegative_quiet hI hnone).widen (Scope.desk_le rfl)
  push Not at hnone
  obtain ⟨r, hr, hlive, hquery⟩ := hnone
  obtain ⟨pos, hpos⟩ := List.mem_iff_getElem?.mp hr
  obtain ⟨rest, hperm, -⟩ := set_perm_of_getElem? hpos r
  have hlookups := lookups_perm hperm
  -- The other live lookups are about something else.
  have hother : ∀ x ∈ rest, x.live = true → x.query ≠ .byPublicKey key := by
    intro x hx hxl hq
    have hmem : x ∈ w.tables.lookups :=
      Multiset.mem_coe.mpr (hperm.mem_iff.mpr (List.mem_cons_of_mem _ hx))
    obtain rfl := hI.desk.only hmem hr hxl hlive (hq.trans hquery.symm)
    exact resolves_apart hI hperm x hx rfl
  have hfits : r.kind ≠ .outbound := by
    have := hI.desk.fits r hr hlive
    rwa [InflightResolve.Fits, hquery] at this
  have hgone : Steps now { desk := true, answers := some key, strands } w.tables
      ((w.tables.withLookups rest).enter (.closed r.query)) := by
    by_cases hauth : r.kind = .install .authenticatedInitiator ∧
        ∃ i e, w.tables.initiations i = some e ∧ e.resolveId = r.id
    · obtain ⟨hkind, i, e, he, hid⟩ := hauth
      rcases hstrands with rfl | hstrands
      · exact (Step.strand hlookups hlive hquery).steps
      · exact absurd hid (hstrands r hr hquery hkind i e he)
    · have hshut : w.tables.shut r rest = (w.tables.withLookups rest).enter (.closed r.query) := by
        unfold shut
        split
        · rename_i hkind
          rw [letGo_of_none fun i e he hid => hauth ⟨hkind, i, e, he, hid⟩]
          rfl
        · rfl
      rw [← hshut]
      refine (@Step.close _ _ _ _ _ _ (some key) false hlookups hlive
        (fun key' _ hq => Or.inr ?_) (Or.inr fun h => absurd h hfits)).steps.widen
        ⟨Nat.le_refl _, id, Or.inr rfl, by rintro ⟨⟩, by rintro ⟨⟩, Or.inl rfl, by rintro ⟨⟩⟩
      rw [hquery] at hq
      cases hq
      rfl
  obtain ⟨hkeptperm⟩ : Nonempty (((w.core.resolves.filter fun x => x.query ≠ .byPublicKey key) :
      List InflightResolve).Perm (rest.filter fun x => x.query ≠ .byPublicKey key)) := by
    have := hperm.filter fun x => decide (x.query ≠ .byPublicKey key)
    rw [List.filter_cons_of_neg (by simpa using hquery)] at this
    exact ⟨this⟩
  generalize hkept : (w.core.resolves.filter fun x => x.query ≠ .byPublicKey key) = kept at *
  have hforget : Steps now { desk := true, answers := some key, strands }
      ((w.tables.withLookups rest).enter (.closed r.query))
      ((w.tables.withLookups kept).enter (.closed r.query)) := by
    refine (Step.forget (t := (w.tables.withLookups rest).enter (.closed r.query))
      (Multiset.coe_le.mpr (hkeptperm.subperm.trans List.filter_sublist.subperm)) ?_).steps.widen
      (Scope.desk_le rfl)
    have hcoe : (kept : Multiset InflightResolve) =
        ((rest.filter fun x => x.query ≠ .byPublicKey key : List _) : Multiset InflightResolve) :=
      Multiset.coe_eq_coe.mpr hkeptperm
    show Multiset.filter _ (Multiset.ofList kept) = Multiset.filter _ (Multiset.ofList rest)
    rw [hcoe, Multiset.filter_coe, Multiset.filter_coe, List.filter_filter]
    congr 1
    refine List.filter_congr fun x hx => ?_
    cases hl : x.live with
    | false => rfl
    | true => simpa using hother x hx hl
  obtain ⟨resolves, hin, hlives, armed, next, heq, hsteps⟩ := steps_marker
    (t := (w.tables.withLookups kept).enter (.closed r.query))
    (c := { w.core with resolves := kept })
    (hkept ▸ filter_query_length _ (resolves_lt hI))
    (fun x hx => by rw [← hkept] at hx; simpa using (List.mem_filter.mp hx).2) rfl rfl rfl
  have hcore : w.core.markNegative (.byPublicKey key) now =
      ({ w.core with resolves, nextResolveId := next } : Core cap R P).armSome armed := by
    rw [← heq, ← hkept]
    rfl
  have hres : (w.core.markNegative (.byPublicKey key) now).resolves = resolves := by
    rw [hcore]
    cases armed <;> rfl
  have hclosings : closings w.core.resolves resolves = [.closed r.query] := by
    refine closings_one hperm hlive (fun x hx hl => hin x ?_) fun hmem => ?_
    · exact hkeptperm.mem_iff.mpr (List.mem_filter.mpr ⟨hx, by simpa using hother x hx hl⟩)
    · have := hlives r hmem hlive
      rw [← hkept] at this
      exact absurd hquery (by simpa using (List.mem_filter.mp this).2)
  refine hgone.trans (hforget.trans ?_)
  rw [World.marked, hres, hclosings, hcore]
  have htables : World.tables ⟨({ w.core with resolves, nextResolveId := next } :
      Core cap R P).armSome armed, [Event.closed r.query] ++ w.log, w.established⟩ =
      (((w.tables.withLookups kept).enter (.closed r.query)).withLookups resolves).armSome
        armed := by
    rw [tables_armSome]
    rw [show [Event.closed r.query] ++ w.log = Event.closed r.query :: w.log from rfl,
      tables_enter rfl]
    rfl
  rw [htables]
  exact hsteps.widen (Scope.desk_le rfl)

theorem clearNegative_steps (query : ResolveQuery) :
    Steps now (.atDesk .quiet) w.tables (w.withCore (w.core.clearNegative query)).tables := by
  refine (Step.forget (t := w.tables) (Multiset.coe_le.mpr List.filter_sublist.subperm) ?_).steps
  show Multiset.filter _ (Multiset.ofList _) = Multiset.filter _ (Multiset.ofList _)
  rw [Multiset.filter_coe, Multiset.filter_coe, List.filter_filter]
  congr 1
  refine List.filter_congr fun x _ => ?_
  cases hlive : x.live with
  | false => rfl
  | true =>
    have hkind : x.kind ≠ .negative := by simpa [InflightResolve.live] using hlive
    simp [hkind]

end

end Microtun
