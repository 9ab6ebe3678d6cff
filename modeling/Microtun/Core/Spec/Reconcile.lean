import Microtun.Core.Spec.Lookup

/-! What reconciliations, initiations that wait for a lookup and the expiry of lookups do to the
tables. -/

namespace Microtun

open Hoare Tables
open Function (update update_self update_of_ne)

variable {cap : Capacities} {R P : Type} {w : World cap R P} {c : Core cap R P} {now : Nat}

section

variable [Crypto]

/-! ### Reconciliations -/

/-- Is there an obligation for the key, or room for one? -/
def Core.canOwe (key : Key) (c : Core cap R P) : Bool :=
  (c.pendingReconciles.any fun p => p.publicKey = key) || c.pendingReconciles.length < cap.maxPeers

/-- An obligation is noted, in the place of one for the same key if there is one. -/
theorem steps_owe {t : Tables cap} {o : PendingReconcile} {rest : Multiset PendingReconcile}
    (h : t.owed = rest ∨ ∃ x, x.publicKey = o.publicKey ∧ t.owed = x ::ₘ rest)
    (hd : now < maxMillis → t.config.negativeTtl ≠ 0 → now < o.due) :
    Steps now (.atDesk .quiet) t ((t.withOwed (o ::ₘ rest)).arm o.due) := by
  have harm : Steps now (.atDesk .quiet) t (t.arm o.due) :=
    (Step.arm _).steps.widen (Scope.quiet_le _)
  exact harm.trans (Step.owe (t := t.arm o.due) h (ahead_arm hd)).steps

theorem steps_oweList {o : PendingReconcile} {l rest : List PendingReconcile}
    (hl : l.Perm (o :: rest))
    (h : w.core.pendingReconciles = rest ∨
      ∃ x, x.publicKey = o.publicKey ∧ w.core.pendingReconciles.Perm (x :: rest))
    (hd : now < maxMillis → w.core.coreConfig.negativeTtl ≠ 0 → now < o.due) :
    Steps now (.atDesk .quiet) w.tables
      (w.withCore ({ w.core with pendingReconciles := l }.arm o.due)).tables := by
  have hnew : (l : Multiset PendingReconcile) = o ::ₘ (rest : Multiset PendingReconcile) :=
    Multiset.coe_eq_coe.mpr hl
  show Steps _ _ w.tables ((w.tables.withOwed (l : Multiset PendingReconcile)).arm o.due)
  rw [hnew]
  refine steps_owe ?_ hd
  rcases h with h | ⟨x, hx, h⟩
  · exact Or.inl (congrArg _ h)
  · exact Or.inr ⟨x, hx, Multiset.coe_eq_coe.mpr h⟩

omit [Crypto] in
theorem ahead_negativeTtl {t : Tables cap} (hn : now < maxMillis)
    (httl : t.config.negativeTtl ≠ 0) : now < saturatingAdd now t.config.negativeTtl :=
  lt_saturatingAdd_of_lt (Nat.pos_of_ne_zero httl) hn

theorem queueReconcile_spec (key : Key) :
    Steps now (.atDesk .quiet) w.tables (w.withCore (w.core.queueReconcile key now)).tables ∧
    (w.core.canOwe key = true →
      ∃ o ∈ (w.core.queueReconcile key now).pendingReconciles, o.publicKey = key) := by
  unfold Core.queueReconcile
  dsimp only
  cases hfind : w.core.pendingReconciles.findIdx? fun p => decide (p.publicKey = key) with
  | some index =>
    obtain ⟨pending, hget, hkey⟩ := findIdx?_some hfind
    have hkey : pending.publicKey = key := by simpa using hkey
    dsimp only
    rw [hget]
    dsimp only
    have hmem : ∀ due, { pending with due } ∈ w.core.pendingReconciles.set index
        { pending with due } :=
      fun due => List.mem_iff_getElem?.mpr ⟨index, by
        rw [List.getElem?_set_self (List.getElem?_eq_some_iff.mp hget).1]⟩
    split
    · refine ⟨?_, fun _ => ⟨_, hmem _, hkey⟩⟩
      obtain ⟨rest, hperm, hset⟩ := set_perm_of_getElem? hget
        { pending with due := saturatingAdd now w.core.coreConfig.negativeTtl }
      exact steps_oweList hset (Or.inr ⟨pending, rfl, hperm⟩)
        fun hn httl => ahead_negativeTtl (t := w.tables) hn httl
    · -- The obligation stands as it is; the timer is armed for it again.
      have hself : w.core.pendingReconciles.set index { pending with due := pending.due } =
          w.core.pendingReconciles := by
        obtain ⟨hlt, rfl⟩ := List.getElem?_eq_some_iff.mp hget
        exact List.set_getElem_self hlt
      refine ⟨?_, fun _ => ⟨_, hmem _, hkey⟩⟩
      rw [hself]
      exact (Step.arm (t := w.tables) pending.due).steps.widen (Scope.quiet_le _)
  | none =>
    have hnot : (w.core.pendingReconciles.any fun p => decide (p.publicKey = key)) = false := by
      rw [List.any_eq_false]
      intro p hp
      rw [List.findIdx?_eq_none_iff.mp hfind p hp]
      exact Bool.false_ne_true
    dsimp only
    unfold Core.pushReconcile
    by_cases hfull : cap.maxPeers ≤ w.core.pendingReconciles.length
    · rw [if_pos hfull]
      refine ⟨Steps.refl _, fun hroom => ?_⟩
      simp [Core.canOwe, hnot, Nat.not_lt.mpr hfull] at hroom
    · rw [if_neg hfull]
      refine ⟨?_, fun _ => ⟨⟨key, saturatingAdd now w.core.coreConfig.negativeTtl⟩,
        List.mem_append_right _ (List.mem_singleton.mpr rfl), rfl⟩⟩
      exact steps_oweList (o := ⟨key, saturatingAdd now w.core.coreConfig.negativeTtl⟩)
        (List.perm_append_singleton _ _) (Or.inl rfl)
        fun hn httl => ahead_negativeTtl (t := w.tables) hn httl

theorem steps_discharge {key : Key} (gone : Multiset PendingReconcile) {t : Tables cap}
    {rest : Multiset PendingReconcile} (h : t.owed = gone + rest)
    (hkey : ∀ o ∈ gone, o.publicKey = key) :
    Steps now { desk := true, answers := some key } t (t.withOwed rest) := by
  induction gone using Multiset.induction_on generalizing t with
  | empty =>
    rw [Multiset.zero_add] at h
    rw [← h]
    exact Steps.refl t
  | cons o gone ih =>
    rw [Multiset.cons_add] at h
    have hstep : Steps now { desk := true, answers := some key } t (t.withOwed (gone + rest)) :=
      (Step.discharge h (Or.inl (congrArg some
        (hkey o (Multiset.mem_cons_self o gone)).symm))).steps
    exact hstep.trans (ih (t := t.withOwed (gone + rest)) rfl fun x hx =>
      hkey x (Multiset.mem_cons_of_mem hx))

theorem forgetReconcile_steps (key : Key) :
    Steps now { desk := true, answers := some key } w.tables
      (w.withCore (w.core.forgetReconcile key)).tables := by
  refine steps_discharge
    ((w.core.pendingReconciles.filter fun p => p.publicKey = key : List _) :
      Multiset PendingReconcile) ?_ fun o ho => by simpa using (List.mem_filter.mp ho).2
  have := List.filter_append_perm (fun p : PendingReconcile => decide (p.publicKey = key))
    w.core.pendingReconciles
  refine Multiset.coe_eq_coe.mpr (this.symm.trans (List.Perm.append_left _ ?_))
  rw [Core.forgetReconcile]
  exact List.Perm.of_eq (List.filter_congr fun p _ => by simp)

/-! ### What is due -/

/-- Something that was due is done with, and whatever comes in its place lies ahead: from the tables
without it, the same end is reached. -/
structure Tables.Consumes (now : Nat) (scope : Scope) (t t' : Tables cap) : Prop where
  steps : Steps now scope t t'
  due : ∃ u d, d ≤ now ∧ d ::ₘ u.deadlines ≤ t.deadlines ∧ u.peer = t.peer ∧ u.slot = t.slot ∧
    Steps now scope u t'

omit [Crypto] in
theorem deadlines_owed {t : Tables cap} {o : PendingReconcile} {rest : Multiset PendingReconcile}
    (h : t.owed = o ::ₘ rest) : o.due ::ₘ (t.withOwed rest).deadlines = t.deadlines := by
  simp only [deadlines, h, Multiset.map_cons, Multiset.add_cons]
  rfl

omit [Crypto] in
theorem deadlines_lookup {t : Tables cap} {r : InflightResolve} {rest : Multiset InflightResolve}
    (h : t.lookups = r ::ₘ rest) : r.deadline ::ₘ (t.withLookups rest).deadlines = t.deadlines := by
  simp only [deadlines, h, Multiset.map_cons, Multiset.add_cons, Multiset.cons_add]
  rfl

omit [Crypto] in
theorem modify_due {i : Nat} {pending : PendingReconcile} {l : List PendingReconcile} {due : Nat}
    (hget : l[i]? = some pending) :
    l.modify i (fun p => { p with due }) = l.set i { pending with due } := by
  rw [List.modify_eq_set_getElem?, hget]
  rfl

theorem deferReconcile_consumes {i : Nat} {pending : PendingReconcile} {scope : Scope}
    (hget : w.core.pendingReconciles[i]? = some pending) (hdue : pending.due ≤ now)
    (hscope : scope.desk = true) :
    Tables.Consumes now scope w.tables (w.withCore (w.core.deferReconcile i now)).tables := by
  obtain ⟨rest, hperm, hset⟩ := set_perm_of_getElem? hget
    { pending with due := saturatingAdd now w.core.coreConfig.negativeTtl }
  have howed : w.tables.owed = pending ::ₘ (rest : Multiset PendingReconcile) :=
    Multiset.coe_eq_coe.mpr hperm
  unfold Core.deferReconcile
  dsimp only
  rw [modify_due hget]
  have hahead : now < maxMillis → w.core.coreConfig.negativeTtl ≠ 0 →
      now < saturatingAdd now w.core.coreConfig.negativeTtl :=
    fun hn httl => ahead_negativeTtl (t := w.tables) hn httl
  refine ⟨?_, w.tables.withOwed rest, pending.due, hdue, (deadlines_owed howed).le, rfl, rfl, ?_⟩
  · exact (steps_oweList hset (Or.inr ⟨pending, rfl, hperm⟩) hahead).widen (Scope.desk_le hscope)
  · exact (steps_oweList (w := w.withCore { w.core with pendingReconciles := rest }) hset
      (Or.inl rfl) hahead).widen (Scope.desk_le hscope)

/-- At most one obligation that is due becomes a lookup, is put off, or lapses with its peer. -/
theorem promoteDueReconcile_spec (hI : w.tables.Inv) (now : Nat) :
    (w.core.promoteDueReconcile now = (false, w.core) ∧
      ∀ p ∈ w.core.pendingReconciles, now < p.due) ∨
    ∃ answers, (w.core.promoteDueReconcile now).1 = true ∧
      Tables.Consumes now { desk := true, answers } w.tables
        (w.withCore (w.core.promoteDueReconcile now).2).tables ∧
      ∀ key, answers = some key → w.core.findPeer key = none := by
  unfold Core.promoteDueReconcile
  cases hfind : w.core.pendingReconciles.findIdx? fun p => decide (p.due ≤ now) with
  | none =>
    refine Or.inl ⟨rfl, fun p hp => ?_⟩
    simpa using List.findIdx?_eq_none_iff.mp hfind p hp
  | some i =>
    obtain ⟨pending, hget, hdue⟩ := findIdx?_some hfind
    have hdue : pending.due ≤ now := by simpa using hdue
    have hperm := swapRemove_perm hget
    have howed : w.tables.owed = pending ::ₘ
        ((swapRemove w.core.pendingReconciles i : List _) : Multiset PendingReconcile) :=
      Multiset.coe_eq_coe.mpr hperm
    dsimp only
    rw [hget]
    dsimp only
    right
    split
    · -- The peer is gone, and so is what was owed to it.
      rename_i hgone
      refine ⟨some pending.publicKey, rfl, ⟨?_, w.tables.withOwed
        ((swapRemove w.core.pendingReconciles i : List _) : Multiset PendingReconcile), pending.due,
        hdue, (deadlines_owed howed).le, rfl, rfl, Steps.refl _⟩, ?_⟩
      · exact (Step.discharge howed (Or.inl rfl)).steps
      · rintro _ ⟨⟩
        simpa using hgone
    split
    · exact ⟨none, rfl, deferReconcile_consumes hget hdue rfl, by rintro _ ⟨⟩⟩
    rename_i hunasked
    have hunasked := unasked_of_not_suppressed (Bool.eq_false_iff.mpr hunasked)
    have hahead : now < maxMillis → w.core.coreConfig.negativeTtl ≠ 0 →
        now < saturatingAdd now w.core.coreConfig.resolveTimeout :=
      fun hn _ => lt_saturatingAdd_of_lt (Nat.pos_of_ne_zero hI.resolveTimeout) hn
    generalize hentry : (⟨w.core.allocResolveId.1, .byPublicKey pending.publicKey, .reconcile,
      saturatingAdd now w.core.allocResolveId.2.coreConfig.resolveTimeout, false⟩ :
        InflightResolve) = entry
    obtain ⟨hkind, hquery⟩ : entry.kind = .reconcile ∧
        entry.query = .byPublicKey pending.publicKey := by
      rw [← hentry]
      exact ⟨rfl, rfl⟩
    have hpush := @pushResolve_spec _ _ _ (w.withCore w.core.allocResolveId.2) now _ hI entry
      (by rw [← hentry]; exact allocResolveId_fresh (resolves_lt hI))
      (by rw [← hentry]; rfl) (by rw [← hentry]) (by rw [hkind]; rintro ⟨⟩)
      (by rw [← hentry]; rintro ⟨⟩) (by rw [hquery]; exact hunasked)
        (by rw [← hentry]; exact hahead)
    rcases hpush with ⟨hbusy, -⟩ | ⟨rest, hok, hsteps⟩
    · refine ⟨none, ?_⟩
      rw [show Core.pushResolve _ w.core.allocResolveId.2 = _ from hbusy]
      exact ⟨rfl, deferReconcile_consumes (w := w.withCore w.core.allocResolveId.2) hget hdue rfl,
        by rintro _ ⟨⟩⟩
    · refine ⟨none, ?_⟩
      rw [show Core.pushResolve _ w.core.allocResolveId.2 = _ from hok]
      refine ⟨rfl, ⟨?_, w.tables.withOwed
        ((swapRemove w.core.pendingReconciles i : List _) : Multiset PendingReconcile), pending.due,
        hdue, (deadlines_owed howed).le, rfl, rfl, hsteps _ rfl rfl⟩, by rintro _ ⟨⟩⟩
      have hmem : entry ∈ rest ++ [entry] := List.mem_append_right _ (List.mem_singleton.mpr rfl)
      exact (hsteps w.tables rfl rfl).trans
        (@Step.discharge _ _ _ ((w.tables.withLookups ((rest ++ [entry] : List _) :
          Multiset InflightResolve)).arm entry.deadline) _ _ none howed
        (Or.inr ⟨entry, hmem, hkind, hquery⟩)).steps

/-! ### Initiations that wait -/

omit [Crypto] in
theorem findIdx?_initiation (id : Nat) :
    (w.core.pendingInitiations.toList.findIdx? (fun o => o.any fun p => p.resolveId = id) = none ∧
      ∀ i e, w.tables.initiations i = some e → e.resolveId ≠ id) ∨
    ∃ i e, w.core.pendingInitiations.toList.findIdx? (fun o => o.any fun p => p.resolveId = id) =
      some i ∧ w.tables.initiations i = some e ∧ e.resolveId = id := by
  cases hfind : w.core.pendingInitiations.toList.findIdx?
      (fun o => o.any fun p => decide (p.resolveId = id)) with
  | none =>
    refine Or.inl ⟨rfl, fun i e he hid => ?_⟩
    have hget : w.core.pendingInitiations[i]? = some (some e) := Option.join_eq_some_iff.mp he
    rw [← Vector.getElem?_toList] at hget
    have := List.findIdx?_eq_none_iff.mp hfind (some e) (List.mem_iff_getElem?.mpr ⟨i, hget⟩)
    simp [hid] at this
  | some i =>
    obtain ⟨o, hget, hany⟩ := findIdx?_some hfind
    obtain ⟨e, rfl, hid⟩ := (Option.any_eq_true _ _).mp hany
    refine Or.inr ⟨i, e, rfl, ?_, by simpa using hid⟩
    rw [Vector.getElem?_toList] at hget
    show w.core.pendingInitiations[i]?.join = some e
    rw [hget]
    rfl

omit [Crypto] in
theorem tables_setInitiation {i : Nat} {o : Option PendingInitiation}
    (hi : i < cap.backend.maxPendingInitiations) :
    (w.withCore { w.core with
      pendingInitiations := w.core.pendingInitiations.setIfInBounds i o }).tables =
      { w.tables with initiations := update w.tables.initiations i o } := by
  have : (fun j => (w.core.pendingInitiations.setIfInBounds i o)[j]?.join) =
      update (fun j => w.core.pendingInitiations[j]?.join) i o := by
    funext j
    rw [Vector.getElem?_setIfInBounds]
    by_cases hj : j = i
    · subst hj
      simp [hi]
    · simp [hj, Ne.symm hj]
  simp only [World.tables, this]
  rfl

omit [Crypto] in
theorem lt_of_initiation {i : Nat} {e : PendingInitiation} (h : w.tables.initiations i = some e) :
    i < cap.backend.maxPendingInitiations := by
  by_contra hge
  have hnone : w.core.pendingInitiations[i]?.join = none := by simp [Nat.le_of_not_lt hge]
  rw [show w.core.pendingInitiations[i]?.join = some e from h] at hnone
  cases hnone

omit [Crypto] in
theorem takePendingInitiation_spec (hslots : ∀ i j e e', w.tables.initiations i = some e →
      w.tables.initiations j = some e' → e.resolveId = e'.resolveId → i = j) (id : Nat) :
    (w.withCore (w.core.takePendingInitiation id).2).tables = w.tables.letGo id ∧
      ∀ e, (w.core.takePendingInitiation id).1 = some e → e.resolveId = id := by
  unfold Core.takePendingInitiation
  rcases findIdx?_initiation (w := w) id with ⟨hnone, hno⟩ | ⟨i, e, hsome, he, hid⟩
  · rw [hnone]
    exact ⟨(letGo_of_none hno).symm, by rintro _ ⟨⟩⟩
  · rw [hsome]
    dsimp only
    refine ⟨?_, fun x hx => ?_⟩
    · have hinit : update w.tables.initiations i none =
          fun j => (w.tables.initiations j).filter fun e => e.resolveId ≠ id := by
        funext j
        by_cases hj : j = i
        · rw [hj, update_self, he]
          simp [Option.filter, hid]
        · rw [update_of_ne hj]
          cases hx : w.tables.initiations j with
          | none => rfl
          | some x =>
            have hne : x.resolveId ≠ id := fun hxid =>
              hj (hslots j i x e hx he (hxid.trans hid.symm))
            simp [Option.filter, hne]
      rw [tables_setInitiation (lt_of_initiation he), letGo, hinit]
    · obtain rfl : e = x := Option.some.inj (he.symm.trans hx)
      exact hid

omit [Crypto] in
/-- Parking an initiation parks it in the pool, and it finds its place if there is room. -/
theorem parkPendingInitiation_spec (id : Nat) (src : SocketAddr)
    (consumed : Noise.ConsumedInitiation) :
    ∃ initiations, (w.withCore (w.core.parkPendingInitiation id src consumed)).tables =
        { w.tables with initiations } ∧
      Parked w.tables.initiations ⟨id, src, consumed⟩ initiations ∧
      (w.core.hasRoom id = true → ∃ n, initiations n = some ⟨id, src, consumed⟩) := by
  unfold Core.parkPendingInitiation Core.hasRoom
  dsimp only
  rcases findIdx?_initiation (w := w) id with ⟨hnone, hno⟩ | ⟨i, e, hsome, he, hid⟩
  · rw [hnone]
    dsimp only
    cases hfree : w.core.pendingInitiations.toList.findIdx? Option.isNone with
    | none =>
      refine ⟨w.tables.initiations, rfl, .full hno, fun hroom => ?_⟩
      have hfull := List.findIdx?_eq_none_iff.mp hfree
      obtain ⟨o, ho, hspare⟩ := List.any_eq_true.mp (Bool.and_eq_true_iff.mp hroom).1
      rw [hfull o ho] at hspare
      cases hspare
    | some n =>
      obtain ⟨o, hget, hspare⟩ := findIdx?_some hfree
      obtain ⟨hlt, -, -⟩ := List.findIdx?_eq_some_iff_getElem.mp hfree
      refine ⟨_, tables_setInitiation (by simpa using hlt), .spare ?_ hno, fun _ => ⟨n, ?_⟩⟩
      · show w.core.pendingInitiations[n]?.join = none
        rw [← Vector.getElem?_toList, hget, Option.isNone_iff_eq_none.mp hspare]
        rfl
      · exact update_self ..
  · rw [hsome]
    dsimp only
    split
    · rename_i hlater
      refine ⟨_, tables_setInitiation (lt_of_initiation he), .newer he hid ?_, fun _ => ⟨i, ?_⟩⟩
      · rw [show w.core.pendingInitiations[i]?.join = some e from he] at hlater
        simpa using hlater
      · exact update_self ..
    · rename_i hearlier
      refine ⟨w.tables.initiations, rfl, .older he hid ?_, fun hroom => ?_⟩
      · rw [show w.core.pendingInitiations[i]?.join = some e from he] at hearlier
        simpa using hearlier
      · -- There is an initiation under the identifier.
        have hany : (w.core.pendingInitiations.toList.any fun o =>
            o.any fun p => decide (p.resolveId = id)) = true := by
          obtain ⟨o, hget, hmine⟩ := findIdx?_some hsome
          exact List.any_eq_true.mpr ⟨o, List.mem_iff_getElem?.mpr ⟨i, hget⟩, hmine⟩
        rw [hany, Bool.not_true, Bool.and_false] at hroom
        cases hroom

/-! ### Expiry -/

omit [Crypto] in
theorem queueReconcile_resolves (key : Key) (resolves : List InflightResolve) :
    Core.queueReconcile key now { c with resolves } =
      { c.queueReconcile key now with resolves } := by
  unfold Core.queueReconcile Core.pushReconcile
  dsimp only
  split
  · split
    · rfl
    · rfl
  · by_cases hfull : cap.maxPeers ≤ c.pendingReconciles.length
    · simp only [if_pos hfull]
    · simp only [if_neg hfull]
      rfl

theorem tables_remove (hI : w.tables.Inv) {entry : InflightResolve} {rest : List InflightResolve}
    (hperm : w.core.resolves.Perm (entry :: rest)) (hlive : entry.live = true) {c : Core cap R P}
    {t : Tables cap} (ht : (w.withCore c).tables = t) :
    World.tables ⟨c, closings w.core.resolves rest ++ w.log, w.established⟩ =
      t.enter (.closed entry.query) := by
  rw [closings_remove hI hperm, if_pos hlive, ← ht]
  exact tables_enter rfl

omit [Crypto] in
theorem deadlines_shut {t : Tables cap} {r : InflightResolve} {rest : Multiset InflightResolve}
    (h : t.lookups = r ::ₘ rest) : r.deadline ::ₘ (t.shut r rest).deadlines = t.deadlines :=
  deadlines_lookup h

omit [Crypto] in
theorem deadlines_withParked {t : Tables cap} {parked : Multiset PendingPacket}
    (h : parked ≤ t.parked) : (t.withParked parked).deadlines ≤ t.deadlines :=
  Multiset.add_le_add_right (Multiset.add_le_add_right (Multiset.map_le_map h))

/-- The world in which a lookup was removed and the engine is `c`. -/
def World.without (w : World cap R P) (rest : List InflightResolve) (c : Core cap R P) :
    World cap R P :=
  ⟨c, closings w.core.resolves rest ++ w.log, w.established⟩

section

variable {entry : InflightResolve} {rest : List InflightResolve}

theorem without_tables (hI : w.tables.Inv) (hperm : w.core.resolves.Perm (entry :: rest))
    (hlive : entry.live = true) (hkind : entry.kind ≠ .install .authenticatedInitiator) :
    (w.without rest { w.core with resolves := rest }).tables = w.tables.shut entry rest := by
  rw [World.without, tables_remove hI hperm hlive rfl]
  simp only [shut, if_neg hkind]
  rfl

theorem consumes_close (hperm : w.core.resolves.Perm (entry :: rest)) (hdue : entry.deadline ≤ now)
    (hlive : entry.live = true) (hkind : entry.kind ≠ .outbound) {answers : Option Key}
    (howed : ∀ key, entry.kind = .reconcile → entry.query = .byPublicKey key →
      answers = some key) :
    Tables.Consumes now { desk := true, answers } w.tables (w.tables.shut entry rest) := by
  have hlookups := lookups_perm hperm
  exact ⟨(@Step.close _ _ _ _ _ _ _ false hlookups hlive
    (fun key hk hq => Or.inr (howed key hk hq)) (Or.inr fun h => absurd h hkind)).steps,
    w.tables.shut entry rest, entry.deadline, hdue, (deadlines_shut hlookups).le, rfl, rfl,
    Steps.refl _⟩

theorem expire_outbound (hI : w.tables.Inv) (hperm : w.core.resolves.Perm (entry :: rest))
    (hdue : entry.deadline ≤ now) (hkind : entry.kind = .outbound) :
    Tables.Consumes now { desk := true } w.tables (w.without rest { w.core with
      resolves := rest
      pending := w.core.pending.dropIf fun p => p.wait = .resolve entry.id }).tables := by
  have hlive : entry.live = true := by simp [InflightResolve.live, hkind]
  have hlookups := lookups_perm hperm
  generalize hkept : ((w.core.pending.dropIf fun p => decide (p.wait = .resolve entry.id)).packets :
    Multiset PendingPacket) = kept
  have hle : kept ≤ w.tables.parked := by
    rw [← hkept, PendingPool.dropIf_packets]
    exact Multiset.coe_le.mpr List.filter_sublist.subperm
  have hserved : ∀ p ∈ kept, p.wait ≠ .resolve entry.id := by
    rw [← hkept, PendingPool.dropIf_packets]
    intro p hp
    simpa using (List.mem_filter.mp hp).2
  have htables : (w.without rest { w.core with
      resolves := rest
      pending := w.core.pending.dropIf fun p => p.wait = .resolve entry.id }).tables =
      (w.tables.withParked kept).shut entry rest := by
    rw [World.without, tables_remove hI hperm hlive rfl, ← hkept]
    simp only [shut, hkind]
    rfl
  rw [htables]
  -- The packets go first, so that nothing waits for the lookup when it is closed.
  have hdrop : Steps now { desk := true } w.tables (w.tables.withParked kept) :=
    (Step.dropParked hle).steps.widen (Scope.quiet_le _)
  refine ⟨hdrop.trans (@Step.close _ _ _ (w.tables.withParked kept) _ _ none false hlookups hlive
    (fun key hk => by rw [hkind] at hk; cases hk)
    (Or.inr fun _ => hserved)).steps, (w.tables.withParked kept).shut entry rest, entry.deadline,
    hdue, ?_, rfl, rfl, Steps.refl _⟩
  rw [deadlines_shut (t := w.tables.withParked kept) hlookups]
  exact deadlines_withParked hle

theorem expire_initiator (hI : w.tables.Inv) (hperm : w.core.resolves.Perm (entry :: rest))
    (hkind : entry.kind = .install .authenticatedInitiator) :
    (w.without rest (Core.takePendingInitiation entry.id
      { w.core with resolves := rest }).2).tables = w.tables.shut entry rest := by
  have hlive : entry.live = true := by simp [InflightResolve.live, hkind]
  have htake := (takePendingInitiation_spec
    (w := w.withCore { w.core with resolves := rest }) hI.desk.slots entry.id).1
  rw [World.without, tables_remove hI hperm hlive htake]
  simp only [shut, hkind]
  rfl

theorem expire_reconcile (hI : w.tables.Inv) (hperm : w.core.resolves.Perm (entry :: rest))
    (hdue : entry.deadline ≤ now) {key : Key} (hkind : entry.kind = .reconcile)
    (hquery : entry.query = .byPublicKey key) :
    Tables.Consumes now { desk := true, answers := if w.core.canOwe key then none else some key }
      w.tables (w.without rest (Core.queueReconcile key now { w.core with
        resolves := rest })).tables := by
  have hlive : entry.live = true := by simp [InflightResolve.live, hkind]
  have hlookups := lookups_perm hperm
  obtain ⟨howe, howed⟩ := @queueReconcile_spec _ _ _ w now _ key
  have htables : (w.without rest (Core.queueReconcile key now { w.core with
      resolves := rest })).tables =
      (w.withCore (w.core.queueReconcile key now)).tables.shut entry rest := by
    rw [World.without, queueReconcile_resolves, tables_remove hI hperm hlive rfl]
    simp only [shut, hkind]
    rfl
  have hres : (w.core.queueReconcile key now).resolves = w.core.resolves := by
    show (Core.queueReconcile key now { w.core with resolves := w.core.resolves }).resolves = _
    rw [queueReconcile_resolves]
  have hlookups' : (w.withCore (w.core.queueReconcile key now)).tables.lookups =
      entry ::ₘ (rest : Multiset InflightResolve) := by
    rw [← hlookups]
    exact congrArg Multiset.ofList hres
  refine ⟨?_, w.tables.shut entry rest, entry.deadline, hdue, (deadlines_shut hlookups).le, rfl,
    rfl, ?_⟩
  · rw [htables]
    refine (howe.widen (Scope.desk_le rfl)).trans (@Step.close _ _ _ _ _ _ _ false hlookups' hlive
      (fun key' _ hq => ?_) (Or.inr fun h => by rw [hkind] at h; cases h)).steps
    rw [hquery] at hq
    cases hq
    cases hroom : w.core.canOwe key with
    | true => exact Or.inl (howed hroom)
    | false => exact Or.inr rfl
  · have howe' := (@queueReconcile_spec _ _ _ (w.without rest { w.core with resolves := rest }) now
      _ key).1
    rw [without_tables hI hperm hlive (by rw [hkind]; simp)] at howe'
    exact howe'.widen (Scope.desk_le rfl)

/-- A negative answer that goes takes nothing with it. -/
theorem forget_negative (hI : w.tables.Inv) (hperm : w.core.resolves.Perm (entry :: rest))
    (hkind : entry.kind = .negative) :
    (w.without rest { w.core with resolves := rest }).tables = w.tables.withLookups rest ∧
      Steps now (.atDesk .quiet) w.tables
        (w.without rest { w.core with resolves := rest }).tables := by
  have hneg : entry.live = false := by simp [InflightResolve.live, hkind]
  have hlookups := lookups_perm hperm
  have htables : (w.without rest { w.core with resolves := rest }).tables =
      w.tables.withLookups rest := by
    rw [World.without, closings_remove hI hperm, hneg]
    rfl
  refine ⟨htables, ?_⟩
  rw [htables]
  refine (Step.forget (hlookups ▸ Multiset.le_cons_self _ entry) ?_).steps
  rw [hlookups, Multiset.filter_cons_of_neg _ (by simp [hneg])]

theorem expire_negative (hI : w.tables.Inv) (hperm : w.core.resolves.Perm (entry :: rest))
    (hdue : entry.deadline ≤ now) (hkind : entry.kind = .negative) :
    Tables.Consumes now { desk := true } w.tables
      (w.without rest { w.core with resolves := rest }).tables := by
  obtain ⟨htables, hsteps⟩ := @forget_negative _ _ _ _ now _ _ _ hI hperm hkind
  rw [htables] at hsteps ⊢
  exact ⟨hsteps.widen (by decide), w.tables.withLookups rest, entry.deadline, hdue,
    (deadlines_lookup (lookups_perm hperm)).le, rfl, rfl, Steps.refl _⟩

end

/-- A lookup expires together with what waits for it.  An obligation is lost only if its peer is
gone or there is no room for it. -/
theorem expireOneResolve_spec (hI : w.tables.Inv) (now : Nat) :
    (w.core.expireOneResolve now = (false, w.core) ∧ ∀ r ∈ w.core.resolves, now < r.deadline) ∨
    ∃ answers, (w.core.expireOneResolve now).1 = true ∧
      Tables.Consumes now { desk := true, answers } w.tables
        (w.without (w.core.expireOneResolve now).2.resolves
          (w.core.expireOneResolve now).2).tables ∧
      ∀ key, answers = some key → (w.core.findPeer key = none ∨ w.core.canOwe key = false) ∧
        ∃ r ∈ w.core.resolves, r.kind = .reconcile ∧ r.query = .byPublicKey key ∧
          r.deadline ≤ now := by
  unfold Core.expireOneResolve
  cases hfind : w.core.resolves.findIdx? fun r => decide (r.deadline ≤ now) with
  | none =>
    refine Or.inl ⟨rfl, fun r hr => ?_⟩
    simpa using List.findIdx?_eq_none_iff.mp hfind r hr
  | some pos =>
    obtain ⟨entry, hget, hdue⟩ := findIdx?_some hfind
    have hdue : entry.deadline ≤ now := by simpa using hdue
    have hperm := swapRemove_perm hget
    have hmem : entry ∈ w.core.resolves := List.mem_iff_getElem?.mpr ⟨pos, hget⟩
    dsimp only
    rw [hget]
    dsimp only
    generalize swapRemove w.core.resolves pos = rest at *
    right
    have hnone : ∀ key : Key, (none : Option Key) = some key →
        (w.core.findPeer key = none ∨ w.core.canOwe key = false) ∧
          ∃ r ∈ w.core.resolves, r.kind = .reconcile ∧ r.query = .byPublicKey key ∧
            r.deadline ≤ now := by rintro _ ⟨⟩
    cases hkind : entry.kind with
    | outbound => exact ⟨none, rfl, expire_outbound hI hperm hdue hkind, hnone⟩
    | negative => exact ⟨none, rfl, expire_negative hI hperm hdue hkind, hnone⟩
    | install source =>
      have hlive : entry.live = true := by simp [InflightResolve.live, hkind]
      have hconsumes := @consumes_close _ _ _ _ _ _ _ _ hperm hdue hlive (by rw [hkind]; simp) none
        (fun key hk => by rw [hkind] at hk; cases hk)
      refine ⟨none, ?_⟩
      cases source with
      | authenticatedInitiator =>
        refine ⟨rfl, ?_, hnone⟩
        dsimp only [Core.dropPendingInitiation]
        have hres : (Core.takePendingInitiation entry.id
            { w.core with resolves := rest }).2.resolves = rest := by
          unfold Core.takePendingInitiation
          split <;> rfl
        rw [hres, expire_initiator hI hperm hkind]
        exact hconsumes
      | relay =>
        refine ⟨rfl, ?_, hnone⟩
        dsimp only
        rw [without_tables hI hperm hlive (by rw [hkind]; simp)]
        exact hconsumes
    | reconcile =>
      have hlive : entry.live = true := by simp [InflightResolve.live, hkind]
      have hfits := hI.desk.fits entry hmem hlive
      cases hquery : entry.query with
      | byDstAddress address =>
        rw [InflightResolve.Fits, hquery, hkind] at hfits
        cases hfits
      | byPublicKey key =>
        dsimp only
        split
        · have hres : (Core.queueReconcile key now { w.core with resolves := rest }).resolves =
              rest := by rw [queueReconcile_resolves]
          refine ⟨if w.core.canOwe key then none else some key, rfl, ?_, fun key' hkey => ?_⟩
          · dsimp only
            rw [hres]
            exact expire_reconcile hI hperm hdue hkind hquery
          · cases hroom : w.core.canOwe key with
            | true => simp [hroom] at hkey
            | false =>
              obtain rfl : key = key' := by simpa [hroom] using hkey
              exact ⟨Or.inr hroom, entry, hmem, hkind, hquery, hdue⟩
        · rename_i hgone
          refine ⟨some key, rfl, ?_, ?_⟩
          · dsimp only
            rw [without_tables hI hperm hlive (by rw [hkind]; simp)]
            refine consumes_close hperm hdue hlive (by rw [hkind]; simp) fun key' _ hq => ?_
            rw [hquery] at hq
            cases hq
            rfl
          · rintro _ ⟨⟩
            exact ⟨Or.inl (Option.not_isSome_iff_eq_none.mp hgone), entry, hmem, hkind, hquery,
              hdue⟩

end

end Microtun
