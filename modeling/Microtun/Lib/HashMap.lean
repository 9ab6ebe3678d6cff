import Mathlib.Data.List.AList

/-! Hash maps and hash sets, as association lists that hold each key once, and the indexes made of
them: a map from keys to sets of ids that drops a key with the last of its ids. -/

namespace Microtun

universe u v

abbrev HashMap (κ : Type u) (α : Type v) := AList fun _ : κ => α

abbrev HashSet (κ : Type u) := HashMap κ Unit

namespace HashMap

variable {κ : Type u} {α : Type v} [DecidableEq κ]

theorem lookup_insert_eq_ite (m : HashMap κ α) (k k' : κ) (a : α) :
    (m.insert k a).lookup k' = if k' = k then some a else m.lookup k' := by
  by_cases h : k' = k
  · rw [if_pos h, h, AList.lookup_insert]
  · rw [if_neg h, AList.lookup_insert_ne h]

theorem lookup_erase_eq_ite (m : HashMap κ α) (k k' : κ) :
    (m.erase k).lookup k' = if k' = k then none else m.lookup k' := by
  by_cases h : k' = k
  · rw [if_pos h, h, AList.lookup_erase]
  · rw [if_neg h, AList.lookup_erase_ne h]

/-- Change the value of a key in place, if it has one. -/
def modify (m : HashMap κ α) (k : κ) (f : α → α) : HashMap κ α :=
  match m.lookup k with
  | none => m
  | some a => m.insert k (f a)

theorem lookup_modify (m : HashMap κ α) (k k' : κ) (f : α → α) :
    (m.modify k f).lookup k' = if k' = k then (m.lookup k').map f else m.lookup k' := by
  unfold modify
  by_cases hk : k' = k
  · subst hk
    cases hl : m.lookup k' with
    | none => simp [hl]
    | some a => simp
  · cases m.lookup k with
    | none => simp [hk]
    | some a => simp [hk]

theorem lookup_foldl_modify (f : α → α) (ks : List κ) (hks : ks.Nodup) (m : HashMap κ α) (k : κ) :
    (ks.foldl (fun m k => m.modify k f) m).lookup k =
      if k ∈ ks then (m.lookup k).map f else m.lookup k := by
  induction ks generalizing m with
  | nil => simp
  | cons j ks ih =>
    have hj : j ∉ ks := (List.nodup_cons.mp hks).1
    rw [List.foldl_cons, ih (List.nodup_cons.mp hks).2, lookup_modify]
    by_cases hk : k = j
    · subst hk
      simp [hj]
    · simp [hk]

/-- Keep the entries whose key passes. -/
def retain (m : HashMap κ α) (p : κ → Bool) : HashMap κ α :=
  (m.keys.filter fun k => !p k).foldl (fun m k => m.erase k) m

theorem lookup_foldl_erase (m : HashMap κ α) (ks : List κ) (k : κ) :
    (ks.foldl (fun m k => m.erase k) m).lookup k = if k ∈ ks then none else m.lookup k := by
  induction ks generalizing m with
  | nil => simp
  | cons j ks ih =>
    rw [List.foldl_cons, ih, lookup_erase_eq_ite]
    by_cases hk : k ∈ ks
    · simp [hk]
    · by_cases hj : k = j <;> simp [hk, hj]

theorem lookup_retain (m : HashMap κ α) (p : κ → Bool) (k : κ) :
    (m.retain p).lookup k = if p k then m.lookup k else none := by
  rw [retain, lookup_foldl_erase]
  simp only [List.mem_filter]
  cases hp : p k with
  | true => simp
  | false =>
    by_cases hk : k ∈ m.keys
    · simp [hk]
    · have hnone : m.lookup k = none := AList.lookup_eq_none.mpr fun h => hk (AList.mem_keys.mp h)
      simp [hnone]

end HashMap

namespace HashSet

variable {κ : Type u} [DecidableEq κ]

omit [DecidableEq κ] in
theorem eq_empty_of_forall_notMem {s : HashSet κ} (h : ∀ k, k ∉ s) : s = ∅ := by
  have hkeys : s.keys = [] :=
    List.eq_nil_iff_forall_not_mem.mpr fun k hk => h k (AList.mem_keys.mpr hk)
  refine AList.ext ?_
  show s.entries = []
  exact List.map_eq_nil_iff.mp hkeys

end HashSet

/-- For each key the set of ids filed under it. -/
abbrev Index (κ : Type u) (ι : Type v) := HashMap κ (HashSet ι)

namespace Index

variable {κ : Type u} {ι : Type v} [DecidableEq κ] [DecidableEq ι]

/-- File an id under a key. -/
def file (m : Index κ ι) (k : κ) (i : ι) : Index κ ι :=
  m.insert k (AList.insert i () ((m.lookup k).getD ∅))

/-- Take an id from under a key. -/
def release (m : Index κ ι) (k : κ) (i : ι) : Index κ ι :=
  match m.lookup k with
  | none => m
  | some ids => if ids.erase i = ∅ then m.erase k else m.insert k (ids.erase i)

/-- The id is filed under the key. -/
def Filed (m : Index κ ι) (k : κ) (i : ι) : Prop := ∃ ids, m.lookup k = some ids ∧ i ∈ ids

/-- No key is kept for an empty set. -/
def Tight (m : Index κ ι) : Prop := ∀ k ids, m.lookup k = some ids → ids ≠ ∅

omit [DecidableEq ι] in
theorem not_filed_empty (k : κ) (i : ι) : ¬ Filed (∅ : Index κ ι) k i := by
  rintro ⟨ids, hids, -⟩
  exact nomatch hids

omit [DecidableEq ι] in
theorem tight_empty : Tight (∅ : Index κ ι) := fun _ _ h => nomatch h

theorem filed_file (m : Index κ ι) (k k' : κ) (i i' : ι) :
    Filed (m.file k i) k' i' ↔ Filed m k' i' ∨ (k' = k ∧ i' = i) := by
  unfold Filed file
  by_cases hk : k' = k
  · subst hk
    simp only [HashMap.lookup_insert_eq_ite, if_true, Option.some.injEq, exists_eq_left',
      AList.mem_insert]
    cases hl : m.lookup k' with
    | none => simp [AList.notMem_empty]
    | some ids => simp [or_comm]
  · simp [hk]

theorem tight_file {m : Index κ ι} (hm : m.Tight) (k : κ) (i : ι) : (m.file k i).Tight := by
  intro k' ids hids
  rw [file, HashMap.lookup_insert_eq_ite] at hids
  by_cases hk : k' = k
  · rw [if_pos hk] at hids
    intro hempty
    have hi : i ∈ ids := by
      rw [← Option.some.inj hids]
      exact (AList.mem_insert _).mpr (.inl rfl)
    rw [hempty] at hi
    exact AList.notMem_empty i hi
  · exact hm k' ids (by rwa [if_neg hk] at hids)

theorem filed_release (m : Index κ ι) (k k' : κ) (i i' : ι) :
    Filed (m.release k i) k' i' ↔ Filed m k' i' ∧ ¬ (k' = k ∧ i' = i) := by
  unfold Filed release
  cases hl : m.lookup k with
  | none =>
    have hnone : ∀ ids, k' = k → m.lookup k' ≠ some ids := by
      intro ids hk
      rw [hk, hl]
      exact nofun
    constructor
    · intro ⟨ids, hids, hi⟩
      exact ⟨⟨ids, hids, hi⟩, fun h => hnone ids h.1 hids⟩
    · exact And.left
  | some ids =>
    have hmem : ∀ j, j ∈ ids.erase i ↔ j ≠ i ∧ j ∈ ids := fun j => AList.mem_erase
    by_cases hempty : ids.erase i = ∅
    · simp only [if_pos hempty, HashMap.lookup_erase_eq_ite]
      by_cases hk : k' = k
      · subst hk
        have hno : i' ∈ ids → i' = i := by
          intro hi
          by_contra hne
          exact AList.notMem_empty i' (hempty ▸ (hmem i').mpr ⟨hne, hi⟩)
        simpa [hl] using hno
      · simp [hk]
    · simp only [if_neg hempty, HashMap.lookup_insert_eq_ite]
      by_cases hk : k' = k
      · subst hk
        simp [hl, and_comm]
      · simp [hk]

theorem tight_release {m : Index κ ι} (hm : m.Tight) (k : κ) (i : ι) : (m.release k i).Tight := by
  intro k' ids hids
  unfold release at hids
  cases hl : m.lookup k with
  | none =>
    rw [hl] at hids
    exact hm k' ids hids
  | some ids' =>
    simp only [hl] at hids
    by_cases hempty : ids'.erase i = ∅
    · rw [if_pos hempty, HashMap.lookup_erase_eq_ite] at hids
      by_cases hk : k' = k
      · rw [if_pos hk] at hids
        exact nomatch hids
      · exact hm k' ids (by rwa [if_neg hk] at hids)
    · rw [if_neg hempty, HashMap.lookup_insert_eq_ite] at hids
      by_cases hk : k' = k
      · rw [if_pos hk] at hids
        exact Option.some.inj hids ▸ hempty
      · exact hm k' ids (by rwa [if_neg hk] at hids)

/-- Take one id from under several keys. -/
def releaseAll (m : Index κ ι) (ks : List κ) (i : ι) : Index κ ι :=
  ks.foldl (fun m k => m.release k i) m

theorem filed_releaseAll (m : Index κ ι) (ks : List κ) (i : ι) (k' : κ) (i' : ι) :
    Filed (m.releaseAll ks i) k' i' ↔ Filed m k' i' ∧ ¬ (k' ∈ ks ∧ i' = i) := by
  unfold releaseAll
  induction ks generalizing m with
  | nil => simp
  | cons k ks ih =>
    rw [List.foldl_cons, ih, filed_release]
    simp only [List.mem_cons]
    tauto

theorem tight_releaseAll {m : Index κ ι} (hm : m.Tight) (ks : List κ) (i : ι) :
    (m.releaseAll ks i).Tight := by
  unfold releaseAll
  induction ks generalizing m with
  | nil => exact hm
  | cons k ks ih => exact ih (tight_release hm k i)

theorem filed_foldl_releaseAll (m : Index κ ι) (ws : List (ι × HashSet κ)) (k : κ) (i : ι) :
    Filed (ws.foldl (fun m w => m.releaseAll w.2.keys w.1) m) k i ↔
      Filed m k i ∧ ∀ w ∈ ws, w.1 = i → k ∉ w.2 := by
  induction ws generalizing m with
  | nil => simp
  | cons w ws ih =>
    rw [List.foldl_cons, ih, filed_releaseAll]
    simp only [List.forall_mem_cons, ← AList.mem_keys]
    constructor
    · rintro ⟨⟨hm, hw⟩, hws⟩
      exact ⟨hm, fun hi hk => hw ⟨hk, hi.symm⟩, hws⟩
    · rintro ⟨hm, hw, hws⟩
      exact ⟨⟨hm, fun ⟨hk, hi⟩ => hw hi.symm hk⟩, hws⟩

theorem tight_foldl_releaseAll {m : Index κ ι} (hm : m.Tight) (ws : List (ι × HashSet κ)) :
    (ws.foldl (fun m w => m.releaseAll w.2.keys w.1) m).Tight := by
  induction ws generalizing m with
  | nil => exact hm
  | cons w ws ih => exact ih (tight_releaseAll hm _ _)

end Index

end Microtun
