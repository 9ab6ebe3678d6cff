import Microtun.PrefixTrie.Pool
import Microtun.Routing.Model

/-! The route cache refines a list of claims in the order they were made: lookups return the first
owner of the longest prefix, and removing a peer leaves the other claims in their order. -/

namespace Microtun

open Function

namespace RouteCache

variable {maxRoutes : Nat} {c : RouteCache maxRoutes}

/-! ### Slots -/

theorem entry_of_ge {i : Nat} (h : maxRoutes ≤ i) : c.entry i = none := by
  rw [entry, Vector.getElem?_eq_none h]
  rfl

theorem lt_of_entry {i : Nat} {e : Entry} (h : c.entry i = some e) : i < maxRoutes := by
  by_contra hge
  rw [entry_of_ge (Nat.le_of_not_lt hge)] at h
  cases h

theorem entry_setEntry {i : Nat} (hi : i < maxRoutes) (e : Option Entry) :
    (c.setEntry i e).entry = update c.entry i e := by
  funext j
  simp only [entry, setEntry, Vector.getElem?_setIfInBounds]
  by_cases hj : j = i
  · subst hj
    simp [hi]
  · rw [update_of_ne hj, if_neg (Ne.symm hj), entry]

theorem getElem?_toList (i : Nat) : c.entries.toList[i]? = c.entries[i]? := by
  simp

theorem entry_eq_some {i : Nat} {e : Entry} :
    c.entry i = some e ↔ c.entries.toList[i]? = some (some e) := by
  rw [getElem?_toList, entry, Option.join_eq_some_iff]

theorem find_some {cidr : IpCidr} {peer i : Nat} (h : c.find cidr peer = some i) :
    ∃ e, c.entry i = some e ∧ e.cidr = cidr ∧ e.peer = peer := by
  obtain ⟨hi, hp, -⟩ := List.findIdx?_eq_some_iff_getElem.mp h
  obtain ⟨e, he, hpair⟩ := (Option.any_eq_true _ _).mp hp
  simp only [decide_eq_true_eq] at hpair
  exact ⟨e, entry_eq_some.mpr (by rw [List.getElem?_eq_getElem hi, he]), hpair⟩

theorem find_none {cidr : IpCidr} {peer : Nat} (h : c.find cidr peer = none) {i : Nat} {e : Entry}
    (he : c.entry i = some e) : ¬ (e.cidr = cidr ∧ e.peer = peer) := by
  have := List.findIdx?_eq_none_iff.mp h (some e) (List.mem_of_getElem? (entry_eq_some.mp he))
  simpa using this

theorem firstFree_some {i : Nat} (h : c.firstFree = some i) : i < maxRoutes ∧ c.entry i = none := by
  obtain ⟨hi, hp, -⟩ := List.findIdx?_eq_some_iff_getElem.mp h
  have hlt : i < maxRoutes := by simpa using hi
  refine ⟨hlt, ?_⟩
  rw [entry, ← getElem?_toList, List.getElem?_eq_getElem hi, Option.isNone_iff_eq_none.mp hp]
  rfl

theorem firstFree_none (h : c.firstFree = none) {i : Nat} (hi : i < maxRoutes) :
    c.entry i ≠ none := by
  have hmem : c.entries[i] ∈ c.entries.toList := by simp
  have := List.findIdx?_eq_none_iff.mp h _ hmem
  rw [entry, Vector.getElem?_eq_getElem hi]
  intro hnone
  rw [Option.join_some] at hnone
  rw [hnone] at this
  cases this

theorem replacement_none {index : Nat} {cidr : IpCidr} (h : c.replacement index cidr = none)
    {j : Nat} {e : Entry} (hj : j ≠ index) (he : c.entry j = some e) : e.cidr ≠ cidr := by
  rintro rfl
  simp only [replacement, Option.map_eq_none_iff, minByKey_eq_none] at h
  have := List.filterMap_eq_nil_iff.mp h (some e, j)
    (List.mk_mem_zipIdx_iff_getElem?.mpr (entry_eq_some.mp he))
  simp [hj] at this

theorem replacement_some {index : Nat} {cidr : IpCidr} {j : Nat}
    (h : c.replacement index cidr = some j) : j ≠ index ∧ ∃ e, c.entry j = some e ∧ e.cidr = cidr ∧
      ∀ k e', k ≠ index → c.entry k = some e' → e'.cidr = cidr →
        e.insertionOrder ≤ e'.insertionOrder := by
  simp only [replacement, Option.map_eq_some_iff] at h
  obtain ⟨⟨order, j'⟩, hmin, rfl⟩ := h
  obtain ⟨hmem, hle⟩ := minByKey_spec hmin
  obtain ⟨⟨o, k⟩, hk, hsome⟩ := List.mem_filterMap.mp hmem
  simp only at hsome
  split at hsome
  · cases hsome
  · rename_i hne
    cases o with
    | none => cases hsome
    | some e =>
      simp only at hsome
      split at hsome
      · rename_i hcidr
        obtain ⟨rfl, rfl⟩ : e.insertionOrder = order ∧ k = j' := by simpa using hsome
        refine ⟨hne, e, entry_eq_some.mpr (List.mk_mem_zipIdx_iff_getElem?.mp hk), hcidr,
          fun i e' hi he' hcidr' => ?_⟩
        refine hle (e'.insertionOrder, i) (List.mem_filterMap.mpr ⟨(some e', i), ?_, ?_⟩)
        · exact List.mk_mem_zipIdx_iff_getElem?.mpr (entry_eq_some.mp he')
        · simp [hi, hcidr']
      · cases hsome

/-- The slots that hold a route. -/
def occupied (c : RouteCache maxRoutes) : Finset Nat :=
  (Finset.range maxRoutes).filter fun i => (c.entry i).isSome

theorem mem_occupied {i : Nat} : i ∈ c.occupied ↔ c.entry i ≠ none := by
  simp only [occupied, Finset.mem_filter, Finset.mem_range, Option.isSome_iff_ne_none]
  constructor
  · exact fun h => h.2
  · intro h
    obtain ⟨e, he⟩ := Option.ne_none_iff_exists'.mp h
    exact ⟨lt_of_entry he, h⟩

theorem occupied_update {c' : RouteCache maxRoutes} {i : Nat} {x : Option Entry}
    (h : c'.entry = update c.entry i x) :
    c'.occupied = if x = none then c.occupied.erase i else Insert.insert i c.occupied := by
  ext j
  cases x with
  | none =>
    rw [if_pos rfl, Finset.mem_erase, mem_occupied, mem_occupied, h]
    by_cases hj : j = i
    · subst hj
      simp
    · simp [hj]
  | some e =>
    rw [if_neg (by simp), Finset.mem_insert, mem_occupied, mem_occupied, h]
    by_cases hj : j = i
    · subst hj
      simp
    · simp [hj]

/-! ### The invariant -/

/-- What holds between the slots and the trie at all times: no route is held twice, the trie maps
exactly the prefixes that have an owner, each to a slot of one, and the length is counted. -/
structure Consistent (backend : Backend) (c : RouteCache maxRoutes) (m : PrefixTrie.Map Nat) :
    Prop where
  trie : ∃ T, PrefixTrie.Models backend c.trie.nodes T m
  pairs : ∀ i j e e', c.entry i = some e → c.entry j = some e' → e.cidr = e'.cidr →
    e.peer = e'.peer → i = j
  len : c.len = c.occupied.card
  incumbent : ∀ cidr i, m.lookup cidr = some i → ∃ e, c.entry i = some e ∧ e.cidr = cidr
  present : ∀ i e, c.entry i = some e → m.lookup e.cidr ≠ none

/-- What holds in addition until the insertion orders wrap around: they are all different, and the
trie maps each prefix to its oldest owner.  `slots` are the occupied slots, oldest first. -/
structure Ordered (c : RouteCache maxRoutes) (m : PrefixTrie.Map Nat) (slots : List Nat) :
    Prop where
  mem : ∀ i, i ∈ slots ↔ c.entry i ≠ none
  sorted : slots.Pairwise fun i j => ∀ e e', c.entry i = some e → c.entry j = some e' →
    e.insertionOrder < e'.insertionOrder
  bound : ∀ i e, c.entry i = some e → e.insertionOrder < c.nextInsertionOrder
  oldest : ∀ cidr i e, m.lookup cidr = some i → c.entry i = some e →
    ∀ j e', c.entry j = some e' → e'.cidr = cidr → e.insertionOrder ≤ e'.insertionOrder

variable {backend : Backend} {m : PrefixTrie.Map Nat} {slots : List Nat}

/-- The trie holds no more prefixes than there are routes. -/
theorem Consistent.keys_le (h : Consistent backend c m) : m.keys.length ≤ c.occupied.card := by
  rw [← List.toFinset_card_of_nodup m.keys_nodup]
  refine Finset.card_le_card_of_injOn (fun cidr => (m.lookup cidr).getD 0) ?_ ?_
  · intro cidr hcidr
    obtain ⟨i, hi⟩ := Option.ne_none_iff_exists'.mp
      (fun hnone => AList.lookup_eq_none.mp hnone (List.mem_toFinset.mp hcidr))
    obtain ⟨e, he, -⟩ := h.incumbent cidr i hi
    simp only [hi, Option.getD_some, Finset.mem_coe, mem_occupied, he]
    simp
  · intro cidr hcidr cidr' hcidr' heq
    obtain ⟨i, hi⟩ := Option.ne_none_iff_exists'.mp
      (fun hnone => AList.lookup_eq_none.mp hnone (List.mem_toFinset.mp hcidr))
    obtain ⟨i', hi'⟩ := Option.ne_none_iff_exists'.mp
      (fun hnone => AList.lookup_eq_none.mp hnone (List.mem_toFinset.mp hcidr'))
    obtain ⟨e, he, rfl⟩ := h.incumbent cidr i hi
    obtain ⟨e', he', rfl⟩ := h.incumbent cidr' i' hi'
    simp only [hi, hi', Option.getD_some] at heq
    subst heq
    rw [Option.some.inj (he.symm.trans he')]

theorem occupied_card_le : c.occupied.card ≤ maxRoutes := by
  have := Finset.card_filter_le (Finset.range maxRoutes) fun i => (c.entry i).isSome
  simpa [occupied] using this

theorem occupied_card_lt {i : Nat} (hi : i < maxRoutes) (h : c.entry i = none) :
    c.occupied.card < maxRoutes := by
  have hsub : c.occupied ⊆ (Finset.range maxRoutes).erase i := by
    intro j hj
    refine Finset.mem_erase.mpr ⟨?_, (Finset.mem_filter.mp hj).1⟩
    rintro rfl
    exact mem_occupied.mp hj h
  have := Finset.card_le_card hsub
  rw [Finset.card_erase_of_mem (Finset.mem_range.mpr hi), Finset.card_range] at this
  omega

theorem specific_length_le (m : PrefixTrie.Map Nat) : m.specific.length ≤ m.keys.length :=
  List.length_filter_le _ _

/-! ### The operations keep the invariant -/

theorem Consistent.refresh (h : Consistent backend c m) {i : Nat} {e e' : Entry}
    (hi : c.entry i = some e) (hcidr : e'.cidr = e.cidr) (hpeer : e'.peer = e.peer) :
    Consistent backend (c.setEntry i (some e')) m := by
  have hentry := entry_setEntry (c := c) (lt_of_entry hi) (some e')
  -- Every entry of the new cache stands for one of the old cache in the same slot.
  have hold : ∀ j x, (c.setEntry i (some e')).entry j = some x →
      ∃ y, c.entry j = some y ∧ x.cidr = y.cidr ∧ x.peer = y.peer := by
    intro j x hx
    rw [hentry] at hx
    by_cases hj : j = i
    · subst hj
      rw [update_self] at hx
      obtain rfl := Option.some.inj hx
      exact ⟨e, hi, hcidr, hpeer⟩
    · rw [update_of_ne hj] at hx
      exact ⟨x, hx, rfl, rfl⟩
  refine ⟨h.trie, fun j k x x' hx hx' hc hp => ?_, ?_, fun cidr j hj => ?_, fun j x hx => ?_⟩
  · obtain ⟨y, hy, hyc, hyp⟩ := hold j x hx
    obtain ⟨y', hy', hyc', hyp'⟩ := hold k x' hx'
    exact h.pairs j k y y' hy hy' (by rw [← hyc, hc, hyc']) (by rw [← hyp, hp, hyp'])
  · have hocc : i ∈ c.occupied := mem_occupied.mpr (by simp [hi])
    rw [occupied_update hentry, if_neg (by simp), Finset.insert_eq_of_mem hocc]
    exact h.len
  · obtain ⟨x, hx, rfl⟩ := h.incumbent cidr j hj
    rw [hentry]
    by_cases hji : j = i
    · subst hji
      obtain rfl := Option.some.inj (hi.symm.trans hx)
      exact ⟨e', by rw [update_self], hcidr⟩
    · exact ⟨x, by rw [update_of_ne hji, hx], rfl⟩
  · obtain ⟨y, hy, hyc, -⟩ := hold j x hx
    rw [hyc]
    exact h.present j y hy

theorem Ordered.refresh (h : Ordered c m slots) {i : Nat} {e e' : Entry}
    (hi : c.entry i = some e) (hcidr : e'.cidr = e.cidr)
    (horder : e'.insertionOrder = e.insertionOrder) : Ordered (c.setEntry i (some e')) m slots := by
  have hentry := entry_setEntry (c := c) (lt_of_entry hi) (some e')
  have hold : ∀ j x, (c.setEntry i (some e')).entry j = some x →
      ∃ y, c.entry j = some y ∧ x.cidr = y.cidr ∧ x.insertionOrder = y.insertionOrder := by
    intro j x hx
    rw [hentry] at hx
    by_cases hj : j = i
    · subst hj
      rw [update_self] at hx
      obtain rfl := Option.some.inj hx
      exact ⟨e, hi, hcidr, horder⟩
    · rw [update_of_ne hj] at hx
      exact ⟨x, hx, rfl, rfl⟩
  refine ⟨fun j => ?_, h.sorted.imp fun hlt x x' hx hx' => ?_, fun j x hx => ?_,
    fun cidr j x hj hx k x' hx' hc => ?_⟩
  · rw [h.mem, hentry]
    by_cases hj : j = i
    · subst hj
      simp [hi]
    · rw [update_of_ne hj]
  · obtain ⟨y, hy, -, hyo⟩ := hold _ x hx
    obtain ⟨y', hy', -, hyo'⟩ := hold _ x' hx'
    rw [hyo, hyo']
    exact hlt y y' hy hy'
  · obtain ⟨y, hy, -, hyo⟩ := hold j x hx
    rw [hyo]
    exact h.bound j y hy
  · obtain ⟨y, hy, hyc, hyo⟩ := hold _ x hx
    obtain ⟨y', hy', hyc', hyo'⟩ := hold _ x' hx'
    rw [hyo, hyo']
    exact h.oldest cidr j y hj hy k y' hy' (hyc' ▸ hc)

/-- A new route in the free slot `i`, with the trie as it is or with the prefix added to it. -/
theorem Consistent.add (h : Consistent backend c m) {i : Nat} (hi : i < maxRoutes)
    (hfree : c.entry i = none) {e : Entry}
    (hnew : ∀ j x, c.entry j = some x → ¬ (x.cidr = e.cidr ∧ x.peer = e.peer))
    {c' : RouteCache maxRoutes} (hentry : c'.entry = update c.entry i (some e))
    (hlen : c'.len = c.len + 1) {m' : PrefixTrie.Map Nat}
    (htrie : ∃ T, PrefixTrie.Models backend c'.trie.nodes T m')
    (hm : (m.lookup e.cidr ≠ none ∧ m' = m) ∨
      (m.lookup e.cidr = none ∧ m' = AList.insert e.cidr i m)) : Consistent backend c' m' := by
  have hlookup : ∀ cidr, m'.lookup cidr =
      if m.lookup e.cidr = none ∧ cidr = e.cidr then some i else m.lookup cidr := by
    intro cidr
    rcases hm with ⟨hne, rfl⟩ | ⟨hnone, rfl⟩
    · simp [hne]
    · rw [PrefixTrie.lookup_insert]
      simp [hnone]
  refine ⟨htrie, fun j k x x' hx hx' hc hp => ?_, ?_, fun cidr j hj => ?_, fun j x hx => ?_⟩
  · rw [hentry] at hx hx'
    by_cases hj : j = i
    · by_cases hk : k = i
      · rw [hj, hk]
      · rw [hj, update_self] at hx
        rw [update_of_ne hk] at hx'
        obtain rfl := Option.some.inj hx
        exact absurd ⟨hc.symm, hp.symm⟩ (hnew k x' hx')
    · rw [update_of_ne hj] at hx
      by_cases hk : k = i
      · rw [hk, update_self] at hx'
        obtain rfl := Option.some.inj hx'
        exact absurd ⟨hc, hp⟩ (hnew j x hx)
      · rw [update_of_ne hk] at hx'
        exact h.pairs j k x x' hx hx' hc hp
  · rw [hlen, occupied_update hentry, if_neg (by simp), Finset.card_insert_of_notMem, h.len]
    rw [mem_occupied]
    simp [hfree]
  · rw [hlookup] at hj
    rw [hentry]
    split at hj
    · obtain rfl := Option.some.inj hj
      exact ⟨e, by rw [update_self], (‹_ ∧ _› : _ ∧ cidr = e.cidr).2.symm⟩
    · obtain ⟨x, hx, hxc⟩ := h.incumbent cidr j hj
      refine ⟨x, ?_, hxc⟩
      rw [update_of_ne, hx]
      rintro rfl
      simp [hfree] at hx
  · rw [hlookup]
    rw [hentry] at hx
    by_cases hj : j = i
    · rw [hj, update_self] at hx
      obtain rfl := Option.some.inj hx
      by_cases hnone : m.lookup e.cidr = none
      · simp [hnone]
      · simp [hnone]
    · rw [update_of_ne hj] at hx
      split
      · simp
      · exact h.present j x hx

theorem Ordered.add (h : Ordered c m slots) (hcon : Consistent backend c m) {i : Nat}
    (hfree : c.entry i = none) {e : Entry} (horder : e.insertionOrder = c.nextInsertionOrder)
    {c' : RouteCache maxRoutes} (hentry : c'.entry = update c.entry i (some e))
    (hnext : c'.nextInsertionOrder = c.nextInsertionOrder + 1) {m' : PrefixTrie.Map Nat}
    (hm : (m.lookup e.cidr ≠ none ∧ m' = m) ∨
      (m.lookup e.cidr = none ∧ m' = AList.insert e.cidr i m)) : Ordered c' m' (slots ++ [i]) := by
  have hne : ∀ j x, c.entry j = some x → j ≠ i := by
    rintro j x hx rfl
    simp [hfree] at hx
  have hof : ∀ j x, c'.entry j = some x →
      (j = i ∧ x = e) ∨ (j ≠ i ∧ c.entry j = some x) := by
    intro j x hx
    rw [hentry] at hx
    by_cases hj : j = i
    · rw [hj, update_self] at hx
      exact Or.inl ⟨hj, (Option.some.inj hx).symm⟩
    · rw [update_of_ne hj] at hx
      exact Or.inr ⟨hj, hx⟩
  have hlt : ∀ j x, c.entry j = some x → x.insertionOrder < e.insertionOrder := fun j x hx =>
    horder ▸ h.bound j x hx
  refine ⟨fun j => ?_, ?_, fun j x hx => ?_, fun cidr j x hj hx k x' hx' hc => ?_⟩
  · rw [List.mem_append, List.mem_singleton, h.mem, hentry]
    by_cases hj : j = i
    · simp [hj]
    · simp [hj]
  · refine List.pairwise_append.mpr ⟨?_, List.pairwise_singleton _ _, fun j hj k hk x x' hx hx' =>
      ?_⟩
    · refine h.sorted.imp_of_mem fun {j k} hj hk hjk x x' hx hx' => ?_
      rcases hof _ x hx with ⟨rfl, rfl⟩ | ⟨-, hx⟩
      · exact absurd hfree ((h.mem _).mp hj)
      · rcases hof _ x' hx' with ⟨rfl, rfl⟩ | ⟨-, hx'⟩
        · exact absurd hfree ((h.mem _).mp hk)
        · exact hjk x x' hx hx'
    · obtain rfl := List.mem_singleton.mp hk
      rcases hof _ x hx with ⟨rfl, rfl⟩ | ⟨-, hx⟩
      · exact absurd hfree ((h.mem _).mp hj)
      · rcases hof _ x' hx' with ⟨-, rfl⟩ | ⟨hne', -⟩
        · exact hlt j x hx
        · exact absurd rfl hne'
  · rw [hnext]
    rcases hof j x hx with ⟨-, rfl⟩ | ⟨-, hx⟩
    · omega
    · have := h.bound j x hx
      omega
  · rcases hof j x hx with ⟨rfl, rfl⟩ | ⟨hji, hx⟩
    · -- The new slot is an incumbent only if its prefix had no owner.
      have hnone : m.lookup cidr = none := by
        rcases hm with ⟨-, rfl⟩ | ⟨hnone, rfl⟩
        · obtain ⟨y, hy, -⟩ := hcon.incumbent cidr j hj
          exact absurd rfl (hne j y hy)
        · rw [PrefixTrie.lookup_insert] at hj
          split at hj
          · rw [‹cidr = x.cidr›, hnone]
          · obtain ⟨y, hy, -⟩ := hcon.incumbent cidr j hj
            exact absurd rfl (hne j y hy)
      rcases hof k x' hx' with ⟨-, rfl⟩ | ⟨-, hx'⟩
      · exact Nat.le_refl _
      · exact absurd (hc ▸ hnone) (hcon.present k x' hx')
    · have hj' : m.lookup cidr = some j := by
        rcases hm with ⟨-, rfl⟩ | ⟨-, rfl⟩
        · exact hj
        · rw [PrefixTrie.lookup_insert] at hj
          split at hj
          · exact absurd (Option.some.inj hj).symm hji
          · exact hj
      rcases hof k x' hx' with ⟨-, rfl⟩ | ⟨-, hx'⟩
      · exact Nat.le_of_lt (hlt j x hx)
      · exact h.oldest cidr j x hj' hx k x' hx' hc

/-- An incumbent whose slot is not emptied stays the incumbent. -/
def Stays (m m' : PrefixTrie.Map Nat) (c' : RouteCache maxRoutes) : Prop :=
  ∀ cidr j, m.lookup cidr = some j → c'.entry j ≠ none → m'.lookup cidr = some j

/-- An insertion refreshes a route that exists; a new one it refuses, changing nothing, when all
slots are taken, and puts into a free slot else. -/
theorem insert_spec (h : Consistent backend c m) (cidr : IpCidr) (peer : Nat) (pinned : Bool)
    (now : Nat) :
    (∃ i e, c.entry i = some e ∧ e.cidr = cidr ∧ e.peer = peer ∧
      c.insert cidr peer pinned now =
        .ok (.ok (), c.setEntry i (some { e with pinned := pinned, lastUsed := now }))) ∨
    ((∀ i e, c.entry i = some e → ¬ (e.cidr = cidr ∧ e.peer = peer)) ∧
      ((c.occupied.card = maxRoutes ∧
        c.insert cidr peer pinned now = .ok (.error .routeCacheFull, c)) ∨
      ∃ i c' m', i < maxRoutes ∧ c.entry i = none ∧ c.insert cidr peer pinned now =
        .ok (.ok (), c') ∧
        c'.entry = update c.entry i (some ⟨cidr, peer, pinned, now, c.nextInsertionOrder⟩) ∧
        c'.nextInsertionOrder = (c.nextInsertionOrder + 1) % 2 ^ 64 ∧ Consistent backend c' m' ∧
        Stays m m' c' ∧ (m.lookup cidr = none → m'.lookup cidr = some i) ∧
        ∀ slots, Ordered c m slots → c.nextInsertionOrder + 1 < 2 ^ 64 →
          Ordered c' m' (slots ++ [i]))) := by
  unfold insert
  cases hfind : c.find cidr peer with
  | some i =>
    obtain ⟨e, he, hcidr, hpeer⟩ := find_some hfind
    exact Or.inl ⟨i, e, he, hcidr, hpeer, by simp only [he]; rfl⟩
  | none =>
    have hnew : ∀ i e, c.entry i = some e → ¬ (e.cidr = cidr ∧ e.peer = peer) := fun i e he =>
      find_none hfind he
    refine Or.inr ⟨hnew, ?_⟩
    cases hfree : c.firstFree with
    | none =>
      refine Or.inl ⟨?_, rfl⟩
      have hfull : c.occupied = Finset.range maxRoutes := by
        ext i
        rw [mem_occupied, Finset.mem_range]
        refine ⟨fun hne => ?_, firstFree_none hfree⟩
        obtain ⟨e, he⟩ := Option.ne_none_iff_exists'.mp hne
        exact lt_of_entry he
      rw [hfull, Finset.card_range]
    | some i =>
      right
      obtain ⟨hi, hnone⟩ := firstFree_some hfree
      obtain ⟨T, hT⟩ := h.trie
      simp only [PrefixTrie.get_spec hT, ok_bind]
      cases hlook : m.lookup cidr with
      | some k =>
        have hm : m.lookup cidr ≠ none ∧ m = m := ⟨by simp [hlook], rfl⟩
        have hentry : ({ c.setEntry i (some ⟨cidr, peer, pinned, now, c.nextInsertionOrder⟩) with
            len := c.len + 1
            nextInsertionOrder := (c.nextInsertionOrder + 1) % 2 ^ 64 } :
              RouteCache maxRoutes).entry =
            update c.entry i (some ⟨cidr, peer, pinned, now, c.nextInsertionOrder⟩) :=
          entry_setEntry hi _
        refine ⟨i, _, m, hi, hnone, rfl, hentry, rfl,
          h.add hi hnone hnew hentry rfl ⟨T, hT⟩ (Or.inl hm), fun _ _ hj _ =>
            hj, ?_, fun slots hord hlt =>
          hord.add h hnone rfl hentry (Nat.mod_eq_of_lt hlt) (Or.inl hm)⟩
        rintro ⟨⟩
      | none =>
        have hroom : m.specific.length < maxRoutes := by
          have hkeys := h.keys_le
          have hlt := occupied_card_lt hi hnone
          have := specific_length_le m
          omega
        obtain ⟨t', T', hins, hT'⟩ := PrefixTrie.insert_of_lt hT hroom cidr i
        rw [hlook] at hins
        simp only [hins, ok_bind]
        have hm : m.lookup cidr = none ∧ AList.insert cidr i m = AList.insert cidr i m :=
          ⟨hlook, rfl⟩
        have hentry : ({ ({ c with trie := t' } : RouteCache maxRoutes).setEntry i
              (some ⟨cidr, peer, pinned, now, c.nextInsertionOrder⟩) with
            len := c.len + 1
            nextInsertionOrder := (c.nextInsertionOrder + 1) % 2 ^ 64 } :
              RouteCache maxRoutes).entry =
            update c.entry i (some ⟨cidr, peer, pinned, now, c.nextInsertionOrder⟩) :=
          entry_setEntry hi _
        refine ⟨i, _, _, hi, hnone, rfl, hentry, rfl,
          h.add hi hnone hnew hentry rfl ⟨T', hT'⟩ (Or.inr hm), fun net j hj _ => ?_,
          fun _ => AList.lookup_insert m, fun slots hord hlt =>
          hord.add h hnone rfl hentry (Nat.mod_eq_of_lt hlt) (Or.inr hm)⟩
        refine (AList.lookup_insert_ne ?_).trans hj
        rintro rfl
        rw [hlook] at hj
        cases hj

/-- Emptying the slot `i`: its prefix keeps its incumbent if that is another slot, and else gets its
oldest other owner, if there is one. -/
theorem Consistent.drop (h : Consistent backend c m) {i : Nat} {e : Entry}
    (hi : c.entry i = some e) {c' : RouteCache maxRoutes}
    (hentry : c'.entry = update c.entry i none) (hlen : c'.len = c.len - 1)
    {m' : PrefixTrie.Map Nat}
    (htrie : ∃ T, PrefixTrie.Models backend c'.trie.nodes T m')
    (hm : ∀ cidr, m'.lookup cidr = if m.lookup e.cidr = some i ∧ cidr = e.cidr
      then c.replacement i e.cidr else m.lookup cidr) :
    Consistent backend c' m' := by
  have hof : ∀ j x, c'.entry j = some x → j ≠ i ∧ c.entry j = some x := by
    intro j x hx
    rw [hentry] at hx
    by_cases hj : j = i
    · rw [hj, update_self] at hx
      cases hx
    · rw [update_of_ne hj] at hx
      exact ⟨hj, hx⟩
  refine ⟨htrie, fun j k x x' hx hx' => ?_, ?_, fun cidr j hj => ?_, fun j x hx => ?_⟩
  · exact h.pairs j k x x' (hof j x hx).2 (hof k x' hx').2
  · have hocc : i ∈ c.occupied := mem_occupied.mpr (by simp [hi])
    rw [hlen, occupied_update hentry, if_pos rfl, Finset.card_erase_of_mem hocc, h.len]
  · rw [hm] at hj
    rw [hentry]
    split at hj
    · rename_i hinc
      obtain ⟨hne, x, hx, hxc, -⟩ := replacement_some hj
      exact ⟨x, by rw [update_of_ne hne, hx], hxc.trans hinc.2.symm⟩
    · rename_i hinc
      obtain ⟨x, hx, rfl⟩ := h.incumbent cidr j hj
      refine ⟨x, ?_, rfl⟩
      rw [update_of_ne, hx]
      rintro rfl
      obtain rfl := Option.some.inj (hi.symm.trans hx)
      exact hinc ⟨hj, rfl⟩
  · obtain ⟨hji, hx⟩ := hof j x hx
    rw [hm]
    split
    · rename_i hinc
      intro hnone
      exact replacement_none hnone hji hx hinc.2
    · exact h.present j x hx

theorem Ordered.drop (h : Ordered c m slots) {i : Nat} {e : Entry}
    {c' : RouteCache maxRoutes} (hentry : c'.entry = update c.entry i none)
    (hnext : c'.nextInsertionOrder = c.nextInsertionOrder) {m' : PrefixTrie.Map Nat}
    (hm : ∀ cidr, m'.lookup cidr = if m.lookup e.cidr = some i ∧ cidr = e.cidr
      then c.replacement i e.cidr else m.lookup cidr) :
    Ordered c' m' (slots.filter fun j => j ≠ i) := by
  have hof : ∀ j x, c'.entry j = some x → j ≠ i ∧ c.entry j = some x := by
    intro j x hx
    rw [hentry] at hx
    by_cases hj : j = i
    · rw [hj, update_self] at hx
      cases hx
    · rw [update_of_ne hj] at hx
      exact ⟨hj, hx⟩
  refine ⟨fun j => ?_, (h.sorted.filter _).imp fun hlt x x' hx hx' => ?_, fun j x hx => ?_,
    fun cidr j x hj hx k x' hx' hc => ?_⟩
  · rw [List.mem_filter, h.mem, hentry]
    by_cases hj : j = i
    · simp [hj]
    · simp [hj]
  · exact hlt x x' (hof _ x hx).2 (hof _ x' hx').2
  · rw [hnext]
    exact h.bound j x (hof j x hx).2
  · obtain ⟨-, hx⟩ := hof j x hx
    obtain ⟨hki, hx'⟩ := hof k x' hx'
    rw [hm] at hj
    split at hj
    · rename_i hinc
      obtain ⟨-, y, hy, -, hmin⟩ := replacement_some hj
      obtain rfl := Option.some.inj (hx.symm.trans hy)
      exact hmin k x' hki hx' (hc.trans hinc.2)
    · exact h.oldest cidr j x hj hx k x' hx' hc

/-- Promotion exchanges the slot of a prefix in the trie for the replacement. -/
theorem promote_spec (h : Consistent backend c m) {i : Nat} {e : Entry}
    (hinc : m.lookup e.cidr = some i) :
    ∃ trie m' T, c.promote i e.cidr (c.replacement i e.cidr) =
        .ok (.ok (), { c with trie := trie }) ∧
      PrefixTrie.Models backend trie.nodes T m' ∧
      ∀ cidr, m'.lookup cidr =
        if cidr = e.cidr then c.replacement i e.cidr else m.lookup cidr := by
  obtain ⟨T, hT⟩ := h.trie
  obtain ⟨t1, T1, hrem, hT1⟩ := PrefixTrie.remove_spec hT e.cidr
  rw [hinc] at hrem
  simp only [promote, hrem, ok_bind]
  cases hrep : c.replacement i e.cidr with
  | none =>
    refine ⟨t1, _, T1, rfl, hT1, fun cidr => ?_⟩
    rw [PrefixTrie.lookup_erase]
  | some k =>
    have hkey : e.cidr ∈ m.keys := by
      by_contra hnot
      rw [AList.lookup_eq_none.mpr hnot] at hinc
      cases hinc
    have hroom : (PrefixTrie.Map.specific (m.erase e.cidr)).length < maxRoutes := by
      have h1 := specific_length_le (m.erase e.cidr)
      have h2 := h.keys_le
      have h3 : (m.erase e.cidr).keys.length = m.keys.length - 1 := by
        rw [AList.keys_erase, List.length_erase_of_mem hkey]
      have h4 := List.length_pos_of_mem hkey
      have h5 : c.occupied.card ≤ maxRoutes := occupied_card_le
      omega
    obtain ⟨t2, T2, hins, hT2⟩ := PrefixTrie.insert_of_lt hT1 hroom e.cidr k
    rw [PrefixTrie.lookup_erase, if_pos rfl] at hins
    simp only [if_true, hins, ok_bind]
    refine ⟨t2, _, T2, rfl, hT2, fun cidr => ?_⟩
    rw [PrefixTrie.lookup_insert, PrefixTrie.lookup_erase]
    split <;> simp_all

theorem clearSlot_eq {i : Nat} {e : Entry} (hi : c.entry i = some e) (wasIncumbent : Bool)
    (nextLen : Nat) :
    c.clearSlot i e wasIncumbent nextLen =
      .ok (.ok (), { c.setEntry i none with len := nextLen }) := by
  simp [clearSlot, hi]
  rfl

theorem removeSlot_spec (h : Consistent backend c m) (peer i : Nat) :
    ∃ c' m', c.removeSlot peer i = .ok (.ok (), c') ∧ Consistent backend c' m' ∧
      c'.entry = update c.entry i ((c.entry i).filter fun e => e.peer ≠ peer) ∧
      c'.nextInsertionOrder = c.nextInsertionOrder ∧ Stays m m' c' ∧ ∀ slots, Ordered c m slots →
        Ordered c' m' (slots.filter fun j => j ≠ i ∨ (c.entry j).all fun e => e.peer ≠ peer) := by
  unfold removeSlot
  cases hi : c.entry i with
  | none =>
    refine ⟨c, m, rfl, h, ?_, rfl, fun _ _ hj _ => hj, fun slots hord => ?_⟩
    · rw [Option.filter_none, ← hi, update_eq_self]
    · rwa [List.filter_eq_self.mpr]
      intro j _
      by_cases hj : j = i
      · simp [hj, hi]
      · simp [hj]
  | some e =>
    by_cases hp : e.peer = peer
    swap
    · refine ⟨c, m, by simp only [ne_eq, hp, not_false_eq_true, if_true]; rfl, h, ?_, rfl,
        fun _ _ hj _ => hj, fun slots hord => ?_⟩
      · simp only [Option.filter_some, ne_eq, hp, not_false_eq_true, decide_true, if_true]
        rw [← hi, update_eq_self]
      · rwa [List.filter_eq_self.mpr]
        intro j _
        by_cases hj : j = i
        · simp [hj, hi, hp]
        · simp [hj]
    · obtain ⟨T, hT⟩ := h.trie
      have hlt := lt_of_entry hi
      have hfilter : ∀ slots : List Nat,
          (slots.filter fun j => j ≠ i ∨ (c.entry j).all fun e => e.peer ≠ peer) =
            slots.filter fun j => j ≠ i := by
        intro slots
        refine List.filter_congr fun j _ => ?_
        by_cases hj : j = i
        · simp [hj, hi, hp]
        · simp [hj]
      simp only [ne_eq, hp, not_true_eq_false, if_false, PrefixTrie.get_spec hT, ok_bind]
      have hnone : (some e).filter (fun e => decide ¬e.peer = peer) = none := by simp [hp]
      rw [hnone]
      by_cases hinc : m.lookup e.cidr = some i
      · obtain ⟨trie, m', T', hpro, hT', hm'⟩ := promote_spec h hinc
        have hentry : ({ ({ c with trie := trie } : RouteCache maxRoutes).setEntry i none with
            len := c.len - 1 } : RouteCache maxRoutes).entry = update c.entry i none :=
          entry_setEntry hlt none
        have hm : ∀ cidr, m'.lookup cidr = if m.lookup e.cidr = some i ∧ cidr = e.cidr
            then c.replacement i e.cidr else m.lookup cidr := by
          simpa [hinc] using hm'
        refine ⟨_, m', ?_, h.drop hi hentry rfl ⟨T', hT'⟩ hm, hentry, rfl, fun net j hj hne => ?_,
          fun slots hord => ?_⟩
        · simp only [hinc, decide_true, if_true, hpro, ok_bind]
          exact clearSlot_eq (c := { c with trie := trie }) hi _ _
        · rw [hentry] at hne
          rw [hm, if_neg]
          · exact hj
          · rintro ⟨-, rfl⟩
            obtain rfl : i = j := Option.some.inj (hinc.symm.trans hj)
            exact hne (update_self ..)
        · rw [hfilter]
          exact hord.drop hentry rfl hm
      · have hentry : ({ c.setEntry i none with len := c.len - 1 } : RouteCache maxRoutes).entry =
            update c.entry i none := entry_setEntry hlt none
        have hm : ∀ cidr, m.lookup cidr = if m.lookup e.cidr = some i ∧ cidr = e.cidr
            then c.replacement i e.cidr else m.lookup cidr := by
          simp [hinc]
        refine ⟨_, m, ?_, h.drop hi hentry rfl ⟨T, hT⟩ hm, hentry, rfl, fun _ _ hj _ => hj,
          fun slots hord => ?_⟩
        · simp only [hinc, decide_false, Bool.false_eq_true, if_false]
          exact clearSlot_eq hi _ _
        · rw [hfilter]
          exact hord.drop hentry rfl hm

theorem removeLoop_spec (peer : Nat) (l : List Nat) (h : Consistent backend c m) :
    ∃ c' m', removeLoop peer l c = .ok (.ok (), c') ∧ Consistent backend c' m' ∧
      (∀ j, c'.entry j = if j ∈ l then (c.entry j).filter fun e => e.peer ≠ peer
        else c.entry j) ∧
      c'.nextInsertionOrder = c.nextInsertionOrder ∧ Stays m m' c' ∧
      ∀ slots, Ordered c m slots →
        Ordered c' m' (slots.filter fun j => j ∉ l ∨ (c.entry j).all fun e => e.peer ≠ peer) := by
  induction l generalizing c m with
  | nil => exact ⟨c, m, rfl, h, by simp, rfl, fun _ _ hj _ => hj, by simp⟩
  | cons i l ih =>
    obtain ⟨c1, m1, hrun1, hcon1, hentry1, hnext1, hstay1, hord1⟩ := removeSlot_spec h peer i
    obtain ⟨c2, m2, hrun2, hcon2, hentry2, hnext2, hstay2, hord2⟩ := ih hcon1
    have hentry1' : ∀ j, c1.entry j = if j = i then (c.entry j).filter fun e => e.peer ≠ peer
        else c.entry j := by
      intro j
      rw [hentry1]
      by_cases hj : j = i
      · simp [hj]
      · simp [hj]
    refine ⟨c2, m2, ?_, hcon2, fun j => ?_, hnext2.trans hnext1, fun net j hj hne => ?_,
      fun slots hord => ?_⟩
    · simp only [removeLoop, hrun1, ok_bind]
      exact hrun2
    · rw [hentry2, hentry1']
      by_cases hj : j = i <;> by_cases hl : j ∈ l <;> simp [hj, hl, Option.filter_filter]
    · refine hstay2 net j (hstay1 net j hj fun hnone => hne ?_) hne
      rw [hentry2, hnone]
      split <;> rfl
    · have := hord2 _ (hord1 slots hord)
      rw [List.filter_filter] at this
      convert this using 2
      funext j
      rw [hentry1']
      by_cases hj : j = i <;> by_cases hl : j ∈ l <;> cases hc : c.entry j <;>
        simp_all [Option.filter_some]

/-- Removing a peer never fails and removes exactly its routes. -/
theorem removePeer_spec (h : Consistent backend c m) (peer : Nat) :
    ∃ c' m', c.removePeer peer = .ok (.ok (), c') ∧ Consistent backend c' m' ∧
      (∀ j, c'.entry j = (c.entry j).filter fun e => e.peer ≠ peer) ∧
      c'.nextInsertionOrder = c.nextInsertionOrder ∧ Stays m m' c' ∧ ∀ slots, Ordered c m slots →
        Ordered c' m' (slots.filter fun j => (c.entry j).all fun e => e.peer ≠ peer) := by
  obtain ⟨c', m', hrun, hcon, hentry, hnext, hstay, hord⟩ :=
    removeLoop_spec peer (List.range maxRoutes) h
  refine ⟨c', m', hrun, hcon, fun j => ?_, hnext, hstay, fun slots hslots => ?_⟩
  · rw [hentry]
    by_cases hj : j < maxRoutes
    · rw [if_pos (List.mem_range.mpr hj)]
    · simp [entry_of_ge (Nat.le_of_not_lt hj)]
  · convert hord slots hslots using 2
    funext j
    by_cases hj : j < maxRoutes
    · simp [hj]
    · simp [entry_of_ge (Nat.le_of_not_lt hj)]

/-- A lookup finds the incumbent of the longest prefix that contains the address, and both kinds of
lookup agree. -/
theorem lookup_spec (h : Consistent backend c m) (ip : IpAddr) (now : Nat) :
    (c.lookup ip now = .ok (none, c) ∧ c.lookupReadonly ip = .ok none ∧
      ∀ i e, c.entry i = some e → e.cidr.contains ip = false) ∨
    ∃ i e, m.lookup e.cidr = some i ∧ c.entry i = some e ∧ e.cidr.contains ip = true ∧
      (∀ j e', c.entry j = some e' → e'.cidr.contains ip = true →
        e'.cidr.networkLength ≤ e.cidr.networkLength) ∧
      c.lookup ip now = .ok (some e.peer, c.setEntry i (some { e with lastUsed := now })) ∧
      c.lookupReadonly ip = .ok (some e.peer) := by
  obtain ⟨T, hT⟩ := h.trie
  obtain ⟨r, hr, hmatch⟩ := PrefixTrie.lookup_spec hT ip
  have hkey : ∀ i e, c.entry i = some e → e.cidr ∈ m := by
    intro i e he
    by_contra hnot
    exact h.present i e he (AList.lookup_eq_none.mpr hnot)
  simp only [lookup, lookupReadonly, bestMatch, hr, ok_bind]
  rcases hmatch with ⟨rfl, hnone⟩ | ⟨net, hnet, hcontains, rfl, hmax⟩
  · exact Or.inl ⟨rfl, rfl, fun i e he => hnone _ (hkey i e he)⟩
  · obtain ⟨i, hi⟩ := Option.ne_none_iff_exists'.mp
      (fun hnone => AList.lookup_eq_none.mp hnone hnet)
    obtain ⟨e, he, rfl⟩ := h.incumbent net i hi
    simp only [hi, he]
    exact Or.inr ⟨i, e, hi, he, hcontains, fun j e' he' => hmax _ (hkey j e' he'), rfl, rfl⟩

/-! ### Claims in the order they were made -/

/-- The abstract state: the claims of prefixes by peers, oldest first. -/
abbrev Claims := List (IpCidr × Nat)

/-- `r` is the owner of `ip`: of the claims that contain it, the one with the longest prefix and, of
those with that same prefix, the first. -/
def Claims.Owner (claims : Claims) (ip : IpAddr) (r : Option Nat) : Prop :=
  (r = none ∧ ∀ claim ∈ claims, claim.1.contains ip = false) ∨
    ∃ older claim newer, claims = older ++ claim :: newer ∧ claim.1.contains ip = true ∧
      r = some claim.2 ∧ (∀ other ∈ older, other.1 ≠ claim.1) ∧
      ∀ other ∈ claims, other.1.contains ip = true → other.1.networkLength ≤ claim.1.networkLength

/-- A call on the cache. -/
inductive Op where
  | insert (cidr : IpCidr) (peer : Nat) (pinned : Bool) (now : Nat)
  | removePeer (peer : Nat)
  | lookup (ip : IpAddr) (now : Nat)

/-- What a call does to the claims: a new claim is made last, if there is room, and removing a peer
withdraws its claims. -/
def Claims.apply (maxRoutes : Nat) (claims : Claims) : Op → Claims
  | .insert cidr peer _ _ =>
    if (cidr, peer) ∈ claims ∨ claims.length = maxRoutes then claims else claims ++ [(cidr, peer)]
  | .removePeer peer => claims.filter fun claim => claim.2 ≠ peer
  | .lookup _ _ => claims

/-- The cache after a call. -/
def exec (c : RouteCache maxRoutes) : Op → Except Panic (RouteCache maxRoutes)
  | .insert cidr peer pinned now => do return (← c.insert cidr peer pinned now).2
  | .removePeer peer => do return (← c.removePeer peer).2
  | .lookup ip now => do return (← c.lookup ip now).2

/-- The cache after a sequence of calls on a new cache, the last call first. -/
def run (maxRoutes : Nat) (backend : Backend) : List Op → Except Panic (RouteCache maxRoutes)
  | [] => return new maxRoutes backend
  | op :: earlier => do
    let c ← run maxRoutes backend earlier
    c.exec op

/-- The claims after the same calls. -/
def Claims.after (maxRoutes : Nat) : List Op → Claims
  | [] => []
  | op :: earlier => (Claims.after maxRoutes earlier).apply maxRoutes op

def Op.isInsert : Op → Bool
  | .insert _ _ _ _ => true
  | _ => false

/-- The routes in the slots of the cache. -/
def routes (c : RouteCache maxRoutes) : List (IpCidr × Nat) :=
  c.entries.toList.reduceOption.map fun e => (e.cidr, e.peer)

/-- The slots, oldest first, hold the claims. -/
def Holds (c : RouteCache maxRoutes) (slots : List Nat) (claims : Claims) : Prop :=
  claims.map some = slots.map fun i => (c.entry i).map fun e => (e.cidr, e.peer)

section Refines

variable {claims : Claims} (hcon : Consistent backend c m) (hord : Ordered c m slots)
  (hholds : Holds c slots claims)

theorem Ordered.nodup (hord : Ordered c m slots) : slots.Nodup := by
  refine hord.sorted.imp_of_mem fun {i j} hi _ hlt heq => ?_
  subst heq
  obtain ⟨e, he⟩ := Option.ne_none_iff_exists'.mp ((hord.mem i).mp hi)
  exact absurd (hlt e e he he) (Nat.lt_irrefl _)

include hord in
theorem slots_length : slots.length = c.occupied.card := by
  rw [← List.toFinset_card_of_nodup hord.nodup]
  congr 1
  ext i
  rw [List.mem_toFinset, hord.mem, mem_occupied]

include hholds in
theorem Holds.length : claims.length = slots.length := by
  simpa using congrArg List.length hholds

include hord hholds in
theorem mem_claims_iff {claim : IpCidr × Nat} :
    claim ∈ claims ↔ ∃ i e, c.entry i = some e ∧ (e.cidr, e.peer) = claim := by
  have hmem : claim ∈ claims ↔ some claim ∈ claims.map some := by simp
  rw [hmem, hholds, List.mem_map]
  constructor
  · rintro ⟨i, -, hi⟩
    obtain ⟨e, he, heq⟩ := Option.map_eq_some_iff.mp hi
    exact ⟨i, e, he, heq⟩
  · rintro ⟨i, e, he, rfl⟩
    exact ⟨i, (hord.mem i).mpr (by simp [he]), by simp [he]⟩

include hcon hord hholds in
theorem owner_spec (ip : IpAddr) (now : Nat) :
    ∃ r c', c.lookup ip now = .ok (r, c') ∧ c.lookupReadonly ip = .ok r ∧ claims.Owner ip r ∧
      Consistent backend c' m ∧ Ordered c' m slots ∧ Holds c' slots claims ∧
      c'.nextInsertionOrder = c.nextInsertionOrder := by
  rcases lookup_spec hcon ip now with ⟨hrun, hread, hnone⟩ | ⟨i, e, hi, he, hcontains, hmax, hrun,
    hread⟩
  · refine ⟨none, c, hrun, hread, Or.inl ⟨rfl, fun claim hclaim => ?_⟩, hcon, hord, hholds, rfl⟩
    obtain ⟨i, e, he, rfl⟩ := (mem_claims_iff hord hholds).mp hclaim
    exact hnone i e he
  · refine ⟨some e.peer, _, hrun, hread, Or.inr ?_, hcon.refresh he rfl rfl,
      hord.refresh he rfl rfl, ?_, rfl⟩
    · obtain ⟨before, after, hslots⟩ := List.append_of_mem ((hord.mem i).mpr (by simp [he]))
      have hsorted := hord.sorted
      rw [hslots] at hsorted
      have hmap := hholds
      rw [Holds, hslots, List.map_append, List.map_cons, he, Option.map_some] at hmap
      obtain ⟨older, rest, hclaims, holder, hrest⟩ := List.map_eq_append_iff.mp hmap
      obtain ⟨claim, newer, rfl, hclaim, -⟩ := List.map_eq_cons_iff.mp hrest
      obtain rfl : claim = (e.cidr, e.peer) := Option.some.inj hclaim
      refine ⟨older, _, newer, hclaims, hcontains, rfl, fun other hother => ?_, fun other hother =>
        ?_⟩
      · have hmem : some other ∈ before.map fun i => (c.entry i).map fun e => (e.cidr, e.peer) := by
          rw [← holder]
          exact List.mem_map_of_mem hother
        obtain ⟨j, hj, hje⟩ := List.mem_map.mp hmem
        obtain ⟨e', he', rfl⟩ := Option.map_eq_some_iff.mp hje
        intro hsame
        have hlt := (List.pairwise_append.mp hsorted).2.2 j hj i List.mem_cons_self e' e he' he
        have hle := hord.oldest e.cidr i e hi he j e' he' hsame
        omega
      · obtain ⟨j, e', he', rfl⟩ := (mem_claims_iff hord hholds).mp hother
        exact hmax j e' he'
    · rw [Holds, hholds]
      refine List.map_congr_left fun j _ => ?_
      rw [entry_setEntry (lt_of_entry he)]
      by_cases hj : j = i
      · subst hj
        simp [he]
      · rw [update_of_ne hj]

include hholds in
theorem Holds.filter {p : Nat → Bool} {q : IpCidr × Nat → Bool}
    (hpq : ∀ i e, c.entry i = some e → p i = q (e.cidr, e.peer)) : (claims.filter q).map some =
      (slots.filter p).map fun i => (c.entry i).map fun e => (e.cidr, e.peer) := by
  induction slots generalizing claims with
  | nil =>
    obtain rfl : claims = [] := by simpa [Holds] using hholds
    rfl
  | cons i slots ih =>
    rw [Holds, List.map_cons] at hholds
    obtain ⟨claim, rest, rfl, hclaim, hrest⟩ := List.map_eq_cons_iff.mp hholds
    obtain ⟨e, he, rfl⟩ := Option.map_eq_some_iff.mp hclaim.symm
    have := ih hrest
    by_cases hp : p i = true
    · rw [List.filter_cons_of_pos hp, List.filter_cons_of_pos (by rw [← hpq i e he, hp]),
        List.map_cons, List.map_cons, this, he]
      rfl
    · rw [List.filter_cons_of_neg hp, List.filter_cons_of_neg (by rw [← hpq i e he]; exact hp),
        this]

theorem routes_eq : c.routes =
    (List.range maxRoutes).filterMap fun i => (c.entry i).map fun e => (e.cidr, e.peer) := by
  have hlist : c.entries.toList = (List.range maxRoutes).map c.entry := by
    refine List.ext_getElem? fun i => ?_
    rw [getElem?_toList, List.getElem?_map]
    by_cases hi : i < maxRoutes
    · rw [Vector.getElem?_eq_getElem hi, List.getElem?_range hi, Option.map_some, entry,
        Vector.getElem?_eq_getElem hi]
      rfl
    · rw [Vector.getElem?_eq_none (Nat.le_of_not_lt hi), List.getElem?_eq_none (by simpa using hi)]
      rfl
  rw [routes, hlist]
  change List.map _ (List.filterMap id (List.map _ (List.range maxRoutes))) = _
  rw [List.filterMap_map, List.map_filterMap]
  rfl

include hord hholds in
theorem routes_perm : c.routes.Perm claims := by
  have hclaims : claims = slots.filterMap fun i => (c.entry i).map fun e => (e.cidr, e.peer) := by
    have := congrArg (List.filterMap id) hholds
    rw [List.filterMap_map, List.filterMap_map] at this
    simpa using this
  have hslots : slots.Perm ((List.range maxRoutes).filter fun i => (c.entry i).isSome) := by
    refine (List.perm_ext_iff_of_nodup hord.nodup (List.nodup_range.filter _)).mpr fun i => ?_
    rw [hord.mem, List.mem_filter, List.mem_range, Option.isSome_iff_ne_none]
    refine ⟨fun h => ?_, fun h => h.2⟩
    obtain ⟨e, he⟩ := Option.ne_none_iff_exists'.mp h
    exact ⟨lt_of_entry he, h⟩
  rw [hclaims, routes_eq]
  refine List.Perm.trans ?_ (hslots.filterMap _).symm
  rw [List.filterMap_filter]
  refine List.Perm.of_eq (List.filterMap_congr fun i _ => ?_)
  cases c.entry i <;> rfl

end Refines

/-- The invariant of a run with at most `n` insertions. -/
structure Refines (backend : Backend) (c : RouteCache maxRoutes) (claims : Claims) (n : Nat) :
    Prop where
  state : ∃ m slots, Consistent backend c m ∧ Ordered c m slots ∧ Holds c slots claims
  orders : c.nextInsertionOrder ≤ n

theorem entry_new (maxRoutes : Nat) (backend : Backend) (i : Nat) :
    (new maxRoutes backend).entry i = none := by
  simp only [entry, new, Vector.getElem?_replicate]
  split <;> rfl

theorem consistent_new (maxRoutes : Nat) (backend : Backend) :
    Consistent backend (new maxRoutes backend) ∅ := by
  have hocc : (new maxRoutes backend).occupied = ∅ := by
    ext i
    simp [mem_occupied, entry_new]
  refine ⟨⟨_, PrefixTrie.models_new backend⟩, fun i j e e' he => ?_, ?_, ?_, fun i e he => ?_⟩
  · simp [entry_new] at he
  · rw [hocc]
    rfl
  · rintro cidr i ⟨⟩
  · simp [entry_new] at he

theorem refines_new (maxRoutes : Nat) (backend : Backend) :
    Refines backend (new maxRoutes backend) [] 0 := by
  refine ⟨⟨∅, [], consistent_new maxRoutes backend, ⟨?_, .nil, fun i e he => ?_, ?_⟩, rfl⟩,
    Nat.le_refl _⟩
  · simp [entry_new]
  · simp [entry_new] at he
  · rintro cidr i e ⟨⟩

/-- An insertion makes the claim, unless it is already made or there is no room. -/
theorem Refines.insert {claims : Claims} {n : Nat} (h : Refines backend c claims n)
    (hn : n + 1 < 2 ^ 64) (cidr : IpCidr) (peer : Nat) (pinned : Bool) (now : Nat) :
    ∃ result c', c.insert cidr peer pinned now = .ok (result, c') ∧
      Refines backend c' (claims.apply maxRoutes (.insert cidr peer pinned now)) (n + 1) := by
  obtain ⟨⟨m, slots, hcon, hord, hholds⟩, hnext⟩ := h
  have hlength : claims.length = c.occupied.card := (Holds.length hholds).trans (slots_length hord)
  simp only [Claims.apply]
  rcases insert_spec hcon cidr peer pinned now with ⟨i, e, he, rfl, rfl, hrun⟩ |
    ⟨hnew, ⟨hfull, hrun⟩ | ⟨i, c', m', hi, hfree, hrun, hentry, hnext', hcon', -, -, hord'⟩⟩
  · have hmem : (e.cidr, e.peer) ∈ claims := (mem_claims_iff hord hholds).mpr ⟨i, e, he, rfl⟩
    refine ⟨_, _, hrun, ?_⟩
    rw [if_pos (Or.inl hmem)]
    refine ⟨⟨m, slots, hcon.refresh he rfl rfl, hord.refresh he rfl rfl, ?_⟩,
      Nat.le_succ_of_le hnext⟩
    rw [Holds, hholds]
    refine List.map_congr_left fun j _ => ?_
    rw [entry_setEntry (lt_of_entry he)]
    by_cases hj : j = i
    · subst hj
      simp [he]
    · rw [update_of_ne hj]
  all_goals
    have hnot : (cidr, peer) ∉ claims := by
      intro hmem
      obtain ⟨j, e, he, hpair⟩ := (mem_claims_iff hord hholds).mp hmem
      exact hnew j e he (Prod.mk.injEq .. ▸ hpair)
  · refine ⟨_, c, hrun, ?_⟩
    rw [if_pos (Or.inr (hlength.trans hfull))]
    exact ⟨⟨m, slots, hcon, hord, hholds⟩, Nat.le_succ_of_le hnext⟩
  · have hlt := occupied_card_lt hi hfree
    refine ⟨_, c', hrun, ?_⟩
    rw [if_neg (by rintro (h | h); exacts [hnot h, by omega])]
    refine ⟨⟨m', slots ++ [i], hcon', hord' slots hord (by omega), ?_⟩, ?_⟩
    · rw [Holds, List.map_append, List.map_append, hholds]
      congr 1
      · refine List.map_congr_left fun j hj => ?_
        rw [hentry, update_of_ne]
        rintro rfl
        exact (hord.mem j).mp hj hfree
      · simp [hentry]
    · rw [hnext', Nat.mod_eq_of_lt (by omega)]
      omega

theorem Refines.removePeer {claims : Claims} {n : Nat} (h : Refines backend c claims n)
    (peer : Nat) : ∃ c', c.removePeer peer = .ok (.ok (), c') ∧
      Refines backend c' (claims.apply maxRoutes (.removePeer peer)) n := by
  obtain ⟨⟨m, slots, hcon, hord, hholds⟩, hnext⟩ := h
  obtain ⟨c', m', hrun, hcon', hentry, hnext', -, hord'⟩ := removePeer_spec hcon peer
  refine ⟨c', hrun, ⟨m', _, hcon', hord' slots hord, ?_⟩, hnext' ▸ hnext⟩
  have hfilter := Holds.filter hholds (p := fun j => (c.entry j).all fun e => e.peer ≠ peer)
    (q := fun claim => claim.2 ≠ peer) (fun i e he => by simp [he])
  rw [Holds, Claims.apply, hfilter]
  refine List.map_congr_left fun j hj => ?_
  rw [hentry]
  have hall := (List.mem_filter.mp hj).2
  cases he : c.entry j with
  | none => rfl
  | some e =>
    rw [he] at hall
    simp only [Option.all_some] at hall
    rw [Option.filter_some, if_pos hall]

/-- Every sequence of calls runs through without a panic and leaves a cache that holds the claims.
-/
theorem run_spec (maxRoutes : Nat) (backend : Backend) (ops : List Op)
    (hops : (ops.filter Op.isInsert).length < 2 ^ 64) : ∃ c, run maxRoutes backend ops = .ok c ∧
      Refines backend c (Claims.after maxRoutes ops) (ops.filter Op.isInsert).length := by
  induction ops with
  | nil => exact ⟨_, rfl, refines_new maxRoutes backend⟩
  | cons op ops ih =>
    cases op with
    | insert cidr peer pinned now =>
      rw [List.filter_cons_of_pos rfl, List.length_cons] at hops ⊢
      obtain ⟨c, hrun, href⟩ := ih (by omega)
      obtain ⟨result, c', hins, href'⟩ := href.insert hops cidr peer pinned now
      exact ⟨c', by simp only [run, hrun, ok_bind, exec, hins]; rfl, href'⟩
    | removePeer peer =>
      rw [List.filter_cons_of_neg (by simp [Op.isInsert])] at hops ⊢
      obtain ⟨c, hrun, href⟩ := ih hops
      obtain ⟨c', hrem, href'⟩ := href.removePeer peer
      exact ⟨c', by simp only [run, hrun, ok_bind, exec, hrem]; rfl, href'⟩
    | lookup ip now =>
      rw [List.filter_cons_of_neg (by simp [Op.isInsert])] at hops ⊢
      obtain ⟨c, hrun, ⟨m, slots, hcon, hord, hholds⟩, hnext⟩ := ih hops
      obtain ⟨r, c', hlook, -, -, hcon', hord', hholds', hnext'⟩ :=
        owner_spec hcon hord hholds ip now
      exact ⟨c', by simp only [run, hrun, ok_bind, exec, hlook]; rfl,
        ⟨m, slots, hcon', hord', hholds'⟩, hnext' ▸ hnext⟩

/-- After every sequence of calls with fewer than 2 ^ 64 insertions the slots hold exactly the
claims made and not withdrawn, and both lookups return the owner of the address among them. An
insertion fails exactly when the claim is new and every slot is taken, and then changes nothing;
removing a peer never fails. -/
theorem refines_claims (maxRoutes : Nat) (backend : Backend) (ops : List Op)
    (hops : (ops.filter Op.isInsert).length < 2 ^ 64) :
    ∃ c, run maxRoutes backend ops = .ok c ∧ c.routes.Perm (Claims.after maxRoutes ops) ∧
      c.len = (Claims.after maxRoutes ops).length ∧
      (∀ ip now, ∃ r c', c.lookup ip now = .ok (r, c') ∧ c.lookupReadonly ip = .ok r ∧
        (Claims.after maxRoutes ops).Owner ip r) ∧
      (∀ cidr peer pinned now, ∃ result c', c.insert cidr peer pinned now = .ok (result, c') ∧
        (result = .error .routeCacheFull ↔ (cidr, peer) ∉ Claims.after maxRoutes ops ∧
          (Claims.after maxRoutes ops).length = maxRoutes) ∧
        (result = .ok () ∨ result = .error .routeCacheFull ∧ c' = c)) ∧
      ∀ peer, ∃ c', c.removePeer peer = .ok (.ok (), c') := by
  obtain ⟨c, hrun, href⟩ := run_spec maxRoutes backend ops hops
  obtain ⟨⟨m, slots, hcon, hord, hholds⟩, -⟩ := id href
  have hlength : (Claims.after maxRoutes ops).length = c.occupied.card :=
    (Holds.length hholds).trans (slots_length hord)
  refine ⟨c, hrun, routes_perm hord hholds, hcon.len.trans hlength.symm, fun ip now => ?_,
    fun cidr peer pinned now => ?_, fun peer => ?_⟩
  · obtain ⟨r, c', hlook, hread, howner, -⟩ := owner_spec hcon hord hholds ip now
    exact ⟨r, c', hlook, hread, howner⟩
  · have hmem : (cidr, peer) ∈ Claims.after maxRoutes ops ↔ _ := mem_claims_iff hord hholds
    rw [hmem, hlength]
    rcases insert_spec hcon cidr peer pinned now with ⟨i, e, he, rfl, rfl, hins⟩ |
      ⟨hnew, ⟨hfull, hins⟩ | ⟨i, c', m', hi, hfree, hins, -⟩⟩
    · refine ⟨_, _, hins, ?_, Or.inl rfl⟩
      simp only [reduceCtorEq, false_iff, not_and]
      exact fun h => absurd ⟨i, e, he, rfl⟩ h
    · refine ⟨_, c, hins, iff_of_true rfl ⟨?_, hfull⟩, Or.inr ⟨rfl, rfl⟩⟩
      rintro ⟨i, e, he, hpair⟩
      exact hnew i e he (Prod.mk.injEq .. ▸ hpair)
    · have := occupied_card_lt hi hfree
      refine ⟨_, c', hins, ?_, Or.inl rfl⟩
      simp only [reduceCtorEq, false_iff, not_and]
      omega
  · obtain ⟨c', hrem, -⟩ := href.removePeer peer
    exact ⟨c', hrem⟩

/-- Two peers claim one host route; when the first is removed the second is promoted. -/
theorem refines_claims_promotes :
    ∃ c, run 4 .inline [.removePeer 7, .insert (.host (.v4 1)) 8 false 0,
        .insert (.host (.v4 1)) 7 false 0] = .ok c ∧ c.lookupReadonly (.v4 1) = .ok (some 8) := by
  obtain ⟨c, hrun, -, -, hlook, -⟩ := refines_claims 4 .inline
    [.removePeer 7, .insert (.host (.v4 1)) 8 false 0, .insert (.host (.v4 1)) 7 false 0]
    (by decide)
  refine ⟨c, hrun, ?_⟩
  obtain ⟨r, c', -, hread, howner⟩ := hlook (.v4 1) 0
  have hclaims : Claims.after 4 [.removePeer 7, .insert (.host (.v4 1)) 8 false 0,
      .insert (.host (.v4 1)) 7 false 0] = [(.host (.v4 1), 8)] := by decide
  rw [hclaims] at howner
  rw [hread]
  rcases howner with ⟨-, hnone⟩ | ⟨older, claim, newer, hsplit, -, hr, -⟩
  · have := hnone _ List.mem_cons_self
    exact absurd this (by decide)
  · have hmem : claim ∈ [((.host (.v4 1) : IpCidr), 8)] := by
      rw [hsplit]
      exact List.mem_append_right _ List.mem_cons_self
    rw [hr, List.mem_singleton.mp hmem]

end RouteCache

end Microtun
