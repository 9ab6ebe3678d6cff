import Microtun.PrefixTrie.Model
import Mathlib.Data.Finset.Card
import Mathlib.Order.Interval.Finset.Nat

/-! What the two storage modes have in common: a store is a partial function from node identifiers
to live nodes, and writing, taking and releasing a node are updates of that function at one
identifier. -/

namespace Microtun

open Function

variable {V : Type} {maxPrefixes : Nat}

namespace NodePair

theorem occupied_and_eq_zero (x : BitVec 8) {slot : Nat} (h : slot < 8) :
    x &&& (1#8 <<< slot) = 0 ↔ x.getLsbD slot = false := by
  constructor
  · intro hx
    have := congrArg (fun y => y.getLsbD slot) hx
    simpa [h] using this
  · intro hx
    refine BitVec.eq_of_getLsbD_eq fun i hi => ?_
    by_cases his : i = slot
    · subst his
      simp [hx]
    · simp only [BitVec.getLsbD_and, BitVec.getLsbD_shiftLeft, BitVec.getLsbD_one]
      simp
      omega

theorem get_eq (p : NodePair V) {slot : Nat} (h : slot < 2) :
    p.get slot = if p.occupied.getLsbD slot then some p.nodes[slot] else none := by
  rw [get, Vector.getElem?_eq_getElem h]
  by_cases ho : p.occupied.getLsbD slot = true
  · rw [if_neg, if_pos ho]
    rw [occupied_and_eq_zero _ (by omega)]
    simp [ho]
  · rw [if_pos, if_neg ho]
    rw [occupied_and_eq_zero _ (by omega)]
    simpa using ho

@[simp] theorem get_empty (slot : Nat) : (empty : NodePair V).get slot = none := by
  simp [get, empty]

theorem modify_spec {p : NodePair V} {slot : Nat} (hs : slot < 2) {node : Node V}
    (h : p.get slot = some node) (f : Node V → Node V) : ∃ p', p.modify slot f = some p' ∧
      ∀ i < 2, p'.get i = update p.get slot (some (f node)) i := by
  refine ⟨_, by rw [modify, h]; rfl, fun i hi => ?_⟩
  rw [get_eq _ hs] at h
  have hocc : p.occupied.getLsbD slot = true := by
    by_contra hne
    simp [hne] at h
  rw [get_eq _ hi]
  by_cases his : i = slot
  · subst his
    simp [hocc]
  · rw [update_of_ne his, get_eq _ hi]
    simp [Ne.symm his]

theorem occupy_spec {p : NodePair V} {slot : Nat} (hs : slot < 2) (h : p.get slot = none)
    (node : Node V) :
    ∃ p', p.occupy slot node = .ok p' ∧ ∀ i < 2, p'.get i = update p.get slot (some node) i := by
  have hocc : p.occupied.getLsbD slot = false := by
    rw [get_eq _ hs] at h
    by_contra hne
    simp [hne] at h
  refine ⟨_, by rw [occupy, if_pos ((occupied_and_eq_zero _ (by omega)).mpr hocc)],
    fun i hi => ?_⟩
  rw [get_eq _ hi]
  by_cases his : i = slot
  · subst his
    simp [show i < 8 by omega]
  · rw [update_of_ne his, get_eq _ hi]
    have : (p.occupied ||| 1#8 <<< slot).getLsbD i = p.occupied.getLsbD i := by
      rw [BitVec.getLsbD_or, BitVec.getLsbD_shiftLeft, BitVec.getLsbD_one]
      simp
      omega
    simp only [this, Vector.getElem_setIfInBounds, if_neg (Ne.symm his)]

theorem release_spec {p : NodePair V} {slot : Nat} (hs : slot < 2) {node : Node V}
    (h : p.get slot = some node) :
    ∃ p', p.release slot = .ok p' ∧ ∀ i < 2, p'.get i = update p.get slot none i := by
  have hocc : p.occupied.getLsbD slot = true := by
    rw [get_eq _ hs] at h
    by_contra hne
    simp [hne] at h
  refine ⟨_, by rw [release, if_neg (by rw [occupied_and_eq_zero _ (by omega)]; simp [hocc])],
    fun i hi => ?_⟩
  rw [get_eq _ hi]
  by_cases his : i = slot
  · subst his
    simp [show i < 8 by omega]
  · rw [update_of_ne his, get_eq _ hi]
    have : (p.occupied &&& ~~~(1#8 <<< slot)).getLsbD i = p.occupied.getLsbD i := by
      rw [BitVec.getLsbD_and, BitVec.getLsbD_not, BitVec.getLsbD_shiftLeft, BitVec.getLsbD_one]
      by_cases hlt : i < slot
      · simp [hlt, show i < 8 by omega]
      · simp [hlt, show i < 8 by omega, show i - slot ≠ 0 by omega]
    simp only [this, Vector.getElem_setIfInBounds, if_neg (Ne.symm his)]

theorem firstFree_spec (p : NodePair V) :
    (∀ slot, p.firstFree = some slot → slot < 2 ∧ p.get slot = none) ∧
      (p.firstFree = none → ∀ slot < 2, p.get slot ≠ none) := by
  constructor
  · intro slot h
    have hmem := List.mem_of_find?_eq_some h
    have hfree := List.find?_some h
    refine ⟨by simp at hmem; omega, ?_⟩
    rw [get, if_pos (by simpa using hfree)]
  · intro h slot hs
    have hocc := List.find?_eq_none.mp h slot (by simp; omega)
    rw [get, if_neg (by simpa using hocc), Vector.getElem?_eq_getElem hs]
    simp

end NodePair

namespace NodePool

/-- The slots of the pool that hold a live node. -/
def liveSlots (p : NodePool V maxPrefixes) : Finset Nat :=
  (Finset.Ico 2 (2 + maxPrefixes * 2)).filter fun id => (p.get id).isSome

/-- The counter is the number of live slots. -/
def Counted (p : NodePool V maxPrefixes) : Prop := p.used = p.liveSlots.card

theorem get_pair (p : NodePool V maxPrefixes) {i slot : Nat} (hs : slot < 2) :
    p.get (2 + i * 2 + slot) = p.pairs[i]?.bind fun pair => pair.get slot := by
  rw [get, if_neg (by omega)]
  have h1 : (2 + i * 2 + slot - 2) / 2 = i := by omega
  have h2 : (2 + i * 2 + slot - 2) % 2 = slot := by omega
  rw [h1, h2]
  rfl

theorem exists_slot {id : Nat} (h : 2 ≤ id) : ∃ i slot, slot < 2 ∧ id = 2 + i * 2 + slot :=
  ⟨(id - 2) / 2, (id - 2) % 2, Nat.mod_lt _ (by decide), by omega⟩

theorem lt_of_get {p : NodePool V maxPrefixes} {id : Nat} (h : p.get id ≠ none) :
    id < 2 + maxPrefixes * 2 := by
  by_cases hr : id < 2
  · omega
  · obtain ⟨i, slot, hs, rfl⟩ := exists_slot (Nat.le_of_not_lt hr)
    rw [get_pair p hs] at h
    have : i < maxPrefixes := by
      by_contra hge
      rw [Vector.getElem?_eq_none (Nat.le_of_not_lt hge)] at h
      exact h rfl
    omega

theorem mem_liveSlots {p : NodePool V maxPrefixes} {id : Nat} :
    id ∈ p.liveSlots ↔ 2 ≤ id ∧ p.get id ≠ none := by
  simp only [liveSlots, Finset.mem_filter, Finset.mem_Ico, Option.isSome_iff_ne_none]
  constructor
  · rintro ⟨⟨h, -⟩, hne⟩
    exact ⟨h, hne⟩
  · rintro ⟨h, hne⟩
    exact ⟨⟨h, lt_of_get hne⟩, hne⟩

theorem get_setPair {p : NodePool V maxPrefixes} {i slot : Nat} (hs : slot < 2)
    {pair pair' : NodePair V} (hi : p.pairs[i]? = some pair) {x : Option (Node V)}
    (h : ∀ j < 2, pair'.get j = update pair.get slot x j) (used : Nat) :
    (⟨p.roots, p.pairs.setIfInBounds i pair', used⟩ : NodePool V maxPrefixes).get =
      update p.get (2 + i * 2 + slot) x := by
  funext id
  have hlt : i < maxPrefixes := by
    by_contra hge
    rw [Vector.getElem?_eq_none (Nat.le_of_not_lt hge)] at hi
    cases hi
  by_cases hr : id < 2
  · rw [update_of_ne (by omega), get, get, if_pos hr, if_pos hr]
  · obtain ⟨i', slot', hs', rfl⟩ := exists_slot (Nat.le_of_not_lt hr)
    rw [get_pair _ hs', Vector.getElem?_setIfInBounds]
    by_cases hii : i = i'
    · subst hii
      rw [if_pos rfl, if_pos hlt, Option.bind_some, h slot' hs']
      by_cases hss : slot' = slot
      · subst hss
        rw [update_self, update_self]
      · rw [update_of_ne hss, update_of_ne (by omega), get_pair _ hs', hi, Option.bind_some]
    · rw [if_neg hii, update_of_ne (by omega), get_pair _ hs']

theorem liveSlots_eq {p p' : NodePool V maxPrefixes} {id : Nat} {x : Option (Node V)}
    (h : p'.get = update p.get id x) (hid : 2 ≤ id) :
    p'.liveSlots = if x = none then p.liveSlots.erase id else insert id p.liveSlots := by
  ext i
  cases x with
  | none =>
    rw [if_pos rfl, Finset.mem_erase, mem_liveSlots, mem_liveSlots, h]
    by_cases hi : i = id
    · subst hi
      simp
    · simp [hi]
  | some n =>
    rw [if_neg (by simp), Finset.mem_insert, mem_liveSlots, mem_liveSlots, h]
    by_cases hi : i = id
    · subst hi
      simp [hid]
    · simp [hi]

theorem modify_spec {p : NodePool V maxPrefixes} (hc : p.Counted) {id : Nat} {node : Node V}
    (h : p.get id = some node) (f : Node V → Node V) :
    ∃ p', p.modify id f = some p' ∧ p'.get = update p.get id (some (f node)) ∧ p'.Counted ∧
      p'.used = p.used := by
  by_cases hr : id < 2
  · have hroot : p.roots[id]? = some node := by rwa [get, if_pos hr] at h
    refine ⟨⟨p.roots.setIfInBounds id (f node), p.pairs, p.used⟩, ?_, ?_, ?_, rfl⟩
    · rw [modify, if_pos hr, hroot]
      rfl
    · funext i
      by_cases hi : i = id
      · subst hi
        rw [update_self, get, if_pos hr, Vector.getElem?_setIfInBounds, if_pos rfl, if_pos hr]
      · rw [update_of_ne hi, get, get, Vector.getElem?_setIfInBounds, if_neg (Ne.symm hi)]
    · have : liveSlots (⟨p.roots.setIfInBounds id (f node), p.pairs, p.used⟩ :
          NodePool V maxPrefixes) = p.liveSlots := by
        ext i
        rw [mem_liveSlots, mem_liveSlots]
        refine and_congr_right fun hi => ?_
        rw [get, get, if_neg (by omega), if_neg (by omega)]
      rw [Counted, this]
      exact hc
  · obtain ⟨i, slot, hs, rfl⟩ := exists_slot (Nat.le_of_not_lt hr)
    rw [get_pair p hs] at h
    obtain ⟨pair, hi, hget⟩ := Option.bind_eq_some_iff.mp h
    obtain ⟨pair', hmod, hpair⟩ := NodePair.modify_spec hs hget f
    have hview := get_setPair hs hi hpair p.used
    refine ⟨⟨p.roots, p.pairs.setIfInBounds i pair', p.used⟩, ?_, hview, ?_, rfl⟩
    · rw [modify, if_neg hr, show (2 + i * 2 + slot - 2) / 2 = i by omega,
        show (2 + i * 2 + slot - 2) % 2 = slot by omega, hi]
      simp [hmod]
    · have hlive : 2 + i * 2 + slot ∈ p.liveSlots := by
        rw [mem_liveSlots, get_pair p hs, h]
        exact ⟨by omega, by simp⟩
      rw [Counted, liveSlots_eq hview (by omega), if_neg (by simp), Finset.insert_eq_of_mem hlive]
      exact hc

/-- A pool that has not handed out all slots has a free one. -/
theorem firstFree_ne_none {p : NodePool V maxPrefixes} (hc : p.Counted)
    (h : 1 ≤ p.available) : p.firstFree ≠ none := by
  intro hnone
  have hfull : p.liveSlots = Finset.Ico 2 (2 + maxPrefixes * 2) := by
    refine Finset.filter_true_of_mem fun id hid => ?_
    rw [Finset.mem_Ico] at hid
    obtain ⟨i, slot, hs, rfl⟩ := exists_slot hid.1
    have hi : i < maxPrefixes := by omega
    have hpair := List.findSome?_eq_none_iff.mp hnone (p.pairs[i], i)
      (List.mk_mem_zipIdx_iff_getElem?.mpr (by simp [hi]))
    rw [get_pair p hs, Vector.getElem?_eq_getElem hi, Option.bind_some,
      Option.isSome_iff_ne_none]
    exact (NodePair.firstFree_spec _).2 (by simpa using hpair) slot hs
  rw [Counted, hfull, Nat.card_Ico] at hc
  rw [available] at h
  omega

theorem alloc_spec {p : NodePool V maxPrefixes} (hc : p.Counted) (h : 1 ≤ p.available)
    (node : Node V) : ∃ id p', p.alloc node = .ok (some (id, p')) ∧ 2 ≤ id ∧ p.get id = none ∧
      p'.get = update p.get id (some node) ∧ p'.Counted ∧ p'.used = p.used + 1 := by
  obtain ⟨⟨i, slot⟩, hfree⟩ := Option.ne_none_iff_exists'.mp (firstFree_ne_none hc h)
  obtain ⟨⟨pair, i'⟩, hmem, hsome⟩ := List.exists_of_findSome?_eq_some hfree
  obtain ⟨slot', hslot, heq⟩ := Option.map_eq_some_iff.mp hsome
  cases heq
  obtain ⟨hs, hnone⟩ := (NodePair.firstFree_spec pair).1 slot hslot
  have hi : p.pairs[i]? = some pair := by
    simpa using List.mk_mem_zipIdx_iff_getElem?.mp hmem
  obtain ⟨pair', hocc, hpair⟩ := NodePair.occupy_spec hs hnone node
  have hview := get_setPair hs hi hpair (p.used + 1)
  have hget : p.get (2 + i * 2 + slot) = none := by
    rw [get_pair p hs, hi, Option.bind_some, hnone]
  refine ⟨2 + i * 2 + slot, ⟨p.roots, p.pairs.setIfInBounds i pair', p.used + 1⟩, ?_, by omega,
    hget, hview, ?_, rfl⟩
  · simp only [alloc, hfree, hi, hocc]
    rfl
  · rw [Counted, liveSlots_eq hview (by omega), if_neg (by simp), Finset.card_insert_of_notMem]
    · exact congrArg (· + 1) hc
    · simp [mem_liveSlots, hget]

theorem release_spec {p : NodePool V maxPrefixes} (hc : p.Counted) {id : Nat} {node : Node V}
    (h : p.get id = some node) (hid : 2 ≤ id) :
    ∃ p', p.release id = .ok p' ∧ p'.get = update p.get id none ∧ p'.Counted := by
  have hlive : id ∈ p.liveSlots := by simp [mem_liveSlots, h, hid]
  obtain ⟨i, slot, hs, rfl⟩ := exists_slot hid
  rw [get_pair p hs] at h
  obtain ⟨pair, hi, hget⟩ := Option.bind_eq_some_iff.mp h
  obtain ⟨pair', hrel, hpair⟩ := NodePair.release_spec hs hget
  have hview := get_setPair hs hi hpair (p.used - 1)
  refine ⟨⟨p.roots, p.pairs.setIfInBounds i pair', p.used - 1⟩, ?_, hview, ?_⟩
  · rw [release, if_neg (by omega), show (2 + i * 2 + slot - 2) / 2 = i by omega,
      show (2 + i * 2 + slot - 2) % 2 = slot by omega, hi]
    simp only [hrel]
    rfl
  · rw [Counted, liveSlots_eq hview (by omega), if_pos rfl, Finset.card_erase_of_mem hlive]
    exact congrArg (· - 1) hc

end NodePool

namespace NodeStore

/-- The live nodes of a store. -/
def view : NodeStore V maxPrefixes → Nat → Option (Node V)
  | pool p, id => p.get id
  | heap nodes free, id => if id ∈ free then none else nodes[id]?

/-- The store is one of the given build and its bookkeeping is consistent: the pool counts its live
slots, and the free list holds each freed node once and no root. -/
def WF : Backend → NodeStore V maxPrefixes → Prop
  | .inline, pool p => p.Counted
  | .alloc, heap nodes free =>
    2 ≤ nodes.length ∧ free.Nodup ∧ ∀ id ∈ free, 2 ≤ id ∧ id < nodes.length
  | _, _ => False

variable {backend : Backend}

theorem WF.inline_of_pool {p : NodePool V maxPrefixes} (h : WF backend (pool p)) :
    backend = .inline := by
  cases backend with
  | inline => rfl
  | alloc => exact h.elim

theorem WF.alloc_of_heap {nodes : List (Node V)} {free : List Nat}
    (h : WF backend (heap nodes free : NodeStore V maxPrefixes)) : backend = .alloc := by
  cases backend with
  | inline => exact h.elim
  | alloc => rfl

theorem get_of_view {s : NodeStore V maxPrefixes} {id : Nat} {node : Node V}
    (h : s.view id = some node) : s.get id = some node := by
  cases s with
  | pool p => exact h
  | heap nodes free =>
    simp only [view] at h
    split at h
    · cases h
    · exact h

theorem index_of_view {s : NodeStore V maxPrefixes} {id : Nat} {node : Node V}
    (h : s.view id = some node) : s.index id = .ok node := by
  rw [index, get_of_view h]

theorem checkCapacity_mono {s : NodeStore V maxPrefixes} {m n : Nat}
    (h : s.checkCapacity n = true) (hmn : m ≤ n) : s.checkCapacity m = true := by
  cases s with
  | pool p =>
    simp only [checkCapacity, ge_iff_le, decide_eq_true_eq] at h ⊢
    omega
  | heap nodes free => rfl

theorem modify_spec {s : NodeStore V maxPrefixes} (hs : s.WF backend) {id : Nat} {node : Node V}
    (h : s.view id = some node) (f : Node V → Node V) :
    ∃ s', s.modify id f = .ok s' ∧ s'.WF backend ∧ s'.view = update s.view id (some (f node)) ∧
      s'.checkCapacity = s.checkCapacity := by
  cases s with
  | pool p =>
    obtain rfl := hs.inline_of_pool
    obtain ⟨p', hmod, hget, hc, hused⟩ := NodePool.modify_spec hs h f
    refine ⟨pool p', by simp only [modify, hmod], hc, hget, ?_⟩
    funext k
    simp [checkCapacity, NodePool.available, hused]
  | heap nodes free =>
    obtain rfl := hs.alloc_of_heap
    have hget := get_of_view h
    simp only [get] at hget
    have hfree : id ∉ free := by
      intro hmem
      simp [view, hmem] at h
    have hlt : id < nodes.length := (List.getElem?_eq_some_iff.mp hget).1
    refine ⟨heap (nodes.set id (f node)) free, by simp only [modify, hget], ?_, ?_, rfl⟩
    · simpa [WF] using hs
    · funext i
      by_cases hi : i = id
      · subst hi
        simp [view, hfree, hlt]
      · simp [view, hi, Ne.symm hi]

theorem alloc_spec {s : NodeStore V maxPrefixes} (hs : s.WF backend)
    (hcap : s.checkCapacity 1 = true) (bits : BitVec 128) (len : Nat) :
    ∃ id s', s.alloc bits len = .ok (id, s') ∧ s'.WF backend ∧ 2 ≤ id ∧ s.view id = none ∧
      s'.view = update s.view id (some (Node.new bits len)) ∧
      ∀ k, s'.checkCapacity k = s.checkCapacity (k + 1) := by
  cases s with
  | pool p =>
    obtain rfl := hs.inline_of_pool
    obtain ⟨id, p', halloc, hid, hnone, hget, hc, hused⟩ :=
      NodePool.alloc_spec hs (by simpa [checkCapacity] using hcap) (Node.new bits len)
    refine ⟨id, pool p', ?_, hc, hid, hnone, hget, fun k => ?_⟩
    · simp only [alloc, halloc]
      rfl
    · simp only [checkCapacity, NodePool.available, hused]
      congr 1
      simp only [ge_iff_le, eq_iff_iff]
      simp only [checkCapacity, NodePool.available, ge_iff_le, decide_eq_true_eq] at hcap
      omega
  | heap nodes free =>
    obtain rfl := hs.alloc_of_heap
    obtain ⟨hlen, hnodup, hfree⟩ := hs
    cases free with
    | nil =>
      refine ⟨nodes.length, heap (nodes ++ [Node.new bits len]) [], rfl, ?_, hlen, ?_, ?_,
        fun _ => rfl⟩
      · simp only [WF, List.length_append]
        exact ⟨by omega, hnodup, by simp⟩
      · simp [view]
      · funext i
        by_cases hi : i = nodes.length
        · subst hi
          simp [view]
        · rcases Nat.lt_or_gt_of_ne hi with h | h
          · simp [view, hi, List.getElem?_append_left h]
          · simp [view, hi, List.getElem?_eq_none (show (nodes ++ [Node.new bits len]).length ≤ i by
              simp; omega), List.getElem?_eq_none (Nat.le_of_lt h)]
    | cons id free =>
      obtain ⟨hid, hlt⟩ := hfree id (by simp)
      obtain ⟨hnot, hnodup'⟩ := List.nodup_cons.mp hnodup
      refine ⟨id, heap (nodes.set id (Node.new bits len)) free, by simp [alloc, hlt], ?_, hid, ?_,
        ?_, fun _ => rfl⟩
      · simp only [WF, List.length_set]
        exact ⟨hlen, hnodup', fun i hi => hfree i (by simp [hi])⟩
      · simp [view]
      · funext i
        by_cases hi : i = id
        · subst hi
          simp [view, hnot, hlt]
        · simp [view, hi, Ne.symm hi]

theorem release_spec {s : NodeStore V maxPrefixes} (hs : s.WF backend) {id : Nat} {node : Node V}
    (h : s.view id = some node) (hid : 2 ≤ id) :
    ∃ s', s.release id = .ok s' ∧ s'.WF backend ∧ s'.view = update s.view id none := by
  cases s with
  | pool p =>
    obtain rfl := hs.inline_of_pool
    obtain ⟨p', hrel, hget, hc⟩ := NodePool.release_spec hs h hid
    exact ⟨pool p', by simp only [release, hrel]; rfl, hc, hget⟩
  | heap nodes free =>
    obtain rfl := hs.alloc_of_heap
    obtain ⟨hlen, hnodup, hfree⟩ := hs
    have hnot : id ∉ free := by
      intro hmem
      simp [view, hmem] at h
    have hlt : id < nodes.length := (List.getElem?_eq_some_iff.mp (get_of_view h)).1
    refine ⟨heap nodes (id :: free), rfl, ⟨hlen, List.nodup_cons.mpr ⟨hnot, hnodup⟩, ?_⟩, ?_⟩
    · intro i hi
      rcases List.mem_cons.mp hi with rfl | hi
      · exact ⟨hid, hlt⟩
      · exact hfree i hi
    · funext i
      by_cases hi : i = id
      · subst hi
        simp [view]
      · simp [view, hi]

theorem wf_new (backend : Backend) :
    (new maxPrefixes backend : NodeStore V maxPrefixes).WF backend := by
  cases backend with
  | inline =>
    have hlive : (NodePool.new maxPrefixes : NodePool V maxPrefixes).liveSlots = ∅ := by
      ext id
      rw [NodePool.mem_liveSlots]
      simp only [Finset.notMem_empty, iff_false, not_and, not_not]
      intro hid
      obtain ⟨i, slot, hs, rfl⟩ := NodePool.exists_slot hid
      rw [NodePool.get_pair _ hs, NodePool.new, Vector.getElem?_replicate]
      split <;> simp
    rw [new, WF, NodePool.Counted, hlive]
    rfl
  | alloc => simp [new, WF]

theorem view_new (backend : Backend) (id : Nat) :
    (new maxPrefixes backend : NodeStore V maxPrefixes).view id =
      if id < 2 then some (Node.new 0 0) else none := by
  cases backend with
  | inline =>
    by_cases hr : id < 2
    · rw [new, view, NodePool.new, NodePool.get, if_pos hr, if_pos hr, Vector.getElem?_replicate,
        if_pos hr]
    · obtain ⟨i, slot, hs, rfl⟩ := NodePool.exists_slot (Nat.le_of_not_lt hr)
      rw [new, view, if_neg hr, NodePool.get_pair _ hs, NodePool.new, Vector.getElem?_replicate]
      split <;> simp
  | alloc =>
    match id with
    | 0 => rfl
    | 1 => rfl
    | id + 2 => simp [new, view]

end NodeStore

end Microtun
