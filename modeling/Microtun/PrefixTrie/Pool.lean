import Microtun.PrefixTrie.Correct
import Mathlib.Data.Finset.Prod

/-! The shape of the trie in allocation-free builds: its nodes form two compressed trees, every live
slot is one of their nodes, and so `maxPrefixes` pairs of slots are enough for `maxPrefixes`
prefixes. -/

namespace Microtun

open Function Radix

variable {V : Type} {maxPrefixes : Nat}

/-! ### Links between nodes -/

/-- The node at `i` has the child `j` for some bit. -/
def Links (view : Nat → Option (Node V)) (i j : Nat) : Prop :=
  ∃ nd b, view i = some nd ∧ nd.children.get b = some j

section Represents

variable {view : Nat → Option (Node V)} {t : RadixTree V} {o : Option Nat} {F : Set Nat}

theorem Represents.mem_of_link (h : Represents view t o F) {j : Nat} (ho : o = some j) : j ∈ F := by
  cases t with
  | nil =>
    rw [h.1] at ho
    cases ho
  | node e v c =>
    obtain ⟨id, nd, G, hid, -, -, -, -, -, -, -, rfl⟩ := h
    exact Or.inl (Option.some.inj (ho.symm.trans hid))

theorem Represents.closed (h : Represents view t o F) {i j : Nat} (hi : i ∈ F)
    (hlink : Links view i j) : j ∈ F := by
  induction t generalizing o F with
  | nil =>
    obtain ⟨-, rfl⟩ := h
    exact absurd hi (Set.notMem_empty i)
  | node e v c ih =>
    obtain ⟨id, nd, G, rfl, hid, -, -, -, hkids, -, -, rfl⟩ := h
    rcases hi with rfl | ⟨b, hi⟩
    · obtain ⟨nd', b, hnd', hj⟩ := hlink
      obtain rfl : nd = nd' := Option.some.inj (hid.symm.trans hnd')
      exact Or.inr ⟨b, (hkids b).mem_of_link hj⟩
    · exact Or.inr ⟨b, ih b (hkids b) hi⟩

theorem Represents.reachable (h : Represents view t o F) {i j : Nat} (ho : o = some i)
    (hj : j ∈ F) : Relation.ReflTransGen (Links view) i j := by
  induction t generalizing o F i with
  | nil =>
    obtain ⟨-, rfl⟩ := h
    exact absurd hj (Set.notMem_empty j)
  | node e v c ih =>
    obtain ⟨id, nd, G, hid', hid, -, -, -, hkids, -, -, rfl⟩ := h
    obtain rfl : i = id := Option.some.inj (ho.symm.trans hid')
    rcases hj with rfl | ⟨b, hj⟩
    · exact .refl
    · obtain ⟨child, hchild⟩ : ∃ child, nd.children.get b = some child := by
        rw [← Option.ne_none_iff_exists', Ne, (hkids b).link_eq_none]
        intro hnil
        have hb := hkids b
        rw [hnil] at hb
        rw [hb.2] at hj
        exact hj
      exact .head ⟨nd, b, hid, hchild⟩ (ih b (hkids b) hchild hj)

/-- Every node of a well-formed tree has a nonempty edge with no bits past it, and a value or two
children. -/
theorem Represents.shape (h : Represents view t o F) (hwf : t.WF) {i : Nat} (hi : i ∈ F) :
    ∃ nd e, view i = some nd ∧ Encodes nd.bits e ∧ nd.len = e.length ∧ e ≠ [] ∧
      (nd.value ≠ none ∨ ∀ b, nd.children.get b ≠ none) := by
  induction t generalizing o F with
  | nil =>
    obtain ⟨-, rfl⟩ := h
    exact absurd hi (Set.notMem_empty i)
  | node e v c ih =>
    obtain ⟨id, nd, G, rfl, hid, he, hlen, hv, hkids, -, -, rfl⟩ := h
    rcases hi with rfl | ⟨b, hi⟩
    · refine ⟨nd, e, hid, he, hlen, hwf.1, hwf.2.1.imp (fun h => hv ▸ h) fun h b => ?_⟩
      rw [Ne, (hkids b).link_eq_none]
      exact h b
    · exact ih b (hkids b) (hwf.2.2 b).2 hi

/-- A node starts with the bit that leads to it. -/
theorem Represents.first_bit (h : Represents view t o F)
    (hwf : ∀ e v c, t = .node e v c → RadixTree.Kids c) {i j : Nat} (hi : i ∈ F) {b : Bool}
    {nd nd' : Node V} (hnd : view i = some nd) (hlink : nd.children.get b = some j)
    (hnd' : view j = some nd') : bit nd'.bits 0 = b := by
  induction t generalizing o F with
  | nil =>
    obtain ⟨-, rfl⟩ := h
    exact absurd hi (Set.notMem_empty i)
  | node e v c ih =>
    have hkidsWF := hwf e v c rfl
    obtain ⟨id, nd₀, G, rfl, hid, -, -, -, hkids, -, -, rfl⟩ := h
    rcases hi with rfl | ⟨a, hi⟩
    · obtain rfl : nd₀ = nd := Option.some.inj (hid.symm.trans hnd)
      have hb := hkids b
      have hs := (hkidsWF b).1
      cases hc : c b with
      | nil =>
        rw [hc] at hb
        rw [hb.1] at hlink
        cases hlink
      | node ce cv cc =>
        rw [hc] at hb hs
        obtain ⟨child, cnd, -, hchild, hcid, hce, -⟩ := hb
        obtain rfl : j = child := Option.some.inj (hlink.symm.trans hchild)
        obtain rfl : nd' = cnd := Option.some.inj (hnd'.symm.trans hcid)
        have hhead := hs.resolve_left (by simp)
        obtain ⟨r, rfl⟩ : ∃ r, ce = b :: r := by
          cases ce <;> simp_all
        exact bit_of_drop hce (r := r) List.drop_zero
    · refine ih a (hkids a) (fun e' v' c' hc => ?_) hi
      have := (hkidsWF a).2
      rw [hc] at this
      exact this.2.2

/-- A tree has as many nodes as the set of their identifiers. -/
theorem Represents.ncard (h : Represents view t o F) : F.Finite ∧ F.ncard = t.size := by
  induction t generalizing o F with
  | nil =>
    obtain ⟨-, rfl⟩ := h
    exact ⟨Set.finite_empty, Set.ncard_empty _⟩
  | node e v c ih =>
    obtain ⟨id, nd, G, rfl, -, -, -, -, hkids, hdis, hnot, rfl⟩ := h
    have hF : {i | i = id ∨ ∃ b, i ∈ G b} = insert id (G false ∪ G true) := by
      ext i
      simp
    obtain ⟨hf, hfc⟩ := ih false (hkids false)
    obtain ⟨ht, htc⟩ := ih true (hkids true)
    have hdisj : Disjoint (G false) (G true) := by
      rw [Set.disjoint_left]
      intro i hi hi'
      simpa using hdis _ _ i hi hi'
    have hid : id ∉ G false ∪ G true := by
      rintro (h | h)
      · exact hnot _ h
      · exact hnot _ h
    rw [hF]
    refine ⟨(hf.union ht).insert id, ?_⟩
    rw [Set.ncard_insert_of_notMem hid (hf.union ht), Set.ncard_union_eq hdisj hf ht, hfc, htc,
      RadixTree.size]
    omega

end Represents

namespace PrefixTrie

/-- The stored prefixes other than the default routes. -/
def Map.specific (m : Map V) : List IpCidr := m.keys.filter fun net => net.networkLength ≠ 0

variable {p : NodePool V maxPrefixes} {T : Shape V} {m : Map V}

/-- The trees below the roots hold no more values than the map has prefixes of nonzero length. -/
theorem count_le_specific (h : Models .inline (.pool p) T m) :
    (T.kids false false).count + (T.kids false true).count +
      ((T.kids true false).count + (T.kids true true).count) ≤ m.specific.length := by
  have hsub : ∀ f b e v c, T.kids f b = .node e v c → RadixTree.Kids c := by
    intro f b e v c hc
    have := (h.kids f b).2
    rw [hc] at this
    exact this.2.2
  have hstarts : ∀ f b k, k ∈ (T.kids f b).keys → k.head? = some b := by
    intro f b k hk
    rw [RadixTree.mem_keys (hsub f b)] at hk
    cases k with
    | nil => exact absurd (h.kids f b).2.get_nil_key hk
    | cons a r =>
      by_contra hne
      exact hk ((h.kids f b).1.get_eq_none (by simpa using hne) r)
  let K : Bool → Finset (List Bool) := fun f => (T.kids f false).keys ∪ (T.kids f true).keys
  have hcard : ∀ f, (K f).card = (T.kids f false).count + (T.kids f true).count := by
    intro f
    rw [Finset.card_union_of_disjoint, RadixTree.card_keys (hsub f false),
      RadixTree.card_keys (hsub f true)]
    rw [Finset.disjoint_left]
    intro k hk hk'
    simpa using (hstarts f false k hk).symm.trans (hstarts f true k hk')
  -- Each stored key is the bits of a prefix of the map.
  have hkeys : ∀ f, ∀ k ∈ K f, ∃ net ∈ m.specific, net.family = f ∧ net.bits = k := by
    intro f k hk
    obtain ⟨b, hb⟩ : ∃ b, k ∈ (T.kids f b).keys := by
      rcases Finset.mem_union.mp hk with hk | hk
      · exact ⟨false, hk⟩
      · exact ⟨true, hk⟩
    have hhead := hstarts f b k hb
    obtain ⟨r, rfl⟩ : ∃ r, k = b :: r := by
      cases k <;> simp_all
    rw [RadixTree.mem_keys (hsub f b)] at hb
    obtain ⟨net, hf, hbits⟩ := h.stored f (b :: r) hb
    refine ⟨net, ?_, hf, hbits⟩
    have hlook := h.get net
    rw [hf, hbits, RadixTree.getBelow_cons] at hlook
    rw [hlook] at hb
    rw [Map.specific, List.mem_filter]
    refine ⟨?_, by rw [← net.length_bits, hbits]; simp⟩
    by_contra hnot
    exact hb (AList.lookup_eq_none.mpr hnot)
  have hdisj : Disjoint ({false} ×ˢ K false) ({true} ×ˢ K true) := by
    rw [Finset.disjoint_left]
    rintro ⟨f, k⟩ hk hk'
    simp only [Finset.mem_product, Finset.mem_singleton] at hk hk'
    exact absurd (hk.1.symm.trans hk'.1) (by simp)
  calc (T.kids false false).count + (T.kids false true).count +
      ((T.kids true false).count + (T.kids true true).count)
      = (({false} ×ˢ K false) ∪ ({true} ×ˢ K true)).card := by
        rw [Finset.card_union_of_disjoint hdisj]
        simp [hcard]
    _ ≤ (m.specific.toFinset.image fun net => (net.family, net.bits)).card := by
        refine Finset.card_le_card fun ⟨f, k⟩ hk => ?_
        have hk' : k ∈ K f := by
          rcases Finset.mem_union.mp hk with hk | hk
          all_goals
            simp only [Finset.mem_product, Finset.mem_singleton] at hk
            exact hk.1 ▸ hk.2
        obtain ⟨net, hnet, hf, hb⟩ := hkeys f k hk'
        exact Finset.mem_image.mpr ⟨net, by simpa using hnet, by rw [hf, hb]⟩
    _ ≤ m.specific.toFinset.card := Finset.card_image_le
    _ ≤ m.specific.length := List.toFinset_card_le _

theorem rootOf_lt (f : Bool) : rootOf f < 2 := by cases f <;> decide

theorem mem_liveSlots_iff (h : Models .inline (.pool p) T m) (id : Nat) :
    id ∈ p.liveSlots ↔ 2 ≤ id ∧ ∃ f, id ∈ T.nodes f := by
  rw [NodePool.mem_liveSlots]
  refine and_congr_right fun _ => ⟨h.live id, ?_⟩
  rintro ⟨f, hf⟩
  exact (h.represents f).live hf

/-- The slots in use are at most twice the prefixes of nonzero length. -/
theorem used_le (h : Models .inline (.pool p) T m) : p.used ≤ 2 * m.specific.length := by
  have hcount := count_le_specific h
  have hsize : ∀ f b, (T.kids f b).size ≤ 2 * (T.kids f b).count := fun f b =>
    (h.kids f b).2.size_le
  have hcard : ∀ f, (T.nodes f).Finite ∧
      (T.nodes f).ncard = 1 + (T.kids f false).size + (T.kids f true).size := fun f =>
    (h.represents f).ncard
  have hroot : ∀ f, rootOf f ∈ T.nodes f := fun f => (h.represents f).mem_of_link rfl
  have hdisj : Disjoint (T.nodes false) (T.nodes true) := by
    rw [Set.disjoint_left]
    intro i hi hi'
    simpa using h.disjoint _ _ i hi hi'
  have hsub : ((p.liveSlots ∪ {0, 1} : Finset Nat) : Set Nat) = T.nodes false ∪ T.nodes true := by
    ext i
    simp only [Finset.coe_union, Set.mem_union, Finset.mem_coe, mem_liveSlots_iff h,
      Finset.mem_insert, Finset.mem_singleton, Bool.exists_bool]
    constructor
    · rintro (⟨-, hi⟩ | rfl | rfl)
      · exact hi
      · exact Or.inl (hroot false)
      · exact Or.inr (hroot true)
    · intro hi
      by_cases h2 : 2 ≤ i
      · exact Or.inl ⟨h2, hi⟩
      · exact Or.inr (by omega)
  have hslots : (p.liveSlots ∪ {0, 1}).card = p.liveSlots.card + 2 := by
    rw [Finset.card_union_of_disjoint]
    · rfl
    · rw [Finset.disjoint_left]
      intro i hi hi'
      have := (mem_liveSlots_iff h i).mp hi
      simp at hi'
      omega
  have hncard := congrArg Set.ncard hsub
  rw [Set.ncard_coe_finset, hslots, Set.ncard_union_eq hdisj (hcard false).1 (hcard true).1,
    (hcard false).2, (hcard true).2] at hncard
  have hused : p.used = p.liveSlots.card := h.wf
  have h1 := hsize false false
  have h2 := hsize false true
  have h3 := hsize true false
  have h4 := hsize true true
  omega

/-- In both builds an insertion succeeds whenever fewer than `maxPrefixes` prefixes of nonzero
length are stored. -/
theorem insert_of_lt {backend : Backend} {t : PrefixTrie V maxPrefixes} {T : Shape V} {m : Map V}
    (h : Models backend t.nodes T m) (hcount : m.specific.length < maxPrefixes) (net : IpCidr)
    (value : V) : ∃ t' T', t.insert net value = .ok (.ok (m.lookup net), t') ∧
      Models backend t'.nodes T' (AList.insert net value m) := by
  rcases insert_spec h net value with ⟨-, hcap⟩ | hins
  · obtain ⟨s⟩ := t
    cases s with
    | heap nodes free => cases hcap
    | pool p =>
      obtain rfl := h.wf.inline_of_pool
      have hused := used_le h
      simp only [NodeStore.checkCapacity, NodePool.available, ge_iff_le,
        decide_eq_false_iff_not] at hcap
      omega
  · exact hins

/-- The allocation-free trie after every sequence of insertions and removals, none of which panics.
Every live node but the roots holds a value or has two children and has a nonempty edge with no bits
past its length, and every child starts with the bit that leads to it.  The counter is the number of
live slots, which are the nodes reachable from the roots, so none is lost or released twice.  And an
insertion succeeds whenever fewer than `maxPrefixes` prefixes of nonzero length are stored. -/
theorem pool_invariant (ops : List (Op V)) :
    ∃ (p : NodePool V maxPrefixes) (m : Map V), run .inline ops = .ok (⟨.pool p⟩, m) ∧
      (∀ id nd, 2 ≤ id → p.get id = some nd →
        (nd.value ≠ none ∨ ∀ b, nd.children.get b ≠ none) ∧ 0 < nd.len ∧ nd.len ≤ 128 ∧
          ∀ i, nd.len ≤ i → nd.bits.getMsbD i = false) ∧
      (∀ i nd b j nd', p.get i = some nd → nd.children.get b = some j → p.get j = some nd' →
        bit nd'.bits 0 = b) ∧ p.used = p.liveSlots.card ∧ (p.liveSlots : Set Nat) =
        {id | 2 ≤ id ∧ ∃ f, Relation.ReflTransGen (Links p.get) (rootOf f) id} ∧
      (∀ net, ∃ value, (⟨.pool p⟩ : PrefixTrie V maxPrefixes).get net = .ok value) ∧
      (∀ addr, ∃ value, (⟨.pool p⟩ : PrefixTrie V maxPrefixes).lookup addr = .ok value) ∧
      ∀ net value, m.specific.length < maxPrefixes →
        ∃ previous t, (⟨.pool p⟩ : PrefixTrie V maxPrefixes).insert net value =
          .ok (.ok previous, t) := by
  obtain ⟨⟨s⟩, m, T, hrun, h⟩ := run_spec maxPrefixes .inline ops
  cases s with
  | heap nodes free => exact h.wf.elim
  | pool p =>
    have hnode : ∀ id, 2 ≤ id → p.get id ≠ none → ∃ f b, ∃ G : Set Nat, ∃ o,
        Represents p.get (T.kids f b) o G ∧ id ∈ G := by
      intro id hid hlive
      obtain ⟨f, hf⟩ := h.live id hlive
      obtain ⟨_, nd, G, ⟨⟩, -, -, -, -, hkids, -, -, hnodes⟩ := h.represents f
      rw [hnodes] at hf
      rcases hf with rfl | ⟨b, hb⟩
      · exact absurd (rootOf_lt f) (by omega)
      · exact ⟨f, b, G b, _, hkids b, hb⟩
    refine ⟨p, m, hrun, fun id nd hid hnd => ?_, fun i nd b j nd' hnd hlink hnd' => ?_, h.wf, ?_,
      fun net => ⟨_, get_spec h net⟩, fun addr => ?_, fun net value hcount => ?_⟩
    · obtain ⟨f, b, G, o, hrep, hmem⟩ := hnode id hid (by simp [hnd])
      obtain ⟨nd', e, hnd', he, hlen, hne, hfull⟩ := hrep.shape (h.kids f b).2 hmem
      obtain rfl : nd = nd' := Option.some.inj (hnd.symm.trans hnd')
      refine ⟨hfull, ?_, hlen ▸ he.1, fun i hi => he.getMsbD_of_le (hlen ▸ hi)⟩
      rw [hlen]
      exact List.length_pos_of_ne_nil hne
    · obtain ⟨f, hf⟩ := h.live i (fun e : p.get i = none => by simp [hnd] at e)
      exact (h.represents f).first_bit (by rintro _ _ _ ⟨⟩; exact h.kids f) hf hnd hlink hnd'
    · ext id
      simp only [Finset.mem_coe, mem_liveSlots_iff h, Set.mem_ofPred_eq]
      refine and_congr_right fun hid => exists_congr fun f => ⟨?_, fun hreach => ?_⟩
      · exact (h.represents f).reachable rfl
      · clear hid
        induction hreach with
        | refl => exact (h.represents f).mem_of_link rfl
        | tail _ hlink ih => exact (h.represents f).closed ih hlink
    · obtain ⟨r, hr, -⟩ := lookup_spec h addr
      exact ⟨r, hr⟩
    · obtain ⟨t', T', hins, -⟩ := insert_of_lt h hcount net value
      exact ⟨_, t', hins⟩

end PrefixTrie

end Microtun
