import Microtun.PrefixTrie.Store
import Mathlib.Data.Set.Card

/-! The trie of linked nodes represents a radix tree: `Represents` ties the live nodes below an
identifier to a tree, and every operation of the source does to the nodes what the operation of the
tree does to it. -/

namespace Microtun

open Function Radix

variable {V : Type} {maxPrefixes : Nat} {backend : Backend}

/-! ### Words of bits -/

theorem bit_eq (x : BitVec 128) {i : Nat} (hi : i < 128) : bit x i = x.getMsbD i := by
  rw [bit, BitVec.and_one_eq_setWidth_ofBool_getLsbD, BitVec.getLsbD_ushiftRight,
    BitVec.getMsbD_eq_getLsbD, decide_eq_true hi, Bool.true_and, Nat.add_zero]
  cases x.getLsbD (127 - i) <;> decide

theorem shl_eq (x : BitVec 128) (n : Nat) : shl x n = x <<< n := by
  rw [shl]
  split
  · exact (BitVec.shiftLeft_eq_zero ‹_›).symm
  · rfl

theorem shr_eq (x : BitVec 128) (n : Nat) : shr x n = x >>> n := by
  rw [shr]
  split
  · exact (BitVec.ushiftRight_eq_zero ‹_›).symm
  · rfl

theorem mask_eq (x : BitVec 128) {n : Nat} (hn : n ≤ 128) :
    mask x n = x &&& BitVec.allOnes 128 <<< (128 - n) := by
  rw [mask]
  split
  · subst n
    simp
  · split
    · obtain rfl : n = 128 := by omega
      exact (BitVec.and_allOnes).symm
    · simp

variable {x y key : BitVec 128} {s t k : List Bool}

theorem encodes_shl (h : Encodes x s) (n : Nat) : Encodes (shl x n) (s.drop n) :=
  shl_eq x n ▸ h.shiftLeft n

theorem encodes_new (h : Encodes x s) {n : Nat} (hn : n ≤ s.length) :
    Encodes (Node.new x n : Node V).bits (s.take n) := by
  rw [Node.new, mask_eq x (hn.trans h.1)]
  exact h.mask hn

theorem encodes_merge (hx : Encodes x s) (hy : Encodes y t) (hlen : s.length + t.length ≤ 128) :
    Encodes (x ||| shr y s.length) (s ++ t) :=
  shr_eq y s.length ▸ hx.append hy hlen

theorem commonLen_eq (hx : Encodes x s) (hy : Encodes y t) :
    commonLen x y (min t.length s.length) = shared s t := by
  rw [commonLen, Nat.min_comm t.length]
  exact hx.clz_xor hy

theorem bit_of_drop (h : Encodes key k) {pos : Nat} {b : Bool} {r : List Bool}
    (hk : k.drop pos = b :: r) : bit key pos = b := by
  have hlt : pos < k.length := by
    by_contra hge
    rw [List.drop_eq_nil_of_le (by omega)] at hk
    cases hk
  have hget : k[pos]? = some b := by rw [← List.head?_drop, hk]; rfl
  rw [bit_eq key (by have := h.1; omega), h.2, List.getD_eq_getElem?_getD, hget]
  rfl

theorem length_of_drop {pos : Nat} {rest : List Bool} (hpos : pos ≤ k.length)
    (hk : k.drop pos = rest) : k.length = pos + rest.length := by
  rw [← hk, List.length_drop]
  omega

/-! ### Nodes as trees -/

/-- The nodes `view` below the link `o` are the tree, and the set holds exactly their
identifiers. -/
def Represents (view : Nat → Option (Node V)) : RadixTree V → Option Nat → Set Nat → Prop
  | .nil, o, F => o = none ∧ F = ∅
  | .node e v c, o, F => ∃ (id : Nat) (nd : Node V) (G : Bool → Set Nat), o = some id ∧
      view id = some nd ∧ Encodes nd.bits e ∧
      nd.len = e.length ∧ nd.value = v ∧ (∀ b, Represents view (c b) (nd.children.get b) (G b)) ∧
      (∀ b b' i, i ∈ G b → i ∈ G b' → b = b') ∧ (∀ b, id ∉ G b) ∧ F = {i | i = id ∨ ∃ b, i ∈ G b}

theorem Represents.congr {view view' : Nat → Option (Node V)} {t : RadixTree V} {o : Option Nat}
    {F : Set Nat} (h : Represents view t o F) (heq : ∀ i ∈ F, view' i = view i) :
    Represents view' t o F := by
  induction t generalizing o F with
  | nil => exact h
  | node e v c ih =>
    obtain ⟨id, nd, G, rfl, hid, he, hlen, hv, hkids, hdis, hnot, rfl⟩ := h
    refine ⟨id, nd, G, rfl, (heq id (Or.inl rfl)).trans hid, he, hlen, hv, fun b => ?_, hdis, hnot,
      rfl⟩
    exact ih b (hkids b) fun i hi => heq i (Or.inr ⟨b, hi⟩)

theorem Represents.live {view : Nat → Option (Node V)} {t : RadixTree V} {o : Option Nat}
    {F : Set Nat} (h : Represents view t o F) {i : Nat} (hi : i ∈ F) : view i ≠ none := by
  induction t generalizing o F with
  | nil =>
    obtain ⟨-, rfl⟩ := h
    exact absurd hi (Set.notMem_empty i)
  | node e v c ih =>
    obtain ⟨id, nd, G, rfl, hid, -, -, -, hkids, -, -, rfl⟩ := h
    rcases hi with rfl | ⟨b, hi⟩
    · simp [hid]
    · exact ih b (hkids b) hi

theorem Represents.link_eq_none {view : Nat → Option (Node V)} {t : RadixTree V} {o : Option Nat}
    {F : Set Nat} (h : Represents view t o F) : o = none ↔ t = .nil := by
  cases t with
  | nil => simpa using h.1
  | node e v c =>
    obtain ⟨id, nd, G, rfl, -⟩ := h
    simp

/-- A node represents a tree with one subtree exchanged when its link for that subtree is
exchanged. -/
theorem represents_update (view : Nat → Option (Node V)) (nd : Node V) (G : Bool → Set Nat)
    {view' : Nat → Option (Node V)} {e : List Bool} {v : Option V} {c : Bool → RadixTree V}
    {id : Nat}
    (he : Encodes nd.bits e) (hlen : nd.len = e.length)
    (hkids : ∀ b, Represents view (c b) (nd.children.get b) (G b))
    (hnot : ∀ b, id ∉ G b) {b : Bool} {t' : RadixTree V} {o' : Option Nat} {H : Set Nat}
    (hid : view' id = some { nd with children := nd.children.set b o', value := v })
    (hnew : Represents view' t' o' H) (hframe : ∀ i ∈ G (!b), view' i = view i)
    (hnotH : id ∉ H) (hdisH : ∀ i ∈ H, i ∉ G (!b)) :
    Represents view' (.node e v (update c b t')) (some id)
      {i | i = id ∨ i ∈ H ∨ i ∈ G (!b)} := by
  refine ⟨id, _, update G b H, rfl, hid, he, hlen, rfl, fun a => ?_, fun a a' i hi hi' => ?_,
    fun a => ?_, ?_⟩
  · by_cases ha : a = b
    · subst ha
      simpa using hnew
    · obtain rfl : a = !b := by cases a <;> cases b <;> simp_all
      simp only [Children.get_set, if_neg ha, update_of_ne ha]
      exact (hkids _).congr hframe
  · cases a <;> cases a' <;> cases b <;> simp_all
  · by_cases ha : a = b
    · subst ha
      simpa using hnotH
    · rw [update_of_ne ha]
      exact hnot a
  · ext i
    simp only [Set.mem_ofPred_eq]
    cases b <;> simp [or_comm]

theorem represents_leaf {view : Nat → Option (Node V)} {e : List Bool} {v : V} {id : Nat}
    {nd : Node V} (hid : view id = some nd) (he : Encodes nd.bits e) (hlen : nd.len = e.length)
    (hv : nd.value = some v) (hc : nd.children = .empty) :
    Represents view (.leaf e v) (some id) {id} := by
  refine ⟨id, nd, fun _ => ∅, rfl, hid, he, hlen, hv, fun b => ?_, by simp, by simp, by simp⟩
  exact ⟨by rw [hc, Children.get_empty], rfl⟩

/-! ### Reading -/

variable {st : NodeStore V maxPrefixes}

/-- The edge into a child is followed exactly when it is a prefix of the bits that are left. -/
theorem edgeMatch_eq {child : Nat} {nd : Node V} {e rest : List Bool} {w : BitVec 128}
    (hview : st.view child = some nd) (he : Encodes nd.bits e) (hlen : nd.len = e.length)
    (hrest : Encodes w rest) :
    PrefixTrie.edgeMatch st child w rest.length = if e <+: rest then some e.length else none := by
  simp only [PrefixTrie.edgeMatch, NodeStore.get_of_view hview, hlen, Option.bind_eq_bind,
    Option.bind_some]
  have hcommon := commonLen_eq hrest he
  by_cases hpre : e <+: rest
  · have hle := hpre.length_le
    rw [Nat.min_eq_left hle, (shared_eq_length_iff _ _).mpr hpre] at hcommon
    rw [if_pos ⟨hle, hcommon⟩, if_pos hpre]
  · rw [if_neg, if_neg hpre]
    rintro ⟨hle, hc⟩
    rw [Nat.min_eq_left hle] at hcommon
    exact hpre ((shared_eq_length_iff _ _).mp (hcommon.symm.trans hc))

theorem getLoop_eq (hkey : Encodes key k) (t : RadixTree V) :
    ∀ {e : List Bool} {v : Option V} {c : Bool → RadixTree V} {id pos fuel : Nat} {F : Set Nat},
      t = .node e v c → RadixTree.Kids c → Represents st.view t (some id) F → pos ≤ k.length →
      k.length - pos < fuel → PrefixTrie.getLoop st key k.length fuel id pos =
        .ok (RadixTree.getBelow v c (k.drop pos)) := by
  induction t with
  | nil => intro e v c id pos fuel F h; cases h
  | node e v c ih =>
    rintro _ _ _ id pos fuel F ⟨⟩ hwf h hpos hfuel
    obtain ⟨_, nd, G, ⟨⟩, hid, -, -, hv, hkids, -, -, -⟩ := h
    obtain ⟨fuel, rfl⟩ : ∃ f, fuel = f + 1 := ⟨fuel - 1, by omega⟩
    simp only [PrefixTrie.getLoop, NodeStore.get_of_view hid]
    cases hk : k.drop pos with
    | nil =>
      have : ¬ pos < k.length := by simpa using List.drop_eq_nil_iff.mp hk
      simp [this, hv, RadixTree.getBelow]
    | cons b r =>
      have hlen := length_of_drop hpos hk
      have hlt : pos < k.length := by simp at hlen; omega
      have hrest : Encodes (shl key pos) (b :: r) := hk ▸ encodes_shl hkey pos
      rw [if_pos hlt, bit_of_drop hkey hk, RadixTree.getBelow_cons]
      have hb := hkids b
      cases hc : c b with
      | nil =>
        rw [hc] at hb
        simp [hb.1]
      | node ce cv cc =>
        rw [hc] at hb
        obtain ⟨hstarts, hwfb⟩ := hwf b
        rw [hc] at hwfb
        obtain ⟨child, cnd, G', hchild, hcid, hce, hclen, -⟩ := hb
        have hrep := hc ▸ hkids b
        rw [hchild] at hrep ⊢
        simp only
        rw [show k.length - pos = (b :: r).length by omega, edgeMatch_eq hcid hce hclen hrest,
          RadixTree.get_node]
        by_cases hpre : ce <+: b :: r
        · have hle := hpre.length_le
          have hpos' : 0 < ce.length := List.length_pos_of_ne_nil hwfb.1
          rw [if_pos hpre, if_pos hpre]
          simp only
          rw [if_neg (by omega), ih b hc hwfb.2.2 (hc ▸ hrep) (by omega) (by omega), ← hk,
            List.drop_drop]
        · rw [if_neg hpre, if_neg hpre]

theorem lookupLoop_eq (hkey : Encodes key k) (t : RadixTree V) :
    ∀ {e : List Bool} {v : Option V} {c : Bool → RadixTree V} {id pos fuel : Nat} {F : Set Nat}
      (best : Option V),
      t = .node e v c → RadixTree.Kids c → Represents st.view t (some id) F → pos ≤ k.length →
      k.length - pos < fuel → PrefixTrie.lookupLoop st key k.length fuel id pos (v.or best) =
        .ok ((RadixTree.node [] v c).lookup best (k.drop pos)) := by
  induction t with
  | nil => intro e v c id pos fuel F best h; cases h
  | node e v c ih =>
    rintro _ _ _ id pos fuel F best ⟨⟩ hwf h hpos hfuel
    obtain ⟨_, nd, G, ⟨⟩, hid, -, -, -, hkids, -, -, -⟩ := h
    obtain ⟨fuel, rfl⟩ : ∃ f, fuel = f + 1 := ⟨fuel - 1, by omega⟩
    simp only [PrefixTrie.lookupLoop, NodeStore.get_of_view hid, RadixTree.lookup,
      List.nil_prefix, if_true, List.length_nil, List.drop_zero]
    cases hk : k.drop pos with
    | nil =>
      have : ¬ pos < k.length := by simpa using List.drop_eq_nil_iff.mp hk
      simp [this]
    | cons b r =>
      have hlen := length_of_drop hpos hk
      have hlt : pos < k.length := by simp at hlen; omega
      have hrest : Encodes (shl key pos) (b :: r) := hk ▸ encodes_shl hkey pos
      rw [if_pos hlt, bit_of_drop hkey hk]
      have hb := hkids b
      cases hc : c b with
      | nil =>
        rw [hc] at hb
        simp [hb.1, hc, RadixTree.lookup]
      | node ce cv cc =>
        rw [hc] at hb
        obtain ⟨hstarts, hwfb⟩ := hwf b
        rw [hc] at hwfb
        obtain ⟨child, cnd, G', hchild, hcid, hce, hclen, hcv, -⟩ := hb
        have hrep := hc ▸ hkids b
        rw [hchild] at hrep ⊢
        simp only
        rw [show k.length - pos = (b :: r).length by omega, edgeMatch_eq hcid hce hclen hrest]
        by_cases hpre : ce <+: b :: r
        · have hle := hpre.length_le
          have hpos' : 0 < ce.length := List.length_pos_of_ne_nil hwfb.1
          rw [if_pos hpre, hc, RadixTree.lookup_follows hpre]
          simp only
          rw [if_neg (by omega), NodeStore.get_of_view hcid]
          simp only [hcv]
          rw [ih b _ hc hwfb.2.2 (hc ▸ hrep) (by omega) (by omega), ← List.drop_drop, hk]
        · rw [if_neg hpre, hc, RadixTree.lookup_leaves hpre]

/-! ### Insertion -/

/-- From `s` to `s'` the nodes below `id`, which were those in `F`, came to represent `t'`: they
kept their places, new ones were taken from the free nodes, and no other node was touched. -/
structure Grown (backend : Backend) (s s' : NodeStore V maxPrefixes) (t' : RadixTree V) (id : Nat)
    (F : Set Nat) :
    Prop where
  wf : s'.WF backend
  grown : ∃ F', Represents s'.view t' (some id) F' ∧ F ⊆ F' ∧
    (∀ i ∈ F', i ∉ F → s.view i = none ∧ 2 ≤ i) ∧ ∀ i ∉ F', s'.view i = s.view i

section Insert

variable {e : List Bool} {v : Option V} {c : Bool → RadixTree V} {id : Nat} {nd : Node V}
  {G : Bool → Set Nat}

/-- Putting a new subtree for bit `b` below a node, given what happened to the rest of the store. -/
theorem grown_update {s s' : NodeStore V maxPrefixes} (hs' : s'.WF backend)
    (hid : s.view id = some nd) (he : Encodes nd.bits e) (hlen : nd.len = e.length)
    (hv : nd.value = v) (hkids : ∀ b, Represents s.view (c b) (nd.children.get b) (G b))
    (hdis : ∀ b b' i, i ∈ G b → i ∈ G b' → b = b') (hnot : ∀ b, id ∉ G b) {b : Bool}
    {t' : RadixTree V} {o' : Option Nat} {H : Set Nat}
    (hid' : s'.view id = some { nd with children := nd.children.set b o' })
    (hnew : Represents s'.view t' o' H) (hsub : G b ⊆ H)
    (hfresh : ∀ i ∈ H, i ∉ G b → s.view i = none ∧ 2 ≤ i)
    (hframe : ∀ i ∉ H, i ≠ id → s'.view i = s.view i) :
    Grown backend s s' (.node e v (update c b t')) id {i | i = id ∨ ∃ b, i ∈ G b} := by
  have hnotH : id ∉ H := by
    intro h
    have := (hfresh id h (hnot b)).1
    simp [hid] at this
  have hdisH : ∀ i ∈ H, i ∉ G (!b) := by
    intro i hi hi'
    by_cases hb : i ∈ G b
    · simpa using hdis _ _ i hb hi'
    · exact (hkids (!b)).live hi' (hfresh i hi hb).1
  refine ⟨hs', _, represents_update s.view nd G he hlen hkids hnot (by rw [hid', hv]) hnew
    (fun i hi => ?_)
    hnotH hdisH, ?_, ?_, ?_⟩
  · refine hframe i (fun h => hdisH i h hi) ?_
    rintro rfl
    exact hnot _ hi
  · rintro i (rfl | ⟨a, hi⟩)
    · exact Or.inl rfl
    · by_cases ha : a = b
      · subst ha
        exact Or.inr (Or.inl (hsub hi))
      · obtain rfl : a = !b := by cases a <;> cases b <;> simp_all
        exact Or.inr (Or.inr hi)
  · rintro i (rfl | hi | hi) hnotF
    · exact absurd (Or.inl rfl) hnotF
    · exact hfresh i hi fun h => hnotF (Or.inr ⟨b, h⟩)
    · exact absurd (Or.inr ⟨!b, hi⟩) hnotF
  · intro i hi
    simp only [Set.mem_ofPred_eq, not_or] at hi
    exact hframe i hi.2.1 hi.1

theorem represents_split (as : List Bool) {view : Nat → Option (Node V)} {x : V}
    {p bs : List Bool} {bit : Bool} {mid child leaf : Nat} {mnd cnd lnd : Node V}
    {G : Bool → Set Nat} (hmid : view mid = some mnd) (hmbits : Encodes mnd.bits p)
    (hmlen : mnd.len = p.length)
    (hchild : view child = some cnd) (hcbits : Encodes cnd.bits (bit :: bs))
    (hclen : cnd.len = (bit :: bs).length) (hcv : cnd.value = v)
    (hkids : ∀ b, Represents view (c b) (cnd.children.get b) (G b))
    (hdis : ∀ b b' i, i ∈ G b → i ∈ G b' → b = b') (hnot : ∀ b, child ∉ G b)
    (hmnot : ∀ b, mid ∉ G b) (hne : mid ≠ child)
    (hend : (as = [] ∧ mnd.value = some x ∧ mnd.children = Children.empty.set bit (some child)) ∨
      (∃ a as', as = a :: as' ∧ a ≠ bit ∧ mnd.value = none ∧
        mnd.children = (Children.empty.set bit (some child)).set a (some leaf) ∧
        view leaf = some lnd ∧ Encodes lnd.bits as ∧ lnd.len = as.length ∧
        lnd.value = some x ∧ lnd.children = .empty ∧ leaf ≠ mid ∧ leaf ≠ child ∧ ∀ b, leaf ∉ G b)) :
    Represents view (RadixTree.split x (p ++ bit :: bs) v c (p ++ as) p.length) (some mid)
      {i | i = mid ∨ i = child ∨ (as ≠ [] ∧ i = leaf) ∨ ∃ b, i ∈ G b} := by
  let S : Set Nat := {i | i = child ∨ ∃ b, i ∈ G b}
  have hsub : Represents view (.node (bit :: bs) v c) (some child) S :=
    ⟨child, cnd, G, rfl, hchild, hcbits, hclen, hcv, hkids, hdis, hnot, rfl⟩
  have hmS : mid ∉ S := by
    rintro (h | ⟨b, h⟩)
    · exact hne h
    · exact hmnot b h
  have hdrop : (p ++ bit :: bs).drop p.length = bit :: bs := by simp
  have htake : (p ++ bit :: bs).take p.length = p := by simp
  rcases hend with ⟨rfl, hmv, hmc⟩ | ⟨a, as', rfl, hab, hmv, hmc, hleaf, hlbits, hllen, hlv, hlc,
    hlm, hlch, hlnot⟩
  · simp only [RadixTree.split, hdrop, htake, List.append_nil, if_true, List.headD_cons]
    have hnode : Represents view
        (.node p (some x) (update (fun _ => .nil) bit (.node (bit :: bs) v c))) (some mid)
        {i | i = mid ∨ i ∈ S ∨ i ∈ (∅ : Set Nat)} :=
      represents_update view { mnd with children := .empty } (fun _ => ∅) hmbits hmlen
        (c := fun _ => .nil) (fun b => ⟨Children.get_empty b, rfl⟩) (fun _ => Set.notMem_empty _)
        (by rw [hmid, ← hmc, ← hmv]) hsub (fun _ _ => rfl) hmS (fun _ _ => Set.notMem_empty _)
    convert hnode using 1
    ext i
    simp [S]
  · have hlf : Represents view (.leaf (a :: as') x) (some leaf) {leaf} :=
      represents_leaf hleaf hlbits hllen hlv hlc
    have hlen : ¬ p.length = (p ++ a :: as').length := by simp
    have hdrop' : (p ++ a :: as').drop p.length = a :: as' := by simp
    obtain rfl : bit = !a := by cases a <;> cases bit <;> simp_all
    simp only [RadixTree.split, hdrop, htake, hdrop', if_neg hlen, List.headD_cons]
    let low : Bool → RadixTree V := update (fun _ => .nil) (!a) (.node ((!a) :: bs) v c)
    let K : Bool → Set Nat := update (fun _ => ∅) (!a) S
    have hkids' : ∀ b, Represents view (low b)
        ((Children.empty.set (!a) (some child)).get b) (K b) := by
      intro b
      by_cases hb : b = !a
      · subst hb
        simpa [low, K] using hsub
      · simp only [Children.get_set, if_neg hb, low, K, update_of_ne hb]
        exact ⟨Children.get_empty b, rfl⟩
    have hmid' : ∀ b, mid ∉ K b := by
      intro b
      by_cases hb : b = !a
      · subst hb
        simpa [K] using hmS
      · simp only [K, update_of_ne hb]
        exact Set.notMem_empty _
    have hleafS : ∀ i ∈ ({leaf} : Set Nat), i ∉ K (!a) := by
      rintro _ rfl
      simp only [K, update_self]
      rintro (h | ⟨b, h⟩)
      · exact hlch h
      · exact hlnot b h
    have hnode : Represents view
        (.node p none (update low a (.leaf (a :: as') x))) (some mid)
        {i | i = mid ∨ i ∈ ({leaf} : Set Nat) ∨ i ∈ K (!a)} :=
      represents_update view { mnd with children := Children.empty.set (!a) (some child) }
        K hmbits hmlen hkids' hmid' (by rw [hmid, ← hmc, ← hmv]) hlf
        (fun _ _ => rfl) (by simpa using Ne.symm hlm) hleafS
    convert hnode using 1
    ext i
    simp [S, K]
    tauto

/-- The store after a split: the node `mid` is new and takes the place of `child`, which lost the
first bits of its edge, and the rest of the key, if there is any, is a new leaf. -/
theorem grown_split (hid : st.view id = some nd) (he : Encodes nd.bits e)
    (hlen : nd.len = e.length) (hv : nd.value = v)
    (hkids : ∀ b, Represents st.view (c b) (nd.children.get b) (G b))
    (hdis : ∀ b b' i, i ∈ G b → i ∈ G b' → b = b') (hnot : ∀ b, id ∉ G b) {b bit : Bool}
    {p as bs : List Bool} {cv : Option V} {cc : Bool → RadixTree V} {child : Nat} {cnd : Node V}
    (hc : c b = .node (p ++ bit :: bs) cv cc) (hlink : nd.children.get b = some child)
    (hcid : st.view child = some cnd) {s' : NodeStore V maxPrefixes} (hs' : s'.WF backend)
    {mid : Nat} {mnd : Node V} (hnew : st.view mid = none ∧ 2 ≤ mid)
    (hid' : s'.view id = some { nd with children := nd.children.set b (some mid) })
    (hmid : s'.view mid = some mnd) (hmbits : Encodes mnd.bits p) (hmlen : mnd.len = p.length)
    (hchild : s'.view child =
      some { cnd with bits := shl cnd.bits p.length, len := cnd.len - p.length })
    (leaf : Nat) (lnd : Node V) {x : V}
    (hend : (as = [] ∧ mnd.value = some x ∧ mnd.children = Children.empty.set bit (some child)) ∨
      (∃ a as', as = a :: as' ∧ a ≠ bit ∧ mnd.value = none ∧
        mnd.children = (Children.empty.set bit (some child)).set a (some leaf) ∧
        s'.view leaf = some lnd ∧ Encodes lnd.bits as ∧ lnd.len = as.length ∧
        lnd.value = some x ∧ lnd.children = .empty ∧ leaf ≠ mid ∧ st.view leaf = none ∧
        2 ≤ leaf))
    (hother : ∀ i, i ≠ id → i ≠ mid → i ≠ child → (as ≠ [] → i ≠ leaf) →
      s'.view i = st.view i) :
    Grown backend st s' (.node e v (update c b
      (RadixTree.split x (p ++ bit :: bs) cv cc (p ++ as) p.length))) id
      {i | i = id ∨ ∃ b, i ∈ G b} := by
  have hcb := hkids b
  rw [hc, hlink] at hcb
  obtain ⟨_, _, K, ⟨⟩, hcid', hcbits, hclen, hcval, hckids, hcdis, hcnot, hGb⟩ := hcb
  obtain rfl : cnd = _ := Option.some.inj (hcid.symm.trans hcid')
  have hlive : ∀ i j, st.view j = none → st.view i ≠ none → i ≠ j := by
    rintro i j hj hi rfl
    exact hi hj
  have hleaf : as ≠ [] → leaf ≠ mid ∧ st.view leaf = none ∧ 2 ≤ leaf := by
    intro h
    rcases hend with ⟨h', -⟩ | ⟨a, as', -, -, -, -, -, -, -, -, -, h1, h2, h3⟩
    · exact absurd h' h
    · exact ⟨h1, h2, h3⟩
  have hK : ∀ a i, i ∈ K a → i ∈ G b := fun a i hi => hGb ▸ Or.inr ⟨a, hi⟩
  have hKlive : ∀ a i, i ∈ K a → st.view i ≠ none := fun a i hi => (hkids b).live (hK a i hi)
  have hchlive : st.view child ≠ none := by simp [hcid]
  have hbit : Encodes (shl cnd.bits p.length) (bit :: bs) := by
    simpa using encodes_shl hcbits p.length
  have hkids' : ∀ a, Represents s'.view (cc a) (cnd.children.get a) (K a) := by
    refine fun a => (hckids a).congr fun i hi => hother i ?_ ?_ ?_ fun h => ?_
    · rintro rfl
      exact hnot b (hK a _ hi)
    · exact hlive i mid hnew.1 (hKlive a i hi)
    · rintro rfl
      exact hcnot a hi
    · exact hlive i leaf (hleaf h).2.1 (hKlive a i hi)
  have hrep := represents_split as hmid hmbits hmlen hchild hbit (by rw [hclen]; simp) hcval
    hkids' hcdis hcnot (fun a h => hKlive a mid h hnew.1) (hlive child mid hnew.1 hchlive).symm
    (hend.imp_right fun ⟨a, as', h1, h2, h3, h4, h5, h6, h7, h8, h9, h10, h11, h12⟩ =>
      ⟨a, as', h1, h2, h3, h4, h5, h6, h7, h8, h9, h10, (hlive child leaf h11 hchlive).symm,
        fun a h => hKlive a leaf h h11⟩)
  refine grown_update hs' hid he hlen hv hkids hdis hnot hid' hrep ?_ ?_ ?_
  · rw [hGb]
    rintro i (h | h)
    · exact Or.inr (Or.inl h)
    · exact Or.inr (Or.inr (Or.inr h))
  · rintro i (rfl | rfl | ⟨h, rfl⟩ | ⟨a, h⟩) hi
    · exact hnew
    · exact absurd (hGb ▸ Or.inl rfl) hi
    · exact (hleaf h).2
    · exact absurd (hK a i h) hi
  · intro i hi hne
    simp only [Set.mem_ofPred_eq, not_or, not_and] at hi
    exact hother i hne hi.1 hi.2.1 hi.2.2.1

/-- The end of an insertion on the edge of a child either finds no room and changes nothing, or
puts the split subtree in the child's place. -/
theorem splitEdge_spec (hst : st.WF backend) (hid : st.view id = some nd) (he : Encodes nd.bits e)
    (hlen : nd.len = e.length) (hv : nd.value = v)
    (hkids : ∀ b, Represents st.view (c b) (nd.children.get b) (G b))
    (hdis : ∀ b b' i, i ∈ G b → i ∈ G b' → b = b') (hnot : ∀ b, id ∉ G b) {b bit : Bool}
    {p as bs : List Bool} {cv : Option V} {cc : Bool → RadixTree V} {child : Nat} {cnd : Node V}
    (hc : c b = .node (p ++ bit :: bs) cv cc) (hlink : nd.children.get b = some child)
    (hcid : st.view child = some cnd) (hcbits : Encodes cnd.bits (p ++ bit :: bs))
    (hne : child ≠ id) {rest : BitVec 128} (hrest : Encodes rest (p ++ as))
    (hdiff : as.head? ≠ some bit) (x : V) :
    (PrefixTrie.splitEdge st id child b cnd.bits cnd.len rest (p ++ as).length p.length x =
        .ok (.error .exhausted, st) ∧ st.checkCapacity 2 = false) ∨
      ∃ s', PrefixTrie.splitEdge st id child b cnd.bits cnd.len rest (p ++ as).length p.length x =
          .ok (.ok none, s') ∧ Grown backend st s' (.node e v (update c b
          (RadixTree.split x (p ++ bit :: bs) cv cc (p ++ as) p.length))) id
          {i | i = id ∨ ∃ b, i ∈ G b} := by
  simp only [PrefixTrie.splitEdge]
  by_cases hcap : st.checkCapacity (if p.length = (p ++ as).length then 1 else 2) = true
  swap
  · refine Or.inl ⟨by rw [if_neg hcap]; rfl, ?_⟩
    by_contra h
    exact hcap (NodeStore.checkCapacity_mono (by simpa using h) (by split <;> omega))
  right
  rw [if_pos hcap]
  -- The node on the edge, the child below it, and the link to it.
  obtain ⟨mid, s1, ha, hwf1, hmid2, hmidnone, hview1, hcap1⟩ := NodeStore.alloc_spec hst
    (NodeStore.checkCapacity_mono hcap (by split <;> omega)) cnd.bits p.length
  have hidmid : id ≠ mid := by
    rintro rfl
    simp [hid] at hmidnone
  have hchmid : child ≠ mid := by
    rintro rfl
    simp [hcid] at hmidnone
  obtain ⟨s2, hm2, hwf2, hview2, hcap2⟩ := NodeStore.modify_spec hwf1
    (show s1.view child = some cnd by rw [hview1, update_of_ne hchmid, hcid])
    fun m => { m with bits := shl cnd.bits p.length }
  obtain ⟨s3, hm3, hwf3, hview3, hcap3⟩ := NodeStore.modify_spec hwf2
    (show s2.view child = some _ by rw [hview2, update_self])
    fun m => { m with len := cnd.len - p.length }
  have hchild3 : s3.view child =
      some { cnd with bits := shl cnd.bits p.length, len := cnd.len - p.length } := by
    rw [hview3, update_self]
  have hbranch : Microtun.bit (shl cnd.bits p.length) 0 = bit := by
    refine bit_of_drop (encodes_shl hcbits p.length) (r := bs) ?_
    simp
  obtain ⟨s4, hm4, hwf4, hview4, hcap4⟩ := NodeStore.modify_spec hwf3
    (show s3.view mid = some (Node.new cnd.bits p.length) by
      rw [hview3, update_of_ne hchmid.symm, hview2, update_of_ne hchmid.symm, hview1, update_self])
    fun m => { m with children := m.children.set bit (some child) }
  obtain ⟨s5, hm5, hwf5, hview5, hcap5⟩ := NodeStore.modify_spec hwf4
    (show s4.view id = some nd by
      rw [hview4, update_of_ne hidmid, hview3, update_of_ne hne.symm, hview2,
        update_of_ne hne.symm, hview1, update_of_ne hidmid, hid])
    fun m => { m with children := m.children.set b (some mid) }
  rw [ha]
  simp only [ok_bind, hm2, hm3, NodeStore.index_of_view hchild3, hbranch, hm4, hm5]
  have hother5 : ∀ i, i ≠ id → i ≠ mid → i ≠ child → s5.view i = st.view i := by
    intro i h1 h2 h3
    rw [hview5, update_of_ne h1, hview4, update_of_ne h2, hview3, update_of_ne h3, hview2,
      update_of_ne h3, hview1, update_of_ne h2]
  have hid5 : s5.view id = some { nd with children := nd.children.set b (some mid) } := by
    rw [hview5, update_self]
  have hmid5 : s5.view mid =
      some ⟨mask cnd.bits p.length, p.length, Children.empty.set bit (some child), none⟩ := by
    rw [hview5, update_of_ne hidmid.symm, hview4, update_self]
    rfl
  have hchild5 : s5.view child =
      some { cnd with bits := shl cnd.bits p.length, len := cnd.len - p.length } := by
    rw [hview5, update_of_ne hne, hview4, update_of_ne hchmid, hchild3]
  have hpbits : Encodes (mask cnd.bits p.length) p := by
    have := encodes_new (V := V) hcbits (show p.length ≤ (p ++ bit :: bs).length by simp)
    rwa [List.take_left] at this
  cases as with
  | nil =>
    -- The key ends on the edge.
    obtain ⟨s6, hm6, hwf6, hview6, -⟩ := NodeStore.modify_spec hwf5 hmid5
      fun m => { m with value := some x }
    rw [if_pos (by simp), hm6]
    have hsame : ∀ i, i ≠ mid → s6.view i = s5.view i := fun i hi => by
      rw [hview6, update_of_ne hi]
    have hmid6 : s6.view mid = some ⟨mask cnd.bits p.length, p.length,
        Children.empty.set bit (some child), some x⟩ := by
      rw [hview6, update_self]
    exact ⟨s6, rfl, grown_split hid he hlen hv hkids hdis hnot hc hlink hcid hwf6
      ⟨hmidnone, hmid2⟩ ((hsame id hidmid).trans hid5) hmid6 hpbits rfl
      ((hsame child hchmid).trans hchild5) mid cnd (Or.inl ⟨rfl, rfl, rfl⟩)
      fun i h1 h2 h3 _ => (hsame i h2).trans (hother5 i h1 h2 h3)⟩
  | cons a as =>
    -- The key goes on, and its rest becomes a leaf beside the child.
    have hlong : ¬ p.length = (p ++ a :: as).length := by simp
    have hleafbits : Encodes (shl rest p.length) (a :: as) := by
      simpa using encodes_shl hrest p.length
    have hrem : (p ++ a :: as).length - p.length = (a :: as).length := by simp
    obtain ⟨leaf, s6, ha6, hwf6, hleaf2, hleafnone, hview6, -⟩ := NodeStore.alloc_spec hwf5
      (by rw [hcap5, hcap4, hcap3, hcap2, hcap1]; simpa only [if_neg hlong] using hcap)
      (shl rest p.length) (a :: as).length
    have hleaflive : ∀ i, s5.view i ≠ none → i ≠ leaf := by
      rintro i hi rfl
      exact hi hleafnone
    have hlid := hleaflive id (by simp [hid5])
    have hlmid := hleaflive mid (by simp [hmid5])
    have hlchild := hleaflive child (by simp [hchild5])
    obtain ⟨s7, hm7, hwf7, hview7, -⟩ := NodeStore.modify_spec hwf6
      (show s6.view leaf = some _ by rw [hview6, update_self]) fun m => { m with value := some x }
    have hleaf7 : s7.view leaf =
        some ⟨mask (shl rest p.length) (a :: as).length, (a :: as).length, .empty, some x⟩ := by
      rw [hview7, update_self]
      rfl
    have hlbits : Encodes (mask (shl rest p.length) (a :: as).length) (a :: as) := by
      have := encodes_new (V := V) hleafbits (Nat.le_refl _)
      rwa [List.take_length] at this
    obtain ⟨s8, hm8, hwf8, hview8, -⟩ := NodeStore.modify_spec hwf7
      (show s7.view mid = some _ by
        rw [hview7, update_of_ne hlmid, hview6, update_of_ne hlmid, hmid5])
      fun m => { m with children := m.children.set a (some leaf) }
    have hsame : ∀ i, i ≠ mid → i ≠ leaf → s8.view i = s5.view i := fun i h h' => by
      rw [hview8, update_of_ne h, hview7, update_of_ne h', hview6, update_of_ne h']
    have hlbranch : Microtun.bit (mask (shl rest p.length) (a :: as).length) 0 = a :=
      bit_of_drop hlbits (r := as) (by rw [List.drop_zero])
    rw [if_neg hlong, hrem, ha6]
    simp only [ok_bind, hm7, NodeStore.index_of_view hleaf7, hlbranch, hm8]
    have hmid8 : s8.view mid = some ⟨mask cnd.bits p.length, p.length,
        (Children.empty.set bit (some child)).set a (some leaf), none⟩ := by
      rw [hview8, update_self]
    have hleaf8 : s8.view leaf =
        some ⟨mask (shl rest p.length) (a :: as).length, (a :: as).length, .empty, some x⟩ := by
      rw [hview8, update_of_ne hlmid.symm, hleaf7]
    have hleafst : st.view leaf = none := by
      rw [← hother5 leaf hlid.symm hlmid.symm hlchild.symm, hleafnone]
    have hab : a ≠ bit := fun h => hdiff (h ▸ rfl)
    exact ⟨s8, rfl, grown_split hid he hlen hv hkids hdis hnot hc hlink hcid hwf8 ⟨hmidnone, hmid2⟩
      ((hsame id hidmid hlid).trans hid5) hmid8 hpbits rfl
      ((hsame child hchmid hlchild).trans hchild5) leaf _
      (Or.inr ⟨a, as, rfl, hab, rfl, rfl, hleaf8, hlbits, rfl, rfl, rfl, hlmid.symm, hleafst,
        hleaf2⟩)
      fun i h1 h2 h3 h4 => (hsame i h2 (h4 (List.cons_ne_nil a as))).trans (hother5 i h1 h2 h3)⟩

/-- Insertion below a node either finds no room and changes nothing, or inserts into the tree that
the node represents and returns the value that was stored for the key. -/
theorem insertLoop_spec (hkey : Encodes key k) (x : V) (t : RadixTree V) :
    ∀ {e : List Bool} {v : Option V} {c : Bool → RadixTree V} {id pos fuel : Nat} {F : Set Nat},
      t = .node e v c → RadixTree.Kids c → Represents st.view t (some id) F → st.WF backend →
      pos ≤ k.length → k.length - pos < fuel →
      (PrefixTrie.insertLoop key k.length x fuel st id pos = .ok (.error .exhausted, st) ∧
        st.checkCapacity 2 = false) ∨ ∃ s', PrefixTrie.insertLoop key k.length x fuel st id pos =
          .ok (.ok (RadixTree.getBelow v c (k.drop pos)), s') ∧
        Grown backend st s' (t.insertAt x (k.drop pos)) id F := by
  induction t with
  | nil => intro e v c id pos fuel F h; cases h
  | node e v c ih =>
    rintro _ _ _ id pos fuel F ⟨⟩ hwf h hst hpos hfuel
    obtain ⟨_, nd, G, ⟨⟩, hid, he, hlen, hv, hkids, hdis, hnot, rfl⟩ := h
    obtain ⟨fuel, rfl⟩ : ∃ f, fuel = f + 1 := ⟨fuel - 1, by omega⟩
    simp only [PrefixTrie.insertLoop, NodeStore.index_of_view hid, ok_bind]
    cases hk : k.drop pos with
    | nil =>
      have hend : pos = k.length := by
        have := List.drop_eq_nil_iff.mp hk
        omega
      obtain ⟨s', hm, hwf', hview, -⟩ := NodeStore.modify_spec hst hid
        fun m => { m with value := some x }
      refine Or.inr ⟨s', by rw [if_pos hend, hm, hv]; rfl, hwf', _, ?_, Set.Subset.rfl,
        fun i hi hi' => absurd hi hi', fun i hi => ?_⟩
      · refine ⟨id, { nd with value := some x }, G, rfl, by rw [hview, update_self], he, hlen, rfl,
          fun b => ?_, hdis, hnot, rfl⟩
        refine (hkids b).congr fun i hi => ?_
        rw [hview, update_of_ne]
        rintro rfl
        exact hnot b hi
      · rw [hview, update_of_ne]
        rintro rfl
        exact hi (Or.inl rfl)
    | cons b r =>
      have hklen := length_of_drop hpos hk
      have hlt : pos < k.length := by simp at hklen; omega
      have hrest : Encodes (shl key pos) (b :: r) := hk ▸ encodes_shl hkey pos
      have hrem : k.length - pos = (b :: r).length := by omega
      rw [if_neg (by omega), bit_of_drop hkey hk, hrem, RadixTree.getBelow_cons,
        RadixTree.insertAt]
      have hb := hkids b
      cases hc : c b with
      | nil =>
        rw [hc] at hb
        obtain ⟨hlink, hGb⟩ := hb
        simp only [hlink]
        by_cases hcap : st.checkCapacity 1 = true
        swap
        · refine Or.inl ⟨by rw [if_neg hcap]; rfl, ?_⟩
          by_contra h
          exact hcap (NodeStore.checkCapacity_mono (by simpa using h) (by omega))
        right
        obtain ⟨leaf, s1, ha, hwf1, hleaf2, hnone, hview1, -⟩ :=
          NodeStore.alloc_spec hst hcap (shl key pos) (b :: r).length
        have hne : id ≠ leaf := by
          rintro rfl
          simp [hid] at hnone
        obtain ⟨s2, hm2, hwf2, hview2, -⟩ := NodeStore.modify_spec hwf1
          (show s1.view leaf = some _ by rw [hview1, update_self])
          fun m => { m with value := some x }
        obtain ⟨s3, hm3, hwf3, hview3, -⟩ := NodeStore.modify_spec hwf2
          (show s2.view id = some nd by
            rw [hview2, update_of_ne hne, hview1, update_of_ne hne, hid])
          fun m => { m with children := m.children.set b (some leaf) }
        rw [if_pos hcap, ha]
        simp only [ok_bind, hm2, hm3]
        have hlbits : Encodes (mask (shl key pos) (b :: r).length) (b :: r) := by
          have := encodes_new (V := V) hrest (Nat.le_refl _)
          rwa [List.take_length] at this
        have hleaf3 : s3.view leaf =
            some ⟨mask (shl key pos) (b :: r).length, (b :: r).length, .empty, some x⟩ := by
          rw [hview3, update_of_ne hne.symm, hview2, update_self]
          rfl
        refine ⟨s3, rfl, grown_update hwf3 hid he hlen hv hkids hdis hnot
          (by rw [hview3, update_self]) (represents_leaf hleaf3 hlbits rfl rfl rfl) ?_ ?_ ?_⟩
        · rw [hGb]
          exact Set.empty_subset _
        · rintro _ rfl -
          exact ⟨hnone, hleaf2⟩
        · intro i hi hne'
          rw [hview3, update_of_ne hne', hview2, update_of_ne hi, hview1, update_of_ne hi]
      | node ce cv cc =>
        rw [hc] at hb
        have hwfb := (hwf b).2
        have hhead := (hwf b).1
        rw [hc] at hwfb hhead
        have hrep := hb
        obtain ⟨child, cnd, K, hlink, hcid, hce, hclen, -, -, -, -, hGb⟩ := hb
        have hchild : child ∈ G b := hGb ▸ Or.inl rfl
        have hne : child ≠ id := by
          rintro rfl
          exact hnot b hchild
        simp only [hlink, NodeStore.index_of_view hcid, ok_bind, RadixTree.place]
        rw [hclen, commonLen_eq hrest hce]
        by_cases hs : shared (b :: r) ce = ce.length
        · -- The key follows the whole edge.
          rw [if_pos hs, if_pos hs]
          have hpre := (shared_eq_length_iff _ _).mp hs
          have hle := hpre.length_le
          have hpos' : 0 < ce.length := List.length_pos_of_ne_nil hwfb.1
          have hdrop : k.drop (pos + ce.length) = (b :: r).drop ce.length := by
            rw [← hk, List.drop_drop]
          have hget : (RadixTree.node ce cv cc).get (b :: r) =
              RadixTree.getBelow cv cc (k.drop (pos + ce.length)) := by
            rw [RadixTree.get_node, if_pos hpre, hdrop]
          rw [hlink] at hrep
          rw [hget, ← hdrop]
          have hpos'' : pos + ce.length ≤ k.length := by omega
          have hfuel' : k.length - (pos + ce.length) < fuel := by omega
          rcases ih b hc hwfb.2.2 (hc ▸ hrep) hst hpos'' hfuel' with hfull | ⟨s', hrun, hgrown⟩
          · exact Or.inl hfull
          · refine Or.inr ⟨s', hrun, ?_⟩
            obtain ⟨hwf', H, hrep', hsub, hfresh, hframe⟩ := hgrown
            rw [hc] at hrep'
            refine grown_update hwf' hid he hlen hv hkids hdis hnot ?_ hrep' hsub hfresh
              fun i hi _ => hframe i hi
            rw [hframe id, hid, ← hlink, Children.set_get]
            · intro hmem
              have := (hfresh id hmem (hnot b)).1
              simp [hid] at this
        · -- The key leaves the edge, after at least its first bit.
          rw [if_neg hs, if_neg hs]
          obtain ⟨p, as, bit, bs, has, hbs, hshared, hdiff⟩ := shared_factor _ _ hs
          rw [hshared, has]
          subst hbs
          rw [← hclen]
          rw [has] at hrest
          have hnone : (RadixTree.node (p ++ bit :: bs) cv cc).get (p ++ as) = none := by
            rw [RadixTree.get_node, if_neg]
            intro hpre
            have hpre' := (List.prefix_append_right_inj p).mp hpre
            cases as with
            | nil => simp at hpre'
            | cons a as =>
              obtain rfl := (List.cons_prefix_cons.mp hpre').1
              exact hdiff rfl
          rw [hnone]
          exact splitEdge_spec hst hid he hlen hv hkids hdis hnot hc hlink hcid hce hne hrest hdiff
            x

end Insert

/-! ### Removal -/

/-- From `s` to `s'` the subtree for bit `b` of the node `nd` at `id`, whose nodes were those in
`F`, came to represent `t'`: what is left of them is linked in its place, the others are free, and
no other node was touched. -/
structure Pruned (backend : Backend) (s s' : NodeStore V maxPrefixes) (t' : RadixTree V) (id : Nat)
    (nd : Node V) (b : Bool) (F : Set Nat) : Prop where
  wf : s'.WF backend
  pruned : ∃ child H, Represents s'.view t' (some child) H ∧ H ⊆ F ∧
    s'.view id = some { nd with children := nd.children.set b (some child) } ∧
    (∀ i ∈ F, i ∉ H → s'.view i = none) ∧ ∀ i ∉ F, i ≠ id → s'.view i = s.view i

theorem Pruned.ne_nil {s s' : NodeStore V maxPrefixes} {t' : RadixTree V} {id : Nat} {nd : Node V}
    {b : Bool} {F : Set Nat} (h : Pruned backend s s' t' id nd b F) : t' ≠ .nil := by
  obtain ⟨-, child, H, hrep, -⟩ := h
  rw [Ne, ← hrep.link_eq_none]
  simp

section Remove

variable {e : List Bool} {v : Option V} {c : Bool → RadixTree V} {id : Nat} {nd : Node V}
  {G : Bool → Set Nat}

/-- Stored keys are as long as the edges that lead to them. -/
theorem length_kid_le (hwf : RadixTree.Kids c)
    (hbound : ∀ q, (RadixTree.node e v c).get q ≠ none → q.length ≤ 128) (b : Bool) :
    (c b ≠ .nil → e.length + (c b).edge.length ≤ 128) ∧
      ∀ q, (c b).get q ≠ none → q.length ≤ 128 := by
  have hkey : ∀ q, (c b).get q ≠ none → e.length + q.length ≤ 128 := by
    intro q hq
    cases q with
    | nil => exact absurd (hwf b).2.get_nil_key hq
    | cons a r =>
      have hab : a = b := by
        by_contra hne
        exact hq ((hwf b).1.get_eq_none hne r)
      subst hab
      have := hbound (e ++ a :: r) (by rwa [RadixTree.get_node_append, RadixTree.getBelow_cons])
      simpa using this
  refine ⟨fun hne => ?_, fun q hq => Nat.le_trans (by omega) (hkey q hq)⟩
  obtain ⟨q, hq⟩ := (hwf b).2.exists_key hne
  have := hkey _ hq
  rw [List.length_append] at this
  omega

theorem mergeIntoChild_spec (hst : st.WF backend) {parent node child : Nat} {b : Bool}
    {pn nn cn : Node V} (hp : st.view parent = some pn) (hn : st.view node = some nn)
    (hc : st.view child = some cn)
    (hnc : node ≠ child) (hnp : node ≠ parent) (hcp : child ≠ parent) (hnode : 2 ≤ node) :
    ∃ s', PrefixTrie.mergeIntoChild st parent b node child = .ok s' ∧ s'.WF backend ∧
      s'.view node = none ∧
      s'.view child = some
        { cn with bits := nn.bits ||| shr cn.bits nn.len, len := cn.len + nn.len } ∧
      s'.view parent = some { pn with children := pn.children.set b (some child) } ∧
      ∀ i, i ≠ node → i ≠ child → i ≠ parent → s'.view i = st.view i := by
  obtain ⟨s1, h1, hwf1, hview1, -⟩ := NodeStore.modify_spec hst hc
    fun c => { c with bits := nn.bits ||| shr c.bits nn.len, len := c.len + nn.len }
  obtain ⟨s2, h2, hwf2, hview2, -⟩ := NodeStore.modify_spec hwf1
    (show s1.view parent = some pn by rw [hview1, update_of_ne hcp.symm, hp])
    fun p => { p with children := p.children.set b (some child) }
  obtain ⟨s3, h3, hwf3, hview3⟩ := NodeStore.release_spec hwf2
    (show s2.view node = some nn by
      rw [hview2, update_of_ne hnp, hview1, update_of_ne hnc, hn]) hnode
  refine ⟨s3, ?_, hwf3, ?_, ?_, ?_, fun i h1 h2 h3 => ?_⟩
  · simp only [PrefixTrie.mergeIntoChild, NodeStore.index_of_view hn, ok_bind, h1, h2, h3]
  · rw [hview3, update_self]
  · rw [hview3, update_of_ne hnc.symm, hview2, update_of_ne hcp, hview1, update_self]
  · rw [hview3, update_of_ne hnp.symm, hview2, update_self]
  · rw [hview3, update_of_ne h1, hview2, update_of_ne h3, hview1, update_of_ne h2]

/-- Merging the node at `node` into its only subtree puts that subtree, with a longer edge, in the
node's place below `parent`. -/
theorem pruned_merge {s : NodeStore V maxPrefixes} (hs : s.WF backend) {node parent child : Nat}
    {nn pn : Node V} {b : Bool} {F H : Set Nat} {t : RadixTree V}
    (hview : ∀ i ∉ F, i ≠ parent → s.view i = st.view i) (hp : s.view parent = some pn)
    (hpF : parent ∉ F) (hn : s.view node = some nn) (he : Encodes nn.bits e)
    (hlen : nn.len = e.length) (hnode : 2 ≤ node) (ht : Represents s.view t (some child) H)
    (hbound : e.length + t.edge.length ≤ 128) (hnH : node ∉ H) (hHF : H ⊆ F) (hnF : node ∈ F)
    (hfree : ∀ i ∈ F, i ∉ H → i ≠ node → s.view i = none) :
    ∃ s', PrefixTrie.mergeIntoChild s parent b node child = .ok s' ∧
      Pruned backend st s' (RadixTree.lengthen e t) parent pn b F := by
  cases t with
  | nil => exact absurd ht.1 (by simp)
  | node ce cv cc =>
    obtain ⟨_, cn, K, ⟨⟩, hcid, hce, hclen, hcv, hkids, hdis, hnot, rfl⟩ := ht
    have hnc : node ≠ child := fun h => hnH (Or.inl h)
    have hnp : node ≠ parent := by
      rintro rfl
      exact hpF hnF
    have hcp : child ≠ parent := by
      rintro rfl
      exact hpF (hHF (Or.inl rfl))
    obtain ⟨s', hrun, hwf', hnode', hchild', hparent', hother⟩ :=
      mergeIntoChild_spec (b := b) hs hp hn hcid hnc hnp hcp hnode
    refine ⟨s', hrun, hwf', child, _, ?_, hHF, hparent', fun i hi hiH => ?_, fun i hi hip => ?_⟩
    · have hbits : Encodes (nn.bits ||| shr cn.bits nn.len) (e ++ ce) :=
        hlen ▸ encodes_merge he hce hbound
      refine ⟨child, _, K, rfl, hchild', hbits, ?_, hcv, fun a => (hkids a).congr fun i hi => ?_,
        hdis, hnot, rfl⟩
      · simp only [hclen, hlen, List.length_append]
        omega
      · refine hother i ?_ ?_ ?_
        · rintro rfl
          exact hnH (Or.inr ⟨a, hi⟩)
        · rintro rfl
          exact hnot a hi
        · rintro rfl
          exact hpF (hHF (Or.inr ⟨a, hi⟩))
    · by_cases hin : i = node
      · rw [hin, hnode']
      · rw [hother i hin (fun h => hiH (Or.inl h)) (fun h => hpF (h ▸ hi)), hfree i hi hiH hin]
    · rw [hother i (fun h => hi (h ▸ hnF)) (fun h => hi (h ▸ hHF (Or.inl rfl))) hip, hview i hi hip]

/-- What a removal below the node `nd` at `id`, along `path`, does to its subtree `t` for the bit
`b`, whose nodes are those in `F`.  A subtree that vanishes leaves it to `mergeParent` to merge the
node itself away. -/
def RemovesBelow (backend : Backend) (st : NodeStore V maxPrefixes) (t : RadixTree V) (id : Nat)
    (nd : Node V) (b : Bool) (F : Set Nat) (path : List (Nat × Bool)) (rest : List Bool)
    (run : Except Panic (Option V × NodeStore V maxPrefixes)) : Prop :=
  (t.get rest = none ∧ run = .ok (none, st)) ∨
  ∃ x, t.get rest = some x ∧
    ((t.remove rest ≠ .nil ∧ ∃ s', run = .ok (some x, s') ∧
      Pruned backend st s' (t.remove rest) id nd b F) ∨
     (t.remove rest = .nil ∧ ∃ child s1, F = {child} ∧ s1.WF backend ∧
       s1.view = update (update st.view id (some { nd with children := nd.children.set b none }))
         child none ∧
       run = do
         let s ← PrefixTrie.mergeParent s1 ((id, b) :: path)
         return (some x, s)))

/-- A removal that ends at the child `child` of the node at `id`. -/
theorem detach_spec (hst : st.WF backend) {b : Bool} {path : List (Nat × Bool)}
    (hid : st.view id = some nd) {child : Nat} {cnd : Node V} (hcid : st.view child = some cnd)
    (he : Encodes cnd.bits e) (hlen : cnd.len = e.length) (hv : cnd.value = v)
    (hkids : ∀ b, Represents st.view (c b) (cnd.children.get b) (G b))
    (hdis : ∀ b b' i, i ∈ G b → i ∈ G b' → b = b') (hnot : ∀ b, child ∉ G b)
    (hlink : nd.children.get b = some child) (hidF : id ∉ {i | i = child ∨ ∃ b, i ∈ G b})
    (hchild : 2 ≤ child) (hbound : ∀ a, c a ≠ .nil → e.length + (c a).edge.length ≤ 128) :
    RemovesBelow backend st (.node e v c) id nd b {i | i = child ∨ ∃ b, i ∈ G b} path e
      (PrefixTrie.detach st child ((id, b) :: path)) := by
  have hget : (RadixTree.node e v c).get e = v := by
    simpa [RadixTree.getBelow] using RadixTree.get_node_append e v c []
  have hremove : (RadixTree.node e v c).remove e = RadixTree.collapse e none c := by
    simp [RadixTree.remove]
  simp only [PrefixTrie.detach, NodeStore.index_of_view hcid, ok_bind, hv]
  cases v with
  | none => exact Or.inl ⟨hget, rfl⟩
  | some x =>
    refine Or.inr ⟨x, hget, ?_⟩
    rw [hremove]
    obtain ⟨s1, hm1, hwf1, hview1, -⟩ := NodeStore.modify_spec hst hcid
      fun m => { m with value := none }
    have hne : id ≠ child := fun h => hidF (Or.inl h)
    have hid1 : s1.view id = some nd := by rw [hview1, update_of_ne hne, hid]
    have hcid1 : s1.view child = some { cnd with value := none } := by rw [hview1, update_self]
    have hother1 : ∀ i, i ≠ child → s1.view i = st.view i := fun i hi => by
      rw [hview1, update_of_ne hi]
    have hkids1 : ∀ a, Represents s1.view (c a) (cnd.children.get a) (G a) := fun a =>
      (hkids a).congr fun i hi => hother1 i fun h => hnot a (h ▸ hi)
    rw [hm1]
    simp only [ok_bind]
    -- One subtree is left: the node is merged into it.
    have hmerge : ∀ a only, c (!a) = .nil → cnd.children.get a = some only →
        ∃ s', PrefixTrie.mergeIntoChild s1 id b child only = .ok s' ∧
          Pruned backend st s' (RadixTree.collapse e none c) id nd b
            {i | i = child ∨ ∃ b, i ∈ G b} := by
      intro a only hnil honly
      have hrep := hkids1 a
      rw [honly] at hrep
      have hca : c a ≠ .nil := by
        intro h
        rw [← (hkids a).link_eq_none, honly] at h
        cases h
      have hGnil : G (!a) = ∅ := by
        have := hkids1 (!a)
        rw [hnil] at this
        exact this.2
      rw [RadixTree.collapse_only a hnil]
      refine pruned_merge hwf1 (fun i hi _ => hother1 i fun h => hi (Or.inl h)) hid1 hidF hcid1 he
        hlen hchild hrep (hbound a hca) (hnot a) (fun i hi => Or.inr ⟨a, hi⟩) (Or.inl rfl) ?_
      rintro i (rfl | ⟨a', hi⟩) hia hic
      · exact absurd rfl hic
      · by_cases haa : a' = a
        · exact absurd (haa ▸ hi) hia
        · obtain rfl : a' = !a := by cases a <;> cases a' <;> simp_all
          rw [hGnil] at hi
          exact absurd hi (Set.notMem_empty i)
    cases hzero : cnd.children.zero with
    | some only =>
      cases hone : cnd.children.one with
      | some other =>
        -- Both subtrees are left: only the value goes.
        have hfull : ∀ a, c a ≠ .nil := by
          intro a h
          rw [← (hkids a).link_eq_none] at h
          cases a <;> simp_all [Children.get]
        rw [RadixTree.collapse_full hfull]
        refine Or.inl ⟨by simp, s1, rfl, hwf1, child, _, ?_, Set.Subset.rfl, ?_,
          fun i hi hi' => absurd hi hi', fun i hi _ => hother1 i fun h => hi (Or.inl h)⟩
        · exact ⟨child, _, G, rfl, hcid1, he, hlen, rfl, hkids1, hdis, hnot, rfl⟩
        · rw [hid1, ← hlink, Children.set_get]
      | none =>
        obtain ⟨s', hrun, hpruned⟩ := hmerge false only
          ((hkids true).link_eq_none.mp hone) hzero
        exact Or.inl ⟨hpruned.ne_nil, s', by simp only [hrun, ok_bind]; rfl, hpruned⟩
    | none =>
      cases hone : cnd.children.one with
      | some only =>
        obtain ⟨s', hrun, hpruned⟩ := hmerge true only
          ((hkids false).link_eq_none.mp hzero) hone
        exact Or.inl ⟨hpruned.ne_nil, s', by simp only [hrun, ok_bind]; rfl, hpruned⟩
      | none =>
        -- Nothing is left: the node goes.
        have hnil : ∀ a, c a = .nil :=
          fun a => (hkids a).link_eq_none.mp (by cases a <;> assumption)
        have hG : ∀ a, G a = ∅ := by
          intro a
          have := hkids a
          rw [hnil a] at this
          exact this.2
        obtain ⟨s2, hm2, hwf2, hview2, -⟩ := NodeStore.modify_spec hwf1 hid1
          fun p => { p with children := p.children.set b none }
        obtain ⟨s3, hm3, hwf3, hview3⟩ := NodeStore.release_spec hwf2
          (show s2.view child = some _ by rw [hview2, update_of_ne hne.symm, hcid1]) hchild
        refine Or.inr ⟨?_, child, s3, ?_, hwf3, ?_, ?_⟩
        · rw [RadixTree.collapse_only false (hnil true), hnil]
          rfl
        · ext i
          simp [hG]
        · rw [hview3, hview2, hview1, update_comm hne.symm, update_idem, update_comm hne]
        · simp only [hm2, hm3, ok_bind]

section Parent

variable {b b' : Bool} {child : Nat} {cnd : Node V} (hid : st.view id = some nd)
  (hcid : st.view child = some cnd) (he : Encodes cnd.bits e) (hlen : cnd.len = e.length)
  (hv : cnd.value = v) (hkids : ∀ b, Represents st.view (c b) (cnd.children.get b) (G b))
  (hdis : ∀ b b' i, i ∈ G b → i ∈ G b' → b = b') (hnot : ∀ b, child ∉ G b)
  (hlink : nd.children.get b = some child) (hidne : id ≠ child) (hidG : ∀ a, id ∉ G a)

include hid hcid he hlen hv hkids hdis hnot hlink hidne hidG

/-- A child of the node at `id` keeps its place when only a subtree of it is pruned. -/
theorem pruned_below {s' : NodeStore V maxPrefixes} (hwf' : s'.WF backend) {t' : RadixTree V}
    {o' : Option Nat} {H : Set Nat} (hrep : Represents s'.view t' o' H) (hHG : H ⊆ G b')
    (hcid' : s'.view child = some { cnd with children := cnd.children.set b' o' })
    (hfree : ∀ i ∈ G b', i ∉ H → s'.view i = none)
    (hframe : ∀ i ∉ G b', i ≠ child → s'.view i = st.view i) :
    Pruned backend st s' (.node e v (update c b' t')) id nd b {i | i = child ∨ ∃ b, i ∈ G b} := by
  have hGne : ∀ i ∈ G (!b'), i ∉ G b' := by
    intro i hi hi'
    simpa using hdis _ _ i hi hi'
  refine ⟨hwf', child, _, represents_update st.view cnd G he hlen hkids hnot
    (by rw [hcid', hv]) hrep
    (fun i hi => ?_) (fun h => hnot b' (hHG h)) (fun i hi hi' => hGne i hi' (hHG hi)), ?_, ?_, ?_,
      ?_⟩
  · exact hframe i (hGne i hi) fun h => hnot _ (h ▸ hi)
  · rintro i (rfl | hi | hi)
    · exact Or.inl rfl
    · exact Or.inr ⟨b', hHG hi⟩
    · exact Or.inr ⟨!b', hi⟩
  · rw [hframe id (hidG b') hidne, hid, ← hlink, Children.set_get]
  · rintro i (rfl | ⟨a, hi⟩) hni
    · exact absurd (Or.inl rfl) hni
    · simp only [Set.mem_ofPred_eq, not_or] at hni
      by_cases ha : a = b'
      · subst ha
        exact hfree i hi hni.2.1
      · obtain rfl : a = !b' := by cases a <;> cases b' <;> simp_all
        exact absurd hi hni.2.2
  · intro i hi _
    simp only [Set.mem_ofPred_eq, not_or, not_exists] at hi
    exact hframe i (hi.2 b') hi.1

/-- A child of the node at `id` that lost its leaf for the bit `b'` stays if it has a value, and is
merged into its other subtree else. -/
theorem mergeParent_spec (path : List (Nat × Bool)) (hfull : v ≠ none ∨ ∀ b, c b ≠ .nil)
    (hchild : 2 ≤ child) (hbound : ∀ a, c a ≠ .nil → e.length + (c a).edge.length ≤ 128)
    {gone : Nat} (hG : G b' = {gone}) {s1 : NodeStore V maxPrefixes} (hwf1 : s1.WF backend)
    (hview1 : s1.view = update (update st.view child
      (some { cnd with children := cnd.children.set b' none })) gone none) :
    ∃ s', PrefixTrie.mergeParent s1 ((child, b') :: (id, b) :: path) = .ok s' ∧
      Pruned backend st s' (RadixTree.collapse e v (update c b' .nil)) id nd b
        {i | i = child ∨ ∃ b, i ∈ G b} := by
  have hgone : gone ∈ G b' := by simp [hG]
  have hcg : child ≠ gone := fun h => hnot b' (h ▸ hgone)
  have hig : id ≠ gone := fun h => hidG b' (h ▸ hgone)
  have hcid1 : s1.view child = some { cnd with children := cnd.children.set b' none } := by
    rw [hview1, update_of_ne hcg, update_self]
  have hother1 : ∀ i, i ≠ child → i ≠ gone → s1.view i = st.view i := fun i h1 h2 => by
    rw [hview1, update_of_ne h2, update_of_ne h1]
  have hgone1 : s1.view gone = none := by rw [hview1, update_self]
  simp only [PrefixTrie.mergeParent, NodeStore.index_of_view hcid1, ok_bind, hv]
  cases v with
  | some y =>
    refine ⟨s1, rfl, ?_⟩
    rw [RadixTree.collapse_value]
    refine pruned_below hid hcid he hlen hv hkids hdis hnot hlink hidne hidG hwf1 ⟨rfl, rfl⟩
      (Set.empty_subset _) hcid1 (fun i hi _ => ?_) fun i hi hic => ?_
    · rw [hG] at hi
      rw [Set.mem_singleton_iff.mp hi, hgone1]
    · exact hother1 i hic fun h => hi (h ▸ hgone)
  | none =>
    have hne : c (!b') ≠ .nil := hfull.resolve_left (by simp) _
    obtain ⟨only, honly⟩ : ∃ only, cnd.children.get (!b') = some only := by
      rw [← Option.ne_none_iff_exists', Ne, (hkids _).link_eq_none]
      exact hne
    have hrep1 : Represents s1.view (c (!b')) (some only) (G (!b')) := by
      rw [← honly]
      refine (hkids _).congr fun i hi => hother1 i (fun h => hnot _ (h ▸ hi)) ?_
      rintro rfl
      simpa using hdis _ _ i hi hgone
    rw [RadixTree.collapse_only (!b') (by simp), update_of_ne (by simp)]
    simp only [Option.isNone_none, if_true, Children.only_set_none, honly]
    refine pruned_merge hwf1 (fun i hi _ => ?_) (by rw [hother1 id hidne hig, hid]) ?_ hcid1 he hlen
      hchild hrep1 (hbound _ hne) (hnot _) (fun i hi => Or.inr ⟨_, hi⟩) (Or.inl rfl) ?_
    · refine hother1 i (fun h => hi (Or.inl h)) ?_
      rintro rfl
      exact hi (Or.inr ⟨b', hgone⟩)
    · rintro (h | ⟨a, h⟩)
      · exact hidne h
      · exact hidG a h
    · rintro i (rfl | ⟨a, hi⟩) hni hic
      · exact absurd rfl hic
      · by_cases ha : a = b'
        · subst ha
          rw [hG] at hi
          rw [Set.mem_singleton_iff.mp hi, hgone1]
        · obtain rfl : a = !b' := by cases a <;> cases b' <;> simp_all
          exact absurd hi hni

end Parent

theorem removeLoop_spec (hkey : Encodes key k) (hst : st.WF backend) (t : RadixTree V) :
    ∀ {id : Nat} {nd : Node V} {b : Bool} {r : List Bool} {F : Set Nat} {path : List (Nat × Bool)}
      {pos fuel : Nat}, st.view id = some nd → Represents st.view t (nd.children.get b) F → id ∉ F →
      (∀ i ∈ F, 2 ≤ i) → t.WF → (∀ q, t.get q ≠ none → q.length ≤ 128) → pos ≤ k.length →
      k.drop pos = b :: r → (b :: r).length < fuel → path.length + (b :: r).length ≤ 128 →
      RemovesBelow backend st t id nd b F path (b :: r)
        (PrefixTrie.removeLoop key k.length st fuel id pos path) := by
  induction t with
  | nil =>
    intro id nd b r F path pos fuel hid h _ _ _ _ hpos hk hfuel _
    obtain ⟨fuel, rfl⟩ : ∃ f, fuel = f + 1 := ⟨fuel - 1, by omega⟩
    have hlt : pos < k.length := by
      have := length_of_drop hpos hk
      simp at this
      omega
    refine Or.inl ⟨rfl, ?_⟩
    simp only [PrefixTrie.removeLoop, if_pos hlt, NodeStore.index_of_view hid, ok_bind,
      bit_of_drop hkey hk, h.1]
    rfl
  | node e v c ih =>
    intro id nd b r F path pos fuel hid h hidF hF hwf hbound hpos hk hfuel hpath
    obtain ⟨fuel, rfl⟩ : ∃ f, fuel = f + 1 := ⟨fuel - 1, by omega⟩
    have hklen := length_of_drop hpos hk
    have hlt : pos < k.length := by
      simp at hklen
      omega
    have hrest : Encodes (shl key pos) (b :: r) := hk ▸ encodes_shl hkey pos
    obtain ⟨child, cnd, G, hlink, hcid, he, hlen, hv, hkids, hdis, hnot, rfl⟩ := h
    have hchild : 2 ≤ child := hF child (Or.inl rfl)
    have hlenb := length_kid_le hwf.2.2 hbound
    simp only [PrefixTrie.removeLoop, if_pos hlt, NodeStore.index_of_view hid, ok_bind,
      bit_of_drop hkey hk, hlink]
    rw [show k.length - pos = (b :: r).length by omega, edgeMatch_eq hcid he hlen hrest]
    by_cases hpre : e <+: b :: r
    swap
    · rw [if_neg hpre]
      exact Or.inl ⟨by rw [RadixTree.get_node, if_neg hpre], rfl⟩
    have hroom : st.pathFull path = false := by
      cases st with
      | pool p => simp only [List.length_cons] at hpath; simp [NodeStore.pathFull]; omega
      | heap nodes free => rfl
    have hepos : 0 < e.length := List.length_pos_of_ne_nil hwf.1
    have hele := hpre.length_le
    rw [if_pos hpre]
    simp only [hroom]
    rw [if_neg (by simp)]
    obtain ⟨rest, hrest'⟩ := hpre
    have hk' : k.drop (pos + e.length) = rest := by
      rw [← List.drop_drop, hk, ← hrest', List.drop_left]
    have hlen' := congrArg List.length hrest'
    rw [List.length_append] at hlen'
    cases rest with
    | nil =>
      -- The key ends at the child.
      rw [List.append_nil] at hrest'
      obtain ⟨fuel, rfl⟩ : ∃ f, fuel = f + 1 := ⟨fuel - 1, by omega⟩
      have hdone : ¬ pos + e.length < k.length := by
        simp only [List.length_nil] at hlen'
        omega
      simp only [PrefixTrie.removeLoop, if_neg hdone]
      rw [← hrest']
      exact detach_spec hst hid hcid he hlen hv hkids hdis hnot hlink hidF hchild
        fun a => (hlenb a).1
    | cons b' r' =>
      have hget : (RadixTree.node e v c).get (b :: r) = (c b').get (b' :: r') := by
        rw [← hrest', RadixTree.get_node_append, RadixTree.getBelow_cons]
      have hremove : (RadixTree.node e v c).remove (b :: r) =
          RadixTree.collapse e v (update c b' ((c b').remove (b' :: r'))) := by
        rw [← hrest']
        simp [RadixTree.remove]
      have hpos' : pos + e.length ≤ k.length := by omega
      have hpath' : ((id, b) :: path).length + (b' :: r').length ≤ 128 := by
        simp only [List.length_cons] at hpath hlen' ⊢
        omega
      have hfuel' : (b' :: r').length < fuel := by omega
      have hidne : id ≠ child := fun h => hidF (Or.inl h)
      have hidG : ∀ a, id ∉ G a := fun a h => hidF (Or.inr ⟨a, h⟩)
      have hbelow := ih b' hcid (hkids b') (hnot b') (fun i hi => hF i (Or.inr ⟨b', hi⟩))
        (hwf.2.2 b').2 (hlenb b').2 hpos' hk' hfuel' hpath'
      rcases hbelow with ⟨hnone, hrun⟩ | ⟨x, hx, ⟨hne, s', hrun, hpruned⟩ | ⟨hnil, gone, s1, hG1,
        hwf1, hview1, hrun⟩⟩
      · exact Or.inl ⟨hget.trans hnone, hrun⟩
      · refine Or.inr ⟨x, hget.trans hx, Or.inl ?_⟩
        rw [hremove, RadixTree.collapse_update hwf.2.1 b' hne]
        obtain ⟨hwf', oid, H, hrep, hHG, hcid', hfree, hframe⟩ := hpruned
        exact ⟨by simp, s', hrun, pruned_below hid hcid he hlen hv hkids hdis hnot hlink hidne hidG
          hwf' hrep hHG hcid' hfree hframe⟩
      · refine Or.inr ⟨x, hget.trans hx, Or.inl ?_⟩
        rw [hremove, hnil]
        obtain ⟨s', hmerge, hpruned⟩ := mergeParent_spec hid hcid he hlen hv hkids
          hdis hnot hlink hidne hidG path hwf.2.1 hchild (fun a => (hlenb a).1) hG1 hwf1 hview1
        exact ⟨hpruned.ne_nil, s', by rw [hrun, hmerge]; rfl, hpruned⟩

end Remove

end Microtun
