import Microtun.PrefixTrie.Refine
import Mathlib.Data.List.AList
import Mathlib.Logic.Relation

/-! The trie refines a finite map from prefixes to values, over every sequence of insertions and
removals and in both storage modes. -/

namespace Microtun

open Function Radix

variable {V : Type} {maxPrefixes : Nat} {backend : Backend}

/-! ### The two address families -/

/-- Is this an IPv6 address? -/
def IpAddr.family : IpAddr → Bool
  | .v4 _ => false
  | .v6 _ => true

/-- Is this a prefix of IPv6 addresses? -/
def IpCidr.family : IpCidr → Bool
  | .v4 _ => false
  | .v6 _ => true

/-- The root of a family. -/
def rootOf : Bool → Nat
  | false => v4Root
  | true => v6Root

theorem encodes_v4 {a : BitVec 32} {s : List Bool} (h : Encodes a s) :
    Encodes (a.setWidth 128 <<< 96) s := by
  refine ⟨h.1.trans (by decide), fun i => ?_⟩
  rw [BitVec.getMsbD_shiftLeft, BitVec.getMsbD_setWidth, ← h.2]
  simp

theorem key_firstAddress (net : IpCidr) :
    ∃ w n, key net.firstAddress = (w, n, rootOf net.family) ∧ Encodes w net.bits := by
  cases net with
  | v4 c => exact ⟨_, _, rfl, encodes_v4 c.encodes_bits⟩
  | v6 c => exact ⟨_, _, rfl, c.encodes_bits⟩

theorem key_addr (addr : IpAddr) :
    ∃ w, key addr = (w, addr.bits.length, rootOf addr.family) ∧ Encodes w addr.bits := by
  cases addr with
  | v4 a =>
    refine ⟨_, by rw [key, IpAddr.bits, length_bitString]; rfl, encodes_v4 ?_⟩
    exact encodes_bitString (Nat.le_refl _) fun i hi => BitVec.getMsbD_of_ge a i hi
  | v6 a =>
    refine ⟨_, by rw [key, IpAddr.bits, length_bitString]; rfl, ?_⟩
    exact encodes_bitString (Nat.le_refl _) fun i hi => BitVec.getMsbD_of_ge a i hi

theorem IpCidr.contains_iff (net : IpCidr) (addr : IpAddr) :
    net.contains addr = true ↔ net.family = addr.family ∧ net.bits <+: addr.bits := by
  cases net <;> cases addr <;> simp [contains, family, IpAddr.family, bits, IpAddr.bits,
    Cidr.contains_iff]

theorem IpCidr.eq_of_bits {a b : IpCidr} (hf : a.family = b.family) (hb : a.bits = b.bits) :
    a = b := by
  cases a <;> cases b
  · exact congrArg IpCidr.v4 (Cidr.bits_injective hb)
  · cases hf
  · cases hf
  · exact congrArg IpCidr.v6 (Cidr.bits_injective hb)

/-- Every bit string that is a prefix of an address's bits is a prefix. -/
theorem IpCidr.exists_of_prefix {addr : IpAddr} {p : List Bool} (h : p <+: addr.bits) :
    ∃ net : IpCidr, net.family = addr.family ∧ net.bits = p := by
  have hof : ∀ {w : Nat} (a : BitVec w), p <+: bitString a w → ∃ c : Cidr w, c.bits = p := by
    intro w a hp
    have hlen : p.length ≤ w := by simpa using hp.length_le
    refine ⟨.ofAddress a p.length hlen, List.ext_getElem? fun i => ?_⟩
    simp only [Cidr.bits, Cidr.ofAddress, getElem?_bitString]
    by_cases hi : i < p.length
    · rw [if_pos hi]
      have hpi := List.prefix_iff_getElem?.mp hp i hi
      rw [getElem?_bitString, if_pos (by omega)] at hpi
      rw [List.getElem?_eq_getElem hi, ← hpi, BitVec.getMsbD_shiftLeft, BitVec.getMsbD_ushiftRight,
        show i + (w - p.length) - (w - p.length) = i by omega]
      simp
      omega
    · rw [if_neg hi, List.getElem?_eq_none (by omega)]
  cases addr with
  | v4 a =>
    obtain ⟨c, hc⟩ := hof a h
    exact ⟨.v4 c, rfl, hc⟩
  | v6 a =>
    obtain ⟨c, hc⟩ := hof a h
    exact ⟨.v6 c, rfl, hc⟩

namespace PrefixTrie

/-! ### Runs and the map they stand for -/

/-- A call that may change the trie. -/
inductive Op (V : Type) where
  | insert (net : IpCidr) (value : V)
  | remove (net : IpCidr)

/-- What such a call returns. -/
inductive Reply (V : Type) where
  | inserted (previous : Option V)
  | capacity
  | removed (value : Option V)

def exec (t : PrefixTrie V maxPrefixes) : Op V → Except Panic (Reply V × PrefixTrie V maxPrefixes)
  | .insert net value => do
    match ← t.insert net value with
    | (.ok previous, t) => return (.inserted previous, t)
    | (.error _, t) => return (.capacity, t)
  | .remove net => do
    let (value, t) ← t.remove net
    return (.removed value, t)

/-- The abstract map. -/
abbrev Map (V : Type) := AList fun _ : IpCidr => V

/-- The map after a call with its reply: a failed insertion leaves it alone. -/
def Map.apply (m : Map V) : Op V → Reply V → Map V
  | .insert net value, .inserted _ => AList.insert net value m
  | .remove net, _ => m.erase net
  | _, _ => m

/-- The replies the map allows. -/
def Map.Answers (m : Map V) : Op V → Reply V → Prop
  | .insert net _, .inserted previous => previous = m.lookup net
  | .insert _ _, .capacity => True
  | .remove net, .removed value => value = m.lookup net
  | _, _ => False

/-- The trie and the map after a sequence of calls on a new trie, the last call first. -/
def run (backend : Backend) : List (Op V) → Except Panic (PrefixTrie V maxPrefixes × Map V)
  | [] => return (new maxPrefixes backend, ∅)
  | op :: earlier => do
    let (t, m) ← run backend earlier
    let (reply, t) ← t.exec op
    return (t, m.apply op reply)

/-- `r` is the value of the longest prefix in the map that contains `addr`. -/
def Map.LongestMatch (m : Map V) (addr : IpAddr) (r : Option V) : Prop :=
  (r = none ∧ ∀ net, net ∈ m → net.contains addr = false) ∨
    ∃ net, net ∈ m ∧ net.contains addr = true ∧ r = m.lookup net ∧
      ∀ net', net' ∈ m → net'.contains addr = true → net'.networkLength ≤ net.networkLength

/-! ### The invariant -/

/-- The two trees a trie stands for: the values at the roots, and the subtrees below them. -/
structure Shape (V : Type) where
  value : Bool → Option V
  kids : Bool → Bool → RadixTree V
  nodes : Bool → Set Nat

/-- The store represents the two trees with nothing left over, and the trees hold the map. -/
structure Models (backend : Backend) (s : NodeStore V maxPrefixes) (T : Shape V) (m : Map V) :
    Prop where
  wf : s.WF backend
  represents : ∀ f, Represents s.view (.node [] (T.value f) (T.kids f)) (some (rootOf f))
    (T.nodes f)
  kids : ∀ f, RadixTree.Kids (T.kids f)
  disjoint : ∀ f f' i, i ∈ T.nodes f → i ∈ T.nodes f' → f = f'
  live : ∀ i, s.view i ≠ none → ∃ f, i ∈ T.nodes f
  get : ∀ net, RadixTree.getBelow (T.value net.family) (T.kids net.family) net.bits = m.lookup net
  stored : ∀ f k, RadixTree.getBelow (T.value f) (T.kids f) k ≠ none →
    ∃ net : IpCidr, net.family = f ∧ net.bits = k

theorem models_new (backend : Backend) :
    Models backend (NodeStore.new maxPrefixes backend : NodeStore V maxPrefixes)
      ⟨fun _ => none, fun _ _ => .nil, fun f => {rootOf f}⟩ ∅ := by
  have hroot : ∀ f, rootOf f < 2 := by intro f; cases f <;> decide
  refine ⟨NodeStore.wf_new backend, fun f => ?_, fun _ => RadixTree.kids_nil, ?_, fun i hi => ?_,
    fun net => ?_, fun f k hk => ?_⟩
  · refine ⟨rootOf f, Node.new 0 0, fun _ => ∅, rfl, ?_, ?_, rfl, rfl, fun b => ?_, by simp,
      by simp, by simp⟩
    · rw [NodeStore.view_new, if_pos (hroot f)]
    · exact encodes_zero
    · exact ⟨Children.get_empty b, rfl⟩
  · rintro f f' i rfl hi
    cases f <;> cases f' <;> simp_all [rootOf, v4Root, v6Root]
  · rw [NodeStore.view_new] at hi
    have hlt : i < 2 := by
      by_contra hge
      simp [hge] at hi
    obtain rfl | rfl : i = 0 ∨ i = 1 := by omega
    · exact ⟨false, rfl⟩
    · exact ⟨true, rfl⟩
  · cases net.bits <;> rfl
  · cases k <;> exact absurd rfl hk

theorem Models.length_le {s : NodeStore V maxPrefixes} {T : Shape V} {m : Map V}
    (h : Models backend s T m) {f : Bool} {k : List Bool}
    (hk : RadixTree.getBelow (T.value f) (T.kids f) k ≠ none) : k.length ≤ 128 := by
  obtain ⟨net, -, rfl⟩ := h.stored f k hk
  obtain ⟨w, n, -, hw⟩ := key_firstAddress net
  exact hw.1

/-- Two maps that differ in one prefix, seen through the trees. -/
theorem getBelow_lookup {v v' : Bool → Option V} {c c' : Bool → Bool → RadixTree V} {f : Bool}
    {net : IpCidr} (hf : net.family = f) {x : Option V} {m m' : Map V}
    (hget : ∀ net, RadixTree.getBelow (v net.family) (c net.family) net.bits = m.lookup net)
    (hnew : ∀ k, RadixTree.getBelow (v' f) (c' f) k =
      if k = net.bits then x else RadixTree.getBelow (v f) (c f) k)
    (hother : ∀ g, g ≠ f → v' g = v g ∧ c' g = c g)
    (hm : ∀ net', m'.lookup net' = if net' = net then x else m.lookup net') (net' : IpCidr) :
    RadixTree.getBelow (v' net'.family) (c' net'.family) net'.bits = m'.lookup net' := by
  rw [hm]
  by_cases hg : net'.family = f
  · rw [hg, hnew]
    by_cases hb : net'.bits = net.bits
    · rw [if_pos hb, if_pos (IpCidr.eq_of_bits (hg.trans hf.symm) hb)]
    · rw [if_neg hb, if_neg (fun h : net' = net => hb (h ▸ rfl)), ← hg, hget]
  · rw [(hother _ hg).1, (hother _ hg).2, hget, if_neg (fun h : net' = net => hg (h ▸ hf))]

/-- A family's tree is exchanged for another one; the other family keeps its nodes. -/
theorem Models.exchange {s s' : NodeStore V maxPrefixes} {T : Shape V} {m m' : Map V}
    (h : Models backend s T m) (net : IpCidr) {v' : Option V} {c' : Bool → RadixTree V}
    {F' : Set Nat} {x : Option V} (hwf : s'.WF backend)
    (hrep : Represents s'.view (.node [] v' c') (some (rootOf net.family)) F')
    (hkids : RadixTree.Kids c')
    (hfresh : ∀ i ∈ F', i ∉ T.nodes net.family → s.view i = none)
    (hgone : ∀ i ∈ T.nodes net.family, i ∉ F' → s'.view i = none)
    (hframe : ∀ i, i ∉ F' → i ∉ T.nodes net.family → s'.view i = s.view i)
    (hget : ∀ k, RadixTree.getBelow v' c' k = if k = net.bits then x
      else RadixTree.getBelow (T.value net.family) (T.kids net.family) k)
    (hm : ∀ net', m'.lookup net' = if net' = net then x else m.lookup net') :
    Models backend s' ⟨update T.value net.family v', update T.kids net.family c',
      update T.nodes net.family F'⟩ m' := by
  have hotherF : ∀ g, g ≠ net.family → ∀ i ∈ T.nodes g, i ∉ F' ∧ i ∉ T.nodes net.family := by
    intro g hg i hi
    have hnot : i ∉ T.nodes net.family := fun h' => hg (h.disjoint _ _ i hi h')
    exact ⟨fun hF => (h.represents g).live hi (hfresh i hF hnot), hnot⟩
  refine ⟨hwf, fun g => ?_, fun g => ?_, fun g g' i hi hi' => ?_, fun i hi => ?_, fun net' => ?_,
    fun g k hk => ?_⟩
  · by_cases hg : g = net.family
    · subst hg
      simpa using hrep
    · simp only [update_of_ne hg]
      exact (h.represents g).congr fun i hi => hframe i (hotherF g hg i hi).1 (hotherF g hg i hi).2
  · by_cases hg : g = net.family
    · subst hg
      simpa using hkids
    · simpa only [update_of_ne hg] using h.kids g
  · by_cases hg : g = net.family
    · by_cases hg' : g' = net.family
      · rw [hg, hg']
      · simp only [hg, update_self, update_of_ne hg'] at hi hi'
        exact absurd hi (hotherF g' hg' i hi').1
    · by_cases hg' : g' = net.family
      · simp only [hg', update_self, update_of_ne hg] at hi hi'
        exact absurd hi' (hotherF g hg i hi).1
      · simp only [update_of_ne hg, update_of_ne hg'] at hi hi'
        exact h.disjoint g g' i hi hi'
  · by_cases hF : i ∈ F'
    · exact ⟨net.family, by simpa using hF⟩
    · have hnot : i ∉ T.nodes net.family := fun h' => hi (hgone i h' hF)
      rw [hframe i hF hnot] at hi
      obtain ⟨g, hg⟩ := h.live i hi
      refine ⟨g, ?_⟩
      have hne : g ≠ net.family := fun e => hnot (e ▸ hg)
      simpa only [update_of_ne hne] using hg
  · exact getBelow_lookup rfl h.get (by simpa using hget)
      (fun g hg => ⟨update_of_ne hg _ _, update_of_ne hg _ _⟩) hm net'
  · by_cases hg : g = net.family
    · subst hg
      simp only [update_self] at hk
      rw [hget] at hk
      by_cases hb : k = net.bits
      · exact ⟨net, rfl, hb.symm⟩
      · rw [if_neg hb] at hk
        exact h.stored _ k hk
    · simp only [update_of_ne hg] at hk
      exact h.stored g k hk

/-! ### The operations keep the invariant -/

theorem lookup_insert (m : Map V) (net net' : IpCidr) (value : V) :
    (AList.insert net value m).lookup net' = if net' = net then some value else m.lookup net' := by
  by_cases h : net' = net
  · subst h
    simp
  · simp [AList.lookup_insert_ne h, h]

theorem lookup_erase (m : Map V) (net net' : IpCidr) :
    (m.erase net).lookup net' = if net' = net then none else m.lookup net' := by
  by_cases h : net' = net
  · subst h
    simp
  · simp [AList.lookup_erase_ne h, h]

/-- An insertion either finds no room and changes nothing, or inserts into the map. -/
theorem insert_spec {t : PrefixTrie V maxPrefixes} {T : Shape V} {m : Map V}
    (h : Models backend t.nodes T m) (net : IpCidr) (value : V) :
    (t.insert net value = .ok (.error .exhausted, t) ∧ t.nodes.checkCapacity 2 = false) ∨
      ∃ t' T', t.insert net value = .ok (.ok (m.lookup net), t') ∧
        Models backend t'.nodes T' (AList.insert net value m) := by
  obtain ⟨w, n, hkey, hw⟩ := key_firstAddress net
  simp only [insert, hkey, ← net.length_bits]
  rcases insertLoop_spec hw value _ rfl (h.kids _) (h.represents net.family) h.wf (Nat.zero_le _)
    (by omega : net.bits.length - 0 < net.bits.length + 1) with ⟨hrun, hcap⟩ | ⟨s', hrun, hgrown⟩
  · exact Or.inl ⟨by rw [hrun]; rfl, hcap⟩
  · rw [List.drop_zero] at hrun hgrown
    obtain ⟨hwf', F', hrep, hsub, hfresh, hframe⟩ := hgrown
    obtain ⟨v', c', heq, hkids', -, -, hget⟩ :=
      RadixTree.insertAt_spec value _ rfl (h.kids net.family) net.bits
    rw [heq] at hrep
    refine Or.inr ⟨⟨s'⟩, _, by rw [hrun, h.get]; rfl, h.exchange net hwf' hrep hkids'
      (fun i hi hi' => (hfresh i hi hi').1) (fun i hi hi' => absurd (hsub hi) hi')
      (fun i hi _ => hframe i hi) hget fun net' => lookup_insert m net net' value⟩

theorem Models.congr {s : NodeStore V maxPrefixes} {T : Shape V} {m m' : Map V}
    (h : Models backend s T m) (hm : ∀ net, m'.lookup net = m.lookup net) : Models backend s T m' :=
  ⟨h.wf, h.represents, h.kids, h.disjoint, h.live, fun net => (h.get net).trans (hm net).symm,
    h.stored⟩

theorem Models.two_le {s : NodeStore V maxPrefixes} {T : Shape V} {m : Map V}
    (h : Models backend s T m) {f : Bool} {i : Nat} (hi : i ∈ T.nodes f) (hne : i ≠ rootOf f) : 2 ≤
    i := by
  have hother : i ≠ rootOf (!f) := by
    rintro rfl
    obtain ⟨_, _, _, ⟨⟩, -, -, -, -, -, -, -, hnodes⟩ := h.represents (!f)
    have hmem : rootOf (!f) ∈ T.nodes (!f) := by
      rw [hnodes]
      exact Or.inl rfl
    simpa using h.disjoint _ _ _ hi hmem
  cases f <;> simp only [rootOf, v4Root, v6Root, Bool.not_false, Bool.not_true] at hne hother <;>
    omega

theorem remove_spec {t : PrefixTrie V maxPrefixes} {T : Shape V} {m : Map V}
    (h : Models backend t.nodes T m) (net : IpCidr) :
    ∃ t' T', t.remove net = .ok (m.lookup net, t') ∧ Models backend t'.nodes T' (m.erase net) := by
  obtain ⟨w, n, hkey, hw⟩ := key_firstAddress net
  obtain ⟨_, nd, G, ⟨⟩, hid, he, hlen, hv, hkids, hdis, hnot, hnodes⟩ := h.represents net.family
  have hget := h.get net
  have habsent : m.lookup net = none → Models backend t.nodes T (m.erase net) := by
    intro hnone
    refine h.congr fun net' => ?_
    rw [lookup_erase]
    split
    · rw [‹net' = net›, hnone]
    · rfl
  simp only [remove, hkey, ← net.length_bits]
  cases hbits : net.bits with
  | nil =>
    rw [hbits] at hget
    simp only [RadixTree.getBelow] at hget
    simp only [List.length_nil, removeLoop, Nat.lt_irrefl, if_false, detach,
      NodeStore.index_of_view hid, ok_bind, hv, hget]
    cases hval : m.lookup net with
    | none => exact ⟨t, T, rfl, habsent hval⟩
    | some x =>
      obtain ⟨s', hm, hwf', hview, -⟩ := NodeStore.modify_spec h.wf hid
        fun m => { m with value := none }
      have hrep : Represents s'.view (.node [] none (T.kids net.family))
          (some (rootOf net.family)) (T.nodes net.family) := by
        refine ⟨_, { nd with value := none }, G, rfl, by rw [hview, update_self], he, hlen, rfl,
          fun b => (hkids b).congr fun i hi => ?_, hdis, hnot, hnodes⟩
        rw [hview, update_of_ne]
        rintro rfl
        exact hnot b hi
      refine ⟨⟨s'⟩, _, by simp only [hm]; rfl, h.exchange net hwf' hrep (h.kids _)
        (fun i hi hi' => absurd hi hi') (fun i hi hi' => absurd hi hi') (fun i hi _ => ?_)
        (fun k => ?_) (lookup_erase m net)⟩
      · rw [hview, update_of_ne]
        rintro rfl
        rw [hnodes] at hi
        exact hi (Or.inl rfl)
      · rw [hbits]
        cases k <;> simp [RadixTree.getBelow]
  | cons b r =>
    rw [hbits] at hget hw
    have hkey128 := hw.1
    have hbound := length_kid_le (h.kids net.family) (e := []) (v := T.value net.family)
      (fun q hq => h.length_le (by rwa [← RadixTree.get_node_append []]))  b
    have hbelow := removeLoop_spec hw h.wf (T.kids net.family b) hid (hkids b) (hnot b)
      (fun i hi => h.two_le (hnodes ▸ Or.inr ⟨b, hi⟩) fun e => hnot b (e ▸ hi))
      (h.kids net.family b).2 hbound.2 (Nat.zero_le _) List.drop_zero
      (Nat.lt_succ_self (b :: r).length)
      (show ([] : List (Nat × Bool)).length + (b :: r).length ≤ 128 by simpa using hkey128)
    obtain ⟨hkids', hget'⟩ := RadixTree.remove_below (v := T.value net.family)
      (h.kids net.family) b r
    rw [RadixTree.getBelow_cons] at hget
    -- What is left of the subtree is linked below the root.
    have hexchange : ∀ {s' : NodeStore V maxPrefixes} {o' : Option Nat} {H : Set Nat},
      s'.WF backend →
        Represents s'.view ((T.kids net.family b).remove (b :: r)) o' H → H ⊆ G b →
        s'.view (rootOf net.family) = some { nd with children := nd.children.set b o' } →
        (∀ i ∈ G b, i ∉ H → s'.view i = none) →
        (∀ i ∉ G b, i ≠ rootOf net.family → s'.view i = t.nodes.view i) →
        ∃ T', Models backend s' T' (m.erase net) := by
      intro s' o' H hwf' hrep hHG hroot hfree hframe
      have hGne : ∀ i ∈ G (!b), i ∉ G b := by
        intro i hi hi'
        simpa using hdis _ _ i hi hi'
      have hrep' := represents_update t.nodes.view nd G he hlen hkids hnot
        (v := T.value net.family) (by rw [hroot, hv]) hrep
        (fun i hi => hframe i (hGne i hi) fun e => hnot _ (e ▸ hi)) (fun hi => hnot b (hHG hi))
        (fun i hi hi' => hGne i hi' (hHG hi))
      refine ⟨_, h.exchange net hwf' hrep' hkids' ?_ ?_ ?_ (by rw [hbits]; exact hget')
        (lookup_erase m net)⟩
      · rw [hnodes]
        rintro i (rfl | hi | hi) hi'
        · exact absurd (Or.inl rfl) hi'
        · exact absurd (Or.inr ⟨b, hHG hi⟩) hi'
        · exact absurd (Or.inr ⟨_, hi⟩) hi'
      · rw [hnodes]
        rintro i (rfl | ⟨a, hi⟩) hi'
        · exact absurd (Or.inl rfl) hi'
        · simp only [Set.mem_ofPred_eq, not_or] at hi'
          by_cases ha : a = b
          · subst ha
            exact hfree i hi hi'.2.1
          · obtain rfl : a = !b := by cases a <;> cases b <;> simp_all
            exact absurd hi hi'.2.2
      · intro i hi hi'
        rw [hnodes] at hi'
        exact hframe i (fun e => hi' (Or.inr ⟨b, e⟩)) fun e => hi' (Or.inl e)
    rcases hbelow with ⟨hnone, hrun⟩ | ⟨x, hx, ⟨-, s', hrun, hwf', child, H, hrep, hHG, hroot,
      hfree, hframe⟩ | ⟨hnil, child, s1, hG, hwf1, hview1, hrun⟩⟩
    · rw [hrun, ← hget, hnone]
      exact ⟨t, T, rfl, habsent (hget.symm.trans hnone)⟩
    · obtain ⟨T', hT'⟩ := hexchange hwf' hrep hHG hroot hfree hframe
      exact ⟨⟨s'⟩, T', by rw [hrun, ← hget, hx]; rfl, hT'⟩
    · have hchild : child ∈ G b := by simp [hG]
      have hne : rootOf net.family ≠ child := fun e => hnot b (e ▸ hchild)
      have hrep : Represents s1.view ((T.kids net.family b).remove (b :: r)) none ∅ := by
        rw [hnil]
        exact ⟨rfl, rfl⟩
      obtain ⟨T', hT'⟩ := hexchange hwf1 hrep (Set.empty_subset _)
        (by rw [hview1, update_of_ne hne, update_self])
        (fun i hi _ => by rw [hG] at hi; rw [Set.mem_singleton_iff.mp hi, hview1, update_self])
        (fun i hi hir => by
          rw [hview1, update_of_ne (fun e : i = child => hi (e ▸ hchild)), update_of_ne hir])
      exact ⟨⟨s1⟩, T', by rw [hrun, ← hget, hx]; rfl, hT'⟩

theorem get_spec {t : PrefixTrie V maxPrefixes} {T : Shape V} {m : Map V}
    (h : Models backend t.nodes T m) (net : IpCidr) : t.get net = .ok (m.lookup net) := by
  obtain ⟨w, n, hkey, hw⟩ := key_firstAddress net
  simp only [get, hkey, ← net.length_bits]
  rw [getLoop_eq hw _ rfl (h.kids _) (h.represents net.family) (Nat.zero_le _) (by omega),
    List.drop_zero, h.get]

theorem lookup_spec {t : PrefixTrie V maxPrefixes} {T : Shape V} {m : Map V}
    (h : Models backend t.nodes T m) (addr : IpAddr) :
    ∃ r, t.lookup addr = .ok r ∧ m.LongestMatch addr r := by
  obtain ⟨w, hkey, hw⟩ := key_addr addr
  obtain ⟨_, nd, -, ⟨⟩, hid, -, -, hv, -⟩ := h.represents addr.family
  have hrun := lookupLoop_eq hw _ none rfl (h.kids _) (h.represents addr.family)
    (Nat.zero_le _) (by omega : addr.bits.length - 0 < addr.bits.length + 1)
  rw [Option.or_none, List.drop_zero] at hrun
  refine ⟨_, by simp only [lookup, hkey, NodeStore.get_of_view hid, hv]; exact hrun, ?_⟩
  have hroot : ∀ k, (RadixTree.node [] (T.value addr.family) (T.kids addr.family)).get k =
      RadixTree.getBelow (T.value addr.family) (T.kids addr.family) k := fun k =>
    RadixTree.get_node_append [] _ _ k
  -- A prefix of the map that contains the address is a stored prefix of its bits.
  have hmem : ∀ net : IpCidr, net.family = addr.family →
      (RadixTree.node [] (T.value addr.family) (T.kids addr.family)).get net.bits = m.lookup net :=
    fun net hf => by rw [hroot, ← hf, h.get]
  rcases RadixTree.lookup_longest (.node [] (T.value addr.family) (T.kids addr.family)) none
    (by rintro _ _ _ ⟨⟩; exact h.kids _) addr.bits with ⟨hr, hnone⟩ | ⟨p, hp, hne, hr, hmax⟩
  · refine Or.inl ⟨hr, fun net hnet => ?_⟩
    by_contra hc
    obtain ⟨hf, hpre⟩ := (net.contains_iff addr).mp (by simpa using hc)
    have := hnone _ hpre
    rw [hmem net hf] at this
    exact AList.lookup_eq_none.mp this hnet
  · obtain ⟨net, hf, rfl⟩ := IpCidr.exists_of_prefix hp
    rw [hmem net hf] at hne hr
    refine Or.inr ⟨net, ?_, (net.contains_iff addr).mpr ⟨hf, hp⟩, hr, fun net' hnet' hc' => ?_⟩
    · by_contra hnot
      exact hne (AList.lookup_eq_none.mpr hnot)
    · obtain ⟨hf', hp'⟩ := (net'.contains_iff addr).mp hc'
      have := hmax _ hp' (by
        rw [hmem net' hf']
        exact fun e => AList.lookup_eq_none.mp e hnet')
      simpa using this

theorem exec_spec {t : PrefixTrie V maxPrefixes} {T : Shape V} {m : Map V}
    (h : Models backend t.nodes T m) (op : Op V) :
    ∃ reply t' T', t.exec op = .ok (reply, t') ∧ m.Answers op reply ∧
      Models backend t'.nodes T' (m.apply op reply) := by
  cases op with
  | insert net value =>
    rcases insert_spec h net value with ⟨hrun, -⟩ | ⟨t', T', hrun, hT'⟩
    · exact ⟨.capacity, t, T, by simp only [exec, hrun]; rfl, trivial, h⟩
    · exact ⟨.inserted (m.lookup net), t', T', by simp only [exec, hrun]; rfl, rfl, hT'⟩
  | remove net =>
    obtain ⟨t', T', hrun, hT'⟩ := remove_spec h net
    exact ⟨.removed (m.lookup net), t', T', by simp only [exec, hrun]; rfl, rfl, hT'⟩

/-- Every sequence of calls runs through without a panic and leaves a trie that models the map. -/
theorem run_spec (maxPrefixes : Nat) (backend : Backend) (ops : List (Op V)) :
    ∃ (t : PrefixTrie V maxPrefixes) (m : Map V) (T : Shape V), run backend ops = .ok (t, m) ∧
      Models backend t.nodes T m := by
  induction ops with
  | nil => exact ⟨new maxPrefixes backend, ∅, _, rfl, models_new backend⟩
  | cons op ops ih =>
    obtain ⟨t, m, T, hrun, hT⟩ := ih
    obtain ⟨reply, t', T', hexec, -, hT'⟩ := exec_spec hT op
    exact ⟨t', m.apply op reply, T', by simp only [run, hrun, ok_bind, hexec]; rfl, hT'⟩

/-- After every sequence of insertions and removals the trie answers as the map does: exact reads
return the value of the prefix, lookups the value of the longest prefix that contains the address,
and a further call returns what the map holds. -/
theorem refines_map (backend : Backend) (ops : List (Op V)) :
    ∃ (t : PrefixTrie V maxPrefixes) (m : Map V), run backend ops = .ok (t, m) ∧
      (∀ net, t.get net = .ok (m.lookup net)) ∧
      (∀ addr, ∃ r, t.lookup addr = .ok r ∧ m.LongestMatch addr r) ∧
      ∀ op, ∃ reply t', t.exec op = .ok (reply, t') ∧ m.Answers op reply := by
  obtain ⟨t, m, T, hrun, hT⟩ := run_spec maxPrefixes backend ops
  refine ⟨t, m, hrun, get_spec hT, lookup_spec hT, fun op => ?_⟩
  obtain ⟨reply, t', -, hexec, hans, -⟩ := exec_spec hT op
  exact ⟨reply, t', hexec, hans⟩

end PrefixTrie

end Microtun
