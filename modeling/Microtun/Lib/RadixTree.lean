import Mathlib.Data.Finset.Card
import Mathlib.Data.Finset.Union
import Mathlib.Data.List.Infix
import Mathlib.Logic.Function.Basic

/-! Path-compressed binary radix trees as functions of bit strings.  A node carries the run of bits
that leads into it, so a tree of values is addressed by the concatenation of the edges on a path.
`get` is the meaning of a tree, `insertAt` and `remove` are updates of it, and `lookupAt` is the
longest stored prefix of a key. -/

namespace Radix

/-- The length of the longest common prefix of two bit strings. -/
def shared : List Bool → List Bool → Nat
  | [], _ => 0
  | _ :: _, [] => 0
  | a :: as, b :: bs => if a = b then shared as bs + 1 else 0

theorem shared_le_left (a b : List Bool) : shared a b ≤ a.length := by
  fun_induction shared a b <;> simp_all

theorem shared_le_right (a b : List Bool) : shared a b ≤ b.length := by
  fun_induction shared a b <;> simp_all

theorem take_shared (a b : List Bool) : a.take (shared a b) = b.take (shared a b) := by
  fun_induction shared a b <;> simp_all

theorem shared_differ (a b : List Bool) (ha : shared a b < a.length) (hb : shared a b < b.length) :
    a[shared a b]? ≠ b[shared a b]? := by
  fun_induction shared a b <;> simp_all

theorem shared_eq_length_iff (a b : List Bool) : shared a b = b.length ↔ b <+: a := by
  fun_induction shared a b with
  | case1 b => cases b <;> simp
  | case2 a as => simp
  | case3 as b bs ih => simp [ih]
  | case4 a as b bs h => simp [Ne.symm h]

/-- A common prefix of two bit strings is no longer than their longest one. -/
theorem le_shared {a b : List Bool} {n : Nat} (ha : n ≤ a.length) (hb : n ≤ b.length)
    (h : ∀ i < n, a[i]? = b[i]?) : n ≤ shared a b := by
  by_contra hlt
  exact shared_differ a b (by omega) (by omega) (h _ (by omega))

/-- Two bit strings as their longest common prefix and what follows it in each. -/
theorem shared_factor (a b : List Bool) (hb : shared a b ≠ b.length) :
    ∃ p as bit bs, a = p ++ as ∧ b = p ++ bit :: bs ∧ shared a b = p.length ∧
      as.head? ≠ some bit := by
  have hlt : shared a b < b.length := lt_of_le_of_ne (shared_le_right a b) hb
  refine ⟨a.take (shared a b), a.drop (shared a b), b.get ⟨shared a b, hlt⟩,
    b.drop (shared a b + 1), (List.take_append_drop _ _).symm, ?_, ?_, ?_⟩
  · rw [take_shared, List.get_eq_getElem, ← List.drop_eq_getElem_cons hlt, List.take_append_drop]
  · rw [List.length_take, Nat.min_eq_left (shared_le_left a b)]
  · rw [List.head?_drop]
    intro h
    have hla : shared a b < a.length := by
      by_contra hge
      simp [List.getElem?_eq_none (Nat.le_of_not_lt hge)] at h
    exact shared_differ a b hla hlt (by rw [h, List.getElem?_eq_getElem hlt]; rfl)

end Radix

/-- A radix tree: absent, or a node below the bits `edge` with an optional value and a subtree for
each next bit. -/
inductive RadixTree (V : Type) where
  | nil
  | node (edge : List Bool) (value : Option V) (child : Bool → RadixTree V)

namespace RadixTree

open Radix Function

variable {V : Type}

def edge : RadixTree V → List Bool
  | nil => []
  | node e _ _ => e

@[simp] theorem edge_node (e : List Bool) (v : Option V) (c : Bool → RadixTree V) :
    (node e v c).edge = e := rfl

/-- The value at exactly the key `k`, whose first bits are the tree's own edge. -/
def get : RadixTree V → List Bool → Option V
  | nil, _ => none
  | node e v c, k =>
    if e <+: k then
      match k.drop e.length with
      | [] => v
      | b :: r => (c b).get (b :: r)
    else none

/-- The value at exactly `k` below a node whose edge has been consumed. -/
def getBelow (v : Option V) (c : Bool → RadixTree V) : List Bool → Option V
  | [] => v
  | b :: r => (c b).get (b :: r)

@[simp] theorem get_nil (k : List Bool) : (nil : RadixTree V).get k = none := rfl

theorem get_node (e : List Bool) (v : Option V) (c : Bool → RadixTree V) (k : List Bool) :
    (node e v c).get k = if e <+: k then getBelow v c (k.drop e.length) else none := by
  simp only [get]
  split
  · cases k.drop e.length <;> rfl
  · rfl

@[simp] theorem get_node_append (e : List Bool) (v : Option V) (c : Bool → RadixTree V)
    (r : List Bool) : (node e v c).get (e ++ r) = getBelow v c r := by
  simp [get_node]

theorem getBelow_cons (v : Option V) (c : Bool → RadixTree V) (b : Bool) (r : List Bool) :
    getBelow v c (b :: r) = (c b).get (b :: r) := rfl

/-! ### Well-formed trees -/

/-- The subtree reached by bit `b` is absent or starts with that bit. -/
def Starts (b : Bool) (t : RadixTree V) : Prop := t = nil ∨ t.edge.head? = some b

/-- Every node has a nonempty edge and holds a value or has two children, and every subtree starts
with the bit that leads to it. -/
def WF : RadixTree V → Prop
  | nil => True
  | node e v c => e ≠ [] ∧ (v ≠ none ∨ ∀ b, c b ≠ nil) ∧ ∀ b, (c b).Starts b ∧ (c b).WF

/-- The subtrees of a node, which may itself be a root. -/
def Kids (c : Bool → RadixTree V) : Prop := ∀ b, (c b).Starts b ∧ (c b).WF

theorem Starts.get_eq_none {b b' : Bool} {t : RadixTree V} (h : t.Starts b) (hne : b' ≠ b)
    (r : List Bool) : t.get (b' :: r) = none := by
  rcases h with rfl | h
  · rfl
  · cases t with
    | nil => rfl
    | node e v c =>
      obtain ⟨a, rest, rfl⟩ : ∃ a rest, e = a :: rest := by
        cases e <;> simp_all
      obtain rfl : a = b := by simpa using h
      simp [get_node, Ne.symm hne]

theorem WF.get_nil_key {t : RadixTree V} (h : t.WF) : t.get [] = none := by
  cases t with
  | nil => rfl
  | node e v c => simp [get_node, h.1]

theorem Kids.update {c : Bool → RadixTree V} (h : Kids c) {b : Bool} {t : RadixTree V}
    (hs : t.Starts b) (ht : t.WF) : Kids (update c b t) := by
  intro b'
  by_cases hb : b' = b
  · subst hb
    simpa using ⟨hs, ht⟩
  · simpa [hb] using h b'

theorem kids_nil : Kids (fun _ => (nil : RadixTree V)) := fun _ => ⟨Or.inl rfl, trivial⟩

/-! ### Insertion -/

def leaf (e : List Bool) (x : V) : RadixTree V := node e (some x) fun _ => nil

/-- Split the node `node e v c` at `s` bits to make room for a key that leaves its edge there and
has `rest` bits left to the node. -/
def split (x : V) (e : List Bool) (v : Option V) (c : Bool → RadixTree V) (rest : List Bool)
    (s : Nat) : RadixTree V :=
  let low := update (fun _ => nil) ((e.drop s).headD false) (node (e.drop s) v c)
  if s = rest.length then node (e.take s) (some x) low
  else node (e.take s) none (update low ((rest.drop s).headD false) (leaf (rest.drop s) x))

/-- Put `x` at `rest` into the subtree `t` reached by the first bit of `rest`; `deeper` inserts
below the node of `t`. -/
def place (x : V) (t : RadixTree V) (deeper : List Bool → RadixTree V) (rest : List Bool) :
    RadixTree V :=
  match t with
  | nil => leaf rest x
  | node e v c =>
    if shared rest e = e.length then deeper (rest.drop e.length)
    else split x e v c rest (shared rest e)

/-- Put `x` at `rest` below the node `t`, whose own edge has been consumed. -/
def insertAt (x : V) : RadixTree V → List Bool → RadixTree V
  | nil, _ => nil
  | node e _ c, [] => node e (some x) c
  | node e v c, b :: r =>
    node e v (update c b (place x (c b) (fun rest => insertAt x (c b) rest) (b :: r)))

/-- Cutting an edge in two does not change the meaning of a node. -/
theorem get_cut (p : List Bool) (bit : Bool) (bs : List Bool) (v : Option V)
    (c : Bool → RadixTree V) (k : List Bool) :
    (node p none (update (fun _ => nil) bit (node (bit :: bs) v c))).get k =
      (node (p ++ bit :: bs) v c).get k := by
  by_cases hp : p <+: k
  · obtain ⟨r, rfl⟩ := hp
    rw [get_node_append, get_node]
    cases r with
    | nil =>
      rw [List.append_nil, if_neg fun h => ?_]
      · rfl
      · have := h.length_le
        rw [List.length_append, List.length_cons] at this
        omega
    | cons b r =>
      rw [getBelow_cons]
      by_cases hb : b = bit
      · subst hb
        simp [get_node, List.drop_append, List.drop_eq_nil_of_le]
      · simp [hb, Ne.symm hb]
  · rw [get_node, get_node, if_neg hp, if_neg fun h => hp ((List.prefix_append _ _).trans h)]

theorem getBelow_update (v : Option V) (c : Bool → RadixTree V) (b : Bool) (t : RadixTree V)
    (k : List Bool) :
    getBelow v (update c b t) k = if k.head? = some b then t.get k else getBelow v c k := by
  cases k with
  | nil => simp [getBelow]
  | cons a r =>
    rw [getBelow_cons, getBelow_cons]
    by_cases h : a = b
    · subst h
      simp
    · simp [h]

theorem leaf_wf {e : List Bool} (he : e ≠ []) (x : V) : (leaf e x).WF :=
  ⟨he, Or.inl (by simp), kids_nil⟩

theorem get_leaf (e : List Bool) (x : V) (k : List Bool) :
    (leaf e x).get k = if k = e then some x else none := by
  rw [leaf, get_node]
  by_cases he : e <+: k
  · obtain ⟨r, rfl⟩ := he
    cases r <;> simp [getBelow]
  · rw [if_neg he, if_neg]
    rintro rfl
    exact he (List.prefix_refl _)

/-- A split node is well formed, starts where the node it replaces did, and adds `x` at the key. -/
theorem split_spec (x : V) {p as : List Bool} {bit : Bool} {bs : List Bool} {v : Option V}
    {c : Bool → RadixTree V} (hp : p ≠ []) (hwf : (node (p ++ bit :: bs) v c).WF)
    (has : as.head? ≠ some bit) :
    (split x (p ++ bit :: bs) v c (p ++ as) p.length).WF ∧
    (split x (p ++ bit :: bs) v c (p ++ as) p.length).edge = p ∧
    ∀ k, (split x (p ++ bit :: bs) v c (p ++ as) p.length).get k =
      if k = p ++ as then some x else (node (p ++ bit :: bs) v c).get k := by
  have hlow : (node (bit :: bs) v c).WF := ⟨by simp, hwf.2⟩
  have hkids : Kids (update (fun _ => nil) bit (node (bit :: bs) v c)) :=
    kids_nil.update (Or.inr rfl) hlow
  have htake : (p ++ bit :: bs).take p.length = p := by simp
  have hdrop : (p ++ bit :: bs).drop p.length = bit :: bs := by simp
  cases as with
  | nil =>
    have hsplit : split x (p ++ bit :: bs) v c (p ++ []) p.length =
        node p (some x) (update (fun _ => nil) bit (node (bit :: bs) v c)) := by
      simp only [split, hdrop, htake]
      simp
    rw [hsplit]
    refine ⟨⟨hp, Or.inl (by simp), hkids⟩, rfl, fun k => ?_⟩
    rw [← get_cut, get_node, get_node, List.append_nil]
    by_cases hk : p <+: k
    · obtain ⟨r, rfl⟩ := hk
      cases r with
      | nil => simp [getBelow]
      | cons b r => simp [getBelow]
    · rw [if_neg hk, if_neg, if_neg hk]
      rintro rfl
      exact hk (List.prefix_refl _)
  | cons a as =>
    have hne : a ≠ bit := by simpa using has
    have hsplit : split x (p ++ bit :: bs) v c (p ++ a :: as) p.length =
        node p none (update (update (fun _ => nil) bit (node (bit :: bs) v c)) a
          (leaf (a :: as) x)) := by
      simp only [split, hdrop, htake]
      simp
    rw [hsplit]
    refine ⟨⟨hp, Or.inr fun b => ?_, hkids.update (Or.inr rfl) (leaf_wf (by simp) x)⟩, rfl,
      fun k => ?_⟩
    · by_cases hb : b = a
      · subst hb
        simp [leaf]
      · have : b = bit := by cases a <;> cases b <;> cases bit <;> simp_all
        subst this
        simp [hb]
    · rw [← get_cut, get_node, get_node]
      by_cases hk : p <+: k
      · obtain ⟨r, rfl⟩ := hk
        simp only [List.prefix_append, if_true, List.drop_left, List.append_cancel_left_eq]
        rw [getBelow_update]
        by_cases hr : r = a :: as
        · subst hr
          simp [get_leaf]
        · rw [if_neg hr, get_leaf, if_neg hr]
          split
          · cases r with
            | nil => simp at *
            | cons b r =>
              obtain rfl : b = a := by simp_all
              simp [getBelow, hne]
          · rfl
      · rw [if_neg hk, if_neg, if_neg hk]
        rintro rfl
        exact hk (List.prefix_append _ _)

/-- Insertion below a node keeps its edge, its well-formedness, and every value but the one at the
key. -/
theorem insertAt_spec (x : V) (t : RadixTree V) : ∀ {e : List Bool} {v : Option V}
    {c : Bool → RadixTree V}, t = node e v c → Kids c → ∀ rest,
    ∃ v' c', insertAt x t rest = node e v' c' ∧ Kids c' ∧ (v ≠ none → v' ≠ none) ∧
      (∀ b, c b ≠ nil → c' b ≠ nil) ∧
      ∀ k, getBelow v' c' k = if k = rest then some x else getBelow v c k := by
  induction t with
  | nil => intro e v c h; cases h
  | node e v c ih =>
    rintro _ _ _ ⟨⟩ hkids rest
    cases rest with
    | nil =>
      refine ⟨some x, c, rfl, hkids, fun _ => by simp, fun _ h => h, fun k => ?_⟩
      cases k <;> simp [getBelow]
    | cons b r =>
      obtain ⟨hstarts, hwf⟩ := hkids b
      -- What is placed in the subtree for `b`, whatever its shape.
      suffices hplace : ∃ t', place x (c b) (fun rest => insertAt x (c b) rest) (b :: r) = t' ∧
          t'.Starts b ∧ t'.WF ∧ t' ≠ nil ∧
          ∀ k, t'.get k = if k = b :: r then some x else (c b).get k by
        obtain ⟨t', hrun, hs', hwf', hnil, hget⟩ := hplace
        refine ⟨v, update c b t', by rw [insertAt, hrun], hkids.update hs' hwf', fun h => h,
          fun b' hb' => ?_, fun k => ?_⟩
        · by_cases h : b' = b
          · subst h
            simpa using hnil
          · simpa [h] using hb'
        · rw [getBelow_update]
          cases k with
          | nil => simp [getBelow]
          | cons a k =>
            by_cases ha : a = b
            · subst ha
              simp [hget, getBelow_cons]
            · simp [ha]
      cases hc : c b with
      | nil =>
        exact ⟨_, rfl, Or.inr rfl, leaf_wf (by simp) x, by simp [place, leaf],
          fun k => by simp [place, get_leaf]⟩
      | node ce cv cc =>
        rw [hc] at hstarts hwf
        have hhead : ce.head? = some b := hstarts.resolve_left (by simp)
        simp only [place]
        by_cases hs : shared (b :: r) ce = ce.length
        · rw [if_pos hs]
          obtain ⟨tail, htail⟩ := (shared_eq_length_iff _ _).mp hs
          obtain ⟨v', c', hrun, hk', hval, hchild, hget⟩ := ih b hc hwf.2.2 tail
          rw [hc] at hrun
          rw [← htail, List.drop_left, hrun]
          refine ⟨_, rfl, Or.inr hhead, ⟨hwf.1, ?_, hk'⟩, by simp, fun k => ?_⟩
          · rcases hwf.2.1 with h | h
            · exact Or.inl (hval h)
            · exact Or.inr fun b' => hchild b' (h b')
          · rw [get_node, get_node]
            by_cases hk : ce <+: k
            · obtain ⟨q, rfl⟩ := hk
              simp [hget]
            · rw [if_neg hk, if_neg, if_neg hk]
              rintro rfl
              exact hk (List.prefix_append _ _)
        · rw [if_neg hs]
          obtain ⟨p, as, bit, bs, has, hbs, hlen, hdiff⟩ := shared_factor _ _ hs
          have hp : p ≠ [] := by
            rintro rfl
            apply hdiff
            simp only [List.nil_append] at has hbs
            rw [← has, List.head?_cons, ← hhead, hbs, List.head?_cons]
          obtain ⟨hwf', hedge, hget⟩ := split_spec x hp (hbs ▸ hwf) hdiff
          rw [hlen, hbs, has]
          refine ⟨_, rfl, Or.inr ?_, hwf', ?_, hget⟩
          · obtain ⟨q, p', rfl⟩ := List.exists_cons_of_ne_nil hp
            rw [hedge]
            simp only [List.cons_append, List.cons.injEq] at has
            simp [has.1]
          · intro h
            rw [h] at hedge
            exact hp hedge.symm

/-! ### Removal -/

/-- Put the bits `e` in front of a subtree's edge. -/
def lengthen (e : List Bool) : RadixTree V → RadixTree V
  | nil => nil
  | node ce v c => node (e ++ ce) v c

/-- A node after one of its parts was removed: a valueless node with one subtree is merged into
it, and one with none disappears. -/
def collapse (e : List Bool) (v : Option V) (c : Bool → RadixTree V) : RadixTree V :=
  match v, c false, c true with
  | none, nil, t => lengthen e t
  | none, t, nil => lengthen e t
  | v, _, _ => node e v c

/-- Remove the value at `k`, merging edges back together. -/
def remove : RadixTree V → List Bool → RadixTree V
  | nil, _ => nil
  | node e v c, k =>
    if e <+: k then
      match k.drop e.length with
      | [] => collapse e none c
      | b :: r => collapse e v (update c b ((c b).remove (b :: r)))
    else node e v c

theorem collapse_value (e : List Bool) (x : V) (c : Bool → RadixTree V) :
    collapse e (some x) c = node e (some x) c := by
  simp [collapse]

theorem collapse_full {e : List Bool} {v : Option V} {c : Bool → RadixTree V}
    (h : ∀ b, c b ≠ nil) : collapse e v c = node e v c := by
  have hf := h false
  have ht := h true
  cases v with
  | some x => exact collapse_value e x c
  | none =>
    cases hcf : c false with
    | nil => exact absurd hcf hf
    | node ce cv cc =>
      cases hct : c true with
      | nil => exact absurd hct ht
      | node ce' cv' cc' => simp [collapse, hcf, hct]

/-- A well-formed node keeps its place when one of its subtrees is exchanged for another. -/
theorem collapse_update {e : List Bool} {v : Option V} {c : Bool → RadixTree V}
    (h : v ≠ none ∨ ∀ b, c b ≠ nil) (b : Bool) {t : RadixTree V} (ht : t ≠ nil) :
    collapse e v (update c b t) = node e v (update c b t) := by
  rcases h with h | h
  · obtain ⟨x, rfl⟩ := Option.ne_none_iff_exists'.mp h
    exact collapse_value e x _
  · refine collapse_full fun b' => ?_
    by_cases hb : b' = b
    · subst hb
      simpa using ht
    · simpa [hb] using h b'

theorem collapse_only {e : List Bool} {c : Bool → RadixTree V} (b : Bool) (h : c (!b) = nil) :
    collapse e none c = lengthen e (c b) := by
  cases b with
  | false =>
    simp only [Bool.not_false] at h
    cases hc : c false <;> simp [collapse, hc, h]
  | true =>
    simp only [Bool.not_true] at h
    simp [collapse, h]

theorem lengthen_wf {e : List Bool} {t : RadixTree V} (h : t.WF) : (lengthen e t).WF := by
  cases t with
  | nil => trivial
  | node ce v c => exact ⟨by simp [h.1], h.2⟩

theorem get_lengthen {e : List Bool} {t : RadixTree V} {b : Bool} (hs : t.Starts b)
    (k : List Bool) : (lengthen e t).get k = (node e none (update (fun _ => nil) b t)).get k := by
  cases t with
  | nil =>
    have : update (fun _ => (nil : RadixTree V)) b nil = fun _ => nil := by simp
    rw [lengthen, this, get_node]
    split
    · cases k.drop e.length <;> rfl
    · rfl
  | node ce v c =>
    have hhead := hs.resolve_left (by simp)
    obtain ⟨bs, rfl⟩ : ∃ bs, ce = b :: bs := by
      cases ce <;> simp_all
    exact (get_cut e b bs v c k).symm

/-- Collapsing a node does not change its meaning, and makes it well formed. -/
theorem collapse_spec {e : List Bool} {v : Option V} {c : Bool → RadixTree V} (he : e ≠ [])
    (hkids : Kids c) :
    (collapse e v c).WF ∧ (collapse e v c = nil ∨ (collapse e v c).edge.head? = e.head?) ∧
    ∀ k, (collapse e v c).get k = (node e v c).get k := by
  obtain ⟨a, e', rfl⟩ := List.exists_cons_of_ne_nil he
  by_cases hfull : v ≠ none ∨ ∀ b, c b ≠ nil
  · have hnode : collapse (a :: e') v c = node (a :: e') v c := by
      rcases hfull with h | h
      · obtain ⟨x, rfl⟩ := Option.ne_none_iff_exists'.mp h
        exact collapse_value _ x c
      · exact collapse_full h
    rw [hnode]
    exact ⟨⟨he, hfull, hkids⟩, Or.inr rfl, fun _ => rfl⟩
  · obtain ⟨rfl, b, hb⟩ : v = none ∧ ∃ b, c b = nil := by
      simpa only [not_or, not_not, not_forall] using hfull
    have hc : c = update (fun _ => nil) (!b) (c (!b)) := by
      funext b'
      cases b <;> cases b' <;> simp_all
    have hnode : collapse (a :: e') none c = lengthen (a :: e') (c (!b)) :=
      collapse_only (!b) (by simpa using hb)
    rw [hnode]
    obtain ⟨hs, hwf⟩ := hkids (!b)
    refine ⟨lengthen_wf hwf, ?_, fun k => ?_⟩
    · cases hct : c (!b) with
      | nil => exact Or.inl rfl
      | node ce cv cc => exact Or.inr rfl
    · rw [get_lengthen hs, ← hc]

/-- Removal keeps a tree well formed and removes exactly the value at the key. -/
theorem remove_spec (t : RadixTree V) (hwf : t.WF) (k : List Bool) :
    (t.remove k).WF ∧ (t.remove k = nil ∨ (t.remove k).edge.head? = t.edge.head?) ∧
    ∀ k', (t.remove k).get k' = if k' = k then none else t.get k' := by
  induction t generalizing k with
  | nil => exact ⟨trivial, Or.inl rfl, by simp [remove]⟩
  | node e v c ih =>
    obtain ⟨he, hfull, hkids⟩ := hwf
    by_cases hk : e <+: k
    · obtain ⟨rest, rfl⟩ := hk
      simp only [remove, List.prefix_append, if_true, List.drop_left]
      cases rest with
      | nil =>
        obtain ⟨hwf', hhead, hget⟩ := collapse_spec (v := none) he hkids
        refine ⟨hwf', hhead, fun k' => ?_⟩
        rw [hget, get_node, get_node]
        by_cases hk' : e <+: k'
        · obtain ⟨r, rfl⟩ := hk'
          cases r <;> simp [getBelow]
        · simp [hk']
      | cons b r =>
        obtain ⟨hwfb, hheadb, hgetb⟩ := ih b (hkids b).2 (b :: r)
        have hstarts : ((c b).remove (b :: r)).Starts b := by
          rcases (hkids b).1 with h | h
          · rw [h]
            exact Or.inl rfl
          · rcases hheadb with h' | h'
            · exact Or.inl h'
            · exact Or.inr (h'.trans h)
        obtain ⟨hwf', hhead, hget⟩ := collapse_spec (v := v) he (Kids.update hkids hstarts hwfb)
        refine ⟨hwf', hhead, fun k' => ?_⟩
        rw [hget, get_node, get_node]
        by_cases hk' : e <+: k'
        · obtain ⟨q, rfl⟩ := hk'
          simp only [List.prefix_append, if_true, List.drop_left, List.append_cancel_left_eq]
          rw [getBelow_update]
          cases q with
          | nil => simp [getBelow]
          | cons a q =>
            by_cases ha : a = b
            · subst ha
              simp [hgetb, getBelow_cons]
            · simp [ha]
        · rw [if_neg hk', if_neg hk']
          simp
    · have hsame : (node e v c).remove k = node e v c := by simp [remove, hk]
      rw [hsame]
      refine ⟨⟨he, hfull, hkids⟩, Or.inr rfl, fun k' => ?_⟩
      split
      · rename_i h
        rw [h, get_node, if_neg hk]
      · rfl

/-- Removing from the subtree for the first bit of a key removes exactly the value at the key. -/
theorem remove_below {v : Option V} {c : Bool → RadixTree V} (hkids : Kids c) (b : Bool)
    (r : List Bool) : Kids (update c b ((c b).remove (b :: r))) ∧
    ∀ k, getBelow v (update c b ((c b).remove (b :: r))) k =
      if k = b :: r then none else getBelow v c k := by
  obtain ⟨hwfb, hheadb, hgetb⟩ := remove_spec (c b) (hkids b).2 (b :: r)
  have hstarts : ((c b).remove (b :: r)).Starts b := by
    rcases (hkids b).1 with h | h
    · rw [h]
      exact Or.inl rfl
    · rcases hheadb with h' | h'
      · exact Or.inl h'
      · exact Or.inr (h'.trans h)
  refine ⟨hkids.update hstarts hwfb, fun k => ?_⟩
  rw [getBelow_update]
  cases k with
  | nil => simp [getBelow]
  | cons a q =>
    by_cases ha : a = b
    · subst ha
      simp [hgetb, getBelow_cons]
    · simp [ha]

/-! ### Longest stored prefix -/

/-- Walk down along `k`, keeping the last value passed. -/
def lookup (best : Option V) : RadixTree V → List Bool → Option V
  | nil, _ => best
  | node e v c, k =>
    if e <+: k then
      match k.drop e.length with
      | [] => v.or best
      | b :: r => (c b).lookup (v.or best) (b :: r)
    else best

theorem lookup_leaves {e k : List Bool} (h : ¬ e <+: k) (best v : Option V)
    (c : Bool → RadixTree V) : (node e v c).lookup best k = best := by
  rw [lookup, if_neg h]

theorem lookup_follows {e k : List Bool} (h : e <+: k) (best v : Option V)
    (c : Bool → RadixTree V) :
    (node e v c).lookup best k = (node [] v c).lookup best (k.drop e.length) := by
  simp [lookup, h]

/-- `r` is the value of `f` at the longest prefix of `k` at which `f` has one, or `best` if there
is none. -/
def Longest (f : List Bool → Option V) (best : Option V) (k : List Bool) (r : Option V) : Prop :=
  (r = best ∧ ∀ p, p <+: k → f p = none) ∨
    ∃ p, p <+: k ∧ f p ≠ none ∧ r = f p ∧ ∀ q, q <+: k → f q ≠ none → q.length ≤ p.length

/-- The prefixes of `e ++ rest` stored in a node with edge `e` are `e` followed by the prefixes of
`rest` stored below it. -/
theorem get_prefix_ne_none {e : List Bool} {v : Option V} {c : Bool → RadixTree V}
    {rest p : List Bool} (hp : p <+: e ++ rest) (hv : (node e v c).get p ≠ none) :
    ∃ q, q <+: rest ∧ p = e ++ q ∧ getBelow v c q ≠ none := by
  rw [get_node] at hv
  by_cases he : e <+: p
  · obtain ⟨q, rfl⟩ := he
    exact ⟨q, (List.prefix_append_right_inj e).mp hp, rfl, by simpa using hv⟩
  · simp [he] at hv

/-- Below a node, the longest stored prefix is the one of the subtree for the next bit, if it has
any, and else the node's own value. -/
theorem Longest.node {e : List Bool} {v : Option V} {c : Bool → RadixTree V} (hkids : Kids c)
    {best r : Option V} {b : Bool} {rest : List Bool}
    (h : Longest (c b).get (v.or best) (b :: rest) r) :
    Longest (RadixTree.node e v c).get best (e ++ b :: rest) r := by
  have hbelow : ∀ q, q <+: b :: rest → getBelow v c q ≠ none → q = [] ∨ (c b).get q ≠ none := by
    intro q hq hv
    cases q with
    | nil => exact Or.inl rfl
    | cons a q =>
      obtain rfl : a = b := (List.cons_prefix_cons.mp hq).1
      exact Or.inr hv
  rcases h with ⟨rfl, hnone⟩ | ⟨p, hp, hv, rfl, hmax⟩
  · cases v with
    | none =>
      refine Or.inl ⟨rfl, fun p hp => ?_⟩
      by_contra hv
      obtain ⟨q, hq, rfl, hq'⟩ := get_prefix_ne_none hp hv
      rcases hbelow q hq hq' with rfl | h
      · exact hq' rfl
      · exact h (hnone q hq)
    | some x =>
      have hx : (RadixTree.node e (some x) c).get e = some x := by
        simpa [getBelow] using get_node_append e (some x) c []
      refine Or.inr ⟨e, List.prefix_append _ _, by simp [hx], by simp [hx], fun p hp hv => ?_⟩
      obtain ⟨q, hq, rfl, hq'⟩ := get_prefix_ne_none hp hv
      rcases hbelow q hq hq' with rfl | h
      · simp
      · exact absurd (hnone q hq) h
  · obtain ⟨a, p', rfl⟩ : ∃ a p', p = a :: p' := by
      refine List.exists_cons_of_ne_nil ?_
      rintro rfl
      exact hv (hkids b).2.get_nil_key
    obtain rfl : a = b := (List.cons_prefix_cons.mp hp).1
    have hval : (RadixTree.node e v c).get (e ++ a :: p') = (c a).get (a :: p') := by
      rw [get_node_append, getBelow_cons]
    refine Or.inr ⟨e ++ a :: p', (List.prefix_append_right_inj e).mpr hp, by rw [hval]; exact hv,
      hval.symm, fun q hq hqv => ?_⟩
    obtain ⟨q', hq', rfl, hqv'⟩ := get_prefix_ne_none hq hqv
    simp only [List.length_append]
    rcases hbelow q' hq' hqv' with rfl | h
    · simp
    · have := hmax q' hq' h
      omega

theorem lookup_longest (t : RadixTree V) (best : Option V)
    (hkids : ∀ e v c, t = node e v c → Kids c) (k : List Bool) :
    Longest t.get best k (t.lookup best k) := by
  induction t generalizing best k with
  | nil => exact Or.inl ⟨rfl, fun _ _ => rfl⟩
  | node e v c ih =>
    have hkids := hkids e v c rfl
    simp only [lookup]
    by_cases he : e <+: k
    · obtain ⟨rest, rfl⟩ := he
      simp only [List.prefix_append, if_true, List.drop_left]
      cases rest with
      | nil =>
        have hget : (node e v c).get e = v := by
          simpa [getBelow] using get_node_append e v c []
        have honly : ∀ p, p <+: e ++ [] → (node e v c).get p ≠ none → p = e := by
          intro p hp hv
          obtain ⟨q, hq, rfl, -⟩ := get_prefix_ne_none hp hv
          rw [List.prefix_nil.mp hq, List.append_nil]
        cases v with
        | none =>
          refine Or.inl ⟨rfl, fun p hp => ?_⟩
          by_contra hv
          exact hv (honly p hp hv ▸ hget)
        | some x =>
          exact Or.inr ⟨e, by simp, by simp [hget], by simp [hget],
            fun q hq hv => le_of_eq (by rw [honly q hq hv])⟩
      | cons b r =>
        refine Longest.node hkids (ih b (v.or best) (fun e' v' c' h => ?_) (b :: r))
        have := (hkids b).2
        rw [h] at this
        exact this.2.2
    · simp only [he, if_false]
      refine Or.inl ⟨rfl, fun p hp => ?_⟩
      rw [get_node, if_neg fun h => he (h.trans hp)]

/-! ### Counting nodes and values -/

def size : RadixTree V → Nat
  | nil => 0
  | node _ _ c => 1 + (c false).size + (c true).size

def count : RadixTree V → Nat
  | nil => 0
  | node _ v c => (if v.isSome then 1 else 0) + (c false).count + (c true).count

/-- A well-formed tree has fewer nodes than twice its values. -/
theorem WF.size_lt {t : RadixTree V} (h : t.WF) (hne : t ≠ nil) : t.size < 2 * t.count := by
  induction t with
  | nil => exact absurd rfl hne
  | node e v c ih =>
    obtain ⟨-, hfull, hkids⟩ := h
    have hle : ∀ b, (c b).size ≤ 2 * (c b).count := by
      intro b
      by_cases hb : c b = nil
      · simp [hb, size, count]
      · exact le_of_lt (ih b (hkids b).2 hb)
    have hf := hle false
    have ht := hle true
    simp only [size, count]
    cases v with
    | some x => simp; omega
    | none =>
      have hb := hfull.resolve_left (by simp)
      have := ih false (hkids false).2 (hb false)
      have := ih true (hkids true).2 (hb true)
      simp
      omega

theorem WF.size_le {t : RadixTree V} (h : t.WF) : t.size ≤ 2 * t.count := by
  by_cases hne : t = nil
  · simp [hne, size, count]
  · exact le_of_lt (h.size_lt hne)

theorem WF.exists_key {t : RadixTree V} (h : t.WF) (hne : t ≠ nil) :
    ∃ k, t.get (t.edge ++ k) ≠ none := by
  induction t with
  | nil => exact absurd rfl hne
  | node e v c ih =>
    obtain ⟨-, hfull, hkids⟩ := h
    rcases hfull with hv | hc
    · exact ⟨[], by rwa [edge_node, get_node_append]⟩
    · obtain ⟨k, hk⟩ := ih false (hkids false).2 (hc false)
      refine ⟨(c false).edge ++ k, ?_⟩
      have hhead := (hkids false).1.resolve_left (hc false)
      obtain ⟨r, hr⟩ : ∃ r, (c false).edge = false :: r := by
        cases hedge : (c false).edge <;> simp_all
      rw [hr] at hk ⊢
      simpa [getBelow] using hk

/-- The keys at which a tree holds a value. -/
def keys : RadixTree V → Finset (List Bool)
  | nil => ∅
  | node e v c =>
    ((if v.isSome then {[]} else ∅) ∪ ((c false).keys ∪ (c true).keys)).image fun k => e ++ k

theorem mem_keys {t : RadixTree V} (hkids : ∀ e v c, t = node e v c → Kids c) {k : List Bool} :
    k ∈ t.keys ↔ t.get k ≠ none := by
  induction t generalizing k with
  | nil => simp [keys]
  | node e v c ih =>
    have hkids := hkids e v c rfl
    have ih' : ∀ b k, k ∈ (c b).keys ↔ (c b).get k ≠ none := fun b k =>
      ih b fun e' v' c' h => by
        have := (hkids b).2
        rw [h] at this
        exact this.2.2
    have hnil : ∀ b, (c b).get [] = none := fun b => (hkids b).2.get_nil_key
    have hother : ∀ b a r, (c b).get (a :: r) ≠ none → a = b := by
      intro b a r h
      by_contra hne
      exact h ((hkids b).1.get_eq_none hne r)
    have hbelow : ∀ q, q ∈ (if v.isSome then {[]} else ∅ : Finset (List Bool)) ∪
        ((c false).keys ∪ (c true).keys) ↔ getBelow v c q ≠ none := by
      intro q
      simp only [Finset.mem_union, ih']
      cases q with
      | nil =>
        simp only [hnil, getBelow]
        cases v <;> simp
      | cons a r =>
        have : (a :: r) ∉ (if v.isSome then {[]} else ∅ : Finset (List Bool)) := by
          split <;> simp
        simp only [this, false_or, getBelow]
        constructor
        · rintro (h | h)
          · rwa [← hother _ _ _ h] at h
          · rwa [← hother _ _ _ h] at h
        · intro h
          cases a
          · exact Or.inl h
          · exact Or.inr h
    rw [keys, Finset.mem_image, get_node]
    by_cases he : e <+: k
    · obtain ⟨q, rfl⟩ := he
      simp only [List.prefix_append, if_true, List.drop_left, List.append_cancel_left_eq,
        exists_eq_right, hbelow]
    · rw [if_neg he]
      simp only [ne_eq, not_true_eq_false, iff_false]
      rintro ⟨q, -, rfl⟩
      exact he (List.prefix_append _ _)

theorem card_keys {t : RadixTree V} (hkids : ∀ e v c, t = node e v c → Kids c) :
    t.keys.card = t.count := by
  induction t with
  | nil => rfl
  | node e v c ih =>
    have hkids := hkids e v c rfl
    have hsub : ∀ b e' v' c', c b = node e' v' c' → Kids c' := by
      intro b e' v' c' h
      have := (hkids b).2
      rw [h] at this
      exact this.2.2
    have hkey : ∀ b k, k ∈ (c b).keys → k.head? = some b := by
      intro b k hk
      rw [mem_keys (hsub b)] at hk
      cases k with
      | nil => exact absurd (hkids b).2.get_nil_key hk
      | cons a r =>
        by_contra hne
        exact hk ((hkids b).1.get_eq_none (by simpa using hne) r)
    rw [keys, Finset.card_image_of_injective _ (List.append_right_injective e),
      Finset.card_union_of_disjoint, Finset.card_union_of_disjoint, ih false (hsub false),
      ih true (hsub true), count]
    · cases v <;> simp [Nat.add_assoc]
    · rw [Finset.disjoint_left]
      intro k hf ht
      have := (hkey false k hf).symm.trans (hkey true k ht)
      simp at this
    · rw [Finset.disjoint_left]
      intro k h hk
      have hnil : k = [] := by
        split at h <;> simp_all
      subst hnil
      rcases Finset.mem_union.mp hk with h' | h'
      · simpa using hkey _ _ h'
      · simpa using hkey _ _ h'

end RadixTree
