import Microtun.Tracker.Pending

/-! Every run of `record` and `take`: the map and the order stay in step, and a connection is
attributed to the key of the latest `SYN` from its endpoint or to none. -/

namespace Microtun.Tracker

namespace PendingKeys

/-- The map and the order hold the same endpoints. -/
structure Kept (p : PendingKeys) : Prop where
  nodup : p.order.Nodup
  held : ∀ e, e ∈ p.order ↔ (p.connections.lookup e).isSome
  room : p.order.length ≤ maxPendingEndpoints

theorem evict_room {connections : HashMap Endpoint Key} {order : List Endpoint}
    (h : order.length ≤ maxPendingEndpoints) : evict connections order = ⟨connections, order⟩ := by
  cases order with
  | nil => rfl
  | cons oldest order => exact if_neg (Nat.not_lt.mpr h)

theorem evict_full {connections : HashMap Endpoint Key} {oldest : Endpoint} {order : List Endpoint}
    (h : order.length = maxPendingEndpoints) :
    evict connections (oldest :: order) = ⟨connections.erase oldest, order⟩ := by
  have hover : (oldest :: order).length > maxPendingEndpoints := h ▸ Nat.lt_succ_self _
  rw [evict, if_pos hover, evict_room (Nat.le_of_eq h)]

/-- The calls of `PendingKeys`. -/
inductive Call where
  | record (endpoint : Endpoint) (key : Key)
  | take (endpoint : Endpoint)
deriving DecidableEq

def Call.endpoint : Call → Endpoint
  | record endpoint _ => endpoint
  | take endpoint => endpoint

def run (p : PendingKeys) : Call → PendingKeys
  | .record endpoint key => p.record endpoint key
  | .take endpoint => (p.take endpoint).2

/-- What a call does. -/
inductive Step (p : PendingKeys) : Call → PendingKeys → Prop where
  | again {e : Endpoint} {key : Key} (h : e ∈ p.order) : Step p (.record e key)
    ⟨p.connections.insert e key, p.order⟩
  | first {e : Endpoint} {key : Key} (h : e ∉ p.order)
    (hroom : p.order.length < maxPendingEndpoints) :
      Step p (.record e key) ⟨p.connections.insert e key, p.order ++ [e]⟩
  | push {e oldest : Endpoint} {key : Key} {order : List Endpoint} (h : e ∉ p.order)
      (horder : p.order = oldest :: order) (hfull : p.order.length = maxPendingEndpoints) :
      Step p (.record e key) ⟨(p.connections.insert e key).erase oldest, order ++ [e]⟩
  | taken {e : Endpoint} (h : e ∈ p.order) : Step p (.take e)
    ⟨p.connections.erase e, p.order.erase e⟩
  | nothing {e : Endpoint} (h : e ∉ p.order) : Step p (.take e) p

theorem Kept.lookup_none {p : PendingKeys} (h : p.Kept) {e : Endpoint} (he : e ∉ p.order) :
    p.connections.lookup e = none := by
  rwa [h.held, Option.not_isSome_iff_eq_none] at he

theorem Kept.step {p : PendingKeys} (h : p.Kept) (c : Call) : Step p c (p.run c) := by
  cases c with
  | record e key =>
    show Step p _ (p.record e key)
    unfold record
    by_cases he : e ∈ p.order
    · have hsome : ¬(p.connections.lookup e).isNone := by
        rw [Option.isNone_iff_eq_none, ← Ne, Option.ne_none_iff_isSome]
        exact (h.held e).mp he
      simp only [if_neg hsome, evict_room h.room]
      exact .again he
    · rw [h.lookup_none he]
      simp only [Option.isNone_none, if_true]
      by_cases hroom : p.order.length < maxPendingEndpoints
      · rw [evict_room (by rw [List.length_append]; exact hroom)]
        exact .first he hroom
      · have hfull : p.order.length = maxPendingEndpoints :=
          Nat.le_antisymm h.room (Nat.not_lt.mp hroom)
        cases horder : p.order with
        | nil =>
          rw [horder] at hfull
          exact absurd hfull (by decide)
        | cons oldest order =>
          have hlength : (order ++ [e]).length = maxPendingEndpoints := by
            rw [← hfull, horder, List.length_append]
            rfl
          rw [List.cons_append, evict_full hlength]
          exact .push he horder hfull
  | take e =>
    show Step p _ (p.take e).2
    unfold take
    by_cases he : e ∈ p.order
    · obtain ⟨key, hkey⟩ := Option.isSome_iff_exists.mp ((h.held e).mp he)
      have hsame : (fun queued : Endpoint => decide (queued = e)) = (· == e) :=
        funext fun queued => (beq_eq_decide queued e).symm
      have hstep := Step.taken he
      rw [List.erase_eq_eraseP', List.eraseP_eq_eraseIdx] at hstep
      rw [hkey, hsame]
      cases hposition : p.order.findIdx? (· == e) with
      | none =>
        rw [hposition] at hstep
        exact hstep
      | some position =>
        rw [hposition] at hstep
        exact hstep
    · rw [h.lookup_none he]
      exact .nothing he

theorem kept_new : new.Kept where
  nodup := List.nodup_nil
  held _ := ⟨nofun, nofun⟩
  room := Nat.zero_le _

theorem Kept.run {p : PendingKeys} (h : p.Kept) (c : Call) : (p.run c).Kept := by
  have hstep := h.step c
  generalize p.run c = p' at hstep
  cases hstep with
  | @again e key he =>
    refine ⟨h.nodup, fun e' => ?_, h.room⟩
    rw [HashMap.lookup_insert_eq_ite]
    split
    · next heq => exact iff_of_true (heq ▸ he) rfl
    · exact h.held e'
  | @first e key he hroom =>
    refine ⟨List.Nodup.append h.nodup (List.nodup_singleton e) (List.disjoint_singleton.mpr he),
      fun e' => ?_, ?_⟩
    · rw [HashMap.lookup_insert_eq_ite, List.mem_append, List.mem_singleton]
      split
      · next heq => exact iff_of_true (.inr heq) rfl
      · next hne => rw [or_iff_left hne, h.held]
    · rw [List.length_append]
      exact hroom
  | @push e oldest key order he horder hfull =>
    have hnodup := h.nodup
    rw [horder, List.nodup_cons] at hnodup
    have hnot : e ∉ oldest :: order := horder ▸ he
    have hne : e ≠ oldest := fun heq => hnot (heq ▸ List.mem_cons_self)
    have hrest : e ∉ order := fun hmem => hnot (List.mem_cons_of_mem _ hmem)
    refine ⟨List.Nodup.append hnodup.2 (List.nodup_singleton e) (List.disjoint_singleton.mpr hrest),
      fun e' => ?_, ?_⟩
    · rw [HashMap.lookup_erase_eq_ite, HashMap.lookup_insert_eq_ite, List.mem_append,
        List.mem_singleton]
      split
      · next heq =>
        subst heq
        exact iff_of_false (fun hmem => hmem.elim hnodup.1 fun heq => hne heq.symm) nofun
      · next hold =>
        split
        · next heq => exact iff_of_true (.inr heq) rfl
        · next hnew => rw [or_iff_left hnew, ← h.held, horder, List.mem_cons, or_iff_right hold]
    · rw [← hfull, horder, List.length_append]
      exact Nat.le_refl _
  | @taken e he =>
    refine ⟨h.nodup.erase e, fun e' => ?_, Nat.le_trans (List.length_erase_le) h.room⟩
    rw [HashMap.lookup_erase_eq_ite, h.nodup.mem_erase_iff]
    split
    · next heq => exact iff_of_false (fun hmem => hmem.1 heq) nofun
    · next hne => rw [and_iff_right hne, h.held]
  | nothing _ => exact h

/-! ### Runs -/

def after (calls : List Call) : PendingKeys := calls.foldl run new

/-- The endpoints in the table. -/
def held (calls : List Call) : List Endpoint := (after calls).order

/-- The call that made the entry of an endpoint: it was not in the table before, and has been ever
since. -/
def Entered (calls : List Call) (e : Endpoint) (n : Nat) : Prop :=
  n < calls.length ∧ e ∉ held (calls.take n) ∧ ∀ m, n < m → m ≤ calls.length →
    e ∈ held (calls.take m)

/-- The latest call for an endpoint records a key. -/
def Latest (calls : List Call) (e : Endpoint) (key : Key) : Prop :=
  ∃ before rest, calls = before ++ .record e key :: rest ∧ ∀ c ∈ rest, c.endpoint ≠ e

/-- As many other endpoints as the table has room for were entered after an endpoint, and there was
no call for it since then. -/
def PushedOut (calls : List Call) (e : Endpoint) : Prop :=
  ∃ before rest pusher key, calls = before ++ .record pusher key :: rest ∧
    (∀ c ∈ rest, c.endpoint ≠ e) ∧
    ∃ others : List Endpoint, others.Nodup ∧ others.length = maxPendingEndpoints ∧ e ∉ others ∧
      ∀ f ∈ others, ∃ m n, Entered before e m ∧ Entered (before ++ [.record pusher key]) f n ∧ m < n

variable {calls : List Call} {e : Endpoint}

theorem after_concat (calls : List Call) (c : Call) : after (calls ++ [c]) =
    (after calls).run c := by
  rw [after, List.foldl_append]
  rfl

theorem kept_after (calls : List Call) : (after calls).Kept := by
  induction calls using List.reverseRecOn with
  | nil => exact kept_new
  | append_singleton calls c ih =>
    rw [after_concat]
    exact ih.run c

/-- A call keeps the order of what it leaves, and enters what was not there at the end. -/
theorem Step.order {p p' : PendingKeys} {c : Call} (h : Step p c p') :
    ∃ left, left.Sublist p.order ∧
      (p'.order = left ∨ ∃ e, e ∉ p.order ∧ p'.order = left ++ [e]) := by
  cases h with
  | again _ => exact ⟨_, .refl _, .inl rfl⟩
  | first he _ => exact ⟨_, .refl _, .inr ⟨_, he, rfl⟩⟩
  | push he horder _ => exact ⟨_, horder ▸ List.sublist_cons_self _ _, .inr ⟨_, he, rfl⟩⟩
  | taken _ => exact ⟨_, List.erase_sublist, .inl rfl⟩
  | nothing _ => exact ⟨_, .refl _, .inl rfl⟩

theorem Entered.concat {n : Nat} (h : Entered calls e n) {c : Call}
    (hheld : e ∈ held (calls ++ [c])) : Entered (calls ++ [c]) e n := by
  obtain ⟨hlt, hnot, hsince⟩ := h
  refine ⟨by rw [List.length_append]; omega, ?_, fun m hm hle => ?_⟩
  · rwa [List.take_append_of_le_length (Nat.le_of_lt hlt)]
  · rw [List.length_append, List.length_singleton] at hle
    by_cases hlast : m ≤ calls.length
    · rw [List.take_append_of_le_length hlast]
      exact hsince m hm hlast
    · rwa [List.take_of_length_le (by rw [List.length_append, List.length_singleton]; omega)]

theorem entered_last {c : Call} (hnot : e ∉ held calls) (hheld : e ∈ held (calls ++ [c])) :
    Entered (calls ++ [c]) e calls.length := by
  refine ⟨by simp, by rwa [List.take_left], fun m hm hle => ?_⟩
  rwa [List.take_of_length_le (by rw [List.length_append, List.length_singleton]; omega)]

theorem entered_of_held (h : e ∈ held calls) : ∃ n, Entered calls e n := by
  induction calls using List.reverseRecOn with
  | nil => exact nomatch h
  | append_singleton calls c ih =>
    by_cases hbefore : e ∈ held calls
    · obtain ⟨n, hn⟩ := ih hbefore
      exact ⟨n, hn.concat h⟩
    · exact ⟨_, entered_last hbefore h⟩

theorem held_ordered (calls : List Call) :
    (held calls).Pairwise fun e f => ∃ m n, Entered calls e m ∧ Entered calls f n ∧ m < n := by
  induction calls using List.reverseRecOn with
  | nil => exact .nil
  | append_singleton calls c ih =>
    obtain ⟨left, hleft, hcases⟩ := ((kept_after calls).step c).order
    rw [← after_concat] at hcases
    have hpairwise (hkeep : ∀ e ∈ left, e ∈ held (calls ++ [c])) :
        left.Pairwise fun e f => ∃ m n, Entered (calls ++ [c]) e m ∧ Entered (calls ++ [c]) f n ∧
          m < n := by
      refine (ih.sublist hleft).imp_of_mem fun he hf hbefore => ?_
      obtain ⟨m, n, hm, hn, hlt⟩ := hbefore
      exact ⟨m, n, hm.concat (hkeep _ he), hn.concat (hkeep _ hf), hlt⟩
    rcases hcases with horder | ⟨e, hnot, horder⟩
    · rw [held, horder]
      exact hpairwise fun e he => show e ∈ (after _).order from horder ▸ he
    · have hheld (f : Endpoint) (hf : f ∈ left ++ [e]) : f ∈ held (calls ++ [c]) :=
        show f ∈ (after _).order from horder ▸ hf
      rw [held, horder, List.pairwise_append]
      refine ⟨hpairwise fun f hf => hheld f (List.mem_append_left _ hf),
        List.pairwise_singleton _ _, ?_⟩
      intro f hf f' hf'
      obtain rfl := List.mem_singleton.mp hf'
      obtain ⟨m, hm⟩ := entered_of_held (show f ∈ held calls from hleft.subset hf)
      exact ⟨m, _, hm.concat (hheld f (List.mem_append_left _ hf)),
        entered_last hnot (hheld _ (List.mem_append_right _ hf')), hm.1⟩

/-! ### What is taken -/

/-- An entry comes from a call that records it, or was there before. -/
theorem Step.lookup_some {p p' : PendingKeys} {c : Call} (h : Step p c p') (hp : p.Kept) {key : Key}
    (hkey : p'.connections.lookup e = some key) :
    c = .record e key ∨ c.endpoint ≠ e ∧ p.connections.lookup e = some key := by
  have hinsert {e' : Endpoint} {key' : Key} (hkey : (p.connections.insert e' key').lookup e =
    some key) :
      Call.record e' key' = .record e key ∨ e' ≠ e ∧ p.connections.lookup e = some key := by
    rw [HashMap.lookup_insert_eq_ite] at hkey
    split at hkey
    · next heq => exact .inl (by rw [heq, Option.some.inj hkey])
    · next hne => exact .inr ⟨Ne.symm hne, hkey⟩
  cases h with
  | again _ => exact hinsert hkey
  | first _ _ => exact hinsert hkey
  | push _ _ _ =>
    rw [HashMap.lookup_erase_eq_ite] at hkey
    split at hkey
    · exact nomatch hkey
    · exact hinsert hkey
  | taken _ =>
    rw [HashMap.lookup_erase_eq_ite] at hkey
    split at hkey
    · exact nomatch hkey
    · next hne => exact .inr ⟨Ne.symm hne, hkey⟩
  | @nothing e' he =>
    refine .inr ⟨?_, hkey⟩
    rintro rfl
    exact nomatch hkey.symm.trans (hp.lookup_none he)

/-- An entry that is not there was taken, was not there before, or was pushed out. -/
theorem Step.lookup_none {p p' : PendingKeys} {c : Call} (h : Step p c p')
    (hkey : p'.connections.lookup e = none) :
    c = .take e ∨ c.endpoint ≠ e ∧ p.connections.lookup e = none ∨
      ∃ pusher key order, c = .record pusher key ∧ pusher ∉ p.order ∧ p.order = e :: order ∧
        p.order.length = maxPendingEndpoints ∧ p'.order = order ++ [pusher] := by
  have hinsert {e' : Endpoint} {key' : Key} (hkey : (p.connections.insert e' key').lookup e =
    none) :
      e' ≠ e ∧ p.connections.lookup e = none := by
    rw [HashMap.lookup_insert_eq_ite] at hkey
    split at hkey
    · exact nomatch hkey
    · next hne => exact ⟨Ne.symm hne, hkey⟩
  cases h with
  | again _ => exact .inr (.inl (hinsert hkey))
  | first _ _ => exact .inr (.inl (hinsert hkey))
  | push he horder hfull =>
    rw [HashMap.lookup_erase_eq_ite] at hkey
    split at hkey
    · next heq =>
      subst heq
      exact .inr (.inr ⟨_, _, _, rfl, he, horder, hfull, rfl⟩)
    · exact .inr (.inl (hinsert hkey))
  | @taken e' _ =>
    rw [HashMap.lookup_erase_eq_ite] at hkey
    split at hkey
    · next heq => exact .inl (heq ▸ rfl)
    · next hne => exact .inr (.inl ⟨Ne.symm hne, hkey⟩)
  | @nothing e' _ =>
    by_cases heq : e' = e
    · exact .inl (heq ▸ rfl)
    · exact .inr (.inl ⟨heq, hkey⟩)

theorem latest_concat {c : Call} {key : Key} :
    Latest (calls ++ [c]) e key ↔ c = .record e key ∨ c.endpoint ≠ e ∧ Latest calls e key := by
  constructor
  · rintro ⟨before, rest, hsplit, hrest⟩
    rcases List.eq_nil_or_concat rest with rfl | ⟨rest, c', rfl⟩
    · exact .inl (List.append_inj_right' hsplit rfl |> List.singleton_inj.mp)
    · rw [List.concat_eq_append, ← List.cons_append, ← List.append_assoc] at hsplit
      rw [List.concat_eq_append] at hrest
      obtain ⟨rfl, hlast⟩ := List.append_inj' hsplit rfl
      obtain rfl := List.singleton_inj.mp hlast
      exact .inr ⟨hrest _ (by simp), before, rest, rfl, fun c hc =>
        hrest c (List.mem_append_left _ hc)⟩
  · rintro (rfl | ⟨hne, before, rest, rfl, hrest⟩)
    · exact ⟨calls, [], rfl, List.forall_mem_nil _⟩
    · refine ⟨before, rest ++ [c], by simp, List.forall_mem_append.mpr ⟨hrest, ?_⟩⟩
      exact List.forall_mem_singleton.mpr hne

theorem latest_of_lookup {key : Key} (h : (after calls).connections.lookup e = some key) :
    Latest calls e key := by
  induction calls using List.reverseRecOn with
  | nil => exact nomatch h
  | append_singleton calls c ih =>
    rw [after_concat] at h
    rw [latest_concat]
    exact (((kept_after calls).step c).lookup_some (kept_after calls) h).imp_right fun h =>
      ⟨h.1, ih h.2⟩

theorem held_iff : e ∈ held calls ↔ ((after calls).connections.lookup e).isSome :=
    (kept_after calls).held e

theorem not_held_append (h : e ∉ held calls) {rest : List Call}
    (hrest : ∀ c ∈ rest, c.endpoint ≠ e) : e ∉ held (calls ++ rest) := by
  induction rest using List.reverseRecOn with
  | nil => rwa [List.append_nil]
  | append_singleton rest c ih =>
    obtain ⟨hrest, hc⟩ := List.forall_mem_append.mp hrest
    intro hheld
    rw [← List.append_assoc, held_iff, after_concat] at hheld
    obtain ⟨key, hkey⟩ := Option.isSome_iff_exists.mp hheld
    rcases ((kept_after _).step c).lookup_some (kept_after _) hkey with rfl | ⟨-, hkey⟩
    · exact hc _ (List.mem_singleton_self _) rfl
    · exact ih hrest (held_iff.mpr (hkey ▸ rfl))

theorem Entered.held {n : Nat} (h : Entered calls e n) : e ∈ held calls := by
  have hheld := h.2.2 calls.length h.1 (Nat.le_refl _)
  rwa [List.take_of_length_le (Nat.le_refl _)] at hheld

theorem PushedOut.not_held (h : PushedOut calls e) : e ∉ PendingKeys.held calls := by
  obtain ⟨before, rest, pusher, key, rfl, hrest, others, hnodup, hlength, hnot, hentered⟩ := h
  have hkept := kept_after (before ++ [.record pusher key])
  -- the others fill the table
  have hsubset : others ⊆ PendingKeys.held (before ++ [.record pusher key]) := fun f hf => by
    obtain ⟨_, _, -, hn, -⟩ := hentered f hf
    exact hn.held
  have hperm : others.Perm (PendingKeys.held (before ++ [.record pusher key])) :=
    (List.subperm_of_subset hnodup hsubset).perm_of_length_le (hlength ▸ hkept.room)
  have hout : e ∉ PendingKeys.held (before ++ [.record pusher key]) :=
    fun hheld => hnot (hperm.mem_iff.mpr hheld)
  rw [← List.singleton_append, ← List.append_assoc]
  exact not_held_append hout hrest

theorem PushedOut.concat (h : PushedOut calls e) {c : Call} (hc : c.endpoint ≠ e) :
    PushedOut (calls ++ [c]) e := by
  obtain ⟨before, rest, pusher, key, rfl, hrest, hothers⟩ := h
  refine ⟨before, rest ++ [c], pusher, key, by simp, ?_, hothers⟩
  exact List.forall_mem_append.mpr ⟨hrest, List.forall_mem_singleton.mpr hc⟩

theorem pushedOut_of_push {pusher : Endpoint} {key : Key} {order : List Endpoint}
    (hnot : pusher ∉ held calls) (horder : held calls = e :: order)
    (hfull : (held calls).length = maxPendingEndpoints)
    (hafter : held (calls ++ [.record pusher key]) = order ++ [pusher]) :
    PushedOut (calls ++ [.record pusher key]) e := by
  have hnodup := (kept_after (calls ++ [.record pusher key])).nodup
  have hbefore := (kept_after calls).nodup
  have hordered := held_ordered calls
  change (held _).Nodup at hnodup hbefore
  rw [hafter] at hnodup
  rw [horder, List.nodup_cons] at hbefore
  rw [horder, List.pairwise_cons] at hordered
  refine ⟨calls, [], pusher, key, rfl, List.forall_mem_nil _, order ++ [pusher], hnodup, ?_, ?_, ?_⟩
  · rw [← hfull, horder, List.length_append]
    rfl
  · rw [List.mem_append, List.mem_singleton]
    rintro (hmem | rfl)
    · exact hbefore.1 hmem
    · exact hnot (horder ▸ List.mem_cons_self)
  · intro f hf
    have hheld : f ∈ held (calls ++ [.record pusher key]) := hafter ▸ hf
    rcases List.mem_append.mp hf with hf | hf
    · obtain ⟨m, n, hm, hn, hlt⟩ := hordered.1 f hf
      exact ⟨m, n, hm, hn.concat hheld, hlt⟩
    · obtain rfl := List.mem_singleton.mp hf
      obtain ⟨m, hm⟩ := entered_of_held (show e ∈ held calls from horder ▸ List.mem_cons_self)
      exact ⟨m, _, hm, entered_last hnot hheld, hm.1⟩

theorem lookup_none_iff : (after calls).connections.lookup e = none ↔
    (∀ key, ¬Latest calls e key) ∨ PushedOut calls e := by
  constructor
  · intro h
    induction calls using List.reverseRecOn with
    | nil =>
      refine .inl fun key hlatest => ?_
      obtain ⟨before, rest, hsplit, -⟩ := hlatest
      exact absurd hsplit.symm (by simp)
    | append_singleton calls c ih =>
      have hstep := (kept_after calls).step c
      rw [← after_concat] at hstep
      rcases hstep.lookup_none h with rfl | ⟨hne, hnone⟩ | ⟨pusher, key, order, rfl, hnot, horder,
        hfull, hafter⟩
      · refine .inl fun key hlatest => ?_
        rcases latest_concat.mp hlatest with heq | ⟨hne, -⟩
        · exact nomatch heq
        · exact hne rfl
      · rcases ih hnone with hnever | hpushed
        · refine .inl fun key hlatest => ?_
          rcases latest_concat.mp hlatest with rfl | ⟨-, hlatest⟩
          · exact hne rfl
          · exact hnever key hlatest
        · exact .inr (hpushed.concat hne)
      · exact .inr (pushedOut_of_push hnot horder hfull hafter)
  · rintro (hnever | hpushed)
    · cases hkey : (after calls).connections.lookup e with
      | none => rfl
      | some key => exact absurd (latest_of_lookup hkey) (hnever key)
    · exact (kept_after calls).lookup_none hpushed.not_held

theorem take_fst (p : PendingKeys) (e : Endpoint) : (p.take e).1 = p.connections.lookup e := by
  unfold take
  split
  · next h => exact h.symm
  · next h => exact h.symm

/-! ### Connections -/

/-- What reaches the interface: a packet of a peer, or a stream that is accepted from a socket. -/
inductive NicEvent where
  | send (srcPeerKey : Key) (packet : List UInt8)
  | accept (remote : Option Endpoint)
deriving DecidableEq

def NicEvent.run (wire : Wire) (p : PendingKeys) : NicEvent → PendingKeys
  | send srcPeerKey packet => nicSend wire p srcPeerKey packet
  | accept remote => (Tracker.accept p remote).2

/-- The call that an event makes. -/
def NicEvent.call? (wire : Wire) : NicEvent → Option Call
  | send srcPeerKey packet => (synEndpoint wire packet).map (.record · srcPeerKey)
  | accept remote => remote.map .take

def nicAfter (wire : Wire) (events : List NicEvent) : PendingKeys :=
  events.foldl (NicEvent.run wire) new

theorem nicAfter_eq (wire : Wire) (events : List NicEvent) :
    nicAfter wire events = after (events.filterMap (NicEvent.call? wire)) := by
  have hfold (p : PendingKeys) : events.foldl (NicEvent.run wire) p =
      (events.filterMap (NicEvent.call? wire)).foldl run p := by
    induction events generalizing p with
    | nil => rfl
    | cons event events ih =>
      have hrun : event.run wire p = ((event.call? wire).map p.run).getD p := by
        cases event with
        | send srcPeerKey packet =>
          show nicSend wire p srcPeerKey packet =
            (((synEndpoint wire packet).map (Call.record · srcPeerKey)).map p.run).getD p
          unfold nicSend
          cases synEndpoint wire packet <;> rfl
        | accept remote => cases remote <;> rfl
      rw [List.foldl_cons, ih, hrun, List.filterMap_cons]
      cases event.call? wire <;> rfl
  exact hfold new

theorem latest_send {wire : Wire} {events : List NicEvent} {key : Key}
    (h : Latest (events.filterMap (NicEvent.call? wire)) e key) :
    ∃ before packet rest, events = before ++ .send key packet :: rest ∧ synEndpoint wire packet =
      some e ∧ ∀ key' packet', .send key' packet' ∈ rest → synEndpoint wire packet' ≠ some e := by
  obtain ⟨before, rest, hsplit, hrest⟩ := h
  obtain ⟨events1, events2, rfl, -, hcons⟩ := List.filterMap_eq_append_iff.mp hsplit
  obtain ⟨skipped, event, events3, rfl, -, hcall, rfl⟩ := List.filterMap_eq_cons_iff.mp hcons
  cases event with
  | accept remote =>
    obtain ⟨_, -, hcall⟩ := Option.map_eq_some_iff.mp hcall
    exact nomatch hcall
  | send srcPeerKey packet =>
    obtain ⟨endpoint, hendpoint, hcall⟩ := Option.map_eq_some_iff.mp hcall
    obtain ⟨rfl, rfl⟩ := Call.record.inj hcall
    refine ⟨events1 ++ skipped, packet,
      events3, by simp, hendpoint, fun key' packet' hmem hsyn => ?_⟩
    refine hrest (.record endpoint key') (List.mem_filterMap.mpr ⟨_, hmem, ?_⟩) rfl
    rw [NicEvent.call?, hsyn]
    rfl

/-- Every sequence of calls: the order lists the endpoints of the map once each, in the order of
their entries and within the bound; `take` gives the key of the latest record, or none where there
is none or the entry was pushed out. So a stream that is accepted carries the key that sent the
latest `SYN` from its endpoint, or none. -/
theorem attributed (calls : List Call) :
    ((held calls).Nodup ∧ (∀ e, e ∈ held calls ↔ ((after calls).connections.lookup e).isSome) ∧
      (held calls).Pairwise (fun e f => ∃ m n, Entered calls e m ∧ Entered calls f n ∧ m < n) ∧
      (held calls).length ≤ maxPendingEndpoints) ∧
    (∀ e key, ((after calls).take e).1 = some key → Latest calls e key) ∧
    (∀ e, ((after calls).take e).1 = none ↔ (∀ key, ¬Latest calls e key) ∨ PushedOut calls e) ∧
    ∀ (wire : Wire) (events : List NicEvent) (e : Endpoint) (key : Key),
      (accept (nicAfter wire events) (some e)).1 = some key →
      ∃ before packet rest, events = before ++ .send key packet :: rest ∧ synEndpoint wire packet =
        some e ∧ ∀ key' packet', .send key' packet' ∈ rest → synEndpoint wire packet' ≠ some e := by
  have hkept := kept_after calls
  refine ⟨⟨hkept.nodup, hkept.held, held_ordered calls, hkept.room⟩, fun e key h => ?_, fun e => ?_,
    fun wire events e key h => ?_⟩
  · exact latest_of_lookup ((take_fst _ _).symm.trans h)
  · rw [take_fst]
    exact lookup_none_iff
  · rw [nicAfter_eq, accept, take_fst] at h
    exact latest_send (latest_of_lookup h)

namespace Sample

def endpoint (i : Nat) : Endpoint := (.v4 0, UInt16.ofNat i)

def opener : Key := .ofList 32 []

def other : Key := .ofList 32 [1]

/-- Packets of IPv4. -/
def wire : Wire where
  ipv4 packet :=
    let header := 4 * (packet.getD 0 0 &&& 15).toNat
    let total := ofBeBytes ((packet.drop 2).take 2)
    if packet.length < 20 ∨ total < header ∨ packet.length < total then none
    else some ⟨packet.getD 9 0, .ofNat 32 (ofBeBytes ((packet.drop 12).take 4)),
      (packet.take total).drop header⟩
  ipv6 _ := none
  tcp segment :=
    let header := 4 * (segment.getD 12 0 >>> 4).toNat
    let flags := segment.getD 13 0
    if segment.length < 20 ∨ header < 20 ∨ segment.length < header then none
    else some ⟨flags &&& 2 ≠ 0, flags &&& 16 ≠ 0, .ofNat (ofBeBytes (segment.take 2))⟩

/-- A `SYN` from port 49152 of 10.0.0.7 to port 9090 of 10.0.0.1. -/
def syn : List UInt8 :=
  [69, 0, 0, 40, 0, 0, 64, 0, 64, 6, 38, 201, 10, 0, 0, 7, 10, 0, 0, 1, 192, 0, 35, 130, 0, 0, 0,
  1, 0, 0, 0, 0, 80, 2, 255, 255, 184, 87, 0, 0]

def laptop : Endpoint := (.v4 0x0a000007#32, 49152)

/-- One record for each of some endpoints. -/
def records (n : Nat) : List Call := (List.range n).map fun i => .record (endpoint i) opener

end Sample

open Microtun.Tracker.PendingKeys.Sample

/-- Two peers open a connection from one address and port, and it is the second one's. -/
theorem attributed_other : ∃ before packet rest,
    [NicEvent.send opener syn, .send other syn] = before ++ .send other packet :: rest ∧
      synEndpoint wire packet = some laptop ∧
      ∀ key' packet', .send key' packet' ∈ rest → synEndpoint wire packet' ≠ some laptop :=
  (attributed []).2.2.2 wire [.send opener syn, .send other syn] laptop other (by decide +kernel)

/-- The first call that records an endpoint since it was last taken. -/
def FirstRecorded (calls : List Call) (e : Endpoint) (n : Nat) : Prop :=
  (∃ key, calls[n]? = some (.record e key)) ∧ (∀ j, n < j → calls[j]? ≠ some (.take e)) ∧
    ∀ m < n, (∃ key, calls[m]? = some (.record e key)) → ∃ j, m < j ∧ j < n ∧
      calls[j]? = some (.take e)

theorem held_first {key : Key} (hnot : e ∉ held calls)
    (hroom : (held calls).length < maxPendingEndpoints) :
    held (calls ++ [.record e key]) = held calls ++ [e] := by
  have hstep := (kept_after calls).step (.record e key)
  rw [held, after_concat]
  generalize (after calls).run (.record e key) = p' at hstep
  cases hstep with
  | again hmem => exact absurd hmem hnot
  | first _ _ => rfl
  | push _ _ hfull => exact absurd hfull (Nat.ne_of_lt hroom)

theorem held_push {key : Key} {oldest : Endpoint} {order : List Endpoint} (hnot : e ∉ held calls)
    (horder : held calls = oldest :: order) (hfull : (held calls).length = maxPendingEndpoints) :
    held (calls ++ [.record e key]) = order ++ [e] := by
  have hstep := (kept_after calls).step (.record e key)
  rw [held, after_concat]
  generalize (after calls).run (.record e key) = p' at hstep
  cases hstep with
  | again hmem => exact absurd hmem hnot
  | first _ hroom => exact absurd hfull (Nat.ne_of_lt hroom)
  | push _ horder' _ => rw [(List.cons.inj (horder'.symm.trans horder)).2]

theorem endpoint_inj {i j : Nat} (hi : i < 2 ^ 16) (hj : j < 2 ^ 16) : endpoint i = endpoint j ↔
    i = j := by
  refine ⟨fun h => ?_, congrArg _⟩
  have hport := congrArg UInt16.toNat (Prod.mk.inj h).2
  rwa [UInt16.toNat_ofNat_of_lt' hi, UInt16.toNat_ofNat_of_lt' hj] at hport

theorem endpoint_mem {i start n : Nat} (hi : i < 2 ^ 16) (hn : start + n ≤ 2 ^ 16) :
    endpoint i ∈ (List.range' start n).map endpoint ↔ start ≤ i ∧ i < start + n := by
  rw [List.mem_map]
  constructor
  · rintro ⟨j, hj, heq⟩
    have hj := List.mem_range'_1.mp hj
    obtain rfl := (endpoint_inj (by omega) hi).mp heq
    exact hj
  · exact fun h => ⟨i, List.mem_range'_1.mpr h, rfl⟩

theorem held_records {n : Nat} (hn : n ≤ maxPendingEndpoints) :
    held (records n) = (List.range' 0 n).map endpoint := by
  induction n with
  | zero => rfl
  | succ n ih =>
    have hn' : n < 512 := hn
    have hheld := ih (Nat.le_of_succ_le hn)
    have hnot : endpoint n ∉ held (records n) := by
      rw [hheld, endpoint_mem (by omega) (by omega)]
      omega
    have hroom : (held (records n)).length < maxPendingEndpoints := by
      rw [hheld, List.length_map, List.length_range']
      exact hn
    rw [records, List.range_succ, List.map_append]
    refine (held_first hnot hroom).trans ?_
    rw [hheld, List.range'_concat, List.map_append, Nat.zero_add, Nat.one_mul]
    rfl

theorem first_recorded {n : Nat} (hn : n < 3) :
    FirstRecorded (records 513 ++ [.record (endpoint 0) opener]) (endpoint n) n := by
  have hget {m : Nat} (hm : m < 3) : (records 513 ++ [Call.record (endpoint 0) opener])[m]? =
      some (.record (endpoint m) opener) := by
    have hlength : m < (records 513).length := by
      rw [records, List.length_map, List.length_range]
      omega
    rw [List.getElem?_append_left hlength, records, List.getElem?_map,
      List.getElem?_range (by omega), Option.map_some]
  refine ⟨⟨_, hget hn⟩, fun j _ htake => ?_, fun m hm hrecord => ?_⟩
  · have hmem := List.mem_of_getElem? htake
    rcases List.mem_append.mp hmem with hmem | hmem
    · obtain ⟨_, -, h⟩ := List.mem_map.mp hmem
      exact nomatch h
    · exact nomatch List.mem_singleton.mp hmem
  · obtain ⟨_, hrecord⟩ := hrecord
    have hsame := (Call.record.inj (Option.some.inj ((hget (by omega)).symm.trans hrecord))).1
    exact absurd ((endpoint_inj (by omega) (by omega)).mp hsame) (Nat.ne_of_lt hm)

/-- An endpoint that was pushed out and records again comes last, though it was recorded first and
never taken. -/
theorem order_not_by_first_recording : ∃ calls : List Call,
    ¬(held calls).Pairwise fun e f => ∀ m n, FirstRecorded calls e m → FirstRecorded calls f n →
      m < n := by
  refine ⟨records 513 ++ [.record (endpoint 0) opener], fun hpairwise => ?_⟩
  have hfirst : held (records 512) = (List.range' 0 512).map endpoint :=
    held_records (Nat.le_refl 512)
  have hfull : held (records 512) = endpoint 0 :: (List.range' 1 511).map endpoint := hfirst
  have hpushed : held (records 513) = endpoint 1 :: (List.range' 2 510).map endpoint ++
      [endpoint 512] := by
    have hnot : endpoint 512 ∉ held (records 512) := by
      rw [hfirst, endpoint_mem (by omega) (by omega)]
      omega
    have hlength : (held (records 512)).length = maxPendingEndpoints := by
      rw [hfirst, List.length_map, List.length_range']
      rfl
    rw [records, List.range_succ, List.map_append]
    exact held_push hnot hfull hlength
  have hagain : held (records 513 ++ [.record (endpoint 0) opener]) =
      (List.range' 2 510).map endpoint ++ [endpoint 512] ++ [endpoint 0] := by
    refine held_push ?_ hpushed ?_
    · have hne : endpoint 0 ≠ endpoint 512 :=
        fun h => absurd ((endpoint_inj (by omega) (by omega)).mp h) (by decide)
      have hlast : endpoint 0 ∉ (List.range' 1 511).map endpoint := by
        rw [endpoint_mem (by omega) (by omega)]
        omega
      rw [hpushed, List.mem_append, List.mem_singleton]
      exact not_or.mpr ⟨hlast, hne⟩
    · rw [hpushed, List.length_append, List.length_cons, List.length_map, List.length_range']
      rfl
  have hmem : endpoint 2 ∈ (List.range' 2 510).map endpoint ++ [endpoint 512] :=
    List.mem_append_left _ ((endpoint_mem (by omega) (by omega)).mpr (by omega))
  rw [hagain, List.pairwise_append] at hpairwise
  have hlt := hpairwise.2.2 _ hmem _ (List.mem_singleton_self _) 2 0 (first_recorded (by omega))
    (first_recorded (by omega))
  exact absurd hlt (by decide)

end PendingKeys

end Microtun.Tracker
