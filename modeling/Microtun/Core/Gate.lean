import Microtun.Core.Registry

/-! What a run says about the initiations of a peer that are answered: since the peer was installed,
each is newer than the one before it, and comes later by more than the minimal interval. -/

namespace Microtun

open Function (update update_self update_of_ne)

/-- The initiations of a peer that were admitted since it was installed, latest first: their
timestamps, and when that was. -/
def admissionsOf (p : Nat) : List Event → List (Bytes 12 × Nat)
  | [] => []
  | .admitted q timestamp now :: rest =>
    if q = p then (timestamp, now) :: admissionsOf p rest else admissionsOf p rest
  | .installed q :: rest => if q = p then [] else admissionsOf p rest
  | _ :: rest => admissionsOf p rest

/-- An initiation is newer than an earlier one, and far enough from it. -/
def Follows (later earlier : Bytes 12 × Nat) : Prop :=
  earlier.1.toList < later.1.toList ∧ earlier.2 + handshakeInitiationMinInterval < later.2

/-- At every time of a run, the initiations that were admitted for a peer follow each other. -/
def InOrder (log : List Event) : Prop :=
  ∀ later earlier, log = later ++ earlier → ∀ p, (admissionsOf p earlier).Pairwise Follows

theorem Follows.trans {a b c : Bytes 12 × Nat} (h : Follows a b) (h' : Follows b c) :
    Follows a c := by
  refine ⟨List.lt_trans h'.1 h.1, ?_⟩
  have := h.2
  have := h'.2
  omega

theorem InOrder.cons {e : Event} {log : List Event} (h : InOrder log)
    (he : ∀ p, (admissionsOf p (e :: log)).Pairwise Follows) : InOrder (e :: log) := by
  intro later earlier heq
  cases later with
  | nil =>
    obtain rfl : earlier = e :: log := heq.symm
    exact he
  | cons e' later => exact h later earlier (List.cons.inj heq).2

theorem InOrder.self {log : List Event} (h : InOrder log) (p : Nat) :
    (admissionsOf p log).Pairwise Follows := h [] log rfl p

theorem InOrder.skip {e : Event} {log : List Event} (h : InOrder log)
    (he : ∀ p, admissionsOf p (e :: log) = admissionsOf p log) : InOrder (e :: log) :=
  h.cons fun p => by rw [he]; exact h.self p

theorem pairwise_follows_cons {a : Bytes 12 × Nat} {l : List (Bytes 12 × Nat)}
    (h : l.Pairwise Follows) (hhead : ∀ b ∈ l.head?, Follows a b) : (a :: l).Pairwise Follows := by
  refine List.pairwise_cons.mpr ⟨fun x hx => ?_, h⟩
  cases l with
  | nil => cases hx
  | cons b rest =>
    have hab := hhead b rfl
    rcases List.mem_cons.mp hx with rfl | hx
    · exact hab
    · exact hab.trans (List.rel_of_pairwise_cons h hx)

theorem admissionsOf_filter (p : Nat) (log : List Event) :
    admissionsOf p (log.filter fun e => e.topic = .attempt) = admissionsOf p log := by
  induction log with
  | nil => rfl
  | cons e rest ih =>
    cases e with
    | admitted q timestamp now =>
      change admissionsOf p (.admitted q timestamp now :: rest.filter _) = _
      simp only [admissionsOf, ih]
    | installed q =>
      change admissionsOf p (.installed q :: rest.filter _) = _
      simp only [admissionsOf, ih]
    | resolve request taken => cases taken <;> exact ih
    | authenticated consumed known => cases known <;> exact ih
    | _ => exact ih

namespace Member

/-- What decides whether an initiation is admitted. -/
def gate (m : Member) : Bytes 12 × Option Nat := (m.greatestTs, m.lastInitiationConsumption)

@[simp] theorem gate_unlink (m : Member) (s : Nat) : (m.unlink s).gate = m.gate := rfl

end Member

namespace Tables

variable {cap : Capacities} {t t' : Tables cap} {now : Nat} {scope : Scope}

/-- The gate of a peer knows the initiation that was admitted last. -/
structure Gated (t : Tables cap) : Prop where
  last : ∀ p m, t.peer p = some m → ∀ a ∈ (admissionsOf p t.attempts).head?, m.gate =
    (a.1, some a.2)
  order : InOrder t.attempts

theorem Gated.congr (h : Gated t)
    (hpeer : ∀ p m', t'.peer p = some m' → ∃ m, t.peer p = some m ∧ m'.gate = m.gate)
    (hattempts : t'.attempts = t.attempts) : Gated t' := by
  refine ⟨fun p m' hm' a ha => ?_, hattempts ▸ h.order⟩
  obtain ⟨m, hm, hgate⟩ := hpeer p m' hm'
  rw [hattempts] at ha
  rw [hgate]
  exact h.last p m hm a ha

theorem Gated.note (h : Gated t) {e : Event}
    (he : ∀ p, admissionsOf p (e :: t.attempts) = admissionsOf p t.attempts) :
      Gated (t.note e) := by
  refine ⟨fun p m hm a ha => ?_, h.order.skip he⟩
  change a ∈ (admissionsOf p (e :: t.attempts)).head? at ha
  rw [he] at ha
  exact h.last p m hm a ha

theorem gate_update {p q : Nat} {m m' x : Member} (hp : t.peer p = some m)
    (hgate : m'.gate = m.gate) (hx : update t.peer p (some m') q = some x) : ∃ m, t.peer q =
    some m ∧ x.gate = m.gate := by
  by_cases hq : q = p
  · rw [hq, update_self] at hx
    rw [hq]
    exact ⟨m, hp, by rw [← Option.some.inj hx, hgate]⟩
  · rw [update_of_ne hq] at hx
    exact ⟨x, hx, rfl⟩

theorem gate_clear {s q : Nat} {x : Member} (hx : (t.clear s).peer q = some x) :
    ∃ m, t.peer q = some m ∧ x.gate = m.gate := by
  change (if (t.slot s).owner = some q then (t.peer q).map fun m => m.unlink s else t.peer q) =
    some x at hx
  split at hx
  · obtain ⟨m, hm, rfl⟩ := Option.map_eq_some_iff.mp hx
    exact ⟨m, hm, rfl⟩
  · exact ⟨x, hx, rfl⟩

theorem Gated.pass (h : Gated t) {p : Nat} {m : Member} {timestamp : Bytes 12}
    (hp : t.peer p = some m) (hlater : m.greatestTs.toList < timestamp.toList)
    (hgap : ∀ last, m.lastInitiationConsumption = some last →
      handshakeInitiationMinInterval < saturatingSince now last) :
    Gated ((t.setPeer p { m with
      greatestTs := timestamp
      lastInitiationConsumption := some now }).note (.admitted p timestamp now)) := by
  have hfollows : ∀ a ∈ (admissionsOf p t.attempts).head?, Follows (timestamp, now) a := by
    intro a ha
    obtain ⟨hts, hlast⟩ := Prod.mk.inj (h.last p m hp a ha)
    have hsince := hgap a.2 hlast
    unfold saturatingSince at hsince
    refine ⟨hts ▸ hlater, ?_⟩
    dsimp only
    omega
  refine ⟨fun q x hx a ha => ?_, h.order.cons fun q => ?_⟩
  · change update t.peer p _ q = some x at hx
    change a ∈ (admissionsOf q (.admitted p timestamp now :: t.attempts)).head? at ha
    rw [admissionsOf] at ha
    by_cases hq : q = p
    · rw [if_pos hq.symm] at ha
      rw [hq, update_self] at hx
      obtain rfl := Option.some.inj hx
      obtain rfl : (timestamp, now) = a := Option.some.inj ha
      rfl
    · rw [if_neg (Ne.symm hq)] at ha
      rw [update_of_ne hq] at hx
      exact h.last q x hx a ha
  · rw [admissionsOf]
    split
    · rename_i hpq
      subst hpq
      exact pairwise_follows_cons (h.order.self p) hfollows
    · exact h.order.self q

theorem Gated.install (h : Gated t) {p : Nat} {m : Member} {find : Key → Option Nat} :
    Gated ({ t.setPeer p m with find }.note (.installed p)) := by
  refine ⟨fun q x hx a ha => ?_, h.order.cons fun q => ?_⟩
  · change update t.peer p (some m) q = some x at hx
    change a ∈ (admissionsOf q (.installed p :: t.attempts)).head? at ha
    rw [admissionsOf] at ha
    by_cases hq : q = p
    · rw [if_pos hq.symm] at ha
      cases ha
    · rw [if_neg (Ne.symm hq)] at ha
      rw [update_of_ne hq] at hx
      exact h.last q x hx a ha
  · rw [admissionsOf]
    split
    · exact List.Pairwise.nil
    · exact h.order.self q

variable [Crypto]

theorem Gated.step (h : Gated t) (hstep : Step now scope t t') : Gated t' := by
  cases hstep with
  | clear s => exact h.congr (fun _ _ => gate_clear) rfl
  | @initiate _ p s d m i hp _ _ _ _ _ _ _ =>
    have hset : Gated (((t.setSlot s (.initiating i)).setIndex i.localIndex (some s)).setPeer p
        { m with sessions := { m.sessions with handshake := some s, attemptDeadline := some d }
          }) :=
      h.congr (fun _ _ => gate_update hp rfl) rfl
    exact hset.note fun _ => rfl
  | @retry _ s i i' _ _ _ _ _ _ =>
    have hset : Gated (t.setSlot s (.initiating i')) := h.congr (fun _ m hm => ⟨m, hm, rfl⟩) rfl
    exact hset.note fun _ => rfl
  | pass hp hlater hgap => exact h.pass hp hlater hgap
  | respond hp _ _ _ _ _ => exact h.congr (fun _ _ => gate_update hp rfl) rfl
  | complete hp _ _ _ _ _ _ => exact h.congr (fun _ _ => gate_update hp rfl) rfl
  | confirm hp _ _ _ => exact h.congr (fun _ _ => gate_update hp rfl) rfl
  | timers hp _ _ _ _ => exact h.congr (fun _ _ => gate_update hp rfl) rfl
  | lapse hp => exact h.congr (fun _ _ => gate_update hp rfl) rfl
  | refresh hp _ _ _ _ => exact h.congr (fun _ _ => gate_update hp rfl) rfl
  | route hp _ _ _ _ _ => exact h.congr (fun _ _ => gate_update hp rfl) rfl
  | @evict _ p _ _ _ _ _ _ _ _ _ =>
    refine h.congr (fun q x hx => ?_) rfl
    change update t.peer p none q = some x at hx
    by_cases hq : q = p
    · rw [hq, update_self] at hx
      cases hx
    · rw [update_of_ne hq] at hx
      exact ⟨x, hx, rfl⟩
  | install _ _ _ _ _ _ => exact h.install
  | _ => exact h.congr (fun _ m hm => ⟨m, hm, rfl⟩) rfl

end Tables

end Microtun
