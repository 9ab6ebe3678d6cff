import Microtun.Core.Tables

/-! The links between the wire-index map, the slot pool and the generations of the peers.  Every
step keeps them. -/

namespace Microtun

open Function (update update_self update_of_ne)

namespace Tables

variable {cap : Capacities} {t t' : Tables cap}

/-- The wire-index map, the slots and the generations of the peers describe the same slots. -/
structure Links (t : Tables cap) : Prop where
  index : ∀ i s, t.slotFor i = some s ↔ (t.slot s).localIndex = some i
  held : ∀ s p k, (t.slot s).holder = some (p, k) → t.Installed p
  linked : ∀ p m, t.peer p = some m → ∀ s k,
    m.sessions.Lists s k ↔ (t.slot s).holder = some (p, k)
  distinct : ∀ p m, t.peer p = some m → ∀ s,
    m.sessions.current = some s → m.sessions.previous ≠ some s
  attempt : ∀ p m, t.peer p = some m →
    (m.sessions.attemptDeadline.isSome ↔ m.sessions.handshake.isSome)
  role : ∀ s sess, t.slot s = .established sess → sess.confirmed = false → sess.role = .responder

theorem holder_owner {n : Nat} {x : Slot n} {p : Nat} :
    x.owner = some p ↔ ∃ k, x.holder = some (p, k) := by
  cases x with
  | free => simp [Slot.owner, Slot.holder]
  | initiating h => simp [Slot.owner, Slot.holder]
  | established sess => simp [Slot.owner, Slot.holder]

theorem holder_none {n : Nat} {x : Slot n} (h : x.owner = none) : x = .free := by
  cases x with
  | free => rfl
  | initiating h' => simp [Slot.owner] at h
  | established sess => simp [Slot.owner] at h

/-- The links are a matter of the peers, the slots and the indices. -/
theorem Links.congr (h : Links t) (hpeer : t'.peer = t.peer) (hslot : t'.slot = t.slot)
    (hindex : t'.slotFor = t.slotFor) : Links t' := by
  refine ⟨?_, ?_, ?_, ?_, ?_, ?_⟩
  · rw [hslot, hindex]
    exact h.index
  · intro s p k
    rw [hslot, Installed, hpeer]
    exact h.held s p k
  · rw [hpeer, hslot]
    exact h.linked
  · rw [hpeer]
    exact h.distinct
  · rw [hpeer]
    exact h.attempt
  · rw [hslot]
    exact h.role

theorem Links.change (h : Links t) {p s : Nat} {m m' : Member} {x : Slot cap.replayWords}
    (hp : t.peer p = some m) (hpeer : t'.peer = update t.peer p (some m'))
    (hslot : t'.slot = update t.slot s x)
    (hother : ∀ r k, r ≠ s → (m'.sessions.Lists r k ↔ m.sessions.Lists r k))
    (hself : ∀ k, m'.sessions.Lists s k ↔ x.holder = some (p, k))
    (hforeign : ∀ q k, q ≠ p → (x.holder = some (q, k) ↔ (t.slot s).holder = some (q, k)))
    (hdistinct : ∀ r, m'.sessions.current = some r → m'.sessions.previous ≠ some r)
    (hattempt : m'.sessions.attemptDeadline.isSome ↔ m'.sessions.handshake.isSome)
    (hrole : ∀ sess, x = .established sess → sess.confirmed = false → sess.role = .responder)
    (hindex : ∀ i r, t'.slotFor i = some r ↔ (t'.slot r).localIndex = some i) : Links t' where
  index := hindex
  held r q k hr := by
    have hp' : t'.Installed p := by simp [Installed, hpeer]
    by_cases hq : q = p
    · exact hq ▸ hp'
    · rw [Installed, hpeer, update_of_ne hq]
      rw [hslot] at hr
      by_cases hrs : r = s
      · subst hrs
        rw [update_self, hforeign q k hq] at hr
        exact h.held r q k hr
      · rw [update_of_ne hrs] at hr
        exact h.held r q k hr
  linked q mq hq r k := by
    rw [hpeer] at hq
    rw [hslot]
    by_cases hqp : q = p
    · subst hqp
      obtain rfl : m' = mq := by simpa using hq
      by_cases hrs : r = s
      · subst hrs
        rw [update_self]
        exact hself k
      · rw [update_of_ne hrs, hother r k hrs]
        exact h.linked q m hp r k
    · rw [update_of_ne hqp] at hq
      by_cases hrs : r = s
      · subst hrs
        rw [update_self, hforeign q k hqp]
        exact h.linked q mq hq r k
      · rw [update_of_ne hrs]
        exact h.linked q mq hq r k
  distinct q mq hq r := by
    rw [hpeer] at hq
    by_cases hqp : q = p
    · subst hqp
      obtain rfl : m' = mq := by simpa using hq
      exact hdistinct r
    · rw [update_of_ne hqp] at hq
      exact h.distinct q mq hq r
  attempt q mq hq := by
    rw [hpeer] at hq
    by_cases hqp : q = p
    · subst hqp
      obtain rfl : m' = mq := by simpa using hq
      exact hattempt
    · rw [update_of_ne hqp] at hq
      exact h.attempt q mq hq
  role r sess hr := by
    rw [hslot] at hr
    by_cases hrs : r = s
    · subst hrs
      rw [update_self] at hr
      exact hrole sess hr
    · rw [update_of_ne hrs] at hr
      exact h.role r sess hr

theorem Links.setSlot (h : Links t) {s : Nat} {x : Slot cap.replayWords}
    (hholder : x.holder = (t.slot s).holder) (hi : x.localIndex = (t.slot s).localIndex)
    (hrole : ∀ sess, x = .established sess → sess.confirmed = false → sess.role = .responder) :
    Links (t.setSlot s x) := by
  have hsame : ∀ {α : Type} (f : Slot cap.replayWords → α), f x = f (t.slot s) →
      ∀ r, f (update t.slot s x r) = f (t.slot r) := by
    intro α f hf r
    by_cases hrs : r = s
    · rw [hrs, update_self, hf]
    · rw [update_of_ne hrs]
  refine ⟨fun i r => ?_, fun r p k hr => ?_, fun p m hp r k => ?_, h.distinct, h.attempt,
    fun r sess hr => ?_⟩
  · rw [Tables.setSlot, hsame Slot.localIndex hi]
    exact h.index i r
  · rw [Tables.setSlot, hsame Slot.holder hholder] at hr
    exact h.held r p k hr
  · rw [Tables.setSlot, hsame Slot.holder hholder]
    exact h.linked p m hp r k
  · by_cases hrs : r = s
    · subst hrs
      exact hrole sess (by simpa [Tables.setSlot] using hr)
    · exact h.role r sess (by simpa [Tables.setSlot, hrs] using hr)

theorem Links.setPeer (h : Links t) {p : Nat} {m m' : Member} (hp : t.peer p = some m)
    (hpeer : t'.peer = Function.update t.peer p (some m')) (hslot : t'.slot = t.slot)
    (hindex : t'.slotFor = t.slotFor) (hlists : ∀ s k, m'.sessions.Lists s k ↔ m.sessions.Lists s k)
    (hdistinct : ∀ s, m'.sessions.current = some s → m'.sessions.previous ≠ some s)
    (hattempt : m'.sessions.attemptDeadline.isSome ↔ m'.sessions.handshake.isSome) : Links t' := by
  have hself : t'.slot = update t.slot 0 (t.slot 0) := by rw [Function.update_eq_self, hslot]
  refine h.change hp hpeer hself (fun r k _ => hlists r k) (fun k => ?_) (fun q k _ => Iff.rfl)
    hdistinct hattempt (h.role 0) (fun i r => ?_)
  · rw [hlists]
    exact h.linked p m hp 0 k
  · rw [hindex, hslot]
    exact h.index i r

theorem Links.index_claim (h : Links t) {s : Nat} {i : UInt32} {x : Slot cap.replayWords}
    (hs : t.slot s = .free) (hi : t.slotFor i = none) (hx : x.localIndex = some i) :
    ∀ j r, update t.slotFor i (some s) j = some r ↔ (update t.slot s x r).localIndex = some j := by
  intro j r
  by_cases hj : j = i
  · subst hj
    rw [update_self]
    by_cases hr : r = s
    · subst hr
      simp [hx]
    · rw [update_of_ne hr, ← h.index, hi]
      simp [Ne.symm hr]
  · rw [update_of_ne hj]
    by_cases hr : r = s
    · subst hr
      rw [update_self, hx, h.index, hs]
      simp [Slot.localIndex, Ne.symm hj]
    · rw [update_of_ne hr]
      exact h.index j r

theorem Links.owner_peer (h : Links t) {s p : Nat} (hs : (t.slot s).owner = some p) :
    ∃ m, t.peer p = some m := by
  obtain ⟨k, hk⟩ := holder_owner.mp hs
  exact Option.isSome_iff_exists.mp (h.held s p k hk)

theorem lists_unlink (ps : PeerSessions) (s r : Nat) (k : Stage) :
    (ps.unlink s).Lists r k ↔ r ≠ s ∧ ps.Lists r k := by
  unfold PeerSessions.unlink PeerSessions.abortHandshake
  cases k <;> grind [PeerSessions.Lists]

theorem unlink_current {ps : PeerSessions} {s r : Nat} (h : (ps.unlink s).current = some r) :
    ps.current = some r := by
  unfold PeerSessions.unlink PeerSessions.abortHandshake at h
  grind

theorem unlink_previous {ps : PeerSessions} {s r : Nat} (h : (ps.unlink s).previous = some r) :
    ps.previous = some r := by
  unfold PeerSessions.unlink PeerSessions.abortHandshake at h
  grind

theorem unlink_attempt {ps : PeerSessions} (s : Nat)
    (h : ps.attemptDeadline.isSome ↔ ps.handshake.isSome) :
    (ps.unlink s).attemptDeadline.isSome ↔ (ps.unlink s).handshake.isSome := by
  unfold PeerSessions.unlink PeerSessions.abortHandshake
  grind

theorem clear_free {s : Nat} (hs : t.slot s = .free) : t.clear s = t := by
  have hupd : update t.slot s .free = t.slot := by rw [← hs, Function.update_eq_self]
  simp [clear, hs, Slot.localIndex, Slot.owner, hupd]

/-- For a slot in use, the owner is unlinked and the index is forgotten. -/
theorem clear_of_owner {s p : Nat} {i : UInt32} {m : Member} (hs : (t.slot s).owner = some p)
    (hi : (t.slot s).localIndex = some i) (hp : t.peer p = some m) :
    t.clear s = ((t.setSlot s .free).setIndex i none).setPeer p (m.unlink s) := by
  have hpeer : (fun q => if (t.slot s).owner = some q then (t.peer q).map fun m => m.unlink s
      else t.peer q) = update t.peer p (some (m.unlink s)) := by
    funext q
    by_cases hq : q = p
    · rw [hq, update_self, if_pos hs, hp, Option.map_some]
    · rw [update_of_ne hq, if_neg]
      rw [hs]
      simp [Ne.symm hq]
  simp only [clear, hi, hpeer, Tables.setSlot, setIndex, Tables.setPeer]

theorem owner_localIndex {n : Nat} {x : Slot n} {p : Nat} (h : x.owner = some p) :
    ∃ i, x.localIndex = some i := by
  cases x with
  | free => simp [Slot.owner] at h
  | initiating h' => exact ⟨_, rfl⟩
  | established sess => exact ⟨_, rfl⟩

theorem Links.clear (h : Links t) (s : Nat) : Links (t.clear s) := by
  cases howner : (t.slot s).owner with
  | none =>
    rw [clear_free (holder_none howner)]
    exact h
  | some p =>
    obtain ⟨m, hp⟩ := h.owner_peer howner
    obtain ⟨i, hi⟩ := owner_localIndex howner
    obtain ⟨k, hk⟩ := holder_owner.mp howner
    rw [clear_of_owner howner hi hp]
    refine h.change hp rfl rfl (fun r k hr => ?_) (fun k => ?_) (fun q k' hq => ?_)
      (fun r hr => ?_) (unlink_attempt s (h.attempt p m hp)) ?_ (fun j r => ?_)
    · exact (lists_unlink _ s r k).trans (and_iff_right hr)
    · show (m.sessions.unlink s).Lists s k ↔ _
      rw [lists_unlink]
      simp [Slot.holder]
    · rw [hk]
      simp [Slot.holder, Ne.symm hq]
    · exact fun hprev => h.distinct p m hp r (unlink_current hr) (unlink_previous hprev)
    · rintro sess ⟨⟩
    · show update t.slotFor i none j = some r ↔ (update t.slot s .free r).localIndex = some j
      by_cases hj : j = i
      · subst hj
        rw [update_self]
        by_cases hr : r = s
        · simp [hr, Slot.localIndex]
        · rw [update_of_ne hr, ← h.index, (h.index j s).mpr hi]
          simp [Ne.symm hr]
      · rw [update_of_ne hj, h.index]
        by_cases hr : r = s
        · rw [hr, update_self, hi]
          simp [Slot.localIndex, Ne.symm hj]
        · rw [update_of_ne hr]

theorem clear_slotFor (t : Tables cap) (s : Nat) (i : UInt32) : (t.clear s).slotFor i =
    if (t.slot s).localIndex = some i then none else t.slotFor i := by
  simp only [Tables.clear]
  cases hidx : (t.slot s).localIndex with
  | none => simp
  | some j =>
    by_cases hij : i = j
    · simp [hij]
    · simp [hij, Ne.symm hij]

theorem clear_peer_of_ne {s q : Nat} (h : (t.slot s).owner ≠ some q) :
    (t.clear s).peer q = t.peer q := if_neg h

theorem clear_slot (t : Tables cap) (s : Nat) : (t.clear s).slot s = .free := by
  simp [Tables.clear]

/-- Freeing a slot commutes with a change of its owner that does not refer to it. -/
theorem clear_setPeer {p s : Nat} {m : Member} (howner : (t.slot s).owner = some p)
    (hm : m.unlink s = m) : (t.setPeer p m).clear s = (t.clear s).setPeer p m := by
  have hpeer : ((t.setPeer p m).clear s).peer = ((t.clear s).setPeer p m).peer := by
    funext q
    show (if (t.slot s).owner = some q then (update t.peer p (some m) q).map fun m => m.unlink s
      else update t.peer p (some m) q) = update (t.clear s).peer p (some m) q
    by_cases hq : q = p
    · rw [hq, if_pos howner, update_self, update_self, Option.map_some, hm]
    · have hne : (t.slot s).owner ≠ some q := by
        rw [howner]
        simpa using Ne.symm hq
      rw [if_neg hne, update_of_ne hq, update_of_ne hq, clear_peer_of_ne hne]
  show { (t.clear s).setPeer p m with peer := ((t.setPeer p m).clear s).peer } = _
  rw [hpeer]

theorem clear_setSlot {r s : Nat} {x : Slot cap.replayWords} (h : r ≠ s) :
    (t.setSlot r x).clear s = (t.clear s).setSlot r x := by
  simp only [Tables.clear, Tables.setSlot, update_of_ne (Ne.symm h)]
  rw [Function.update_comm h]

/-- Free the slot of a superseded session, if there is one. -/
def retire (t : Tables cap) : Option Nat → Tables cap
  | some s => t.clear s
  | none => t

theorem retire_slot {old : Option Nat} {s : Nat} {sess : Session cap.replayWords}
    (h : (t.retire old).slot s = .established sess) : t.slot s = .established sess := by
  cases old with
  | none => exact h
  | some o =>
    change update t.slot o .free s = .established sess at h
    by_cases hs : s = o
    · rw [hs, update_self] at h
      cases h
    · rwa [update_of_ne hs] at h

theorem clear_handshake {t : Tables cap} {s p : Nat} {m : Member} (hp : t.peer p = some m)
    (hh : m.sessions.handshake = none) :
    ∃ m', (t.clear s).peer p = some m' ∧ m'.sessions.handshake = none := by
  show ∃ m', (if (t.slot s).owner = some p then (t.peer p).map fun m => m.unlink s
    else t.peer p) = some m' ∧ _
  split
  · refine ⟨m.unlink s, by rw [hp]; rfl, ?_⟩
    cases hc : (m.unlink s).sessions.handshake with
    | none => rfl
    | some r =>
      have := ((lists_unlink m.sessions s r .handshake).mp hc).2
      simp [PeerSessions.Lists, hh] at this
  · exact ⟨m, hp, hh⟩

theorem clear_next {t : Tables cap} {s p : Nat} {m : Member} (hp : t.peer p = some m)
    (hn : m.sessions.next = none) :
    ∃ m', (t.clear s).peer p = some m' ∧ m'.sessions.next = none := by
  show ∃ m', (if (t.slot s).owner = some p then (t.peer p).map fun m => m.unlink s
    else t.peer p) = some m' ∧ _
  split
  · refine ⟨m.unlink s, by rw [hp]; rfl, ?_⟩
    cases hc : (m.unlink s).sessions.next with
    | none => rfl
    | some r =>
      have := ((lists_unlink m.sessions s r .next).mp hc).2
      simp [PeerSessions.Lists, hn] at this
  · exact ⟨m, hp, hn⟩

theorem Links.not_lists_free (h : Links t) {p s : Nat} {m : Member} (hp : t.peer p = some m)
    (hs : t.slot s = .free) (k : Stage) : ¬m.sessions.Lists s k := by
  rw [h.linked p m hp s k, hs]
  simp [Slot.holder]

theorem Links.handshake_slot (h : Links t) {p s : Nat} {m : Member} {i : Initiating}
    (hp : t.peer p = some m) (hs : t.slot s = .initiating i) (howner : i.peer = p) :
    m.sessions.handshake = some s := by
  refine (h.linked p m hp s .handshake).mpr ?_
  rw [hs, ← howner]
  rfl

theorem Links.lists_one (h : Links t) {p s : Nat} {m : Member} (hp : t.peer p = some m)
    {k k' : Stage} (hk : m.sessions.Lists s k) (hk' : m.sessions.Lists s k') : k = k' := by
  have h₁ := (h.linked p m hp s k).mp hk
  have h₂ := (h.linked p m hp s k').mp hk'
  rw [h₁] at h₂
  cases h₂
  rfl

theorem Links.unlink_next (h : Links t) {p s : Nat} {m : Member} (hp : t.peer p = some m)
    (hn : m.sessions.next = some s) : m.sessions.unlink s = { m.sessions with next := none } := by
  have hlive : ∀ {k}, m.sessions.Lists s k → k = .next := fun hk =>
    h.lists_one hp hk hn
  have hcur : m.sessions.current ≠ some s := fun hc =>
    absurd (hlive (k := .live) (Or.inl hc)) (by simp)
  have hprev : m.sessions.previous ≠ some s := fun hc =>
    absurd (hlive (k := .live) (Or.inr hc)) (by simp)
  have hhand : m.sessions.handshake ≠ some s := fun hc =>
    absurd (hlive (k := .handshake) hc) (by simp)
  simp [PeerSessions.unlink, hcur, hprev, hn, hhand]

theorem Links.unlink_previous (h : Links t) {p s : Nat} {m : Member} (hp : t.peer p = some m)
    (hprev : m.sessions.previous = some s) :
    m.sessions.unlink s = { m.sessions with previous := none } := by
  have hlive : ∀ {k}, m.sessions.Lists s k → k = .live := fun hk =>
    h.lists_one hp hk (Or.inr hprev)
  have hcur : m.sessions.current ≠ some s := fun hc => h.distinct p m hp s hc hprev
  have hnext : m.sessions.next ≠ some s := fun hc => absurd (hlive (k := .next) hc) (by simp)
  have hhand : m.sessions.handshake ≠ some s := fun hc =>
    absurd (hlive (k := .handshake) hc) (by simp)
  simp [PeerSessions.unlink, hcur, hprev, hnext, hhand]

theorem Links.evict (h : Links t) {p : Nat} {m : Member} (hp : t.peer p = some m)
    (hslots : m.sessions.slots = [none, none, none, none]) {find : Key → Option Nat}
    {routes : RouteCache cap.maxRoutes} :
    Links { t with peer := update t.peer p none, find, routes } := by
  have hnone : ∀ s k, ¬m.sessions.Lists s k := by
    intro s k
    simp only [PeerSessions.slots, List.cons.injEq] at hslots
    cases k with
    | handshake => simp [PeerSessions.Lists, hslots]
    | next => simp [PeerSessions.Lists, hslots]
    | live => simp [PeerSessions.Lists, hslots]
  have hof : ∀ q mq, update t.peer p none q = some mq → t.peer q = some mq := by
    intro q mq hq
    by_cases hqp : q = p
    · simp [hqp] at hq
    · rwa [update_of_ne hqp] at hq
  refine ⟨h.index, fun s q k hs => ?_, fun q mq hq => h.linked q mq (hof q mq hq),
    fun q mq hq => h.distinct q mq (hof q mq hq), fun q mq hq => h.attempt q mq (hof q mq hq),
    h.role⟩
  have hq : q ≠ p := by
    rintro rfl
    exact hnone s k ((h.linked q m hp s k).mpr hs)
  rw [Installed]
  show (update t.peer p none q).isSome
  rw [update_of_ne hq]
  exact h.held s q k hs

theorem Links.install (h : Links t) {p : Nat} {m : Member} (hp : t.peer p = none)
    (hsessions : m.sessions = { PeerSessions.default with
      persistentKeepaliveDue := m.sessions.persistentKeepaliveDue }) {find : Key → Option Nat} :
    Links { t.setPeer p m with find } := by
  have hcase : ∀ q mq, update t.peer p (some m) q = some mq →
      (q = p ∧ mq = m) ∨ (q ≠ p ∧ t.peer q = some mq) := by
    intro q mq hq
    by_cases hqp : q = p
    · exact Or.inl ⟨hqp, by simpa [hqp] using hq.symm⟩
    · exact Or.inr ⟨hqp, by rwa [update_of_ne hqp] at hq⟩
  have hnobody : ∀ s k, (t.slot s).holder ≠ some (p, k) := by
    intro s k hs
    have := h.held s p k hs
    simp [Installed, hp] at this
  have hinst : ∀ q, t.Installed q → (update t.peer p (some m) q).isSome := by
    intro q hq
    by_cases hqp : q = p
    · simp [hqp]
    · rwa [update_of_ne hqp]
  refine ⟨h.index, fun s q k hs => hinst q (h.held s q k hs), fun q mq hq s k => ?_,
    fun q mq hq s hs => ?_, fun q mq hq => ?_, h.role⟩
  · rcases hcase q mq hq with ⟨rfl, rfl⟩ | ⟨-, hq⟩
    · refine iff_of_false ?_ (hnobody s k)
      rw [hsessions]
      cases k <;> simp [PeerSessions.Lists, PeerSessions.default]
    · exact h.linked q mq hq s k
  · rcases hcase q mq hq with ⟨rfl, rfl⟩ | ⟨-, hq⟩
    · rw [hsessions] at hs
      cases hs
    · exact h.distinct q mq hq s hs
  · rcases hcase q mq hq with ⟨rfl, rfl⟩ | ⟨-, hq⟩
    · rw [hsessions]
      simp [PeerSessions.default]
    · exact h.attempt q mq hq

variable {now : Nat} {scope : Scope} [Crypto]

theorem Links.step (h : Links t) (hstep : Step now scope t t') : Links t' := by
  cases hstep with
  | clear s => exact h.clear s
  | @initiate _ p s d m i hp hh hs hi howner _ _ _ =>
    have hfree := h.not_lists_free hp hs
    refine h.change hp rfl rfl (fun r k hr => ?_) (fun k => ?_) (fun q k hq => ?_)
      (h.distinct p m hp) (by simp) (fun sess hsess => by cases hsess) (h.index_claim hs hi rfl)
    · cases k with
      | handshake => simp [PeerSessions.Lists, hh, Ne.symm hr]
      | next => exact Iff.rfl
      | live => exact Iff.rfl
    · cases k with
      | handshake => simp [PeerSessions.Lists, Slot.holder, howner]
      | next => simpa [PeerSessions.Lists, Slot.holder] using hfree .next
      | live => simpa [PeerSessions.Lists, Slot.holder] using hfree .live
    · simp [hs, Slot.holder, howner, Ne.symm hq]
  | @retry _ s i i' hs _ hpeer hi _ _ =>
    have hset : Links (t.setSlot s (.initiating i')) := by
      refine h.setSlot ?_ ?_ (fun sess hsess => by cases hsess)
      · simp [hs, Slot.holder, hpeer]
      · simp [hs, Slot.localIndex, hi]
    exact hset.congr rfl rfl rfl
  | @respond _ p s m sess hp hn hs hi hsess _ =>
    have hfree := h.not_lists_free hp hs
    have hconf : sess.confirmed = false := hsess.confirmed
    refine h.change hp rfl rfl (fun r k hr => ?_) (fun k => ?_) (fun q k hq => ?_)
      (h.distinct p m hp) (h.attempt p m hp) ?_ (h.index_claim hs hi rfl)
    · cases k with
      | handshake => exact Iff.rfl
      | next => simp [PeerSessions.Lists, hn, Ne.symm hr]
      | live => exact Iff.rfl
    · cases k with
      | handshake => simpa [PeerSessions.Lists, Slot.holder, hconf] using hfree .handshake
      | next => simp [PeerSessions.Lists, Slot.holder, hconf, hsess.peer]
      | live => simpa [PeerSessions.Lists, Slot.holder, hconf] using hfree .live
    · simp [hs, Slot.holder, hsess.peer, Ne.symm hq]
    · rintro sess' ⟨⟩ _
      exact hsess.role
  | @complete _ p s m i sess hp hs howner hprev hi hsess _ =>
    have hhs := h.handshake_slot hp hs howner
    have hconf : sess.confirmed = true := hsess.confirmed
    have hcur : ¬m.sessions.Lists s .live := by
      rw [h.linked p m hp s .live, hs]
      simp [Slot.holder]
    have hnext : ¬m.sessions.Lists s .next := by
      rw [h.linked p m hp s .next, hs]
      simp [Slot.holder]
    refine h.change hp rfl rfl (fun r k hr => ?_) (fun k => ?_) (fun q k hq => ?_) (fun r hr => ?_)
      (by simp) ?_ (fun j r => ?_)
    · cases k with
      | handshake => simp [PeerSessions.Lists, hhs, Ne.symm hr]
      | next => exact Iff.rfl
      | live => simp [PeerSessions.Lists, hprev, Ne.symm hr]
    · cases k with
      | handshake => simp [PeerSessions.Lists, Slot.holder, hconf]
      | next => simpa [PeerSessions.Lists, Slot.holder, hconf] using hnext
      | live => simp [PeerSessions.Lists, Slot.holder, hconf, hsess.peer]
    · simp [hs, Slot.holder, hsess.peer, howner, Ne.symm hq]
    · obtain rfl : s = r := by simpa using hr
      exact fun hcurrent => hcur (Or.inl hcurrent)
    · rintro sess' ⟨⟩ hf
      rw [hconf] at hf
      cases hf
    · show t.slotFor j = some r ↔ (update t.slot s (.established sess) r).localIndex = some j
      by_cases hr : r = s
      · rw [hr, update_self, h.index, hs]
        simp [Slot.localIndex, hi]
      · rw [update_of_ne hr]
        exact h.index j r
  | @confirm _ p s m sess hp hs hn hprev =>
    have hholder := (h.linked p m hp s .next).mp hn
    simp only [hs, Slot.holder, Option.some.injEq, Prod.mk.injEq] at hholder
    have hconf : sess.confirmed = false := by
      cases hc : sess.confirmed with
      | false => rfl
      | true => simp [hc] at hholder
    have hcur : ¬m.sessions.Lists s .live := by
      rw [h.linked p m hp s .live, hs]
      simp [Slot.holder, hconf]
    have hhs : ¬m.sessions.Lists s .handshake := by
      rw [h.linked p m hp s .handshake, hs]
      simp [Slot.holder, hconf]
    refine h.change hp rfl rfl (fun r k hr => ?_) (fun k => ?_) (fun q k hq => ?_) (fun r hr => ?_)
      (h.attempt p m hp) ?_ (fun j r => ?_)
    · cases k with
      | handshake => exact Iff.rfl
      | next => simp [PeerSessions.Lists, hn, Ne.symm hr]
      | live => simp [PeerSessions.Lists, hprev, Ne.symm hr]
    · cases k with
      | handshake => simpa [PeerSessions.Lists, Slot.holder] using hhs
      | next => simp [PeerSessions.Lists, Slot.holder]
      | live => simp [PeerSessions.Lists, Slot.holder, hholder.1]
    · simp [hs, Slot.holder, hholder.1, Ne.symm hq]
    · obtain rfl : s = r := by simpa using hr
      exact fun hcurrent => hcur (Or.inl hcurrent)
    · rintro sess' ⟨⟩ ⟨⟩
    · show t.slotFor j = some r ↔
        (update t.slot s (.established { sess with confirmed := true }) r).localIndex = some j
      by_cases hr : r = s
      · rw [hr, update_self, h.index, hs]
        simp [Slot.localIndex]
      · rw [update_of_ne hr]
        exact h.index j r
  | @noteRekey _ s sess hs b =>
    refine h.setSlot (by simp [hs, Slot.holder]) (by simp [hs, Slot.localIndex]) ?_
    rintro sess' ⟨⟩
    exact h.role s sess hs
  | @timers _ p m _ _ _ hp _ _ _ _ =>
    exact h.setPeer hp rfl rfl rfl (fun s k => by cases k <;> exact Iff.rfl) (h.distinct p m hp)
      (h.attempt p m hp)
  | @pass _ p m ts hp _ _ =>
    have hset : Links (t.setPeer p { m with
        greatestTs := ts, lastInitiationConsumption := some now }) :=
      h.setPeer hp rfl rfl rfl (fun s k => by cases k <;> exact Iff.rfl) (h.distinct p m hp)
        (h.attempt p m hp)
    exact hset.congr rfl rfl rfl
  | @lapse _ p m hp =>
    exact h.setPeer hp rfl rfl rfl (fun s k => by cases k <;> exact Iff.rfl) (h.distinct p m hp)
      (h.attempt p m hp)
  | @sealed _ s sess record hs _ _ _ _ _ _ =>
    have hset : Links (t.setSlot s (.established { sess with nSend := sess.nSend + 1 })) := by
      refine h.setSlot (by simp [hs, Slot.holder]) (by simp [hs, Slot.localIndex]) ?_
      rintro sess' ⟨⟩
      exact h.role s sess hs
    exact hset.congr rfl rfl rfl
  | @accept _ s counter sess replay hs _ =>
    have hset : Links (t.setSlot s (.established { sess with replay })) := by
      refine h.setSlot (by simp [hs, Slot.holder]) (by simp [hs, Slot.localIndex]) ?_
      rintro sess' ⟨⟩
      exact h.role s sess hs
    exact hset.congr rfl rfl rfl
  | @reject _ s counter sess replay hs _ =>
    refine h.setSlot (by simp [hs, Slot.holder]) (by simp [hs, Slot.localIndex]) ?_
    rintro sess' ⟨⟩
    exact h.role s sess hs
  | @refresh _ p m _ _ _ _ hp _ _ _ _ =>
    exact h.setPeer hp rfl rfl rfl (fun s k => by cases k <;> exact Iff.rfl) (h.distinct p m hp)
      (h.attempt p m hp)
  | @route _ p i m e routes hp _ _ _ _ _ =>
    exact h.setPeer hp rfl rfl rfl (fun s k => by cases k <;> exact Iff.rfl) (h.distinct p m hp)
      (h.attempt p m hp)
  | @evict _ p m routes hp _ hslots _ _ _ _ =>
    have hset : Links { t with
      peer := update t.peer p none, find := update t.find m.key none, routes } := h.evict hp hslots
    exact hset.congr rfl rfl rfl
  | @install _ p m hp _ _ hsessions _ _ =>
    have hset : Links { t.setPeer p m with find := update t.find m.key (some p) } :=
      h.install hp hsessions
    exact hset.congr rfl rfl rfl
  | _ => exact h.congr rfl rfl rfl

end Tables

end Microtun
