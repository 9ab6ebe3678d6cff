import Microtun.Core.Spec.Timers

/-! The exact scan over everything that the engine waits for. -/

namespace Microtun

/-- The earliest of a set of instants, if there is one. -/
def Earliest (d : Option Nat) (S : Nat → Prop) : Prop :=
  (∀ x, S x → NotAfter d (some x)) ∧ ∀ x, d = some x → S x

namespace Earliest

variable {d d' : Option Nat} {S T : Nat → Prop}

theorem of_option (d : Option Nat) : Earliest d fun x => d = some x :=
  ⟨by rintro x rfl; exact NotAfter.refl _, fun _ h => h⟩

theorem congr (h : Earliest d S) (hST : ∀ x, S x ↔ T x) : Earliest d T :=
  ⟨fun x hx => h.1 x ((hST x).mpr hx), fun x hx => (hST x).mp (h.2 x hx)⟩

theorem min (h : Earliest d S) (h' : Earliest d' T) :
    Earliest (minDeadline d d') fun x => S x ∨ T x := by
  have hboth := notAfter_minDeadline.mp (NotAfter.refl (minDeadline d d'))
  have htrans : ∀ {e : Option Nat} {x : Nat}, NotAfter (minDeadline d d') e → NotAfter e (some x) →
      NotAfter (minDeadline d d') (some x) := by
    rintro e x he hx _ ⟨⟩
    obtain ⟨y, hy, hyx⟩ := hx x rfl
    obtain ⟨z, hz, hzy⟩ := he y hy
    exact ⟨z, hz, hzy.trans hyx⟩
  refine ⟨?_, fun x hx => ?_⟩
  · rintro x (hx | hx)
    · exact htrans hboth.1 (h.1 x hx)
    · exact htrans hboth.2 (h'.1 x hx)
  · cases d with
    | none => exact Or.inr (h'.2 x (by simpa [minDeadline] using hx))
    | some a =>
      cases d' with
      | none => exact Or.inl (h.2 x (by simpa [minDeadline] using hx))
      | some b =>
        simp only [minDeadline, Option.some.injEq] at hx
        rcases Nat.le_total a b with hab | hab
        · rw [Nat.min_eq_left hab] at hx
          exact Or.inl (h.2 x (congrArg some hx))
        · rw [Nat.min_eq_right hab] at hx
          exact Or.inr (h'.2 x (congrArg some hx))

theorem foldl {α : Type} {f : α → Option Nat} {P : α → Nat → Prop} (l : List α)
    (hf : ∀ a ∈ l, Earliest (f a) (P a)) (h : Earliest d S) :
    Earliest (l.foldl (fun d a => minDeadline d (f a)) d) fun x => S x ∨ ∃ a ∈ l, P a x := by
  induction l generalizing d S with
  | nil => exact h.congr fun x => by simp
  | cons a l ih =>
    have hnext := ih (fun b hb => hf b (List.mem_cons_of_mem a hb))
      (h.min (hf a List.mem_cons_self))
    refine hnext.congr fun x => ?_
    simp only [List.exists_mem_cons_iff, or_assoc]

end Earliest

open Hoare Tables

variable {cap : Capacities} {R P : Type} {w : World cap R P} {c : Core cap R P} {now : Nat}

namespace Core

/-- The deadlines of a peer and of its sessions, of what is parked, and of what is looked up. -/
inductive Waits (c : Core cap R P) : Nat → Prop
  | keepalive {p d : Nat} {e : PeerEntry} (hp : c.peer p = some e)
    (h : e.sessions.keepaliveDue = some d) : c.Waits d
  | persistentKeepalive {p d : Nat} {e : PeerEntry} (hp : c.peer p = some e)
    (h : e.sessions.persistentKeepaliveDue = some d) : c.Waits d
  | reply {p d : Nat} {e : PeerEntry} (hp : c.peer p = some e)
    (h : e.sessions.replyDue = some d) : c.Waits d
  | attempt {p d : Nat} {e : PeerEntry} (hp : c.peer p = some e)
    (h : e.sessions.attemptDeadline = some d) : c.Waits d
  | retry {s : Nat} {h : Initiating} (hs : c.slot s = some (.initiating h)) : c.Waits h.retryAt
  | expiry {s : Nat} {sess : Session cap.replayWords} (hs : c.slot s = some (.established sess)) :
    c.Waits (saturatingAdd sess.created rejectAfterTime)
  | packet {q : PendingPacket} (hq : q ∈ c.pending.packets) : c.Waits q.deadline
  | lookup {r : InflightResolve} (hr : r ∈ c.resolves) : c.Waits r.deadline
  | reconcile {o : PendingReconcile} (ho : o ∈ c.pendingReconciles) : c.Waits o.due

end Core

theorem earliest_peerDeadline (e : PeerEntry) : Earliest (Core.peerDeadline e) fun x =>
    (e.sessions.keepaliveDue = some x ∨ e.sessions.persistentKeepaliveDue = some x) ∨
      e.sessions.replyDue = some x :=
  ((Earliest.of_option _).min (.of_option _)).min (.of_option _)

theorem earliest_nextDeadline {n : Nat} (p : PendingPool n) :
    Earliest p.nextDeadline fun x => ∃ q ∈ p.packets, q.deadline = x := by
  have hmem : ∀ x, x ∈ p.slots.toList.filterMap (Option.map (·.deadline)) ↔
      ∃ q ∈ p.packets, q.deadline = x := by
    intro x
    simp only [List.mem_filterMap, PendingPool.packets, List.reduceOption_mem_iff]
    constructor
    · rintro ⟨o, ho, hx⟩
      obtain ⟨q, rfl, hq⟩ := Option.map_eq_some_iff.mp hx
      exact ⟨q, ho, hq⟩
    · rintro ⟨q, hq, rfl⟩
      exact ⟨some q, hq, rfl⟩
  refine ⟨fun x hx => ?_, fun x hx => (hmem x).mp (List.min?_eq_some_iff.mp hx).1⟩
  rintro _ ⟨⟩
  have hne : p.nextDeadline ≠ none := by
    intro hnone
    rw [PendingPool.nextDeadline, List.min?_eq_none_iff] at hnone
    have := (hmem x).mpr hx
    rw [hnone] at this
    cases this
  obtain ⟨b, hb⟩ := Option.ne_none_iff_exists'.mp hne
  exact ⟨b, hb, (List.min?_eq_some_iff.mp hb).2 x ((hmem x).mpr hx)⟩

theorem mem_peers {o : Option PeerEntry} (h : o ∈ c.peers.toList) {e : PeerEntry}
    (he : o = some e) : ∃ p, c.peer p = some e := by
  obtain ⟨p, hp⟩ := List.mem_iff_getElem?.mp h
  refine ⟨p, ?_⟩
  rw [Vector.getElem?_toList, he] at hp
  rw [Core.peer, hp, Option.join_some]

theorem peer_mem_peers {p : Nat} {e : PeerEntry} (h : c.peer p = some e) :
    some e ∈ c.peers.toList := by
  refine List.mem_iff_getElem?.mpr ⟨p, ?_⟩
  rw [Vector.getElem?_toList]
  exact Option.join_eq_some_iff.mp h

theorem mem_slots {x : Slot cap.replayWords} : x ∈ c.slots.toList ↔ ∃ s, c.slot s = some x := by
  rw [List.mem_iff_getElem?]
  simp only [Vector.getElem?_toList]
  exact Iff.rfl

/-- The timers of a peer that the scan looks at. -/
def PeerEntry.Waits (e : PeerEntry) (x : Nat) : Prop :=
  (e.sessions.keepaliveDue = some x ∨ e.sessions.persistentKeepaliveDue = some x) ∨
    e.sessions.replyDue = some x

theorem earliest_peer (o : Option PeerEntry) :
    Earliest (o.bind Core.peerDeadline) fun x => ∃ e, o = some e ∧ e.Waits x := by
  cases o with
  | none => exact (Earliest.of_option none).congr fun x => by simp
  | some e => exact (earliest_peerDeadline e).congr fun x => by simp [PeerEntry.Waits]

/-- The timers of a slot that the scan looks at. -/
def Core.SlotWaits (c : Core cap R P) (x : Slot cap.replayWords) (d : Nat) : Prop :=
  match x with
  | .free => False
  | .initiating h => h.retryAt = d ∨ ((c.peer h.peer).bind fun p => p.sessions.attemptDeadline) =
    some d
  | .established sess => saturatingAdd sess.created rejectAfterTime = d

theorem earliest_slot (x : Slot cap.replayWords) : Earliest (c.slotDeadline x) (c.SlotWaits x) := by
  cases x with
  | free => exact (Earliest.of_option none).congr fun x => by simp [Core.SlotWaits]
  | initiating h =>
    exact ((Earliest.of_option (some h.retryAt)).min (.of_option _)).congr fun x => by
      simp [Core.SlotWaits]
  | established sess =>
    exact (Earliest.of_option (some (saturatingAdd sess.created rejectAfterTime))).congr fun x => by
      simp [Core.SlotWaits]

theorem initiating_of_holder {n p : Nat} {x : Slot n} (h : x.holder = some (p, .handshake)) :
    ∃ i, x = .initiating i ∧ i.peer = p := by
  cases x with
  | free => cases h
  | initiating i => exact ⟨i, rfl, congrArg Prod.fst (Option.some.inj h)⟩
  | established sess =>
    simp only [Slot.holder, Option.some.injEq, Prod.mk.injEq] at h
    split at h <;> cases h.2

/-- What the scan looks at is what the engine waits for: an attempt has its slot. -/
theorem waits_iff (hl : w.tables.Links) (x : Nat) : w.core.Waits x ↔
    ((∃ o ∈ w.core.peers.toList, ∃ e, o = some e ∧ e.Waits x) ∨
      (∃ s ∈ w.core.slots.toList, w.core.SlotWaits s x)) ∨
    (∃ q ∈ w.core.pending.packets, q.deadline = x) ∨ (∃ r ∈ w.core.resolves, r.deadline = x) ∨
      ∃ o ∈ w.core.pendingReconciles, o.due = x := by
  constructor
  · intro h
    cases h with
    | keepalive hp h => exact Or.inl (Or.inl ⟨_, peer_mem_peers hp, _, rfl, Or.inl (Or.inl h)⟩)
    | persistentKeepalive hp h =>
      exact Or.inl (Or.inl ⟨_, peer_mem_peers hp, _, rfl, Or.inl (Or.inr h)⟩)
    | reply hp h => exact Or.inl (Or.inl ⟨_, peer_mem_peers hp, _, rfl, Or.inr h⟩)
    | @attempt p d e hp h =>
      have hsome : e.member.sessions.attemptDeadline.isSome := by
        show e.sessions.attemptDeadline.isSome
        rw [h]
        rfl
      obtain ⟨s, hs⟩ := Option.isSome_iff_exists.mp
        ((hl.attempt p e.member (tables_peer hp)).mp hsome)
      have hheld := (hl.linked p e.member (tables_peer hp) s .handshake).mp hs
      obtain ⟨i, hi, rfl⟩ := initiating_of_holder hheld
      refine Or.inl (Or.inr ⟨_, mem_slots.mpr ⟨s, slot_of_tables hi (by simp)⟩, Or.inr ?_⟩)
      rw [hp, Option.bind_some, h]
    | retry hs => exact Or.inl (Or.inr ⟨_, mem_slots.mpr ⟨_, hs⟩, Or.inl rfl⟩)
    | expiry hs => exact Or.inl (Or.inr ⟨_, mem_slots.mpr ⟨_, hs⟩, rfl⟩)
    | packet hq => exact Or.inr (Or.inl ⟨_, hq, rfl⟩)
    | lookup hr => exact Or.inr (Or.inr (Or.inl ⟨_, hr, rfl⟩))
    | reconcile ho => exact Or.inr (Or.inr (Or.inr ⟨_, ho, rfl⟩))
  · rintro ((⟨o, ho, e, he, hwaits⟩ | ⟨s, hs, hwaits⟩) | ⟨q, hq, rfl⟩ | ⟨r, hr, rfl⟩ | ⟨o, ho, rfl⟩)
    · obtain ⟨p, hp⟩ := mem_peers ho he
      rcases hwaits with (h | h) | h
      · exact .keepalive hp h
      · exact .persistentKeepalive hp h
      · exact .reply hp h
    · obtain ⟨i, hi⟩ := mem_slots.mp hs
      cases s with
      | free => exact hwaits.elim
      | initiating h =>
        rcases hwaits with rfl | hattempt
        · exact .retry hi
        · obtain ⟨e, he, hd⟩ := Option.bind_eq_some_iff.mp hattempt
          exact .attempt he hd
      | established sess =>
        rw [← (show saturatingAdd sess.created rejectAfterTime = x from hwaits)]
        exact .expiry hi
    · exact .packet hq
    · exact .lookup hr
    · exact .reconcile ho

theorem scanDeadlines_spec (hl : w.tables.Links) : Earliest w.core.scanDeadlines w.core.Waits := by
  unfold Core.scanDeadlines
  dsimp only
  have hpeers := (Earliest.of_option none).foldl w.core.peers.toList fun o _ => earliest_peer o
  have hslots := hpeers.foldl w.core.slots.toList fun x _ => earliest_slot (c := w.core) x
  have hpackets := hslots.min (earliest_nextDeadline w.core.pending)
  have hlookups := hpackets.foldl (f := fun r : InflightResolve => some r.deadline) w.core.resolves
    fun r _ => .of_option _
  have howed := hlookups.foldl (f := fun o : PendingReconcile => some o.due)
    w.core.pendingReconciles fun o _ => .of_option _
  refine howed.congr fun x => ?_
  rw [waits_iff hl]
  simp only [Option.some.injEq, reduceCtorEq, false_or, or_assoc]

/-! ### The clocks -/

theorem waits_of_clock {k : Clock} {d : Nat} (h : w.tables.clock k = some d) : w.core.Waits d := by
  have hpeer : ∀ {p : Nat} {f : PeerSessions → Option Nat}, f .default = none →
      f (w.tables.sessionsOf p) = some d → ∃ e, w.core.peer p = some e ∧ f e.sessions = some d := by
    intro p f hnone hf
    cases he : w.core.peer p with
    | none =>
      rw [sessionsOf, tables_peer_none he] at hf
      exact absurd (hnone.symm.trans hf) (by simp)
    | some e =>
      rw [sessionsOf_some (tables_peer he)] at hf
      exact ⟨e, rfl, hf⟩
  cases k with
  | keepalive p =>
    obtain ⟨e, he, hd⟩ := hpeer (f := (·.keepaliveDue)) rfl h
    exact .keepalive he hd
  | persistent p =>
    obtain ⟨e, he, hd⟩ := hpeer (f := (·.persistentKeepaliveDue)) rfl h
    exact .persistentKeepalive he hd
  | reply p =>
    obtain ⟨e, he, hd⟩ := hpeer (f := (·.replyDue)) rfl h
    exact .reply he hd
  | attempt p =>
    obtain ⟨e, he, hd⟩ := hpeer (f := (·.attemptDeadline)) rfl h
    exact .attempt he hd
  | slot s =>
    change (w.tables.slot s).deadline = some d at h
    cases hs : w.tables.slot s with
    | free =>
      rw [hs] at h
      cases h
    | initiating i =>
      rw [hs] at h
      rw [← Option.some.inj h]
      exact .retry (slot_of_tables hs (by simp))
    | established sess =>
      rw [hs] at h
      rw [← Option.some.inj h]
      exact .expiry (slot_of_tables hs (by simp))

theorem waits_of_deadline {d : Nat} (h : d ∈ w.tables.deadlines) : w.core.Waits d := by
  simp only [deadlines, Multiset.mem_add, Multiset.mem_map] at h
  rcases h with (⟨q, hq, rfl⟩ | ⟨r, hr, rfl⟩) | ⟨o, ho, rfl⟩
  · exact .packet (Multiset.mem_coe.mp hq)
  · exact .lookup (Multiset.mem_coe.mp hr)
  · exact .reconcile (Multiset.mem_coe.mp ho)

/-- The cached bound is not late for anything that the engine waits for. -/
theorem timely_iff : Timely w.tables ↔ ∀ d, w.core.Waits d → NotAfter w.core.pollAt (some d) := by
  constructor
  · intro h d hd
    have hclock : ∀ k, w.tables.clock k = some d → NotAfter w.core.pollAt (some d) :=
      fun k hk => hk ▸ h.clock k
    have hlater : d ∈ w.tables.deadlines → NotAfter w.core.pollAt (some d) := h.deadlines d
    simp only [deadlines, Multiset.mem_add, Multiset.mem_map] at hlater
    have hsessions : ∀ {p : Nat} {e : PeerEntry}, w.core.peer p = some e →
        w.tables.sessionsOf p = e.sessions := fun he => sessionsOf_some (tables_peer he)
    cases hd with
    | @keepalive p _ e hp h => exact hclock (.keepalive p) (by rw [clock, hsessions hp, h])
    | @persistentKeepalive p _ e hp h =>
      exact hclock (.persistent p) (by rw [clock, hsessions hp, h])
    | @reply p _ e hp h => exact hclock (.reply p) (by rw [clock, hsessions hp, h])
    | @attempt p _ e hp h => exact hclock (.attempt p) (by rw [clock, hsessions hp, h])
    | @retry s i hs => exact hclock (.slot s) (by rw [clock, tables_slot hs]; rfl)
    | @expiry s sess hs => exact hclock (.slot s) (by rw [clock, tables_slot hs]; rfl)
    | packet hq => exact hlater (Or.inl (Or.inl ⟨_, Multiset.mem_coe.mpr hq, rfl⟩))
    | lookup hr => exact hlater (Or.inl (Or.inr ⟨_, Multiset.mem_coe.mpr hr, rfl⟩))
    | reconcile ho => exact hlater (Or.inr ⟨_, Multiset.mem_coe.mpr ho, rfl⟩)
  · intro h
    refine ⟨fun k d hd => h d (waits_of_clock hd) d rfl, fun d hd => h d (waits_of_deadline hd)⟩

theorem lt_of_not_due {o : Option Nat} {d : Nat} (h : Core.isDue now o = false) (ho : o = some d) :
    now < d := by
  rw [ho] at h
  simpa [Core.isDue] using h

theorem lt_expiry {created lifetime : Nat} (h : saturatingSince now created < lifetime)
    (hsat : saturatingAdd created lifetime ≠ maxMillis) : now < saturatingAdd created lifetime := by
  simp only [saturatingSince] at h
  simp only [saturatingAdd] at hsat ⊢
  omega

theorem slotDue_false (h : w.core.anyDue now = false) {s : Nat} {x : Slot cap.replayWords}
    (hs : w.core.slot s = some x) : w.core.slotDue now s = false := by
  simp only [Core.anyDue, Core.jobDue, Bool.or_eq_false_iff] at h
  exact Bool.eq_false_iff.mpr fun hdue =>
    absurd h.1.2 (by simpa using ⟨s, Core.lt_of_slot hs, hdue⟩)

theorem peerDue_false (h : w.core.anyDue now = false) {p : Nat} {e : PeerEntry}
    (hp : w.core.peer p = some e) : Core.isDue now e.sessions.keepaliveDue = false ∧
      Core.isDue now e.sessions.persistentKeepaliveDue = false ∧
      Core.isDue now e.sessions.replyDue = false := by
  simp only [Core.anyDue, Bool.or_eq_false_iff] at h
  have hdue : w.core.peerDue now p = false := Bool.eq_false_iff.mpr fun hdue =>
    absurd h.2 (by simpa using ⟨p, Core.lt_of_peer hp, hdue⟩)
  rw [Core.peerDue, hp] at hdue
  simpa [and_assoc] using hdue

/-- If nothing waits to be handled, then every deadline lies ahead. -/
theorem lt_of_anyDue_false (hl : w.tables.Links) (h : w.core.anyDue now = false) {d : Nat}
    (hd : w.core.Waits d) (hsat : d ≠ maxMillis) : now < d := by
  cases hd with
  | keepalive hp hd => exact lt_of_not_due (peerDue_false h hp).1 hd
  | persistentKeepalive hp hd => exact lt_of_not_due (peerDue_false h hp).2.1 hd
  | reply hp hd => exact lt_of_not_due (peerDue_false h hp).2.2 hd
  | @attempt p d e hp hd =>
    have hsome : e.member.sessions.attemptDeadline.isSome := by
      show e.sessions.attemptDeadline.isSome
      rw [hd]
      rfl
    obtain ⟨s, hs⟩ := Option.isSome_iff_exists.mp
      ((hl.attempt p e.member (tables_peer hp)).mp hsome)
    obtain ⟨i, hi, rfl⟩ := initiating_of_holder
      ((hl.linked p e.member (tables_peer hp) s .handshake).mp hs)
    have hslot := slot_of_tables hi (by simp)
    have hdue := slotDue_false h hslot
    rw [Core.slotDue, hslot] at hdue
    refine lt_of_not_due (Bool.or_eq_false_iff.mp hdue).1 ?_
    rw [hp, Option.bind_some, hd]
  | retry hs =>
    have hdue := slotDue_false h hs
    rw [Core.slotDue, hs] at hdue
    simpa using (Bool.or_eq_false_iff.mp hdue).2
  | @expiry s sess hs =>
    have hdue := slotDue_false h hs
    rw [Core.slotDue, hs] at hdue
    have hyoung : saturatingSince now sess.created < rejectAfterTime := by simpa using hdue
    exact lt_expiry hyoung hsat
  | packet hq =>
    simp only [Core.anyDue, Core.jobDue, Bool.or_eq_false_iff] at h
    simpa using (List.any_eq_false.mp h.1.1.1.1) _ hq
  | lookup hr =>
    simp only [Core.anyDue, Core.jobDue, Bool.or_eq_false_iff] at h
    simpa using (List.any_eq_false.mp h.1.1.1.2) _ hr
  | reconcile ho =>
    simp only [Core.anyDue, Core.jobDue, Bool.or_eq_false_iff] at h
    simpa using (List.any_eq_false.mp h.1.1.2) _ ho

end Microtun
