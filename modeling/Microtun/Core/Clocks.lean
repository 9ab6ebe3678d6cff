import Microtun.Core.Registry

/-! What the engine waits for.  A peer and a slot have clocks; a parked packet, a lookup and an
obligation have deadlines.  A step keeps a clock or sets it to an instant that is armed and lies
ahead, so the cached bound is never late, and what is due at one instant only gets less. -/

namespace Microtun

open Function (update update_self update_of_ne)

/-- The clocks of peers and slots. -/
inductive Clock where
  | keepalive (p : Nat)
  | persistent (p : Nat)
  | reply (p : Nat)
  | attempt (p : Nat)
  | slot (s : Nat)
deriving DecidableEq, Repr

/-- When a slot is to be looked at again. -/
def Slot.deadline {replayWords : Nat} : Slot replayWords → Option Nat
  | free => none
  | initiating handshake => some handshake.retryAt
  | established session => some (saturatingAdd session.created rejectAfterTime)

namespace Tables

variable {cap : Capacities} {t t' : Tables cap} {now : Nat} {scope : Scope}

/-- The timers of a peer. -/
def sessionsOf (t : Tables cap) (p : Nat) : PeerSessions :=
  ((t.peer p).map (·.sessions)).getD .default

/-- What a clock is set to. -/
def clock (t : Tables cap) : Clock → Option Nat
  | .keepalive p => (t.sessionsOf p).keepaliveDue
  | .persistent p => (t.sessionsOf p).persistentKeepaliveDue
  | .reply p => (t.sessionsOf p).replyDue
  | .attempt p => (t.sessionsOf p).attemptDeadline
  | .slot s => (t.slot s).deadline

theorem Reset.refl (t : Tables cap) (old : Option Nat) : t.Reset now old old := Or.inl rfl

theorem Reset.none (t : Tables cap) (old : Option Nat) : t.Reset now old none :=
  Or.inr (by rintro _ ⟨⟩)

theorem sessionsOf_some {p : Nat} {m : Member} (h : t.peer p = some m) :
    t.sessionsOf p = m.sessions := by
  rw [sessionsOf, h]
  rfl

theorem reset_slot {s : Nat} {x : Slot cap.replayWords}
    (hx : t.Reset now (t.slot s).deadline x.deadline) (r : Nat) :
    t.Reset now (t.slot r).deadline (update t.slot s x r).deadline := by
  by_cases hr : r = s
  · rw [hr, update_self]
    exact hx
  · rw [update_of_ne hr]
    exact Reset.refl t _

/-- A change of the tables that resets the clocks of one peer, and of slots. -/
theorem reset_peer {p : Nat} {m : Member} {old : PeerSessions}
    (hpeer : t'.peer = update t.peer p (some m)) (hold : t.sessionsOf p = old)
    (hk : t.Reset now old.keepaliveDue m.sessions.keepaliveDue)
    (hpk : t.Reset now old.persistentKeepaliveDue m.sessions.persistentKeepaliveDue)
    (hr : t.Reset now old.replyDue m.sessions.replyDue)
    (ha : t.Reset now old.attemptDeadline m.sessions.attemptDeadline)
    (hslot : ∀ s, t.Reset now (t.slot s).deadline (t'.slot s).deadline) (c : Clock) :
    t.Reset now (t.clock c) (t'.clock c) := by
  subst hold
  have hself : t'.sessionsOf p = m.sessions := by
    rw [sessionsOf, hpeer, update_self]
    rfl
  have hother : ∀ q, q ≠ p → t'.sessionsOf q = t.sessionsOf q := by
    intro q hq
    rw [sessionsOf, hpeer, update_of_ne hq]
    rfl
  have hall : ∀ (f : PeerSessions → Option Nat),
      t.Reset now (f (t.sessionsOf p)) (f m.sessions) → ∀ q,
      t.Reset now (f (t.sessionsOf q)) (f (t'.sessionsOf q)) := by
    intro f hf q
    by_cases hq : q = p
    · rw [hq, hself]
      exact hf
    · rw [hother q hq]
      exact Reset.refl t _
  cases c with
  | keepalive q => exact hall (·.keepaliveDue) hk q
  | persistent q => exact hall (·.persistentKeepaliveDue) hpk q
  | reply q => exact hall (·.replyDue) hr q
  | attempt q => exact hall (·.attemptDeadline) ha q
  | slot s => exact hslot s

/-- The clocks of a peer are those it had, and a slot is reset. -/
theorem reset_setSlot {s : Nat} {x : Slot cap.replayWords} (hpeer : t'.peer = t.peer)
    (hslot : t'.slot = update t.slot s x) (hx : t.Reset now (t.slot s).deadline x.deadline)
    (c : Clock) : t.Reset now (t.clock c) (t'.clock c) := by
  have hsessions : ∀ q, t'.sessionsOf q = t.sessionsOf q := by
    intro q
    rw [sessionsOf, hpeer]
    rfl
  cases c with
  | slot r =>
    show t.Reset now (t.slot r).deadline (t'.slot r).deadline
    rw [hslot]
    exact reset_slot hx r
  | _ =>
    simp only [clock, hsessions]
    exact Reset.refl t _

theorem reset_session {i : Nat} {s s' : Session cap.replayWords}
    (hs : t.slot i = .established s) (hpeer : t'.peer = t.peer)
    (hslot : t'.slot = update t.slot i (.established s')) (hcreated : s'.created = s.created)
    (c : Clock) : t.Reset now (t.clock c) (t'.clock c) := by
  refine reset_setSlot hpeer hslot ?_ c
  simp only [hs, Slot.deadline, hcreated]
  exact Reset.refl t _

theorem reset_remove {p : Nat} (hpeer : t'.peer = update t.peer p none) (hslot : t'.slot = t.slot)
    (c : Clock) : t.Reset now (t.clock c) (t'.clock c) := by
  have hsessions : ∀ q, t'.sessionsOf q = t.sessionsOf q ∨ t'.sessionsOf q = .default := by
    intro q
    by_cases hq : q = p
    · refine Or.inr ?_
      rw [sessionsOf, hpeer, hq, update_self]
      rfl
    · refine Or.inl ?_
      rw [sessionsOf, hpeer, update_of_ne hq]
      rfl
  cases c with
  | slot r =>
    show t.Reset now (t.slot r).deadline (t'.slot r).deadline
    rw [hslot]
    exact Reset.refl t _
  | keepalive q | persistent q | reply q | attempt q =>
    simp only [clock]
    rcases hsessions q with h | h
    · rw [h]
      exact Reset.refl t _
    · rw [h]
      exact Reset.none t _

theorem unlink_timers (ps : PeerSessions) (s : Nat) : (ps.unlink s).keepaliveDue = ps.keepaliveDue ∧
      (ps.unlink s).persistentKeepaliveDue = ps.persistentKeepaliveDue ∧
      (ps.unlink s).replyDue = ps.replyDue ∧ ((ps.unlink s).attemptDeadline = ps.attemptDeadline ∨
        (ps.unlink s).attemptDeadline = none) := by
  unfold PeerSessions.unlink PeerSessions.abortHandshake
  dsimp only
  split_ifs <;> simp

theorem sessionsOf_clear (s p : Nat) : (t.clear s).sessionsOf p = t.sessionsOf p ∨
    (t.clear s).sessionsOf p = (t.sessionsOf p).unlink s := by
  by_cases howner : (t.slot s).owner = some p
  · cases hp : t.peer p with
    | none =>
      refine Or.inl ?_
      simp [sessionsOf, clear, howner, hp]
    | some m =>
      refine Or.inr ?_
      simp [sessionsOf, clear, howner, hp, Member.unlink]
  · refine Or.inl ?_
    simp [sessionsOf, clear, howner]

theorem reset_clear (s : Nat) (c : Clock) : t.Reset now (t.clock c) ((t.clear s).clock c) := by
  have hpeer : ∀ (f : PeerSessions → Option Nat), (∀ ps : PeerSessions,
      f (ps.unlink s) = f ps ∨ f (ps.unlink s) = none) → ∀ q,
      t.Reset now (f (t.sessionsOf q)) (f ((t.clear s).sessionsOf q)) := by
    intro f hf q
    rcases sessionsOf_clear (t := t) s q with h | h
    · rw [h]
      exact Reset.refl t _
    · rw [h]
      rcases hf (t.sessionsOf q) with h' | h'
      · rw [h']
        exact Reset.refl t _
      · rw [h']
        exact Reset.none t _
  cases c with
  | keepalive q => exact hpeer (·.keepaliveDue) (fun ps => Or.inl (unlink_timers ps s).1) q
  | persistent q =>
    exact hpeer (·.persistentKeepaliveDue) (fun ps => Or.inl (unlink_timers ps s).2.1) q
  | reply q => exact hpeer (·.replyDue) (fun ps => Or.inl (unlink_timers ps s).2.2.1) q
  | attempt q => exact hpeer (·.attemptDeadline) (fun ps => (unlink_timers ps s).2.2.2) q
  | slot r => exact reset_slot (x := .free) (Reset.none t _) r

variable [Crypto]

/-- A step keeps a clock, stops it, or sets it to an instant that is armed and lies ahead. -/
theorem Step.clock (hstep : Step now scope t t') (c : Clock) :
    t.Reset now (t.clock c) (t'.clock c) := by
  have hsame : ∀ old : Option Nat, t.Reset now old old := Reset.refl t
  cases hstep with
  | clear s => exact reset_clear s c
  | @initiate _ p s d m h hp _ hs _ _ hretry _ hd =>
    refine reset_peer (p := p) (m := { m with sessions := { m.sessions with
      handshake := some s, attemptDeadline := some d } }) ?_ (sessionsOf_some hp) ?_ ?_ ?_ ?_ ?_ c
    · exact rfl
    · exact hsame _
    · exact hsame _
    · exact hsame _
    · exact Or.inr (by rintro _ ⟨⟩; exact hd)
    · exact reset_slot (Or.inr (by rintro _ ⟨⟩; exact hretry))
  | @retry _ s h h' _ _ _ _ hretry _ =>
    refine reset_setSlot (s := s) (x := .initiating h') ?_ ?_ ?_ c
    · exact rfl
    · exact rfl
    · exact Or.inr (by rintro _ ⟨⟩; exact hretry)
  | @pass _ p m ts hp _ _ =>
    refine reset_peer (p := p) (m := { m with
      greatestTs := ts, lastInitiationConsumption := some now }) ?_ (sessionsOf_some hp) ?_ ?_ ?_ ?_
        ?_ c
    · exact rfl
    · exact hsame _
    · exact hsame _
    · exact hsame _
    · exact hsame _
    · exact fun _ => hsame _
  | @respond _ p s m sess hp _ _ _ hsess hd =>
    refine reset_peer (p := p) (m := { m with sessions := { m.sessions with next := some s } }) ?_
      (sessionsOf_some hp) ?_ ?_ ?_ ?_ ?_ c
    · exact rfl
    · exact hsame _
    · exact hsame _
    · exact hsame _
    · exact hsame _
    · refine reset_slot (x := .established sess) (Or.inr fun d hdeadline => ?_)
      rw [← Option.some.inj hdeadline, hsess.created]
      exact hd
  | @complete _ p s m h sess hp _ _ _ _ hsess hd =>
    refine reset_peer (p := p) (m := { m with sessions := { m.sessions with
      handshake := none, attemptDeadline := none, previous := m.sessions.current
      current := some s } }) ?_ (sessionsOf_some hp) ?_ ?_ ?_ ?_ ?_ c
    · exact rfl
    · exact hsame _
    · exact hsame _
    · exact hsame _
    · exact Reset.none t _
    · refine reset_slot (x := .established sess) (Or.inr fun d hdeadline => ?_)
      rw [← Option.some.inj hdeadline, hsess.created]
      exact hd
  | @confirm _ p s m sess hp hs _ _ =>
    refine reset_peer (p := p) (m := { m with sessions := { m.sessions with
      next := none, previous := m.sessions.current, current := some s } }) ?_
        (sessionsOf_some hp) ?_ ?_ ?_ ?_ ?_ c
    · exact rfl
    · exact hsame _
    · exact hsame _
    · exact hsame _
    · exact hsame _
    · refine reset_slot ?_
      rw [hs]
      exact hsame _
  | @noteRekey _ s sess hs rekeyTriggered =>
    refine @reset_session _ _ _ _ _ _ { sess with rekeyTriggered } hs ?_ ?_ ?_ c
    · exact rfl
    · exact rfl
    · exact rfl
  | @timers _ p m keepaliveDue persistentKeepaliveDue replyDue hp hk hpk hr _ =>
    refine reset_peer (p := p) (m := { m with sessions := { m.sessions with
      keepaliveDue, persistentKeepaliveDue, replyDue } }) ?_ (sessionsOf_some hp) ?_ ?_ ?_ ?_ ?_ c
    · exact rfl
    · exact hk
    · exact hpk
    · exact hr
    · exact hsame _
    · exact fun _ => hsame _
  | @lapse _ p m hp =>
    refine reset_peer (p := p) (m := { m with sessions := { m.sessions with
      persistentKeepaliveDue := none } }) ?_ (sessionsOf_some hp) ?_ ?_ ?_ ?_ ?_ c
    · exact rfl
    · exact hsame _
    · exact Reset.none t _
    · exact hsame _
    · exact hsame _
    · exact fun _ => hsame _
  | @sealed _ s sess record hs _ _ _ _ _ _ =>
    refine @reset_session _ _ _ _ _ _ { sess with nSend := sess.nSend + 1 } hs ?_ ?_ ?_ c
    · exact rfl
    · exact rfl
    · exact rfl
  | @accept _ s counter sess replay hs _ =>
    refine @reset_session _ _ _ _ _ _ { sess with replay } hs ?_ ?_ ?_ c
    · exact rfl
    · exact rfl
    · exact rfl
  | @reject _ s counter sess replay hs _ =>
    refine @reset_session _ _ _ _ _ _ { sess with replay } hs ?_ ?_ ?_ c
    · exact rfl
    · exact rfl
    · exact rfl
  | @refresh _ p m policy relay interval persistentKeepaliveDue hp _ _ hpk _ =>
    refine reset_peer (p := p) (m := { m with
      policy, relay, interval, sessions := { m.sessions with persistentKeepaliveDue } }) ?_
      (sessionsOf_some hp) ?_ ?_ ?_ ?_ ?_ c
    · exact rfl
    · exact hsame _
    · exact hpk
    · exact hsame _
    · exact hsame _
    · exact fun _ => hsame _
  | @route _ p i m e routes hp _ _ _ _ _ =>
    refine reset_peer (p := p) (m := { m with address := e.cidr }) ?_ (sessionsOf_some hp) ?_ ?_ ?_
      ?_ ?_ c
    · exact rfl
    · exact hsame _
    · exact hsame _
    · exact hsame _
    · exact hsame _
    · exact fun _ => hsame _
  | @evict _ p _ _ _ _ _ _ _ _ _ =>
    refine reset_remove (p := p) ?_ ?_ c
    · exact rfl
    · exact rfl
  | @install _ p m hp _ _ hsessions hpk _ =>
    have hold : t.sessionsOf p = .default := by
      rw [sessionsOf, hp]
      rfl
    refine reset_peer (p := p) (m := m) ?_ hold ?_ ?_ ?_ ?_ ?_ c
    · exact rfl
    · rw [hsessions]
      exact hsame _
    · exact hpk
    · rw [hsessions]
      exact hsame _
    · rw [hsessions]
      exact hsame _
    · exact fun _ => hsame _
  | _ => exact hsame _

/-- What waits outside of the sessions goes, or one thing comes that is armed and lies ahead. -/
theorem Step.deadlines (hstep : Step now scope t t') :
    t'.deadlines ≤ t.deadlines ∨ ∃ d, t.Ahead now d ∧ t'.deadlines ≤ d ::ₘ t.deadlines := by
  cases hstep with
  | dropParked h =>
    exact Or.inl (Multiset.add_le_add_right (Multiset.add_le_add_right (Multiset.map_le_map h)))
  | park hd _ _ => exact Or.inr ⟨_, hd, by simp [Tables.deadlines, withParked]⟩
  | await hd _ _ _ _ _ => exact Or.inr ⟨_, hd, by simp [Tables.deadlines, withParked]⟩
  | ask _ _ _ _ _ _ _ hd => exact Or.inr ⟨_, hd, by simp [Tables.deadlines, withLookups]⟩
  | seek _ _ _ _ _ _ hd _ _ _ =>
    exact Or.inr ⟨_, hd, by simp [Tables.deadlines, withLookups, enter]⟩
  | forget h _ =>
    exact Or.inl (Multiset.add_le_add_right (Multiset.add_le_add_left (Multiset.map_le_map h)))
  | deny _ _ _ _ _ hd => exact Or.inr ⟨_, hd, by simp [Tables.deadlines, withLookups]⟩
  | close hl _ _ _ =>
    refine Or.inl ?_
    simp [Tables.deadlines, shut, hl, Multiset.le_cons_self]
  | strand hl _ _ =>
    refine Or.inl ?_
    simp [Tables.deadlines, withLookups, enter, hl, Multiset.le_cons_self]
  | owe h hd =>
    refine Or.inr ⟨_, hd, ?_⟩
    rcases h with h | ⟨x, -, h⟩
    · simp [Tables.deadlines, withOwed, h]
    · simp [Tables.deadlines, withOwed, h, Multiset.le_cons_self]
  | discharge h _ =>
    refine Or.inl ?_
    simp [Tables.deadlines, withOwed, h, Multiset.le_cons_self]
  | offer h _ =>
    refine Or.inl ?_
    simp [Tables.deadlines, withLookups, enter, h]
  | _ => exact Or.inl le_rfl

theorem Step.timer (hstep : Step now scope t t') {d : Option Nat} (h : NotAfter t.timer.get d) :
    NotAfter t'.timer.get d := by
  cases hstep with
  | arm d => exact TimerCache.notAfter_arm h
  | _ => exact h

/-- The cached bound is not late for anything. -/
structure Timely (t : Tables cap) : Prop where
  clock : ∀ c, NotAfter t.timer.get (t.clock c)
  deadlines : ∀ d ∈ t.deadlines, NotAfter t.timer.get (some d)

omit [Crypto] in
theorem Reset.notAfter {old new : Option Nat} (h : t.Reset now old new)
    (hold : NotAfter t.timer.get old) : NotAfter t.timer.get new := by
  rcases h with rfl | h
  · exact hold
  · intro d hd
    exact (h d hd).1 d rfl

theorem Timely.step (h : Timely t) (hstep : Step now scope t t') : Timely t' := by
  refine ⟨fun c => hstep.timer ((hstep.clock c).notAfter (h.clock c)), fun d hd => hstep.timer ?_⟩
  rcases hstep.deadlines with hle | ⟨x, hx, hle⟩
  · exact h.deadlines d (Multiset.mem_of_le hle hd)
  · rcases Multiset.mem_cons.mp (Multiset.mem_of_le hle hd) with rfl | hd
    · exact hx.1
    · exact h.deadlines d hd

theorem Steps.timely (h : Steps now scope t t') (ht : Timely t) : Timely t' :=
  h.keeps (fun _ _ _ _ hstep hu => hu.step hstep) ht

/-! ### What is due -/

/-- The clocks of an engine. -/
def clocks (cap : Capacities) : List Clock :=
  ((List.range cap.maxPeers).flatMap fun p =>
    [.keepalive p, .persistent p, .reply p, .attempt p]) ++
    (List.range cap.maxSessions).map .slot

/-- Has the instant come? -/
def dueBy (now : Nat) (d : Option Nat) : Bool := d.any (· ≤ now)

/-- How much is due. -/
def due (now : Nat) (t : Tables cap) : Nat :=
  (clocks cap).countP (fun c => dueBy now (t.clock c)) + t.deadlines.countP (· ≤ now)

/-- Nothing comes to be due. -/
structure Eased (now : Nat) (t t' : Tables cap) : Prop where
  clock : ∀ c, dueBy now (t'.clock c) = true → dueBy now (t.clock c) = true
  deadlines : t'.deadlines.countP (· ≤ now) ≤ t.deadlines.countP (· ≤ now)

omit [Crypto] in
theorem Eased.refl (t : Tables cap) : Eased now t t := ⟨fun _ h => h, le_rfl⟩

omit [Crypto] in
theorem Eased.trans {t'' : Tables cap} (h : Eased now t t') (h' : Eased now t' t'') :
    Eased now t t'' :=
  ⟨fun c hc => h.clock c (h'.clock c hc), h'.deadlines.trans h.deadlines⟩

omit [Crypto] in
theorem Eased.clocks_le (h : Eased now t t') :
    (clocks cap).countP (fun c => dueBy now (t'.clock c)) ≤
      (clocks cap).countP (fun c => dueBy now (t.clock c)) :=
  List.countP_mono_left fun c _ hc => h.clock c hc

omit [Crypto] in
theorem Eased.due_le (h : Eased now t t') : t'.due now ≤ t.due now :=
  Nat.add_le_add h.clocks_le h.deadlines

theorem Step.eased (hstep : Step now scope t t') (hn : now < maxMillis)
    (httl : t.config.negativeTtl ≠ 0) : Eased now t t' := by
  refine ⟨fun c hc => ?_, ?_⟩
  · rcases hstep.clock c with h | h
    · rwa [← h]
    · obtain ⟨d, hd, hle⟩ := (Option.any_eq_true _ _).mp hc
      have := (h d hd).2 hn httl
      simp only [decide_eq_true_eq] at hle
      omega
  · rcases hstep.deadlines with hle | ⟨d, hd, hle⟩
    · exact Multiset.countP_le_of_le _ hle
    · have hlt : ¬d ≤ now := Nat.not_le.mpr (hd.2 hn httl)
      refine (Multiset.countP_le_of_le _ hle).trans ?_
      rw [Multiset.countP_cons_of_neg (p := fun x => x ≤ now) _ hlt]

theorem Steps.eased (h : Steps now scope t t') (hn : now < maxMillis)
    (httl : t.config.negativeTtl ≠ 0) : Eased now t t' := by
  have hboth : Eased now t t' ∧ t'.config = t.config := by
    refine h.keeps (I := fun u => Eased now t u ∧ u.config = t.config) ?_ ⟨Eased.refl t, rfl⟩
    intro k u u' _ hstep hu
    refine ⟨hu.1.trans (hstep.eased hn ?_), hstep.config.trans hu.2⟩
    rw [hu.2]
    exact httl
  exact hboth.1

omit [Crypto] in
theorem Eased.due_lt_of_clock (h : Eased now t t') {c : Clock} (hc : c ∈ clocks cap)
    (hdue : dueBy now (t.clock c) = true) (hdone : dueBy now (t'.clock c) = false) :
    t'.due now < t.due now := by
  refine Nat.add_lt_add_of_lt_of_le ?_ h.deadlines
  obtain ⟨before, after, hsplit⟩ := List.append_of_mem hc
  have hbefore : before.countP (fun c => dueBy now (t'.clock c)) ≤
      before.countP (fun c => dueBy now (t.clock c)) :=
    List.countP_mono_left fun c _ hc => h.clock c hc
  have hafter : after.countP (fun c => dueBy now (t'.clock c)) ≤
      after.countP (fun c => dueBy now (t.clock c)) :=
    List.countP_mono_left fun c _ hc => h.clock c hc
  simp only [hsplit, List.countP_append, List.countP_cons, hdue, hdone, if_true,
    Bool.false_eq_true, if_false]
  omega

omit [Crypto] in
theorem Eased.due_lt_of_deadline (h : Eased now t t')
    (hlt : t'.deadlines.countP (· ≤ now) < t.deadlines.countP (· ≤ now)) : t'.due now < t.due now :=
  Nat.add_lt_add_of_le_of_lt h.clocks_le hlt

end Tables

end Microtun
