import Microtun.Core.Spec.Pool

/-! What starting a handshake does to the tables. -/

namespace Microtun

open Hoare Tables
open Function (update update_self update_of_ne)

variable {cap : Capacities} {R P : Type} {w : World cap R P} {now : Nat}

/-! ### Deadlines -/

theorem lt_saturatingAdd_of_lt {n d : Nat} (hd : 0 < d) (hn : n < maxMillis) :
    n < saturatingAdd n d := by
  simp only [saturatingAdd]
  omega

theorem lt_retry_deadline {n j : Nat} (hn : n < maxMillis) :
    n < saturatingAdd (saturatingAdd n rekeyTimeout) j := by
  simp only [saturatingAdd, rekeyTimeout]
  omega

theorem le_retry_deadline (n j : Nat) :
    saturatingAdd n rekeyTimeout ≤ saturatingAdd (saturatingAdd n rekeyTimeout) j :=
  le_saturatingAdd (min_le_right _ _) j

/-! Arming the timer commutes with what does not touch it. -/

section

variable {t : Tables cap} {d : Nat}

theorem Tables.arm_setSlot {s : Nat} {x : Slot cap.replayWords} :
    (t.arm d).setSlot s x = (t.setSlot s x).arm d := rfl

theorem Tables.arm_setIndex {i : UInt32} {s : Option Nat} :
    (t.arm d).setIndex i s = (t.setIndex i s).arm d := rfl

theorem Tables.arm_setPeer {p : Nat} {m : Member} :
    (t.arm d).setPeer p m = (t.setPeer p m).arm d := rfl

theorem Tables.arm_note {e : Event} : (t.arm d).note e = (t.note e).arm d := rfl

theorem Tables.note_setPeer {e : Event} {p : Nat} {m : Member} :
    (t.note e).setPeer p m = (t.setPeer p m).note e := rfl

end

theorem ahead_arm {t : Tables cap} {d : Nat} (h : now < maxMillis → t.config.negativeTtl ≠ 0 →
    now < d) : (t.arm d).Ahead now d :=
  ⟨TimerCache.notAfter_arm_self _ _, h⟩

theorem Tables.Ahead.arm {t : Tables cap} {d d' : Nat} (h : t.Ahead now d) :
    (t.arm d').Ahead now d :=
  ⟨TimerCache.notAfter_arm h.1, h.2⟩

theorem lt_reply_deadline {n j : Nat} (hn : n < maxMillis) :
    n < saturatingAdd (saturatingAdd (saturatingAdd n keepaliveTimeout) rekeyTimeout) j := by
  simp only [saturatingAdd, rekeyTimeout, keepaliveTimeout]
  omega

/-- Arming for a deadline that may be missing. -/
def Tables.armSome (t : Tables cap) (d : Option Nat) : Tables cap :=
  match d with
  | some d => t.arm d
  | none => t

theorem tables_armSome {c : Core cap R P} {d : Option Nat} {log : List Event} {n : Nat} :
    World.tables ⟨c.armSome d, log, n⟩ = (World.tables ⟨c, log, n⟩).armSome d := by
  cases d <;> rfl

theorem steps_armSome [Crypto] (t : Tables cap) (d : Option Nat) :
    Steps now .quiet t (t.armSome d) := by
  cases d with
  | none => exact Steps.refl t
  | some d => exact (Step.arm d).steps

theorem reset_armSome {t : Tables cap} {old d : Option Nat}
    (h : ∀ x, d = some x → now < maxMillis → t.config.negativeTtl ≠ 0 → now < x) :
    (t.armSome d).Reset now old d := by
  refine Or.inr fun x hx => ?_
  subst hx
  exact ahead_arm (h x rfl)

theorem Tables.Reset.armSome {t : Tables cap} {old new d : Option Nat} (h : t.Reset now old new) :
    (t.armSome d).Reset now old new := by
  cases d with
  | none => exact h
  | some d =>
    rcases h with h | h
    · exact Or.inl h
    · exact Or.inr fun x hx => (h x hx).arm

theorem persistent_ahead [Crypto] (hI : w.tables.Inv) {p : Nat} {m : Member}
    (hp : w.tables.peer p = some m) {x : Nat} (hx : m.interval.map (saturatingAdd now) = some x)
    (hn : now < maxMillis) : now < x := by
  obtain ⟨interval, hi, rfl⟩ := Option.map_eq_some_iff.mp hx
  refine lt_saturatingAdd_of_lt (Nat.pos_of_ne_zero ?_) hn
  rintro rfl
  exact hI.registry.interval p m hp hi

/-! ### Starting a handshake -/

theorem timestamp_lastTs (now : Nat) (c : Core cap R P) :
    ∃ ts, (Core.timestamp now c).2 = { c with lastTs := ts } := by
  unfold Core.timestamp
  split
  · exact ⟨c.lastTs, rfl⟩
  · split
    · split
      · exact ⟨c.lastTs, rfl⟩
      · exact ⟨_, rfl⟩
    · exact ⟨_, rfl⟩

theorem timestamp_spec (now : Nat) :
    wpx (tryCore (Core.timestamp now)) (fun _ w' => w'.tables = w.tables) w := by
  obtain ⟨ts, hts⟩ := timestamp_lastTs now w.core
  rw [wpx_tryCore, hts]
  rfl

theorem existingIndex_some {s : Nat} {c : Core cap R P} {i : UInt32}
    (h : existingIndex s c = .ok (some i)) :
    ∃ h', c.slot s = some (.initiating h') ∧ h'.localIndex = i := by
  unfold existingIndex at h
  split at h
  · cases h
  · rename_i h' hs
    cases h
    exact ⟨h', hs, rfl⟩
  · cases h
  · cases h

theorem existingIndex_none {s : Nat} {c : Core cap R P} (h : existingIndex s c = .ok none) :
    c.slot s = some .free := by
  unfold existingIndex at h
  split at h
  · cases h
  · cases h
  · assumption
  · cases h

theorem insertIndex_spec {i : UInt32} {s : Nat} :
    wpx (insertIndex i s) (fun r w' => (∃ e, r = .error e ∧ w'.tables = w.tables) ∨
      (r = .ok () ∧ w'.tables = w.tables.setIndex i (some s))) w := by
  unfold insertIndex
  rw [wpx_tryCore]
  dsimp only
  cases hins : w.core.sessionIndices.insert i s with
  | mk r m' =>
    cases r with
    | error e =>
      left
      refine ⟨e, rfl, ?_⟩
      rw [SessionIndexMap.insert_error hins]
    | ok u =>
      right
      refine ⟨rfl, ?_⟩
      have hfor : m'.slotFor = update w.core.sessionIndices.slotFor i (some s) := by
        funext j
        rw [(SessionIndexMap.insert_ok hins).2.2 j]
        by_cases hj : j = i <;> simp [hj]
      show { w.tables with slotFor := m'.slotFor } = _
      rw [hfor]
      rfl

theorem storeInitiation_tables {p s : Nat} {h : Initiating} {mac1 : Bytes 16}
    (hs : s < cap.maxSessions) :
    World.tables ⟨((w.core.setSlot s (.initiating h)).modifyPeer p fun e =>
      { e with lastMac1 := some mac1 }).arm h.retryAt, w.log, w.established⟩ =
      (w.tables.setSlot s (.initiating h)).arm h.retryAt := by
  rw [tables_arm, tables_modifyPeer_same, tables_setSlot hs]
  intro e
  rfl

/-- What an initiation in the slot `s` leaves behind. -/
structure InitiationIn (now p s : Nat) (t t' : Tables cap) (h : Initiating) (fresh : Bool) :
    Prop where
  owner : h.peer = p
  later : now < maxMillis → now < h.retryAt
  pace : saturatingAdd now rekeyTimeout ≤ h.retryAt
  place : fresh = true ∧ t.slot s = .free ∧ t.slotFor h.localIndex = none ∨
    fresh = false ∧ ∃ h', t.slot s = .initiating h' ∧ h.localIndex = h'.localIndex
  tables : t' = (((t.setSlot s (.initiating h)).setIndex h.localIndex (some s)).arm h.retryAt).note
    (.initiation p now fresh)

/-- A slot is reserved only for a peer that has no handshake in flight. -/
theorem allocateHandshakeSlot_spec [Crypto] (hI : w.tables.Inv) (p now : Nat) :
    wpx (allocateHandshakeSlot p now) (fun r w' => (w'.tables = w.tables ∧ ∀ s, r ≠ .ok (some s)) ∨
      ∃ s m, r = .ok (some s) ∧ s < cap.maxSessions ∧ w.tables.peer p = some m ∧
        m.sessions.handshake = none ∧ w'.tables = w.tables.clear s) w := by
  unfold allocateHandshakeSlot
  simp only [wpx_bind, wpx_getCore, then_ok]
  cases hp : w.core.peer p with
  | none => exact wpx_pure.mpr (Or.inl ⟨rfl, by simp⟩)
  | some e =>
    dsimp only
    split
    · exact wpx_pure.mpr (Or.inl ⟨rfl, by simp⟩)
    split
    · exact wpx_throw.mpr (Or.inl ⟨rfl, by simp⟩)
    rename_i hhs _
    refine wpx_seq (allocSlot_spec hI now) ?_ ?_
    · rintro e w1 (⟨h, -⟩ | ⟨_, h, -⟩)
      · cases h
      · cases h
    rintro o w1 (⟨h, rfl⟩ | ⟨s, h, hs, hw1⟩)
    · cases h
      exact wpx_throw.mpr (Or.inl ⟨rfl, by simp⟩)
    · cases h
      exact wpx_pure.mpr (Or.inr ⟨s, e.member, rfl, hs, tables_peer hp,
        Option.not_isSome_iff_eq_none.mp hhs, hw1⟩)

theorem commitHandshakeStart_spec {p s : Nat} {e : PeerEntry} (hp : w.core.peer p = some e)
    (hh : e.sessions.handshake = none) (ha : e.sessions.attemptDeadline = none) :
    wpx (commitHandshakeStart p s now) (fun r w' => r = .ok () ∧
      w'.tables = (w.tables.setPeer p { e.member with sessions := { e.sessions with
        handshake := some s
        attemptDeadline := some (saturatingAdd now rekeyAttemptTime) } }).arm
          (saturatingAdd now rekeyAttemptTime)) w := by
  unfold commitHandshakeStart
  dsimp only
  have hbegin : wpx (watch .beginHandshake
      (beginHandshake p s (saturatingAdd now rekeyAttemptTime))) (fun r w' => r = .ok () ∧
        w'.tables = w.tables.setPeer p { e.member with sessions := { e.sessions with
          handshake := some s
          attemptDeadline := some (saturatingAdd now rekeyAttemptTime) } }) w := by
    refine wpx_watch ?_
    unfold beginHandshake
    rw [wpx_tryCore]
    simp only [hp, PeerSessions.beginHandshake, hh, ha, Option.isSome_none, Bool.false_eq_true,
      if_false, Option.isNone_none, if_true]
    exact ⟨by simp, trivial, tables_setPeer (Core.lt_of_peer hp)⟩
  refine wpx_attempt_seq hbegin ?_
  rintro _ w1 ⟨rfl, h1⟩
  refine wpx_modifyCore.mpr ⟨rfl, ?_⟩
  rw [tables_arm]
  show w1.tables.arm _ = _
  rw [h1]

theorem usableSession_some {c : Core cap R P} {p s : Nat} (h : c.usableSession p now = some s) :
    ∃ e sess, c.peer p = some e ∧ e.sessions.current = some s ∧ c.session s = some sess ∧
      sess.canSend now = true := by
  simp only [Core.usableSession, Option.bind_eq_bind, Option.bind_eq_some_iff] at h
  obtain ⟨e, he, s', hs', sess, hsess, hif⟩ := h
  split at hif
  · cases hif
    exact ⟨e, sess, he, hs', hsess, by assumption⟩
  · cases hif

variable [RngCore R]

/-- A fresh slot gets an index that is not in use; a slot that has one keeps it. -/
theorem initiationIndex_spec (existing : Option UInt32) :
    wpx (initiationIndex existing : CoreE cap R P UInt32) (fun r w' => w'.tables = w.tables ∧
      ∀ i, r = .ok i → existing = some i ∨ (existing = none ∧ w.tables.slotFor i = none)) w := by
  cases existing with
  | some index => exact wpx_pure.mpr ⟨rfl, fun i hi => Or.inl (congrArg some (Except.ok.inj hi))⟩
  | none =>
    unfold initiationIndex
    simp only [wpx_bind, wpx_getCore, then_ok]
    refine wpx_mono (tryRng_spec _) ?_
    rintro r w' ⟨hw', hr⟩
    refine ⟨hw', ?_⟩
    rintro i rfl
    exact Or.inr ⟨trivial, SessionIndexMap.randomUnused_unused hr⟩

variable [Crypto]

theorem buildInitiation_spec (hI : w.tables.Inv) {p s : Nat} (hs : s < cap.maxSessions) :
    wpx (buildInitiation p s now) (fun r w' => (∃ e, r = .error e ∧ w'.tables = w.tables) ∨
      ∃ msg h fresh, r = .ok msg ∧ InitiationIn now p s w.tables w'.tables h fresh) w := by
  unfold buildInitiation
  simp only [wpx_bind, wpx_getCore, then_ok]
  cases hp : w.core.peer p with
  | none => exact wpx_throw.mpr (Or.inl ⟨_, rfl, rfl⟩)
  | some peer =>
    dsimp only
    split
    · exact wpx_throw.mpr (Or.inl ⟨_, rfl, rfl⟩)
    refine wpx_seq (timestamp_spec now) (fun e w1 h1 => Or.inl ⟨e, rfl, h1⟩) (fun ts w1 h1 => ?_)
    refine wpx_seq (liftExcept_spec _) ?_ ?_
    · rintro e _ ⟨rfl, -⟩
      exact Or.inl ⟨e, rfl, h1⟩
    rintro existing _ ⟨rfl, hex⟩
    refine wpx_seq (initiationIndex_spec existing) (fun e w2 h2 => Or.inl ⟨e, rfl, h2.1.trans h1⟩)
      ?_
    rintro i w2 ⟨h2, hi⟩
    refine wpx_seq (tryRng_spec _) (fun e w3 h3 => Or.inl ⟨e, rfl, h3.1.trans (h2.trans h1)⟩) ?_
    rintro ⟨noise, msg⟩ w3 ⟨h3, -⟩
    refine wpx_seq (liftExcept_spec _) ?_ ?_
    · rintro e _ ⟨rfl, -⟩
      exact Or.inl ⟨e, rfl, h3.trans (h2.trans h1)⟩
    rintro ⟨mac1, msg⟩ _ ⟨rfl, -⟩
    refine wpx_seq (wpx_withRng_spec _) (fun e w4 h4 => by cases h4.2) ?_
    rintro retryAt w4 ⟨h4, hretry⟩
    have ht : w4.tables = w.tables := h4.trans (h3.trans (h2.trans h1))
    have hlater : now < maxMillis → now < retryAt := by
      rw [Except.ok.inj hretry]
      exact lt_retry_deadline
    have hpace : saturatingAdd now rekeyTimeout ≤ retryAt := by
      rw [Except.ok.inj hretry]
      exact le_retry_deadline _ _
    cases existing with
    | some old =>
      simp only [Option.isNone_some, Bool.false_eq_true, if_false, wpx_bind, wpx_modifyCore,
        wpx_emit, then_ok, wpx_pure]
      obtain ⟨h', hs', rfl⟩ := existingIndex_some hex
      obtain rfl : h'.localIndex = i := by
        rcases hi i rfl with hi | hi
        · exact Option.some.inj hi
        · cases hi.1
      have hfor : w.tables.slotFor h'.localIndex = some s :=
        (hI.links.index _ s).mpr (by rw [tables_slot hs']; rfl)
      refine Or.inr ⟨msg, ⟨p, h'.localIndex, noise, retryAt⟩, false, rfl, rfl, hlater, hpace,
        Or.inr ⟨rfl, h', tables_slot hs', rfl⟩, ?_⟩
      rw [tables_note rfl, storeInitiation_tables hs, ht]
      show _ = (((w.tables.setSlot s _).setIndex h'.localIndex (some s)).arm retryAt).note _
      have hsame : (w.tables.setSlot s (.initiating ⟨p, h'.localIndex, noise, retryAt⟩)).setIndex
          h'.localIndex (some s) =
          w.tables.setSlot s (.initiating ⟨p, h'.localIndex, noise, retryAt⟩) := by
        simp only [Tables.setIndex, Tables.setSlot, ← hfor, Function.update_eq_self]
      rw [hsame]
    | none =>
      have hunused : w.tables.slotFor i = none := by
        rcases hi i rfl with hi | hi
        · cases hi
        · rw [← h1]
          exact hi.2
      simp only [Option.isNone_none, if_true]
      refine wpx_seq insertIndex_spec ?_ ?_
      · rintro e w5 (⟨_, _, h5⟩ | ⟨h5, -⟩)
        · exact Or.inl ⟨e, rfl, h5.trans ht⟩
        · cases h5
      rintro u w5 (⟨_, h5, _⟩ | ⟨-, h5⟩)
      · cases h5
      simp only [wpx_bind, wpx_modifyCore, wpx_emit, then_ok, wpx_pure]
      refine Or.inr ⟨msg, ⟨p, i, noise, retryAt⟩, true, rfl, rfl, hlater, hpace,
        Or.inl ⟨rfl, tables_slot (existingIndex_none hex), hunused⟩, ?_⟩
      rw [tables_note rfl, storeInitiation_tables hs, h5, ht]
      rfl

theorem stageInitiation_spec (hI : w.tables.Inv) (p now : Nat) :
    wpx (stageInitiation p now) (fun _ w' => Steps now .quiet w.tables w'.tables) w := by
  unfold stageInitiation
  refine wpx_seq (allocateHandshakeSlot_spec hI p now) ?_ ?_
  · rintro e w1 (⟨h1, -⟩ | ⟨_, _, h, -⟩)
    · rw [h1]
      exact Steps.refl _
    · cases h
  rintro o w1 (⟨h1, hne⟩ | ⟨s, m, h, hs, hm, hh, h1⟩)
  · cases o with
    | some s => exact absurd rfl (hne s)
    | none =>
      refine wpx_pure.mpr ?_
      rw [h1]
      exact Steps.refl _
  cases h
  have hstep1 : Steps now .quiet w.tables w1.tables := by
    rw [h1]
    exact (Step.clear s).steps
  have hI1 := hstep1.inv hI
  have hfree : w1.tables.slot s = .free := by rw [h1, clear_slot]
  dsimp only
  refine wpx_attempt_seq (buildInitiation_spec hI1 hs) ?_
  rintro _ w2 (⟨e, rfl, h2⟩ | ⟨msg, i, fresh, rfl, howner, hlater, hpace, hcase, h2⟩)
  · -- The slot was not used: freeing it changes nothing.
    refine wpx_seq (freeSlot_spec (h2 ▸ hI1) hs) ?_ ?_
    · rintro _ _ ⟨h, -⟩
      cases h
    rintro u w3 ⟨-, h3⟩
    rw [wpx_throw, h3, h2, clear_free hfree]
    exact hstep1
  · obtain ⟨rfl, -, hunused⟩ : fresh = true ∧ w1.tables.slot s = .free ∧
        w1.tables.slotFor i.localIndex = none := by
      rcases hcase with hcase | ⟨-, _, hi, -⟩
      · exact hcase
      · rw [hfree] at hi
        cases hi
    obtain ⟨m', hm', hh'⟩ := clear_handshake (s := s) hm hh
    rw [← h1] at hm'
    have ha' : m'.sessions.attemptDeadline = none := by
      have := (hI1.links.attempt p m' hm')
      simpa [hh'] using this
    have hpeer : w2.tables.peer p = some m' := by
      rw [h2]
      exact hm'
    obtain ⟨e, he, rfl⟩ := peer_of_tables hpeer
    refine wpx_seq (commitHandshakeStart_spec he hh' ha') ?_ ?_
    · rintro _ _ ⟨h, -⟩
      cases h
    rintro _ w3 ⟨-, h3⟩
    refine wpx_pure.mpr (hstep1.trans ?_)
    -- The deadlines are armed first, then the tables change together.
    have harm : Steps now .quiet w1.tables
        ((w1.tables.arm i.retryAt).arm (saturatingAdd now rekeyAttemptTime)) :=
      (Step.arm _).steps.trans (Step.arm _).steps
    refine harm.trans ?_
    rw [h3, h2]
    have hstep := Step.initiate (t := (w1.tables.arm i.retryAt).arm
        (saturatingAdd now rekeyAttemptTime)) hm' hh' hfree hunused howner
      (ahead_arm fun h _ => hlater h).arm hpace
      (ahead_arm fun h _ => lt_saturatingAdd_of_lt (by decide) h)
    simp only [arm_setSlot, arm_setIndex, arm_setPeer, arm_note] at hstep
    simp only [arm_setPeer, note_setPeer, arm_note]
    exact hstep.steps

theorem ensureDirectHandshake_spec (hI : w.tables.Inv) (p now : Nat) :
    wpx (ensureDirectHandshake p now) (fun _ w' => Steps now .quiet w.tables w'.tables) w := by
  unfold ensureDirectHandshake
  simp only [wpx_bind, wpx_getCore, then_ok]
  cases w.core.peer p with
  | none => exact wpx_pure.mpr (Steps.refl _)
  | some peer =>
    dsimp only
    split
    · exact wpx_throw.mpr (Steps.refl _)
    split
    · exact wpx_throw.mpr (Steps.refl _)
    refine wpx_seq (stageInitiation_spec hI p now) (fun _ _ h => h) ?_
    rintro (_ | msg) w1 h1
    · exact wpx_pure.mpr h1
    · rw [wpx_emit, tables_silent rfl]
      exact h1

omit [RngCore R] in
/-- Is there a path through the relay: a direct peer with a usable session? -/
def Core.relayReady (relayKey : Key) (now : Nat) (c : Core cap R P) : Bool :=
  (c.findPeer relayKey).any fun rp =>
    ((c.peer rp).any fun e => e.relay.isNone && e.endpoint.isSome) &&
      (c.usableSession rp now).isSome

/-- A path through a relay is a direct peer with a usable session; looking for it leaves no mark,
and changes nothing if there is one. -/
theorem relayPath_spec (hI : w.tables.Inv) (relayKey : Key) (now : Nat) :
    wpx (relayPath relayKey now) (fun r w' => Steps now .quiet w.tables w'.tables ∧
      (∀ rp rs endpoint, r = .ok (rp, rs, endpoint) → w' = w ∧
        w.core.usableSession rp now = some rs ∧ ∃ e, w.core.peer rp = some e ∧ e.relay = none) ∧
      ∀ err, r = .error err → w.core.relayReady relayKey now = false) w := by
  unfold relayPath
  simp only [wpx_bind, wpx_getCore, then_ok]
  cases hfind : w.core.findPeer relayKey with
  | none =>
    refine wpx_throw.mpr ⟨Steps.refl _, by rintro _ _ _ ⟨⟩, fun _ _ => ?_⟩
    simp [Core.relayReady, hfind]
  | some rp =>
    dsimp only
    cases hp : w.core.peer rp with
    | none =>
      refine wpx_throw.mpr ⟨Steps.refl _, by rintro _ _ _ ⟨⟩, fun _ _ => ?_⟩
      simp [Core.relayReady, hfind, hp]
    | some rpeer =>
      dsimp only
      by_cases hrelay : rpeer.relay.isSome
      · rw [if_pos hrelay]
        refine wpx_throw.mpr ⟨Steps.refl _, by rintro _ _ _ ⟨⟩, fun _ _ => ?_⟩
        simp [Core.relayReady, hfind, hp, Option.isSome_iff_ne_none.mp hrelay]
      rw [if_neg hrelay]
      cases hend : rpeer.endpoint with
      | none =>
        refine wpx_throw.mpr ⟨Steps.refl _, by rintro _ _ _ ⟨⟩, fun _ _ => ?_⟩
        simp [Core.relayReady, hfind, hp, hend]
      | some endpoint =>
        dsimp only
        cases hu : w.core.usableSession rp now with
        | some rs =>
          refine wpx_pure.mpr ⟨Steps.refl _, ?_, by rintro _ ⟨⟩⟩
          rintro _ _ _ ⟨⟩
          exact ⟨rfl, hu, rpeer, hp, Option.not_isSome_iff_eq_none.mp hrelay⟩
        | none =>
          refine wpx_attempt_seq (ensureDirectHandshake_spec hI rp now) fun _ w1 h1 => ?_
          refine wpx_throw.mpr ⟨h1, by rintro _ _ _ ⟨⟩, fun _ _ => ?_⟩
          simp [Core.relayReady, hfind, hu]

end Microtun
