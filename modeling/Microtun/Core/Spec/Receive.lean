import Microtun.Core.Spec.Outbound

/-! What handshake messages from the network do to the tables. -/

namespace Microtun

open Hoare Tables
open Function (update update_self update_of_ne)

variable {cap : Capacities} {R P : Type} [Crypto] [RngCore R] {w : World cap R P} {now : Nat}

/-! ### Programs that the tables do not notice -/

theorem checkMac2OrReply_spec (now : Nat) (src : SocketAddr) (data : List UInt8) (mac1 : Bytes 16) :
    wp (checkMac2OrReply now src data mac1) (fun _ w' => w'.tables = w.tables) w := by
  unfold checkMac2OrReply
  simp only [wp_bind, wp_modifyCore, wp_getCore]
  split
  · rw [wp_updateCore]
    rfl
  · split
    · exact wp_pure.mpr rfl
    · refine wp_seq (withRng_spec _) ?_
      rintro reply w1 ⟨h1, -⟩
      cases reply with
      | ok msg =>
        simp only [wp_bind, wp_emit, wp_pure]
        rw [tables_silent rfl]
        exact h1
      | error e => exact wp_pure.mpr h1

theorem admitHandshake_spec (now : Nat) (src : SocketAddr) (data : List UInt8) (mac1 : Bytes 16) :
    wp (admitHandshake now src data mac1) (fun _ w' => w'.tables = w.tables) w := by
  unfold admitHandshake
  simp only [wp_bind, wp_modifyCore, wp_getCore]
  have hnote : (w.withCore (w.core.noteHandshakeMsg now)).tables = w.tables := by
    unfold Core.noteHandshakeMsg
    dsimp only
    split <;> rfl
  split
  · refine wp_mono (checkMac2OrReply_spec now src data mac1) fun _ w1 h1 => ?_
    exact h1.trans hnote
  · exact wp_pure.mpr hnote

omit [Crypto] [RngCore R] in
theorem observeEndpoint_spec (p : Nat) (src : SocketAddr) (now : Nat) :
    wp (observeEndpoint p src now : CoreM cap R P Unit) (fun _ w' => w'.tables = w.tables) w := by
  unfold observeEndpoint
  simp only [wp_bind, wp_getCore]
  cases hp : w.core.peer p with
  | none => exact wp_pure.mpr rfl
  | some peer =>
    have hmember : ({ (peer.observeDirectEndpoint src now).2 with lastActivity := now } :
        PeerEntry).member = peer.member := by
      unfold PeerEntry.observeDirectEndpoint
      split <;> rfl
    have hset := @tables_setPeer_same _ _ _ _ w.log w.established _ _ _ hp hmember
    dsimp only
    simp only [wp_bind, wp_modifyCore]
    split
    · rw [wp_emit, tables_silent rfl]
      exact hset
    · exact wp_pure.mpr hset

omit [Crypto] [RngCore R] in
theorem equalizeUnknownIdentityCost_spec (now : Nat) :
    wp (equalizeUnknownIdentityCost now : CoreM cap R P Unit)
      (fun _ w' => w'.tables = w.tables) w := by
  unfold equalizeUnknownIdentityCost
  rw [wp_modifyCore]
  rfl

theorem responseMessage_spec (p : Nat) (consumed : Noise.ConsumedInitiation) (localIndex : UInt32)
    (now : Nat) : wpx (responseMessage p consumed localIndex now : CoreE cap R P _)
      (fun _ w' => w'.tables = w.tables) w := by
  unfold responseMessage
  refine wpx_seq (tryRng_spec _) (fun e w1 h1 => h1.1) ?_
  rintro ⟨keys, msg⟩ w1 ⟨h1, -⟩
  simp only [wpx_bind, wpx_getCore, then_ok]
  split
  · exact wpx_throw.mpr h1
  · refine wpx_seq (liftExcept_spec _) ?_ ?_
    · rintro e _ ⟨rfl, -⟩
      exact h1
    · rintro ⟨mac1, msg⟩ _ ⟨rfl, -⟩
      exact wpx_pure.mpr h1

/-! ### Answering an initiation -/

omit [RngCore R] in
/-- A peer gets an unconfirmed session, in the slot of the one it has or in a free one. -/
theorem steps_respond {t : Tables cap} (hl : t.Links) {p s : Nat} {m : Member}
    {sess : Session cap.replayWords} (hp : t.peer p = some m)
    (hcase : m.sessions.next = some s ∨ (m.sessions.next = none ∧ t.slot s = .free))
    (hi : t.slotFor sess.localIndex = none) (hsess : sess.Opened p now t.established .responder)
    {slotFor : UInt32 → Option Nat}
    (hslotFor : ∀ i, slotFor i = if i = sess.localIndex then some s
      else if (t.slot s).localIndex = some i then none else t.slotFor i) :
    Steps now .establish t ({ (t.setSlot s (.established sess)).setPeer p { m with
      sessions := { m.sessions with next := some s } } with
        slotFor
        established := t.established + 1 }.arm (saturatingAdd now rejectAfterTime)) := by
  generalize hd : saturatingAdd now rejectAfterTime = d
  -- The slot is freed first, if it is in use.
  have hclear : Steps now .establish t ((t.clear s).arm d) :=
    ((Step.clear s).steps.trans (Step.arm d).steps).widen (Scope.quiet_le _)
  obtain ⟨m', hm', hnext, hother⟩ : ∃ m', (t.clear s).peer p = some m' ∧ m'.sessions.next = none ∧
      { m' with sessions := { m'.sessions with next := some s } } =
        { m with sessions := { m.sessions with next := some s } } := by
    rcases hcase with hn | ⟨hn, hfree⟩
    · have howner : (t.slot s).owner = some p :=
        holder_owner.mpr ⟨.next, (hl.linked p m hp s .next).mp hn⟩
      refine ⟨m.unlink s, ?_, ?_, ?_⟩
      · show (if (t.slot s).owner = some p then _ else _) = _
        rw [if_pos howner, hp]
        rfl
      · show (m.sessions.unlink s).next = none
        rw [hl.unlink_next hp hn]
      · show { m with sessions := { m.sessions.unlink s with next := some s } } = _
        rw [hl.unlink_next hp hn]
    · exact ⟨m, by rw [clear_free hfree]; exact hp, hn, rfl⟩
  have hunused : (t.clear s).slotFor sess.localIndex = none := by
    rw [clear_slotFor]
    split
    · rfl
    · exact hi
  have hahead : ((t.clear s).arm d).Ahead now (saturatingAdd now rejectAfterTime) := by
    rw [hd]
    exact ahead_arm fun hn _ => hd ▸ lt_saturatingAdd_of_lt (by decide) hn
  have hrespond := (Step.respond (t := (t.clear s).arm d) hm' hnext (clear_slot t s) hunused hsess
    hahead).steps
  refine hclear.trans ?_
  convert hrespond using 1
  have hslots : update (t.clear s).slot s (.established sess) =
      update t.slot s (.established sess) := Function.update_idem ..
  have hindex : update (t.clear s).slotFor sess.localIndex (some s) = slotFor := by
    funext i
    rw [hslotFor i]
    by_cases hsi : i = sess.localIndex
    · rw [if_pos hsi, hsi, update_self]
    · rw [if_neg hsi, update_of_ne hsi]
      exact clear_slotFor t s i
  have hpeers : update (t.clear s).peer p (some { m' with sessions := { m'.sessions with
      next := some s } }) = update t.peer p (some { m with sessions := { m.sessions with
        next := some s } }) := by
    rw [hother]
    funext q
    by_cases hq : q = p
    · rw [hq, update_self, update_self]
    · rw [update_of_ne hq, update_of_ne hq]
      refine clear_peer_of_ne ?_
      rcases hcase with hn | ⟨-, hfree⟩
      · have howner : (t.slot s).owner = some p :=
          holder_owner.mpr ⟨.next, (hl.linked p m hp s .next).mp hn⟩
        rw [howner]
        simp [Ne.symm hq]
      · rw [hfree]
        simp [Slot.owner]
  simp only [Tables.setSlot, setIndex, Tables.setPeer, Tables.arm, ← hslots, ← hindex, ← hpeers]
  rfl

omit [RngCore R] in
/-- A slot gets a wire index that is not in use, in the place of the one it has. -/
theorem claimIndex_spec (hI : w.tables.Inv) {s : Nat} (hs : s < cap.maxSessions) {index : UInt32}
    (hi : w.tables.slotFor index = none) :
    wpx (claimIndex s index) (fun r w' => (∃ e, r = .error e ∧ w'.tables = w.tables) ∨
      ∃ slotFor, r = .ok () ∧ w'.tables = { w.tables with slotFor } ∧
        ∀ i, slotFor i = if i = index then some s
          else if (w.tables.slot s).localIndex = some i then none else w.tables.slotFor i) w := by
  obtain ⟨x, hx⟩ := Core.slot_of_lt (c := w.core) hs
  have hxt := tables_slot hx
  unfold claimIndex
  rw [wpx_tryCore, hx, hxt]
  dsimp only
  cases hidx : x.localIndex with
  | some old =>
    have hold : w.core.sessionIndices.slotFor old = some s :=
      (hI.links.index old s).mpr (by rw [hxt, hidx])
    obtain ⟨m', hrep, hfor⟩ := SessionIndexMap.replace_unused hs hold hi
    dsimp only
    rw [hrep]
    refine Or.inr ⟨m'.slotFor, rfl, rfl, fun i => ?_⟩
    rw [hfor i]
    by_cases hii : i = index
    · rw [if_pos hii, if_pos hii]
    · rw [if_neg hii, if_neg hii]
      by_cases hio : i = old
      · rw [if_pos hio, if_pos (congrArg some hio.symm)]
      · rw [if_neg hio, if_neg (by simpa using Ne.symm hio)]
        rfl
  | none =>
    dsimp only
    cases hins : w.core.sessionIndices.insert index s with
    | mk r m' =>
      cases r with
      | error e =>
        refine Or.inl ⟨e, rfl, ?_⟩
        rw [SessionIndexMap.insert_error hins]
      | ok u =>
        refine Or.inr ⟨m'.slotFor, rfl, rfl, fun i => ?_⟩
        rw [(SessionIndexMap.insert_ok hins).2.2 i,
          if_neg (by simp : ¬(none : Option UInt32) = some i)]
        rfl

omit [RngCore R] in
/-- The unconfirmed session of a responder is installed as a whole, or not at all. -/
theorem installResponder_spec (hI : w.tables.Inv) {p s : Nat} {e : PeerEntry}
    {sess : Session cap.replayWords} {mac1 : Bytes 16} (he : w.core.peer p = some e)
    (hs : s < cap.maxSessions)
    (hcase : e.sessions.next = some s ∨ (e.sessions.next = none ∧ w.tables.slot s = .free))
    (hi : w.tables.slotFor sess.localIndex = none)
    (hsess : ∀ serial, Session.Opened { sess with serial } p now serial .responder) :
    wpx (installResponder p s sess mac1 now) (fun _ w' =>
      Steps now .establish w.tables w'.tables) w := by
  unfold installResponder
  simp only [wpx_bind, wpx_getCore, then_ok, he]
  refine wpx_mono (liftExcept_spec _) ?_
  rintro (e' | u) _ ⟨rfl, -⟩
  · exact Steps.refl _
  rw [then_ok, wpx_bind]
  refine wpx_mono (claimIndex_spec hI hs hi) ?_
  rintro _ w1 (⟨e', rfl, h1⟩ | ⟨slotFor, rfl, h1, hfor⟩)
  · exact Steps.of_eq h1
  simp only [then_ok, wpx_bind, wpx_newSerial, wpx_modifyCore]
  have hpeer : w1.tables.peer p = some e.member := by
    rw [h1]
    exact tables_peer he
  obtain ⟨e₁, he₁, hmem⟩ := peer_of_tables hpeer
  have hsessions : e₁.sessions = e.sessions := congrArg Member.sessions hmem
  have htables : World.tables ⟨((w1.core.setSlot s (.established { sess with
      serial := w1.established })).arm (saturatingAdd now rejectAfterTime)).modifyPeer p fun q =>
        { q with
          lastMac1 := some mac1
          sessions := q.sessions.commitResponderInstall s
          latestHandshake := some now }, w1.log, w1.established + 1⟩ =
      { (w.tables.setSlot s (.established { sess with
          serial := w.tables.established })).setPeer p { e.member with
            sessions := { e.member.sessions with next := some s } } with
        slotFor
        established := w.tables.established + 1 }.arm (saturatingAdd now rejectAfterTime) := by
    have he₂ : ((w1.core.setSlot s (.established { sess with
        serial := w1.established })).arm (saturatingAdd now rejectAfterTime)).peer p = some e₁ :=
          he₁
    have hest : w1.established = w.tables.established := congrArg Tables.established h1
    simp only [Core.modifyPeer, he₂]
    rw [tables_setPeer (Core.lt_of_peer he₁), tables_arm, tables_setSlot hs]
    have hw1 : World.tables ⟨w1.core, w1.log, w1.established + 1⟩ =
        { w.tables with slotFor, established := w.tables.established + 1 } := by
      have : World.tables ⟨w1.core, w1.log, w1.established + 1⟩ =
          { w1.tables with established := w1.established + 1 } := rfl
      rw [this, h1, hest]
    have hmember : (PeerEntry.member { e₁ with
        lastMac1 := some mac1
        sessions := e₁.sessions.commitResponderInstall s
        latestHandshake := some now }) =
        { e.member with sessions := { e.member.sessions with next := some s } } := by
      rw [← hmem]
      rfl
    rw [hw1, hmember, hest]
    rfl
  rw [htables]
  exact steps_respond hI.links (tables_peer he) hcase (by exact hi) (hsess w.tables.established)
    (by exact hfor)

/-- The slot and the index of a responder session are good for it. -/
theorem responderSlot_spec (hI : w.tables.Inv) {p : Nat} {e : PeerEntry}
    (he : w.core.peer p = some e) (now : Nat) :
    wpx (responderSlot e.sessions.next now : CoreE cap R P _) (fun r w' =>
      Steps now .quiet w.tables w'.tables ∧ ∀ s index, r = .ok (some (s, index)) →
        s < cap.maxSessions ∧ w'.tables.slotFor index = none ∧ ∃ e', w'.core.peer p = some e' ∧
          ((e'.sessions.next = some s ∧ e.sessions.next = some s) ∨
            (e'.sessions.next = none ∧ e.sessions.next = none ∧ w'.tables.slot s = .free))) w := by
  unfold responderSlot
  cases hnext : e.sessions.next with
  | some s =>
    simp only [wpx_bind, wpx_getCore, then_ok]
    refine wpx_mono (tryRng_spec _) ?_
    rintro (err | index) w1 ⟨h1, hr⟩
    · exact ⟨Steps.of_eq h1, by rintro _ _ ⟨⟩⟩
    · refine wpx_pure.mpr ⟨Steps.of_eq h1, ?_⟩
      rintro _ _ ⟨⟩
      have hheld := (hI.links.linked p e.member (tables_peer he) s .next).mp hnext
      have hne : w.tables.slot s ≠ .free := by
        intro hfree
        simp [hfree, Slot.holder] at hheld
      refine ⟨Core.lt_of_slot (slot_of_tables rfl hne), ?_, ?_⟩
      · rw [h1]
        exact SessionIndexMap.randomUnused_unused hr
      · have hpeer : w1.tables.peer p = some e.member := by rw [h1]; exact tables_peer he
        obtain ⟨e', he', hmem⟩ := peer_of_tables hpeer
        refine ⟨e', he', Or.inl ⟨?_, rfl⟩⟩
        rw [show e'.sessions = e.sessions from congrArg Member.sessions hmem, hnext]
  | none =>
    refine wpx_seq (allocSlot_spec hI now) ?_ ?_
    · rintro err w1 (⟨h, -⟩ | ⟨_, h, -⟩)
      · cases h
      · cases h
    rintro o w1 (⟨h, rfl⟩ | ⟨s, h, hs, h1⟩)
    · cases h
      exact wpx_pure.mpr ⟨Steps.refl _, by rintro _ _ ⟨⟩⟩
    cases h
    have hstep : Steps now .quiet w.tables w1.tables := by
      rw [h1]
      exact (Step.clear s).steps
    have hfree : w1.tables.slot s = .free := by rw [h1, clear_slot]
    simp only [wpx_bind, wpx_getCore, then_ok, wpx_attempt]
    refine wpx_mono (tryRng_spec _) ?_
    rintro (err | index) w2 ⟨h2, hr⟩
    · -- The slot was not used: freeing it changes nothing.
      refine wpx_seq (freeSlot_spec (h2 ▸ hstep.inv hI) hs) ?_ ?_
      · rintro _ _ ⟨h, -⟩
        cases h
      rintro u w3 ⟨-, h3⟩
      refine wpx_throw.mpr ⟨?_, by rintro _ _ ⟨⟩⟩
      rw [h3, h2, clear_free hfree]
      exact hstep
    · refine wpx_pure.mpr ⟨h2 ▸ hstep, ?_⟩
      rintro _ _ ⟨⟩
      obtain ⟨m, hm, hmnext⟩ := clear_next (s := s) (tables_peer he) hnext
      rw [← h1, ← h2] at hm
      obtain ⟨e', he', rfl⟩ := peer_of_tables hm
      refine ⟨hs, ?_, e', he', Or.inr ⟨hmnext, trivial, ?_⟩⟩
      · rw [h2]
        exact SessionIndexMap.randomUnused_unused hr
      · rw [h2]
        exact hfree

theorem respondToInitiation_spec (hI : w.tables.Inv) (p : Nat) (consumed : Noise.ConsumedInitiation)
    (src : SocketAddr) (now : Nat) : wpx (respondToInitiation p consumed src now)
      (fun _ w' => Steps now .establish w.tables w'.tables) w := by
  unfold respondToInitiation
  simp only [wpx_bind, wpx_getCore, then_ok]
  cases he : w.core.peer p with
  | none => exact wpx_throw.mpr (Steps.refl _)
  | some e =>
    refine wpx_seq (responderSlot_spec hI he now) (fun _ _ h => h.1.widen (Scope.quiet_le _)) ?_
    rintro o w1 ⟨h1, hslot⟩
    have h1' : Steps now .establish w.tables w1.tables := h1.widen (Scope.quiet_le _)
    have hI1 := h1.inv hI
    cases o with
    | none => exact wpx_pure.mpr h1'
    | some x =>
      obtain ⟨s, index⟩ := x
      obtain ⟨hs, hunused, e₁, he₁, hcase⟩ := hslot s index rfl
      dsimp only
      refine wpx_attempt_seq (responseMessage_spec p consumed index now) ?_
      rintro (err | ⟨keys, mac1, msg⟩) w2 h2
      · dsimp only
        by_cases hnone : e.sessions.next.isNone
        · rw [if_pos hnone]
          refine wpx_seq (freeSlot_spec (h2 ▸ hI1) hs) ?_ ?_
          · rintro _ _ ⟨h, -⟩
            cases h
          rintro u w3 ⟨-, h3⟩
          refine wpx_throw.mpr ?_
          rw [h3, h2]
          exact h1'.then_quiet (Step.clear s).steps
        · rw [if_neg hnone]
          refine wpx_throw.mpr ?_
          rw [h2]
          exact h1'
      · dsimp only
        refine wpx_seq (wpx_withRng_spec _) (fun _ _ h => by cases h.2) ?_
        rintro rekeyAfter w3 ⟨h3, -⟩
        have h3' : w3.tables = w1.tables := h3.trans h2
        have hpeer : w3.tables.peer p = some e₁.member := by rw [h3']; exact tables_peer he₁
        obtain ⟨e₃, he₃, hmem⟩ := peer_of_tables hpeer
        have hsessions : e₃.sessions = e₁.sessions := congrArg Member.sessions hmem
        have hcase₃ : e₃.sessions.next = some s ∨
            (e₃.sessions.next = none ∧ w3.tables.slot s = .free) := by
          rw [hsessions, h3']
          rcases hcase with ⟨hn, -⟩ | ⟨hn, -, hfree⟩
          · exact Or.inl hn
          · exact Or.inr ⟨hn, hfree⟩
        refine wpx_seq (installResponder_spec (h3' ▸ hI1) he₃ hs hcase₃
          (by rw [h3']; exact hunused) fun serial => ⟨rfl, rfl, rfl, rfl, rfl, rfl, rfl⟩) ?_ ?_
        · intro _ w4 h4
          rw [h3'] at h4
          exact h1'.trans h4
        rintro _ w4 h4
        rw [h3'] at h4
        have hsteps := h1'.trans h4
        refine wpx_lift_seq (observeEndpoint_spec p src now) ?_
        rintro _ w5 h5
        refine wpx_attempt_seq (transmitWire_spec (h5 ▸ hsteps.inv hI) p (some src) msg now) ?_
        rintro _ w6 h6
        rw [h5] at h6
        exact wpx_pure.mpr (hsteps.trans (h6.widen (by decide)))

theorem acceptAuthenticatedInitiation_spec (hI : w.tables.Inv) (p : Nat)
    (consumed : Noise.ConsumedInitiation) (src : SocketAddr) (now : Nat) :
    wpx (acceptAuthenticatedInitiation p consumed src now)
      (fun _ w' => Steps now .establish w.tables w'.tables) w := by
  unfold acceptAuthenticatedInitiation
  simp only [wpx_bind, wpx_getCore, then_ok]
  cases he : w.core.peer p with
  | none => exact wpx_pure.mpr (Steps.refl _)
  | some e =>
    dsimp only
    split
    · exact wpx_pure.mpr (Steps.refl _)
    rename_i hlater
    split
    · exact wpx_pure.mpr (Steps.refl _)
    rename_i hgap
    simp only [wpx_bind, wpx_modifyCore, wpx_emit, then_ok]
    have hpass : Step now .quiet w.tables (World.tables ⟨w.core.setPeer p (some { e with
        greatestTs := consumed.timestamp
        lastInitiationConsumption := some now }), .admitted p consumed.timestamp now :: w.log,
        w.established⟩) := by
      rw [tables_note rfl, tables_setPeer (Core.lt_of_peer he)]
      refine Step.pass (tables_peer he) (List.not_le.mp hlater) fun last hlast => ?_
      have hlast : e.lastInitiationConsumption = some last := hlast
      simpa [hlast] using hgap
    refine wpx_mono (respondToInitiation_spec (hI.step hpass) p consumed src now) fun _ w1 h1 => ?_
    exact (hpass.steps.widen (Scope.quiet_le _)).trans h1

theorem rxKnownInitiation_spec (hI : w.tables.Inv) (p : Nat)
    (identified : Noise.IdentifiedInitiation) (src : SocketAddr) (now : Nat) :
    wpx (rxKnownInitiation p identified src now)
      (fun _ w' => Steps now .establish w.tables w'.tables) w := by
  unfold rxKnownInitiation
  simp only [wpx_bind, wpx_getCore, then_ok]
  cases w.core.peer p with
  | none => exact wpx_pure.mpr (Steps.refl _)
  | some e =>
    dsimp only
    split
    · rw [wpx_liftM]
      exact wp_mono (equalizeUnknownIdentityCost_spec now) fun _ w1 h1 => Steps.of_eq h1
    · rename_i consumed _
      simp only [wpx_bind, wpx_emit, then_ok]
      have hsilent : World.tables ⟨w.core, .authenticated consumed true :: w.log, w.established⟩ =
          w.tables := tables_silent rfl
      refine wpx_mono (acceptAuthenticatedInitiation_spec (hsilent ▸ hI) p consumed src now)
        fun _ w1 h1 => ?_
      rw [hsilent] at h1
      exact h1

/-! ### Unknown initiators -/

omit [RngCore R] in
theorem authenticate_sPubI {sPriv : Key} {identified : Noise.IdentifiedInitiation}
    {consumed : Noise.ConsumedInitiation}
    (h : Noise.authenticateIdentifiedInitiation sPriv identified = .ok consumed) :
    consumed.sPubI = identified.sPubI := by
  unfold Noise.authenticateIdentifiedInitiation at h
  cases hdh : dh sPriv identified.sPubI with
  | error e => rw [hdh] at h; cases h
  | ok shared =>
    rw [hdh] at h
    simp only [bind, Except.bind, Noise.authenticateIdentifiedWithSharedSecret] at h
    split at h
    · cases h
    split at h
    · cases h
    cases h
    rfl

omit [Crypto] [RngCore R] in
theorem authenticatedInitiatorResolveId_queued {key : Key} {id : Nat}
    (h : w.core.authenticatedInitiatorResolveId key now = some id) :
    Queued w.core id (.install .authenticatedInitiator) (.byPublicKey key) := by
  obtain ⟨r, hr, hid⟩ := Option.map_eq_some_iff.mp h
  have hp := List.find?_some hr
  obtain ⟨hquery, -, hkind⟩ : r.query = .byPublicKey key ∧ now < r.deadline ∧
    r.kind = .install .authenticatedInitiator := by simpa using hp
  exact ⟨r, List.mem_of_find?_eq_some hr, hid, hkind, hquery⟩

omit [RngCore R] in
theorem holdInitiation_steps {id : Nat} (src : SocketAddr) {consumed : Noise.ConsumedInitiation}
    (h : Queued w.core id (.install .authenticatedInitiator) (.byPublicKey consumed.sPubI)) :
    Steps now (.atDesk .quiet) w.tables (World.tables ⟨w.core.parkPendingInitiation id src consumed,
      .authenticated consumed false :: w.log, w.established⟩) := by
  obtain ⟨r, hr, hid, hkind, hquery⟩ := h
  obtain ⟨initiations, htables, hpark, -⟩ := parkPendingInitiation_spec (w := w) id src consumed
  rw [tables_enter rfl, htables]
  exact (Step.hold hr hid hkind hquery hpark).steps

omit [RngCore R] in
theorem identify_steps {consumed : Noise.ConsumedInitiation}
    (h : w.core.resolveSuppressed (.byPublicKey consumed.sPubI) now = false) :
    Steps now (.atDesk .quiet) w.tables
      (World.tables ⟨w.core, .authenticated consumed false :: w.log, w.established⟩) := by
  rw [tables_enter rfl]
  exact (Step.identify fun r hr hq => (unasked_of_not_suppressed h r hr hq).1).steps

omit [RngCore R] in
/-- The peer of an initiation is looked up, and the initiation waits for the answer if it can. -/
theorem seekInitiation_steps {key : Key} {id : Nat} {r : InflightResolve} {c : Core cap R P}
    {t : Tables cap} (hreq : Requested now key .authenticatedInitiator t (w.withCore c).tables id r)
    (src : SocketAddr) {consumed : Noise.ConsumedInitiation} (hkey : consumed.sPubI = key) :
    Steps now (.atDesk .quiet) t (World.tables ⟨c.parkPendingInitiation id src consumed,
      .sought id consumed (c.hasRoom id) :: w.log, w.established⟩) := by
  obtain ⟨initiations, htables, hpark, hroom⟩ :=
    parkPendingInitiation_spec (w := w.withCore c) id src consumed
  have hpool : (w.withCore c).tables.initiations = t.initiations := by
    rw [hreq.queued]
    rfl
  rw [hpool] at hpark
  obtain rfl := hreq.id
  rw [tables_enter rfl, htables, hreq.queued]
  exact (Step.seek hreq.kind hreq.emitted (hreq.query.trans (congrArg _ hkey.symm)) hreq.asked.id
    hreq.asked.query hreq.asked.room hreq.asked.ahead rfl hpark hroom).steps

omit [RngCore R] in
theorem rxUnknownInitiation_spec (hI : w.tables.Inv) (identified : Noise.IdentifiedInitiation)
    (src : SocketAddr) (now : Nat) :
    wp (rxUnknownInitiation identified src now : CoreM cap R P Unit)
      (fun _ w' => Steps now (.atDesk .quiet) w.tables w'.tables) w := by
  unfold rxUnknownInitiation
  simp only [wp_bind, wp_getCore]
  split
  · exact wp_mono (equalizeUnknownIdentityCost_spec now) fun _ w1 h1 => Steps.of_eq h1
  rename_i hunasked
  rw [wp_bind, wp_updateCore]
  split
  · exact wp_pure.mpr (Steps.refl _)
  split
  · exact wp_pure.mpr (Steps.refl _)
  rename_i consumed hauth
  have hkey := authenticate_sPubI hauth
  -- The budget for authentications is not in the tables.
  generalize hw : w.withCore { w.core with
    unknownAuthentications := (w.core.unknownAuthentications.tryTake now).2 } = w0
  have hI0 : w0.tables.Inv := by rw [← hw]; exact hI
  have htables : w0.tables = w.tables := by rw [← hw]; rfl
  rw [← htables]
  rw [wp_bind, wp_emit]
  split
  · rename_i id hid
    have hqueued := authenticatedInitiatorResolveId_queued hid
    rw [← hkey] at hqueued
    rw [wp_modifyCore]
    have hqueued0 : Queued w0.core id (.install .authenticatedInitiator)
        (.byPublicKey consumed.sPubI) := by rw [← hw]; exact hqueued
    subst hw
    exact holdInitiation_steps src hqueued0
  · rename_i hnone
    have hsuppressed : w0.core.resolveSuppressed (.byPublicKey consumed.sPubI) now = false := by
      rw [hkey, ← hw]
      exact Bool.eq_false_iff.mpr fun h => hunasked ⟨by rw [hnone]; rfl, h⟩
    have hseen : Steps now (.atDesk .quiet) w0.tables (World.tables
        ⟨w0.core, .authenticated consumed false :: w0.log, w0.established⟩) :=
      identify_steps hsuppressed
    rw [wp_bind, wp_updateCore]
    have hrequest := requestPeerInstall_spec
      (w := ⟨w0.core, .authenticated consumed false :: w0.log, w0.established⟩) (hseen.inv hI0)
      consumed.sPubI now
    subst hw
    rcases hrequest with ⟨hrefused, hsame⟩ | ⟨id, r, t, hqueued, hsteps, hreq⟩
    · rw [show (Core.requestPeerInstall consumed.sPubI now _).1 = none from hrefused]
      refine wp_pure.mpr (hseen.trans (Steps.of_eq hsame))
    · rw [show (Core.requestPeerInstall consumed.sPubI now _).1 = some id from hqueued]
      simp only [wp_bind, wp_getCore, wp_emit, wp_modifyCore]
      exact hseen.trans (hsteps.trans (seekInitiation_steps hreq src rfl))

theorem rxInitiation_spec (hI : w.tables.Inv) (now : Nat) (src : SocketAddr) (data : List UInt8) :
    wpx (rxInitiation now src data)
      (fun _ w' => Steps now (.atDesk .establish) w.tables w'.tables) w := by
  unfold rxInitiation
  simp only [wpx_bind, wpx_getCore, then_ok]
  split
  · exact wpx_pure.mpr (Steps.refl _)
  refine wpx_lift_seq (admitHandshake_spec now src data _) fun admitted w1 h1 => ?_
  split
  · exact wpx_pure.mpr (Steps.of_eq h1)
  split
  · exact wpx_pure.mpr (Steps.of_eq h1)
  simp only [wpx_bind, wpx_getCore, then_ok]
  split
  · refine wpx_mono (rxKnownInitiation_spec (h1 ▸ hI) _ _ src now) fun _ w2 h2 => ?_
    rw [h1] at h2
    exact h2.widen (by decide)
  · rw [wpx_liftM]
    refine wp_mono (rxUnknownInitiation_spec (h1 ▸ hI) _ src now) fun _ w2 h2 => ?_
    rw [h1] at h2
    exact h2.widen (by decide)

end Microtun
