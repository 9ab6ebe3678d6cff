import Microtun.Core.Spec.Handshake

/-! What sealing and sending do to the tables. -/

namespace Microtun

open Hoare Tables
open Function (update update_self update_of_ne)

variable {cap : Capacities} {R P : Type} [Crypto] [RngCore R] {w : World cap R P} {now : Nat}

/-! ### Sealing -/

theorem sealedDatagram_ok {sess : Session cap.replayWords} {messageType : UInt8}
    {payload datagram : List UInt8} (h : sealedDatagram sess messageType payload = .ok datagram) :
    (messageType = Messages.msgData ∨ messageType = Messages.msgRelay) ∧
      ∃ ciphertext, datagram = [messageType, 0, 0, 0] ++ toLeBytes 4 sess.remoteIndex.toNat ++
        toLeBytes 8 sess.nSend ++ ciphertext := by
  unfold sealedDatagram at h
  cases had : transportAd messageType with
  | error e => rw [had] at h; cases h
  | ok ad =>
    rw [had] at h
    have htype : messageType = Messages.msgData ∨ messageType = Messages.msgRelay := by
      unfold transportAd at had
      split at had
      · exact Or.inl ‹_›
      split at had
      · exact Or.inr ‹_›
      · cases had
    refine ⟨htype, ?_⟩
    dsimp only [bind, Except.bind] at h
    split at h
    · cases h
    · rename_i ciphertext _
      exact ⟨ciphertext, (Except.ok.inj h).symm⟩

theorem sealedDatagram_counter {sess : Session cap.replayWords} {messageType : UInt8}
    {payload datagram : List UInt8} (h : sealedDatagram sess messageType payload = .ok datagram)
    (hn : sess.nSend < 2 ^ 64) : datagram.head? = some messageType ∧
      (slice datagram Messages.Data.counter).bind readU64Le = some sess.nSend := by
  obtain ⟨-, ciphertext, rfl⟩ := sealedDatagram_ok h
  refine ⟨rfl, ?_⟩
  have hindex := length_toLeBytes 4 sess.remoteIndex.toNat
  have hcounter := length_toLeBytes 8 sess.nSend
  have hdrop : (([messageType, 0, 0, 0] ++ toLeBytes 4 sess.remoteIndex.toNat ++
      toLeBytes 8 sess.nSend ++ ciphertext).drop 8).take 8 = toLeBytes 8 sess.nSend := by
    rw [List.append_assoc, List.drop_left' (by simp)]
    rw [List.take_left' hcounter]
  have hslice : slice ([messageType, 0, 0, 0] ++ toLeBytes 4 sess.remoteIndex.toNat ++
      toLeBytes 8 sess.nSend ++ ciphertext) Messages.Data.counter =
        some (toLeBytes 8 sess.nSend) := by
    refine (if_pos ⟨by decide, ?_⟩).trans (congrArg some hdrop)
    show 16 ≤ _
    simp only [List.length_append, hindex, hcounter, List.length_cons, List.length_nil]
    omega
  rw [hslice, Option.bind_some, readU64Le_toLeBytes hn]

/-- Sealing a payload that fits succeeds, and its length is what was announced. -/
theorem sealedDatagram_fits (hlaw : Crypto.SealsDatagrams) (sess : Session cap.replayWords)
    {messageType : UInt8} (htype : messageType = Messages.msgData ∨ messageType = Messages.msgRelay)
    {payload : List UInt8}
    (hlen : Messages.dataHeaderLen + padded payload.length + tagLen ≤ maxUdpSize) :
    ∃ datagram, sealedDatagram sess messageType payload = .ok datagram ∧
      datagram.length = Messages.dataHeaderLen + padded payload.length + tagLen := by
  have hpad := le_padded payload.length
  have had : ∃ ad, transportAd messageType = .ok ad ∧ ad.length ≤ maxUdpSize := by
    rcases htype with rfl | rfl
    · exact ⟨[], rfl, by decide⟩
    · exact ⟨Messages.relayAeadAd, rfl, by decide⟩
  obtain ⟨ad, had, hadlen⟩ := had
  have hbuf : (payload ++ List.replicate (padded payload.length - payload.length + tagLen)
      (0 : UInt8)).length = padded payload.length + tagLen := by
    rw [List.length_append, List.length_replicate]
    omega
  obtain ⟨ciphertext, hseal, hclen⟩ := aeadSeal_fits hlaw sess.tSend sess.nSend hbuf hadlen
    (by omega)
  refine ⟨[messageType, 0, 0, 0] ++ toLeBytes 4 sess.remoteIndex.toNat ++ toLeBytes 8 sess.nSend ++
    ciphertext, ?_, ?_⟩
  · simp only [sealedDatagram, had, hseal, bind, Except.bind, pure, Except.pure]
  · simp only [List.length_append, hclen, length_toLeBytes, List.length_cons, List.length_nil,
      Messages.dataHeaderLen]
    omega

/-- The member after a message was sealed. -/
def sealedMember (now : Nat) (armed : Option Nat) (m : Member) : Member :=
  { m with sessions := { m.sessions with
    keepaliveDue := none
    persistentKeepaliveDue := m.interval.map (saturatingAdd now)
    replyDue := armed.or m.sessions.replyDue } }

theorem steps_seal {t : Tables cap} {p s : Nat} {m : Member} {sess : Session cap.replayWords}
    {record : Seal} {armed : Option Nat} {rekeyTriggered : Bool}
    (hs : t.slot s = .established sess) (hp : t.peer p = some m) (hsend : sess.canSend now = true)
    (hserial : record.serial = sess.serial) (hcounter : record.counter = sess.nSend)
    (hconf : record.confirmed = sess.confirmed)
    (hage : record.age = saturatingSince now sess.created) (hseal : record.CarriesCounter)
    (harmed : ∀ x, armed = some x → now < maxMillis → now < x)
    (hpersistent : ∀ x, m.interval.map (saturatingAdd now) = some x → now < maxMillis → now < x) :
    Steps now .traffic t (((((t.setSlot s (.established { sess with
      nSend := sess.nSend + 1, rekeyTriggered })).setPeer p (sealedMember now armed m)).armSome
        armed).armSome (m.interval.map (saturatingAdd now))).mark (.sealed record)) := by
  generalize hpk : m.interval.map (saturatingAdd now) = pk at *
  have harm : Steps now .traffic t ((t.armSome armed).armSome pk) :=
    ((steps_armSome t armed).trans (steps_armSome _ pk)).widen (by decide)
  have hs' : ((t.armSome armed).armSome pk).slot s = .established sess := by
    cases armed <;> cases pk <;> exact hs
  have hp' : ((t.armSome armed).armSome pk).peer p = some m := by
    cases armed <;> cases pk <;> exact hp
  have hnote : Steps now .traffic _ _ :=
    (Step.noteRekey hs' rekeyTriggered).steps.widen (Scope.quiet_le _)
  generalize hu : (t.armSome armed).armSome pk = u at *
  have hseal : Steps now .traffic _ _ := (Step.sealed (t := u.setSlot s (.established { sess with
    rekeyTriggered })) (s := s) (update_self ..) hsend hserial hcounter hconf hage
      hseal).steps
  refine harm.trans (hnote.trans (hseal.trans ?_))
  have hk : u.Reset now m.sessions.keepaliveDue none := Or.inr (by rintro d ⟨⟩)
  have hpk' : u.Reset now m.sessions.persistentKeepaliveDue pk := by
    rw [← hu]
    exact reset_armSome fun x hx hn _ => hpersistent x hx hn
  have hr : u.Reset now m.sessions.replyDue (armed.or m.sessions.replyDue) := by
    rw [← hu]
    cases armed with
    | none => exact Or.inl rfl
    | some x => exact (reset_armSome fun y hy hn _ => harmed y hy hn).armSome
  have hkeep : pk.isSome = m.interval.isSome := by rw [← hpk, Option.isSome_map]
  have htimers : Steps now .traffic _ _ := (Step.timers (p := p) (m := m)
    (t := ((u.setSlot s (.established { sess with rekeyTriggered })).setSlot s (.established
      { sess with nSend := sess.nSend + 1, rekeyTriggered })).mark (.sealed record))
    hp' hk hpk' hr (Or.inr hkeep)).steps.widen (Scope.quiet_le _)
  convert htimers using 1
  have hcomm : ((((t.setSlot s (.established { sess with
      nSend := sess.nSend + 1, rekeyTriggered })).setPeer p (sealedMember now armed m)).armSome
        armed).armSome pk).mark (.sealed record) =
      ((u.setSlot s (.established { sess with nSend := sess.nSend + 1, rekeyTriggered })).mark
        (.sealed record)).setPeer p (sealedMember now armed m) := by
    rw [← hu]
    cases armed <;> cases pk <;> rfl
  rw [hcomm]
  simp only [Tables.setSlot, Function.update_idem, sealedMember, hpk]

omit [Crypto] in
/-- What `afterSeal` does to the tables: two timers are armed, and the slot and the peer change. -/
theorem afterSeal_tables {p s : Nat} {e : PeerEntry} {sess : Session cap.replayWords}
    {payloadLen total : Nat} (hp : w.core.peer p = some e) (hs : s < cap.maxSessions) :
    ∃ (armed : Option Nat) (rekeyTriggered : Bool),
      (∀ x, armed = some x → now < maxMillis → now < x) ∧
      World.tables ⟨afterSeal p s e sess payloadLen total now w.core, w.log, w.established⟩ =
        (((w.tables.setSlot s (.established { sess with
          nSend := sess.nSend + 1, rekeyTriggered })).setPeer p (sealedMember now armed
            e.member)).armSome armed).armSome (e.member.interval.map (saturatingAdd now)) := by
  have hlt := Core.lt_of_peer hp
  unfold afterSeal
  dsimp only
  by_cases hreply : 0 < payloadLen ∧ e.sessions.replyDue.isNone
  · simp only [if_pos hreply]
    refine ⟨some (replyDeadline w.core.rng now).1,
      sess.rekeyTriggered || hitsRekey sess (sess.nSend + 1) now, ?_, ?_⟩
    · rintro _ ⟨⟩ hn
      exact lt_reply_deadline hn
    · rw [tables_armSome, tables_armSome, tables_setPeer hlt]
      show (((World.tables ⟨w.core.setSlot s _, w.log, w.established⟩).setPeer p _).armSome
        _).armSome _ = _
      rw [tables_setSlot hs]
      rfl
  · simp only [if_neg hreply]
    refine ⟨none, sess.rekeyTriggered || hitsRekey sess (sess.nSend + 1) now, by rintro _ ⟨⟩, ?_⟩
    rw [tables_armSome, tables_armSome, tables_setPeer hlt, tables_setSlot hs]
    rfl

/-- A peer and a session that can seal a payload of this length now. -/
def ReadyToSeal (now p s len : Nat) (w : World cap R P) : Prop :=
  Messages.dataHeaderLen + padded len + tagLen ≤ maxUdpSize ∧ (w.core.peer p).isSome ∧
    ∃ sess, w.core.session s = some sess ∧ sess.canSend now = true

/-- Sealing under a session changes that session and its peer. -/
structure SealedUnder (now p s : Nat) (w w' : World cap R P) : Prop where
  steps : Steps now .traffic w.tables w'.tables
  peers : ∀ q, q ≠ p → w'.core.peer q = w.core.peer q
  slots : ∀ r, r ≠ s → w'.tables.slot r = w.tables.slot r
  kept : w'.tables.Kept p

omit [Crypto] in
theorem afterSeal_peer {c : Core cap R P} {p s q : Nat} {e : PeerEntry}
    {sess : Session cap.replayWords} {payloadLen total : Nat} (h : q ≠ p) :
    (afterSeal p s e sess payloadLen total now c).peer q = c.peer q := by
  have harm : ∀ (c : Core cap R P) (d : Option Nat), (c.armSome d).peer q = c.peer q := by
    intro c d
    cases d <;> rfl
  unfold afterSeal
  dsimp only
  rw [harm, harm, peer_setPeer_of_ne h]
  split <;> rfl

theorem sealTransport_spec (hI : w.tables.Inv) (p s : Nat) (messageType : UInt8)
    (payload : List UInt8) (now : Nat) :
    wpx (sealTransport p s messageType payload now) (fun r w' =>
      (∃ e, r = .error e ∧ w' = w ∧ (Crypto.SealsDatagrams →
        (messageType = Messages.msgData ∨ messageType = Messages.msgRelay) →
          ¬ReadyToSeal now p s payload.length w)) ∨
      ∃ datagram rekey, r = .ok (datagram, rekey) ∧ SealedUnder now p s w w' ∧
        (Crypto.SealsDatagrams →
          datagram.length = Messages.dataHeaderLen + padded payload.length + tagLen)) w := by
  unfold sealTransport
  dsimp only
  split
  · refine wpx_throw.mpr (Or.inl ⟨_, rfl, rfl, fun _ _ hready => ?_⟩)
    exact absurd hready.1 (by omega)
  rename_i htotal
  simp only [wpx_bind, wpx_getCore, then_ok]
  split
  · rename_i e sess he hsess
    have hslot := session_tables.mp hsess
    have hlt : s < cap.maxSessions := Core.lt_of_slot (slot_of_tables hslot (by simp))
    split
    · rename_i hcan
      refine wpx_throw.mpr (Or.inl ⟨_, rfl, rfl, fun _ _ hready => ?_⟩)
      obtain ⟨-, -, sess', hsess', hcan'⟩ := hready
      obtain rfl : sess = sess' := Option.some.inj (hsess.symm.trans hsess')
      simp [hcan'] at hcan
    rename_i hcan
    have hcan : sess.canSend now = true := by simpa using hcan
    have hlimit : sess.nSend < rejectAfterMessages := by
      simp only [Session.canSend, Session.expired, Bool.and_eq_true, Bool.not_eq_true',
        decide_eq_false_iff_not, not_or] at hcan
      exact Nat.lt_of_not_le hcan.1.2
    refine wpx_seq (liftExcept_spec _) ?_ ?_
    · rintro err _ ⟨rfl, herr⟩
      refine Or.inl ⟨err, rfl, rfl, fun hlaw htype _ => ?_⟩
      obtain ⟨d, hd, -⟩ := @sealedDatagram_fits _ _ hlaw sess _ htype payload (by omega)
      rw [hd] at herr
      cases herr
    rintro datagram _ ⟨rfl, hd⟩
    simp only [wpx_bind, wpx_modifyCore, wpx_emit, then_ok, wpx_pure]
    refine Or.inr ⟨_, _, rfl, ⟨?_, fun q hq => afterSeal_peer hq, fun r hr => ?_, fun m hm => ?_⟩,
      fun hlaw => ?_⟩
    · obtain ⟨armed, rekeyTriggered, hlater, htables⟩ :=
        afterSeal_tables (w := w)
          he hlt
      rw [tables_mark rfl, htables]
      have hnum : sess.nSend < 2 ^ 64 := by
        simp only [rejectAfterMessages] at hlimit
        omega
      exact steps_seal hslot (tables_peer he) hcan rfl rfl rfl rfl
        ⟨(sealedDatagram_ok hd).1, sealedDatagram_counter hd hnum⟩ hlater
        fun x hx => persistent_ahead hI (tables_peer he) hx
    · obtain ⟨armed, rekeyTriggered, -, htables⟩ :=
        afterSeal_tables (w := w)
          he hlt
      rw [tables_mark rfl, htables]
      generalize e.member.interval.map (saturatingAdd now) = pk
      cases armed <;> cases pk <;> exact update_of_ne hr ..
    · obtain ⟨armed, rekeyTriggered, -, htables⟩ :=
        afterSeal_tables (w := w)
          he hlt
      rw [tables_mark rfl, htables] at hm
      have hmember : some (sealedMember now armed e.member) = some m := by
        rw [← hm]
        generalize e.member.interval.map (saturatingAdd now) = pk
        symm
        cases armed <;> cases pk <;> exact update_self ..
      rw [← Option.some.inj hmember]
      exact Option.isSome_map
    · obtain ⟨d, hd', hlen⟩ :=
        @sealedDatagram_fits _ _ hlaw sess _ (sealedDatagram_ok hd).1 payload (by omega)
      obtain rfl : datagram = d := Except.ok.inj (hd.symm.trans hd')
      exact hlen
  · rename_i hnot
    refine wpx_throw.mpr (Or.inl ⟨_, rfl, rfl, fun _ _ hready => ?_⟩)
    obtain ⟨-, hp, sess, hsess, -⟩ := hready
    obtain ⟨e, he⟩ := Option.isSome_iff_exists.mp hp
    exact hnot e sess he hsess

theorem wrapAndSeal_spec (hI : w.tables.Inv) (p s : Nat) (destination : Key) (inner : List UInt8)
    (now : Nat) : wpx (wrapAndSeal p s destination inner now) (fun r w' =>
      (∃ e, r = .error e ∧ w' = w ∧ (Crypto.SealsDatagrams → inner.length < 2 ^ 32 →
        ¬ReadyToSeal now p s (Relay.envelopeHeaderLen + inner.length) w)) ∨
      ∃ x, r = .ok x ∧ SealedUnder now p s w w') w := by
  unfold wrapAndSeal
  cases hheader : Relay.writeHeader destination inner.length with
  | none =>
    refine wpx_throw.mpr (Or.inl ⟨_, rfl, rfl, fun _ hlen => ?_⟩)
    rw [Relay.writeHeader, if_pos hlen] at hheader
    cases hheader
  | some header =>
    have hlen : (header ++ inner).length = Relay.envelopeHeaderLen + inner.length := by
      rw [List.length_append, Relay.writeHeader_length hheader]
    refine wpx_mono (sealTransport_spec hI p s Messages.msgRelay (header ++ inner) now) ?_
    rintro _ w1 (⟨e, rfl, rfl, hnot⟩ | ⟨d, rekey, rfl, h1, -⟩)
    · refine Or.inl ⟨e, rfl, rfl, fun hlaw _ => ?_⟩
      rw [← hlen]
      exact hnot hlaw (Or.inr rfl)
    · exact Or.inr ⟨_, rfl, h1⟩

/-! ### Sending -/

theorem transmitWire_spec (hI : w.tables.Inv) (p : Nat) (directDst : Option SocketAddr)
    (msg : List UInt8) (now : Nat) : wpx (transmitWire p directDst msg now)
      (fun _ w' => Steps now .traffic w.tables w'.tables) w := by
  unfold transmitWire
  simp only [wpx_bind, wpx_getCore, then_ok]
  cases w.core.peer p with
  | none => exact wpx_throw.mpr (Steps.refl _)
  | some peer =>
    dsimp only
    split
    · split
      · exact wpx_throw.mpr (Steps.refl _)
      · rw [wpx_emit, tables_silent rfl]
        exact Steps.refl _
    refine wpx_seq (relayPath_spec hI _ now) (fun _ _ h => h.1.widen (by decide)) ?_
    rintro ⟨rp, rs, endpoint⟩ w1 ⟨-, hpath, -⟩
    obtain ⟨rfl, -, -⟩ := hpath rp rs endpoint rfl
    dsimp only
    split
    · exact wpx_throw.mpr (Steps.refl _)
    refine wpx_seq (wrapAndSeal_spec hI rp rs _ msg now) ?_ ?_
    · rintro _ _ (⟨_, -, rfl, -⟩ | ⟨_, h, -⟩)
      · exact Steps.refl _
      · cases h
    rintro ⟨datagram, rekey⟩ w2 (⟨_, h, -⟩ | ⟨_, -, h2⟩)
    · cases h
    simp only [wpx_bind, wpx_emit, then_ok]
    have hstep : Steps now .traffic w1.tables
        (World.tables ⟨w2.core, .outerDatagram endpoint datagram :: w2.log, w2.established⟩) := by
      rw [tables_silent rfl]
      exact h2.steps
    split
    · refine wpx_attempt_seq (ensureDirectHandshake_spec (hstep.inv hI) rp now) fun _ w3 h3 => ?_
      exact wpx_pure.mpr (hstep.then_quiet h3)
    · exact wpx_pure.mpr hstep

theorem ensureHandshake_spec (hI : w.tables.Inv) (p now : Nat) :
    wpx (ensureHandshake p now) (fun _ w' => Steps now .traffic w.tables w'.tables) w := by
  unfold ensureHandshake
  refine wpx_seq (stageInitiation_spec hI p now) (fun _ _ h => h.widen (by decide)) ?_
  rintro (_ | msg) w1 h1
  · exact wpx_pure.mpr (h1.widen (by decide))
  · refine wpx_attempt_seq (transmitWire_spec (h1.inv hI) p none msg now) fun _ w2 h2 => ?_
    exact wpx_pure.mpr ((h1.widen (by decide)).trans h2)

theorem retransmitInitiation_spec (hI : w.tables.Inv) {p s : Nat} {h : Initiating}
    (hs : w.tables.slot s = .initiating h) (howner : h.peer = p) (hdue : h.retryAt ≤ now) :
    wp (retransmitInitiation p s now) (fun _ w' => ∃ t, Steps now .quiet w.tables t ∧
      (t.slot s = .free ∨ ∃ h', t.slot s = .initiating h' ∧ (now < maxMillis → now < h'.retryAt)) ∧
      Steps now .traffic t w'.tables) w := by
  have hlt : s < cap.maxSessions := Core.lt_of_slot (slot_of_tables hs (by simp))
  unfold retransmitInitiation sendInitiation
  refine @wp_seq _ _ _ _ _ _ _ (fun r w' => (r = .ok () ∧ ∃ t, Steps now .quiet w.tables t ∧
      (∃ h', t.slot s = .initiating h' ∧ (now < maxMillis → now < h'.retryAt)) ∧
      Steps now .traffic t w'.tables) ∨ ((∃ e, r = .error e) ∧ w'.tables = w.tables)) _ ?_ ?_
  · rw [wp_run]
    refine wpx_seq (buildInitiation_spec hI hlt) ?_ ?_
    · rintro e w1 (⟨_, -, h1⟩ | ⟨_, _, _, h1, -⟩)
      · exact Or.inr ⟨⟨e, rfl⟩, h1⟩
      · cases h1
    rintro msg w1 (⟨_, h1, -⟩ | ⟨_, h', fresh, -, howner', hlater, hpace, hcase, h1⟩)
    · cases h1
    -- The slot has its index already, so storing the attempt is a retry.
    obtain ⟨rfl, hindex⟩ : fresh = false ∧ h'.localIndex = h.localIndex := by
      rcases hcase with ⟨-, hfree, -⟩ | ⟨hf, h'', hs'', hi⟩
      · rw [hs] at hfree
        cases hfree
      · rw [hs] at hs''
        cases hs''
        exact ⟨hf, hi⟩
    have hfor : w.tables.slotFor h'.localIndex = some s := by
      rw [hindex]
      exact (hI.links.index _ s).mpr (by rw [hs]; rfl)
    have htables : w1.tables = ((w.tables.arm h'.retryAt).setSlot s (.initiating h')).note
        (.initiation h.peer now false) := by
      rw [h1, howner]
      simp only [Tables.setIndex, Tables.setSlot, Tables.arm, ← hfor, Function.update_eq_self]
    have hsteps : Steps now .quiet w.tables w1.tables := by
      rw [htables]
      exact (Step.arm h'.retryAt).steps.trans (Step.retry (t := w.tables.arm h'.retryAt) hs hdue
        (howner'.trans howner.symm) hindex (ahead_arm fun hn _ => hlater hn) hpace).steps
    refine wpx_attempt_seq (transmitWire_spec (hsteps.inv hI) p none msg now) fun _ w2 h2 => ?_
    refine wpx_pure.mpr (Or.inl ⟨rfl, w1.tables, hsteps, ⟨h', ?_, hlater⟩, h2⟩)
    rw [htables]
    exact update_self ..
  · rintro _ w1 (⟨rfl, t, ht, hslot, h1⟩ | ⟨⟨e, rfl⟩, h1⟩)
    · exact wp_pure.mpr ⟨t, ht, Or.inr hslot, h1⟩
    · refine wp_ignore.mpr (wpx_mono (freeSlot_spec (h1 ▸ hI) hlt) ?_)
      rintro _ w2 ⟨-, h2⟩
      refine ⟨w2.tables, ?_, Or.inl ?_, Steps.refl _⟩
      · rw [h2, h1]
        exact (Step.clear s).steps
      · rw [h2, clear_slot]

omit [RngCore R] in
theorem noteOutboundFlow_spec (hI : w.tables.Inv) (p : Nat) (packet : List UInt8) (now : Nat) :
    wpx (noteOutboundFlow p packet now) (fun r w' => r = .ok () ∧
      Steps now .flow w.tables w'.tables) w := by
  unfold noteOutboundFlow
  rw [wpx_modifyCore]
  refine ⟨rfl, ?_⟩
  split
  · rename_i hany
    have hp : w.tables.Installed p := by
      cases hp : w.core.peer p with
      | none => simp [hp] at hany
      | some e => exact installed_of_peer hp
    exact (Step.flows (hI.registry.flows.observeOutbound hp packet now)).steps
  · exact Steps.refl _

/-- Is the session in the slot, if there is one, of this peer? -/
def OwnSession (p s : Nat) (t : Tables cap) : Prop :=
  ∀ sess, t.slot s = .established sess → sess.peer = p

theorem OwnSession.steps {t t' : Tables cap} {scope : Scope} {p s : Nat} (h : OwnSession p s t)
    (hsteps : Steps now scope t t') (hk : scope.rank ≤ 2) : OwnSession p s t' := by
  intro sess' hs
  obtain ⟨sess, hsess, hp⟩ := hsteps.sessions hk hs
  exact hp.trans (h sess hsess)

omit [RngCore R] in
theorem usableSession_own (hI : w.tables.Inv) {p s : Nat}
    (h : w.core.usableSession p now = some s) : OwnSession p s w.tables := by
  obtain ⟨e, sess, he, hcur, hsess, -⟩ := usableSession_some h
  have hheld := (hI.links.linked p e.member (tables_peer he) s .live).mp (Or.inl hcur)
  intro sess' hs'
  rw [hs'] at hheld
  simp only [Slot.holder, Option.some.injEq, Prod.mk.injEq] at hheld
  exact hheld.1

omit [Crypto] in
/-- Two seals fit where the inner datagram is not too long for an envelope. -/
theorem relayed_fits {n : Nat} (h : n ≤ Relay.maxRelayInnerSize) :
    Messages.dataHeaderLen + padded (Relay.envelopeHeaderLen + n) + tagLen ≤ maxUdpSize := by
  have hmax : Relay.maxRelayInnerSize = 1408 := by decide
  rw [hmax] at h
  simp only [Messages.dataHeaderLen, padded, floor16, Relay.envelopeHeaderLen, tagLen, maxUdpSize]
  omega

omit [RngCore R] in
/-- Can a peer be sent to, directly or through its relay? -/
def Core.reachable (p now : Nat) (c : Core cap R P) : Bool :=
  (c.peer p).any fun e => match e.relay with
    | some relayKey => c.relayReady relayKey now
    | none => e.endpoint.isSome

/-- A relayed send that fails has sealed nothing.  A keepalive that can be sent is, and keeps up the
peer's persistent keepalive. -/
theorem encryptViaRelayBody_spec (hI : w.tables.Inv) {p s : Nat} {relayKey : Key} {e : PeerEntry}
    (hp : w.core.peer p = some e) (hrelay : e.relay = some relayKey)
    (hown : OwnSession p s w.tables) (packet : List UInt8) (now : Nat) :
    wpx (encryptViaRelayBody p s relayKey packet now) (fun r w' =>
      Steps now .flow w.tables w'.tables ∧
      (Crypto.SealsDatagrams → ∀ err, r = .error err → w'.tables.marks = w.tables.marks) ∧
      (Crypto.SealsDatagrams → packet = [] → ReadyToSeal now p s 0 w →
        w.core.relayReady relayKey now = true → w'.tables.Kept p)) w := by
  unfold encryptViaRelayBody
  refine wpx_seq (relayPath_spec hI relayKey now) ?_ ?_
  · rintro err w1 ⟨h1, -, hnone⟩
    refine ⟨h1.widen (by decide), fun _ _ _ => h1.quiet rfl, fun _ _ _ hpath => ?_⟩
    rw [hnone err rfl] at hpath
    cases hpath
  rintro ⟨rp, rs, endpoint⟩ w1 ⟨-, hpath, -⟩
  obtain ⟨rfl, husable, re, hre, hrelay'⟩ := hpath rp rs endpoint rfl
  dsimp only
  by_cases hlen : Relay.maxRelayInnerSize < Messages.dataHeaderLen + padded packet.length + tagLen
  · rw [if_pos hlen]
    refine wpx_throw.mpr ⟨Steps.refl _, fun _ _ _ => rfl, ?_⟩
    rintro - rfl - -
    exact absurd hlen (by decide)
  rw [if_neg hlen]
  simp only [wpx_bind, wpx_getCore, then_ok, hp]
  have hne : rp ≠ p := by
    rintro rfl
    rw [hp] at hre
    cases hre
    rw [hrelay] at hrelay'
    cases hrelay'
  refine wpx_mono (sealTransport_spec hI p s Messages.msgData packet now) ?_
  rintro _ w2 (⟨err, rfl, rfl, hnot⟩ | ⟨inner, rekeyDest, rfl, h2, hinner⟩)
  · refine ⟨Steps.refl _, fun _ _ _ => rfl, ?_⟩
    rintro hlaw rfl hready -
    exact absurd hready (hnot hlaw (Or.inl rfl))
  rw [then_ok]
  dsimp only
  have hI2 := h2.steps.inv hI
  -- The relay's session is another one, so it can still seal.
  have hready : Crypto.SealsDatagrams →
      ReadyToSeal now rp rs (Relay.envelopeHeaderLen + inner.length) w2 := by
    intro hlaw
    obtain ⟨re', rsess, hre', -, hrsess, hcan⟩ := usableSession_some husable
    have hrs : rs ≠ s := by
      rintro rfl
      have := hown rsess (session_tables.mp hrsess)
      exact hne ((usableSession_own hI husable rsess (session_tables.mp hrsess)).symm.trans this)
    refine ⟨relayed_fits ?_, by rw [h2.peers rp hne, hre]; rfl, rsess, ?_, hcan⟩
    · rw [hinner hlaw]
      exact Nat.le_of_not_lt hlen
    · rw [session_tables, h2.slots rs hrs]
      exact session_tables.mp hrsess
  refine wpx_seq (wrapAndSeal_spec hI2 rp rs e.publicKey inner now) ?_ ?_
  · rintro err w3 (⟨_, -, rfl, hnot⟩ | ⟨_, h, -⟩)
    · refine ⟨h2.steps.widen (by decide), fun hlaw => ?_, fun _ _ _ _ => h2.kept⟩
      have hsmall : inner.length < 2 ^ 32 := by
        have := (hready hlaw).1
        have hpad := le_padded (Relay.envelopeHeaderLen + inner.length)
        simp only [maxUdpSize] at this
        omega
      exact absurd (hready hlaw) (hnot hlaw hsmall)
    · cases h
  rintro ⟨datagram, rekeyRelay⟩ w3 (⟨_, h, -⟩ | ⟨_, -, h3⟩)
  · cases h
  simp only [wpx_bind, wpx_emit, then_ok]
  have hsteps : Steps now .flow w1.tables
      (World.tables ⟨w3.core, .outerDatagram endpoint datagram :: w3.log, w3.established⟩) := by
    rw [tables_silent rfl]
    exact (h2.steps.trans h3.steps).widen (by decide)
  refine wpx_mono (noteOutboundFlow_spec (hsteps.inv hI) p packet now) ?_
  rintro _ w4 ⟨rfl, h4⟩
  have hsteps4 := hsteps.trans h4
  have hkept4 : w4.tables.Kept p := by
    have hkept3 := h3.steps.kept (by rintro ⟨⟩) h2.kept
    rw [tables_silent rfl] at h4
    exact h4.kept (by rintro ⟨⟩) hkept3
  rw [then_ok]
  -- The rekeys at the end are attempts, so nothing fails from here on.
  have hend : ∀ w5 : World cap R P, Steps now .flow w1.tables w5.tables → w5.tables.Kept p →
      Steps now .flow w1.tables w5.tables ∧ (Crypto.SealsDatagrams → ∀ err : Error,
        (Except.ok () : Except Error Unit) = .error err → w5.tables.marks = w1.tables.marks) ∧
        (Crypto.SealsDatagrams → packet = [] → ReadyToSeal now p s 0 w1 →
          w1.core.relayReady relayKey now = true → w5.tables.Kept p) :=
    fun w5 h5 hk5 => ⟨h5, by rintro _ _ ⟨⟩, fun _ _ _ _ => hk5⟩
  have htail : ∀ w5 : World cap R P, Steps now .flow w1.tables w5.tables → w5.tables.Kept p →
      wpx (if rekeyRelay then do
          let _ ← attempt (ensureDirectHandshake rp now)
        else pure ()) (fun r w' => Steps now .flow w1.tables w'.tables ∧
          (Crypto.SealsDatagrams → ∀ err, r = .error err → w'.tables.marks = w1.tables.marks) ∧
          (Crypto.SealsDatagrams → packet = [] → ReadyToSeal now p s 0 w1 →
            w1.core.relayReady relayKey now = true → w'.tables.Kept p)) w5 := by
    intro w5 h5 hk5
    split
    · refine wpx_attempt_seq (ensureDirectHandshake_spec (h5.inv hI) rp now) fun _ w6 h6 => ?_
      exact wpx_pure.mpr (hend w6 (h5.then_quiet h6) (h6.kept (by rintro ⟨⟩) hk5))
    · exact wpx_pure.mpr (hend w5 h5 hk5)
  split
  · refine wpx_attempt_seq (ensureHandshake_spec (hsteps4.inv hI) p now) fun _ w5 h5 => ?_
    exact htail w5 (hsteps4.trans (h5.widen (by decide))) (h5.kept (by rintro ⟨⟩) hkept4)
  · exact htail w4 hsteps4 hkept4

theorem encryptViaRelay_spec (hI : w.tables.Inv) {p s : Nat} {relayKey : Key} {e : PeerEntry}
    (hp : w.core.peer p = some e) (hrelay : e.relay = some relayKey)
    (hown : OwnSession p s w.tables) (packet : List UInt8) (now : Nat) :
    wpx (encryptViaRelay p s relayKey packet now) (fun _ w' => Steps now .flow w.tables w'.tables ∧
      (Crypto.SealsDatagrams → packet = [] → ReadyToSeal now p s 0 w →
        w.core.relayReady relayKey now = true → w'.tables.Kept p)) w := by
  unfold encryptViaRelay
  rw [wpx_mk]
  simp only [wp_bind, wp_getCore, wp_run]
  refine wpx_mono (encryptViaRelayBody_spec hI hp hrelay hown packet now) ?_
  rintro r w1 ⟨h1, hmarks, hkept⟩
  split
  · rename_i err sess hsess
    rw [wp_bind, wp_emit, wp_pure, tables_mark rfl]
    refine ⟨h1.trans ((Step.relayFailed fun hlaw => ?_).steps.widen (by decide)), hkept⟩
    show (sealsOf sess.serial w1.tables.marks).length = sess.nSend
    rw [hmarks hlaw err rfl, hI.ledger.seals s sess (session_tables.mp hsess)]
    simp
  · exact wp_pure.mpr ⟨h1, hkept⟩

theorem encryptAndSend_spec (hI : w.tables.Inv) {p s : Nat} (hown : OwnSession p s w.tables)
    (packet : List UInt8) (now : Nat) :
    wpx (encryptAndSend p s packet now) (fun _ w' => Steps now .flow w.tables w'.tables ∧
      (Crypto.SealsDatagrams → packet = [] → ReadyToSeal now p s 0 w →
        w.core.reachable p now = true → w'.tables.Kept p)) w := by
  unfold encryptAndSend
  split
  · refine wpx_throw.mpr ⟨Steps.refl _, ?_⟩
    rintro - rfl
    rename_i hlen
    exact absurd hlen (by decide)
  simp only [wpx_bind, wpx_getCore, then_ok]
  cases hrelay : (w.core.peer p).bind (·.relay) with
  | some relayKey =>
    obtain ⟨e, he, hr⟩ := Option.bind_eq_some_iff.mp hrelay
    refine wpx_mono (encryptViaRelay_spec hI he hr hown packet now) ?_
    rintro _ w1 ⟨h1, hkept⟩
    refine ⟨h1, fun hlaw hnil hready hreach => hkept hlaw hnil hready ?_⟩
    simpa [Core.reachable, he, hr] using hreach
  | none =>
    dsimp only
    cases hend : (w.core.peer p).bind (·.endpoint) with
    | none =>
      refine wpx_throw.mpr ⟨Steps.refl _, fun _ _ _ hreach => ?_⟩
      obtain ⟨e, he, hmatch⟩ := (Option.any_eq_true _ _).mp hreach
      rw [he, Option.bind_some] at hrelay hend
      simp [hrelay, hend] at hmatch
    | some endpoint =>
      refine wpx_seq (sealTransport_spec hI p s Messages.msgData packet now) ?_ ?_
      · rintro _ w1 (⟨_, -, rfl, hnot⟩ | ⟨_, _, h, -⟩)
        · refine ⟨Steps.refl _, ?_⟩
          rintro hlaw rfl hready -
          exact absurd hready (hnot hlaw (Or.inl rfl))
        · cases h
      rintro ⟨datagram, rekey⟩ w1 (⟨_, h, -⟩ | ⟨_, _, -, h1, -⟩)
      · cases h
      simp only [wpx_bind, wpx_emit, then_ok]
      have hsteps : Steps now .flow w.tables
          (World.tables ⟨w1.core, .outerDatagram endpoint datagram :: w1.log, w1.established⟩) := by
        rw [tables_silent rfl]
        exact h1.steps.widen (by decide)
      refine wpx_mono (noteOutboundFlow_spec (hsteps.inv hI) p packet now) ?_
      rintro _ w2 ⟨rfl, h2⟩
      have hsteps2 := hsteps.trans h2
      have hkept2 : w2.tables.Kept p := by
        rw [tables_silent rfl] at h2
        exact h2.kept (by rintro ⟨⟩) h1.kept
      rw [then_ok]
      split
      · refine wpx_attempt_seq (ensureHandshake_spec (hsteps2.inv hI) p now) fun _ w3 h3 => ?_
        exact wpx_pure.mpr ⟨hsteps2.trans (h3.widen (by decide)),
          fun _ _ _ _ => h3.kept (by rintro ⟨⟩) hkept2⟩
      · exact wpx_pure.mpr ⟨hsteps2, fun _ _ _ _ => hkept2⟩

/-! ### Parking -/

theorem steps_park {t : Tables cap} {p : PendingPacket} {q : Nat} {parked : Multiset PendingPacket}
    (hparked : parked ≤ t.parked)
    (hd : now < maxMillis → t.config.negativeTtl ≠ 0 → now < p.deadline)
    (hw : p.wait = .handshake q) (hq : t.Installed q) :
    Steps now .quiet t ((t.withParked (p ::ₘ parked)).arm p.deadline) := by
  have harm : Steps now .quiet t (t.arm p.deadline) := (Step.arm _).steps
  have hdrop : Steps now .quiet (t.arm p.deadline) ((t.withParked parked).arm p.deadline) :=
    (Step.dropParked (t := t.arm p.deadline) hparked).steps
  have hadd : Steps now .quiet ((t.withParked parked).arm p.deadline)
      ((t.withParked (p ::ₘ parked)).arm p.deadline) :=
    (Step.park (t := (t.withParked parked).arm p.deadline) (ahead_arm hd) hw hq).steps
  exact harm.trans (hdrop.trans hadd)

omit [Crypto] [RngCore R] in
/-- Parking adds a packet in the place of at most one other, or none. -/
theorem park_tables {packet : List UInt8} {wait : Wait} {deadline : Nat} :
    wpx (park packet wait deadline) (fun r w' => r = .ok () ∧ ∃ parked,
      w'.tables = (w.tables.withParked parked).arm deadline ∧ (parked = w.tables.parked ∨
        ∃ kept, kept ≤ w.tables.parked ∧ parked = ⟨packet, wait, deadline⟩ ::ₘ kept)) w := by
  unfold park
  rw [wpx_modifyCore]
  refine ⟨rfl, (w.core.pending.park packet wait deadline).2.packets, rfl, ?_⟩
  rcases w.core.pending.park_packets packet wait deadline with hsame | ⟨rest, hsub, hperm⟩
  · rw [hsame]
    exact Or.inl rfl
  · exact Or.inr ⟨rest, Multiset.coe_le.mpr hsub.subperm, Multiset.coe_eq_coe.mpr hperm⟩

omit [RngCore R] in
theorem park_spec {packet : List UInt8} {q deadline : Nat}
    (hd : now < maxMillis → w.core.coreConfig.negativeTtl ≠ 0 → now < deadline)
    (hq : w.tables.Installed q) :
    wpx (park packet (.handshake q) deadline) (fun r w' => r = .ok () ∧
      Steps now .quiet w.tables w'.tables) w := by
  refine wpx_mono park_tables ?_
  rintro _ w1 ⟨rfl, parked, h1, hparked⟩
  refine ⟨rfl, ?_⟩
  rw [h1]
  rcases hparked with rfl | ⟨kept, hkept, rfl⟩
  · exact (Step.arm deadline).steps
  · exact steps_park (p := ⟨packet, .handshake q, deadline⟩) hkept hd rfl hq

theorem sendToPeer_spec (hI : w.tables.Inv) {p : Nat} (hp : w.tables.Installed p)
    (packet : List UInt8) (now : Nat) :
    wpx (sendToPeer p packet now) (fun _ w' => Steps now .flow w.tables w'.tables) w := by
  unfold sendToPeer
  simp only [wpx_bind, wpx_getCore, then_ok]
  cases hu : w.core.usableSession p now with
  | some s =>
    exact wpx_mono (encryptAndSend_spec hI (usableSession_own hI hu) packet now) fun _ _ h => h.1
  | none =>
    refine wpx_seq (park_spec (fun hn _ => lt_saturatingAdd_of_lt (by decide) hn) hp)
      (by rintro _ _ ⟨h, -⟩; cases h) ?_
    rintro _ w1 ⟨-, h1⟩
    refine wpx_mono (ensureHandshake_spec (h1.inv hI) p now) fun _ w2 h2 => ?_
    exact (h1.widen (by decide)).trans (h2.widen (by decide))

end Microtun
