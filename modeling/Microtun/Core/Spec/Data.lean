import Microtun.Core.Spec.Receive

/-! What responses, cookies and transport data from the network do to the tables. -/

namespace Microtun

open Hoare Tables
open Function (update update_self update_of_ne)

variable {cap : Capacities} {R P : Type} [Crypto] [RngCore R] {w : World cap R P} {now : Nat}

/-! ### Superseded sessions -/

omit [Crypto] [RngCore R] in
theorem freeSuperseded_spec {old : Option Nat} (h : ∀ s, old = some s → s < cap.maxSessions ∧
      (∀ p, (w.tables.slot s).owner = some p → w.tables.Installed p) ∧
      ∀ i, (w.tables.slot s).localIndex = some i → w.tables.slotFor i = some s) :
    wp (freeSuperseded old : CoreM cap R P Unit) (fun _ w' => w'.tables = w.tables.retire old)
      w := by
  unfold freeSuperseded
  cases old with
  | none => exact wp_pure.mpr rfl
  | some s =>
    obtain ⟨hs, howned, hindexed⟩ := h s rfl
    refine wp_ignore.mpr (wpx_mono (freeSlot_linked hs howned hindexed) ?_)
    rintro _ w1 ⟨-, h1⟩
    exact h1

omit [Crypto] [RngCore R] in
/-- The previous session of a peer: its slot is the peer's, and it is none of the other ones. -/
theorem Links.previous_slot {t : Tables cap} (hl : t.Links) {p o : Nat} {m : Member}
    (hp : t.peer p = some m) (ho : m.sessions.previous = some o) :
    (t.slot o).owner = some p ∧ t.slot o ≠ .free ∧
      ∀ {s k}, (t.slot s).holder = some (p, k) → k ≠ .live → o ≠ s := by
  have hheld := (hl.linked p m hp o .live).mp (Or.inr ho)
  refine ⟨holder_owner.mpr ⟨.live, hheld⟩, ?_, ?_⟩
  · intro hfree
    simp [hfree, Slot.holder] at hheld
  · rintro s k hk hne rfl
    rw [hheld] at hk
    cases hk
    exact hne rfl

omit [Crypto] [RngCore R] in
/-- A peer whose session `s` became the current one does not refer to the superseded session. -/
theorem Links.rotated_unlink {t : Tables cap} (hl : t.Links) {p o s : Nat} {m m' : Member}
    (hp : t.peer p = some m) (ho : m.sessions.previous = some o) (hos : o ≠ s)
    (hcur : m'.sessions.current = some s) (hprev : m'.sessions.previous = m.sessions.current)
    (hnext : m'.sessions.next = none ∨ m'.sessions.next = m.sessions.next)
    (hhand : m'.sessions.handshake = none ∨ m'.sessions.handshake = m.sessions.handshake) :
    m'.unlink o = m' := by
  have hone : ∀ {k}, m.sessions.Lists o k → k = .live := fun hk =>
    hl.lists_one hp hk (Or.inr ho)
  have hcur' : m'.sessions.current ≠ some o := by
    rw [hcur]
    simpa using Ne.symm hos
  have hprev' : m'.sessions.previous ≠ some o := by
    rw [hprev]
    exact fun hc => hl.distinct p m hp o hc ho
  have hnext' : m'.sessions.next ≠ some o := by
    rcases hnext with h | h
    · simp [h]
    · rw [h]
      exact fun hc => absurd (hone (k := .next) hc) (by simp)
  have hhand' : m'.sessions.handshake ≠ some o := by
    rcases hhand with h | h
    · simp [h]
    · rw [h]
      exact fun hc => absurd (hone (k := .handshake) hc) (by simp)
  have : m'.sessions.unlink o = m'.sessions := by
    simp [PeerSessions.unlink, hcur', hprev', hnext', hhand']
  simp only [Member.unlink, this]

/-! ### Responses -/

omit [RngCore R] in
/-- An attempt becomes the current session, and the session before the last goes. -/
theorem steps_complete {t : Tables cap} (hl : t.Links) {p s : Nat} {m : Member} {h : Initiating}
    {sess : Session cap.replayWords} (hp : t.peer p = some m) (hs : t.slot s = .initiating h)
    (howner : h.peer = p) (hi : sess.localIndex = h.localIndex)
    (hsess : sess.Opened p now t.established .initiator) :
    Steps now .establish t (({ (t.setPeer p { m with
      sessions := { m.sessions with
        handshake := none
        attemptDeadline := none
        previous := m.sessions.current
        current := some s } }).setSlot s (.established sess) with
      established := t.established + 1 }.arm (saturatingAdd now rejectAfterTime)).retire
        m.sessions.previous) := by
  generalize hd : saturatingAdd now rejectAfterTime = d
  have hahead : ∀ u : Tables cap, (u.arm d).Ahead now (saturatingAdd now rejectAfterTime) := by
    intro u
    rw [hd]
    exact ahead_arm fun hn _ => hd ▸ lt_saturatingAdd_of_lt (by decide) hn
  cases ho : m.sessions.previous with
  | none =>
    have harm : Steps now .establish t (t.arm d) := (Step.arm d).steps.widen (Scope.quiet_le _)
    exact harm.trans (Step.complete (t := t.arm d) hp hs howner ho hi hsess (hahead t)).steps
  | some o =>
    obtain ⟨hown, -, hother⟩ := Links.previous_slot hl hp ho
    have hheld : (t.slot s).holder = some (p, .handshake) := by
      rw [hs, ← howner]
      rfl
    have hos : o ≠ s := hother hheld (by simp)
    have hclear : Steps now .establish t ((t.clear o).arm d) :=
      ((Step.clear o).steps.trans (Step.arm d).steps).widen (Scope.quiet_le _)
    have hp' : ((t.clear o).arm d).peer p = some { m with
        sessions := { m.sessions with previous := none } } := by
      show (if (t.slot o).owner = some p then _ else _) = _
      rw [if_pos hown, hp, Option.map_some, Member.unlink, hl.unlink_previous hp ho]
    have hs' : ((t.clear o).arm d).slot s = .initiating h := by
      show update t.slot o .free s = _
      rw [update_of_ne (Ne.symm hos)]
      exact hs
    have hunlink : Member.unlink { m with sessions := { m.sessions with
        handshake := none
        attemptDeadline := none
        previous := m.sessions.current
        current := some s } } o = { m with sessions := { m.sessions with
          handshake := none
          attemptDeadline := none
          previous := m.sessions.current
          current := some s } } :=
      Links.rotated_unlink hl hp ho hos rfl rfl (Or.inr rfl) (Or.inl rfl)
    refine hclear.trans ?_
    convert (Step.complete (t := (t.clear o).arm d) hp' hs' howner rfl hi hsess
      (hahead (t.clear o))).steps using 1
    show { ((t.setPeer p _).setSlot s (.established sess)).clear o with
      established := t.established + 1, timer := t.timer.arm d } = _
    rw [clear_setSlot (Ne.symm hos), clear_setPeer hown hunlink]
    rfl

omit [RngCore R] in
theorem takeParked_spec (now : Nat) (pred : PendingPacket → Bool) :
    wp (takeParked pred : CoreM cap R P _) (fun o w' => Steps now .quiet w.tables w'.tables ∧
      ((o = none ∧ w' = w ∧ ∀ q ∈ w.core.pending.packets, pred q = false) ∨
        ∃ q, o = some q ∧ pred q = true ∧ w.tables.parked = q ::ₘ w'.tables.parked)) w := by
  unfold takeParked
  rw [wp_updateCore]
  rcases w.core.pending.takeIf_packets pred with ⟨hnone, hno⟩ | ⟨q, hsome, hpred, hperm⟩
  · rw [hnone]
    exact ⟨Steps.refl _, Or.inl ⟨rfl, rfl, hno⟩⟩
  · have hparked : w.tables.parked = q ::ₘ
        ((w.core.pending.takeIf pred).2.packets : Multiset PendingPacket) :=
      Multiset.coe_eq_coe.mpr hperm
    refine ⟨?_, Or.inr ⟨q, hsome, hpred, hparked⟩⟩
    exact (Step.dropParked (hparked ▸ Multiset.le_cons_self _ q)).steps

theorem flushHandshake_spec (hI : w.tables.Inv) {p s : Nat} (hown : OwnSession p s w.tables)
    (now fuel : Nat) :
    wp (flushHandshake p s now fuel) (fun _ w' => Steps now .flow w.tables w'.tables) w := by
  induction fuel generalizing w with
  | zero => exact wp_pure.mpr (Steps.refl _)
  | succ fuel ih =>
    rw [flushHandshake]
    refine wp_seq (takeParked_spec now _) ?_
    rintro o w1 ⟨h1, ho⟩
    cases o with
    | none => exact wp_pure.mpr (h1.widen (Scope.quiet_le _))
    | some q =>
      have h1' : Steps now .flow w.tables w1.tables := h1.widen (Scope.quiet_le _)
      have hown1 := hown.steps h1' (by decide)
      dsimp only
      refine wp_seq (encryptAndSend_spec (h1.inv hI) hown1 q.packet now) ?_
      rintro r w2 ⟨h2, -⟩
      have h2' := h1'.trans h2
      refine wp_seq (ih (h2'.inv hI) (hown1.steps h2 (by decide))) fun sent w3 h3 => ?_
      exact wp_pure.mpr (h2'.trans h3)

/-- A response turns an attempt into a session. -/
theorem completeHandshake_spec (hI : w.tables.Inv) {s : Nat} {h : Initiating}
    (hs : w.tables.slot s = .initiating h) (keys : Noise.TransportKeys) (remoteIndex : UInt32)
    (src : SocketAddr) (now : Nat) : wp (completeHandshake s h keys remoteIndex src now)
      (fun _ w' => Steps now .establish w.tables w'.tables) w := by
  have hheld : (w.tables.slot s).holder = some (h.peer, .handshake) := by rw [hs]; rfl
  obtain ⟨m, hm⟩ := Option.isSome_iff_exists.mp (hI.links.held s h.peer .handshake hheld)
  unfold completeHandshake
  refine wp_seq (withRng_spec _) ?_
  rintro rekeyAfter w1 ⟨h1, -⟩
  have hm1 : w1.tables.peer h.peer = some m := by rw [h1]; exact hm
  obtain ⟨e, he, rfl⟩ := peer_of_tables hm1
  have hI1 : w1.tables.Inv := h1 ▸ hI
  have hs1 : w1.tables.slot s = .initiating h := by rw [h1]; exact hs
  have hhand : e.sessions.handshake = some s := hI1.links.handshake_slot hm1 hs1 rfl
  have hlt : s < cap.maxSessions := Core.lt_of_slot (slot_of_tables hs1 (by simp))
  dsimp only
  simp only [wp_bind, wp_getCore, he, Option.isNone_some, Bool.false_eq_true, if_false, wp_run]
  have hinstall : wpx (watch .installInitiator (installInitiator h.peer s now)) (fun r w' =>
      r = .ok e.sessions.previous ∧ w'.established = w1.established ∧
      w'.tables = w1.tables.setPeer h.peer { e.member with
        sessions := { e.member.sessions with
          handshake := none
          attemptDeadline := none
          previous := e.member.sessions.current
          current := some s } }) w1 := by
    refine wpx_watch ?_
    unfold installInitiator
    rw [wpx_tryCore]
    simp only [he, PeerSessions.installInitiator, hhand, ne_eq, not_true_eq_false, if_false,
      PeerSessions.rotateCurrent]
    exact ⟨by simp, trivial, trivial, tables_setPeer (Core.lt_of_peer he)⟩
  refine wpx_mono hinstall ?_
  rintro _ w2 ⟨rfl, hest2, h2⟩
  dsimp only
  rw [wp_bind]
  refine wp_mono (observeEndpoint_spec h.peer src now) fun _ w3 h3 => ?_
  simp only [wp_bind, wp_newSerial, wp_modifyCore]
  have hest3 : w3.established = w1.established := by
    have := congrArg Tables.established h3
    exact this.trans hest2
  generalize hsess : ({ (Session.new keys .initiator h.localIndex remoteIndex now :
    Session cap.replayWords) with
      peer := h.peer
      rekeyAfter
      serial := w3.established } : Session cap.replayWords) = sess
  have hopened : sess.Opened h.peer now w1.tables.established .initiator := by
    rw [← hsess]
    exact ⟨rfl, rfl, rfl, rfl, hest3, rfl, rfl⟩
  have hindex : sess.localIndex = h.localIndex := by rw [← hsess]; rfl
  generalize hw4 : (⟨(w3.core.setSlot s (.established sess)).arm
    (saturatingAdd now rejectAfterTime), w3.log, w3.established + 1⟩ : World cap R P) = w4
  have h4 : w4.tables = { (w1.tables.setPeer h.peer { e.member with
      sessions := { e.member.sessions with
        handshake := none
        attemptDeadline := none
        previous := e.member.sessions.current
        current := some s } }).setSlot s (.established sess) with
      established := w1.tables.established + 1 }.arm (saturatingAdd now rejectAfterTime) := by
    rw [← hw4, tables_arm, tables_setSlot hlt]
    have : World.tables ⟨w3.core, w3.log, w3.established + 1⟩ =
        { w3.tables with established := w3.established + 1 } := rfl
    rw [this, h3, h2, hest3]
    rfl
  have hcomplete := steps_complete hI1.links hm1 hs1 rfl hindex hopened
  rw [← h4] at hcomplete
  refine wp_mono (freeSuperseded_spec fun o ho => ?_) fun _ w5 h5 => ?_
  · -- The superseded session is still linked from its own side.
    obtain ⟨hown, hfree, hother⟩ := Links.previous_slot hI1.links hm1 ho
    have hos : o ≠ s := hother (hI1.links.linked _ _ hm1 s .handshake |>.mp hhand) (by simp)
    have hslot : w4.tables.slot o = w1.tables.slot o := by
      rw [h4]
      exact update_of_ne hos ..
    rw [hslot]
    refine ⟨Core.lt_of_slot (slot_of_tables rfl hfree), fun p hp => ?_, fun i hi => ?_⟩
    · obtain rfl : h.peer = p := Option.some.inj (hown.symm.trans hp)
      rw [h4]
      simp [Tables.Installed, Tables.arm, Tables.setSlot, Tables.setPeer]
    · rw [h4]
      exact (hI1.links.index i o).mpr hi
  change Steps now .establish w1.tables (w4.tables.retire e.sessions.previous) at hcomplete
  rw [← h5, h1] at hcomplete
  have hI5 := hcomplete.inv hI
  have hown5 : OwnSession h.peer s w5.tables := by
    intro sess' hsess'
    rw [h5] at hsess'
    have hsess' := retire_slot hsess'
    rw [h4] at hsess'
    change update w1.tables.slot s (Slot.established sess) s = Slot.established sess' at hsess'
    rw [update_self] at hsess'
    cases hsess'
    exact hopened.peer
  rw [wp_bind]
  refine wp_mono (flushHandshake_spec hI5 hown5 now _) fun sent w6 h6 => ?_
  have h6' := hcomplete.trans (h6.widen (by decide))
  split
  · refine wp_ignore.mpr (wpx_mono (encryptAndSend_spec (h6.inv hI5) (hown5.steps h6 (by decide)) []
      now) ?_)
    rintro _ w7 ⟨h7, -⟩
    exact h6'.trans (h7.widen (by decide))
  · exact wp_pure.mpr h6'

omit [RngCore R] in
theorem matchResponse_some {c : Core cap R P} {data : List UInt8} {s : Nat} {h : Initiating}
    {keys : Noise.TransportKeys} {remoteIndex : UInt32}
    (hm : c.matchResponse data = some (s, h, keys, remoteIndex)) :
    c.slot s = some (.initiating h) := by
  simp only [Core.matchResponse, Option.bind_eq_bind, Option.bind_eq_some_iff] at hm
  obtain ⟨receiver, -, s', -, hm⟩ := hm
  split at hm
  · rename_i h' hslot
    obtain ⟨⟨keys', remote'⟩, -, hm⟩ := Option.bind_eq_some_iff.mp hm
    cases hm
    exact hslot
  · cases hm

theorem rxResponse_spec (hI : w.tables.Inv) (now : Nat) (src : SocketAddr) (data : List UInt8) :
    wp (rxResponse now src data) (fun _ w' => Steps now .establish w.tables w'.tables) w := by
  unfold rxResponse
  simp only [wp_bind, wp_getCore]
  split
  · exact wp_pure.mpr (Steps.refl _)
  rw [wp_bind]
  refine wp_mono (admitHandshake_spec now src data _) fun admitted w1 h1 => ?_
  split
  · exact wp_pure.mpr (Steps.of_eq h1)
  simp only [wp_bind, wp_getCore]
  split
  · exact wp_pure.mpr (Steps.of_eq h1)
  · rename_i s h keys remoteIndex hmatch
    refine wp_mono (completeHandshake_spec (h1 ▸ hI) (tables_slot (matchResponse_some hmatch)) keys
      remoteIndex src now) fun _ w2 h2 => ?_
    rw [h1] at h2
    exact h2

omit [RngCore R] in
theorem rxCookieReply_spec (now : Nat) (data : List UInt8) :
    wp (rxCookieReply now data : CoreM cap R P Unit) (fun _ w' => w'.tables = w.tables) w := by
  unfold rxCookieReply
  rw [wp_modifyCore]
  split
  · exact tables_modifyPeer_same fun e => rfl
  · rfl

/-! ### Transport data -/

omit [RngCore R] in
theorem openData_some {c : Core cap R P} {isRelay : Bool} {data plaintext : List UInt8}
    {s counter : Nat} {sess : Session cap.replayWords}
    (h : c.openData isRelay now data = some (s, sess, counter, plaintext)) :
    c.session s = some sess ∧ counter < rejectAfterMessages ∧
      saturatingSince now sess.created < rejectAfterTime ∧
      (∃ receiver, (slice data Messages.Data.receiver).bind readU32Le = some receiver ∧
        c.slotForSessionIndex receiver = some s) ∧
      (slice data Messages.Data.counter).bind readU64Le = some counter ∧
      ∃ ciphertext, slice data ⟨Messages.Data.packetStart, data.length⟩ = some ciphertext ∧
        aeadOpen sess.tRecv counter ciphertext (receiveAd isRelay) = .ok plaintext := by
  simp only [Core.openData, Option.bind_eq_bind, Option.bind_eq_some_iff] at h
  obtain ⟨receiver, hreceiver, s', hs', counter', hcounter, h⟩ := h
  split at h
  · cases h
  rename_i hlimit
  obtain ⟨sess', hsess', h⟩ := Option.bind_eq_some_iff.mp h
  split at h
  · cases h
  rename_i hage
  obtain ⟨ciphertext, hct, h⟩ := Option.bind_eq_some_iff.mp h
  obtain ⟨plaintext', hopen, h⟩ := Option.bind_eq_some_iff.mp h
  cases h
  refine ⟨hsess', Nat.lt_of_not_le hlimit, Nat.lt_of_not_le hage,
    ⟨receiver, Option.bind_eq_some_iff.mpr hreceiver, hs'⟩, Option.bind_eq_some_iff.mpr hcounter,
    ciphertext, hct, ?_⟩
  cases hr : aeadOpen sess.tRecv counter ciphertext (receiveAd isRelay) with
  | error e =>
    rw [hr] at hopen
    cases hopen
  | ok p =>
    rw [hr] at hopen
    rw [Option.some.inj hopen]

/-- The member after a datagram was received from it. -/
def receivedMember (isKeepalive : Bool) (now : Nat) (m : Member) : Member :=
  { m with sessions := { m.sessions with
    replyDue := none
    persistentKeepaliveDue := m.interval.map (saturatingAdd now)
    keepaliveDue := if isKeepalive then m.sessions.keepaliveDue
      else some (saturatingAdd now keepaliveTimeout) } }

/-- The keepalive deadline that a datagram sets. -/
def passiveDeadline (isKeepalive : Bool) (now : Nat) : Option Nat :=
  if isKeepalive then none else some (saturatingAdd now keepaliveTimeout)

omit [RngCore R] in
theorem steps_received {t : Tables cap} {p : Nat} {m : Member} (hp : t.peer p = some m)
    (hinterval : m.interval ≠ some 0) (isKeepalive : Bool) :
    Steps now .quiet t (((t.setPeer p (receivedMember isKeepalive now m)).armSome
      (passiveDeadline isKeepalive now)).armSome (m.interval.map (saturatingAdd now))) := by
  generalize hpk : m.interval.map (saturatingAdd now) = pk
  generalize hka : passiveDeadline isKeepalive now = ka
  have harm : Steps now .quiet t ((t.armSome ka).armSome pk) :=
    (steps_armSome t ka).trans (steps_armSome _ pk)
  have hp' : ((t.armSome ka).armSome pk).peer p = some m := by
    cases ka <;> cases pk <;> exact hp
  have hpersistent : ((t.armSome ka).armSome pk).Reset now m.sessions.persistentKeepaliveDue
      pk := by
    refine reset_armSome fun x hx hn _ => ?_
    rw [hx] at hpk
    obtain ⟨interval, hi, rfl⟩ := Option.map_eq_some_iff.mp hpk
    refine lt_saturatingAdd_of_lt (Nat.pos_of_ne_zero ?_) hn
    rintro rfl
    exact hinterval hi
  have hkeepalive : ((t.armSome ka).armSome pk).Reset now m.sessions.keepaliveDue
      (if isKeepalive then m.sessions.keepaliveDue
        else some (saturatingAdd now keepaliveTimeout)) := by
    cases isKeepalive with
    | true => exact Or.inl rfl
    | false =>
      rw [← hka]
      have hreset : (t.armSome (passiveDeadline false now)).Reset now m.sessions.keepaliveDue
          (passiveDeadline false now) := by
        refine reset_armSome fun x hx hn _ => ?_
        rw [← Option.some.inj hx]
        exact lt_saturatingAdd_of_lt (by decide) hn
      exact hreset.armSome
  have hreply : ((t.armSome ka).armSome pk).Reset now m.sessions.replyDue none :=
    Or.inr (by rintro _ ⟨⟩)
  have hkeep : pk.isSome = m.interval.isSome := by rw [← hpk, Option.isSome_map]
  refine harm.trans ?_
  convert (Step.timers hp' hkeepalive hpersistent hreply (Or.inr hkeep)).steps using 1
  rw [receivedMember, hpk]
  cases ka <;> cases pk <;> rfl

omit [Crypto] [RngCore R] in
theorem notePeerReceive_spec {p : Nat} {e : PeerEntry} (he : w.core.peer p = some e) (len : Nat)
    (isKeepalive : Bool) (now : Nat) :
    wp (notePeerReceive p len isKeepalive now : CoreM cap R P Unit) (fun _ w' =>
      w'.tables = ((w.tables.setPeer p (receivedMember isKeepalive now e.member)).armSome
        (passiveDeadline isKeepalive now)).armSome (e.member.interval.map (saturatingAdd now)))
          w := by
  unfold notePeerReceive
  rw [wp_modifyCore]
  simp only [he]
  rw [tables_armSome]
  cases isKeepalive with
  | true =>
    simp only [if_true]
    rw [tables_setPeer (Core.lt_of_peer he)]
    rfl
  | false =>
    simp only [Bool.false_eq_true, if_false]
    rw [tables_arm, tables_setPeer (Core.lt_of_peer he)]
    rfl

omit [RngCore R] in
/-- The unconfirmed session of a peer is confirmed, and the session before the last goes. -/
theorem steps_confirm {t : Tables cap} (hl : t.Links) {p s : Nat} {m : Member}
    {sess : Session cap.replayWords} (hp : t.peer p = some m) (hs : t.slot s = .established sess)
    (hn : m.sessions.next = some s) :
    Steps now .quiet t (((t.setPeer p { m with
      sessions := { m.sessions with
        next := none
        previous := m.sessions.current
        current := some s } }).setSlot s (.established { sess with confirmed := true })).retire
        m.sessions.previous) := by
  cases ho : m.sessions.previous with
  | none => exact (Step.confirm hp hs hn ho).steps
  | some o =>
    obtain ⟨hown, -, hother⟩ := Links.previous_slot hl hp ho
    have hos : o ≠ s := hother ((hl.linked p m hp s .next).mp hn) (by simp)
    have hp' : (t.clear o).peer p = some { m with
        sessions := { m.sessions with previous := none } } := by
      show (if (t.slot o).owner = some p then _ else _) = _
      rw [if_pos hown, hp, Option.map_some, Member.unlink, hl.unlink_previous hp ho]
    have hs' : (t.clear o).slot s = .established sess := by
      show update t.slot o .free s = _
      rw [update_of_ne (Ne.symm hos)]
      exact hs
    have hunlink : Member.unlink { m with sessions := { m.sessions with
        next := none
        previous := m.sessions.current
        current := some s } } o = { m with sessions := { m.sessions with
          next := none
          previous := m.sessions.current
          current := some s } } :=
      Links.rotated_unlink hl hp ho hos rfl rfl (Or.inl rfl) (Or.inr rfl)
    refine (Step.clear o).steps.trans ?_
    convert (Step.confirm hp' hs' hn rfl).steps using 1
    show ((t.setPeer p _).setSlot s _).clear o = _
    rw [clear_setSlot (Ne.symm hos), clear_setPeer hown hunlink]
    rfl

omit [Crypto] [RngCore R] in
theorem retire_setPeer {t : Tables cap} {old : Option Nat} {p : Nat} {m : Member} {a b : Option Nat}
    (h : ∀ o, old = some o → (t.slot o).owner = some p ∧ m.unlink o = m) :
    (((t.setPeer p m).armSome a).armSome b).retire old =
      (((t.retire old).setPeer p m).armSome a).armSome b := by
  cases old with
  | none => rfl
  | some o =>
    obtain ⟨hown, hunlink⟩ := h o rfl
    show (((t.setPeer p m).armSome a).armSome b).clear o =
      (((t.clear o).setPeer p m).armSome a).armSome b
    rw [← clear_setPeer hown hunlink]
    cases a <;> cases b <;> rfl

theorem receiveRekey_spec (hI : w.tables.Inv) (p s : Nat) (sess : Session cap.replayWords)
    (now : Nat) :
    wp (receiveRekey p s sess now) (fun _ w' => Steps now .traffic w.tables w'.tables) w := by
  unfold receiveRekey
  split
  · rw [wp_bind, wp_modifyCore]
    have hnote : Steps now .traffic w.tables (w.withCore (w.core.modifySession s fun s =>
        { s with rekeyTriggered := true })).tables := by
      unfold Core.modifySession
      split
      · rename_i sess' hsess'
        have hslot := session_tables.mp hsess'
        have hlt : s < cap.maxSessions := Core.lt_of_slot (slot_of_tables hslot (by simp))
        rw [tables_setSlot hlt]
        exact (Step.noteRekey hslot true).steps.widen (Scope.quiet_le _)
      · exact Steps.refl _
    refine wp_ignore.mpr (wpx_mono (ensureHandshake_spec (hnote.inv hI) p now) fun _ w1 h1 => ?_)
    exact hnote.trans h1
  · exact wp_pure.mpr (Steps.refl _)

omit [Crypto] [RngCore R] in
/-- Confirming the unconfirmed session of a peer; another session stays as it is. -/
theorem confirmSession_spec {p s : Nat} {e : PeerEntry} {sess : Session cap.replayWords}
    (he : w.core.peer p = some e) (hs : w.tables.slot s = .established sess) :
    wpx (confirmSession p s : CoreE cap R P _) (fun r w' =>
      (r = .ok none ∧ w' = w ∧ e.sessions.next ≠ some s) ∨
      (r = .ok e.sessions.previous ∧ e.sessions.next = some s ∧
        w'.tables = (w.tables.setPeer p { e.member with
          sessions := { e.member.sessions with
            next := none
            previous := e.member.sessions.current
            current := some s } }).setSlot s (.established { sess with confirmed := true })))
              w := by
  have hlt : s < cap.maxSessions := Core.lt_of_slot (slot_of_tables hs (by simp))
  unfold confirmSession
  simp only [wpx_bind, wpx_getCore, then_ok, he]
  by_cases hn : e.sessions.next = some s
  · have hany : (some e).any (fun p => decide (p.sessions.next = some s)) = true := by simp [hn]
    rw [if_pos hany]
    have hconfirm : wpx (watch .confirmResponder (confirmResponder p s)) (fun r w' =>
        r = .ok e.sessions.previous ∧ w'.core.session s = some sess ∧
        w'.tables = w.tables.setPeer p { e.member with
          sessions := { e.member.sessions with
            next := none
            previous := e.member.sessions.current
            current := some s } }) w := by
      refine wpx_watch ?_
      unfold confirmResponder
      rw [wpx_tryCore]
      simp only [he, PeerSessions.confirmResponder, hn, ne_eq, not_true_eq_false, if_false,
        PeerSessions.rotateCurrent]
      exact ⟨by simp, trivial, session_tables.mpr hs, tables_setPeer (Core.lt_of_peer he)⟩
    refine wpx_seq hconfirm (by rintro _ _ ⟨h, -⟩; cases h) ?_
    rintro old w1 ⟨hold, hsess, h1⟩
    cases hold
    simp only [wpx_bind, wpx_modifyCore, then_ok, wpx_pure]
    refine Or.inr ⟨trivial, hn, ?_⟩
    simp only [Core.modifySession, hsess]
    rw [tables_setSlot hlt]
    show w1.tables.setSlot s _ = _
    rw [h1]
  · have hany : ¬(some e).any (fun p => decide (p.sessions.next = some s)) = true := by simp [hn]
    rw [if_neg hany, wpx_pure]
    exact Or.inl ⟨rfl, rfl, hn⟩

/-- An authenticated datagram: its session is confirmed and the timers of its peer are set. -/
theorem acceptData_spec (hI : w.tables.Inv) {s : Nat} {sess sess' : Session cap.replayWords}
    (hs : w.tables.slot s = .established sess') (hpeer : sess'.peer = sess.peer) (src : SocketAddr)
    (len : Nat) (isKeepalive : Bool) (now : Nat) :
    wp (acceptData s sess src len isKeepalive now) (fun ok w' => ok = true ∧
      Steps now .traffic w.tables w'.tables) w := by
  have hheld : ∃ k, (w.tables.slot s).holder = some (sess.peer, k) := by
    rw [hs, ← hpeer]
    exact ⟨_, rfl⟩
  obtain ⟨k, hheld⟩ := hheld
  obtain ⟨m, hm⟩ := Option.isSome_iff_exists.mp (hI.links.held s sess.peer k hheld)
  obtain ⟨e, he, rfl⟩ := peer_of_tables hm
  have hinterval := hI.registry.interval sess.peer e.member hm
  unfold acceptData
  simp only [wp_bind, wp_getCore, he, Option.isNone_some, Bool.false_eq_true, if_false, wp_run]
  -- The rest of the program, from tables that the superseded session is still in.
  have hrest : ∀ (old : Option Nat) (w1 : World cap R P) (m1 : Member),
      w1.tables.peer sess.peer = some m1 → m1.interval = e.member.interval →
      (∀ o, old = some o → (w1.tables.slot o).owner = some sess.peer ∧ w1.tables.slot o ≠ .free ∧
        (receivedMember isKeepalive now m1).unlink o = receivedMember isKeepalive now m1 ∧
        ∀ i, (w1.tables.slot o).localIndex = some i → w1.tables.slotFor i = some o) →
      (w1.tables.retire old).peer sess.peer = some m1 →
      Steps now .quiet w.tables (w1.tables.retire old) →
      wp (do
        notePeerReceive sess.peer len isKeepalive now
        observeEndpoint sess.peer src now
        freeSuperseded old
        receiveRekey sess.peer s sess now
        return true) (fun ok w' => ok = true ∧ Steps now .traffic w.tables w'.tables) w1 := by
    intro old w1 m1 hm1 hint hold hretired hsteps
    obtain ⟨e1, he1, rfl⟩ := peer_of_tables hm1
    refine wp_seq (notePeerReceive_spec he1 len isKeepalive now) fun _ w2 h2 => ?_
    refine wp_seq (observeEndpoint_spec sess.peer src now) fun _ w3 h3 => ?_
    have h3' := h3.trans h2
    have hcomm := retire_setPeer (a := passiveDeadline isKeepalive now)
      (b := e1.member.interval.map (saturatingAdd now)) fun o ho =>
        ⟨(hold o ho).1, (hold o ho).2.2.1⟩
    have hslots : w3.tables.slot = w1.tables.slot ∧ w3.tables.slotFor = w1.tables.slotFor := by
      rw [h3']
      generalize passiveDeadline isKeepalive now = a
      generalize e1.member.interval.map (saturatingAdd now) = b
      cases a <;> cases b <;> exact ⟨rfl, rfl⟩
    have hinst : w3.tables.Installed sess.peer := by
      rw [h3']
      generalize passiveDeadline isKeepalive now = a
      generalize e1.member.interval.map (saturatingAdd now) = b
      cases a <;> cases b <;> simp [Tables.Installed, Tables.armSome, Tables.arm, Tables.setPeer]
    refine wp_seq (freeSuperseded_spec fun o ho => ?_) fun _ w4 h4 => ?_
    · obtain ⟨hown, hfree, -, hindexed⟩ := hold o ho
      rw [hslots.1, hslots.2]
      refine ⟨Core.lt_of_slot (slot_of_tables rfl hfree), fun q hq => ?_, hindexed⟩
      obtain rfl : sess.peer = q := Option.some.inj (hown.symm.trans hq)
      exact hinst
    have h4' : Steps now .quiet w.tables w4.tables := by
      rw [h4, h3', hcomm]
      exact hsteps.trans (steps_received hretired (hint ▸ hinterval) isKeepalive)
    refine wp_seq (receiveRekey_spec (h4'.inv hI) sess.peer s sess now) fun _ w5 h5 => ?_
    exact wp_pure.mpr ⟨rfl, (h4'.widen (Scope.quiet_le _)).trans h5⟩
  refine wpx_mono (confirmSession_spec he hs) ?_
  rintro _ w1 (⟨rfl, rfl, -⟩ | ⟨rfl, hn, h1⟩)
  · exact hrest none w1 e.member hm rfl (by rintro _ ⟨⟩) hm (Steps.refl _)
  · have hl := hI.links
    have hm1 : w1.tables.peer sess.peer = some { e.member with
        sessions := { e.member.sessions with
          next := none
          previous := e.member.sessions.current
          current := some s } } := by
      rw [h1]
      exact update_self ..
    have hold : ∀ o, e.sessions.previous = some o → o ≠ s ∧
        (w.tables.slot o).owner = some sess.peer ∧ w.tables.slot o ≠ .free := by
      intro o ho
      obtain ⟨hown, hfree, hother⟩ := Links.previous_slot hl hm ho
      exact ⟨hother ((hl.linked _ _ hm s .next).mp hn) (by simp), hown, hfree⟩
    have hslot : ∀ o, o ≠ s → w1.tables.slot o = w.tables.slot o := by
      intro o ho
      rw [h1]
      exact update_of_ne ho ..
    refine hrest e.sessions.previous w1 _ hm1 rfl (fun o ho => ?_) ?_ ?_
    · obtain ⟨hos, hown, hfree⟩ := hold o ho
      rw [hslot o hos]
      refine ⟨hown, hfree, ?_, fun i hi => ?_⟩
      · exact Links.rotated_unlink hl hm ho hos rfl rfl (Or.inl rfl) (Or.inr rfl)
      · rw [h1]
        exact (hl.index i o).mpr hi
    · cases ho : e.sessions.previous with
      | none => exact hm1
      | some o =>
        obtain ⟨hos, hown, -⟩ := hold o ho
        show (if (w1.tables.slot o).owner = some sess.peer then _ else _) = _
        rw [hslot o hos, if_pos hown, hm1, Option.map_some]
        exact congrArg some (Links.rotated_unlink hl hm ho hos rfl rfl (Or.inl rfl) (Or.inr rfl))
    · rw [h1]
      exact steps_confirm hl hm hs hn

end Microtun
