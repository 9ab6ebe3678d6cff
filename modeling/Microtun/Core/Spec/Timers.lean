import Microtun.Core.Spec.Completion

/-! What a timer does to the tables. -/

namespace Microtun

open Hoare Tables
open Function (update update_self update_of_ne)

variable {cap : Capacities} {R P : Type} {w : World cap R P} {now : Nat}

namespace Core

/-- Does a timer of the slot wait to be handled? -/
def slotDue (now s : Nat) (c : Core cap R P) : Bool :=
  match c.slot s with
  | some (.initiating handshake) =>
    isDue now ((c.peer handshake.peer).bind fun p => p.sessions.attemptDeadline) ||
      decide (handshake.retryAt ≤ now)
  | some (.established session) => decide (rejectAfterTime ≤ saturatingSince now session.created)
  | _ => false

/-- Does a timer of the peer wait to be handled? -/
def peerDue (now p : Nat) (c : Core cap R P) : Bool :=
  (c.peer p).any fun e => isDue now e.sessions.keepaliveDue ||
    isDue now e.sessions.persistentKeepaliveDue || isDue now e.sessions.replyDue

end Core

/-- Of the actions that are due, the first is taken, and no other. -/
theorem firstDue_spec {action : Nat → CoreM cap R P Bool} {due : Nat → Core cap R P → Bool}
    {Q : Nat → World cap R P → Prop} (l : List Nat) (h : ∀ i ∈ l, wp (action i) (fun r w' =>
      r = due i w.core ∧ (r = false → w' = w) ∧ (r = true → Q i w')) w) :
    wp (firstDue action l) (fun r w' => r = l.any (due · w.core) ∧ (r = false → w' = w) ∧
      (r = true → ∃ before i after, l = before ++ i :: after ∧
        (∀ j ∈ before, due j w.core = false) ∧ due i w.core = true ∧ Q i w')) w := by
  induction l with
  | nil => exact wp_pure.mpr ⟨rfl, fun _ => rfl, by rintro ⟨⟩⟩
  | cons i rest ih =>
    rw [firstDue]
    refine wp_seq (h i List.mem_cons_self) ?_
    rintro r w1 ⟨hr, hidle, htaken⟩
    cases r with
    | true =>
      rw [if_pos rfl, wp_pure]
      refine ⟨by simp [← hr], by rintro ⟨⟩, fun _ => ⟨[], i, rest, rfl, ?_, hr.symm, htaken rfl⟩⟩
      rintro _ ⟨⟩
    | false =>
      obtain rfl := hidle rfl
      rw [if_neg (by simp)]
      refine wp_mono (ih fun j hj => h j (List.mem_cons_of_mem i hj)) ?_
      rintro r w2 ⟨hr2, hidle2, htaken2⟩
      refine ⟨by simp [hr2, ← hr], hidle2, fun ht => ?_⟩
      obtain ⟨before, j, after, hsplit, hnone, hj, hQ⟩ := htaken2 ht
      refine ⟨i :: before, j, after, by rw [hsplit]; rfl, ?_, hj, hQ⟩
      intro k hk
      rcases List.mem_cons.mp hk with rfl | hk
      · exact hr.symm
      · exact hnone k hk

variable [Crypto]

omit [Crypto] in
theorem mem_clocks_slot {s : Nat} (hs : s < cap.maxSessions) : Clock.slot s ∈ clocks cap :=
  List.mem_append_right _ (List.mem_map_of_mem (List.mem_range.mpr hs))

omit [Crypto] in
theorem mem_clocks_peer {p : Nat} (hp : p < cap.maxPeers) : Clock.keepalive p ∈ clocks cap ∧
    Clock.persistent p ∈ clocks cap ∧ Clock.reply p ∈ clocks cap ∧
      Clock.attempt p ∈ clocks cap := by
  have hmem := List.mem_range.mpr hp
  refine ⟨?_, ?_, ?_, ?_⟩
  all_goals exact List.mem_append_left _ (List.mem_flatMap.mpr ⟨p, hmem, by simp⟩)

/-- A clock that was due is stopped or set ahead, and nothing comes to be due after that. -/
theorem due_lt {t u t' : Tables cap} {scope scope' : Scope} (h : Steps now scope t u)
    (h' : Steps now scope' u t') {c : Clock} (hc : c ∈ clocks cap)
    (hdue : dueBy now (t.clock c) = true) (hn : now < maxMillis)
    (httl : t.config.negativeTtl ≠ 0) (hdone : dueBy now (u.clock c) = false) :
    t'.due now < t.due now := by
  have hlt := (h.eased hn httl).due_lt_of_clock hc hdue hdone
  have hle := (h'.eased hn (by rw [h.config]; exact httl)).due_le
  exact Nat.lt_of_le_of_lt hle hlt

/-- Less is due, if time is left and negative answers last. -/
def Relieves (now : Nat) (t t' : Tables cap) : Prop :=
  now < maxMillis → t.config.negativeTtl ≠ 0 → t'.due now < t.due now

omit [Crypto] in
theorem clear_attempt {t : Tables cap} (hl : t.Links) {s : Nat} {h : Initiating}
    (hs : t.slot s = .initiating h) : (t.clear s).clock (.attempt h.peer) = none := by
  have hheld : (t.slot s).holder = some (h.peer, .handshake) := by rw [hs]; rfl
  obtain ⟨m, hm⟩ := Option.isSome_iff_exists.mp (hl.held s h.peer .handshake hheld)
  have hlists : m.sessions.handshake = some s := (hl.linked _ m hm s .handshake).mpr hheld
  have howner : (t.slot s).owner = some h.peer := by rw [hs]; rfl
  show ((t.clear s).sessionsOf h.peer).attemptDeadline = none
  have hpeer : (t.clear s).peer h.peer = some (m.unlink s) := by
    simp [Tables.clear, howner, hm]
  rw [sessionsOf_some hpeer]
  have hhand : ∀ ps : PeerSessions, ps.handshake = some s →
      (ps.unlink s).attemptDeadline = none := by
    intro ps hps
    unfold PeerSessions.unlink PeerSessions.abortHandshake
    dsimp only
    split_ifs <;> simp_all
  exact hhand m.sessions hlists

omit [Crypto] in
theorem deadline_le_of_old {created lifetime : Nat} (hpos : 0 < lifetime)
    (h : lifetime ≤ saturatingSince now created) : saturatingAdd created lifetime ≤ now := by
  simp only [saturatingSince] at h
  simp only [saturatingAdd]
  omega

variable [RngCore R]

theorem slotTimer_spec (hI : w.tables.Inv) {s : Nat} (hs : s < cap.maxSessions) :
    wp (slotTimer now s : CoreM cap R P Bool) (fun r w' => r = w.core.slotDue now s ∧
      (r = false → w' = w) ∧ (r = true → Steps now .traffic w.tables w'.tables ∧
        Relieves now w.tables w'.tables)) w := by
  unfold slotTimer
  simp only [wp_bind, wp_getCore]
  obtain ⟨x, hx⟩ := Core.slot_of_lt (c := w.core) hs
  have hslot := tables_slot hx
  rw [Core.slotDue, hx]
  cases x with
  | free => exact wp_pure.mpr ⟨rfl, fun _ => rfl, by rintro ⟨⟩⟩
  | initiating h =>
    dsimp only
    have hheld : (w.tables.slot s).holder = some (h.peer, .handshake) := by rw [hslot]; rfl
    obtain ⟨e, he⟩ := peer_of_installed (hI.links.held s h.peer .handshake hheld)
    by_cases hattempt : Core.isDue now ((w.core.peer h.peer).bind fun p =>
      p.sessions.attemptDeadline)
        = true
    · simp only [hattempt, if_true, Bool.true_or, wp_bind, wp_ignore]
      refine wpx_mono (freeSlot_spec hI hs) ?_
      rintro _ w1 ⟨-, h1⟩
      rw [wp_bind, wp_modifyCore, wp_pure]
      have hclear : Steps now .quiet w.tables w1.tables := by
        rw [h1]
        exact (Step.clear s).steps
      have hdrop : Steps now .quiet w1.tables (World.tables ⟨{ w1.core with
          pending := w1.core.pending.dropIf fun p => decide (p.wait = .handshake h.peer) }, w1.log,
          w1.established⟩) := by
        refine (Step.dropParked (t := w1.tables) ?_).steps
        rw [PendingPool.dropIf_packets]
        exact Multiset.coe_le.mpr List.filter_sublist.subperm
      refine ⟨rfl, by rintro ⟨⟩, fun _ =>
        ⟨(hclear.trans hdrop).widen (by decide), fun hn httl => ?_⟩⟩
      refine due_lt hclear hdrop (mem_clocks_peer (Core.lt_of_peer he)).2.2.2 ?_ hn httl ?_
      · show dueBy now (w.tables.sessionsOf h.peer).attemptDeadline = true
        rw [sessionsOf_some (tables_peer he)]
        rw [he] at hattempt
        exact hattempt
      · rw [h1, clear_attempt hI.links hslot]
        rfl
    · simp only [hattempt, Bool.false_eq_true, if_false, Bool.false_or]
      by_cases hretry : h.retryAt ≤ now
      · simp only [if_pos hretry, wp_bind]
        refine wp_mono (retransmitInitiation_spec hI hslot rfl hretry) ?_
        rintro _ w1 ⟨t, ht, hahead, h1⟩
        rw [wp_pure]
        refine ⟨by simp [hretry], by rintro ⟨⟩, fun _ => ⟨(ht.widen (by decide)).trans h1,
          fun hn httl => ?_⟩⟩
        refine due_lt ht h1 (mem_clocks_slot hs) ?_ hn httl ?_
        · show dueBy now (w.tables.slot s).deadline = true
          rw [hslot]
          simpa [Slot.deadline, dueBy] using hretry
        · show dueBy now (t.slot s).deadline = false
          rcases hahead with hfree | ⟨h', hh', hlater⟩
          · rw [hfree]
            rfl
          · rw [hh']
            simpa [Slot.deadline, dueBy] using hlater hn
      · rw [if_neg hretry, wp_pure]
        exact ⟨by simp [hretry], fun _ => rfl, by rintro ⟨⟩⟩
  | established sess =>
    dsimp only
    by_cases hold : rejectAfterTime ≤ saturatingSince now sess.created
    · simp only [if_pos hold, wp_bind, wp_ignore]
      refine wpx_mono (freeSlot_spec hI hs) ?_
      rintro _ w1 ⟨-, h1⟩
      rw [wp_pure]
      have hclear : Steps now .quiet w.tables w1.tables := by
        rw [h1]
        exact (Step.clear s).steps
      refine ⟨by simp [hold], by rintro ⟨⟩, fun _ => ⟨hclear.widen (by decide), fun hn httl => ?_⟩⟩
      refine due_lt hclear (@Steps.refl _ _ .quiet _ _) (mem_clocks_slot hs) ?_ hn httl ?_
      · show dueBy now (w.tables.slot s).deadline = true
        rw [hslot]
        rw [Slot.deadline, dueBy, Option.any_some, decide_eq_true_eq]
        exact deadline_le_of_old (by decide) hold
      · show dueBy now (w1.tables.slot s).deadline = false
        rw [h1, clear_slot]
        rfl
    · rw [if_neg hold, wp_pure]
      exact ⟨by simp [hold], fun _ => rfl, by rintro ⟨⟩⟩

/-! ### Peers -/

/-- Would the persistent keepalive of the peer be stopped by its own timer?  It is due, there is a
session to send it under, and no way to send it. -/
def Core.lapsing (now p : Nat) (c : Core cap R P) : Bool :=
  ((c.peer p).any fun e => !Core.isDue now e.sessions.keepaliveDue &&
    Core.isDue now e.sessions.persistentKeepaliveDue) &&
    (c.usableSession p now).isSome && !c.reachable p now

omit [Crypto] [RngCore R] in
theorem peer_setPeer_self {c : Core cap R P} {p : Nat} {e e' : PeerEntry} (he : c.peer p = some e) :
    (c.setPeer p (some e')).peer p = some e' := by
  simp [Core.peer, Core.setPeer, Core.lt_of_peer he]

omit [Crypto] [RngCore R] in
theorem modifyTimers_spec {p : Nat} {e : PeerEntry} (he : w.core.peer p = some e)
    (f : PeerSessions → PeerSessions) :
    wp (modifyTimers p f : CoreM cap R P Unit) (fun _ w' =>
      w' = ⟨w.core.setPeer p (some { e with sessions := f e.sessions }), w.log, w.established⟩ ∧
      w'.tables = w.tables.setPeer p { e.member with sessions := f e.sessions }) w := by
  unfold modifyTimers
  rw [wp_modifyCore]
  have hcore : w.core.modifyPeer p (fun q => { q with sessions := f q.sessions }) =
      w.core.setPeer p (some { e with sessions := f e.sessions }) := by
    rw [Core.modifyPeer, he]
  rw [hcore]
  exact ⟨rfl, tables_setPeer (Core.lt_of_peer he)⟩

section

variable {c : Core cap R P} {p : Nat} {e : PeerEntry} {f : PeerSessions → PeerSessions}

omit [Crypto] [RngCore R] in
theorem usableSession_setPeer (he : c.peer p = some e)
    (hf : (f e.sessions).current = e.sessions.current) (q : Nat) :
    (c.setPeer p (some { e with sessions := f e.sessions })).usableSession q now =
      c.usableSession q now := by
  unfold Core.usableSession
  by_cases hq : q = p
  · subst hq
    rw [peer_setPeer_self he, he]
    simp only [Option.bind_eq_bind, Option.bind_some, hf]
    rfl
  · rw [peer_setPeer_of_ne hq]
    rfl

omit [Crypto] [RngCore R] in
theorem reachable_setPeer (he : c.peer p = some e)
    (hf : (f e.sessions).current = e.sessions.current) :
    (c.setPeer p (some { e with sessions := f e.sessions })).reachable p now =
      c.reachable p now := by
  have hready : ∀ key, (c.setPeer p (some { e with sessions := f e.sessions })).relayReady key now =
      c.relayReady key now := by
    intro key
    unfold Core.relayReady
    show (c.findPeer key).any _ = (c.findPeer key).any _
    congr 1
    funext rp
    rw [usableSession_setPeer he hf]
    by_cases hrp : rp = p
    · subst hrp
      rw [peer_setPeer_self he, he]
      rfl
    · rw [peer_setPeer_of_ne hrp]
  unfold Core.reachable
  rw [peer_setPeer_self he, he]
  simp only [Option.any_some, hready]

end

/-- A keepalive under the current session of a peer whose timers were changed. -/
theorem sendKeepalive_spec {p s : Nat} {e : PeerEntry} (he : w.core.peer p = some e)
    {f : PeerSessions → PeerSessions} (hf : (f e.sessions).current = e.sessions.current)
    (hI : w.tables.Inv) {w1 : World cap R P} (hw1 : w1 = ⟨w.core.setPeer p
      (some { e with sessions := f e.sessions }), w.log, w.established⟩)
    {scope : Scope} (h1 : Steps now scope w.tables w1.tables) (hk : scope.rank ≤ 2)
    (hu : w.core.usableSession p now = some s) :
    wpx (encryptAndSend p s [] now : CoreE cap R P Unit) (fun _ w' =>
      Steps now .flow w1.tables w'.tables ∧
      (Crypto.SealsDatagrams → w.core.reachable p now = true → w'.tables.Kept p)) w1 := by
  have hown := (usableSession_own hI hu).steps h1 hk
  refine wpx_mono (encryptAndSend_spec (h1.inv hI) hown [] now) ?_
  rintro _ w2 ⟨h2, hkept⟩
  refine ⟨h2, fun hlaw hreach => hkept hlaw rfl ⟨by decide, ?_, ?_⟩ ?_⟩
  · rw [hw1, peer_setPeer_self he]
    rfl
  · obtain ⟨-, sess, -, -, hsess, hcan⟩ := usableSession_some hu
    refine ⟨sess, ?_, hcan⟩
    rw [hw1]
    exact hsess
  · rw [hw1, reachable_setPeer he hf]
    exact hreach

/-- The timer of a peer.  Its persistent keepalive is stopped only if it cannot be sent. -/
structure PeerFired (now p : Nat) (w w' : World cap R P) : Prop where
  steps : Steps now { rank := 2, lapses := some p } w.tables w'.tables
  relieves : Relieves now w.tables w'.tables
  kept : Crypto.SealsDatagrams → w.core.lapsing now p = false → w.tables.Kept p → w'.tables.Kept p

theorem keepaliveTimer_spec (hI : w.tables.Inv) {p : Nat} {e : PeerEntry}
    (he : w.core.peer p = some e) (hdue : Core.isDue now e.sessions.keepaliveDue = true) :
    wp (do
      modifyTimers p fun s => { s with keepaliveDue := none }
      match w.core.usableSession p now with
      | some sidx => ignore (encryptAndSend p sidx [] now)
      | none => pure ()
      return true : CoreM cap R P Bool) (fun r w' => r = true ∧ PeerFired now p w w') w := by
  refine wp_seq (modifyTimers_spec he _) ?_
  rintro _ w1 ⟨hw1, h1⟩
  have hstep : Steps now .quiet w.tables w1.tables := by
    rw [h1]
    exact (Step.timers (tables_peer he) (Reset.none _ _) (Reset.refl _ _) (Reset.refl _ _)
      (Or.inl rfl)).steps
  have hfired : ∀ w' : World cap R P, Steps now .flow w1.tables w'.tables →
      PeerFired now p w w' := by
    intro w' h2
    have hall : Steps now .flow w.tables w'.tables := (hstep.widen (by decide)).trans h2
    refine ⟨hall.widen ?_, fun hn httl => ?_, fun _ _ hk => hall.kept (by rintro ⟨⟩) hk⟩
    · exact ⟨Nat.le_refl _, id, Or.inl rfl, id, id, Or.inl rfl, id⟩
    · refine due_lt hstep h2 (mem_clocks_peer (Core.lt_of_peer he)).1 ?_ hn httl ?_
      · show dueBy now (w.tables.sessionsOf p).keepaliveDue = true
        rw [sessionsOf_some (tables_peer he)]
        exact hdue
      · show dueBy now (w1.tables.sessionsOf p).keepaliveDue = false
        rw [h1, sessionsOf_some (update_self ..)]
        rfl
  cases hu : w.core.usableSession p now with
  | some s =>
    dsimp only
    rw [wp_bind, wp_ignore]
    refine wpx_mono (sendKeepalive_spec (f := fun s => { s with keepaliveDue := none }) he rfl hI
      hw1
      hstep (by decide) hu) ?_
    rintro _ w2 ⟨h2, -⟩
    exact wp_pure.mpr ⟨rfl, hfired w2 h2⟩
  | none => exact wp_pure.mpr ⟨rfl, hfired w1 (Steps.refl _)⟩

theorem replyTimer_spec (hI : w.tables.Inv) {p : Nat} {e : PeerEntry}
    (he : w.core.peer p = some e) (hdue : Core.isDue now e.sessions.replyDue = true) :
    wp (do
      modifyTimers p fun s => { s with replyDue := none }
      ignore (ensureHandshake p now)
      return true : CoreM cap R P Bool) (fun r w' => r = true ∧ PeerFired now p w w') w := by
  refine wp_seq (modifyTimers_spec he _) ?_
  rintro _ w1 ⟨hw1, h1⟩
  have hstep : Steps now .quiet w.tables w1.tables := by
    rw [h1]
    exact (Step.timers (tables_peer he) (Reset.refl _ _) (Reset.refl _ _) (Reset.none _ _)
      (Or.inl rfl)).steps
  rw [wp_bind, wp_ignore]
  refine wpx_mono (ensureHandshake_spec (hstep.inv hI) p now) fun _ w2 h2 => ?_
  have hall : Steps now .traffic w.tables w2.tables := (hstep.widen (by decide)).trans h2
  refine wp_pure.mpr ⟨rfl, hall.widen ?_, fun hn httl => ?_, fun _ _ hk =>
    hall.kept (by rintro ⟨⟩) hk⟩
  · exact ⟨Nat.le_succ 1, id, Or.inl rfl, id, id, Or.inl rfl, id⟩
  · refine due_lt hstep h2 (mem_clocks_peer (Core.lt_of_peer he)).2.2.1 ?_ hn httl ?_
    · show dueBy now (w.tables.sessionsOf p).replyDue = true
      rw [sessionsOf_some (tables_peer he)]
      exact hdue
    · show dueBy now (w1.tables.sessionsOf p).replyDue = false
      rw [h1, sessionsOf_some (update_self ..)]
      rfl

omit [Crypto] [RngCore R] in
theorem peer_frame {w' : World cap R P} {t : Tables cap} (h : Frame t w'.tables) {p : Nat}
    {m : Member} (hm : t.peer p = some m) :
    ∃ e, w'.core.peer p = some e ∧ e.persistentKeepalive = m.interval := by
  have hid := h.identity p
  rw [hm] at hid
  cases he : w'.core.peer p with
  | none =>
    rw [tables_peer_none he] at hid
    cases hid
  | some e =>
    rw [tables_peer he] at hid
    exact ⟨e, rfl, congrArg Identity.interval (Option.some.inj hid)⟩

theorem steps_rearm {t : Tables cap} (hr : t.Registry) {p : Nat} {m : Member} {interval : Nat}
    (hm : t.peer p = some m) (hi : m.interval = some interval) :
    Steps now .quiet t ((t.setPeer p { m with sessions := { m.sessions with
      persistentKeepaliveDue := some (saturatingAdd now interval) } }).arm
        (saturatingAdd now interval)) := by
  have hpos : 0 < interval := by
    refine Nat.pos_of_ne_zero fun h0 => hr.interval p m hm ?_
    rw [hi, h0]
  have hahead : (t.arm (saturatingAdd now interval)).Ahead now (saturatingAdd now interval) :=
    ahead_arm fun hn _ => lt_saturatingAdd_of_lt hpos hn
  have harm : Steps now .quiet t (t.arm (saturatingAdd now interval)) := (Step.arm _).steps
  have hset := Step.timers (t := t.arm (saturatingAdd now interval)) (m := m)
    hm (Reset.refl _ _)
    (Or.inr fun d hd => by rw [← Option.some.inj hd]; exact hahead) (Reset.refl _ _)
    (Or.inr (by rw [hi]; rfl))
  exact harm.trans hset.steps

theorem persistentTimer_spec (hI : w.tables.Inv) {p : Nat} {e : PeerEntry}
    (he : w.core.peer p = some e) (hnot : Core.isDue now e.sessions.keepaliveDue = false)
    (hdue : Core.isDue now e.sessions.persistentKeepaliveDue = true) :
    wp (do
      modifyTimers p fun s => { s with persistentKeepaliveDue := none }
      match w.core.usableSession p now with
      | some sidx => ignore (encryptAndSend p sidx [] now)
      | none =>
        ignore (ensureHandshake p now)
        match e.persistentKeepalive with
        | some interval =>
          let deadline := saturatingAdd now interval
          modifyTimers p fun s => { s with persistentKeepaliveDue := some deadline }
          modifyCore fun c => c.arm deadline
        | none => pure ()
      return true : CoreM cap R P Bool) (fun r w' => r = true ∧ PeerFired now p w w') w := by
  refine wp_seq (modifyTimers_spec he _) ?_
  rintro _ w1 ⟨hw1, h1⟩
  have hstep : Steps now { lapses := some p } w.tables w1.tables := by
    rw [h1]
    exact (Step.lapse (tables_peer he)).steps
  have hrelief : ∀ w' : World cap R P, Steps now .flow w1.tables w'.tables →
      Steps now { rank := 2, lapses := some p } w.tables w'.tables ∧
        Relieves now w.tables w'.tables := by
    intro w' h2
    have hfirst : Steps now { rank := 2, lapses := some p } w.tables w1.tables :=
      hstep.widen ⟨Nat.zero_le _, id, Or.inl rfl, id, id, Or.inr rfl, id⟩
    have hthen : Steps now { rank := 2, lapses := some p } w1.tables w'.tables :=
      h2.widen ⟨Nat.le_refl _, id, Or.inl rfl, id, id, Or.inl rfl, id⟩
    refine ⟨hfirst.trans hthen, fun hn httl => ?_⟩
    refine due_lt hstep h2 (mem_clocks_peer (Core.lt_of_peer he)).2.1 ?_ hn httl ?_
    · show dueBy now (w.tables.sessionsOf p).persistentKeepaliveDue = true
      rw [sessionsOf_some (tables_peer he)]
      exact hdue
    · show dueBy now (w1.tables.sessionsOf p).persistentKeepaliveDue = false
      rw [h1, sessionsOf_some (update_self ..)]
      rfl
  cases hu : w.core.usableSession p now with
  | some s =>
    dsimp only
    rw [wp_bind, wp_ignore]
    refine wpx_mono (sendKeepalive_spec (f := fun s => { s with persistentKeepaliveDue := none }) he
      rfl hI hw1 hstep (Nat.zero_le 2) hu) ?_
    rintro _ w2 ⟨h2, hkept⟩
    refine wp_pure.mpr ⟨rfl, (hrelief w2 h2).1, (hrelief w2 h2).2, fun hlaw hlapse _ =>
      hkept hlaw ?_⟩
    · simpa [Core.lapsing, he, hnot, hdue, hu] using hlapse
  | none =>
    dsimp only
    rw [wp_bind, wp_ignore]
    refine wpx_mono (ensureHandshake_spec (hstep.inv hI) p now) fun _ w2 h2 => ?_
    have hpeer1 : w1.tables.peer p = some { e.member with
        sessions := { e.sessions with persistentKeepaliveDue := none } } := by
      rw [h1]
      exact update_self ..
    obtain ⟨e2, he2, hinterval⟩ := peer_frame (h2.frame (Nat.le_refl 1)) hpeer1
    have h2' : Steps now .flow w1.tables w2.tables := h2.widen (by decide)
    cases hi : e.persistentKeepalive with
    | none =>
      refine wp_pure.mpr ⟨rfl, (hrelief w2 h2').1, (hrelief w2 h2').2, fun _ _ _ => ?_⟩
      refine h2.kept (by rintro ⟨⟩) fun m hm => ?_
      rw [hpeer1] at hm
      obtain rfl := Option.some.inj hm
      show none.isSome = e.persistentKeepalive.isSome
      rw [hi]
    | some interval =>
      refine wp_seq (modifyTimers_spec he2 _) ?_
      rintro _ w3 ⟨-, h3⟩
      rw [wp_bind, wp_modifyCore, wp_pure]
      have harm : Steps now .quiet w2.tables (w3.tables.arm (saturatingAdd now interval)) := by
        rw [h3]
        exact steps_rearm (h2.inv (hstep.inv hI)).registry (tables_peer he2) (hinterval.trans hi)
      have hall := hrelief ⟨w3.core.arm (saturatingAdd now interval), w3.log, w3.established⟩
        (h2'.trans (harm.widen (by decide)))
      refine ⟨rfl, hall.1, hall.2, fun _ _ _ m hm => ?_⟩
      have hpeer3 : w3.tables.peer p = some m := hm
      rw [h3] at hpeer3
      have hm3 := (update_self p _ _).symm.trans hpeer3
      obtain rfl := Option.some.inj hm3
      show (some (saturatingAdd now interval)).isSome = e2.persistentKeepalive.isSome
      rw [hinterval]
      show true = e.persistentKeepalive.isSome
      rw [hi]
      rfl

/-- The timer of a peer that has one, the first of the three that is due. -/
theorem peerTimer_spec (hI : w.tables.Inv) (p : Nat) :
    wp (peerTimer now p : CoreM cap R P Bool) (fun r w' => r = w.core.peerDue now p ∧
      (r = false → w' = w) ∧ (r = true → PeerFired now p w w')) w := by
  unfold peerTimer
  simp only [wp_bind, wp_getCore]
  cases he : w.core.peer p with
  | none => exact wp_pure.mpr ⟨by rw [Core.peerDue, he]; rfl, fun _ => rfl, by rintro ⟨⟩⟩
  | some e =>
    have hdue : w.core.peerDue now p = (Core.isDue now e.sessions.keepaliveDue ||
        Core.isDue now e.sessions.persistentKeepaliveDue ||
          Core.isDue now e.sessions.replyDue) := by
      rw [Core.peerDue, he]
      rfl
    have hfired : ∀ r (w' : World cap R P), w.core.peerDue now p = true →
        r = true ∧ PeerFired now p w w' → r = w.core.peerDue now p ∧
          (r = false → w' = w) ∧ (r = true → PeerFired now p w w') := by
      rintro _ w' hp ⟨rfl, hw'⟩
      exact ⟨hp.symm, by rintro ⟨⟩, fun _ => hw'⟩
    dsimp only
    by_cases hk : Core.isDue now e.sessions.keepaliveDue = true
    · rw [if_pos hk]
      refine wp_mono (keepaliveTimer_spec hI he hk) fun r w' h => hfired r w' ?_ h
      rw [hdue, hk]
      rfl
    rw [if_neg hk]
    rw [Bool.not_eq_true] at hk
    by_cases hp : Core.isDue now e.sessions.persistentKeepaliveDue = true
    · rw [if_pos hp]
      refine wp_mono (persistentTimer_spec hI he hk hp) fun r w' h => hfired r w' ?_ h
      rw [hdue, hk, hp]
      rfl
    rw [if_neg hp]
    rw [Bool.not_eq_true] at hp
    by_cases hr : Core.isDue now e.sessions.replyDue = true
    · rw [if_pos hr]
      refine wp_mono (replyTimer_spec hI he hr) fun r w' h => hfired r w' ?_ h
      rw [hdue, hk, hp, hr]
      rfl
    · rw [if_neg hr, wp_pure]
      rw [Bool.not_eq_true] at hr
      exact ⟨by rw [hdue, hk, hp, hr]; rfl, fun _ => rfl, by rintro ⟨⟩⟩

/-! ### One action -/

namespace Core

/-- Does anything but a peer wait to be handled? -/
def jobDue (now : Nat) (c : Core cap R P) : Bool :=
  (c.pending.packets.any fun p => p.deadline ≤ now) || (c.resolves.any fun r => r.deadline ≤ now) ||
    (c.pendingReconciles.any fun o => o.due ≤ now) ||
    (List.range cap.maxSessions).any fun s => c.slotDue now s

/-- The peer whose timer is handled next. -/
def firing (now : Nat) (c : Core cap R P) : Option Nat :=
  if c.jobDue now then none else (List.range cap.maxPeers).find? fun p => c.peerDue now p

/-- Does anything wait to be handled? -/
def anyDue (now : Nat) (c : Core cap R P) : Bool :=
  c.jobDue now || (List.range cap.maxPeers).any fun p => c.peerDue now p

/-- Does the next timer action stop a persistent keepalive? -/
def silences (now : Nat) (c : Core cap R P) : Bool := (c.firing now).any fun p => c.lapsing now p

end Core

/-- A timer action.  What is owed to a peer lapses with the peer, or if there is no room for it. -/
structure Fired (now : Nat) (w w' : World cap R P) : Prop where
  steps : ∃ answers lapses, Steps now { rank := 2, desk := true, answers, lapses } w.tables
    w'.tables ∧
    ∀ key, answers = some key → w.core.findPeer key = none ∨ (w.core.canOwe key = false ∧
      ∃ r ∈ w.core.resolves, r.kind = .reconcile ∧ r.query = .byPublicKey key ∧ r.deadline ≤ now)
  relieves : Relieves now w.tables w'.tables
  kept : Crypto.SealsDatagrams → w.core.silences now = false →
    ∀ p, w.tables.Kept p → w'.tables.Kept p

omit [RngCore R] in
theorem Tables.Consumes.relieves {t t' : Tables cap} {scope : Scope}
    (h : Tables.Consumes now scope t t') : Relieves now t t' := by
  intro hn httl
  obtain ⟨u, d, hd, hdeadlines, hpeer, hslot, hu⟩ := h.due
  have hclock : ∀ c, u.clock c = t.clock c := by
    intro c
    cases c with
    | slot s => exact congrArg (fun f => (f s).deadline) hslot
    | _ => simp only [clock, sessionsOf, hpeer]
  have hcount := Multiset.countP_le_of_le (fun x => x ≤ now) hdeadlines
  rw [Multiset.countP_cons_of_pos (p := fun x => x ≤ now) _ hd] at hcount
  have hlt : u.due now < t.due now := by
    unfold Tables.due
    simp only [hclock]
    exact Nat.add_lt_add_left hcount _
  have hconfig : u.config = t.config := hu.config.symm.trans h.steps.config
  have hle := (hu.eased hn (by rw [hconfig]; exact httl)).due_le
  exact Nat.lt_of_le_of_lt hle hlt

omit [RngCore R] in
theorem Fired.of_job {w' : World cap R P} {answers : Option Key}
    (h : Steps now { rank := 2, desk := true, answers } w.tables w'.tables)
    (hwhy : ∀ key, answers = some key → w.core.findPeer key = none ∨ (w.core.canOwe key = false ∧
      ∃ r ∈ w.core.resolves, r.kind = .reconcile ∧ r.query = .byPublicKey key ∧ r.deadline ≤ now))
    (hrel : Relieves now w.tables w'.tables) : Fired now w w' :=
  ⟨⟨answers, none, h, hwhy⟩, hrel, fun _ _ _ hk => h.kept (by rintro ⟨⟩) hk⟩

omit [RngCore R] in
theorem Fired.of_consumes {w' : World cap R P} {answers : Option Key}
    (h : Tables.Consumes now { desk := true, answers } w.tables w'.tables)
    (hwhy : ∀ key, answers = some key → w.core.findPeer key = none ∨ (w.core.canOwe key = false ∧
      ∃ r ∈ w.core.resolves, r.kind = .reconcile ∧ r.query = .byPublicKey key ∧ r.deadline ≤ now)) :
    Fired now w w' :=
  .of_job (h.steps.widen ⟨Nat.zero_le _, id, Or.inr rfl, id, id, Or.inl rfl, id⟩) hwhy h.relieves

omit [RngCore R] in
theorem Fired.of_peer {w' : World cap R P} {p : Nat} (h : PeerFired now p w w')
    (hfiring : w.core.firing now = some p) : Fired now w w' := by
  refine ⟨⟨none, some p, ?_, by rintro _ ⟨⟩⟩, h.relieves, fun hlaw hsil q hq => ?_⟩
  · exact h.steps.widen ⟨Nat.le_refl _, by rintro ⟨⟩, Or.inl rfl, id, id, Or.inr rfl, id⟩
  · by_cases hqp : q = p
    · subst hqp
      refine h.kept hlaw ?_ hq
      simpa [Core.silences, hfiring] using hsil
    · exact h.steps.kept (fun hp => hqp (Option.some.inj hp).symm) hq

omit [RngCore R] in
theorem Fired.of_packet {w' : World cap R P} {q : PendingPacket} {rest : Multiset PendingPacket}
    (hparked : w.tables.parked = q ::ₘ rest) (hdue : q.deadline ≤ now)
    (hw' : w'.tables = w.tables.withParked rest) : Fired now w w' := by
  have hle : rest ≤ w.tables.parked := hparked ▸ Multiset.le_cons_self _ _
  have hstep : Steps now .quiet w.tables w'.tables := by
    rw [hw']
    exact (Step.dropParked hle).steps
  refine @Fired.of_job _ _ _ _ _ _ _ none (hstep.widen (Scope.quiet_le _))
    (by rintro _ ⟨⟩) fun hn httl => ?_
  refine (hstep.eased hn httl).due_lt_of_deadline ?_
  rw [hw']
  simp only [deadlines, hparked, Tables.withParked, Multiset.map_cons, Multiset.countP_add,
    Multiset.countP_cons_of_pos (p := fun x => x ≤ now) _ hdue]
  omega

/-- An action says whether there was something to do, and does nothing if not. -/
def Handles (now : Nat) (due : Bool) (w : World cap R P) (r : Bool) (w' : World cap R P) : Prop :=
  r = due ∧ (r = false → w' = w) ∧ (r = true → Fired now w w')

omit [RngCore R] in
/-- The second action is tried if there was nothing to do for the first. -/
theorem wp_orElse {a b : CoreM cap R P Bool} {due due' : Bool}
    (ha : wp a (Handles now due w) w) (hb : due = false → wp b (Handles now due' w) w) :
    wp (do if ← a then return true else b) (Handles now (due || due') w) w := by
  refine wp_seq ha ?_
  rintro r w1 ⟨rfl, hidle, htaken⟩
  cases r with
  | true =>
    rw [if_pos rfl, wp_pure]
    exact ⟨rfl, by rintro ⟨⟩, htaken⟩
  | false =>
    obtain rfl := hidle rfl
    rw [if_neg (by simp), Bool.false_or]
    exact hb rfl

omit [RngCore R] in
theorem expireOne_handles : wp (updateCore fun c => ((c.pending.expireOne now).1,
      { c with pending := (c.pending.expireOne now).2 }) : CoreM cap R P Bool)
    (Handles now (w.core.pending.packets.any fun p => p.deadline ≤ now) w) w := by
  rw [wp_updateCore]
  rcases w.core.pending.expireOne_packets now with ⟨hexp, hparked⟩ | ⟨q, hexp, hdue, hperm⟩
  · simp only [hexp]
    refine ⟨?_, fun _ => rfl, by rintro ⟨⟩⟩
    symm
    simpa using hparked
  · have hrest : w.tables.parked = q ::ₘ (((w.core.pending.expireOne now).2.packets : List _) :
        Multiset PendingPacket) := Multiset.coe_eq_coe.mpr hperm
    refine ⟨?_, by rw [hexp]; rintro ⟨⟩, fun _ => .of_packet hrest hdue rfl⟩
    rw [hexp, eq_comm, List.any_eq_true]
    exact ⟨q, hperm.mem_iff.mpr List.mem_cons_self, by simpa using hdue⟩

omit [RngCore R] in
theorem expireOneResolve_handles (hI : w.tables.Inv) :
    wp (changeLookups (Core.expireOneResolve now) : CoreM cap R P Bool)
      (Handles now (w.core.resolves.any fun r => r.deadline ≤ now) w) w := by
  rw [wp_changeLookups]
  rcases expireOneResolve_spec hI now with ⟨hres, hnone⟩ | ⟨answers, hres, hsteps, hwhy⟩
  · have hclosings : closings w.core.resolves w.core.resolves = [] := closings_nil fun _ hr _ => hr
    simp only [hres, hclosings, List.nil_append]
    refine ⟨?_, fun _ => rfl, by rintro ⟨⟩⟩
    symm
    simpa using hnone
  · refine ⟨?_, by rw [hres]; rintro ⟨⟩, fun _ => .of_consumes hsteps fun key hkey => ?_⟩
    · rw [hres, eq_comm, ← Bool.not_eq_false]
      intro hnone
      have hfind : w.core.resolves.findIdx? (fun r => decide (r.deadline ≤ now)) = none := by
        simpa [List.findIdx?_eq_none_iff] using hnone
      rw [Core.expireOneResolve, hfind] at hres
      cases hres
    · obtain ⟨hgone | hfull, r, hr⟩ := hwhy key hkey
      · exact Or.inl hgone
      · exact Or.inr ⟨hfull, r, hr⟩

omit [RngCore R] in
theorem promoteDueReconcile_handles (hI : w.tables.Inv) :
    wp (updateCore (Core.promoteDueReconcile now) : CoreM cap R P Bool)
      (Handles now (w.core.pendingReconciles.any fun o => o.due ≤ now) w) w := by
  rw [wp_updateCore]
  rcases promoteDueReconcile_spec hI now with ⟨hres, hnone⟩ | ⟨answers, hres, hsteps, hwhy⟩
  · simp only [hres]
    refine ⟨?_, fun _ => rfl, by rintro ⟨⟩⟩
    symm
    simpa using hnone
  · refine ⟨?_, by rw [hres]; rintro ⟨⟩, fun _ => .of_consumes hsteps fun key hkey =>
      Or.inl (hwhy key hkey)⟩
    rw [hres, eq_comm, ← Bool.not_eq_false]
    intro hnone
    have hfind : w.core.pendingReconciles.findIdx? (fun o => decide (o.due ≤ now)) = none := by
      simpa [List.findIdx?_eq_none_iff] using hnone
    rw [Core.promoteDueReconcile, hfind] at hres
    cases hres

/-- At most one action is taken: one that is due, if there is one. -/
theorem timeout_spec (hI : w.tables.Inv) :
    wp (timeout now : CoreM cap R P Bool) (Handles now (w.core.anyDue now) w) w := by
  unfold Core.anyDue Core.jobDue
  simp only [Bool.or_assoc]
  refine wp_orElse expireOne_handles fun hpackets => ?_
  refine wp_orElse (expireOneResolve_handles hI) fun hlookups => ?_
  refine wp_orElse (promoteDueReconcile_handles hI) fun howed => ?_
  refine wp_orElse ?_ fun hslots => ?_
  · refine wp_mono (firstDue_spec (Q := fun _ w' => Steps now .traffic w.tables w'.tables ∧
      Relieves now w.tables w'.tables) (List.range cap.maxSessions)
      fun s hs => slotTimer_spec hI (List.mem_range.mp hs)) ?_
    rintro r w' ⟨hr, hidle, htaken⟩
    refine ⟨hr, hidle, fun ht => ?_⟩
    obtain ⟨-, -, -, -, -, -, hsteps, hrel⟩ := htaken ht
    exact @Fired.of_job _ _ _ _ _ _ _ none (hsteps.widen (by decide)) (by rintro _ ⟨⟩) hrel
  · refine wp_mono (firstDue_spec (Q := fun p w' => PeerFired now p w w')
      (List.range cap.maxPeers) fun p _ => peerTimer_spec hI p) ?_
    rintro r w' ⟨hr, hidle, htaken⟩
    refine ⟨hr, hidle, fun ht => ?_⟩
    obtain ⟨before, p, after, hsplit, hbefore, hp, hfired⟩ := htaken ht
    refine .of_peer hfired ?_
    have hjob : w.core.jobDue now = false := by
      rw [Core.jobDue, hpackets, hlookups, howed, hslots]
      rfl
    rw [Core.firing, hjob]
    refine List.find?_eq_some_iff_append.mpr ⟨hp, before, after, hsplit, fun q hq => ?_⟩
    rw [hbefore q hq]
    rfl

end Microtun
