import Microtun.Rfc2217.Line

/-! What each part of the bridge keeps of the flow on both sides. -/

namespace Microtun.Rfc2217

open Telnet Awaiting

/-- The session goes on in a state with `P`, or ends. -/
def Goes (P : Bridge → Prop) (ok : Bool) (b : Bridge) : Prop := Sound b ∧ (ok = true → P b)

variable {α β : Type} {P P' : Bridge → Prop} {Q : α → Bridge → Prop} {b b' : Bridge}

theorem Goes.go (hP : ∀ b, P b → Inv b) {ok : Bool} (h : P b) : Goes P ok b :=
    ⟨(hP b h).sound, fun _ => h⟩

theorem Goes.stop (h : Sound b) : Goes P false b := ⟨h, nofun⟩

theorem spec_if {m : BridgeM Bool} {n n' : BridgeM α} (h : Spec Sound m (Goes P) b)
    (hn : ∀ b', P b' → Spec Sound n Q b') (hn' : ∀ b', Sound b' → Spec Sound n' Q b') :
    Spec Sound (m >>= fun ok => if ok = true then n else n') Q b := by
  refine h.bind fun ok b' hb' => ?_
  cases ok with
  | true => exact hn b' (hb'.2 rfl)
  | false => exact hn' b' hb'.1

theorem spec_and {m n : BridgeM Bool} (h : Spec Sound m (Goes P) b)
    (hn : ∀ b', P b' → Spec Sound n (Goes P') b') :
    Spec Sound (m >>= fun ok => if ok = true then n else pure false) (Goes P') b :=
  spec_if h hn fun _ hb' => spec_pure (.stop hb')

theorem Spec.goes_mono {m : BridgeM Bool} (h : Spec Sound m (Goes P) b) (hP : ∀ b, P b → P' b) :
    Spec Sound m (Goes P') b :=
  h.mono fun _ _ hb => ⟨hb.1, fun hok => hP _ (hb.2 hok)⟩

/-! ### Calls -/

theorem emit_spec {e : Entry} (h : Inv b) (he : e.Quiet) :
    Spec Sound (emit e) (fun _ => Kept b) b :=
  spec_update (.quiet h he)

theorem quiet_control (bytes : List UInt8) : (Entry.control bytes).Quiet := ⟨fun _ => rfl, nofun⟩

theorem quiet_rts (asserted : Bool) : (Entry.rts asserted).Quiet := ⟨fun _ => rfl, nofun⟩

theorem quiet_sendBreak : Entry.sendBreak.Quiet := ⟨fun _ => rfl, nofun⟩

theorem quiet_receiveError (place : Place) (error : RxError) :
    (Entry.receiveError place error).Quiet :=
  ⟨fun _ => rfl, nofun⟩

theorem quiet_received (place : Place) : (Entry.received place []).Quiet := ⟨fun _ => rfl, nofun⟩

theorem socketWrite_spec (h : Sound b) (e : Entry) : Spec Sound (socketWrite e)
    (fun ok b' => b' = if ok = true then { b with log := b.log ++ [e] } else b) b := by
  refine spec_answer_bind h fun ok => ?_
  cases ok with
  | true => exact spec_update_bind (spec_pure rfl)
  | false => exact spec_pure rfl

theorem socketWrite_quiet {e : Entry} (h : Inv b) (he : e.Quiet) :
    Spec Sound (socketWrite e) (Goes (Noted b)) b := by
  refine (socketWrite_spec h.sound e).mono fun ok b' hb' => ?_
  subst hb'
  cases ok with
  | true => exact .go (fun _ hb => hb.inv) (.quiet h he)
  | false => exact .stop h.sound

theorem sendControl_spec (h : Inv b) (out : Option (List UInt8)) :
    Spec Sound (sendControl out) (Goes (Noted b)) b := by
  unfold sendControl
  split
  · exact spec_pure (.stop h.sound)
  · exact spec_pure ⟨h.sound, fun _ => .refl h⟩
  · exact socketWrite_quiet h (quiet_control _)

theorem confirm_spec (h : Inv b) (message : Serial.Message) : Spec Sound (confirm message)
    (Goes (Noted b)) b :=
  spec_state_bind (sendControl_spec h _)

theorem notifyLineError_spec (h : Inv b) (error : RxError) :
    Spec Sound (notifyLineError error) (Goes (Noted b)) b := by
  refine spec_state_bind ?_
  simp only
  split
  · exact spec_pure ⟨h.sound, fun _ => .refl h⟩
  · exact confirm_spec h _

theorem uartReadAsync_spec (h : Inv b) (place : Place) (room : Nat) :
    Spec Sound (uartReadAsync place room)
    (fun result b' => match result with
      | .ok bytes => b' = { b with log := b.log ++ [.received place bytes] }
      | .error error => b' = { b with log := b.log ++ [.receiveError place error] }) b := by
  refine spec_answer_bind h.sound fun result => ?_
  cases result with
  | ok bytes => exact spec_update_bind (spec_pure rfl)
  | error error => exact spec_update_bind (spec_pure rfl)

theorem received_sound (h : Inv b) (place : Place) (bytes : List UInt8) :
    Sound { b with log := b.log ++ [.received place bytes] } := by
  obtain ⟨houtbound, hasked, hsent, hkept⟩ := foldl_receive place bytes (line b.log)
  refine ⟨h.sound.bursts.append nofun, ?_, ?_⟩
  · rw [line_append]
    exact h.sound.asked.trans (by rw [Line.after, hasked])
  · rw [line_append, Line.after, hsent]
    exact h.sound.sent.trans hkept

theorem captureSerialRx_spec (h : Inv b) {place : Place} (hplace : place ≠ .purge)
    (bytes : List UInt8) :
    Spec Sound (captureSerialRx bytes) (Goes (Kept b))
      { b with log := b.log ++ [.received place bytes] } := by
  refine spec_state_bind ?_
  have hpaused := captureBytes_rxPeerPaused b.state b.flow b.deferred bytes
  refine spec_update_bind ?_
  refine spec_pure ⟨?_, fun hok => ?_⟩
  · have hsound := received_sound h place bytes
    exact ⟨hsound.bursts, (Eq.congr_left hpaused).trans hsound.asked, hsound.sent⟩
  · have hasked := (foldl_receive place bytes (line b.log)).2.1
    refine ⟨h.entry nofun ?_ (h.linked.capture hplace bytes hok),
      ⟨rfl, rfl, hpaused, List.prefix_append _ _⟩⟩
    rw [Line.after, hasked, hpaused]
    exact h.sound.asked.symm

/-! ### Flow control of the client's data -/

theorem drainUartReady_spec (h : Inv b) : Spec Sound drainUartReady (Goes (Kept b)) b := by
  refine spec_loop (I := fun _ => Kept b) (fun _ _ hb => hb.inv.sound) (fun _ b' hb' => ?_)
    (.refl h)
  refine spec_answer_bind hb'.inv.sound fun ready => ?_
  cases ready with
  | false => exact spec_pure ⟨hb'.inv.sound, fun _ => hb'⟩
  | true =>
    refine (uartReadAsync_spec hb'.inv .drain 64).bind fun result b1 hb1 => ?_
    split at hb1
    · next bytes =>
      subst hb1
      cases bytes with
      | nil =>
        exact spec_pure ⟨received_sound hb'.inv .drain [], fun _ =>
          hb'.trans (.quiet hb'.inv (quiet_received .drain))⟩
      | cons byte bytes =>
        exact spec_if (captureSerialRx_spec hb'.inv (by decide) _)
          (fun _ hb2 => spec_pure (hb'.trans hb2))
          fun _ hb2 => spec_pure (.stop hb2)
    · next error =>
      subst hb1
      have hquiet := hb'.trans (.quiet hb'.inv (quiet_receiveError .drain error))
      refine (notifyLineError_spec hquiet.inv error).bind fun ok b2 hb2 => ?_
      exact spec_pure ⟨hb2.1, fun hok => hquiet.trans (hb2.2 hok).toKept⟩

/-- The wait ends when the device sent XON, or with an error of the UART. -/
def Released (b b' : Bridge) : Prop :=
  Kept b b' ∧ (waitFailed b'.log = false → b'.state.softwareOutboundFlow = true →
    b'.flow.txPausedByPeer = false)

theorem waitForXon_spec (h : Inv b) : Spec Sound waitForXon (Goes (Released b)) b := by
  refine spec_loop (I := fun _ => Kept b) (fun _ _ hb => hb.inv.sound) (fun _ b' hb' => ?_)
    (.refl h)
  refine spec_state_bind ?_
  by_cases hheld : (b'.state.softwareOutboundFlow && b'.flow.txPausedByPeer) = true
  · rw [if_pos hheld]
    refine spec_answer_bind hb'.inv.sound fun timeout => ?_
    cases timeout with
    | true => exact spec_pure (.stop hb'.inv.sound)
    | false =>
      refine (uartReadAsync_spec hb'.inv .wait 64).bind fun result b1 hb1 => ?_
      split at hb1
      · next bytes =>
        subst hb1
        cases bytes with
        | nil => exact spec_pure (hb'.trans (.quiet hb'.inv (quiet_received .wait)))
        | cons byte bytes =>
          exact spec_if (captureSerialRx_spec hb'.inv (by decide) _)
            (fun _ hb2 => spec_pure (hb'.trans hb2))
            fun _ hb2 => spec_pure (.stop hb2)
      · next error =>
        subst hb1
        have hquiet := hb'.trans (.quiet hb'.inv (quiet_receiveError .wait error))
        refine (notifyLineError_spec hquiet.inv error).bind fun ok b2 hb2 => ?_
        refine spec_pure ⟨hb2.1, fun hok => ⟨hquiet.trans (hb2.2 hok).toKept, fun hwait => ?_⟩⟩
        have hfailed := (hb2.2 hok).waitFailed (waitFailed_append b'.log _)
        exact absurd (hfailed.symm.trans hwait) (by decide)
  · rw [if_neg hheld]
    refine spec_pure ⟨hb'.inv.sound, fun _ => ⟨hb', fun _ hon => ?_⟩⟩
    simpa [hon] using hheld

theorem Released.refl (h : Inv b) (hoff : b.state.softwareOutboundFlow ≠ true) : Released b b :=
  ⟨.refl h, fun _ hon => absurd hon hoff⟩

theorem awaitXon_spec (h : Inv b) : Spec Sound awaitXon (Goes (Released b)) b := by
  refine spec_state_bind ?_
  by_cases hon : b.state.softwareOutboundFlow = true
  · rw [if_pos hon]
    exact spec_and (drainUartReady_spec h) fun b'' hb'' =>
      Spec.goes_mono (waitForXon_spec hb''.inv) fun _ hb => ⟨hb''.trans hb.1, hb.2⟩
  · rw [if_neg hon]
    exact spec_pure ⟨h.sound, fun _ => .refl h hon⟩

theorem awaitCts_spec (h : Sound b) : Spec Sound awaitCts (Goes (· = b)) b := by
  refine spec_state_bind ?_
  by_cases hon : b.state.hardwareOutboundFlow = true
  · rw [if_pos hon]
    refine spec_answer_bind h fun asserted => ?_
    cases asserted with
    | true => exact spec_pure ⟨h, fun _ => rfl⟩
    | false =>
      refine spec_answer_bind h fun _ => ?_
      exact spec_pure ⟨h, fun _ => rfl⟩
  · rw [if_neg hon]
    exact spec_pure ⟨h, fun _ => rfl⟩

theorem Released.burst (h : Released b b') (bytes : List UInt8) :
    Kept b { b' with log := b'.log ++ [.burst bytes] } := by
  have hline : line (b'.log ++ [.burst bytes]) = line b'.log := line_append _ _
  have hlinked : Linked (line (b'.log ++ [.burst bytes])) b'.state b'.flow b'.deferred := by
    rw [hline]
    exact h.1.inv.linked
  refine ⟨⟨⟨?_, ?_, ?_⟩, hlinked⟩, h.1.frame.trans ⟨rfl, rfl, rfl, List.prefix_append _ _⟩⟩
  · refine h.1.inv.sound.bursts.append fun _ _ hwait houtbound => ?_
    rw [← h.1.inv.linked.paused]
    refine h.2 hwait ?_
    rw [PortState.softwareOutboundFlow, h.1.inv.linked.outbound]
    exact decide_eq_true houtbound
  · rw [hline]
    exact h.1.inv.sound.asked
  · rw [hline]
    exact h.1.inv.sound.sent

theorem uartWriteAsync_spec (h : Sound b) (bytes : List UInt8) : Spec Sound (uartWriteAsync bytes)
    (fun n b' => (n = 0 ∧ b' = { b with log := b.log ++ [.writeError] }) ∨
      (n ≤ bytes.length ∧ b' = b ∧ (bytes ≠ [] → 0 < n))) b := by
  refine spec_answer_bind h fun n => ?_
  by_cases hn : n = 0
  · rw [if_pos hn]
    exact spec_update_bind (spec_pure (.inl ⟨rfl, rfl⟩))
  · rw [if_neg hn]
    refine spec_pure (.inr ⟨Nat.min_le_right .., rfl, fun hne => ?_⟩)
    exact Nat.lt_min.mpr ⟨Nat.pos_of_ne_zero hn, List.length_pos_iff.mpr hne⟩

theorem quiet_writeError : Entry.writeError.Quiet := ⟨fun _ => rfl, nofun⟩

theorem uartWriteAll_spec (h : Inv b) (bytes : List UInt8) : Spec Sound (uartWriteAll bytes)
    (Goes (Kept b)) b := by
  refine spec_loop (I := fun _ => Kept b) (fun _ _ hb => hb.inv.sound) (fun bytes b' hb' => ?_)
    (.refl h)
  by_cases hdone : bytes = []
  · rw [if_pos hdone]
    exact spec_pure ⟨hb'.inv.sound, fun _ => hb'⟩
  · rw [if_neg hdone]
    refine spec_if (awaitXon_spec hb'.inv) (fun b1 hb1 => ?_) fun _ hb1 => spec_pure (.stop hb1)
    refine spec_if (awaitCts_spec hb1.1.inv.sound) (fun b2 hb2 => ?_) fun _ hb2 =>
      spec_pure (.stop hb2)
    subst hb2
    have hburst := hb'.trans (hb1.burst (bytes.take uartTxBurst))
    refine spec_update_bind ?_
    refine (uartWriteAsync_spec hburst.inv.sound _).bind fun n b4 hb4 => ?_
    cases n with
    | zero =>
      rcases hb4 with ⟨-, rfl⟩ | ⟨-, rfl, -⟩
      · exact spec_pure (.stop (Kept.quiet hburst.inv quiet_writeError).inv.sound)
      · exact spec_pure (.stop hburst.inv.sound)
    | succ n =>
      rcases hb4 with ⟨hn, -⟩ | ⟨-, rfl, -⟩
      · exact nomatch hn
      refine spec_state_bind ?_
      simp only
      split
      · refine spec_if (P := (· = _)) (spec_answer hburst.inv.sound fun _ =>
          ⟨hburst.inv.sound, fun _ => rfl⟩)
          (fun _ hb6 => ?_) fun _ hb6 => spec_pure (.stop hb6)
        subst hb6
        exact spec_pure hburst
      · exact spec_pure hburst

/-! ### Flow control of the device -/

/-- The device was told to wait or to go on, if it has to be told. -/
structure Asked (paused : Bool) (b b' : Bridge) : Prop where
  sound : Sound b'
  state : b'.state = b.state
  session : b'.session = b.session
  deferred : b'.deferred = b.deferred
  txPausedByPeer : b'.flow.txPausedByPeer = b.flow.txPausedByPeer
  line : ∃ asked, line b'.log = { line b.log with asked }
  rxPeerPaused : b'.flow.rxPeerPaused = (b.state.softwareInboundFlow && paused)

theorem Asked.inv {paused : Bool} (h : Asked paused b b') (hb : Inv b) : Inv b' := by
  obtain ⟨asked, hline⟩ := h.line
  refine ⟨h.sound, ?_, ?_, ?_⟩
  · rw [hline, h.state]
    exact hb.linked.outbound
  · rw [hline, h.txPausedByPeer]
    exact hb.linked.paused
  · rw [hline, h.deferred]
    exact hb.linked.deferred

theorem Sound.entry (h : Sound b) {e : Entry} {flow : FlowRuntime} (he : ∀ bytes, e ≠ .burst bytes)
    {asked : Option UInt8} (hafter : (line b.log).after e = { line b.log with asked })
    (hasked : flow.rxPeerPaused = true ↔ asked = some xoff) :
    Sound { b with flow, log := b.log ++ [e] } := by
  refine ⟨h.bursts.append fun bytes heq => absurd heq (he bytes), ?_, ?_⟩
  · rw [line_append, hafter]
    exact hasked
  · rw [line_append, hafter]
    exact h.sent

theorem uartWriteRaw_spec (h : Sound b) (byte : UInt8) : Spec Sound (uartWriteRaw [byte])
    (fun ok b' => b' = { b with log := b.log ++ [if ok = true then .flow [byte] else .writeError] })
      b := by
  refine spec_loop (I := fun bytes b' => bytes = [byte] ∧ b' = b) (fun _ _ hb => hb.2 ▸ h)
    (fun bytes b' hb' => ?_)
    ⟨rfl, rfl⟩
  obtain ⟨rfl, rfl⟩ := hb'
  refine (uartWriteAsync_spec h _).bind fun n b1 hb1 => ?_
  cases n with
  | zero =>
    rcases hb1 with ⟨-, rfl⟩ | ⟨-, -, hpos⟩
    · exact spec_pure rfl
    · exact absurd (hpos nofun) (Nat.lt_irrefl 0)
  | succ n =>
    rcases hb1 with ⟨hn, -⟩ | ⟨-, rfl, -⟩
    · exact nomatch hn
    refine spec_update_bind ?_
    simp only [List.drop_succ_cons, List.drop_nil, List.take_succ_cons, List.take_nil]
    exact spec_pure rfl

/-- The device is told, or the session ends with an error of the UART. -/
def Told (paused : Bool) (b : Bridge) (ok : Bool) (b' : Bridge) : Prop :=
  Sound b' ∧ if ok = true then Asked paused b b' else Entry.writeError ∈ b'.log

theorem Told.goes {paused ok : Bool} (h : Told paused b ok b') : Goes (Asked paused b) ok b' := by
  refine ⟨h.1, fun hok => ?_⟩
  have htold := h.2
  rwa [if_pos hok] at htold

theorem tell_spec (h : Sound b) (paused : Bool)
    (hpaused : (b.state.softwareInboundFlow && paused) = paused) :
    Spec Sound (do
      if ← uartWriteRaw [if paused = true then xoff else xon] then
        setRxPeerPaused paused
        return true
      else return false) (Told paused b) b := by
  refine (uartWriteRaw_spec h _).bind fun ok b1 hb1 => ?_
  subst hb1
  cases ok with
  | true =>
    refine spec_update_bind ?_
    have hasked : paused = true ↔ some (if paused = true then xoff else xon) = some xoff := by
      cases paused <;> decide
    exact spec_pure ⟨h.entry nofun rfl hasked,
      ⟨h.entry nofun rfl hasked, rfl, rfl, rfl, rfl, ⟨_, line_append _ _⟩, hpaused.symm⟩⟩
  | false =>
    exact spec_pure
      ⟨h.entry nofun rfl h.asked, List.mem_append_right _ (List.mem_singleton_self _)⟩

theorem refreshRts_spec (b : Bridge) (receiveReady suspended : Bool) :
    Spec Sound (refreshRts receiveReady suspended)
    (fun _ b' => ∃ asserted, b' = { b with log := b.log ++ [.rts asserted] }) b := by
  refine spec_state_bind ?_
  simp only [driveRts, emit]
  exact spec_update ⟨_, rfl⟩

theorem Told.congr {paused paused' ok : Bool} (h : Told paused b ok b')
    (heq : (b.state.softwareInboundFlow && paused) = (b.state.softwareInboundFlow && paused')) :
    Told paused' b ok b' := by
  refine ⟨h.1, ?_⟩
  have htold := h.2
  cases ok with
  | true => exact { htold with rxPeerPaused := htold.rxPeerPaused.trans heq }
  | false => exact htold

theorem Told.after_rts {paused ok : Bool} (asserted : Bool)
    (h : Told paused { b with log := b.log ++ [.rts asserted] } ok b') : Told paused b ok b' := by
  refine ⟨h.1, ?_⟩
  have htold := h.2
  cases ok with
  | true =>
    have hline := htold.line
    rw [line_append] at hline
    exact { htold with line := hline }
  | false => exact htold

theorem Told.none (h : Sound b) {paused : Bool}
    (hpaused : b.flow.rxPeerPaused = (b.state.softwareInboundFlow && paused)) :
    Told paused b true b :=
  ⟨h, ⟨h, rfl, rfl, rfl, rfl, ⟨(line b.log).asked, rfl⟩, hpaused⟩⟩

theorem setSerialReceiveReady_spec (h : Sound b) (receiveReady suspended : Bool) :
    Spec Sound (setSerialReceiveReady receiveReady suspended)
      (Told (!receiveReady || suspended) b) b := by
  refine (refreshRts_spec b receiveReady suspended).bind fun _ b1 hb1 => ?_
  obtain ⟨asserted, rfl⟩ := hb1
  have hsound : Sound { b with log := b.log ++ [.rts asserted] } := h.entry nofun rfl h.asked
  refine Spec.mono ?_ fun _ _ => Told.after_rts asserted
  refine spec_state_bind ?_
  generalize (!receiveReady || suspended) = paused
  by_cases hon : b.state.softwareInboundFlow = true
  · rw [if_pos hon]
    by_cases hchange : paused ≠ b.flow.rxPeerPaused
    · rw [if_pos hchange]
      exact tell_spec hsound paused (by rw [hon, Bool.true_and])
    · rw [if_neg hchange]
      exact spec_pure (.none hsound (by rw [hon, Bool.true_and]; exact (not_not.mp hchange).symm))
  · rw [if_neg hon]
    have hoff : b.state.softwareInboundFlow = false := Bool.eq_false_of_not_eq_true hon
    by_cases hpaused : b.flow.rxPeerPaused = true
    · rw [if_pos hpaused]
      refine (tell_spec hsound false (Bool.and_false _)).mono fun ok b' hb' => hb'.congr ?_
      rw [hoff, Bool.false_and, Bool.false_and]
    · rw [if_neg hpaused]
      exact spec_pure (.none hsound (by rw [hoff]; exact Bool.eq_false_of_not_eq_true hpaused))

/-! ### Data for the client -/

theorem Kept.chunk (h : Inv b) (n : Nat) : Kept b { b with
    deferred := b.deferred.drop n, log := b.log ++ [.data (b.deferred.take n)] } := by
  refine ⟨h.entry nofun h.sound.asked.symm ⟨h.linked.outbound, h.linked.paused, ?_⟩,
    ⟨rfl, rfl, rfl, List.prefix_append _ _⟩⟩
  show (line b.log).kept = (line b.log).sent ++ b.deferred.take n ++ b.deferred.drop n
  rw [List.append_assoc, List.take_append_drop]
  exact h.linked.deferred

theorem flushDeferredRx_spec (h : Inv b) :
    Spec Sound flushDeferredRx (Goes fun b' => Kept b b' ∧ b'.deferred = []) b := by
  refine spec_loop (I := fun _ => Kept b) (fun _ _ hb => hb.inv.sound) (fun _ b' hb' => ?_)
    (.refl h)
  refine spec_state_bind ?_
  by_cases hdone : b'.deferred = []
  · rw [if_pos hdone]
    exact spec_pure ⟨hb'.inv.sound, fun _ => ⟨hb', hdone⟩⟩
  · rw [if_neg hdone]
    refine spec_update_bind ?_
    have hsound : Sound { b' with deferred := b'.deferred.drop uartChunk } :=
      ⟨hb'.inv.sound.bursts, hb'.inv.sound.asked, hb'.inv.sound.sent⟩
    refine (socketWrite_spec hsound _).bind fun ok b3 hb3 => ?_
    subst hb3
    cases ok with
    | true => exact spec_pure (hb'.trans (.chunk hb'.inv uartChunk))
    | false => exact spec_pure (.stop hsound)

end Microtun.Rfc2217
