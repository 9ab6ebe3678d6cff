import Microtun.Rfc2217.Flow

/-! What the requests of the client and the bytes of the network keep of the flow. -/

namespace Microtun.Rfc2217

open Telnet Awaiting

variable {b b' b'' : Bridge}

/-- What a request leaves behind. -/
structure Handled (b b' : Bridge) : Prop where
  inv : Inv b'
  session : b'.session = b.session
  held : Held b'

theorem Held.kept (h : Held b) (hkept : Kept b b') : Held b' := by
  intro hpaused
  rw [hkept.frame.session, hkept.frame.state]
  exact h (hkept.frame.rxPeerPaused ▸ hpaused)

theorem Handled.refl (h : Inv b) (hheld : Held b) : Handled b b := ⟨h, rfl, hheld⟩

theorem Handled.kept (h : Handled b b') (hkept : Kept b' b'') : Handled b b'' :=
  ⟨hkept.inv, hkept.frame.session.trans h.session, h.held.kept hkept⟩

/-- After the flow control is applied, the device is held back at most while the client suspends
delivery. -/
theorem Asked.handled {paused : Bool} (h : Asked paused b b') (hinv : Inv b)
    (hpaused : paused = true → b.session.serial.txSuspended = true) : Handled b b' := by
  refine ⟨h.inv hinv, h.session, fun hheld => ?_⟩
  rw [h.rxPeerPaused, Bool.and_eq_true] at hheld
  rw [h.session, h.state]
  exact ⟨hpaused hheld.2, hheld.1⟩

/-! ### Settings -/

theorem confirm_handled (h : Handled b b') (message : Serial.Message) :
    Spec Sound (confirm message) (Goes (Handled b)) b' :=
  Spec.goes_mono (confirm_spec h.inv message) fun _ hb => h.kept hb.toKept

theorem Handled.setting (h : Handled b b') (state : PortState)
    (hout : state.outboundFlow = b'.state.outboundFlow)
    (hin : state.inboundFlow = b'.state.inboundFlow) : Handled b { b' with state } := by
  refine ⟨⟨⟨h.inv.sound.bursts, h.inv.sound.asked, h.inv.sound.sent⟩,
    ⟨hout.trans h.inv.linked.outbound, h.inv.linked.paused, h.inv.linked.deferred⟩⟩, h.session,
      fun hpaused => ?_⟩
  obtain ⟨hsuspended, hsoftware⟩ := h.held hpaused
  refine ⟨hsuspended, ?_⟩
  rwa [PortState.softwareInboundFlow, hin]

theorem applyUartConfig_spec (h : Sound b) : Spec Sound applyUartConfig (fun _ b' => b' = b) b := by
  refine spec_answer_bind h fun ok => ?_
  cases ok with
  | true => exact spec_answer h fun _ => rfl
  | false => exact spec_pure rfl

theorem reconfigureUart_spec (h : Handled b b') {f : PortState → PortState}
    (hout : ∀ s, (f s).outboundFlow = s.outboundFlow)
    (hin : ∀ s, (f s).inboundFlow = s.inboundFlow) :
    Spec Sound (attempt (reconfigureUart f)) (Goes (Handled b)) b' := by
  refine Spec.bind (Q := fun _ => Handled b) ?_ fun _ b1 hb1 =>
    spec_pure ⟨hb1.inv.sound, fun _ => hb1⟩
  refine spec_state_bind ?_
  refine spec_update_bind ?_
  have hset := h.setting (f b'.state) (hout b'.state) (hin b'.state)
  refine (applyUartConfig_spec hset.inv.sound).bind fun ok b1 hb1 => ?_
  subst hb1
  cases ok with
  | true => exact spec_pure hset
  | false => exact spec_update_bind (spec_pure h)

theorem queryOrSet_spec {T : Type} {request : QueryOrSet T} {set : T → BridgeM Bool}
    {message : PortState → Serial.Message}
    (hset : ∀ value, request = .set value → Spec Sound (set value) (Goes (Handled b)) b')
    (hquery : request = .query → Handled b b') :
    Spec Sound (queryOrSet request set message) (Goes (Handled b)) b' := by
  have hconfirm (b1 : Bridge) (h : Handled b b1) :
      Spec Sound (do confirm (message (← state).state)) (Goes (Handled b)) b1 :=
    spec_state_bind (confirm_handled h _)
  cases request with
  | set value => exact spec_and (hset value rfl) hconfirm
  | query => exact spec_and (spec_pure (.go (fun _ h => h.inv) (hquery rfl))) hconfirm

/-! ### Changes of the flow control -/

/-- Before the flow control is applied, the device may be held back that is not to be. -/
theorem changePort_spec {f : Bridge → Bridge} (hinv : Inv (f b'))
    (hsession : (f b').session = b.session) : Spec Sound (changePort f) (Goes (Handled b)) b' := by
  refine spec_update_bind (spec_state_bind ?_)
  refine (setSerialReceiveReady_spec hinv.sound _ _).mono fun ok b1 hb1 => ?_
  refine ⟨hb1.1, fun hok => ?_⟩
  have hhandled := (hb1.goes.2 hok).handled hinv (by simp)
  exact { hhandled with session := hhandled.session.trans hsession }

theorem setOutboundFlow_inv (h : Inv b) (value : OutboundFlow) : Inv (setOutboundFlow
    { b with log := b.log ++ [.request (.outboundFlow (.set value))] } value) := by
  cases value with
  | none => exact h.entry nofun h.sound.asked.symm ⟨rfl, rfl, h.linked.deferred⟩
  | xonXoff => exact h.entry nofun h.sound.asked.symm ⟨rfl, rfl, h.linked.deferred⟩
  | rtsCts => exact h.entry nofun h.sound.asked.symm ⟨rfl, rfl, h.linked.deferred⟩
  | dcd => exact h.entry nofun h.sound.asked.symm h.linked
  | dsr => exact h.entry nofun h.sound.asked.symm h.linked

theorem setOutboundFlow_session (b : Bridge) (value : OutboundFlow) :
    (setOutboundFlow b value).session = b.session := by
  cases value <;> rfl

theorem setInboundFlow_inv (h : Inv b) (value : InboundFlow) : Inv (setInboundFlow b value) := by
  have hinv (inboundFlow : InboundFlow) : Inv { b with state.inboundFlow := inboundFlow } :=
    ⟨⟨h.sound.bursts, h.sound.asked, h.sound.sent⟩,
      ⟨h.linked.outbound, h.linked.paused, h.linked.deferred⟩⟩
  cases value with
  | none => exact hinv .none
  | xonXoff => exact hinv .xonXoff
  | rtsCts => exact hinv .rtsCts
  | dtr => exact h

theorem setInboundFlow_session (b : Bridge) (value : InboundFlow) :
    (setInboundFlow b value).session = b.session := by
  cases value <;> rfl

/-! ### Purges -/

theorem discardReady_spec (h : Handled b b') : Spec Sound discardReady (fun _ => Handled b) b' := by
  refine spec_loop (I := fun _ => Handled b) (fun _ _ hb => hb.inv.sound) (fun _ b1 hb1 => ?_) h
  refine spec_answer_bind hb1.inv.sound fun ready => ?_
  cases ready with
  | false => exact spec_pure hb1
  | true =>
    refine (uartReadAsync_spec hb1.inv .purge 64).bind fun result b2 hb2 => ?_
    split at hb2
    · next bytes =>
      subst hb2
      cases bytes with
      | nil => exact spec_pure (hb1.kept (.quiet hb1.inv (quiet_received .purge)))
      | cons byte bytes =>
        have hpaused := discard_rxPeerPaused b1.state b1.flow (byte :: bytes)
        have hasked := (foldl_receive .purge (byte :: bytes) (line b1.log)).2.1
        refine spec_update_bind
          (spec_pure (hb1.kept ⟨?_, ⟨rfl, rfl, hpaused, List.prefix_append _ _⟩⟩))
        refine hb1.inv.entry nofun ?_ (hb1.inv.linked.discardAll (byte :: bytes))
        rw [Line.after, hasked, hpaused]
        exact hb1.inv.sound.asked.symm
    · next error =>
      subst hb2
      exact spec_pure (hb1.kept (.quiet hb1.inv (quiet_receiveError .purge error)))

theorem purgeReceived_spec (h : Inv b) (hheld : Held b) {target : Purge}
    (htarget : target = .receive ∨ target = .both) :
    Spec Sound purgeReceived (fun _ => Handled b)
      { b with log := b.log ++ [.request (.purge target)] } := by
  refine spec_update_bind (discardReady_spec ⟨?_, rfl, hheld⟩)
  have hafter : (line b.log).after (.request (.purge target)) =
      { line b.log with kept := (line b.log).sent } :=
    if_pos htarget
  refine h.entry nofun ?_ ?_
  · rw [hafter]
    exact h.sound.asked.symm
  · rw [hafter]
    exact ⟨h.linked.outbound, h.linked.paused, (List.append_nil _).symm⟩

/-! ### Requests -/

theorem sendBreak_spec (h : Inv b) : Spec Sound sendBreak (fun _ => Kept b) b :=
  spec_answer_bind h.sound fun _ => emit_spec h quiet_sendBreak

theorem Handled.request (h : Inv b) (hheld : Held b) (request : SerialAction)
    (hquiet : (Entry.request request).Quiet) :
      Handled b { b with log := b.log ++ [.request request] } :=
  (Handled.refl h hheld).kept (.quiet h hquiet)

theorem setSerialReceiveReady_handled (h : Handled b b') {receiveReady suspended : Bool}
    (hsuspended : (!receiveReady || suspended) = true → b'.session.serial.txSuspended = true) :
    Spec Sound (setSerialReceiveReady receiveReady suspended) (Goes (Handled b)) b' := by
  refine (setSerialReceiveReady_spec h.inv.sound _ _).mono fun ok b1 hb1 => ⟨hb1.1, fun hok => ?_⟩
  have hhandled := (hb1.goes.2 hok).handled h.inv hsuspended
  exact { hhandled with session := hhandled.session.trans h.session }

/-- A request is handled; the client has suspended delivery before a request to suspend it, and
before a request to resume it the device may be held back that is not to be. -/
theorem handleSerialRequest_spec (h : Inv b) {request : SerialAction}
    (hheld : request ≠ .resume → Held b) (hsuspend : request = .suspend →
    b.session.serial.txSuspended = true) :
    Spec Sound (handleSerialRequest request) (Goes (Handled b)) b := by
  refine spec_update_bind ?_
  cases request with
  | signatureQuery empty =>
    have hrequest := Handled.request h (hheld nofun) (.signatureQuery empty) ⟨fun _ => rfl, nofun⟩
    cases empty with
    | false => exact spec_pure (.go (fun _ h => h.inv) hrequest)
    | true => exact confirm_handled hrequest _
  | baud request =>
    have hrequest := Handled.request h (hheld nofun) (.baud request) ⟨fun _ => rfl, nofun⟩
    refine queryOrSet_spec (fun value _ => ?_) fun _ => hrequest
    split
    · exact reconfigureUart_spec hrequest (fun _ => rfl) fun _ => rfl
    · exact spec_pure (.go (fun _ h => h.inv) hrequest)
  | dataBits request =>
    have hrequest := Handled.request h (hheld nofun) (.dataBits request) ⟨fun _ => rfl, nofun⟩
    exact queryOrSet_spec (fun value _ => reconfigureUart_spec hrequest (fun _ => rfl) fun _ => rfl)
      fun _ => hrequest
  | parity request =>
    have hrequest := Handled.request h (hheld nofun) (.parity request) ⟨fun _ => rfl, nofun⟩
    refine queryOrSet_spec (fun value _ => ?_) fun _ => hrequest
    split
    · exact reconfigureUart_spec hrequest (fun _ => rfl) fun _ => rfl
    · exact spec_pure (.go (fun _ h => h.inv) hrequest)
  | stopBits request =>
    have hrequest := Handled.request h (hheld nofun) (.stopBits request) ⟨fun _ => rfl, nofun⟩
    exact queryOrSet_spec (fun value _ => reconfigureUart_spec hrequest (fun _ => rfl) fun _ => rfl)
      fun _ => hrequest
  | outboundFlow request =>
    refine queryOrSet_spec (fun value hvalue => ?_) fun hquery => ?_
    · subst hvalue
      exact changePort_spec (setOutboundFlow_inv h value) (setOutboundFlow_session _ value)
    · subst hquery
      exact Handled.request h (hheld nofun) _ ⟨fun _ => rfl, nofun⟩
  | inboundFlow request =>
    have hrequest := Handled.request h (hheld nofun) (.inboundFlow request) ⟨fun _ => rfl, nofun⟩
    exact queryOrSet_spec (fun value _ => changePort_spec (setInboundFlow_inv hrequest.inv value)
      (setInboundFlow_session _ value)) fun _ => hrequest
  | rts request =>
    have hrequest := Handled.request h (hheld nofun) (.rts request) ⟨fun _ => rfl, nofun⟩
    exact queryOrSet_spec
      (fun value _ => changePort_spec (hrequest.setting { b.state with rts := value } rfl rfl).inv
      rfl) fun _ => hrequest
  | dtr request =>
    have hrequest := Handled.request h (hheld nofun) (.dtr request) ⟨fun _ => rfl, nofun⟩
    refine queryOrSet_spec (fun value _ => ?_) fun _ => hrequest
    exact spec_update_bind
      (spec_pure (.go (fun _ h => h.inv) (hrequest.setting { b.state with dtr := value } rfl rfl)))
  | brk request =>
    have hrequest := Handled.request h (hheld nofun) (.brk request) ⟨fun _ => rfl, nofun⟩
    refine queryOrSet_spec (fun value _ => ?_) fun _ => hrequest
    have hset (b1 : Bridge) (hb1 : Handled b b1) : Spec Sound (do
        update fun b => { b with state.breakOn := value }
        return true : BridgeM Bool) (Goes (Handled b)) b1 :=
      spec_update_bind (spec_pure
        (.go (fun _ h => h.inv) (hb1.setting { b1.state with breakOn := value } rfl rfl)))
    cases value with
    | false => exact hset _ hrequest
    | true => exact (sendBreak_spec hrequest.inv).bind fun _ b1 hb1 => hset b1 (hrequest.kept hb1)
  | lineStateMask mask => exact confirm_handled (.request h (hheld nofun) _ ⟨fun _ => rfl, nofun⟩) _
  | modemStateMask mask =>
    exact confirm_handled (.request h (hheld nofun) _ ⟨fun _ => rfl, nofun⟩) _
  | purge target =>
    by_cases htarget : target = .receive ∨ target = .both
    · simp only [if_pos htarget]
      exact (purgeReceived_spec h (hheld nofun) htarget).bind fun _ b1 hb1 => confirm_handled hb1 _
    · simp only [if_neg htarget]
      exact confirm_handled
        (.request h (hheld nofun) (.purge target) ⟨fun _ => if_neg htarget, nofun⟩) _
  | suspend =>
    have hrequest := Handled.request h (hheld nofun) .suspend ⟨fun _ => rfl, nofun⟩
    exact setSerialReceiveReady_handled hrequest fun _ => hsuspend rfl
  | resume =>
    have hinv : Inv { b with log := b.log ++ [.request .resume] } := 
      (Kept.quiet h (e := .request .resume) ⟨fun _ => rfl, nofun⟩).inv
    refine (setSerialReceiveReady_spec hinv.sound true false).mono fun ok b1 hb1 =>
      ⟨hb1.1, fun hok => ?_⟩
    have hhandled := (hb1.goes.2 hok).handled hinv nofun
    exact ⟨hhandled.inv, hhandled.session, hhandled.held⟩

end Microtun.Rfc2217
