import Mathlib.Data.Bool.AllAny
import Microtun.Rfc2217.Requests

/-! Flow control and delivery over whole sessions of the bridge. -/

namespace Microtun.Rfc2217

open Telnet Awaiting

variable {b b' : Bridge}

/-! ### Bytes of the network -/

/-- Delivery is suspended when the client asks for it, and stays suspended until it asks to resume.
-/
def Suspends (before : Bool) (action : NetworkAction) (after : Bool) : Prop :=
  (action ≠ .serial .resume → before = true → after = true) ∧
    (action = .serial .suspend → after = true)

theorem suspends_same {suspended : Bool} {action : NetworkAction} (h : action ≠ .serial .suspend) :
    Suspends suspended action suspended :=
  ⟨fun _ hbefore => hbefore, fun haction => absurd haction h⟩

theorem applyRequest_suspends (s : ServerSerialState) (request : SerialRequest) :
    Suspends s.txSuspended (.serial (.of request)) (s.applyRequest request).txSuspended := by
  cases request with
  | suspend => exact ⟨fun _ _ => rfl, fun _ => rfl⟩
  | resume => exact ⟨fun hne => absurd rfl hne, nofun⟩
  | _ => exact suspends_same nofun

theorem feedSerial_suspends (s : ServerSerialState) (payload : List UInt8) :
    Suspends s.txSuspended (networkAction (some (ServerSession.feedSerial s payload).2))
      (ServerSession.feedSerial s payload).1.txSuspended := by
  unfold ServerSession.feedSerial
  cases Serial.decodeFrom .client payload with
  | error error => exact suspends_same nofun
  | ok message =>
    cases hrequest : SerialRequest.fromMessage message with
    | error error =>
      simp only [hrequest]
      exact suspends_same nofun
    | ok request =>
      simp only [hrequest]
      exact applyRequest_suspends s request

theorem networkAction_telnet (event : TelnetEvent) :
    networkAction (some (.telnet event)) ≠ .serial .suspend := by
  cases event <;> exact nofun

theorem onEvent_suspends (s : Rfc2217Session) (wasActive : Bool) (event : TelnetEvent) :
    Suspends s.serial.txSuspended (networkAction (some (s.onEvent wasActive event).2))
      (s.onEvent wasActive event).1.serial.txSuspended := by
  unfold ServerSession.onEvent
  split
  · exact suspends_same nofun
  · split
    · exact suspends_same nofun
    · split
      · exact suspends_same nofun
      · split
        · exact feedSerial_suspends _ _
        · exact suspends_same nofun
      · exact suspends_same (networkAction_telnet _)

theorem feed_suspends (s : Rfc2217Session) (n : Nat) (byte : UInt8) (reply : List UInt8) :
    Suspends s.serial.txSuspended (networkAction (s.feed n byte reply).2.2)
      (s.feed n byte reply).1.serial.txSuspended := by
  unfold ServerSession.feed
  generalize s.protocol.feed n byte reply = fed
  obtain ⟨protocol, reply, event⟩ := fed
  cases event with
  | none => exact suspends_same nofun
  | some event => exact onEvent_suspends { s with protocol } s.serialActive event

/-- What holds between the bytes of the network. -/
structure Going (b : Bridge) : Prop where
  inv : Inv b
  held : Held b

theorem Going.kept (h : Going b) (hkept : Kept b b') : Going b' := ⟨hkept.inv, h.held.kept hkept⟩

theorem Handled.going {b0 : Bridge} (h : Handled b0 b) : Going b := ⟨h.inv, h.held⟩

theorem Inv.withSession (h : Inv b) (session : Rfc2217Session) : Inv { b with session } :=
  ⟨⟨h.sound.bursts, h.sound.asked, h.sound.sent⟩,
    ⟨h.linked.outbound, h.linked.paused, h.linked.deferred⟩⟩

theorem flushPending_spec (h : Inv b) (pending : List UInt8) :
    Spec Sound (flushPending pending) (Goes (Kept b)) b := by
  unfold flushPending
  split
  · exact spec_pure (.go (fun _ h => h.inv) (.refl h))
  · exact uartWriteAll_spec h pending

theorem modemState_spec (h : Sound b) : Spec Sound modemState (fun _ b' => b' = b) b := by
  refine spec_answer_bind h fun ok => ?_
  cases ok with
  | true => exact spec_pure rfl
  | false => exact spec_pure rfl

theorem sendModemSnapshot_spec (h : Inv b) (current : UInt8) :
    Spec Sound (sendModemSnapshot current) (Goes (Kept b)) b := by
  refine spec_state_bind ?_
  simp only
  split
  · exact spec_pure (.go (fun _ h => h.inv) (.refl h))
  · exact Spec.goes_mono (confirm_spec h _) fun _ hb => hb.toKept

/-- What goes on with the data still to be written, or ends. -/
def Continues (pending : Option (List UInt8)) (b : Bridge) : Prop := Sound b ∧
    (pending ≠ none → Going b)

theorem Continues.go {pending : List UInt8} (h : Going b) : Continues (some pending) b :=
    ⟨h.inv.sound, fun _ => h⟩

theorem Continues.stop (h : Sound b) : Continues none b := ⟨h, fun hne => absurd rfl hne⟩

theorem sendReply_spec (h : Inv b) (reply : List UInt8) : Spec Sound (sendReply reply)
    (Goes (Kept b)) b := by
  unfold sendReply
  split
  · exact spec_pure (.go (fun _ h => h.inv) (.refl h))
  · exact Spec.goes_mono (socketWrite_quiet h (quiet_control reply)) fun _ hb => hb.toKept

theorem handleNetworkAction_spec (h : Inv b) (pending : List UInt8) {action : NetworkAction}
    (hheld : action ≠ .serial .resume → Held b)
    (hsuspend : action = .serial .suspend → b.session.serial.txSuspended = true) :
    Spec Sound (handleNetworkAction pending action) Continues b := by
  cases action with
  | none => exact spec_pure (.go ⟨h, hheld nofun⟩)
  | data value =>
    have hgoing : Going b := ⟨h, hheld nofun⟩
    refine spec_state_bind ?_
    split
    · exact spec_pure (.go hgoing)
    · split
      · exact spec_pure (.go hgoing)
      · exact spec_if (flushPending_spec h pending) (fun _ hb1 => spec_pure (.go (hgoing.kept hb1)))
          fun _ hb1 => spec_pure (.stop hb1)
  | serial request =>
    refine spec_if (flushPending_spec h pending) (fun b1 hb1 => ?_) fun _ hb1 =>
      spec_pure (.stop hb1)
    refine spec_if (handleSerialRequest_spec hb1.inv (fun hne => ?_) fun heq => ?_)
      (fun _ hb2 => spec_pure (.go hb2.going)) fun _ hb2 => spec_pure (.stop hb2)
    · exact (hheld fun heq => hne (NetworkAction.serial.inj heq)).kept hb1
    · rw [hb1.frame.session]
      exact hsuspend (congrArg NetworkAction.serial heq)
  | brk =>
    have hgoing : Going b := ⟨h, hheld nofun⟩
    refine spec_if (flushPending_spec h pending) (fun b1 hb1 => ?_) fun _ hb1 =>
      spec_pure (.stop hb1)
    exact (sendBreak_spec hb1.inv).bind fun _ b2 hb2 => spec_pure (.go ((hgoing.kept hb1).kept hb2))
  | serialModeActive =>
    have hgoing : Going b := ⟨h, hheld nofun⟩
    refine (modemState_spec h.sound).bind fun current b1 hb1 => ?_
    subst hb1
    exact spec_if (sendModemSnapshot_spec h current)
      (fun _ hb2 => spec_pure (.go (hgoing.kept hb2)))
      fun _ hb2 => spec_pure (.stop hb2)
  | serialModeRefused => exact spec_pure (.stop h.sound)

theorem processNetworkByte_spec (h : Going b) (pending : List UInt8) (byte : UInt8) :
    Spec Sound (processNetworkByte pending byte) Continues b := by
  refine spec_state_bind ?_
  have hsuspends := feed_suspends b.session 32 byte []
  generalize b.session.feed 32 byte [] = fed at hsuspends
  obtain ⟨session, reply, event⟩ := fed
  refine spec_update_bind ?_
  refine spec_if (sendReply_spec (h.inv.withSession session) reply) (fun b1 hb1 => ?_)
    fun _ hb1 => spec_pure (.stop hb1)
  refine handleNetworkAction_spec hb1.inv pending (fun hne => ?_) fun heq => ?_
  · have hheld : Held { b with session } := fun hpaused =>
      ⟨hsuspends.1 hne (h.held hpaused).1, (h.held hpaused).2⟩
    exact hheld.kept hb1
  · rw [hb1.frame.session]
    exact hsuspends.2 heq

theorem processNetworkBytes_spec (h : Going b) (bytes pending : List UInt8) :
    Spec Sound (processNetworkBytes pending bytes) (Goes Going) b := by
  induction bytes generalizing b pending with
  | nil => exact Spec.goes_mono (flushPending_spec h.inv pending) fun _ => h.kept
  | cons byte bytes ih =>
    refine (processNetworkByte_spec h pending byte).bind fun pending b1 hb1 => ?_
    cases pending with
    | none => exact spec_pure (.stop hb1.1)
    | some pending => exact ih (hb1.2 nofun) pending

/-! ### Passes of the loop -/

/-- What holds at the top of the loop. -/
structure Top (b : Bridge) : Prop extends Going b where
  /-- Nothing waits while the client accepts data. -/
  delivered : b.session.serialActive = true → b.session.serial.txSuspended = false → b.deferred = []

theorem onArrival_spec (h : Going b) (arrival : Arrival) : Spec Sound (onArrival arrival)
    (Goes Going) b := by
  unfold onArrival
  split
  · exact spec_pure (.stop h.inv.sound)
  · exact spec_pure (.stop h.inv.sound)
  · exact processNetworkBytes_spec h _ []
  · exact spec_pure (.go (fun _ h => h.inv) h)

theorem serve_spec (h : Going b) : Spec Sound serve (Goes Going) b := by
  have harrival : Spec Sound (do onArrival (← answer Moment.arrival)) (Goes Going) b :=
    spec_answer_bind h.inv.sound fun arrival => onArrival_spec h arrival
  refine spec_state_bind ?_
  simp only
  split
  · exact harrival
  · refine spec_answer_bind h.inv.sound fun uartFirst => ?_
    cases uartFirst with
    | false => exact harrival
    | true =>
      refine (uartReadAsync_spec h.inv .select uartChunk).bind fun result b1 hb1 => ?_
      cases result with
      | ok bytes =>
        obtain rfl : b1 = { b with log := b.log ++ [.received .select bytes] } := hb1
        show Spec Sound (if _ then _ else _) _ _
        split
        · next hnone =>
          subst hnone
          exact spec_pure (.go (fun _ h => h.inv) (h.kept (.quiet h.inv (quiet_received .select))))
        · exact Spec.goes_mono (captureSerialRx_spec h.inv (by decide) bytes) fun _ => h.kept
      | error error =>
        obtain rfl : b1 = { b with log := b.log ++ [.receiveError .select error] } := hb1
        have hquiet := Kept.quiet h.inv (quiet_receiveError .select error)
        exact Spec.goes_mono (notifyLineError_spec hquiet.inv error) fun _ hb =>
          h.kept (hquiet.trans hb.toKept)

theorem deliver_spec (h : Going b) : Spec Sound deliver (Goes Top) b := by
  refine spec_state_bind ?_
  by_cases hwaiting : (b.session.serialActive && !b.session.serial.txSuspended &&
    decide (b.deferred ≠ [])) = true
  · rw [if_pos hwaiting]
    simp only [Bool.and_eq_true, Bool.not_eq_true', decide_eq_true_eq] at hwaiting
    obtain ⟨⟨-, hsuspended⟩, -⟩ := hwaiting
    rw [hsuspended]
    refine (setSerialReceiveReady_spec h.inv.sound false false).bind fun ok b1 hb1 => ?_
    cases ok with
    | false => exact spec_pure (.stop hb1.1)
    | true =>
      have hinv := (hb1.goes.2 rfl).inv h.inv
      refine (flushDeferredRx_spec hinv).bind fun sent b2 hb2 => ?_
      refine (setSerialReceiveReady_spec hb2.1 true false).bind fun resumed b3 hb3 =>
        spec_pure ⟨hb3.1, fun hok => ?_⟩
      obtain ⟨hsent, hresumed⟩ := (Bool.and_eq_true _ _).mp hok
      obtain ⟨hkept, hempty⟩ := hb2.2 hsent
      have hasked := hb3.goes.2 hresumed
      refine ⟨⟨hasked.inv hkept.inv, fun hpaused => ?_⟩, fun _ _ => hasked.deferred.trans hempty⟩
      rw [hasked.rxPeerPaused] at hpaused
      exact absurd hpaused (by simp)
  · rw [if_neg hwaiting]
    refine spec_pure (.go (fun _ h => h.inv) ⟨h, fun hactive hsuspended => ?_⟩)
    simpa [hactive, hsuspended] using hwaiting

theorem Top.noted (h : Top b) (hnoted : Noted b b') : Top b' := by
  refine ⟨h.toGoing.kept hnoted.toKept, ?_⟩
  rw [hnoted.frame.session, hnoted.deferred]
  exact h.delivered

theorem Top.observed (h : Top b) (previousModemState : Option UInt8) (lastModem : UInt8) :
    Top { b with previousModemState, lastModem } :=
  ⟨⟨⟨⟨h.inv.sound.bursts, h.inv.sound.asked, h.inv.sound.sent⟩,
    ⟨h.inv.linked.outbound, h.inv.linked.paused, h.inv.linked.deferred⟩⟩, h.held⟩, h.delivered⟩

theorem modemStateChanged_spec (h : Top b) (rawState : UInt8) :
    Spec Sound (modemStateChanged rawState) (fun _ => Top) b := by
  refine spec_state_bind (spec_update_bind ?_)
  have htop := h.observed (some (rawState &&& 240)) b.lastModem
  split
  · exact spec_pure htop
  · simp only
    split
    · exact spec_pure htop
    · exact spec_pure htop

theorem notifyModemChange_spec (h : Top b) (current : UInt8) :
    Spec Sound (notifyModemChange current) (Goes Top) b := by
  refine (modemStateChanged_spec h current).bind fun message b1 hb1 => ?_
  cases message with
  | none => exact spec_pure (.go (fun _ h => h.inv) hb1)
  | some message =>
    refine spec_state_bind ?_
    simp only
    split
    · exact spec_pure (.go (fun _ h => h.inv) hb1)
    · exact Spec.goes_mono (confirm_spec hb1.inv message) fun _ => hb1.noted

theorem pollModem_spec (h : Top b) : Spec Sound pollModem (Goes Top) b := by
  refine (modemState_spec h.inv.sound).bind fun current b1 hb1 => ?_
  subst hb1
  refine spec_state_bind ?_
  split
  · refine spec_if (notifyModemChange_spec h current) (fun b2 hb2 => ?_) fun _ hb2 =>
      spec_pure (.stop hb2)
    have htop := hb2.observed b2.previousModemState current
    exact spec_update_bind (spec_pure (.go (fun _ h => h.inv) htop))
  · exact spec_pure (.go (fun _ h => h.inv) h)

theorem pass_spec (h : Top b) : Spec Sound pass (Goes Top) b :=
  spec_and (serve_spec h.toGoing) fun _ hb1 => spec_and (deliver_spec hb1) fun _ hb2 =>
    pollModem_spec hb2

/-! ### Sessions -/

/-- What holds before the first byte of the network. -/
structure Fresh (b : Bridge) : Prop where
  inv : Inv b
  rxPeerPaused : b.flow.rxPeerPaused = false
  deferred : b.deferred = []

theorem Fresh.top (h : Fresh b) : Top b := by
  refine ⟨⟨h.inv, fun hpaused => ?_⟩, fun _ _ => h.deferred⟩
  rw [h.rxPeerPaused] at hpaused
  exact nomatch hpaused

theorem Fresh.noted (h : Fresh b) (hnoted : Noted b b') : Fresh b' :=
  ⟨hnoted.inv, hnoted.frame.rxPeerPaused.trans h.rxPeerPaused, hnoted.deferred.trans h.deferred⟩

theorem fresh_new : Fresh .new :=
  ⟨⟨⟨fun _ _ hprefix => absurd (List.prefix_nil.mp hprefix) (by simp), by decide, List.prefix_rfl⟩,
    ⟨rfl, rfl, rfl⟩⟩, rfl, rfl⟩

/-- The session starts at the top of the loop, or ends with nothing held back. -/
theorem start_spec : Spec Sound start
    (fun ok b => Sound b ∧ (ok = true → Top b) ∧ (ok = false → b.flow.rxPeerPaused = false))
      .new := by
  refine (applyUartConfig_spec fresh_new.inv.sound).bind fun _ b hb => ?_
  subst hb
  refine (refreshRts_spec .new true false).bind fun _ b hb => ?_
  obtain ⟨asserted, rfl⟩ := hb
  have hfresh := fresh_new.noted (.quiet fresh_new.inv (quiet_rts asserted))
  refine spec_state_bind ?_
  generalize ServerSession.start 32 _ [] = started
  obtain ⟨session, hello, started⟩ := started
  refine spec_update_bind ?_
  have hsession : Fresh { Bridge.new with session, log := Bridge.new.log ++ [.rts asserted] } :=
    ⟨hfresh.inv.withSession session, hfresh.rxPeerPaused, hfresh.deferred⟩
  cases started with
  | error error => exact spec_pure ⟨hsession.inv.sound, nofun, fun _ => hsession.rxPeerPaused⟩
  | ok done =>
    refine (socketWrite_spec hsession.inv.sound _).bind fun ok b hb => ?_
    subst hb
    cases ok with
    | false => exact spec_pure ⟨hsession.inv.sound, nofun, fun _ => hsession.rxPeerPaused⟩
    | true =>
      have hhello := (hsession.noted (.quiet hsession.inv (quiet_control hello))).top
      refine (modemState_spec hhello.inv.sound).bind fun lastModem b hb => ?_
      subst hb
      refine spec_update_bind ?_
      refine (modemStateChanged_spec (hhello.observed none lastModem) lastModem).bind fun _ b hb =>
        ?_
      exact spec_pure ⟨hb.inv.sound, fun _ => hb, nofun⟩

/-- The device is released at the end, unless the UART takes no more. -/
theorem finish_spec (h : Sound b) : Spec Sound finish
    (fun _ b' => Sound b' ∧ (.writeError ∉ b'.log → b'.flow.rxPeerPaused = false)) b := by
  refine (setSerialReceiveReady_spec h true false).bind fun ok b1 hb1 => ?_
  refine spec_update_bind ?_
  have hsound : Sound { b1 with state := {} } := ⟨hb1.1.bursts, hb1.1.asked, hb1.1.sent⟩
  refine (applyUartConfig_spec hsound).bind fun _ b2 hb2 => ?_
  subst hb2
  refine (refreshRts_spec { b1 with state := {} } true false).mono fun _ b3 hb3 => ?_
  obtain ⟨asserted, rfl⟩ := hb3
  refine ⟨hsound.entry nofun rfl hsound.asked, fun hnone => ?_⟩
  cases ok with
  | true =>
    have hasked := (hb1.goes.2 rfl).rxPeerPaused
    rwa [Bool.not_true, Bool.false_or, Bool.and_false] at hasked
  | false => exact absurd (List.mem_append_left _ hb1.2) hnone

/-- The states in which a session waits or has ended. -/
inductive Observed : Bridge → Prop where
  | starting (answers : List Moment) : Observed (exec start .new answers).2
  | serving {b : Bridge} (h : system.Reachable b) (answers : List Moment) : Observed
    (exec pass b answers).2
  | finishing {b b' : Bridge} {answers : List Moment} (h : system.Reachable b)
      (hend : exec pass b answers = (some false, b')) (answers' : List Moment) : Observed
        (exec finish b' answers').2

/-- The states in which a session has ended. -/
inductive Ended : Bridge → Prop where
  | refused {b : Bridge} {answers : List Moment} (h : exec start .new answers = (some false, b)) :
    Ended b
  | finished {b b' b'' : Bridge} {answers answers' : List Moment} (h : system.Reachable b)
      (hend : exec pass b answers = (some false, b')) (hfinish : exec finish b' answers' =
        (some (), b'')) : Ended b''

theorem top (h : system.Reachable b) : Top b := by
  refine h.invariant (fun b hinit => ?_) fun b answers b' htop hstep => ?_
  · obtain ⟨answers, hexec⟩ := hinit
    have hstart := (start_spec.exec answers).1 true (by rw [hexec])
    rw [hexec] at hstart
    exact hstart.2.1 rfl
  · have hpass := ((pass_spec htop).exec answers).1
    generalize hexec : exec pass b answers = result at hpass hstep
    obtain ⟨ok, b1⟩ := result
    simp only [system, hexec] at hstep
    split at hstep
    · next heq =>
      obtain ⟨rfl, rfl⟩ := Prod.mk.inj heq
      exact Option.some.inj hstep ▸ (hpass true rfl).2 rfl
    · exact nomatch hstep

theorem sound_end {answers : List Moment} (h : system.Reachable b)
    (hend : exec pass b answers = (some false, b')) : Sound b' := by
  have hpass := ((pass_spec (top h)).exec answers).1 false (by rw [hend])
  rw [hend] at hpass
  exact hpass.1

/-- A program that is sound where it ends and where it waits is sound wherever it is observed. -/
theorem Spec.observed {α : Type} {m : BridgeM α} {Q : α → Bridge → Prop} (h : Spec Sound m Q b)
    (hQ : ∀ a b', Q a b' → Sound b') (answers : List Moment) : Sound (exec m b answers).2 := by
  obtain ⟨hdone, hwait⟩ := h.exec answers
  cases hresult : (exec m b answers).1 with
  | none => exact hwait hresult
  | some a => exact hQ a _ (hdone a hresult)

theorem sound (h : Observed b) : Sound b := by
  cases h with
  | starting answers => exact Spec.observed start_spec (fun _ _ hb => hb.1) answers
  | serving h answers => exact Spec.observed (pass_spec (top h)) (fun _ _ hb => hb.1) answers
  | finishing h hend answers' =>
    exact Spec.observed (finish_spec (sound_end h hend)) (fun _ _ hb => hb.1) answers'

theorem released (h : Ended b) (hwrites : .writeError ∉ b.log) : b.flow.rxPeerPaused = false := by
  cases h with
  | @refused _ answers h =>
    have hstart := (start_spec.exec answers).1 false (by rw [h])
    rw [h] at hstart
    exact hstart.2.2 rfl
  | @finished _ _ _ _ answers' h hend hfinish =>
    have hspec := ((finish_spec (sound_end h hend)).exec answers').1 () (by rw [hfinish])
    rw [hfinish] at hspec
    exact hspec.2 hwrites

/-- At the top of the loop all that the UART received for the client is sent or waits, nothing waits
while the client accepts it, and the device is held back only while the client has suspended
delivery. Wherever the session waits, no burst was offered to the UART while the device had it
paused unless its own wait for XON ended with an error, the bridge knows what it asked of the
device, and what was sent is the beginning of what is kept. The device is released when the session
ends. -/
theorem flow_control : (∀ b, system.Reachable b → Top b) ∧ (∀ b, Observed b → Sound b) ∧
    ∀ b, Ended b → .writeError ∉ b.log → b.flow.rxPeerPaused = false :=
  ⟨fun _ => top, fun _ => sound, fun _ => released⟩

def Entry.flowBytes : Entry → List UInt8
  | .received _ bytes => bytes.filter fun byte => byte = xoff || byte = xon
  | _ => []

/-- The last flow byte that the device sent. -/
def lastFlowByte (log : List Entry) : Option UInt8 := (log.flatMap Entry.flowBytes).getLast?

namespace Sample

/-- Answers that let every write through. -/
def calm (n : Nat) : List Moment := List.replicate n {}

def opened : Bridge := (exec start .new (calm 5)).2

/-- The client agrees to the serial mode and sets software flow control, and the device sends XOFF.
-/
def pausedRun : List (List Moment) :=
  [{ arrival := .read [iac, willVerb, optBinary, iac, doVerb, optBinary, iac, willVerb, optComPort]
    } :: calm 10, {} :: { arrival := .read [iac, sb, optComPort, 5, 2, iac, se] } :: calm 10,
    { uartFirst := true } :: { uartRead := .ok [xoff] } :: calm 10]

/-- The client sets the flow control again, and sends a byte. -/
def setAgain : List Moment :=
  {} :: { arrival := .read [iac, sb, optComPort, 5, 2, iac, se, 66] } :: calm 10

/-- The client sends a byte, and the UART reports an error during the wait for XON. -/
def errorDuringWait : List Moment :=
  {} :: { arrival := .read [66] } :: {} :: {} :: { uartRead := .error .parityMismatch } :: calm 10

end Sample

open Sample in
/-- A burst between XOFF and XON: where the client sets the flow control again, and where the UART
reports an error during the wait for XON. -/
theorem burst_while_paused : system.init opened ∧ ∀ last ∈ [setAgain, errorDuringWait],
    ∃ b, system.replay opened (pausedRun ++ [last]) = some b ∧ ∃ before, before ++ [.burst [66]] =
      b.log ∧ (line before).outbound = .xonXoff ∧ lastFlowByte before = some xoff := by
  have hrun : ∀ last ∈ [setAgain, errorDuringWait],
    ((system.replay opened (pausedRun ++ [last])).map fun b =>
      (b.log.getLast?, (line b.log.dropLast).outbound, lastFlowByte b.log.dropLast)) =
      some (some (.burst [66]), .xonXoff, some xoff) :=
    List.all_iff_forall_prop.mp (by decide +kernel)
  refine ⟨⟨calm 5, Prod.ext (by decide) rfl⟩, fun last hlast => ?_⟩
  obtain ⟨b, hreplay, hb⟩ := Option.map_eq_some_iff.mp (hrun last hlast)
  obtain ⟨hlog, hb⟩ := Prod.mk.inj hb
  obtain ⟨houtbound, hlastByte⟩ := Prod.mk.inj hb
  exact ⟨b, hreplay, b.log.dropLast, List.dropLast_append_getLast? _ hlog, houtbound, hlastByte⟩

end Microtun.Rfc2217
