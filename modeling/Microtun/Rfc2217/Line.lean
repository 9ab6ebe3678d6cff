import Microtun.Rfc2217.Port

/-! What the log of the bridge says about the flow on both sides, and what the state of the bridge
keeps of it. -/

namespace Microtun.Rfc2217

open Telnet Awaiting

/-- The line as an observer of the log sees it. -/
structure Line where
  /-- The outbound flow control that the client set. -/
  outbound : OutboundFlow := .none
  /-- The device sent XOFF under software flow control, and since then neither sent XON nor was the
  outbound flow control set. -/
  paused : Bool := false
  /-- The last flow byte that the bridge sent. -/
  asked : Option UInt8 := none
  /-- What the device sent for the client, without what was purged before it was sent on. -/
  kept : List UInt8 := []
  /-- What was sent to the client. -/
  sent : List UInt8 := []
deriving DecidableEq, Repr

namespace Line

def receive (place : Place) (l : Line) (byte : UInt8) : Line :=
  if l.outbound = .xonXoff ∧ byte = xoff then { l with paused := true }
  else if l.outbound = .xonXoff ∧ byte = xon then { l with paused := false }
  else if place = .purge then l
  else { l with kept := l.kept ++ [byte] }

def after (l : Line) : Entry → Line
  | .received place bytes => bytes.foldl (receive place) l
  | .request (.outboundFlow (.set value)) =>
    if value = .dcd ∨ value = .dsr then l else { l with outbound := value, paused := false }
  | .request (.purge target) => if target = .receive ∨ target = .both then { l with kept := l.sent }
    else l
  | .flow bytes => { l with asked := bytes.getLast?.or l.asked }
  | .data bytes => { l with sent := l.sent ++ bytes }
  | _ => l

end Line

def line (log : List Entry) : Line := log.foldl Line.after {}

theorem line_append (log : List Entry) (e : Entry) : line (log ++ [e]) = (line log).after e := by
  rw [line, List.foldl_append]
  rfl

/-- An error of the UART fails the wait for XON, and the burst after it ends that. -/
def Entry.waitFailed (failed : Bool) : Entry → Bool
  | .receiveError .wait _ => true
  | .burst _ => false
  | _ => failed

/-- The wait before the burst to come ended with an error of the UART. -/
def waitFailed (log : List Entry) : Bool := log.foldl Entry.waitFailed false

theorem waitFailed_append (log : List Entry) (e : Entry) : waitFailed (log ++ [e]) = e.waitFailed
    (waitFailed log) := by
  rw [waitFailed, List.foldl_append]
  rfl

/-- No burst of client data is offered to the UART while the device has it paused, unless its own
wait ended with an error of the UART. -/
def Bursts (log : List Entry) : Prop :=
  ∀ before bytes, before ++ [.burst bytes] <+: log → waitFailed before = false →
    (line before).outbound = .xonXoff → (line before).paused = false

theorem Bursts.append {log : List Entry} {e : Entry} (h : Bursts log)
    (he : ∀ bytes, e = .burst bytes → waitFailed log = false →
      (line log).outbound = .xonXoff → (line log).paused = false) : Bursts (log ++ [e]) := by
  intro before bytes hprefix hwait houtbound
  rcases List.prefix_concat_iff.mp hprefix with heq | hprefix
  · obtain ⟨rfl, hlast⟩ := List.append_inj' heq rfl
    exact he bytes (List.cons.inj hlast).1.symm hwait houtbound
  · exact h before bytes hprefix hwait houtbound

/-! ### The state of the bridge -/

/-- What holds wherever the bridge waits. -/
structure Sound (b : Bridge) : Prop where
  bursts : Bursts b.log
  /-- The bridge knows what it asked of the device. -/
  asked : b.flow.rxPeerPaused = true ↔ (line b.log).asked = some xoff
  /-- What is sent is the beginning of what is kept. -/
  sent : (line b.log).sent <+: (line b.log).kept

/-- The port and the queue agree with the line. -/
structure Linked (l : Line) (state : PortState) (flow : FlowRuntime) (deferred : List UInt8) :
    Prop where
  outbound : state.outboundFlow = l.outbound
  paused : flow.txPausedByPeer = l.paused
  deferred : l.kept = l.sent ++ deferred

/-- The device is held back only while the client has suspended delivery and the software inbound
flow control is on. -/
def Held (b : Bridge) : Prop :=
  b.flow.rxPeerPaused = true → b.session.serial.txSuspended = true ∧ b.state.softwareInboundFlow =
    true

/-- What holds between the steps of the bridge. -/
structure Inv (b : Bridge) : Prop where
  sound : Sound b
  linked : Linked (line b.log) b.state b.flow b.deferred

/-- What the flow of bytes leaves alone. -/
structure Frame (b b' : Bridge) : Prop where
  state : b'.state = b.state
  session : b'.session = b.session
  rxPeerPaused : b'.flow.rxPeerPaused = b.flow.rxPeerPaused
  log : b.log <+: b'.log

/-- What the flow of bytes keeps. -/
structure Kept (b b' : Bridge) : Prop where
  inv : Inv b'
  frame : Frame b b'

/-- What a message to the client keeps. -/
structure Noted (b b' : Bridge) : Prop extends Kept b b' where
  deferred : b'.deferred = b.deferred
  waitFailed : waitFailed b.log = true → waitFailed b'.log = true

variable {b b' b'' : Bridge}

theorem Frame.refl (b : Bridge) : Frame b b := ⟨rfl, rfl, rfl, List.prefix_rfl⟩

theorem Frame.trans (h : Frame b b') (h' : Frame b' b'') : Frame b b'' :=
  ⟨h'.state.trans h.state, h'.session.trans h.session, h'.rxPeerPaused.trans h.rxPeerPaused,
    h.log.trans h'.log⟩

theorem Kept.refl (h : Inv b) : Kept b b := ⟨h, .refl b⟩

theorem Kept.trans (h : Kept b b') (h' : Kept b' b'') : Kept b b'' :=
    ⟨h'.inv, h.frame.trans h'.frame⟩

theorem Inv.entry (h : Inv b) {e : Entry} {state : PortState} {flow : FlowRuntime}
    {deferred : List UInt8} (he : ∀ bytes, e ≠ .burst bytes)
    (hasked : ((line b.log).after e).asked = some xoff ↔ flow.rxPeerPaused = true)
    (hlinked : Linked ((line b.log).after e) state flow deferred) :
    Inv { b with state, flow, deferred, log := b.log ++ [e] } := by
  rw [← line_append] at hasked hlinked
  exact ⟨⟨h.sound.bursts.append fun bytes heq => absurd heq (he bytes),
    hasked.symm, ⟨deferred, hlinked.deferred.symm⟩⟩, hlinked⟩

/-- Entries that say nothing about the line, and are no burst. -/
def Entry.Quiet (e : Entry) : Prop := (∀ l : Line, l.after e = l) ∧ ∀ bytes, e ≠ .burst bytes

theorem Entry.Quiet.waitFailed {e : Entry} (he : e.Quiet) : e.waitFailed true = true := by
  unfold Entry.waitFailed
  split
  · rfl
  · next bytes => exact absurd rfl (he.2 bytes)
  · rfl

theorem Noted.quiet (h : Inv b) {e : Entry} (he : e.Quiet) :
    Noted b { b with log := b.log ++ [e] } := by
  have hinv : Inv { b with log := b.log ++ [e] } := by
    refine h.entry he.2 ?_ ?_
    · rw [he.1]
      exact h.sound.asked.symm
    · rw [he.1]
      exact h.linked
  refine ⟨⟨hinv, ⟨rfl, rfl, rfl, List.prefix_append _ _⟩⟩, rfl, fun hfailed => ?_⟩
  rw [waitFailed_append, hfailed]
  exact he.waitFailed

theorem Kept.quiet (h : Inv b) {e : Entry} (he : e.Quiet) : Kept b { b with log := b.log ++ [e] } :=
  (Noted.quiet h he).toKept

theorem Noted.refl (h : Inv b) : Noted b b := ⟨.refl h, rfl, id⟩

/-! ### Bytes of the UART -/

section

variable {place : Place} {l : Line} {state : PortState} {flow : FlowRuntime} {deferred : List UInt8}
  {byte : UInt8}

@[simp] theorem receive_outbound : (l.receive place byte).outbound = l.outbound := by
  unfold Line.receive
  split
  · rfl
  · split
    · rfl
    · split <;> rfl

@[simp] theorem receive_asked : (l.receive place byte).asked = l.asked := by
  unfold Line.receive
  split
  · rfl
  · split
    · rfl
    · split <;> rfl

@[simp] theorem receive_sent : (l.receive place byte).sent = l.sent := by
  unfold Line.receive
  split
  · rfl
  · split
    · rfl
    · split <;> rfl

theorem receive_kept : l.kept <+: (l.receive place byte).kept := by
  unfold Line.receive
  split
  · exact List.prefix_rfl
  · split
    · exact List.prefix_rfl
    · split
      · exact List.prefix_rfl
      · exact List.prefix_append _ _

theorem foldl_receive (place : Place) (bytes : List UInt8) (l : Line) :
    (bytes.foldl (Line.receive place) l).outbound = l.outbound ∧
    (bytes.foldl (Line.receive place) l).asked = l.asked ∧
    (bytes.foldl (Line.receive place) l).sent = l.sent ∧
    l.kept <+: (bytes.foldl (Line.receive place) l).kept := by
  induction bytes generalizing l with
  | nil => exact ⟨rfl, rfl, rfl, List.prefix_rfl⟩
  | cons byte bytes ih =>
    obtain ⟨houtbound, hasked, hsent, hkept⟩ := ih (l.receive place byte)
    exact ⟨houtbound.trans receive_outbound, hasked.trans receive_asked, hsent.trans receive_sent,
      receive_kept.trans hkept⟩

theorem consume_rxPeerPaused (state : PortState) (flow : FlowRuntime) (byte : UInt8) :
    (consumeReceivedFlowByte state flow byte).2.rxPeerPaused = flow.rxPeerPaused := by
  unfold consumeReceivedFlowByte
  split
  · rfl
  · split
    · rfl
    · split <;> rfl

/-- A flow byte is taken by the bridge, any other byte waits for the client unless it is purged. -/
theorem Linked.take (h : Linked l state flow deferred) (place : Place) (byte : UInt8) :
    Linked (l.receive place byte) state (consumeReceivedFlowByte state flow byte).2
      (if (consumeReceivedFlowByte state flow byte).1 ∨ place = .purge then deferred
        else deferred ++ [byte]) := by
  have hsoftware : state.softwareOutboundFlow = decide (l.outbound = .xonXoff) := by
    rw [PortState.softwareOutboundFlow, h.outbound]
  have hkept : l.kept ++ [byte] =
      l.sent ++ (deferred ++ [byte]) := by rw [h.deferred, List.append_assoc]
  unfold consumeReceivedFlowByte Line.receive
  rw [hsoftware]
  by_cases hon : l.outbound = .xonXoff
  · by_cases hoff : byte = xoff
    · simp only [hon, hoff, decide_true, Bool.not_true, Bool.false_eq_true, if_false, if_true,
        true_and, true_or]
      exact ⟨h.outbound.trans hon, rfl, h.deferred⟩
    · by_cases hgo : byte = xon
      · simp only [hon, hgo, decide_true, Bool.not_true, Bool.false_eq_true, if_false, if_true,
          and_true, true_and]
        exact ⟨h.outbound.trans hon, rfl, h.deferred⟩
      · simp only [hon, hoff, hgo, decide_true, Bool.not_true, Bool.false_eq_true, if_false,
          and_false, false_or]
        split
        · exact h
        · exact ⟨h.outbound.trans hon, h.paused, hkept⟩
  · simp only [hon, decide_false, Bool.not_false, if_true, false_and, if_false, Bool.false_eq_true,
      false_or]
    split
    · exact h
    · exact ⟨h.outbound, h.paused, hkept⟩

theorem captureBytes_rxPeerPaused (state : PortState) (flow : FlowRuntime)
    (deferred bytes : List UInt8) :
    (captureBytes state flow deferred bytes).2.1.rxPeerPaused = flow.rxPeerPaused := by
  induction bytes generalizing flow deferred with
  | nil => rfl
  | cons byte bytes ih =>
    have hflow := consume_rxPeerPaused state flow byte
    unfold captureBytes
    cases hconsume : consumeReceivedFlowByte state flow byte with
    | mk taken flow' =>
      rw [hconsume] at hflow
      cases taken with
      | true => exact (ih _ _).trans hflow
      | false =>
        simp only
        split
        · exact (ih _ _).trans hflow
        · exact hflow

/-- All bytes are captured, or the queue is full and the session ends. -/
theorem Linked.capture (h : Linked l state flow deferred) (hplace : place ≠ .purge)
    (bytes : List UInt8) (hok : (captureBytes state flow deferred bytes).1 = true) :
    Linked (bytes.foldl (Line.receive place) l) state (captureBytes state flow deferred bytes).2.1
      (captureBytes state flow deferred bytes).2.2 := by
  induction bytes generalizing l flow deferred with
  | nil => exact h
  | cons byte bytes ih =>
    have hbyte := h.take place byte
    simp only [hplace, or_false] at hbyte
    unfold captureBytes at hok ⊢
    cases hconsume : consumeReceivedFlowByte state flow byte with
    | mk taken flow' =>
      rw [hconsume] at hbyte hok
      cases taken with
      | true => exact ih hbyte hok
      | false =>
        simp only at hok ⊢
        by_cases hroom : deferred.length < deferredRx
        · rw [if_pos hroom] at hok ⊢
          exact ih hbyte hok
        · rw [if_neg hroom] at hok
          exact nomatch hok

theorem Linked.discardAll (h : Linked l state flow deferred) (bytes : List UInt8) :
    Linked (bytes.foldl (Line.receive .purge) l) state
      (bytes.foldl (fun flow byte => (consumeReceivedFlowByte state flow byte).2) flow)
        deferred := by
  induction bytes generalizing l flow with
  | nil => exact h
  | cons byte bytes ih =>
    have hbyte := h.take .purge byte
    rw [if_pos (Or.inr rfl)] at hbyte
    exact ih hbyte

theorem discard_rxPeerPaused (state : PortState) (flow : FlowRuntime) (bytes : List UInt8) :
    (bytes.foldl (fun flow byte => (consumeReceivedFlowByte state flow byte).2) flow).rxPeerPaused =
      flow.rxPeerPaused := by
  induction bytes generalizing flow with
  | nil => rfl
  | cons byte bytes ih => exact (ih _).trans (consume_rxPeerPaused state flow byte)

end

end Microtun.Rfc2217
