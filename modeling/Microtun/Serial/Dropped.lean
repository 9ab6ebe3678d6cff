import Microtun.Serial.Session

/-! Dropping the future that reads the server loses no event, and loses a reply exactly where one is
on its way. -/

namespace Microtun.Serial.Session

open Telnet

/-- What is written whole: the reply to a byte, or a message of the device. -/
inductive Message where
  | reply (bytes : List UInt8)
  | device (bytes : List UInt8)
deriving DecidableEq, Repr

namespace Message

def bytes : Message → List UInt8
  | reply bytes | device bytes => bytes

def reply? : Message → Option (List UInt8)
  | reply bytes => some bytes
  | device _ => none

def device? : Message → Option (List UInt8)
  | reply _ => none
  | device bytes => some bytes

end Message

/-- The bytes are replies and messages of the device one after another, each whole and each kind in
its order. -/
def Interleaved (bytes : List UInt8) (replies messages : List (List UInt8)) : Prop :=
  ∃ log : List Message, log.flatMap Message.bytes = bytes ∧ log.filterMap Message.reply? = replies ∧
    log.filterMap Message.device? = messages

/-- The events and the replies of the reads one after another. -/
def processAll (s : SerialSession) (reads : List (List UInt8)) : SerialSession × List
    (List UInt8) :=
  reads.foldl (fun r bytes => let (s, replies) := processWireBytes r.1 bytes; (s, r.2 ++ replies))
    (s, [])

/-! ### One read after another -/

theorem takeEvent_append (before pending : List SessionEvent) (data : List UInt8)
    (event : Option ClientEvent) : takeEvent (before ++ pending) data event =
      (before ++ (takeEvent pending data event).1, (takeEvent pending data event).2) := by
  have hflush : flushDataEvent (before ++ pending) data =
      before ++ flushDataEvent pending data := by
    unfold flushDataEvent
    split
    · rfl
    · rw [List.append_assoc]
  unfold takeEvent
  split <;> simp only [hflush, List.append_assoc]

theorem feedAll_append (bytes : List UInt8) (protocol : SerialProtocol)
    (before pending : List SessionEvent) (data : List UInt8) (replies : List (List UInt8)) :
    feedAll bytes ⟨protocol, before ++ pending⟩ data replies =
      (⟨(feedAll bytes ⟨protocol, pending⟩ data replies).1.protocol,
        before ++ (feedAll bytes ⟨protocol, pending⟩ data replies).1.pending⟩,
        (feedAll bytes ⟨protocol, pending⟩ data replies).2) := by
  induction bytes generalizing protocol pending data replies with
  | nil =>
    unfold feedAll flushDataEvent
    split
    · rfl
    · simp only [List.append_assoc]
  | cons byte bytes ih =>
    rw [feedAll, feedAll]
    simp only [takeEvent_append, ih]

theorem processWireBytes_append (protocol : SerialProtocol) (before pending : List SessionEvent)
    (bytes : List UInt8) : processWireBytes ⟨protocol, before ++ pending⟩ bytes =
      (⟨(processWireBytes ⟨protocol, pending⟩ bytes).1.protocol,
        before ++ (processWireBytes ⟨protocol, pending⟩ bytes).1.pending⟩,
        (processWireBytes ⟨protocol, pending⟩ bytes).2) :=
  feedAll_append bytes protocol before pending [] []

theorem processAll_append (s : SerialSession) (reads : List (List UInt8)) (bytes : List UInt8) :
    processAll s (reads ++ [bytes]) = ((processWireBytes (processAll s reads).1 bytes).1,
        (processAll s reads).2 ++ (processWireBytes (processAll s reads).1 bytes).2) := by
  rw [processAll, List.foldl_append]
  rfl

namespace Loop

variable {start : SerialSession} {w w' u : Loop}

/-! ### Steps -/

/-- The socket takes the front of what it is given, and the loop goes on when nothing is left. -/
theorem accept_spec {n : Nat} (h : w.accept n = some w') : ∃ taken rest, w.task.rest =
    taken ++ rest ∧
    ((∃ task : Task, task.rest = rest ∧ w' = { w with sent := w.sent ++ taken, task }) ∨
      (rest = [] ∧ w' = { w with sent := w.sent ++ taken }.next)) := by
  obtain ⟨-, h⟩ := Option.ite_none_left_eq_some.mp h
  refine ⟨w.task.rest.take n, w.task.rest.drop n, (List.take_append_drop n _).symm, ?_⟩
  simp only at h
  cases htask : w.task with
  | replying rest =>
    rw [htask] at h
    by_cases hdone : rest.drop n = []
    · simp only [if_pos hdone, Option.some.injEq] at h
      exact .inr ⟨hdone, h.symm⟩
    · simp only [if_neg hdone, Option.some.injEq] at h
      exact .inl ⟨.replying (rest.drop n), rfl, h.symm⟩
  | sending rest =>
    rw [htask] at h
    by_cases hdone : rest.drop n = []
    · simp only [if_pos hdone, Option.some.injEq] at h
      exact .inl ⟨.idle, hdone.symm, h.symm⟩
    · simp only [if_neg hdone, Option.some.injEq] at h
      exact .inl ⟨.sending (rest.drop n), rfl, h.symm⟩
  | _ =>
    rw [htask] at h
    cases h

theorem device_wire {wire : Option (List UInt8)}
    (h : (match wire with
      | none => some { w with task := .returned }
      | some wire => some { w with
          task := if wire = [] then .idle else .sending wire
          messages := w.messages ++ [wire] }) = some w') :
    w' = { w with task := .returned } ∨
      ∃ task : Task, w' = { w with task, messages := w.messages ++ [task.rest] } := by
  cases wire with
  | none => exact .inl (Option.some.inj h).symm
  | some wire =>
    refine .inr ⟨if wire = [] then .idle else .sending wire, (Option.some.inj h).symm.trans ?_⟩
    by_cases hwire : wire = []
    · subst hwire
      rfl
    · simp only [if_neg hwire, Task.rest]

theorem device_spec {event : DeviceEvent} (h : w.device event = some w') :
    (w.task.rest = [] ∨ ∃ rest, w.task = .replying rest) ∧
      (w' = { w with task := .returned } ∨
        ∃ task : Task, w' = { w with task, messages := w.messages ++ [task.rest] }) := by
  obtain ⟨-, h⟩ := Option.ite_none_left_eq_some.mp h
  cases htask : w.task with
  | idle =>
    rw [htask] at h
    exact ⟨.inl rfl, device_wire h⟩
  | reading =>
    rw [htask] at h
    exact ⟨.inl rfl, device_wire h⟩
  | replying rest =>
    rw [htask] at h
    exact ⟨.inr ⟨rest, rfl⟩, device_wire h⟩
  | _ =>
    rw [htask] at h
    cases h

/-! ### Events are kept -/

/-- The protocol took all that was read, and every event is returned or waits. -/
structure Kept (start : SerialSession) (w : Loop) : Prop where
  protocol : w.session.protocol = (processAll start w.reads).1.protocol
  events : w.delivered ++ w.session.pending = (processAll start w.reads).1.pending

theorem session_handle (w : Loop) (event : SessionEvent) :
    (w.handle event).session = w.session := by
  unfold handle
  split <;> rfl

theorem delivered_handle (w : Loop) (event : SessionEvent) :
    (w.handle event).delivered = w.delivered ++ [event] := by
  unfold handle
  split <;> rfl

theorem reads_handle (w : Loop) (event : SessionEvent) : (w.handle event).reads = w.reads := by
  unfold handle
  split <;> rfl

theorem Kept.next (h : Kept start w) : Kept start w.next := by
  unfold Loop.next
  cases hpending : w.session.pending with
  | nil => exact ⟨h.protocol, h.events⟩
  | cons event pending =>
    constructor
    · rw [session_handle, reads_handle]
      exact h.protocol
    · rw [delivered_handle, session_handle, reads_handle, ← h.events, hpending, List.append_assoc]
      rfl

theorem Kept.read (h : Kept start w) (bytes : List UInt8) : Kept start (w.read bytes) := by
  have hsession : (processAll start w.reads).1 =
      ⟨w.session.protocol, w.delivered ++ w.session.pending⟩ := by
    rw [h.protocol, h.events]
  have hread : Kept start { w with
      session := (processWireBytes w.session bytes).1, reads := w.reads ++ [bytes] } := by
    constructor
    · rw [processAll_append, hsession, processWireBytes_append]
    · rw [processAll_append, hsession, processWireBytes_append]
  unfold Loop.read
  simp only
  split
  · exact hread.next
  · exact ⟨hread.protocol, hread.events⟩

theorem Kept.step {e : Event} (h : Kept start w) (hstep : w.step e = some w') : Kept start w' := by
  cases e with
  | poll =>
    obtain ⟨-, heq⟩ := Option.ite_none_right_eq_some.mp hstep
    exact Option.some.inj heq ▸ h.next
  | read bytes =>
    obtain ⟨-, heq⟩ := Option.ite_none_right_eq_some.mp hstep
    exact Option.some.inj heq ▸ h.read bytes
  | closed =>
    obtain ⟨-, heq⟩ := Option.ite_none_right_eq_some.mp hstep
    exact Option.some.inj heq ▸ ⟨h.protocol, h.events⟩
  | push ok =>
    obtain ⟨-, heq⟩ := Option.ite_none_right_eq_some.mp hstep
    exact Option.some.inj heq ▸ ⟨h.protocol, h.events⟩
  | accept n =>
    obtain ⟨taken, rest, -, ⟨task, -, rfl⟩ | ⟨-, rfl⟩⟩ := accept_spec hstep
    · exact ⟨h.protocol, h.events⟩
    · exact Kept.next ⟨h.protocol, h.events⟩
  | device event =>
    obtain ⟨-, rfl | ⟨task, rfl⟩⟩ := device_spec hstep
    · exact ⟨h.protocol, h.events⟩
    · exact ⟨h.protocol, h.events⟩

theorem kept (h : (system start).Reachable w) : Kept start w := by
  refine h.invariant (fun w hinit => ?_) fun _ _ _ h hstep => h.step hstep
  subst hinit
  exact ⟨rfl, rfl⟩

/-! ### Replies are whole -/

/-- What is sent and on its way is whole replies and whole messages. -/
def Logged (start : SerialSession) (w : Loop) : Prop :=
  Interleaved (w.sent ++ w.task.rest) (processAll start w.reads).2 w.messages

theorem sent_handle (w : Loop) (event : SessionEvent) : (w.handle event).sent = w.sent := by
  unfold handle
  split <;> rfl

theorem messages_handle (w : Loop) (event : SessionEvent) :
    (w.handle event).messages = w.messages := by
  unfold handle
  split <;> rfl

theorem rest_handle (w : Loop) (event : SessionEvent) : (w.handle event).task.rest = [] := by
  unfold handle
  split
  · rfl
  · rfl
  · rfl
  · simp only
    split <;> rfl
  · rfl

theorem Logged.next (h : Interleaved w.sent (processAll start w.reads).2 w.messages) :
    Logged start w.next := by
  unfold Logged Loop.next
  cases w.session.pending with
  | nil =>
    show Interleaved (w.sent ++ []) _ _
    rwa [List.append_nil]
  | cons event pending =>
    rwa [sent_handle, reads_handle, messages_handle, rest_handle, List.append_nil]

theorem Interleaved.replies {bytes : List UInt8} {replies messages : List (List UInt8)}
    (h : Interleaved bytes replies messages) (more : List (List UInt8)) :
    Interleaved (bytes ++ more.flatten) (replies ++ more) messages := by
  obtain ⟨log, rfl, rfl, rfl⟩ := h
  refine ⟨log ++ more.map .reply, ?_, ?_, ?_⟩
  · rw [List.flatMap_append, List.flatMap_map]
    simp [Message.bytes, List.flatMap_id']
  · simp [List.filterMap_append, List.filterMap_map, Function.comp_def, Message.reply?]
  · simp [List.filterMap_append, List.filterMap_map, Function.comp_def, Message.device?]

theorem Interleaved.message {bytes : List UInt8} {replies messages : List (List UInt8)}
    (h : Interleaved bytes replies messages) (message : List UInt8) :
    Interleaved (bytes ++ message) replies (messages ++ [message]) := by
  obtain ⟨log, rfl, rfl, rfl⟩ := h
  refine ⟨log ++ [.device message], ?_, ?_, ?_⟩
  · simp [Message.bytes]
  · simp [Message.reply?]
  · simp [Message.device?]

theorem Logged.read (h : Interleaved w.sent (processAll start w.reads).2 w.messages)
    (hkept : Kept start w) (bytes : List UInt8) : Logged start (w.read bytes) := by
  have hsession : (processAll start w.reads).1 =
      ⟨w.session.protocol, w.delivered ++ w.session.pending⟩ := by
    rw [hkept.protocol, hkept.events]
  have hreplies : (processAll start (w.reads ++ [bytes])).2 =
      (processAll start w.reads).2 ++ (processWireBytes w.session bytes).2 := by
    rw [processAll_append, hsession, processWireBytes_append]
  have hmore := Interleaved.replies h (processWireBytes w.session bytes).2
  rw [← hreplies] at hmore
  unfold Loop.read
  simp only
  split
  · next hnone =>
    refine Logged.next ?_
    rwa [hnone, List.append_nil] at hmore
  · exact hmore

theorem Logged.step {e : Event} (h : Logged start w) (hkept : Kept start w) (hwhole : Whole w e)
    (hstep : w.step e = some w') : Logged start w' := by
  have hidle (hrest : w.task.rest = []) : Interleaved w.sent (processAll start w.reads).2
      w.messages := by
    have hlog : Interleaved (w.sent ++ w.task.rest) _ _ := h
    rwa [hrest, List.append_nil] at hlog
  cases e with
  | poll =>
    obtain ⟨htask, heq⟩ := Option.ite_none_right_eq_some.mp hstep
    exact Option.some.inj heq ▸ Logged.next (hidle (by rw [htask]; rfl))
  | read bytes =>
    obtain ⟨⟨htask, -⟩, heq⟩ := Option.ite_none_right_eq_some.mp hstep
    exact Option.some.inj heq ▸ Logged.read (hidle (by rw [htask]; rfl)) hkept bytes
  | closed =>
    obtain ⟨htask, heq⟩ := Option.ite_none_right_eq_some.mp hstep
    obtain rfl := Option.some.inj heq
    show Interleaved (w.sent ++ []) _ _
    rw [List.append_nil]
    exact hidle (by rw [htask]; rfl)
  | push ok =>
    obtain ⟨htask, heq⟩ := Option.ite_none_right_eq_some.mp hstep
    obtain rfl := Option.some.inj heq
    have hnone : (if ok then Task.idle else Task.returned).rest = [] := by cases ok <;> rfl
    show Interleaved (w.sent ++ (if ok then Task.idle else Task.returned).rest) _ _
    rw [hnone, List.append_nil]
    exact hidle (by rw [htask]; rfl)
  | accept n =>
    have hlog : Interleaved (w.sent ++ w.task.rest) _ _ := h
    obtain ⟨taken, rest, hsplit, ⟨task, hrest, rfl⟩ | ⟨hrest, rfl⟩⟩ := accept_spec hstep
    · rw [hsplit, ← List.append_assoc] at hlog
      show Interleaved (w.sent ++ taken ++ task.rest) _ _
      rwa [hrest]
    · rw [hsplit, hrest, List.append_nil] at hlog
      exact Logged.next hlog
  | device event =>
    obtain ⟨hbefore, hafter⟩ := device_spec hstep
    have hrest : w.task.rest = [] := by
      rcases hbefore with hrest | ⟨rest, htask⟩
      · exact hrest
      · exact absurd htask (hwhole rest)
    rcases hafter with rfl | ⟨task, rfl⟩
    · show Interleaved (w.sent ++ []) _ _
      rw [List.append_nil]
      exact hidle hrest
    · exact Interleaved.message (hidle hrest) task.rest

theorem logged (h : (system start).ReachableUnder Whole w) : Logged start w := by
  refine h.invariant (fun _ hreach => kept hreach) (fun w hinit => ?_)
    fun _ _ _ hkept h hwhole hstep => h.step hkept hwhole hstep
  subst hinit
  exact ⟨[], rfl, rfl, rfl⟩

theorem messages_next (w : Loop) : w.next.messages = w.messages := by
  unfold Loop.next
  cases w.session.pending with
  | nil => rfl
  | cons event pending => exact messages_handle _ _

theorem messages_read (w : Loop) (bytes : List UInt8) : (w.read bytes).messages = w.messages := by
  unfold Loop.read
  simp only
  split
  · exact messages_next _
  · rfl

theorem messages_step {e : Event} (hcond : Undisturbed w e) (hstep : w.step e = some w') :
    w'.messages = w.messages := by
  cases e with
  | poll =>
    obtain ⟨-, heq⟩ := Option.ite_none_right_eq_some.mp hstep
    exact Option.some.inj heq ▸ messages_next w
  | read bytes =>
    obtain ⟨-, heq⟩ := Option.ite_none_right_eq_some.mp hstep
    exact Option.some.inj heq ▸ messages_read w bytes
  | closed =>
    obtain ⟨-, heq⟩ := Option.ite_none_right_eq_some.mp hstep
    exact Option.some.inj heq ▸ rfl
  | push ok =>
    obtain ⟨-, heq⟩ := Option.ite_none_right_eq_some.mp hstep
    exact Option.some.inj heq ▸ rfl
  | accept n =>
    obtain ⟨taken, rest, -, ⟨task, -, rfl⟩ | ⟨-, rfl⟩⟩ := accept_spec hstep
    · rfl
    · exact messages_next _
  | device event => exact hcond.elim

theorem undisturbed (h : (system start).ReachableUnder Undisturbed w) :
    (system start).ReachableUnder Whole w ∧ w.messages = [] := by
  induction h with
  | start hinit => exact ⟨.start hinit, congrArg Loop.messages hinit⟩
  | @next s s' e hs hcond hstep ih =>
    have hwhole : Whole s e := by
      cases e with
      | device event => exact hcond.elim
      | _ => trivial
    exact ⟨ih.1.next hwhole hstep, (messages_step hcond hstep).trans ih.2⟩

theorem Interleaved.flatten {bytes : List UInt8} {replies : List (List UInt8)}
    (h : Interleaved bytes replies []) : bytes = replies.flatten := by
  obtain ⟨log, rfl, rfl, hdevice⟩ := h
  induction log with
  | nil => rfl
  | cons message log ih =>
    cases message with
    | device bytes => cases hdevice
    | reply bytes =>
      rw [List.flatMap_cons, ih hdevice]
      rfl

theorem Interleaved.length {bytes : List UInt8} {replies messages : List (List UInt8)}
    (h : Interleaved bytes replies messages) : bytes.length =
      replies.flatten.length + messages.flatten.length := by
  obtain ⟨log, rfl, rfl, rfl⟩ := h
  induction log with
  | nil => rfl
  | cons message log ih =>
    rw [List.flatMap_cons, List.length_append, ih]
    cases message with
    | reply bytes =>
      simp only [Message.bytes, List.filterMap_cons, Message.reply?, Message.device?,
        List.flatten_cons, List.length_append]
      omega
    | device bytes =>
      simp only [Message.bytes, List.filterMap_cons, Message.reply?, Message.device?,
        List.flatten_cons, List.length_append]
      omega

/-- A run in which `next_event` is dropped only where no reply is on its way returns the events of a
run in which it is not dropped, and sends the replies of that run, whole and in order, between the
messages of the device. -/
theorem cancel_safe {u : Loop} (hw : (system start).ReachableUnder Whole w)
    (hu : (system start).ReachableUnder Undisturbed u) (hreads : u.reads = w.reads) :
    w.delivered ++ w.session.pending = u.delivered ++ u.session.pending ∧
      u.sent ++ u.task.rest = (processAll start w.reads).2.flatten ∧
      Interleaved (w.sent ++ w.task.rest) (processAll start w.reads).2 w.messages := by
  obtain ⟨hwhole, hnone⟩ := undisturbed hu
  refine ⟨?_, ?_, logged hw⟩
  · rw [(kept hw.reachable).events, (kept hu.reachable).events, hreads]
  · have hlog : Interleaved (u.sent ++ u.task.rest) (processAll start u.reads).2 u.messages :=
      logged hwhole
    rw [hnone, hreads] at hlog
    exact Interleaved.flatten hlog

namespace Sample

def fresh : SerialSession := ⟨.new, []⟩

/-- The server asks for an option that the client refuses. -/
def asked : List Event := [.poll, .read [iac, doVerb, 24]]

def refusal : List UInt8 := [iac, wontVerb, 24]

end Sample

open Sample

/-- A message of the device after the whole refusal. -/
theorem cancel_safe_refusal : ∃ w u : Loop,
    (system fresh).ReachableUnder Whole w ∧ (system fresh).ReachableUnder Undisturbed u ∧
      u.reads = w.reads ∧ w.sent = refusal ++ [65] ∧ w.messages = [[65]] ∧
      Interleaved (w.sent ++ w.task.rest) (processAll fresh w.reads).2 w.messages := by
  have hrun : ((system fresh).replay ⟨fresh, .idle, false, [], [], [], []⟩
    (asked ++ [.accept 3])).map
      (fun u => (u.task, u.reads)) = some (.reading, [[iac, doVerb, 24]]) := by
    decide
  have hmore : (((system fresh).replay ⟨fresh, .idle, false, [], [], [], []⟩
    (asked ++ [.accept 3])).bind fun u =>
      (u.step (.device (.data [65]))).bind (·.step (.accept 1))).map
        (fun w => (w.sent, w.reads, w.messages)) =
      some (refusal ++ [65], [[iac, doVerb, 24]], [[65]]) := by
    decide
  obtain ⟨u, hreplay, hu⟩ := Option.map_eq_some_iff.mp hrun
  obtain ⟨htask, hreads⟩ := Prod.mk.inj hu
  rw [hreplay, Option.bind_some] at hmore
  obtain ⟨w, hw, hsent⟩ := Option.map_eq_some_iff.mp hmore
  obtain ⟨v, hdevice, haccept⟩ := Option.bind_eq_some_iff.mp hw
  obtain ⟨hsent, hrest⟩ := Prod.mk.inj hsent
  obtain ⟨hreads', hmessages⟩ := Prod.mk.inj hrest
  have hquiet : ∀ e ∈ asked ++ [.accept 3], ∀ w, Undisturbed w e :=
    List.forall_mem_cons.mpr ⟨fun _ => trivial, List.forall_mem_cons.mpr ⟨fun _ => trivial,
      List.forall_mem_cons.mpr ⟨fun _ => trivial, List.forall_mem_nil _⟩⟩⟩
  have hundisturbed : (system fresh).ReachableUnder Undisturbed u :=
    (System.ReachableUnder.start rfl).replay _ hquiet hreplay
  have hwhole : Whole u (.device (.data [65])) := by
    intro rest hreply
    exact nomatch htask.symm.trans hreply
  have hreach : (system fresh).ReachableUnder Whole w :=
    ((undisturbed hundisturbed).1.next hwhole hdevice).next (e := .accept 1) (by trivial) haccept
  have hsame : u.reads = w.reads := hreads.trans hreads'.symm
  exact ⟨w, u, hreach, hundisturbed, hsame, hsent, hmessages,
    (cancel_safe hreach hundisturbed hsame).2.2⟩

/-- A byte of the device in the middle of a reply, whose rest is lost. -/
theorem reply_cut : ∃ w : Loop, (system fresh).Reachable w ∧ w.task = .idle ∧ w.sent = [iac, 65] ∧
    ¬Interleaved (w.sent ++ w.task.rest) (processAll fresh w.reads).2 w.messages := by
  have hrun : ((system fresh).replay ⟨fresh, .idle, false, [], [], [], []⟩
      (asked ++ [.accept 1, .device (.data [65]), .accept 1])).map
        (fun w => (w.task, w.sent, w.reads, w.messages)) =
      some (.idle, [iac, 65], [[iac, doVerb, 24]], [[65]]) := by
    decide
  obtain ⟨w, hreplay, hw⟩ := Option.map_eq_some_iff.mp hrun
  obtain ⟨htask, hw⟩ := Prod.mk.inj hw
  obtain ⟨hsent, hw⟩ := Prod.mk.inj hw
  obtain ⟨hreads, hmessages⟩ := Prod.mk.inj hw
  refine ⟨w, (System.Reachable.start rfl).replay _ hreplay, htask, hsent, fun hlog => ?_⟩
  have hlength := Interleaved.length hlog
  have hreplies : (processAll fresh [[iac, doVerb, 24]]).2 = [refusal] := by decide
  rw [hsent, htask, hreads, hmessages, hreplies] at hlength
  exact absurd hlength (by decide)

end Loop

end Microtun.Serial.Session
