import Microtun.Handoff.Connection

/-! What a binary protocol reads after a handoff is what the client sends after the line of the
command. -/

namespace Microtun.Handoff

open Telnet Cli

/-! ### Data on the wire -/

/-- The framing of Telnet without the options: the state after a byte, and the data byte it ends. -/
def frameByte : RxState → UInt8 → RxState × Option UInt8
  | .data, byte => if byte = iac then (.iac, none) else (.data, some byte)
  | .iac, byte =>
    if byte = iac then (.data, some iac)
    else if byte ∈ verbs then (.verb byte, none)
    else if byte = sb then (.subnegOption, none)
    else (.data, none)
  | .verb _, _ => (.data, none)
  | .subnegOption, _ => (.subneg, none)
  | .subneg, byte => if byte = iac then (.subnegIac, none) else (.subneg, none)
  | .subnegIac, byte => if byte = iac then (.subneg, none) else (.data, none)

/-- The data of some bytes on the wire. -/
def dataOf : RxState → List UInt8 → List UInt8
  | _, [] => []
  | rx, byte :: bytes => (frameByte rx byte).2.toList ++ dataOf (frameByte rx byte).1 bytes

theorem dataOf_cons {rx rx' : RxState} {byte : UInt8} {data : Option UInt8}
    (h : frameByte rx byte = (rx', data)) (bytes : List UInt8) : dataOf rx (byte :: bytes) =
    data.toList ++ dataOf rx' bytes := by
  rw [dataOf, h]

theorem frameByte_plain {byte : UInt8} (h : byte ≠ iac) : frameByte .data byte =
    (.data, some byte) := if_neg h

theorem dataOf_iac (bytes : List UInt8) : dataOf .data (iac :: bytes) = dataOf .iac bytes :=
  dataOf_cons (show frameByte .data iac = (.iac, none) from rfl) bytes

theorem dataOf_body (payload bytes : List UInt8) : dataOf .subneg (escape payload ++ bytes) =
    dataOf .subneg bytes := by
  induction payload with
  | nil => rfl
  | cons byte payload ih =>
    by_cases hbyte : byte = iac
    · subst hbyte
      have hfirst : frameByte .subneg iac = (.subnegIac, none) := rfl
      have hsecond : frameByte .subnegIac iac = (.subneg, none) := rfl
      rw [escape_cons_iac, List.cons_append, List.cons_append, dataOf_cons hfirst,
        dataOf_cons hsecond]
      exact ih
    · have hplain : frameByte .subneg byte = (.subneg, none) := if_neg hbyte
      rw [escape_cons hbyte, List.cons_append, dataOf_cons hplain]
      exact ih

/-- What the client sends is its data, whatever commands it places between. -/
theorem dataOf_sent {s : Sent} (h : s.Valid) (bytes : List UInt8) :
    dataOf .data (s.wire ++ bytes) = s.data?.toList ++ dataOf .data bytes := by
  cases s with
  | data byte =>
    by_cases hbyte : byte = iac
    · subst hbyte
      exact (dataOf_iac _).trans
        (dataOf_cons (show frameByte .iac iac = (.data, some iac) from rfl) bytes)
    · rw [Sent.wire, escape_cons hbyte]
      exact dataOf_cons (frameByte_plain hbyte) bytes
  | command code =>
    obtain ⟨hiac, hsb, hverbs⟩ := h
    have hcode : frameByte .iac code =
        (.data, none) := by rw [frameByte, if_neg hiac, if_neg hverbs, if_neg hsb]
    exact (dataOf_iac _).trans (dataOf_cons hcode bytes)
  | negotiation verb option =>
    have hverb : verb ∈ verbs := h
    have hiac : verb ≠ iac := fun heq => absurd (heq ▸ hverb) (by decide)
    have hopen : frameByte .iac verb =
        (.verb verb, none) := by rw [frameByte, if_neg hiac, if_pos hverb]
    have hoption : frameByte (.verb verb) option = (.data, none) := rfl
    exact (dataOf_iac _).trans ((dataOf_cons hopen _).trans (dataOf_cons hoption bytes))
  | subnegotiation option payload =>
    have hopen : frameByte .iac sb = (.subnegOption, none) := rfl
    have hoption : frameByte .subnegOption option = (.subneg, none) := rfl
    have hiac : frameByte .subneg iac = (.subnegIac, none) := rfl
    have hclose : frameByte .subnegIac se = (.data, none) := rfl
    have hbody : dataOf .subneg (escape payload ++ ([iac, se] ++ bytes)) = dataOf .data bytes :=
      (dataOf_body payload _).trans ((dataOf_cons hiac _).trans (dataOf_cons hclose bytes))
    rw [Sent.wire, frame, List.append_assoc, List.append_assoc]
    exact (dataOf_iac _).trans ((dataOf_cons hopen _).trans ((dataOf_cons hoption _).trans hbody))

theorem dataOf_wire {sent : List Sent} (h : ∀ s ∈ sent, s.Valid) :
    dataOf .data (sent.flatMap Sent.wire) = sent.filterMap Sent.data? := by
  induction sent with
  | nil => rfl
  | cons s sent ih =>
    obtain ⟨hs, hsent⟩ := List.forall_mem_cons.mp h
    rw [List.flatMap_cons, dataOf_sent hs, ih hsent, List.filterMap_cons]
    cases s.data? <;> rfl

/-! ### The endpoint -/

theorem negotiate_event {P : Type} [Policy P] {sbCap optionCap : Nat} (t : Telnet P sbCap optionCap)
    (n : Nat) (verb option : UInt8) (out : List UInt8) (byte : UInt8) :
    (t.negotiate n verb option out).2.2 ≠ some (.data byte) := by
  have htransition (side : Side) (was now : Bool) : transitionEvent side option was now ≠
      some (.data byte) := by
    cases was <;> cases now <;> exact nofun
  have hpositive (side : Side) (supported : Bool) :
      (t.negotiatePositive side supported n option out).2.2 ≠ some (.data byte) :=
        htransition side _ _
  have hnegative (side : Side) : (t.negotiateNegative side n option out).2.2 ≠
      some (.data byte) := by
    unfold negotiateNegative
    dsimp only
    rw [Ne, Option.or_eq_some_iff, not_or]
    refine ⟨htransition side _ _, fun h => ?_⟩
    have hrefused := h.2
    split at hrefused
    · exact nomatch hrefused
    · exact nomatch hrefused
  unfold negotiate
  repeat' split
  · exact hpositive .us _
  · exact hnegative .us
  · exact hpositive .him _
  · exact hnegative .him
  · exact nofun

/-- The data byte of an event. -/
def eventData : Option TelnetEvent → Option UInt8
  | some (.data byte) => some byte
  | _ => none

theorem eventData_none {event : Option TelnetEvent} (h : ∀ byte, event ≠ some (.data byte)) :
    eventData event = none := by
  unfold eventData
  split
  · exact absurd rfl (h _)
  · rfl

theorem feed_frame {P : Type} [Policy P] {sbCap optionCap : Nat} (t : Telnet P sbCap optionCap)
    (n : Nat) (byte : UInt8) (reply : List UInt8) :
    ((t.feed n byte reply).1.rx, eventData (t.feed n byte reply).2.2) = frameByte t.rx byte := by
  unfold Telnet.feed frameByte
  cases hrx : t.rx with
  | data =>
    simp only
    split
    · rfl
    · exact Prod.ext hrx rfl
  | iac =>
    simp only [feedIac, verbs, List.mem_cons, List.not_mem_nil, or_false]
    repeat' split
    all_goals rfl
  | verb verb =>
    exact Prod.ext (negotiate_rx _ n verb byte reply)
      (eventData_none fun _ => negotiate_event _ n verb byte reply _)
  | subnegOption => rfl
  | subneg =>
    simp only
    split
    · rfl
    · refine Prod.ext ?_ rfl
      show (t.pushSubneg byte).rx = .subneg
      unfold pushSubneg
      split <;> exact hrx
  | subnegIac =>
    simp only
    split
    · next hse =>
      subst hse
      rfl
    · split <;> rfl

/-- A state of the shell's Telnet after a byte: the framing moved on, and the mark of the handoff is
as it was. -/
structure Framed (t t' : ShellTelnet) (byte : UInt8) (data : Option UInt8) : Prop where
  frame : frameByte t.protocol.rx byte = (t'.protocol.rx, data)
  mark : t'.binaryHandoffCrPending = t.binaryHandoffCrPending

def shellData : Option ShellEvent → Option UInt8
  | some (.data byte) => some byte
  | _ => none

theorem flushPending_same (n : Nat) (t : ShellTelnet) (out : List UInt8) :
    (t.flushPending n out).1.protocol = t.protocol ∧
      (t.flushPending n out).1.binaryHandoffCrPending = t.binaryHandoffCrPending := by
  unfold ShellTelnet.flushPending
  split
  · exact ⟨rfl, rfl⟩
  · split
    · exact ⟨rfl, rfl⟩
    · exact ⟨rfl, rfl⟩

theorem onEvent_same (n : Nat) (t : ShellTelnet) (reply : List UInt8) (event : Option TelnetEvent) :
    (ShellTelnet.onEvent n t reply event).1.protocol = t.protocol ∧
      (ShellTelnet.onEvent n t reply event).1.binaryHandoffCrPending = t.binaryHandoffCrPending ∧
      shellData (ShellTelnet.onEvent n t reply event).2.2 = eventData event := by
  unfold ShellTelnet.onEvent
  split
  all_goals try exact ⟨rfl, rfl, rfl⟩
  · split
    · obtain ⟨hprotocol, hmark⟩ := flushPending_same n { t with ttypeSendPending := true } reply
      exact ⟨hprotocol, hmark, rfl⟩
    · exact ⟨rfl, rfl, rfl⟩
  · refine ⟨rfl, rfl, ?_⟩
    show shellData (t.finishSubnegotiation _) = none
    unfold ShellTelnet.finishSubnegotiation
    simp only
    repeat' split
    all_goals rfl

theorem feed_framed (n : Nat) (t : ShellTelnet) (byte : UInt8) (reply : List UInt8) :
    Framed t (t.feed n byte reply).1 byte (shellData (t.feed n byte reply).2.2) := by
  obtain ⟨hprotocol, hmark⟩ := flushPending_same n t reply
  unfold ShellTelnet.feed
  generalize t.flushPending n reply = flushed at hprotocol hmark
  obtain ⟨t1, reply⟩ := flushed
  have hframe := feed_frame t1.protocol n byte reply
  simp only at hprotocol hmark ⊢
  generalize t1.protocol.feed n byte reply = fed at hframe
  obtain ⟨protocol, reply, event⟩ := fed
  obtain ⟨hsame, hmark', hdata⟩ := onEvent_same n { t1 with protocol } reply event
  simp only at hframe ⊢
  refine ⟨?_, hmark'.trans hmark⟩
  rw [hsame, hdata, hframe, hprotocol]

/-! ### What is still to come -/

/-- What the binary protocol gets of the data still to come: after a carriage return, not the rest
of the line ending. -/
def strip : Bool → List UInt8 → List UInt8
  | true, byte :: data => if byte = 0x0a ∨ byte = 0 then data else byte :: data
  | _, data => data

theorem onBinaryEvent_rx (t : ShellTelnet) (event : Option ShellEvent) :
    (t.onBinaryEvent event).1.protocol.rx = t.protocol.rx := by
  unfold ShellTelnet.onBinaryEvent
  split
  · split <;> rfl
  · rfl

theorem onBinaryEvent_strip (t : ShellTelnet) (event : Option ShellEvent) (data : List UInt8) :
    strip t.binaryHandoffCrPending ((shellData event).toList ++ data) =
      (t.onBinaryEvent event).2.toList ++ strip
      (t.onBinaryEvent event).1.binaryHandoffCrPending data := by
  cases event with
  | none => rfl
  | some event =>
    cases event with
    | data byte =>
      unfold ShellTelnet.onBinaryEvent
      cases hmark : t.binaryHandoffCrPending with
      | true =>
        simp only [if_true, shellData, Option.toList_some, List.singleton_append, strip]
        split <;> rfl
      | false =>
        simp only [Bool.false_eq_true, if_false, hmark]
        rfl
    | _ => rfl

theorem feedBinary_spec (t : ShellTelnet) (byte : UInt8) (input : List UInt8) :
    strip t.binaryHandoffCrPending (dataOf t.protocol.rx (byte :: input)) =
      (t.feedBinary byte).2.toList ++ strip (t.feedBinary byte).1.binaryHandoffCrPending
          (dataOf (t.feedBinary byte).1.protocol.rx input) := by
  have hframed := feed_framed 16 t byte []
  rw [dataOf_cons hframed.frame, ← hframed.mark, onBinaryEvent_strip]
  unfold ShellTelnet.feedBinary
  rw [onBinaryEvent_rx]

/-! ### Connections -/

section Connections

variable {complete : Editor → Editor} {negotiateTelnet : Bool} {w w' : Connection}

/-- What is read is data that the client sends, in its order. -/
def Reads (w : Connection) : Prop := w.client.drop w.taken = dataOf w.telnet.protocol.rx w.input

/-- What the binary protocol has, and what it is still to get. -/
def Delivers (w : Connection) (pending : List UInt8) : Prop :=
  w.returned ++ pending ++ strip w.telnet.binaryHandoffCrPending
    (dataOf w.telnet.protocol.rx w.input) = w.payload

/-- What holds in each mode. -/
def Good (w : Connection) : Prop :=
  match w.mode with
  | .handedOff cr => cr = true → w.telnet.binaryHandoffCrPending = true
  | .negotiating pending | .binary pending => Delivers w pending
  | .shell _ | .failed | .ended => True

/-- The client ends the line of a command with CR LF, CR NUL or LF: after the carriage return that
ends the line of a handoff comes a line feed or a NUL. -/
def Conforms (w : Connection) : Connection.Event → Prop
  | .begin => w.mode = .handedOff true → ∀ byte, w.client[w.taken]? = some byte → byte = 0x0a ∨
    byte = 0
  | _ => True

/-- A handoff whose line ends in a lone line feed does not find the mark that an earlier one left,
or its payload begins with neither a line feed nor a NUL. -/
def Unmarked (w : Connection) : Connection.Event → Prop
  | .begin => w.mode = .handedOff false → w.telnet.binaryHandoffCrPending = true →
      ∀ byte, w.client[w.taken]? = some byte → ¬(byte = 0x0a ∨ byte = 0)
  | _ => True

instance (w : Connection) (e : Connection.Event) : Decidable (Conforms w e) :=
  match e with
  | .begin => @instDecidableForall _ _ inferInstance (Option.decidableForallMem _)
  | .serve _ _ | .negotiate | .readByte | .leave => .isTrue trivial

instance (w : Connection) (e : Connection.Event) : Decidable (Unmarked w e) :=
  match e with
  | .begin => @instDecidableForall _ _ inferInstance
      (@instDecidableForall _ _ inferInstance (Option.decidableForallMem _))
  | .serve _ _ | .negotiate | .readByte | .leave => .isTrue trivial

theorem reads_after {event : Option ShellEvent} {client data : List UInt8} {taken : Nat}
    (h : client.drop taken = (shellData event).toList ++ data) :
    client.drop (Connection.takenAfter taken event) = data := by
  cases event with
  | none => exact h
  | some event =>
    cases event with
    | data byte =>
      show client.drop (taken + 1) = data
      rw [← List.drop_drop, h]
      rfl
    | _ => exact h

theorem step?_spec {data : Option UInt8} {pending : List UInt8} (h : w.step? = some (w', data))
    (hreads : Reads w) (hdelivers : Delivers w pending) : Reads w' ∧ w'.mode = w.mode ∧
    Delivers w' (pending ++ data.toList) := by
  unfold Connection.step? at h
  cases hinput : w.input with
  | nil =>
    rw [hinput] at h
    exact nomatch h
  | cons byte input =>
    rw [hinput] at h
    have hstep : some (({ w with
        telnet := (w.telnet.feedBinary byte).1
        input
        taken := Connection.takenAfter w.taken (w.telnet.feed 16 byte []).2.2 } : Connection),
        (w.telnet.feedBinary byte).2) = some (w', data) := h
    obtain ⟨hw, hdata⟩ := Prod.mk.inj (Option.some.inj hstep)
    have hframed := feed_framed 16 w.telnet byte []
    unfold Reads at hreads
    unfold Delivers at hdelivers
    rw [hinput] at hreads hdelivers
    rw [dataOf_cons hframed.frame] at hreads
    rw [feedBinary_spec] at hdelivers
    have hrx : (w.telnet.feedBinary byte).1.protocol.rx =
        (w.telnet.feed 16 byte []).1.protocol.rx := by
      unfold ShellTelnet.feedBinary
      rw [onBinaryEvent_rx]
    rw [← hw, ← hdata]
    refine ⟨(reads_after hreads).trans (congrArg (dataOf · input) hrx.symm), rfl, ?_⟩
    refine Eq.trans ?_ hdelivers
    show w.returned ++ (pending ++ _) ++ _ = w.returned ++ pending ++ (_ ++ _)
    rw [← List.append_assoc, List.append_assoc]

/-! ### Requests -/

theorem request_rx {P : Type} {sbCap optionCap : Nat} (side : Side) (enable : Bool) (n : Nat)
    (t : Telnet P sbCap optionCap) (option : UInt8) (out : List UInt8) :
    (Telnet.request side enable n t option out).1.rx = t.rx := by
  show (t.slotMut option).1.rx = t.rx
  rw [slotMut_frame]

theorem initialNegotiation_same (n : Nat) (t : ShellTelnet) (out : List UInt8) :
    (t.initialNegotiation n out).1.protocol.rx = t.protocol.rx ∧
      (t.initialNegotiation n out).1.binaryHandoffCrPending = t.binaryHandoffCrPending := by
  unfold ShellTelnet.initialNegotiation
  split
  · exact ⟨rfl, rfl⟩
  · refine ⟨?_, rfl⟩
    simp only [ShellTelnet.requestHalf, request_rx]

theorem requestBinaryMode_rx (t : ShellTelnet) : t.requestBinaryMode.protocol.rx = t.protocol.rx :=
  (request_rx .him true _ _ _ _).trans (request_rx .us true _ _ _ _)

theorem disableBinaryMode_rx (t : ShellTelnet) : t.disableBinaryMode.protocol.rx = t.protocol.rx :=
  (request_rx .him false _ _ _ _).trans (request_rx .us false _ _ _ _)

/-! ### Steps -/

/-- What holds all along a connection. -/
structure Inv (w : Connection) : Prop where
  reads : Reads w
  good : Good w

theorem onEditorEvent_cases (complete : Editor → Editor) (editor : Editor) (cr builtin : Bool)
    (dispatched : Dispatched) (event : EditorEvent) :
    let mode := Connection.onEditorEvent complete editor cr builtin dispatched event
    (∃ editor, mode = .shell editor) ∨ (∃ cr, mode = .handedOff cr) ∨ mode = .ended := by
  cases event with
  | submit =>
    unfold Connection.onEditorEvent
    simp only
    split
    · exact .inl ⟨_, rfl⟩
    · exact .inr (.inl ⟨_, rfl⟩)
    · exact .inr (.inr rfl)
  | _ => exact .inl ⟨_, rfl⟩

theorem Inv.serve {editor : Editor} {builtin : Bool} {dispatched : Dispatched} (h : Inv w)
    (hmode : w.mode = .shell editor)
    (hstep : w.serve complete editor builtin dispatched = some w') : Inv w' := by
  have hreads : w.client.drop w.taken = dataOf w.telnet.protocol.rx w.input := h.reads
  unfold Connection.serve at hstep
  cases hinput : w.input with
  | nil =>
    rw [hinput] at hstep
    exact nomatch hstep
  | cons byte input =>
    rw [hinput] at hstep hreads
    have hframed := feed_framed 32 w.telnet byte []
    simp only at hstep
    generalize w.telnet.feed 32 byte [] = fed at hstep hframed
    obtain ⟨telnet, reply, event⟩ := fed
    rw [dataOf_cons hframed.frame] at hreads
    have hafter := reads_after hreads
    cases event with
    | none =>
      obtain rfl := Option.some.inj hstep
      refine ⟨hafter, ?_⟩
      unfold Good
      simp only [hmode]
    | some event =>
      simp only at hstep
      split at hstep
      · exact nomatch hstep
      · next editorEvent editor' _ =>
        obtain rfl := Option.some.inj hstep
        have hcases := onEditorEvent_cases complete editor' (event = .data 0x0d) builtin dispatched
          editorEvent
        generalize Connection.onEditorEvent complete editor' (event = .data 0x0d) builtin dispatched
          editorEvent = mode
          at hcases
        refine ⟨hafter.trans ?_, ?_⟩
        · show dataOf telnet.protocol.rx input =
            dataOf (ShellTelnet.protocol (if _ then _ else telnet)).rx input
          split <;> rfl
        · obtain ⟨next, rfl⟩ | ⟨cr, rfl⟩ | rfl := hcases
          · trivial
          · intro hcr
            subst hcr
            rfl
          · trivial

theorem strip_expected {data : List UInt8} (h : ∀ byte, data[0]? = some byte → byte = 0x0a ∨
    byte = 0) : strip true data = data.drop 1 := by
  cases data with
  | nil => rfl
  | cons byte data => exact if_pos (h byte rfl)

theorem strip_unexpected {mark : Bool} {data : List UInt8}
    (h : mark = true → ∀ byte, data[0]? = some byte → ¬(byte = 0x0a ∨ byte = 0)) : strip mark data =
      data := by
  cases mark with
  | false => rfl
  | true =>
    cases data with
    | nil => rfl
    | cons byte data => exact if_neg (h rfl byte rfl)

theorem Inv.begin {cr : Bool} (h : Inv w) (hmode : w.mode = .handedOff cr)
    (hconforms : Conforms w .begin) (hunmarked : Unmarked w .begin) : Inv (w.begin cr) := by
  have hreads : w.client.drop w.taken = dataOf w.telnet.protocol.rx w.input := h.reads
  have hgood := h.good
  unfold Good at hgood
  rw [hmode] at hgood
  have hrx : dataOf (w.begin cr).telnet.protocol.rx (w.begin cr).input = w.client.drop w.taken := by
    rw [hreads]
    exact congrArg (dataOf · w.input) (requestBinaryMode_rx w.telnet)
  have hhead (byte : UInt8) (h : (w.client.drop w.taken)[0]? = some byte) : w.client[w.taken]? =
      some byte := by
    rwa [List.getElem?_drop, Nat.add_zero] at h
  refine ⟨hrx.symm, ?_⟩
  show Delivers (w.begin cr) []
  unfold Delivers
  rw [hrx]
  show strip w.telnet.binaryHandoffCrPending (w.client.drop w.taken) = w.client.drop _
  cases cr with
  | true =>
    rw [hgood rfl, strip_expected fun byte h => hconforms hmode byte (hhead byte h), List.drop_drop]
    rfl
  | false => exact strip_unexpected fun hmark byte h => hunmarked hmode hmark byte (hhead byte h)

theorem Inv.negotiate {pending : List UInt8} (h : Inv w) (hmode : w.mode = .negotiating pending)
    (hstep : w.negotiate pending = some w') : Inv w' := by
  have hdelivers : Delivers w pending := by
    have hgood := h.good
    unfold Good at hgood
    rwa [hmode] at hgood
  unfold Connection.negotiate at hstep
  split at hstep
  · obtain rfl := Option.some.inj hstep
    exact ⟨h.reads, hdelivers⟩
  · split at hstep
    · obtain rfl := Option.some.inj hstep
      exact ⟨h.reads, trivial⟩
    · cases hread : w.step? with
      | none =>
        rw [hread] at hstep
        exact nomatch hstep
      | some read =>
        obtain ⟨next, data⟩ := read
        obtain ⟨hreads, hsame, hdelivers⟩ := step?_spec hread h.reads hdelivers
        rw [hread] at hstep
        cases data with
        | none =>
          obtain rfl := Option.some.inj hstep
          rw [Option.toList_none, List.append_nil] at hdelivers
          refine ⟨hreads, ?_⟩
          unfold Good
          rw [hsame, hmode]
          exact hdelivers
        | some data =>
          obtain rfl := Option.some.inj hstep
          refine ⟨hreads, ?_⟩
          by_cases hfits : pending.length < 64
          · simp only [if_pos hfits]
            exact hdelivers
          · simp only [if_neg hfits]
            exact trivial

theorem Inv.readByte {pending : List UInt8} (h : Inv w) (hmode : w.mode = .binary pending)
    (hstep : w.readByte pending = some w') : Inv w' := by
  have hdelivers : Delivers w pending := by
    have hgood := h.good
    unfold Good at hgood
    rwa [hmode] at hgood
  cases pending with
  | cons byte pending =>
    obtain rfl := Option.some.inj hstep
    refine ⟨h.reads, ?_⟩
    show w.returned ++ [byte] ++ pending ++ _ = w.payload
    rw [List.append_assoc w.returned]
    exact hdelivers
  | nil =>
    unfold Connection.readByte at hstep
    cases hread : w.step? with
    | none =>
      rw [hread] at hstep
      exact nomatch hstep
    | some read =>
      obtain ⟨next, data⟩ := read
      obtain ⟨hreads, hsame, hdelivers⟩ := step?_spec hread h.reads hdelivers
      rw [hread] at hstep
      refine ⟨?_, ?_⟩
      · cases data with
        | none => exact Option.some.inj hstep ▸ hreads
        | some data => exact Option.some.inj hstep ▸ hreads
      · cases data with
        | none =>
          obtain rfl := Option.some.inj hstep
          unfold Good
          rw [hsame, hmode]
          exact hdelivers
        | some data =>
          obtain rfl := Option.some.inj hstep
          unfold Good
          rw [hsame, hmode]
          show next.returned ++ [data] ++ [] ++ _ = next.payload
          rw [List.append_nil]
          exact hdelivers

theorem Inv.leave (h : Inv w) : Inv (w.leave negotiateTelnet) := by
  refine ⟨h.reads.trans ?_, trivial⟩
  have hrx : (w.leave negotiateTelnet).telnet.protocol.rx = w.telnet.protocol.rx := by
    unfold Connection.leave
    cases negotiateTelnet with
    | true => exact (initialNegotiation_same 32 _ []).1.trans (disableBinaryMode_rx _)
    | false => exact disableBinaryMode_rx _
  exact congrArg (dataOf · w.input) hrx.symm

theorem Inv.init (h : (system complete negotiateTelnet).init w) : Inv w := by
  obtain ⟨sent, hvalid, rfl⟩ := h
  have hrx : (if negotiateTelnet then (ShellTelnet.new.initialNegotiation 32 []).1
      else .new).protocol.rx = .data := by
    cases negotiateTelnet with
    | true => exact (initialNegotiation_same 32 .new []).1
    | false => rfl
  refine ⟨?_, trivial⟩
  show _ = dataOf (ShellTelnet.protocol (if _ then _ else _)).rx _
  rw [hrx, dataOf_wire hvalid]
  rfl

theorem Inv.step {e : Connection.Event} (h : Inv w) (hcond : Conforms w e ∧ Unmarked w e)
    (hstep : (system complete negotiateTelnet).step w e = some w') : Inv w' := by
  cases e with
  | serve builtin dispatched =>
    replace hstep : Connection.step complete negotiateTelnet w (.serve builtin dispatched) =
      some w' := hstep
    simp only [Connection.step] at hstep
    split at hstep
    · next hmode => exact h.serve hmode hstep
    · cases hstep
  | begin =>
    replace hstep : Connection.step complete negotiateTelnet w .begin = some w' := hstep
    simp only [Connection.step] at hstep
    split at hstep
    · next hmode => exact Option.some.inj hstep ▸ h.begin hmode hcond.1 hcond.2
    · cases hstep
  | negotiate =>
    replace hstep : Connection.step complete negotiateTelnet w .negotiate = some w' := hstep
    simp only [Connection.step] at hstep
    split at hstep
    · next hmode => exact h.negotiate hmode hstep
    · cases hstep
  | readByte =>
    replace hstep : Connection.step complete negotiateTelnet w .readByte = some w' := hstep
    simp only [Connection.step] at hstep
    split at hstep
    · next hmode => exact h.readByte hmode hstep
    · cases hstep
  | leave =>
    replace hstep : Connection.step complete negotiateTelnet w .leave = some w' := hstep
    simp only [Connection.step] at hstep
    split at hstep
    · exact Option.some.inj hstep ▸ h.leave
    · exact Option.some.inj hstep ▸ h.leave
    · exact Option.some.inj hstep ▸ h.leave
    · cases hstep

/-- What the binary protocol has read, and what `negotiate` keeps for it, is the front of what the
client sent after the line of the command, and all of it once nothing is left to read. -/
theorem payload_exact (complete : Editor → Editor) (negotiateTelnet : Bool) {w : Connection}
    {pending : List UInt8}
    (hw : (system complete negotiateTelnet).ReachableUnder (fun w e => Conforms w e ∧ Unmarked w e)
    w) (hmode : w.mode = .binary pending) :
    w.returned ++ pending <+: w.payload ∧ (w.input = [] → w.returned ++ pending = w.payload) := by
  have hinv : Inv w :=
    hw.invariant (fun _ _ => trivial) (fun _ => Inv.init) fun _ _ _ _ h hcond hstep =>
      h.step hcond hstep
  have hdelivers : Delivers w pending := by
    have hgood := hinv.good
    unfold Good at hgood
    rwa [hmode] at hgood
  refine ⟨⟨_, hdelivers⟩, fun hinput => ?_⟩
  unfold Delivers at hdelivers
  rw [hinput] at hdelivers
  have hnone : strip w.telnet.binaryHandoffCrPending (dataOf w.telnet.protocol.rx []) = [] := by
    cases w.telnet.binaryHandoffCrPending <;> rfl
  rwa [hnone, List.append_nil] at hdelivers

end Connections

namespace Sample

/-- A command that is handed off, one character long. -/
def command : List Connection.Event :=
  [.serve false .disconnected, .serve false .disconnected, .begin]

def negotiation (verb : UInt8) : List Sent := [.negotiation verb optBinary]

/-- A command ends in a carriage return, and the client refuses before the line feed. The next one
ends as told, the client agrees, and a payload follows. -/
def client (ending : List Sent) : List Sent :=
  [.data 0x61, .data 0x0d] ++ negotiation dontVerb ++ negotiation wontVerb ++
    [.data 0x0a, .data 0x62] ++ ending ++
    negotiation willVerb ++ negotiation doVerb ++ [.data 0x0a, .data 0x78]

def start (ending : List Sent) : Connection where
  telnet := .new
  mode := .shell .new
  input := (client ending).flatMap Sent.wire
  client := (client ending).filterMap Sent.data?
  taken := 0
  payload := []
  returned := []

theorem start_init {ending : List Sent} (h : ∀ s ∈ client ending, s.Valid) :
    (system id false).init (start ending) := ⟨client ending, h, rfl⟩

/-- The first handoff, to the line feed that its command left. -/
def refused : List Connection.Event :=
  command ++ List.replicate 4 .negotiate ++ [.leave] ++ List.replicate 4 (.serve false .ok)

/-- The second one, with some bytes before the client agrees. -/
def agreed (bytes : Nat) : List Connection.Event :=
  command ++ List.replicate (bytes + 7) .negotiate ++ List.replicate 2 .readByte

end Sample

open Sample

/-- The second handoff has all of its payload. -/
theorem payload_exact_after_refusal : ∃ w : Connection,
    (system id false).ReachableUnder (fun w e => Conforms w e ∧ Unmarked w e) w ∧
      w.mode = .binary [] ∧ w.input = [] ∧ w.payload = [0x0a, 0x78] ∧ w.returned = w.payload := by
  have hrun : (((system id false).under fun w e => Conforms w e ∧ Unmarked w e).replay
    (start [.data 0x0d, .data 0x0a])
      (refused ++ agreed 1)).map (fun w => (w.mode, w.input, w.payload)) =
        some (.binary [], [], [0x0a, 0x78]) := by
    decide
  obtain ⟨w, hreplay, hw⟩ := Option.map_eq_some_iff.mp hrun
  obtain ⟨hmode, hw⟩ := Prod.mk.inj hw
  obtain ⟨hinput, hpayload⟩ := Prod.mk.inj hw
  have hreach := (System.ReachableUnder.start (start_init (by decide))).replay_under _ hreplay
  exact ⟨w, hreach, hmode, hinput, hpayload,
    (List.append_nil _).symm.trans ((payload_exact id false hreach hmode).2 hinput)⟩

/-- The mark of the first handoff eats the first byte of the payload of the second. -/
theorem leading_line_feed_dropped : ∃ w : Connection, (system id false).ReachableUnder Conforms w ∧
    w.mode = .binary [] ∧ w.input = [] ∧ w.payload = [0x0a, 0x78] ∧ w.returned = [0x78] := by
  have hrun : (((system id false).under Conforms).replay (start [.data 0x0a])
    (refused ++ agreed 0)).map
      (fun w => (w.mode, w.input, w.payload, w.returned)) =
        some (.binary [], [], [0x0a, 0x78], [0x78]) := by
    decide
  obtain ⟨w, hreplay, hw⟩ := Option.map_eq_some_iff.mp hrun
  obtain ⟨hmode, hw⟩ := Prod.mk.inj hw
  obtain ⟨hinput, hw⟩ := Prod.mk.inj hw
  obtain ⟨hpayload, hreturned⟩ := Prod.mk.inj hw
  have hreach := (System.ReachableUnder.start (start_init (by decide))).replay_under _ hreplay
  exact ⟨w, hreach, hmode, hinput, hpayload, hreturned⟩

end Microtun.Handoff
