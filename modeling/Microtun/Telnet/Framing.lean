import Microtun.Lib.Transducer
import Microtun.Telnet.Endpoint
import Microtun.Telnet.Writers

/-! What the writers put on the wire is what an endpoint reads off it. -/

namespace Microtun.Telnet

/-- A byte from the peer, with the reply buffer that it is fed with and the buffer's capacity. -/
structure Input where
  byte : UInt8
  n : Nat
  reply : List UInt8

/-- What a caller receives: an event, and with the end of a subnegotiation what the endpoint holds
of it. -/
inductive Received
  | event (event : TelnetEvent)
  | subnegotiation (option : UInt8) (held : UInt8 × List UInt8)
deriving DecidableEq, Repr

variable {P : Type} {sbCap optionCap : Nat} {t : Telnet P sbCap optionCap}

def seen (t : Telnet P sbCap optionCap) : TelnetEvent → Received
  | .subnegotiation option => .subnegotiation option t.subnegotiation
  | event => .event event

/-- The endpoint as a machine that is fed bytes. -/
def wire (P : Type) [Policy P] (sbCap optionCap : Nat) :
    Transducer (Telnet P sbCap optionCap) Input (Option Received) where
  step t input :=
    let (t, _, event) := t.feed input.n input.byte input.reply
    (t, event.map t.seen)

/-- What the caller receives from some bytes. -/
def received [Policy P] (t : Telnet P sbCap optionCap) (inputs : List Input) : List Received :=
  ((wire P sbCap optionCap).answers t inputs).filterMap id

/-- What is sent: application data, a two-byte command, a negotiation command, a subnegotiation, or
a message of the COM-PORT option. -/
inductive Item
  | data (bytes : List UInt8)
  | command (code : UInt8)
  | negotiation (verb option : UInt8)
  | subnegotiation (option : UInt8) (payload : List UInt8)
  | message (message : Serial.Message)

def verbs : List UInt8 := [doVerb, dontVerb, willVerb, wontVerb]

/-- The event of a two-byte command, if it has one. -/
def commandEvent (code : UInt8) : Option TelnetEvent :=
  if code = ip then some .interrupt
  else if code = brk then some .brk
  else if code = ayt then some .areYouThere
  else if code = ec then some .eraseCharacter
  else if code = el then some .eraseLine
  else none

/-- The bytes are what the writer of the item put out, and its payload is within `sbCap`. -/
def Item.Wrote {σ E : Type} (w : Writer σ E) (sbCap : Nat) (bytes : List UInt8) : Item → Prop
  | .data sent => ∃ io io', writeDataUnflushed w io sent = .ok io' ∧
      w.written io' = w.written io ++ bytes
  | .command code => code ∉ [iac, sb] ++ verbs ∧ bytes = [iac, code]
  | .negotiation verb option => verb ∈ verbs ∧
      ∃ n out, pushCmd n out verb option = some (out ++ bytes)
  | .subnegotiation option payload => payload.length ≤ sbCap ∧
      ∃ n out, pushSubnegotiation n out option payload = (true, out ++ bytes)
  | .message sent => sent.payload.length ≤ sbCap ∧
      ∃ n out, Serial.encode n sent out = (true, out ++ bytes)

/-- The items arrive in their order, each with what belongs to it. A negotiation command is answered
as the endpoint's options stand when it ends. -/
inductive Delivers [Policy P] :
    Telnet P sbCap optionCap → List (Item × List Input) → List Received → Prop
  | nil (t : Telnet P sbCap optionCap) : Delivers t [] []
  | data {t : Telnet P sbCap optionCap} {bytes inputs rest received}
    (hrest : Delivers t rest received) :
    Delivers t ((.data bytes, inputs) :: rest)
      ((bytes.map fun byte => .event (.data byte)) ++ received)
  | command {t : Telnet P sbCap optionCap} {code inputs rest received}
    (hrest : Delivers t rest received) :
    Delivers t ((.command code, inputs) :: rest)
      ((commandEvent code).toList.map .event ++ received)
  | negotiation {t t' : Telnet P sbCap optionCap} {verb option inputs last out event rest received}
    (hlast : inputs.getLast? = some last)
    (hanswer : t.negotiate last.n verb option last.reply = (t', out, event))
    (hrest : Delivers t' rest received) :
    Delivers t ((.negotiation verb option, inputs) :: rest) (event.toList.map .event ++ received)
  | subnegotiation {t : Telnet P sbCap optionCap} {option payload inputs rest received}
    (hrest : Delivers { t with subnegOption := option, subneg := payload } rest received) :
    Delivers t ((.subnegotiation option payload, inputs) :: rest)
      (.subnegotiation option (option, payload) :: received)
  | message {t : Telnet P sbCap optionCap} {message body inputs rest received}
    (hdecode : Serial.decodeFrom message.origin body = .ok message)
    (hrest : Delivers { t with subnegOption := optComPort, subneg := body } rest received) :
    Delivers t ((.message message, inputs) :: rest)
      (.subnegotiation optComPort (optComPort, body) :: received)

/-! ### Bytes read -/

section

variable [Policy P] {inputs : List Input} {input : Input}

theorem received_nil : received t [] = [] := rfl

theorem received_cons : received t (input :: inputs) =
    ((wire P sbCap optionCap).step t input).2.toList ++
      received ((wire P sbCap optionCap).step t input).1 inputs := by
  unfold received
  rw [Transducer.answers_cons, List.filterMap_cons]
  cases ((wire P sbCap optionCap).step t input).2 with
  | none => rfl
  | some r => rfl

theorem received_append (first second : List Input) : received t (first ++ second) =
    received t first ++ received ((wire P sbCap optionCap).after t first) second := by
  unfold received
  rw [Transducer.answers_append, List.filterMap_append]

theorem step_plain (hrx : t.rx = .data) (hbyte : input.byte ≠ iac) :
    (wire P sbCap optionCap).step t input = (t, some (.event (.data input.byte))) := by
  simp only [wire, feed, hrx, if_neg hbyte]
  rfl

theorem step_iac (hrx : t.rx = .data) (hbyte : input.byte = iac) :
    (wire P sbCap optionCap).step t input = ({ t with rx := .iac }, none) := by
  simp only [wire, feed, hrx, if_pos hbyte]
  rfl

theorem step_after_iac (hrx : t.rx = .iac) : (wire P sbCap optionCap).step t input =
      ((t.feedIac input.byte).1, (t.feedIac input.byte).2.map (t.feedIac input.byte).1.seen) := by
  simp only [wire, feed, hrx]

/-- Application data is received byte by byte, and leaves the endpoint as it is. -/
theorem received_data (hrx : t.rx = .data) {bytes : List UInt8}
    (hinputs : inputs.map Input.byte = escape bytes) : (wire P sbCap optionCap).after t inputs = t ∧
      received t inputs = bytes.map fun byte => .event (.data byte) := by
  induction bytes generalizing inputs with
  | nil =>
    obtain rfl := List.map_eq_nil_iff.mp hinputs
    exact ⟨rfl, rfl⟩
  | cons byte bytes ih =>
    by_cases hbyte : byte = iac
    · subst hbyte
      rw [escape_cons_iac] at hinputs
      obtain ⟨first, inputs, rfl, hfirst, hinputs⟩ := List.map_eq_cons_iff.mp hinputs
      obtain ⟨second, inputs, rfl, hsecond, hinputs⟩ := List.map_eq_cons_iff.mp hinputs
      obtain ⟨hafter, hreceived⟩ := ih hinputs
      have hback : ({ t with rx := .data } : Telnet P sbCap optionCap) = t := by rw [← hrx]
      have hstep : (wire P sbCap optionCap).step { t with rx := .iac } second =
          (t, some (.event (.data iac))) := by
        rw [step_after_iac rfl, hsecond, ← hback]
        rfl
      rw [Transducer.after_cons, Transducer.after_cons, received_cons, received_cons,
        step_iac hrx hfirst]
      simp only [hstep, hafter, hreceived]
      exact ⟨trivial, rfl⟩
    · rw [escape_cons hbyte] at hinputs
      obtain ⟨first, inputs, rfl, hfirst, hinputs⟩ := List.map_eq_cons_iff.mp hinputs
      obtain ⟨hafter, hreceived⟩ := ih hinputs
      rw [Transducer.after_cons, received_cons, step_plain hrx (hfirst ▸ hbyte)]
      simp only [hafter, hreceived, hfirst]
      exact ⟨trivial, rfl⟩

theorem received_body (hrx : t.rx = .subneg) {payload : List UInt8}
    (hroom : t.subneg.length + payload.length ≤ sbCap)
    (hinputs : inputs.map Input.byte = escape payload) :
    (wire P sbCap optionCap).after t inputs = { t with subneg := t.subneg ++ payload } ∧
      received t inputs = [] := by
  induction payload generalizing t inputs with
  | nil =>
    obtain rfl := List.map_eq_nil_iff.mp hinputs
    rw [List.append_nil]
    exact ⟨rfl, rfl⟩
  | cons byte payload ih =>
    rw [List.length_cons] at hroom
    have hpush : t.pushSubneg byte = { t with subneg := t.subneg ++ [byte] } := if_pos (by omega)
    have hnext : ({ t with subneg := t.subneg ++ [byte] } : Telnet P sbCap optionCap).subneg.length
      +
        payload.length ≤ sbCap := by
      simp only [List.length_append, List.length_singleton]
      omega
    have happend : t.subneg ++ byte :: payload = t.subneg ++ [byte] ++ payload := by
      rw [List.append_assoc, List.singleton_append]
    by_cases hbyte : byte = iac
    · subst hbyte
      rw [escape_cons_iac] at hinputs
      obtain ⟨first, inputs, rfl, hfirst, hinputs⟩ := List.map_eq_cons_iff.mp hinputs
      obtain ⟨second, inputs, rfl, hsecond, hinputs⟩ := List.map_eq_cons_iff.mp hinputs
      have hstep : (wire P sbCap optionCap).step t first = ({ t with rx := .subnegIac }, none) := by
        simp only [wire, feed, hrx, hfirst, if_true]
        rfl
      have hstep' : (wire P sbCap optionCap).step { t with rx := .subnegIac } second =
          ({ t with subneg := t.subneg ++ [iac] }, none) := by
        have hback : ({ t with rx := .subneg, subneg := t.subneg ++ [iac] } :
            Telnet P sbCap optionCap) = { t with subneg := t.subneg ++ [iac] } := by rw [← hrx]
        have hroom' : t.subneg.length < sbCap := by omega
        simp only [wire, feed, hsecond, if_neg (show iac ≠ se by decide), if_true, pushSubneg,
          hroom', hback]
        rfl
      obtain ⟨hafter, hreceived⟩ :=
        ih (t := { t with subneg := t.subneg ++ [iac] }) hrx hnext hinputs
      rw [Transducer.after_cons, Transducer.after_cons, received_cons, received_cons]
      simp only [hstep, hstep', hafter, hreceived, happend]
      exact ⟨trivial, rfl⟩
    · rw [escape_cons hbyte] at hinputs
      obtain ⟨first, inputs, rfl, hfirst, hinputs⟩ := List.map_eq_cons_iff.mp hinputs
      have hstep : (wire P sbCap optionCap).step t first =
          ({ t with subneg := t.subneg ++ [byte] }, none) := by
        simp only [wire, feed, hrx, hfirst, if_neg hbyte, hpush]
        rfl
      obtain ⟨hafter, hreceived⟩ :=
        ih (t := { t with subneg := t.subneg ++ [byte] }) hrx hnext hinputs
      rw [Transducer.after_cons, received_cons]
      simp only [hstep, hafter, hreceived, happend]
      exact ⟨trivial, rfl⟩

theorem received_frame (hrx : t.rx = .data) {option : UInt8} {payload : List UInt8}
    (hroom : payload.length ≤ sbCap) (hinputs : inputs.map Input.byte = frame option payload) :
    (wire P sbCap optionCap).after t inputs =
        { t with subnegOption := option, subneg := payload } ∧
      received t inputs = [.subnegotiation option (option, payload)] := by
  simp only [frame, List.cons_append, List.nil_append] at hinputs
  obtain ⟨first, inputs, rfl, hfirst, hinputs⟩ := List.map_eq_cons_iff.mp hinputs
  obtain ⟨second, inputs, rfl, hsecond, hinputs⟩ := List.map_eq_cons_iff.mp hinputs
  obtain ⟨third, inputs, rfl, hthird, hinputs⟩ := List.map_eq_cons_iff.mp hinputs
  obtain ⟨body, ending, rfl, hbody, hending⟩ := List.map_eq_append_iff.mp hinputs
  obtain ⟨fourth, ending, rfl, hfourth, hending⟩ := List.map_eq_cons_iff.mp hending
  obtain ⟨fifth, ending, rfl, hfifth, hending⟩ := List.map_eq_cons_iff.mp hending
  obtain rfl := List.map_eq_nil_iff.mp hending
  have hopen : (wire P sbCap optionCap).step { t with rx := .iac } second =
      ({ t with rx := .subnegOption }, none) := by
    rw [step_after_iac rfl, hsecond]
    rfl
  have hoption : (wire P sbCap optionCap).step { t with rx := .subnegOption } third =
      ({ t with rx := .subneg, subnegOption := option, subneg := [] }, none) := by
    simp only [wire, feed, hthird]
    rfl
  let opened : Telnet P sbCap optionCap :=
    { t with rx := .subneg, subnegOption := option, subneg := [] }
  obtain ⟨hafter, hreceived⟩ := received_body (t := opened) rfl
    (by simpa only [opened, List.length_nil, Nat.zero_add] using hroom) hbody
  simp only [opened, List.nil_append] at hafter hreceived
  have hiac : (wire P sbCap optionCap).step
      { t with rx := .subneg, subnegOption := option, subneg := payload } fourth =
      ({ t with rx := .subnegIac, subnegOption := option, subneg := payload }, none) := by
    simp only [wire, feed, hfourth, if_true]
    rfl
  have hclose : (wire P sbCap optionCap).step
      { t with rx := .subnegIac, subnegOption := option, subneg := payload } fifth =
      ({ t with subnegOption := option, subneg := payload },
        some (.subnegotiation option (option, payload))) := by
    have hback : ({ t with rx := .data, subnegOption := option, subneg := payload } :
        Telnet P sbCap optionCap) = { t with subnegOption := option, subneg := payload } := by
      rw [← hrx]
    simp only [wire, feed, hfifth, if_true, hback]
    rfl
  constructor
  · simp only [Transducer.after_cons, Transducer.after_append, step_iac hrx hfirst, hopen, hoption,
      hafter, hiac, hclose, Transducer.after_nil]
  · simp only [received_cons, received_append, step_iac hrx hfirst, hopen, hoption, hreceived,
      hafter, hiac, hclose, received_nil]
    rfl

theorem received_command (hrx : t.rx = .data) {code : UInt8} (hcode : code ∉ [iac, sb] ++ verbs)
    (hinputs : inputs.map Input.byte = [iac, code]) : (wire P sbCap optionCap).after t inputs = t ∧
      received t inputs = (commandEvent code).toList.map .event := by
  obtain ⟨first, inputs, rfl, hfirst, hinputs⟩ := List.map_eq_cons_iff.mp hinputs
  obtain ⟨second, inputs, rfl, hsecond, hinputs⟩ := List.map_eq_cons_iff.mp hinputs
  obtain rfl := List.map_eq_nil_iff.mp hinputs
  have hback : ({ t with rx := .data } : Telnet P sbCap optionCap) = t := by rw [← hrx]
  simp only [verbs, List.cons_append, List.nil_append, List.mem_cons, List.not_mem_nil, or_false,
    not_or] at hcode
  obtain ⟨hiac, hsb, hdo, hdont, hwill, hwont⟩ := hcode
  have hstep : (wire P sbCap optionCap).step { t with rx := .iac } second =
      (t, (commandEvent code).map .event) := by
    rw [step_after_iac rfl, hsecond]
    simp only [feedIac, hiac, hsb, hdo, hdont, hwill, hwont, or_self, if_false, hback]
    unfold commandEvent
    repeat' split
    all_goals rfl
  constructor
  · simp only [Transducer.after_cons, step_iac hrx hfirst, hstep, Transducer.after_nil]
  · simp only [received_cons, step_iac hrx hfirst, hstep, received_nil]
    cases commandEvent code <;> rfl

theorem negotiate_rx (t : Telnet P sbCap optionCap) (n : Nat) (verb option : UInt8)
    (out : List UInt8) : (t.negotiate n verb option out).1.rx = t.rx := by
  have hrx : (t.slotMut option).1.rx = t.rx := by rw [slotMut_frame]
  unfold negotiate
  repeat' split
  · exact hrx
  · exact hrx
  · exact hrx
  · exact hrx
  · rfl

theorem seen_negotiate (t t' : Telnet P sbCap optionCap) (n : Nat) (verb option : UInt8)
    (out : List UInt8) : (t.negotiate n verb option out).2.2.map t'.seen =
      (t.negotiate n verb option out).2.2.map .event := by
  have htransition : ∀ side was now,
      (transitionEvent side option was now).map t'.seen =
        (transitionEvent side option was now).map .event := by
    intro side was now
    cases was <;> cases now <;> rfl
  have hpositive : ∀ side supported,
      (t.negotiatePositive side supported n option out).2.2.map t'.seen =
        (t.negotiatePositive side supported n option out).2.2.map .event :=
    fun side supported => htransition side _ _
  have hnegative : ∀ side, (t.negotiateNegative side n option out).2.2.map t'.seen =
      (t.negotiateNegative side n option out).2.2.map .event := by
    intro side
    unfold negotiateNegative
    dsimp only
    rw [Option.map_or, Option.map_or, htransition]
    split
    · rfl
    · rfl
  unfold negotiate
  repeat' split
  · exact hpositive .us _
  · exact hnegative .us
  · exact hpositive .him _
  · exact hnegative .him
  · rfl

theorem received_negotiation (hrx : t.rx = .data) {verb option : UInt8} (hverb : verb ∈ verbs)
    (hinputs : inputs.map Input.byte = [iac, verb, option]) : ∃ last, inputs.getLast? = some last ∧
      (wire P sbCap optionCap).after t inputs = (t.negotiate last.n verb option last.reply).1 ∧
      received t inputs = (t.negotiate last.n verb option last.reply).2.2.toList.map .event := by
  obtain ⟨first, inputs, rfl, hfirst, hinputs⟩ := List.map_eq_cons_iff.mp hinputs
  obtain ⟨second, inputs, rfl, hsecond, hinputs⟩ := List.map_eq_cons_iff.mp hinputs
  obtain ⟨third, inputs, rfl, hthird, hinputs⟩ := List.map_eq_cons_iff.mp hinputs
  obtain rfl := List.map_eq_nil_iff.mp hinputs
  have hback : ({ t with rx := .data } : Telnet P sbCap optionCap) = t := by rw [← hrx]
  have hstep : (wire P sbCap optionCap).step { t with rx := .iac } second =
      ({ t with rx := .verb verb }, none) := by
    rw [step_after_iac rfl, hsecond]
    simp only [verbs, List.mem_cons, List.not_mem_nil, or_false] at hverb
    rcases hverb with rfl | rfl | rfl | rfl <;> rfl
  have hanswer : (wire P sbCap optionCap).step { t with rx := .verb verb } third =
      ((t.negotiate third.n verb option third.reply).1,
        (t.negotiate third.n verb option third.reply).2.2.map .event) := by
    simp only [wire, feed, hthird, hback, seen_negotiate]
  refine ⟨third, rfl, ?_, ?_⟩
  · simp only [Transducer.after_cons, step_iac hrx hfirst, hstep, hanswer, Transducer.after_nil]
  · simp only [received_cons, step_iac hrx hfirst, hstep, hanswer, received_nil]
    cases (t.negotiate third.n verb option third.reply).2.2 <;> rfl

end

section

variable {σ E : Type} {w : Writer σ E} {inputs : List UInt8}

theorem Item.Wrote.data {bytes sent : List UInt8} (h : Item.Wrote w sbCap bytes (.data sent)) :
    bytes = escape sent := by
  obtain ⟨io, io', hwrite, hbytes⟩ := h
  rw [written_writeDataUnflushed hwrite] at hbytes
  exact (List.append_cancel_left hbytes).symm

theorem Item.Wrote.negotiation {bytes : List UInt8} {verb option : UInt8}
    (h : Item.Wrote w sbCap bytes (.negotiation verb option)) : bytes = [iac, verb, option] := by
  obtain ⟨-, n, out, hpush⟩ := h
  unfold pushCmd at hpush
  split at hpush
  · exact (List.append_cancel_left (Option.some.inj hpush)).symm
  · cases hpush

theorem Item.Wrote.subnegotiation {bytes payload : List UInt8} {option : UInt8}
    (h : Item.Wrote w sbCap bytes (.subnegotiation option payload)) :
    bytes = frame option payload := by
  obtain ⟨-, n, out, hpush⟩ := h
  rw [pushSubnegotiation_eq] at hpush
  split at hpush
  · exact (List.append_cancel_left (Prod.mk.inj hpush).2).symm
  · exact Bool.noConfusion (Prod.mk.inj hpush).1

theorem Item.Wrote.message {bytes : List UInt8} {sent : Serial.Message}
    (h : Item.Wrote w sbCap bytes (.message sent)) : bytes = frame optComPort sent.payload := by
  obtain ⟨-, n, out, hpush⟩ := h
  rw [Serial.encode_eq] at hpush
  split at hpush
  · exact (List.append_cancel_left (Prod.mk.inj hpush).2).symm
  · exact Bool.noConfusion (Prod.mk.inj hpush).1

end

/-- Whatever the writers put on the wire, an endpoint between two items receives item by item, in
the order sent: every byte of the data once, every body unescaped, every message decoded to the one
that was encoded. A command or a frame that fits its buffer is put there whole, and one that does
not fit leaves the buffer as it was; data is written wherever the sink does not fail. -/
theorem framing_round_trip [Policy P] {σ E : Type} (w : Writer σ E) (t : Telnet P sbCap optionCap)
    (hdata : t.rx = .data) (sent : List (Item × List Input))
    (hsent : ∀ s ∈ sent, s.1.Wrote w sbCap (s.2.map Input.byte)) :
    Delivers t sent (received t (sent.flatMap Prod.snd)) ∧
      (∀ n out verb option, pushCmd n out verb option =
        if out.length + 3 ≤ n then some (out ++ [iac, verb, option]) else none) ∧
      (∀ n out option payload, pushSubnegotiation n out option payload =
        if out.length + (frame option payload).length ≤ n then (true, out ++ frame option payload)
        else (false, out)) ∧
      (∀ n message out, Serial.encode n message out =
        if out.length + (frame optComPort message.payload).length ≤ n then
          (true, out ++ frame optComPort message.payload)
        else (false, out)) ∧
      (w.Reliable → ∀ io bytes, ∃ io', writeDataUnflushed w io bytes = .ok io') := by
  refine ⟨?_, fun _ _ _ _ => rfl, pushSubnegotiation_eq, Serial.encode_eq,
    writeDataUnflushed_reliable⟩
  induction sent generalizing t with
  | nil => exact .nil t
  | cons s sent ih =>
    obtain ⟨item, inputs⟩ := s
    have hitem : item.Wrote w sbCap (inputs.map Input.byte) := hsent (item, inputs) (by simp)
    have hrest := fun t' (hrx : t'.rx = .data) =>
      ih t' hrx fun s hs => hsent s (List.mem_cons_of_mem _ hs)
    rw [List.flatMap_cons, received_append]
    cases item with
    | data bytes =>
      obtain ⟨hafter, hreceived⟩ := received_data hdata hitem.data
      rw [hafter, hreceived]
      exact .data (hrest t hdata)
    | command code =>
      obtain ⟨hafter, hreceived⟩ := received_command hdata hitem.1 hitem.2
      rw [hafter, hreceived]
      exact .command (hrest t hdata)
    | negotiation verb option =>
      obtain ⟨last, hlast, hafter, hreceived⟩ :=
        received_negotiation hdata hitem.1 hitem.negotiation
      rw [hafter, hreceived]
      exact .negotiation hlast rfl (hrest _ ((negotiate_rx ..).trans hdata))
    | subnegotiation option payload =>
      obtain ⟨hafter, hreceived⟩ := received_frame hdata hitem.1 hitem.subnegotiation
      rw [hafter, hreceived]
      exact .subnegotiation (hrest _ hdata)
    | message message =>
      obtain ⟨hafter, hreceived⟩ := received_frame hdata hitem.1 hitem.message
      rw [hafter, hreceived]
      exact .message (Serial.decodeFrom_payload message) (hrest _ hdata)

/-- Data with an `IAC`, a command, an offer that is refused, a subnegotiation with an `IAC`, and a
baud rate whose bytes have one. -/
theorem framing_round_trip_mixed :
    let inputs : List UInt8 → List Input := List.map fun byte => { byte, n := 3, reply := [] }
    let sent : List (Item × List Input) :=
      [(.data [1, 255], inputs [1, 255, 255]), (.command ayt, inputs [255, 246]),
        (.negotiation willVerb 5, inputs [255, 251, 5]),
        (.subnegotiation 24 [0, 255], inputs [255, 250, 24, 0, 255, 255, 255, 240]),
        (.message (.setBaudRate .server 255),
          inputs [255, 250, 44, 101, 0, 0, 0, 255, 255, 255, 240])]
    let t : Telnet RejectAll 5 1 := new RejectAll.mk
    Delivers t sent (received t (sent.flatMap Prod.snd)) := by
  refine (framing_round_trip (Writer.collecting Empty) (new RejectAll.mk) rfl _ ?_).1
  intro s hs
  simp only [List.mem_cons, List.not_mem_nil, or_false] at hs
  rcases hs with rfl | rfl | rfl | rfl | rfl
  · exact ⟨[], _, rfl, rfl⟩
  · exact ⟨by decide, rfl⟩
  · exact ⟨by decide, 3, [], rfl⟩
  · exact ⟨by decide, 8, [], rfl⟩
  · exact ⟨by decide, 11, [], rfl⟩

end Microtun.Telnet
