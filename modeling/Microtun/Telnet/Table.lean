import Microtun.Lib.Transducer
import Microtun.Telnet.Halves

/-! The option table is bounded, and an endpoint cannot be told from one whose table is not, as long
as fewer options are in use than it has slots. -/

namespace Microtun.Telnet

/-- An endpoint that has every option in its table from the start. -/
structure Unbounded (P : Type) (sbCap : Nat) where
  policy : P
  rx : RxState
  subnegOption : UInt8
  subneg : List UInt8
  table : Side → UInt8 → QState

/-- What a caller can ask of an endpoint about its state. -/
structure Status where
  usEnabled : UInt8 → Bool
  himEnabled : UInt8 → Bool
  usPending : UInt8 → Bool
  himPending : UInt8 → Bool
  subnegotiation : UInt8 × List UInt8

/-- A byte from the peer, a request of its own, or a policy set through `policy_mut`, with the
buffers that each of them is given and their capacities. -/
inductive Call (P : Type)
  | feed (n : Nat) (byte : UInt8) (reply : List UInt8)
  | request (side : Side) (enable : Bool) (n : Nat) (option : UInt8) (out : List UInt8)
  | setPolicy (policy : P)

/-- What a call leaves in its buffer, and its event. -/
abbrev Output := List UInt8 × Option TelnetEvent

namespace Unbounded

variable {P : Type} {sbCap : Nat}

def new (policy : P) : Unbounded P sbCap :=
  { policy, rx := .data, subnegOption := 0, subneg := [], table := fun _ _ => .no }

/-- One half of one option goes to `state`. -/
def move (u : Unbounded P sbCap) (side : Side) (option : UInt8) (state : QState) :
    Unbounded P sbCap :=
  { u with table := fun side' o => if side' = side ∧ o = option then state else u.table side' o }

theorem move_other {u : Unbounded P sbCap} {side side' : Side} {option o : UInt8} (hne : o ≠ option)
    (state : QState) : (u.move side option state).table side' o = u.table side' o :=
  if_neg fun h => hne h.2

def status (u : Unbounded P sbCap) : Status :=
  { usEnabled := fun option => u.table .us option == .yes
    himEnabled := fun option => u.table .him option == .yes
    usPending := fun option => isPending (u.table .us option)
    himPending := fun option => isPending (u.table .him option)
    subnegotiation := (u.subnegOption, u.subneg) }

def request (side : Side) (enable : Bool) (n : Nat) (u : Unbounded P sbCap) (option : UInt8)
    (out : List UInt8) : Unbounded P sbCap × List UInt8 :=
  let (state, out) :=
    requestState n (u.table side option) enable side.positiveVerb side.negativeVerb option out
  (u.move side option state, out)

def negotiatePositive (side : Side) (supported : Bool) (n : Nat) (u : Unbounded P sbCap)
    (option : UInt8) (out : List UInt8) : Unbounded P sbCap × Output :=
  let wasEnabled := u.table side option == .yes
  let (state, out) :=
    receivePositive n (u.table side option) supported side.positiveVerb side.negativeVerb option out
  (u.move side option state, out, transitionEvent side option wasEnabled (state == .yes))

def negotiateNegative (side : Side) (n : Nat) (u : Unbounded P sbCap) (option : UInt8)
    (out : List UInt8) : Unbounded P sbCap × Output :=
  let wasEnabled := u.table side option == .yes
  let wasRequested := u.table side option == .wantYes
  let (state, out) :=
    receiveNegative n (u.table side option) side.positiveVerb side.negativeVerb option out
  (u.move side option state, out,
    (transitionEvent side option wasEnabled (state == .yes)).or
      (if wasRequested && state == .no then some (.optionRefused side option) else none))

def negotiate [Policy P] (n : Nat) (u : Unbounded P sbCap) (verb option : UInt8)
    (out : List UInt8) : Unbounded P sbCap × Output :=
  if verb = doVerb then negotiatePositive .us (Policy.supportUs u.policy option) n u option out
  else if verb = dontVerb then negotiateNegative .us n u option out
  else if verb = willVerb then
    negotiatePositive .him (Policy.supportHim u.policy option) n u option out
  else if verb = wontVerb then negotiateNegative .him n u option out
  else (u, out, none)

def pushSubneg (u : Unbounded P sbCap) (byte : UInt8) : Unbounded P sbCap :=
  if u.subneg.length < sbCap then { u with subneg := u.subneg ++ [byte] } else u

def feedIac (u : Unbounded P sbCap) (byte : UInt8) : Unbounded P sbCap × Option TelnetEvent :=
  if byte = iac then ({ u with rx := .data }, some (.data iac))
  else if byte = doVerb ∨ byte = dontVerb ∨ byte = willVerb ∨ byte = wontVerb then
    ({ u with rx := .verb byte }, none)
  else if byte = sb then ({ u with rx := .subnegOption }, none)
  else if byte = ip then ({ u with rx := .data }, some .interrupt)
  else if byte = brk then ({ u with rx := .data }, some .brk)
  else if byte = ayt then ({ u with rx := .data }, some .areYouThere)
  else if byte = ec then ({ u with rx := .data }, some .eraseCharacter)
  else if byte = el then ({ u with rx := .data }, some .eraseLine)
  else ({ u with rx := .data }, none)

def feed [Policy P] (n : Nat) (u : Unbounded P sbCap) (byte : UInt8) (reply : List UInt8) :
    Unbounded P sbCap × Output :=
  match u.rx with
  | .data =>
    if byte = iac then ({ u with rx := .iac }, reply, none) else (u, reply, some (.data byte))
  | .iac =>
    let (u, event) := u.feedIac byte
    (u, reply, event)
  | .verb verb => negotiate n { u with rx := .data } verb byte reply
  | .subnegOption => ({ u with subnegOption := byte, subneg := [], rx := .subneg }, reply, none)
  | .subneg =>
    if byte = iac then ({ u with rx := .subnegIac }, reply, none)
      else (u.pushSubneg byte, reply, none)
  | .subnegIac =>
    if byte = se then ({ u with rx := .data }, reply, some (.subnegotiation u.subnegOption))
    else if byte = iac then ({ u.pushSubneg iac with rx := .subneg }, reply, none)
    else ({ u with rx := .data }, reply, none)

def step [Policy P] (u : Unbounded P sbCap) : Call P → Unbounded P sbCap × Output
  | .feed n byte reply => u.feed n byte reply
  | .request side enable n option out =>
    let (u, out) := u.request side enable n option out
    (u, out, none)
  | .setPolicy policy => ({ u with policy }, [], none)

/-- The endpoint as a machine that answers each call, and says how it stands after it. -/
def machine (P : Type) [Policy P] (sbCap : Nat) :
    Transducer (Unbounded P sbCap) (Call P) (Output × Status) where
  step u call := ((u.step call).1, (u.step call).2, (u.step call).1.status)

end Unbounded

variable {P : Type} {sbCap optionCap : Nat} {t : Telnet P sbCap optionCap}

def status (t : Telnet P sbCap optionCap) : Status :=
  { usEnabled := t.usEnabled
    himEnabled := t.himEnabled
    usPending := t.usPending
    himPending := t.himPending
    subnegotiation := t.subnegotiation }

def step [Policy P] (t : Telnet P sbCap optionCap) : Call P → Telnet P sbCap optionCap × Output
  | .feed n byte reply => t.feed n byte reply
  | .request side enable n option out =>
    let (t, out) := t.request side enable n option out
    (t, out, none)
  | .setPolicy policy => ({ t with policy }, [], none)

/-- The endpoint as a machine that answers each call, and says how it stands after it. -/
def machine (P : Type) [Policy P] (sbCap optionCap : Nat) :
    Transducer (Telnet P sbCap optionCap) (Call P) (Output × Status) where
  step t call := ((t.step call).1, (t.step call).2, (t.step call).1.status)

/-! ### The two agree -/

/-- The endpoint is where the unbounded one is. -/
structure Agrees (t : Telnet P sbCap optionCap) (u : Unbounded P sbCap) : Prop where
  policy : t.policy = u.policy
  rx : t.rx = u.rx
  subnegOption : t.subnegOption = u.subnegOption
  subneg : t.subneg = u.subneg
  half : ∀ side option, t.half side option = u.table side option

variable {u : Unbounded P sbCap} {used : Finset UInt8}

theorem agrees_new (policy : P) : Agrees (new policy : Telnet P sbCap optionCap) (.new policy) :=
  ⟨rfl, rfl, rfl, rfl, fun _ _ => rfl⟩

theorem Agrees.frame (h : Agrees t u) {t' : Telnet P sbCap optionCap} {u' : Unbounded P sbCap}
    (hpolicy : t'.policy = u'.policy) (hrx : t'.rx = u'.rx)
    (hoption : t'.subnegOption = u'.subnegOption) (hsubneg : t'.subneg = u'.subneg)
    (hoptions : t'.options = t.options) (htable : u'.table = u.table) : Agrees t' u' := by
  refine ⟨hpolicy, hrx, hoption, hsubneg, ?_⟩
  intro side option
  rw [htable, ← h.half]
  unfold Telnet.half Telnet.slot
  rw [hoptions]

theorem Agrees.status (h : Agrees t u) : t.status = u.status := by
  simp only [Telnet.status, Unbounded.status, Status.mk.injEq, funext_iff, usEnabled_eq,
    himEnabled_eq, usPending_eq, himPending_eq, h.half, subnegotiation, h.subnegOption, h.subneg,
    implies_true,
    and_self]

theorem Agrees.move (h : Agrees t u) (ht : Tidy used t) (hcap : used.card < optionCap) (side : Side)
    (option : UInt8) (state : QState) :
    Agrees
      ({ (t.slotMut option).1 with
        options := (t.slotMut option).1.options.set (t.slotMut option).2
          (((t.slotMut option).1.options.getD (t.slotMut option).2 (.new option)).setHalf side
            state) } :
        Telnet P sbCap optionCap)
      (u.move side option state) := by
  obtain ⟨⟨opts, hloc⟩, -⟩ := ht.slotMut hcap option
  have hmoved := (hloc.moved side state).half
  rw [slotMut_frame] at hmoved ⊢
  refine ⟨h.policy, h.rx, h.subnegOption, h.subneg, ?_⟩
  intro side' o
  rw [hmoved, h.half]
  rfl

theorem Agrees.request (h : Agrees t u) (ht : Tidy used t) (hcap : used.card < optionCap)
    (side : Side) (enable : Bool) (n : Nat) (option : UInt8) (out : List UInt8) :
    Agrees (t.request side enable n option out).1 (u.request side enable n option out).1 ∧
      (t.request side enable n option out).2 = (u.request side enable n option out).2 := by
  obtain ⟨⟨opts, hloc⟩, -⟩ := ht.slotMut hcap option
  unfold Telnet.request Unbounded.request
  simp only [hloc.getD_half, h.half]
  exact ⟨h.move ht hcap side option _, trivial⟩

theorem Agrees.positive (h : Agrees t u) (ht : Tidy used t) (hcap : used.card < optionCap)
    (side : Side) (supported : Bool) (n : Nat) (option : UInt8) (out : List UInt8) :
    Agrees (t.negotiatePositive side supported n option out).1
        (u.negotiatePositive side supported n option out).1 ∧
      (t.negotiatePositive side supported n option out).2 =
        (u.negotiatePositive side supported n option out).2 := by
  obtain ⟨⟨opts, hloc⟩, -⟩ := ht.slotMut hcap option
  unfold negotiatePositive Unbounded.negotiatePositive
  simp only [hloc.getD_half, h.half]
  exact ⟨h.move ht hcap side option _, trivial⟩

theorem Agrees.negative (h : Agrees t u) (ht : Tidy used t) (hcap : used.card < optionCap)
    (side : Side) (n : Nat) (option : UInt8) (out : List UInt8) :
    Agrees (t.negotiateNegative side n option out).1 (u.negotiateNegative side n option out).1 ∧
      (t.negotiateNegative side n option out).2 = (u.negotiateNegative side n option out).2 := by
  obtain ⟨⟨opts, hloc⟩, -⟩ := ht.slotMut hcap option
  unfold negotiateNegative Unbounded.negotiateNegative
  simp only [hloc.getD_half, h.half]
  exact ⟨h.move ht hcap side option _, trivial⟩

theorem Agrees.negotiate [Policy P] (h : Agrees t u) (ht : Tidy used t)
    (hcap : used.card < optionCap) (n : Nat) (verb option : UInt8) (out : List UInt8) :
    Agrees (t.negotiate n verb option out).1 (u.negotiate n verb option out).1 ∧
      (t.negotiate n verb option out).2 = (u.negotiate n verb option out).2 := by
  unfold Telnet.negotiate Unbounded.negotiate
  rw [h.policy]
  split
  · exact h.positive ht hcap .us _ n option out
  · split
    · exact h.negative ht hcap .us n option out
    · split
      · exact h.positive ht hcap .him _ n option out
      · split
        · exact h.negative ht hcap .him n option out
        · exact ⟨h, rfl⟩

theorem Agrees.pushSubneg (h : Agrees t u) (byte : UInt8) :
    Agrees (t.pushSubneg byte) (u.pushSubneg byte) := by
  unfold Telnet.pushSubneg Unbounded.pushSubneg
  rw [h.subneg]
  by_cases hroom : u.subneg.length < sbCap
  · rw [if_pos hroom, if_pos hroom]
    exact h.frame h.policy h.rx h.subnegOption rfl rfl rfl
  · rw [if_neg hroom, if_neg hroom]
    exact h

theorem Agrees.feedIac (h : Agrees t u) (byte : UInt8) :
    Agrees (t.feedIac byte).1 (u.feedIac byte).1 ∧ (t.feedIac byte).2 = (u.feedIac byte).2 := by
  have hrx : ∀ rx, Agrees { t with rx } { u with rx } := fun rx =>
    h.frame h.policy rfl h.subnegOption h.subneg rfl rfl
  unfold Telnet.feedIac Unbounded.feedIac
  repeat' split
  all_goals exact ⟨hrx _, rfl⟩

theorem Agrees.feed [Policy P] (h : Agrees t u) (ht : Tidy used t) (hcap : used.card < optionCap)
    (n : Nat) (byte : UInt8) (reply : List UInt8) :
    Agrees (t.feed n byte reply).1 (u.feed n byte reply).1 ∧
      (t.feed n byte reply).2 = (u.feed n byte reply).2 := by
  have hrx : ∀ rx, Agrees { t with rx } { u with rx } := fun rx =>
    h.frame h.policy rfl h.subnegOption h.subneg rfl rfl
  unfold Telnet.feed Unbounded.feed
  rw [h.rx]
  cases u.rx with
  | data =>
    dsimp only
    by_cases hbyte : byte = iac
    · rw [if_pos hbyte, if_pos hbyte]
      exact ⟨hrx .iac, rfl⟩
    · rw [if_neg hbyte, if_neg hbyte]
      exact ⟨h, rfl⟩
  | iac =>
    obtain ⟨hnext, hevent⟩ := h.feedIac byte
    exact ⟨hnext, by simp only [hevent]⟩
  | verb verb =>
    have hdata : Tidy used ({ t with rx := .data } : Telnet P sbCap optionCap) :=
      ⟨ht.nodup, ht.idle⟩
    exact (hrx .data).negotiate hdata hcap n verb byte reply
  | subnegOption => exact ⟨h.frame h.policy rfl rfl rfl rfl rfl, rfl⟩
  | subneg =>
    dsimp only
    by_cases hbyte : byte = iac
    · rw [if_pos hbyte, if_pos hbyte]
      exact ⟨hrx .subnegIac, rfl⟩
    · rw [if_neg hbyte, if_neg hbyte]
      exact ⟨h.pushSubneg byte, rfl⟩
  | subnegIac =>
    dsimp only
    by_cases hse : byte = se
    · rw [if_pos hse, if_pos hse, h.subnegOption]
      exact ⟨h.frame h.policy rfl rfl h.subneg rfl rfl, rfl⟩
    · rw [if_neg hse, if_neg hse]
      by_cases hbyte : byte = iac
      · rw [if_pos hbyte, if_pos hbyte]
        have hpush := h.pushSubneg iac
        exact ⟨hpush.frame hpush.policy rfl hpush.subnegOption hpush.subneg rfl rfl, rfl⟩
      · rw [if_neg hbyte, if_neg hbyte]
        exact ⟨hrx .data, rfl⟩

/-! ### Runs -/

section

variable [Policy P]

/-- Every option that is in use is among these: asked for by this call, or supported by its policy.
-/
def Call.Within (used : Finset UInt8) : Call P → Prop
  | .feed _ _ _ => True
  | .request _ enable _ option _ => enable = true → option ∈ used
  | .setPolicy policy => ∀ side option, supports policy side option = true → option ∈ used

/-- The call is a request for the option, or the last byte of a command that names it. -/
def Call.Names (rx : RxState) (option : UInt8) : Call P → Prop
  | .feed _ byte _ => (∃ verb, rx = .verb verb) ∧ byte = option
  | .request _ _ _ asked _ => asked = option
  | .setPolicy _ => False

/-- An endpoint with few options in use, and the unbounded one at the same point. -/
structure Follows (used : Finset UInt8) (t : Telnet P sbCap optionCap) (u : Unbounded P sbCap) :
    Prop where
  agrees : Agrees t u
  tidy : Tidy used t
  supported : ∀ side option, supports t.policy side option = true → option ∈ used

theorem Follows.step (h : Follows used t u) (hcap : used.card < optionCap) {call : Call P}
    (hcall : call.Within used) :
    Follows used (t.step call).1 (u.step call).1 ∧ (t.step call).2 = (u.step call).2 := by
  cases call with
  | feed n byte reply =>
    have hfed := Fed.feed h.tidy hcap h.supported n byte reply
    obtain ⟨hagrees, hout⟩ := h.agrees.feed h.tidy hcap n byte reply
    refine ⟨⟨hagrees, hfed.tidy, ?_⟩, hout⟩
    intro side option hsupports
    rw [Telnet.step, hfed.policy] at hsupports
    exact h.supported side option hsupports
  | request side enable n option out =>
    obtain ⟨htidy, hpolicy, -, -⟩ := h.tidy.request hcap side enable hcall n out
    obtain ⟨hagrees, hout⟩ := h.agrees.request h.tidy hcap side enable n option out
    refine ⟨⟨hagrees, htidy, ?_⟩, by simp only [Telnet.step, Unbounded.step, hout]⟩
    intro side' o hsupports
    rw [Telnet.step, hpolicy] at hsupports
    exact h.supported side' o hsupports
  | setPolicy policy =>
    have hframe : Agrees ({ t with policy } : Telnet P sbCap optionCap) { u with policy } :=
      h.agrees.frame rfl h.agrees.rx h.agrees.subnegOption h.agrees.subneg rfl rfl
    exact ⟨⟨hframe, ⟨h.tidy.nodup, h.tidy.idle⟩, hcall⟩, rfl⟩

theorem simulates_unbounded (hcap : used.card < optionCap) :
    (machine P sbCap optionCap).Simulates (Unbounded.machine P sbCap) (Follows used)
      (Call.Within used) := by
  intro t u call hcall h
  obtain ⟨hfollows, hout⟩ := h.step hcap hcall
  refine ⟨hfollows, ?_⟩
  simp only [machine, Unbounded.machine, hout, hfollows.agrees.status]

/-- A call moves no half of an option that it does not name. -/
theorem Unbounded.step_other {call : Call P} {o : UInt8} (h : ¬call.Names u.rx o) (side' : Side) :
    (u.step call).1.table side' o = u.table side' o := by
  cases call with
  | request side enable n option out => exact move_other (Ne.symm h) _
  | setPolicy policy => rfl
  | feed n byte reply =>
    unfold Unbounded.step Unbounded.feed
    dsimp only
    cases hrx : u.rx with
    | verb verb =>
      have hne : o ≠ byte := fun heq => h ⟨⟨verb, hrx⟩, heq.symm⟩
      dsimp only
      unfold Unbounded.negotiate
      repeat' split
      · exact move_other hne _
      · exact move_other hne _
      · exact move_other hne _
      · exact move_other hne _
      · rfl
    | iac =>
      dsimp only
      unfold Unbounded.feedIac
      repeat' split
      all_goals rfl
    | subneg =>
      dsimp only
      unfold Unbounded.pushSubneg
      repeat' split
      all_goals rfl
    | subnegIac =>
      dsimp only
      unfold Unbounded.pushSubneg
      repeat' split
      all_goals rfl
    | _ =>
      dsimp only
      repeat' split
      all_goals rfl

/-- As long as fewer options are supported or asked for than the table has slots, every run of bytes
from the peer and of own calls has the replies, the events and the answers of the endpoint whose
table is unbounded; and no call moves a half of an option that it does not name. -/
theorem bounded_table_unbounded (policy : P) (used : Finset UInt8) (hcap : used.card < optionCap)
    (hpolicy : ∀ side option, supports policy side option = true → option ∈ used)
    (calls : List (Call P)) (hcalls : ∀ call ∈ calls, call.Within used) :
    (machine P sbCap optionCap).answers (new policy) calls =
        (Unbounded.machine P sbCap).answers (.new policy) calls ∧
      ∀ (call : Call P) (option : UInt8) (side : Side), call.Within used →
        ¬call.Names ((machine P sbCap optionCap).after (new policy) calls).rx option →
        (step ((machine P sbCap optionCap).after (new policy) calls) call).1.half side option =
          ((machine P sbCap optionCap).after (new policy) calls).half side option := by
  have hstart : Follows used (new policy : Telnet P sbCap optionCap) (.new policy) :=
    ⟨agrees_new policy, tidy_new used policy, hpolicy⟩
  obtain ⟨hafter, hanswers⟩ := (simulates_unbounded hcap).run hstart hcalls
  refine ⟨hanswers, ?_⟩
  intro call option side hcall hnames
  have hnext := (hafter.step hcap hcall).1.agrees.half side option
  rw [hafter.agrees.rx] at hnames
  rw [hnext, Unbounded.step_other hnames, hafter.agrees.half]

/-- One option is asked for, the table has two slots, and the peer probes three others. -/
theorem bounded_table_unbounded_probes :
    let calls : List (Call RejectAll) :=
      [.request .us true 3 optBinary [], .feed 3 iac [], .feed 3 willVerb [], .feed 3 5 [],
        .feed 3 iac [], .feed 3 willVerb [], .feed 3 6 [], .feed 3 iac [], .feed 3 willVerb [],
        .feed 3 7 []]
    (machine RejectAll 4 2).answers (new RejectAll.mk) calls =
      (Unbounded.machine RejectAll 4).answers (.new RejectAll.mk) calls :=
  (bounded_table_unbounded RejectAll.mk {optBinary} (by decide)
    (fun side option h => by cases side <;> cases h) _
    (by simp [Call.Within])).1

end

end Microtun.Telnet
