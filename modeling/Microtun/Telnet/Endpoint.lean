import Microtun.Telnet.Exchange
import Mathlib.Data.Finset.Card

/-! What an endpoint does to its options: each request and each received command moves one half of
one option as the exchange says, and the bytes it sends are whole commands. -/

namespace Microtun.Telnet

variable {P : Type} {sbCap optionCap : Nat} {t : Telnet P sbCap optionCap}

/-- A negotiation command, by the sender's half that it is about. -/
structure Command where
  side : Side
  positive : Bool
  option : UInt8
deriving DecidableEq, Repr

def Command.verb (c : Command) : UInt8 :=
  if c.positive then c.side.positiveVerb else c.side.negativeVerb

def Command.encode (c : Command) : List UInt8 := [iac, c.verb, c.option]

@[simp] theorem Command.length_encode (c : Command) : c.encode.length = 3 := rfl

/-- The half that a command is about, at the endpoint that receives it. -/
def Side.other : Side → Side
  | .us => .him
  | .him => .us

@[simp] theorem Side.other_other (side : Side) : side.other.other = side := by cases side <;> rfl

def supports [Policy P] (policy : P) : Side → UInt8 → Bool
  | .us => Policy.supportUs policy
  | .him => Policy.supportHim policy

/-- The state of one half of an option.  An option without a slot is off. -/
def half (t : Telnet P sbCap optionCap) (side : Side) (option : UInt8) : QState :=
  ((t.slot option).map (·.half side)).getD .no

theorem usEnabled_eq (option : UInt8) : t.usEnabled option = (t.half .us option == .yes) := by
  unfold usEnabled half
  cases t.slot option <;> rfl

theorem himEnabled_eq (option : UInt8) : t.himEnabled option = (t.half .him option == .yes) := by
  unfold himEnabled half
  cases t.slot option <;> rfl

theorem usPending_eq (option : UInt8) : t.usPending option = isPending (t.half .us option) := by
  unfold usPending half
  cases t.slot option <;> rfl

theorem himPending_eq (option : UInt8) : t.himPending option = isPending (t.half .him option) := by
  unfold himPending half
  cases t.slot option <;> rfl

/-- One slot for an option, and only for the options of `opts`. -/
structure Slotted (opts : Finset UInt8) (t : Telnet P sbCap optionCap) : Prop where
  nodup : (t.options.map (·.option)).Nodup
  known : ∀ slot ∈ t.options, slot.option ∈ opts

theorem slotted_new (opts : Finset UInt8) (policy : P) :
    Slotted opts (new policy : Telnet P sbCap optionCap) := by
  constructor
  · simp [new]
  · simp [new]

section Slots

variable {slots : List OptionSlot} {slot : OptionSlot} {option : UInt8} {i : Nat}

theorem find?_slot (hnodup : (slots.map (·.option)).Nodup) (hmem : slot ∈ slots) :
    slots.find? (fun s => s.option == slot.option) = some slot := by
  induction slots with
  | nil => simp at hmem
  | cons head rest ih =>
    rw [List.map_cons, List.nodup_cons] at hnodup
    cases hmem with
    | head => simp
    | tail _ hmem =>
      have hne : head.option ≠ slot.option := by
        intro heq
        exact hnodup.1 (heq ▸ List.mem_map_of_mem hmem)
      simp [hne, ih hnodup.2 hmem]

/-- Rewriting a slot changes what is found for its own option only. -/
theorem find?_set (hnodup : (slots.map (·.option)).Nodup) (hget : slots[i]? = some slot)
    {slot' : OptionSlot} (heq : slot'.option = slot.option) (option : UInt8) :
    (slots.set i slot').find? (fun s => s.option == option) =
      if option = slot.option then some slot' else slots.find? (fun s => s.option == option) := by
  induction slots generalizing i with
  | nil => simp at hget
  | cons head rest ih =>
    rw [List.map_cons, List.nodup_cons] at hnodup
    cases i with
    | zero =>
      obtain rfl : head = slot := by simpa using hget
      by_cases ho : option = head.option
      · simp [ho, heq]
      · simp [ho, heq, Ne.symm ho]
    | succ i =>
      have hget : rest[i]? = some slot := by simpa using hget
      have hne : head.option ≠ slot.option := by
        intro h
        exact hnodup.1 (h ▸ List.mem_map_of_mem (List.mem_of_getElem? hget))
      by_cases ho : option = slot.option
      · subst ho
        simp [hne, ih hnodup.2 hget]
      · simp only [List.set_cons_succ, List.find?_cons, ih hnodup.2 hget, if_neg ho]

theorem map_set_slot (hget : slots[i]? = some slot) {slot' : OptionSlot}
    (heq : slot'.option = slot.option) :
    (slots.set i slot').map (·.option) = slots.map (·.option) := by
  rw [List.map_set, heq]
  refine List.ext_getElem? fun j => ?_
  by_cases hj : j = i
  · subst hj
    obtain ⟨hlt, rfl⟩ := List.getElem?_eq_some_iff.mp hget
    simp [hlt]
  · rw [List.getElem?_set_ne (Ne.symm hj)]

end Slots

@[simp] theorem OptionSlot.option_setHalf (slot : OptionSlot) (side : Side) (state : QState) :
    (slot.setHalf side state).option = slot.option := by
  cases side <;> rfl

theorem OptionSlot.half_setHalf (slot : OptionSlot) (side side' : Side) (state : QState) :
    (slot.setHalf side state).half side' = if side' = side then state else slot.half side' := by
  cases side <;> cases side' <;> rfl

theorem Slotted.room {opts : Finset UInt8} (h : Slotted opts t) (hcap : opts.card ≤ optionCap)
    {option : UInt8} (hmem : option ∈ opts) (hnew : ∀ slot ∈ t.options, slot.option ≠ option) :
    t.options.length < optionCap := by
  have hsub : (option :: t.options.map (·.option)).toFinset ⊆ opts := by
    intro o ho
    simp only [List.toFinset_cons, Finset.mem_insert, List.mem_toFinset, List.mem_map] at ho
    obtain rfl | ⟨slot, hslot, rfl⟩ := ho
    · exact hmem
    · exact h.known slot hslot
  have hnodup : (option :: t.options.map (·.option)).Nodup := by
    refine List.nodup_cons.mpr ⟨?_, h.nodup⟩
    intro hin
    obtain ⟨slot, hslot, heq⟩ := List.mem_map.mp hin
    exact hnew slot hslot heq
  have hcard := Finset.card_le_card hsub
  rw [List.toFinset_card_of_nodup hnodup] at hcard
  simp only [List.length_cons, List.length_map] at hcard
  omega

theorem slotMut_frame (t : Telnet P sbCap optionCap) (option : UInt8) :
    (t.slotMut option).1 = { t with options := (t.slotMut option).1.options } := by
  unfold slotMut
  split
  · rfl
  · split
    · rfl
    · rfl

/-- What `slotMut` gives: the same options, with a slot for this one. -/
structure Located (opts : Finset UInt8) (t : Telnet P sbCap optionCap) (option : UInt8)
    (t' : Telnet P sbCap optionCap) (index : Nat) : Prop where
  slotted : Slotted opts t'
  slot : ∃ slot, t'.options[index]? = some slot ∧ slot.option = option
  half : ∀ side o, t'.half side o = t.half side o
  rx : t'.rx = t.rx

theorem slotMut_spec {opts : Finset UInt8} (h : Slotted opts t) (hcap : opts.card ≤ optionCap)
    {option : UInt8} (hmem : option ∈ opts) :
    Located opts t option (t.slotMut option).1 (t.slotMut option).2 := by
  unfold slotMut
  cases hfind : t.options.findIdx? (fun slot => slot.option == option) with
  | some index =>
    obtain ⟨hlt, hp, -⟩ := List.findIdx?_eq_some_iff_getElem.mp hfind
    exact ⟨h, ⟨_, List.getElem?_eq_getElem hlt, by simpa using hp⟩, fun _ _ => rfl, rfl⟩
  | none =>
    have hnew : ∀ slot ∈ t.options, slot.option ≠ option := by
      intro slot hslot
      simpa using List.findIdx?_eq_none_iff.mp hfind slot hslot
    rw [if_pos (h.room hcap hmem hnew)]
    refine ⟨⟨?_, ?_⟩, ⟨.new option, by simp, rfl⟩, ?_, rfl⟩
    · simp only [List.map_append, List.map_cons, List.map_nil]
      refine List.nodup_append.mpr ⟨h.nodup, by simp, ?_⟩
      intro o ho o' ho' heq
      obtain ⟨slot, hslot, rfl⟩ := List.mem_map.mp ho
      exact hnew slot hslot (heq.trans (List.mem_singleton.mp ho'))
    · intro slot hslot
      rcases List.mem_append.mp hslot with hslot | hslot
      · exact h.known slot hslot
      · rw [List.mem_singleton.mp hslot]
        exact hmem
    · intro side o
      -- the new slot is off in both halves, as the missing one was
      show ((List.find? _ (t.options ++ [OptionSlot.new option])).map _).getD _ = _
      rw [List.find?_append]
      unfold Telnet.half Telnet.slot
      cases hf : t.options.find? (fun slot => slot.option == o) with
      | some slot => rfl
      | none =>
        by_cases ho : option = o
        · subst ho
          cases side <;> simp [OptionSlot.new, OptionSlot.half]
        · simp [OptionSlot.new, ho]

/-- One half of one option has moved to `state`, and nothing else. -/
structure Moved (opts : Finset UInt8) (t : Telnet P sbCap optionCap) (side : Side) (option : UInt8)
    (state : QState) (t' : Telnet P sbCap optionCap) : Prop where
  slotted : Slotted opts t'
  half : ∀ side' o, t'.half side' o = if side' = side ∧ o = option then state else t.half side' o

theorem Located.moved {opts : Finset UInt8} {option : UInt8} {t' : Telnet P sbCap optionCap}
    {index : Nat} (h : Located opts t option t' index) (side : Side) (state : QState) :
    Moved opts t side option state { t' with
      options := t'.options.set index ((t'.options.getD index (.new option)).setHalf side state)
        } := by
  obtain ⟨slot, hget, rfl⟩ := h.slot
  have hslot : t'.options.getD index (.new slot.option) = slot := by
    rw [List.getD_eq_getElem?_getD, hget, Option.getD_some]
  have hmap : (t'.options.set index (slot.setHalf side state)).map (·.option) =
      t'.options.map (·.option) := map_set_slot hget (by simp)
  rw [hslot]
  refine ⟨⟨?_, ?_⟩, ?_⟩
  · rw [hmap]
    exact h.slotted.nodup
  · intro s hs
    have hin : s.option ∈ t'.options.map (·.option) := by
      rw [← hmap]
      exact List.mem_map_of_mem hs
    obtain ⟨s', hs', heq⟩ := List.mem_map.mp hin
    exact heq ▸ h.slotted.known s' hs'
  · intro side' o
    have hfind := @find?_set _ _ _ h.slotted.nodup hget (slot.setHalf side state) (by simp) o
    show ((List.find? _ _).map _).getD _ = _
    rw [hfind]
    by_cases ho : o = slot.option
    · subst ho
      have hold : t.half side' slot.option = slot.half side' := by
        rw [← h.half]
        show ((List.find? _ _).map _).getD _ = _
        rw [find?_slot h.slotted.nodup (List.mem_of_getElem? hget)]
        rfl
      simp only [if_true, Option.map_some, Option.getD_some, OptionSlot.half_setHalf, hold,
        and_true]
    · rw [if_neg ho, if_neg (by simp [ho]), ← h.half side' o]
      rfl

theorem Located.getD_half {opts : Finset UInt8} {option : UInt8} {t' : Telnet P sbCap optionCap}
    {index : Nat} (h : Located opts t option t' index) (side : Side) :
    (t'.options.getD index (.new option)).half side = t.half side option := by
  obtain ⟨slot, hget, rfl⟩ := h.slot
  rw [← h.half, List.getD_eq_getElem?_getD, hget, Option.getD_some]
  show _ = ((List.find? _ _).map _).getD _
  rw [find?_slot h.slotted.nodup (List.mem_of_getElem? hget)]
  rfl

/-- The command sent for a half, if any. -/
def sentFor (side : Side) (option : UInt8) (sent : Option Bool) : List Command :=
  sent.toList.map (⟨side, ·, option⟩)

theorem sendCmd_room {n : Nat} (hn : 3 ≤ n) (state next : QState) (verb option : UInt8) :
    sendCmd n state next verb option [] = (next, [iac, verb, option]) := by
  simp [sendCmd, pushCmd, hn]

theorem requestState_room {n : Nat} (hn : 3 ≤ n) (side : Side) (state : QState) (enable : Bool)
    (option : UInt8) : requestState n state enable side.positiveVerb side.negativeVerb option [] =
      ((state.request enable).1,
        (sentFor side option (state.request enable).2).flatMap Command.encode) := by
  cases state <;> cases enable <;>
    simp [requestState, QState.request, sentFor, sendCmd_room hn, Command.encode, Command.verb]

theorem receivePositive_room {n : Nat} (hn : 3 ≤ n) (side : Side) (state : QState)
    (supported : Bool) (option : UInt8) :
    receivePositive n state supported side.positiveVerb side.negativeVerb option [] =
      ((state.receive supported true).1,
        (sentFor side option (state.receive supported true).2).flatMap Command.encode) := by
  cases state <;> cases supported <;>
    simp [receivePositive, QState.receive, sentFor, sendCmd_room hn, Command.encode, Command.verb]

theorem receiveNegative_room {n : Nat} (hn : 3 ≤ n) (side : Side) (state : QState)
    (supported : Bool) (option : UInt8) :
    receiveNegative n state side.positiveVerb side.negativeVerb option [] =
      ((state.receive supported false).1,
        (sentFor side option (state.receive supported false).2).flatMap Command.encode) := by
  cases state <;>
    simp [receiveNegative, QState.receive, sentFor, sendCmd_room hn, Command.encode, Command.verb]

section Specs

variable {opts : Finset UInt8} {n : Nat} {option : UInt8}

theorem request_spec (h : Slotted opts t) (hcap : opts.card ≤ optionCap) (hmem : option ∈ opts)
    (hn : 3 ≤ n) (side : Side) (enable : Bool) :
    Moved opts t side option ((t.half side option).request enable).1
        (request side enable n t option []).1 ∧ (request side enable n t option []).1.rx = t.rx ∧
      (request side enable n t option []).2 =
        (sentFor side option ((t.half side option).request enable).2).flatMap Command.encode := by
  have hloc := slotMut_spec h hcap hmem
  have hroom := requestState_room hn side (t.half side option) enable option
  unfold request
  simp only [hloc.getD_half, hroom, and_true]
  exact ⟨hloc.moved side _, hloc.rx⟩

theorem negotiatePositive_spec (h : Slotted opts t) (hcap : opts.card ≤ optionCap)
    (hmem : option ∈ opts) (hn : 3 ≤ n) (side : Side) (supported : Bool) :
    Moved opts t side option ((t.half side option).receive supported true).1
        (negotiatePositive side supported n t option []).1 ∧
      (negotiatePositive side supported n t option []).1.rx = t.rx ∧
      (negotiatePositive side supported n t option []).2.1 =
        (sentFor side option ((t.half side option).receive supported true).2).flatMap
          Command.encode := by
  have hloc := slotMut_spec h hcap hmem
  have hroom := receivePositive_room hn side (t.half side option) supported option
  unfold negotiatePositive
  simp only [hloc.getD_half, hroom, and_true]
  exact ⟨hloc.moved side _, hloc.rx⟩

theorem negotiateNegative_spec (h : Slotted opts t) (hcap : opts.card ≤ optionCap)
    (hmem : option ∈ opts) (hn : 3 ≤ n) (side : Side) (supported : Bool) :
    Moved opts t side option ((t.half side option).receive supported false).1
        (negotiateNegative side n t option []).1 ∧
      (negotiateNegative side n t option []).1.rx = t.rx ∧
      (negotiateNegative side n t option []).2.1 =
        (sentFor side option ((t.half side option).receive supported false).2).flatMap
          Command.encode := by
  have hloc := slotMut_spec h hcap hmem
  have hroom := receiveNegative_room hn side (t.half side option) supported option
  unfold negotiateNegative
  simp only [hloc.getD_half, hroom, and_true]
  exact ⟨hloc.moved side _, hloc.rx⟩

/-- A command moves the other half of its option at the endpoint that receives it. -/
theorem negotiate_spec [Policy P] (h : Slotted opts t) (hcap : opts.card ≤ optionCap) (c : Command)
    (hmem : c.option ∈ opts) (hn : 3 ≤ n) :
    let r := (t.half c.side.other c.option).receive (supports t.policy c.side.other c.option)
      c.positive
    Moved opts t c.side.other c.option r.1 (negotiate n t c.verb c.option []).1 ∧
      (negotiate n t c.verb c.option []).1.rx = t.rx ∧
      (negotiate n t c.verb c.option []).2.1 =
        (sentFor c.side.other c.option r.2).flatMap Command.encode := by
  obtain ⟨side, positive, option⟩ := c
  cases side with
  | us =>
    cases positive with
    | true => exact negotiatePositive_spec h hcap hmem hn .him _
    | false => exact negotiateNegative_spec h hcap hmem hn .him _
  | him =>
    cases positive with
    | true => exact negotiatePositive_spec h hcap hmem hn .us _
    | false => exact negotiateNegative_spec h hcap hmem hn .us _

end Specs

/-- The bytes still in flight to a receiver, after what it has read of the first command. -/
inductive Unread : RxState → List UInt8 → List Command → Prop
  | data (commands : List Command) : Unread .data (commands.flatMap Command.encode) commands
  | iac (c : Command) (commands : List Command) :
    Unread .iac (c.verb :: c.option :: commands.flatMap Command.encode) (c :: commands)
  | verb (c : Command) (commands : List Command) :
    Unread (.verb c.verb) (c.option :: commands.flatMap Command.encode) (c :: commands)

theorem Unread.append {rx : RxState} {bytes : List UInt8} {commands : List Command}
    (h : Unread rx bytes commands) (more : List Command) :
    Unread rx (bytes ++ more.flatMap Command.encode) (commands ++ more) := by
  cases h with
  | data => simpa using Unread.data (commands ++ more)
  | iac c rest => simpa using Unread.iac c (rest ++ more)
  | verb c rest => simpa using Unread.verb c (rest ++ more)

theorem Unread.eq_nil {rx : RxState} {commands : List Command} (h : Unread rx [] commands) :
    commands = [] := by
  generalize hb : ([] : List UInt8) = bytes at h
  cases h with
  | data =>
    cases commands with
    | nil => rfl
    | cons c rest => simp [Command.encode] at hb
  | iac => simp at hb
  | verb => simp at hb

theorem Command.feedIac_verb (t : Telnet P sbCap optionCap) (c : Command) :
    t.feedIac c.verb = ({ t with rx := .verb c.verb }, none) := by
  obtain ⟨side, positive, option⟩ := c
  cases side <;> cases positive <;> rfl

/-- A byte either brings the next command closer, or completes it: then the endpoint acts on it. -/
theorem feed_spec [Policy P] {opts : Finset UInt8} (h : Slotted opts t)
    (hcap : opts.card ≤ optionCap) {n : Nat} (hn : 3 ≤ n) {byte : UInt8} {bytes : List UInt8}
    {commands : List Command} (hknown : ∀ c ∈ commands, c.option ∈ opts)
    (hunread : Unread t.rx (byte :: bytes) commands) :
    (∃ rx, feed n t byte [] = ({ t with rx }, [], none) ∧ Unread rx bytes commands) ∨
      ∃ c rest, commands = c :: rest ∧ Unread (feed n t byte []).1.rx bytes rest ∧
        let r := (t.half c.side.other c.option).receive (supports t.policy c.side.other c.option)
          c.positive
        Moved opts t c.side.other c.option r.1 (feed n t byte []).1 ∧
          (feed n t byte []).2.1 = (sentFor c.side.other c.option r.2).flatMap Command.encode := by
  generalize hrx : t.rx = rx at hunread
  generalize hb : byte :: bytes = all at hunread
  cases hunread with
  | data =>
    cases commands with
    | nil => simp at hb
    | cons c rest =>
      simp only [List.flatMap_cons, Command.encode, List.cons_append, List.nil_append,
        List.cons.injEq] at hb
      obtain ⟨rfl, rfl⟩ := hb
      refine .inl ⟨.iac, ?_, .iac c rest⟩
      simp [feed, hrx]
  | iac c rest =>
    obtain ⟨rfl, rfl⟩ := List.cons.inj hb
    refine .inl ⟨.verb c.verb, ?_, .verb c rest⟩
    simp [feed, hrx, Command.feedIac_verb]
  | verb c rest =>
    obtain ⟨rfl, rfl⟩ := List.cons.inj hb
    let t0 : Telnet P sbCap optionCap := { t with rx := .data }
    have h0 : Slotted opts t0 := ⟨h.nodup, h.known⟩
    have hfeed : feed n t c.option [] = negotiate n t0 c.verb c.option [] := by simp [feed, hrx, t0]
    obtain ⟨hmoved, hdata, hout⟩ := negotiate_spec h0 hcap c (hknown c (by simp)) hn
    rw [hfeed]
    refine .inr ⟨c, rest, rfl, ?_, ⟨hmoved.slotted, hmoved.half⟩, hout⟩
    rw [hdata]
    exact .data rest

end Microtun.Telnet
