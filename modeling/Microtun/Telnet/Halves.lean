import Microtun.Telnet.Endpoint

/-! The halves of the options under any peer and any buffers.  A full table gives up disabled slots
only, as long as it has more room than there are options in use. -/

namespace Microtun.Telnet

variable {P : Type} {sbCap optionCap : Nat} {t : Telnet P sbCap optionCap} {used : Finset UInt8}

/-- Options that are not in use are off, and no option has two slots. -/
structure Tidy (used : Finset UInt8) (t : Telnet P sbCap optionCap) : Prop where
  nodup : (t.options.map (·.option)).Nodup
  idle : ∀ side, ∀ option ∉ used, t.half side option = .no

theorem tidy_new (used : Finset UInt8) (policy : P) :
    Tidy used (new policy : Telnet P sbCap optionCap) := by
  constructor
  · simp [new]
  · intro side option _
    rfl

/-- A slot that takes the place of another one is found for its own option, and the other's is gone.
-/
theorem find?_replace {slots : List OptionSlot} {old new : OptionSlot} {i : Nat}
    (hnodup : (slots.map (·.option)).Nodup) (hget : slots[i]? = some old)
    (hnew : ∀ slot ∈ slots, slot.option ≠ new.option) (option : UInt8) :
    (slots.set i new).find? (fun s => s.option == option) =
      if option = new.option then some new
      else if option = old.option then none
      else slots.find? (fun s => s.option == option) := by
  induction slots generalizing i with
  | nil => simp at hget
  | cons head rest ih =>
    rw [List.map_cons, List.nodup_cons] at hnodup
    have hhead : head.option ≠ new.option := hnew head (by simp)
    cases i with
    | zero =>
      obtain rfl : head = old := by simpa using hget
      by_cases ho : option = new.option
      · simp [ho]
      · by_cases hold : option = head.option
        · subst hold
          have hnone : rest.find? (fun s => s.option == head.option) = none := by
            refine List.find?_eq_none.mpr fun slot hslot heq => ?_
            exact hnodup.1 (List.mem_map.mpr ⟨slot, hslot, by simpa using heq⟩)
          simp [ho, Ne.symm ho, hnone]
        · simp [ho, Ne.symm ho, hold, Ne.symm hold]
    | succ i =>
      have hget : rest[i]? = some old := by simpa using hget
      have ih := ih hnodup.2 hget fun slot hslot => hnew slot (List.mem_cons_of_mem _ hslot)
      have hne : head.option ≠ old.option := by
        intro h
        exact hnodup.1 (h ▸ List.mem_map_of_mem (List.mem_of_getElem? hget))
      rw [List.set_cons_succ, List.find?_cons, List.find?_cons, ih]
      by_cases ho : head.option = option
      · subst ho
        simp [hhead, hne]
      · have hbeq : (head.option == option) = false := beq_false_of_ne ho
        rw [hbeq]

/-- A table with more slots than options in use has a disabled one. -/
theorem Tidy.exists_disabled (h : Tidy used t) (hcard : used.card < t.options.length) :
    ∃ slot ∈ t.options, (slot.us == .no && slot.him == .no) = true := by
  have hsub : ¬ (t.options.map (·.option)).toFinset ⊆ used := by
    intro hsub
    have hle := Finset.card_le_card hsub
    rw [List.toFinset_card_of_nodup h.nodup, List.length_map] at hle
    omega
  obtain ⟨option, hin, hout⟩ := Finset.not_subset.mp hsub
  obtain ⟨slot, hslot, rfl⟩ := List.mem_map.mp (List.mem_toFinset.mp hin)
  have hhalf : ∀ side, slot.half side = .no := by
    intro side
    have hno := h.idle side slot.option hout
    unfold half Telnet.slot at hno
    rw [find?_slot h.nodup hslot] at hno
    exact hno
  have hus : slot.us = .no := hhalf .us
  have hhim : slot.him = .no := hhalf .him
  exact ⟨slot, hslot, by simp [hus, hhim]⟩

theorem Slotted.of_nodup (h : (t.options.map (·.option)).Nodup) :
    Slotted (t.options.map (·.option)).toFinset t :=
  ⟨h, fun _ hslot => List.mem_toFinset.mpr (List.mem_map_of_mem hslot)⟩

theorem Tidy.slotMut (h : Tidy used t) (hcap : used.card < optionCap) (option : UInt8) :
    (∃ opts, Located opts t option (t.slotMut option).1 (t.slotMut option).2) ∧
      (t.slotMut option).1.policy = t.policy := by
  unfold Telnet.slotMut
  cases hfind : t.options.findIdx? (fun slot => slot.option == option) with
  | some index =>
    obtain ⟨hlt, hp, -⟩ := List.findIdx?_eq_some_iff_getElem.mp hfind
    exact ⟨⟨_, .of_nodup h.nodup, ⟨_, List.getElem?_eq_getElem hlt, by simpa using hp⟩,
      fun _ _ => rfl, rfl⟩, rfl⟩
  | none =>
    have hnew : ∀ slot ∈ t.options, slot.option ≠ option := by
      intro slot hslot
      simpa using List.findIdx?_eq_none_iff.mp hfind slot hslot
    have hfresh : option ∉ t.options.map (·.option) := by
      intro hin
      obtain ⟨slot, hslot, heq⟩ := List.mem_map.mp hin
      exact hnew slot hslot heq
    have hoff : ∀ side, t.half side option = .no := by
      intro side
      have hnone : t.slot option = none :=
        List.find?_eq_none.mpr fun slot hslot heq => hnew slot hslot (by simpa using heq)
      unfold half
      rw [hnone]
      rfl
    by_cases hroom : t.options.length < optionCap
    · rw [if_pos hroom]
      refine ⟨⟨_, .of_nodup ?_, ⟨.new option, by simp, rfl⟩, ?_, rfl⟩, rfl⟩
      · simp only [List.map_append, List.map_cons, List.map_nil]
        refine List.nodup_append.mpr ⟨h.nodup, by simp, ?_⟩
        intro o ho o' ho' heq
        rw [List.mem_singleton.mp ho'] at heq
        exact hfresh (show (OptionSlot.new option).option ∈ _ from heq ▸ ho)
      · intro side o
        show ((List.find? _ (t.options ++ [OptionSlot.new option])).map _).getD _ = _
        rw [List.find?_append]
        unfold half Telnet.slot
        cases hf : t.options.find? (fun slot => slot.option == o) with
        | some slot => rfl
        | none =>
          by_cases ho : option = o
          · subst ho
            cases side <;> simp [OptionSlot.new, OptionSlot.half]
          · simp [OptionSlot.new, ho]
    · rw [if_neg hroom]
      obtain ⟨slot, hslot, hdisabled⟩ := h.exists_disabled (by omega)
      cases hidx : t.options.findIdx? (fun slot => slot.us == .no && slot.him == .no) with
      | none => exact absurd hdisabled (by
          simpa using List.findIdx?_eq_none_iff.mp hidx slot hslot)
      | some index =>
        obtain ⟨hlt, hp, -⟩ := List.findIdx?_eq_some_iff_getElem.mp hidx
        simp only [Option.getD_some]
        have hget : t.options[index]? = some (t.options[index]) := List.getElem?_eq_getElem hlt
        refine ⟨⟨_, .of_nodup ?_, ⟨.new option, by simp [hlt], rfl⟩, ?_, rfl⟩, trivial⟩
        · show ((t.options.set index (.new option)).map (·.option)).Nodup
          rw [List.map_set]
          exact h.nodup.set hfresh
        · intro side o
          have hset := @find?_replace _ _ (.new option) _ h.nodup hget hnew o
          show ((List.find? _ (t.options.set index (OptionSlot.new option))).map _).getD _ = _
          rw [hset]
          by_cases ho : o = option
          · subst ho
            rw [if_pos (show o = (OptionSlot.new o).option from rfl), hoff side]
            cases side <;> rfl
          · rw [if_neg (show o ≠ (OptionSlot.new option).option from ho)]
            by_cases hold : o = t.options[index].option
            · -- the slot given up was off
              subst hold
              rw [if_pos rfl]
              unfold half Telnet.slot
              rw [find?_slot h.nodup (List.getElem_mem hlt)]
              simp only [Bool.and_eq_true, beq_iff_eq] at hp
              cases side
              · exact hp.1.symm
              · exact hp.2.symm
            · rw [if_neg hold]
              rfl

/-- One half of an option is moved to `state` in a table that stays tidy. -/
theorem Tidy.moved (h : Tidy used t) {opts : Finset UInt8} {side : Side} {option : UInt8}
    {state : QState} {t' : Telnet P sbCap optionCap} (hm : Moved opts t side option state t')
    (hidle : option ∉ used → state = .no) : Tidy used t' where
  nodup := hm.slotted.nodup
  idle := by
    intro side' o ho
    rw [hm.half]
    by_cases heq : side' = side ∧ o = option
    · rw [if_pos heq]
      exact hidle (heq.2 ▸ ho)
    · rw [if_neg heq]
      exact h.idle side' o ho

theorem sendCmd_state (n : Nat) (state next : QState) (verb option : UInt8) (out : List UInt8) :
    (sendCmd n state next verb option out).1 = if out.length + 3 ≤ n then next else state := by
  unfold sendCmd pushCmd
  by_cases hroom : out.length + 3 ≤ n
  · simp [hroom]
  · simp [hroom]

/-- A request moves a half as the exchange says, unless it needs a command that does not fit. -/
theorem requestState_state (n : Nat) (state : QState) (enable : Bool)
    (positiveVerb negativeVerb option : UInt8) (out : List UInt8) :
    (requestState n state enable positiveVerb negativeVerb option out).1 =
        (state.request enable).1 ∨ n < out.length + 3 ∧ (state.request enable).2.isSome = true ∧
        (requestState n state enable positiveVerb negativeVerb option out).1 = state := by
  by_cases hroom : out.length + 3 ≤ n
  · left
    cases state <;> cases enable <;> simp [requestState, QState.request, sendCmd_state, hroom]
  · have hfull : n < out.length + 3 := by omega
    cases state <;> cases enable <;>
      simp [requestState, QState.request, sendCmd_state, hroom, hfull]

theorem Tidy.request (h : Tidy used t) (hcap : used.card < optionCap) {option : UInt8}
    (side : Side) (enable : Bool) (hmem : enable = true → option ∈ used) (n : Nat)
    (out : List UInt8) : Tidy used (request side enable n t option out).1 ∧
      (request side enable n t option out).1.policy = t.policy ∧
      ((request side enable n t option out).1.half side option =
          ((t.half side option).request enable).1 ∨
        n < out.length + 3 ∧ ((t.half side option).request enable).2.isSome = true ∧
          (request side enable n t option out).1.half side option = t.half side option) ∧
      ∀ side' o, ¬ (side' = side ∧ o = option) →
        (request side enable n t option out).1.half side' o = t.half side' o := by
  obtain ⟨⟨opts, hloc⟩, hpolicy⟩ := h.slotMut hcap option
  have hstate := requestState_state n (t.half side option) enable side.positiveVerb
    side.negativeVerb option out
  unfold Telnet.request
  simp only [hloc.getD_half]
  have hm := hloc.moved side
    (requestState n (t.half side option) enable side.positiveVerb side.negativeVerb option out).1
  refine ⟨h.moved hm fun hno => ?_, hpolicy, ?_, fun side' o hne => ?_⟩
  · have hdisable : enable = false := Bool.eq_false_iff.mpr fun henable => hno (hmem henable)
    rw [h.idle side option hno, hdisable]
    rfl
  · rw [hm.half, if_pos ⟨rfl, rfl⟩]
    exact hstate
  · rw [hm.half, if_neg hne]

/-- A half after a command was received for it, or left as it was for want of room to answer. -/
def Replied (supported : Bool) (state state' : QState) : Prop :=
  state' = state ∨ ∃ positive, state' = (state.receive supported positive).1

theorem receivePositive_replied (n : Nat) (state : QState) (supported : Bool)
    (positiveVerb negativeVerb option : UInt8) (out : List UInt8) : Replied supported state
        (receivePositive n state supported positiveVerb negativeVerb option out).1 ∧
      (state = .wantYes →
        (receivePositive n state supported positiveVerb negativeVerb option out).1 = .yes) := by
  have hsend : ∀ next verb, next = (state.receive supported true).1 →
      Replied supported state (sendCmd n state next verb option out).1 := by
    intro next verb hnext
    rw [sendCmd_state]
    by_cases hroom : out.length + 3 ≤ n
    · rw [if_pos hroom]
      exact .inr ⟨true, hnext⟩
    · rw [if_neg hroom]
      exact .inl rfl
  constructor
  · cases state with
    | no => exact hsend _ _ rfl
    | wantYesOpposite => exact hsend _ _ rfl
    | _ => exact .inr ⟨true, rfl⟩
  · rintro rfl
    rfl

theorem receiveNegative_replied (n : Nat) (state : QState) (supported : Bool)
    (positiveVerb negativeVerb option : UInt8) (out : List UInt8) : Replied supported state
      (receiveNegative n state positiveVerb negativeVerb option out).1 := by
  have hsend : ∀ next verb, next = (state.receive supported false).1 →
      Replied supported state (sendCmd n state next verb option out).1 := by
    intro next verb hnext
    rw [sendCmd_state]
    by_cases hroom : out.length + 3 ≤ n
    · rw [if_pos hroom]
      exact .inr ⟨false, hnext⟩
    · rw [if_neg hroom]
      exact .inl rfl
  cases state with
  | yes => exact hsend _ _ rfl
  | wantNoOpposite => exact hsend _ _ rfl
  | _ => exact .inr ⟨false, rfl⟩

/-- What a byte from the peer does to the halves, and what the event it completes says about them.
-/
structure Fed [Policy P] (used : Finset UInt8) (t t' : Telnet P sbCap optionCap)
    (event : Option TelnetEvent) : Prop where
  tidy : Tidy used t'
  policy : t'.policy = t.policy
  replied : ∀ side o, Replied (supports t.policy side o) (t.half side o) (t'.half side o)
  enabled : ∀ side o, event = some (.optionEnabled side o) ↔
    t.half side o ≠ .yes ∧ t'.half side o = .yes
  disabled : ∀ side o, event = some (.optionDisabled side o) ↔
    t.half side o = .yes ∧ t'.half side o ≠ .yes
  refused : ∀ side o, event = some (.optionRefused side o) →
    t.half side o = .wantYes ∧ t'.half side o = .no

/-- Some event that is not about an option, if any. -/
def TelnetEvent.plain : TelnetEvent → Bool
  | .optionEnabled _ _ | .optionDisabled _ _ | .optionRefused _ _ => false
  | _ => true

theorem Fed.same [Policy P] (h : Tidy used t) {t' : Telnet P sbCap optionCap}
    {event : Option TelnetEvent} (hoptions : t'.options = t.options)
    (hpolicy : t'.policy = t.policy) (hevent : ∀ e, event = some e → e.plain = true) :
    Fed used t t' event := by
  have hhalf : ∀ side o, t'.half side o = t.half side o := by
    intro side o
    unfold half Telnet.slot
    rw [hoptions]
  refine ⟨⟨hoptions ▸ h.nodup, ?_⟩, hpolicy, ?_, ?_, ?_, ?_⟩
  · intro side o ho
    rw [hhalf]
    exact h.idle side o ho
  · intro side o
    exact .inl (hhalf side o)
  · intro side o
    rw [hhalf]
    exact ⟨fun he => (nomatch hevent _ he), fun hc => absurd hc.2 hc.1⟩
  · intro side o
    rw [hhalf]
    exact ⟨fun he => (nomatch hevent _ he), fun hc => absurd hc.1 hc.2⟩
  · intro side o he
    exact nomatch hevent _ he

/-- The event for a half that moved. -/
def halfEvent (side : Side) (option : UInt8) (state state' : QState) : Option TelnetEvent :=
  (transitionEvent side option (state == .yes) (state' == .yes)).or
    (if state == .wantYes && state' == .no then some (.optionRefused side option) else none)

section

variable {side side' : Side} {option o : UInt8} {state state' : QState}

theorem halfEvent_enabled : halfEvent side option state state' = some (.optionEnabled side' o) ↔
    (side' = side ∧ o = option) ∧ state ≠ .yes ∧ state' = .yes := by
  cases state <;> cases state' <;>
    simp [halfEvent, transitionEvent, beq_eq_decide, eq_comm]

theorem halfEvent_disabled : halfEvent side option state state' = some (.optionDisabled side' o) ↔
    (side' = side ∧ o = option) ∧ state = .yes ∧ state' ≠ .yes := by
  cases state <;> cases state' <;>
    simp [halfEvent, transitionEvent, beq_eq_decide, eq_comm]

theorem halfEvent_refused : halfEvent side option state state' = some (.optionRefused side' o) ↔
    (side' = side ∧ o = option) ∧ state = .wantYes ∧ state' = .no := by
  cases state <;> cases state' <;>
    simp [halfEvent, transitionEvent, beq_eq_decide, eq_comm]

end

/-- One half moves in answer to a command, and the event tells how. -/
theorem Fed.moved [Policy P] (h : Tidy used t)
    (hused : ∀ side o, supports t.policy side o = true → o ∈ used) {opts : Finset UInt8}
    {side : Side} {option : UInt8} {state : QState} {t' : Telnet P sbCap optionCap}
    (hm : Moved opts t side option state t') (hpolicy : t'.policy = t.policy)
    (hreplied : Replied (supports t.policy side option) (t.half side option) state) :
    Fed used t t' (halfEvent side option (t.half side option) state) := by
  have hstate : t'.half side option = state := by rw [hm.half, if_pos ⟨rfl, rfl⟩]
  have hother : ∀ side' o, ¬ (side' = side ∧ o = option) → t'.half side' o = t.half side' o := by
    intro side' o hne
    rw [hm.half, if_neg hne]
  refine ⟨h.moved hm fun hno => ?_, hpolicy, ?_, ?_, ?_, ?_⟩
  · -- an option out of use is refused
    have hsupport : supports t.policy side option = false :=
      Bool.eq_false_iff.mpr fun hyes => hno (hused side option hyes)
    rw [hsupport, h.idle side option hno] at hreplied
    cases hreplied with
    | inl heq => exact heq
    | inr hpos =>
      obtain ⟨positive, rfl⟩ := hpos
      cases positive <;> rfl
  · intro side' o
    by_cases heq : side' = side ∧ o = option
    · obtain ⟨rfl, rfl⟩ := heq
      rw [hstate]
      exact hreplied
    · exact .inl (hother side' o heq)
  · intro side' o
    rw [halfEvent_enabled]
    by_cases heq : side' = side ∧ o = option
    · obtain ⟨rfl, rfl⟩ := heq
      rw [hstate]
      simp
    · rw [hother side' o heq]
      exact ⟨fun he => absurd he.1 heq, fun hc => absurd hc.2 hc.1⟩
  · intro side' o
    rw [halfEvent_disabled]
    by_cases heq : side' = side ∧ o = option
    · obtain ⟨rfl, rfl⟩ := heq
      rw [hstate]
      simp
    · rw [hother side' o heq]
      exact ⟨fun he => absurd he.1 heq, fun hc => absurd hc.1 hc.2⟩
  · intro side' o he
    obtain ⟨⟨rfl, rfl⟩, hwas, hno⟩ := halfEvent_refused.mp he
    exact ⟨hwas, hstate.trans hno⟩

theorem Fed.positive [Policy P] (h : Tidy used t) (hcap : used.card < optionCap)
    (hused : ∀ side o, supports t.policy side o = true → o ∈ used) (side : Side) (n : Nat)
    (option : UInt8) (out : List UInt8) :
    Fed used t (negotiatePositive side (supports t.policy side option) n t option out).1
      (negotiatePositive side (supports t.policy side option) n t option out).2.2 := by
  obtain ⟨⟨opts, hloc⟩, hpolicy⟩ := h.slotMut hcap option
  obtain ⟨hreplied, hyes⟩ := receivePositive_replied n (t.half side option)
    (supports t.policy side option) side.positiveVerb side.negativeVerb option out
  have hfed := Fed.moved h hused (hloc.moved side _) hpolicy hreplied
  -- a positive command refuses nothing
  have hevent : ∀ state, (t.half side option = .wantYes → state = .yes) →
      halfEvent side option (t.half side option) state =
        transitionEvent side option (t.half side option == .yes) (state == .yes) := by
    intro state hwant
    unfold halfEvent
    cases hs : t.half side option with
    | wantYes =>
      rw [hwant hs]
      rfl
    | _ => exact Option.or_none
  rw [hevent _ hyes] at hfed
  unfold negotiatePositive
  simp only [hloc.getD_half]
  exact hfed

theorem Fed.negative [Policy P] (h : Tidy used t) (hcap : used.card < optionCap)
    (hused : ∀ side o, supports t.policy side o = true → o ∈ used) (side : Side) (n : Nat)
    (option : UInt8) (out : List UInt8) : Fed used t (negotiateNegative side n t option out).1
      (negotiateNegative side n t option out).2.2 := by
  obtain ⟨⟨opts, hloc⟩, hpolicy⟩ := h.slotMut hcap option
  have hreplied := receiveNegative_replied n (t.half side option) (supports t.policy side option)
    side.positiveVerb side.negativeVerb option out
  have hfed := Fed.moved h hused (hloc.moved side _) hpolicy hreplied
  unfold negotiateNegative
  simp only [hloc.getD_half]
  exact hfed

theorem Fed.negotiate [Policy P] (h : Tidy used t) (hcap : used.card < optionCap)
    (hused : ∀ side o, supports t.policy side o = true → o ∈ used) (n : Nat) (verb option : UInt8)
    (out : List UInt8) :
    Fed used t (negotiate n t verb option out).1 (negotiate n t verb option out).2.2 := by
  unfold Telnet.negotiate
  split
  · exact .positive h hcap hused .us n option out
  · split
    · exact .negative h hcap hused .us n option out
    · split
      · exact .positive h hcap hused .him n option out
      · split
        · exact .negative h hcap hused .him n option out
        · exact .same h rfl rfl nofun

theorem feedIac_plain (byte : UInt8) :
    (t.feedIac byte).1.options = t.options ∧ (t.feedIac byte).1.policy = t.policy ∧
      ∀ e, (t.feedIac byte).2 = some e → e.plain = true := by
  unfold feedIac
  repeat' split
  all_goals exact ⟨rfl, rfl, by rintro e ⟨⟩ <;> rfl⟩

/-- A byte from the peer moves at most one half, in answer to a command. -/
theorem Fed.feed [Policy P] (h : Tidy used t) (hcap : used.card < optionCap)
    (hused : ∀ side o, supports t.policy side o = true → o ∈ used) (n : Nat) (byte : UInt8)
    (reply : List UInt8) : Fed used t (feed n t byte reply).1 (feed n t byte reply).2.2 := by
  unfold Telnet.feed
  cases hrx : t.rx with
  | data =>
    by_cases hbyte : byte = iac
    · simp only [if_pos hbyte]
      exact .same h rfl rfl nofun
    · simp only [if_neg hbyte]
      exact .same h rfl rfl (by rintro e ⟨⟩; rfl)
  | iac =>
    obtain ⟨hoptions, hpolicy, hplain⟩ := feedIac_plain (t := t) byte
    exact .same h hoptions hpolicy hplain
  | verb verb =>
    let t0 : Telnet P sbCap optionCap := { t with rx := .data }
    have h0 : Tidy used t0 := ⟨h.nodup, h.idle⟩
    have hfed := Fed.negotiate h0 hcap hused n verb byte reply
    exact ⟨hfed.tidy, hfed.policy, hfed.replied, hfed.enabled, hfed.disabled, hfed.refused⟩
  | subnegOption => exact .same h rfl rfl nofun
  | subneg =>
    by_cases hbyte : byte = iac
    · simp only [if_pos hbyte]
      exact .same h rfl rfl nofun
    · simp only [if_neg hbyte]
      unfold pushSubneg
      split
      · exact .same h rfl rfl nofun
      · exact .same h rfl rfl nofun
  | subnegIac =>
    by_cases hse : byte = se
    · simp only [if_pos hse]
      exact .same h rfl rfl (by rintro e ⟨⟩; rfl)
    · by_cases hbyte : byte = iac
      · simp only [if_neg hse, if_pos hbyte]
        unfold pushSubneg
        split
        · exact .same h rfl rfl nofun
        · exact .same h rfl rfl nofun
      · simp only [if_neg hse, if_neg hbyte]
        exact .same h rfl rfl nofun

end Microtun.Telnet
