/-! Systems of parties that take turns: a step function that says which events can happen in a
state, the states that runs reach, and the rule that an invariant holds in all of them. -/

namespace Microtun

universe u v

/-- The states a system may start in and what each event does, if it can happen. -/
structure System (σ : Type u) (ε : Type v) where
  init : σ → Prop
  step : σ → ε → Option σ

namespace System

variable {σ : Type u} {ε : Type v} {sys : System σ ε}

inductive Reachable (sys : System σ ε) : σ → Prop where
  | start {s : σ} (h : sys.init s) : Reachable sys s
  | next {s s' : σ} {e : ε} (hs : Reachable sys s) (h : sys.step s e = some s') : Reachable sys s'

/-- What holds at the start and is kept by every event holds in every state reached. -/
theorem Reachable.invariant {I : σ → Prop} (hinit : ∀ s, sys.init s → I s)
    (hstep : ∀ s e s', I s → sys.step s e = some s' → I s') {s : σ} (h : sys.Reachable s) :
      I s := by
  induction h with
  | start h => exact hinit _ h
  | next _ h ih => exact hstep _ _ _ ih h

/-- The states of the runs whose every event finds its condition met. -/
inductive ReachableUnder (sys : System σ ε) (condition : σ → ε → Prop) : σ → Prop where
  | start {s : σ} (h : sys.init s) : ReachableUnder sys condition s
  | next {s s' : σ} {e : ε} (hs : ReachableUnder sys condition s) (hcond : condition s e)
      (h : sys.step s e = some s') : ReachableUnder sys condition s'

theorem ReachableUnder.reachable {condition : σ → ε → Prop} {s : σ}
    (h : sys.ReachableUnder condition s) : sys.Reachable s := by
  induction h with
  | start h => exact .start h
  | next _ _ h ih => exact ih.next h

/-- An invariant that may use the condition of each event, and another one that holds in all runs.
-/
theorem ReachableUnder.invariant {condition : σ → ε → Prop} {I J : σ → Prop}
    (hJ : ∀ s, sys.Reachable s → J s) (hinit : ∀ s, sys.init s → I s)
    (hstep : ∀ s e s', J s → I s → condition s e → sys.step s e = some s' → I s') {s : σ}
    (h : sys.ReachableUnder condition s) : I s := by
  induction h with
  | start h => exact hinit _ h
  | next hs hcond h ih => exact hstep _ _ _ (hJ _ hs.reachable) ih hcond h

/-- The state after a list of events. -/
def replay (sys : System σ ε) (s : σ) : List ε → Option σ
  | [] => some s
  | e :: es => (sys.step s e).bind fun s' => sys.replay s' es

theorem Reachable.replay {s s' : σ} (hs : sys.Reachable s) (es : List ε)
    (h : sys.replay s es = some s') : sys.Reachable s' := by
  induction es generalizing s with
  | nil => exact Option.some.inj h ▸ hs
  | cons e es ih =>
    obtain ⟨t, ht, h⟩ := Option.bind_eq_some_iff.mp h
    exact ih (hs.next ht) h

/-- A run of a list of events, each of which finds its condition met. -/
theorem ReachableUnder.replay {condition : σ → ε → Prop} {s s' : σ}
    (hs : sys.ReachableUnder condition s) (es : List ε) (hcond : ∀ e ∈ es, ∀ s, condition s e)
    (h : sys.replay s es = some s') : sys.ReachableUnder condition s' := by
  induction es generalizing s with
  | nil => exact Option.some.inj h ▸ hs
  | cons e es ih =>
    obtain ⟨t, ht, h⟩ := Option.bind_eq_some_iff.mp h
    obtain ⟨he, hes⟩ := List.forall_mem_cons.mp hcond
    exact ih (hs.next (he s) ht) hes h

/-- The steps whose events meet a condition. -/
def under (sys : System σ ε) (condition : σ → ε → Prop) [∀ s e, Decidable (condition s e)] :
    System σ ε where
  init := sys.init
  step s e := if condition s e then sys.step s e else none

theorem ReachableUnder.replay_under {condition : σ → ε → Prop} [∀ s e, Decidable (condition s e)]
    {s s' : σ} (hs : sys.ReachableUnder condition s) (es : List ε)
    (h : (sys.under condition).replay s es = some s') : sys.ReachableUnder condition s' := by
  induction es generalizing s with
  | nil => exact Option.some.inj h ▸ hs
  | cons e es ih =>
    obtain ⟨t, ht, h⟩ := Option.bind_eq_some_iff.mp h
    obtain ⟨he, ht⟩ := Option.ite_none_right_eq_some.mp ht
    exact ih (hs.next he ht) h

end System

end Microtun
