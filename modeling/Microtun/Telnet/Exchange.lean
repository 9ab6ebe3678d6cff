import Microtun.Telnet

/-! One half of one option, as the two endpoints negotiate it: the near endpoint's state and the far
endpoint's, and the commands in flight between them, where `true` offers or asks for the option and
`false` gives it up or forbids it. -/

namespace Microtun.Telnet

/-- What a local request does to a state, and the command it sends. -/
def QState.request : QState → Bool → QState × Option Bool
  | .no, true => (.wantYes, some true)
  | .yes, false => (.wantNo, some false)
  | .wantNo, true => (.wantNoOpposite, none)
  | .wantNoOpposite, false => (.wantNo, none)
  | .wantYes, false => (.wantYesOpposite, none)
  | .wantYesOpposite, true => (.wantYes, none)
  | state, _ => (state, none)

/-- What a received command does to a state, and the command sent in return. -/
def QState.receive (supported : Bool) : QState → Bool → QState × Option Bool
  | .no, true => (if supported then .yes else .no, some supported)
  | .yes, true => (.yes, none)
  | .wantNo, true => (.no, none)
  | .wantNoOpposite, true => (.yes, none)
  | .wantYes, true => (.yes, none)
  | .wantYesOpposite, true => (.wantNo, some false)
  | .no, false => (.no, none)
  | .yes, false => (.no, some false)
  | .wantNo, false => (.no, none)
  | .wantNoOpposite, false => (.wantYes, some true)
  | .wantYes, false => (.no, none)
  | .wantYesOpposite, false => (.no, none)

/-- A state that awaits an answer, only to send the opposite request. -/
def QState.reverses : QState → Bool
  | .wantNoOpposite | .wantYesOpposite => true
  | _ => false

/-- The commands that an endpoint with these commands in flight to it may still take or cause: each
one, and an answer to it unless it is itself the answer awaited; a reversal is a request of its own.
-/
def QState.outstanding (state : QState) (inbox : List Bool) : Nat :=
  2 * inbox.length - (if isPending state then 1 else 0) + (if state.reverses then 2 else 0)

structure Exchange where
  near : QState
  toFar : List Bool
  far : QState
  toNear : List Bool
deriving DecidableEq, Repr

namespace Exchange

def initial : Exchange := ⟨.no, [], .no, []⟩

/-- The same exchange, seen from the far endpoint. -/
def swap (x : Exchange) : Exchange := ⟨x.far, x.toNear, x.near, x.toFar⟩

def requestNear (x : Exchange) (enable : Bool) : Exchange :=
  { x with near := (x.near.request enable).1, toFar := x.toFar ++ (x.near.request enable).2.toList }

/-- The near endpoint takes the oldest command in flight to it. -/
def deliverNear (x : Exchange) (supported : Bool) : Exchange :=
  match x.toNear with
  | [] => x
  | command :: rest =>
    { x with
      near := (x.near.receive supported command).1
      toFar := x.toFar ++ (x.near.receive supported command).2.toList
      toNear := rest }

def outstanding (x : Exchange) : Nat := x.near.outstanding x.toNear + x.far.outstanding x.toFar

def wantingNo : List QState := [.wantNo, .wantNoOpposite]

def wantingYes : List QState := [.wantYes, .wantYesOpposite]

/-- The exchanges in which the near endpoint wants nothing that the far one has not heard of, or was
the first to want it. -/
def phases : List Exchange :=
  -- at rest
  [⟨.no, [], .no, []⟩, ⟨.yes, [], .yes, []⟩] ++
  -- asked for, and then granted or refused
  wantingYes.map (⟨·, [true], .no, []⟩) ++
  wantingYes.map (⟨·, [], .yes, [true]⟩) ++
  wantingYes.map (⟨·, [], .no, [false]⟩) ++
  -- given up, and then acknowledged
  wantingNo.map (⟨·, [false], .yes, []⟩) ++
  wantingNo.map (⟨·, [], .no, [false]⟩) ++
  -- both sides at once
  wantingYes.flatMap (fun near => wantingYes.map (⟨near, [true], ·, [true]⟩)) ++
  wantingNo.flatMap (fun near => wantingNo.map (⟨near, [false], ·, [false]⟩)) ++
  -- answered, and the far endpoint has changed its mind since
  wantingYes.flatMap (fun near => wantingNo.map (⟨near, [], ·, [true, false]⟩)) ++
  wantingYes.flatMap (fun near => wantingYes.map (⟨near, [], ·, [false, true]⟩)) ++
  wantingNo.flatMap (fun near => wantingYes.map (⟨near, [], ·, [false, true]⟩))

/-- The exchanges that two endpoints can be in. -/
def Regular (x : Exchange) : Prop := x ∈ phases ∨ x.swap ∈ phases

instance (x : Exchange) : Decidable x.Regular := inferInstanceAs (Decidable (_ ∨ _))

theorem Regular.swap {x : Exchange} (h : x.Regular) : x.swap.Regular := Or.symm h

theorem regular_initial : initial.Regular := by decide

theorem Regular.rule {motive : Exchange → Prop} (h : ∀ x ∈ phases, motive x ∧ motive x.swap)
    {x : Exchange} (hx : x.Regular) : motive x := by
  cases hx with
  | inl hx => exact (h x hx).1
  | inr hx => exact (h x.swap hx).2

theorem Regular.requestNear {x : Exchange} (h : x.Regular) (enable : Bool) :
    (x.requestNear enable).Regular := by
  revert enable
  refine h.rule (motive := fun x => ∀ enable, (x.requestNear enable).Regular) ?_
  decide +kernel

theorem Regular.deliverNear {x : Exchange} (h : x.Regular) (supported : Bool) :
    (x.deliverNear supported).Regular := by
  revert supported
  refine h.rule (motive := fun x => ∀ supported, (x.deliverNear supported).Regular) ?_
  decide +kernel

theorem Regular.outstanding_deliverNear {x : Exchange} (h : x.Regular) (supported : Bool)
    (hne : x.toNear ≠ []) : (x.deliverNear supported).outstanding < x.outstanding := by
  revert supported hne
  refine h.rule (motive := fun x => ∀ supported : Bool, x.toNear ≠ [] →
    (x.deliverNear supported).outstanding < x.outstanding) ?_
  decide +kernel

theorem Regular.settled {x : Exchange} (h : x.Regular) (hfar : x.toFar = [])
    (hnear : x.toNear = []) :
    isPending x.near = false ∧ isPending x.far = false ∧ (x.near = .yes ↔ x.far = .yes) := by
  revert hfar hnear
  refine h.rule (motive := fun x => x.toFar = [] → x.toNear = [] →
    isPending x.near = false ∧ isPending x.far = false ∧ (x.near = .yes ↔ x.far = .yes)) ?_
  decide +kernel

end Exchange

end Microtun.Telnet
