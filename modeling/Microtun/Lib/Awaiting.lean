import Microtun.Lib.Hoare

/-! Programs that wait for the answers of their surroundings. A run with a list of answers ends
where the program ends or where it waits for one answer more, so a statement about all lists of
answers is one about every moment of every run. -/

namespace Microtun.Awaiting

open Hoare

/-- The state of the program, and the answers still to come. -/
structure Run (σ μ : Type) where
  state : σ
  answers : List μ

/-- A program; it fails where it waits for an answer that does not come. -/
abbrev Program (σ μ α : Type) := ExceptT Unit (StateT (Run σ μ) (Except Empty)) α

variable {σ μ α β γ : Type}

/-- Wait for an answer. -/
def answer (f : μ → α) : Program σ μ α := do
  match (← get).answers with
  | [] => throw ()
  | m :: answers =>
    modify fun r => { r with answers }
    return f m

def state : Program σ μ σ := do return (← get).state

def update (f : σ → σ) : Program σ μ Unit := modify fun r => { r with state := f r.state }

/-- At most `n` passes. -/
def passes (body : β → Program σ μ (α ⊕ β)) : Nat → β → Program σ μ α
  | 0, _ => throw ()
  | n + 1, x => do
    match ← body x with
    | .inl a => return a
    | .inr x => passes body n x

/-- A loop, whose every pass waits for an answer, so that there are no more passes than answers. -/
def loop (body : β → Program σ μ (α ⊕ β)) (x : β) : Program σ μ α := do
  passes body ((← get).answers.length + 1) x

/-- Where the run of a program with some answers ends, and its result if it is done. -/
def exec (p : Program σ μ α) (s : σ) (answers : List μ) : Option α × σ :=
  match p.run ⟨s, answers⟩ with
  | .ok (.ok a, r) => (some a, r.state)
  | .ok (.error _, r) => (none, r.state)

/-- From `s` the program ends in `Q`, or waits in a state in `W`. -/
def Spec (W : σ → Prop) (p : Program σ μ α) (Q : α → σ → Prop) (s : σ) : Prop :=
  ∀ answers, wpx p (fun a r => match a with
    | .ok a => Q a r.state
    | .error _ => W r.state) ⟨s, answers⟩

variable {W : σ → Prop} {p : Program σ μ α} {f : α → Program σ μ β} {Q : α → σ → Prop} {s : σ}

theorem Spec.exec (h : Spec W p Q s) (answers : List μ) :
    (∀ a, (exec p s answers).1 = some a → Q a (exec p s answers).2) ∧
      ((Awaiting.exec p s answers).1 = none → W (Awaiting.exec p s answers).2) := by
  obtain ⟨a, r, hrun, hQ⟩ := h answers
  have hrun : p.run ⟨s, answers⟩ = .ok (a, r) := hrun
  unfold Awaiting.exec
  rw [hrun]
  cases a with
  | ok a => exact ⟨fun _ ha => Option.some.inj ha ▸ hQ, nofun⟩
  | error e => exact ⟨nofun, fun _ => hQ⟩

theorem Spec.mono {Q' : α → σ → Prop} (h : Spec W p Q s) (hQ : ∀ a s', Q a s' → Q' a s') :
    Spec W p Q' s := by
  refine fun answers => wpx_mono (h answers) fun a r ha => ?_
  cases a with
  | ok a => exact hQ a r.state ha
  | error e => exact ha

theorem spec_pure {a : α} (h : Q a s) : Spec W (pure a : Program σ μ α) Q s :=
  fun _ => wpx_pure.mpr h

theorem Spec.bind {Q' : β → σ → Prop} (h : Spec W p Q s)
    (hf : ∀ a s', Q a s' → Spec W (f a) Q' s') : Spec W (p >>= f) Q' s :=
  fun answers => wpx_seq (h answers) (fun _ _ hw => hw) fun a r ha => hf a r.state ha r.answers

theorem spec_answer {f : μ → α} (hw : W s) (h : ∀ a, Q a s) : Spec W (answer f) Q s := by
  intro answers
  cases answers with
  | nil => exact ⟨_, _, rfl, hw⟩
  | cons m answers => exact ⟨_, _, rfl, h (f m)⟩

theorem spec_update {f : σ → σ} {Q : Unit → σ → Prop} (h : Q () (f s)) :
    Spec W (update f : Program σ μ Unit) Q s :=
  fun _ => ⟨_, _, rfl, h⟩

/-! The same with what comes after. -/

theorem spec_answer_bind {g : μ → α} {Q : β → σ → Prop} (hw : W s) (h : ∀ a, Spec W (f a) Q s) :
    Spec W (answer g >>= f) Q s :=
  (spec_answer (Q := fun a s' => Spec W (f a) Q s') hw h).bind fun _ _ ha => ha

theorem spec_state_bind {f : σ → Program σ μ β} {Q : β → σ → Prop} (h : Spec W (f s) Q s) :
    Spec W (state >>= f) Q s :=
  fun answers => wpx_bind.mpr ⟨_, _, rfl, h answers⟩

theorem spec_update_bind {g : σ → σ} {f : Unit → Program σ μ β} {Q : β → σ → Prop}
    (h : Spec W (f ()) Q (g s)) : Spec W (update g >>= f) Q s :=
  fun answers => wpx_bind.mpr ⟨_, _, rfl, h answers⟩

theorem spec_passes {I : β → σ → Prop} {body : β → Program σ μ (α ⊕ β)} (hw : ∀ x s, I x s → W s)
    (hbody : ∀ x s, I x s → Spec W (body x) (fun r s' => match r with
      | .inl a => Q a s'
      | .inr x => I x s') s) (n : Nat) {x : β} (h : I x s) : Spec W (passes body n x) Q s := by
  induction n generalizing x s with
  | zero => exact fun _ => wpx_throw.mpr (hw x s h)
  | succ n ih =>
    refine (hbody x s h).bind fun r s' hr => ?_
    cases r with
    | inl a => exact spec_pure hr
    | inr x => exact ih hr

theorem spec_loop {I : β → σ → Prop} {body : β → Program σ μ (α ⊕ β)} (hw : ∀ x s, I x s → W s)
    (hbody : ∀ x s, I x s → Spec W (body x) (fun r s' => match r with
      | .inl a => Q a s'
      | .inr x => I x s') s) {x : β} (h : I x s) : Spec W (loop body x) Q s :=
  fun answers => wpx_bind.mpr ⟨_, _, rfl, spec_passes hw hbody _ h answers⟩

/-! ### Programs that may end with an error -/

abbrev Task (σ μ ε α : Type) := ExceptT ε (Program σ μ) α

variable {ε ε' : Type}

/-- A program whose result is left to the caller. -/
def attempt (p : Program σ μ α) : Task σ μ ε α := ExceptT.lift p

/-- A program whose result may be an error, as one that may end with it. -/
def mapErr (f : ε → ε') (p : Program σ μ (Except ε α)) : Task σ μ ε' α := do
  match ← attempt p with
  | .ok a => return a
  | .error e => throw (f e)

/-- What the end of a pass means for a loop. -/
def passed : Except ε (α ⊕ β) → Program σ μ (Except ε α ⊕ β)
  | .ok (.inl a) => pure (.inl (.ok a))
  | .ok (.inr x) => pure (.inr x)
  | .error e => pure (.inl (.error e))

/-- The loop ends with the first error of a pass. -/
def taskLoop (body : β → Task σ μ ε (α ⊕ β)) (x : β) : Task σ μ ε α :=
  ExceptT.mk (loop (fun x => (body x).run >>= passed) x)

/-- From `s` the program ends in `Q`, or stops in `W`: it waits, or it ends with an error. -/
def Yields (W : σ → Prop) (p : Task σ μ ε α) (Q : α → σ → Prop) (s : σ) : Prop :=
  Spec W p.run (fun r s' => match r with
    | .ok a => Q a s'
    | .error _ => W s') s

section

variable {W : σ → Prop} {p : Task σ μ ε α} {f : α → Task σ μ ε β} {Q : α → σ → Prop}
  {Q' : β → σ → Prop} {s : σ}

theorem Yields.exec (h : Yields W p Q s) (answers : List μ) :
    (∀ a, (exec p.run s answers).1 = some (.ok a) → Q a (exec p.run s answers).2) ∧
      ((∀ a, (Awaiting.exec p.run s answers).1 ≠ some (.ok a)) →
        W (Awaiting.exec p.run s answers).2) := by
  obtain ⟨hdone, hwaits⟩ := Spec.exec h answers
  refine ⟨fun a ha => hdone _ ha, fun hnone => ?_⟩
  cases hresult : (Awaiting.exec p.run s answers).1 with
  | none => exact hwaits hresult
  | some r =>
    cases r with
    | ok a => exact absurd hresult (hnone a)
    | error e => exact hdone _ hresult

theorem yields_pure {a : α} (h : Q a s) : Yields W (pure a : Task σ μ ε α) Q s := spec_pure h

theorem yields_throw {e : ε} (h : W s) : Yields W (throw e : Task σ μ ε α) Q s := spec_pure h

theorem Yields.mono {Q' : α → σ → Prop} (h : Yields W p Q s) (hQ : ∀ a s', Q a s' → Q' a s') :
    Yields W p Q' s := by
  refine Spec.mono h fun r s' hr => ?_
  cases r with
  | ok a => exact hQ a s' hr
  | error e => exact hr

theorem Yields.bind (h : Yields W p Q s) (hf : ∀ a s', Q a s' → Yields W (f a) Q' s') :
    Yields W (p >>= f) Q' s := by
  refine Spec.bind h fun r s' hr => ?_
  cases r with
  | ok a => exact hf a s' hr
  | error e => exact spec_pure hr

theorem yields_attempt {p : Program σ μ α} (h : Spec W p Q s) :
    Yields W (attempt p : Task σ μ ε α) Q s :=
  Spec.bind h fun _ _ ha => spec_pure ha

theorem yields_attempt_bind {p : Program σ μ α} (h : Spec W p (fun a => Yields W (f a) Q') s) :
    Yields W ((attempt p : Task σ μ ε α) >>= f) Q' s :=
  (yields_attempt h).bind fun _ _ hf => hf

theorem yields_mapErr {g : ε' → ε} {p : Program σ μ (Except ε' α)}
    (h : Spec W p (fun r s' => match r with
    | .ok a => Q a s'
    | .error _ => W s') s) : Yields W (mapErr g p : Task σ μ ε α) Q s := by
  refine (yields_attempt h).bind fun r s' hr => ?_
  cases r with
  | ok a => exact yields_pure hr
  | error e => exact yields_throw hr

theorem yields_loop {I : β → σ → Prop} {body : β → Task σ μ ε (α ⊕ β)} (hw : ∀ x s, I x s → W s)
    (hbody : ∀ x s, I x s → Yields W (body x) (Sum.elim Q I) s) {x : β} (h : I x s) :
    Yields W (taskLoop body x) Q s := by
  refine spec_loop hw (fun x s hI => Spec.bind (hbody x s hI) fun r s' hr => ?_) h
  cases r with
  | error e => exact spec_pure hr
  | ok r =>
    cases r with
    | inl a => exact spec_pure hr
    | inr x => exact spec_pure hr

end

end Microtun.Awaiting
