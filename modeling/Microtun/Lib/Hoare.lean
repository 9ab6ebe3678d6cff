import Mathlib.Order.Defs.Unbundled

/-! Weakest preconditions, for programs that thread a state, may panic, and may fail with an error
that leaves the state as it is at that point.  Correctness is total: a program that meets a
postcondition does not panic. -/

namespace Hoare

variable {σ π ε α β : Type}

/-- The program runs from `s` without panic, to a result and a state in `Q`. -/
def wp (m : StateT σ (Except π) α) (Q : α → σ → Prop) (s : σ) : Prop :=
  ∃ a s', m s = .ok (a, s') ∧ Q a s'

/-- The same for a program that may fail: the postcondition also speaks of the error. -/
def wpx (m : ExceptT ε (StateT σ (Except π)) α) (Q : Except ε α → σ → Prop) (s : σ) : Prop :=
  wp m.run Q s

section

variable {m : StateT σ (Except π) α} {f : α → StateT σ (Except π) β} {s : σ}

theorem wp_mono {Q Q' : α → σ → Prop} (h : wp m Q s) (hQ : ∀ a s', Q a s' → Q' a s') :
    wp m Q' s := by
  obtain ⟨a, s', hm, ha⟩ := h
  exact ⟨a, s', hm, hQ a s' ha⟩

@[simp] theorem wp_pure {a : α} {Q : α → σ → Prop} :
    wp (pure a : StateT σ (Except π) α) Q s ↔ Q a s := by
  constructor
  · rintro ⟨a', s', h, hQ⟩
    obtain ⟨rfl, rfl⟩ : a = a' ∧ s = s' := Prod.mk.inj (Except.ok.inj h)
    exact hQ
  · intro h
    exact ⟨a, s, rfl, h⟩

@[simp] theorem wp_get {Q : σ → σ → Prop} :
    wp (get : StateT σ (Except π) σ) Q s ↔ Q s s := by
  constructor
  · rintro ⟨a, s', h, hQ⟩
    cases h
    exact hQ
  · intro h
    exact ⟨s, s, rfl, h⟩

@[simp] theorem wp_bind {Q : β → σ → Prop} :
    wp (m >>= f) Q s ↔ wp m (fun a => wp (f a) Q) s := by
  constructor
  · rintro ⟨b, s'', h, hQ⟩
    simp only [bind, StateT.bind, Except.bind] at h
    split at h
    · cases h
    · rename_i r hm
      exact ⟨r.1, r.2, hm, b, s'', h, hQ⟩
  · rintro ⟨a, s', hm, b, s'', hf, hQ⟩
    refine ⟨b, s'', ?_, hQ⟩
    simp only [bind, StateT.bind, hm, Except.bind]
    exact hf

theorem wp_seq {Q₁ : α → σ → Prop} {Q : β → σ → Prop} (h : wp m Q₁ s)
    (hf : ∀ a s', Q₁ a s' → wp (f a) Q s') : wp (m >>= f) Q s :=
  wp_bind.mpr (wp_mono h hf)

@[simp] theorem wp_map {g : α → β} {Q : β → σ → Prop} :
    wp (g <$> m) Q s ↔ wp m (fun a => Q (g a)) s := by
  have h : g <$> m = m >>= fun a => pure (g a) := rfl
  rw [h, wp_bind]
  constructor
  · exact fun h => wp_mono h fun _ _ => wp_pure.mp
  · exact fun h => wp_mono h fun _ _ => wp_pure.mpr

end

section

variable {m : ExceptT ε (StateT σ (Except π)) α} {f : α → ExceptT ε (StateT σ (Except π)) β}
  {s : σ}

theorem wpx_mono {Q Q' : Except ε α → σ → Prop} (h : wpx m Q s)
    (hQ : ∀ a s', Q a s' → Q' a s') : wpx m Q' s := wp_mono h hQ

@[simp] theorem wp_run {Q : Except ε α → σ → Prop} : wp m.run Q s ↔ wpx m Q s := Iff.rfl

@[simp] theorem wpx_pure {a : α} {Q : Except ε α → σ → Prop} :
    wpx (pure a : ExceptT ε (StateT σ (Except π)) α) Q s ↔ Q (.ok a) s := wp_pure

@[simp] theorem wpx_throw {e : ε} {Q : Except ε α → σ → Prop} :
    wpx (throw e : ExceptT ε (StateT σ (Except π)) α) Q s ↔ Q (.error e) s := wp_pure

/-- What is left to show after the first part of a program that may fail. -/
def Then (f : α → ExceptT ε (StateT σ (Except π)) β) (Q : Except ε β → σ → Prop) :
    Except ε α → σ → Prop
  | .ok a => wpx (f a) Q
  | .error e => Q (.error e)

@[simp] theorem then_ok {a : α} {Q : Except ε β → σ → Prop} :
    Then f Q (.ok a) s ↔ wpx (f a) Q s := Iff.rfl

@[simp] theorem then_error {e : ε} {Q : Except ε β → σ → Prop} :
    Then f Q (.error e) s ↔ Q (.error e) s := Iff.rfl

@[simp] theorem wpx_bind {Q : Except ε β → σ → Prop} :
    wpx (m >>= f) Q s ↔ wpx m (Then f Q) s := by
  have h : (m >>= f).run = m.run >>= fun r =>
      match r with
      | .ok a => (f a).run
      | .error e => pure (.error e) := rfl
  have hcont : ∀ (r : Except ε α) (s' : σ),
      wp (match r with
        | .ok a => (f a).run
        | .error e => pure (.error e)) Q s' ↔ Then f Q r s' := by
    intro r s'
    cases r with
    | ok a => exact Iff.rfl
    | error e => exact wp_pure
  unfold wpx
  rw [h, wp_bind]
  constructor
  · exact fun h => wp_mono h fun r s' => (hcont r s').mp
  · exact fun h => wp_mono h fun r s' => (hcont r s').mpr

theorem wpx_seq {Q₁ : Except ε α → σ → Prop} {Q : Except ε β → σ → Prop} (h : wpx m Q₁ s)
    (herr : ∀ e s', Q₁ (.error e) s' → Q (.error e) s')
    (hok : ∀ a s', Q₁ (.ok a) s' → wpx (f a) Q s') : wpx (m >>= f) Q s := by
  refine wpx_bind.mpr (wpx_mono h fun r s' hr => ?_)
  cases r with
  | ok a => exact hok a s' hr
  | error e => exact herr e s' hr

@[simp] theorem wpx_liftM {m : StateT σ (Except π) α} {Q : Except ε α → σ → Prop} :
    wpx (liftM m : ExceptT ε (StateT σ (Except π)) α) Q s ↔ wp m (fun a => Q (.ok a)) s :=
  wp_map

@[simp] theorem wpx_mk {m : StateT σ (Except π) (Except ε α)} {Q : Except ε α → σ → Prop} :
    wpx (ExceptT.mk m) Q s ↔ wp m Q s := Iff.rfl

end

/-! ### What every run of a program does to the state -/

section

variable {r : σ → σ → Prop}

variable [IsPreorder σ r]

end

end Hoare
