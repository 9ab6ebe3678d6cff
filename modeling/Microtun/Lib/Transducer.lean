/-! Machines that answer each input: their answers to a list of inputs, and the rule that a machine
which simulates another one gives the same answers. -/

namespace Microtun

universe u v w x

/-- What an input does to the state, and what it is answered. -/
structure Transducer (σ : Type u) (α : Type v) (β : Type w) where
  step : σ → α → σ × β

namespace Transducer

variable {σ : Type u} {τ : Type x} {α : Type v} {β : Type w} {T : Transducer σ α β}
  {T' : Transducer τ α β}

/-- The state after a list of inputs. -/
def after (T : Transducer σ α β) (s : σ) (inputs : List α) : σ :=
  inputs.foldl (fun s a => (T.step s a).1) s

/-- The answers to a list of inputs, in order. -/
def answers (T : Transducer σ α β) : σ → List α → List β
  | _, [] => []
  | s, a :: as => (T.step s a).2 :: T.answers (T.step s a).1 as

@[simp] theorem after_nil (s : σ) : T.after s [] = s := rfl

@[simp] theorem after_cons (s : σ) (a : α) (as : List α) :
    T.after s (a :: as) = T.after (T.step s a).1 as := rfl

@[simp] theorem answers_nil (s : σ) : T.answers s [] = [] := rfl

@[simp] theorem answers_cons (s : σ) (a : α) (as : List α) :
    T.answers s (a :: as) = (T.step s a).2 :: T.answers (T.step s a).1 as := rfl

theorem after_append (s : σ) (as bs : List α) :
    T.after s (as ++ bs) = T.after (T.after s as) bs := List.foldl_append

theorem answers_append (s : σ) (as bs : List α) :
    T.answers s (as ++ bs) = T.answers s as ++ T.answers (T.after s as) bs := by
  induction as generalizing s with
  | nil => rfl
  | cons a as ih =>
    rw [List.cons_append, answers_cons, ih, answers_cons, after_cons, List.cons_append]

@[simp] theorem length_answers (s : σ) (as : List α) : (T.answers s as).length = as.length := by
  induction as generalizing s with
  | nil => rfl
  | cons a as ih => rw [answers_cons, List.length_cons, ih, List.length_cons]

/-- States that match give the same answer to every allowed input, and then match again. -/
def Simulates (T : Transducer σ α β) (T' : Transducer τ α β) (R : σ → τ → Prop)
    (allowed : α → Prop) : Prop :=
  ∀ s t a, allowed a → R s t → R (T.step s a).1 (T'.step t a).1 ∧ (T.step s a).2 = (T'.step t a).2

theorem Simulates.run {R : σ → τ → Prop} {allowed : α → Prop} (h : Simulates T T' R allowed) {s : σ}
    {t : τ} (hstart : R s t) {inputs : List α} (hinputs : ∀ a ∈ inputs, allowed a) :
    R (T.after s inputs) (T'.after t inputs) ∧ T.answers s inputs = T'.answers t inputs := by
  induction inputs generalizing s t with
  | nil => exact ⟨hstart, rfl⟩
  | cons a as ih =>
    obtain ⟨hnext, hanswer⟩ := h s t a (hinputs a (List.mem_cons_self ..)) hstart
    obtain ⟨hafter, hanswers⟩ := ih hnext fun b hb => hinputs b (List.mem_cons_of_mem _ hb)
    exact ⟨hafter, by rw [answers_cons, answers_cons, hanswer, hanswers]⟩

end Transducer

end Microtun
