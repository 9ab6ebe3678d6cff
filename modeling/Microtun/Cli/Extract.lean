import Mathlib.Data.Finset.Card
import Mathlib.Data.Finset.Filter
import Mathlib.Data.Finset.Range
import Microtun.Cli.Separate

/-! The extraction of all arguments of a line: the fields in some order, the positionals until none
is left, `finish`. -/

namespace Microtun.Cli

inductive Argument where
  | field (f : Field) (value : Value)
  | positional (text : Str)
deriving DecidableEq, Repr

/-- An argument with the cursor before and after its extraction. -/
structure Taken where
  argument : Argument
  before : ArgCursor
  after : ArgCursor
deriving DecidableEq, Repr

structure Extracted where
  fields : List Taken
  positionals : List Taken
deriving DecidableEq, Repr

namespace ArgCursor

def takeFields (c : ArgCursor) : List Field → Except ParseError (List Taken × ArgCursor)
  | [] => .ok ([], c)
  | f :: fields =>
    match f.take c with
    | (.error e, _) => .error e
    | (.ok value, next) =>
      match takeFields next fields with
      | .error e => .error e
      | .ok (taken, last) => .ok (⟨.field f value, c, next⟩ :: taken, last)

def takePositionals (c : ArgCursor) :
    Nat → Except Panic (Except ParseError (List Taken × ArgCursor))
  | 0 => throw .diverges
  | fuel + 1 =>
    match c.takePositional with
    | (.error e, _) => .ok (.error e)
    | (.ok none, next) => .ok (.ok ([], next))
    | (.ok (some text), next) =>
      match takePositionals next fuel with
      | .error p => .error p
      | .ok (.error e) => .ok (.error e)
      | .ok (.ok (taken, last)) => .ok (.ok (⟨.positional text, c, next⟩ :: taken, last))

/-- Each turn of the loop over the positionals consumes a token. -/
def extract (c : ArgCursor) (fields : List Field) : Except Panic (Except ParseError Extracted) :=
  match c.takeFields fields with
  | .error e => .ok (.error e)
  | .ok (taken, next) =>
    match next.takePositionals (c.line.len + 1) with
    | .error p => .error p
    | .ok (.error e) => .ok (.error e)
    | .ok (.ok (positionals, last)) =>
      match last.finish with
      | (.error e, _) => .ok (.error e)
      | (.ok (), _) => .ok (.ok ⟨taken, positionals⟩)

variable {c c' d : ArgCursor} {i : Nat}

theorem takeFields_eq (hc : c.Sound) {es : List Effect} (hlt : ∀ e ∈ es, e.index < c.line.len)
    {fields : List Field} (hes : ∀ f ∈ fields, ∀ e ∈ es, f.Foreign c e)
    (hseparate : fields.Pairwise Field.Separate) :
    match (c.applyAll es).takeFields fields with
    | .error _ => ∃ f ∈ fields, ∃ e, (f.scan c).1 = .error e
    | .ok (taken, last) =>
      (fields.map fun f => (f.scan c).1.map (Argument.field f)) =
        taken.map (fun t => .ok t.argument) ∧
        last = c.applyAll (es ++ fields.flatMap fun f => (f.scan c).2) := by
  induction fields generalizing es with
  | nil => simp [takeFields]
  | cons f fields ih =>
    obtain ⟨hf, hfields⟩ := List.forall_mem_cons.mp hes
    obtain ⟨hhead, htail⟩ := List.pairwise_cons.mp hseparate
    have hon : On c c := ⟨rfl, rfl, rfl, hc⟩
    have hown : ∀ e ∈ (f.scan c).2, e.index < c.line.len :=
      fun e he => (f.scan_owns c e he).index_lt
    have htake : f.take (c.applyAll es) = ((f.scan c).1, c.applyAll (es ++ (f.scan c).2)) := by
      rw [f.take_eq (hon.applyAll hlt).sound, Field.scan_foreign hc hlt hf, applyAll_append]
    have hall : ∀ e ∈ es ++ (f.scan c).2, e.index < c.line.len :=
      List.forall_mem_append.mpr ⟨hlt, hown⟩
    have hnext := ih hall
      (fun g hg => List.forall_mem_append.mpr ⟨hfields g hg, fun e he =>
        (f.scan_owns c e he).foreign (hhead g hg)⟩) htail
    rw [takeFields, htake]
    cases hresult : (f.scan c).1 with
    | error e => exact ⟨f, List.mem_cons_self, e, hresult⟩
    | ok value =>
      simp only
      cases hrest : (c.applyAll (es ++ (f.scan c).2)).takeFields fields with
      | error e =>
        rw [hrest] at hnext
        obtain ⟨g, hg, herror⟩ := hnext
        exact ⟨g, List.mem_cons_of_mem _ hg, herror⟩
      | ok result =>
        obtain ⟨taken, last⟩ := result
        simp only [hrest] at hnext
        obtain ⟨hmap, hlast⟩ := hnext
        refine ⟨?_, ?_⟩
        · rw [List.map_cons, List.map_cons, hmap, hresult]
          rfl
        · rw [hlast, List.flatMap_cons, List.append_assoc]

theorem takeFields_start (hc : c.Sound) {fields : List Field}
    (hseparate : fields.Pairwise Field.Separate) :
    match c.takeFields fields with
    | .error _ => ∃ f ∈ fields, ∃ e, (f.scan c).1 = .error e
    | .ok (taken, last) =>
      (fields.map fun f => (f.scan c).1.map (Argument.field f)) =
        taken.map (fun t => .ok t.argument) ∧
        last = c.applyAll (fields.flatMap fun f => (f.scan c).2) :=
  takeFields_eq hc (List.forall_mem_nil _) (fun _ _ => List.forall_mem_nil _) hseparate

/-- Two cursors that answer the same. -/
structure Alike (c c' : ArgCursor) : Prop where
  line : c'.line = c.line
  valueShorts : c'.valueShorts = c.valueShorts
  terminator : c'.terminator = c.terminator
  consumed : c'.consumed = c.consumed
  shortUsed : ∀ i ch, c'.shortUsed i ch = c.shortUsed i ch
  valueTaken : ∀ i, c'.valueTaken i = c.valueTaken i

theorem Alike.consume (h : Alike c c') (i : Nat) : Alike (c.consume i) (c'.consume i) :=
  { h with consumed := congrArg (· ||| _) h.consumed }

theorem clusterSettled_congr (hvalue : c'.valueShorts = c.valueShorts)
    (hused : ∀ ch, c'.shortUsed i ch = c.shortUsed i ch) (htaken : c'.valueTaken i = c.valueTaken i)
    (token : Str) : c'.clusterSettled i token = c.clusterSettled i token := by
  have hsettled : ∀ body, c'.settledFrom i body = c.settledFrom i body := by
    intro body
    induction body with
    | nil => rfl
    | cons ch body ih =>
      rw [settledFrom, settledFrom, hused, htaken, ih, isValueShort, isValueShort, hvalue]
  unfold clusterSettled
  simp only [hsettled]

theorem Alike.clusterSettled (h : Alike c c') (i : Nat) (token : Str) :
    c'.clusterSettled i token = c.clusterSettled i token :=
  clusterSettled_congr h.valueShorts (h.shortUsed i) (h.valueTaken i) token

theorem Alike.positionalFrom (h : Alike c c') (l : List Nat) :
    (c'.positionalFrom l).1 = (c.positionalFrom l).1 ∧
      Alike (c.positionalFrom l).2 (c'.positionalFrom l).2 := by
  induction l generalizing c c' with
  | nil => exact ⟨rfl, h⟩
  | cons i l ih =>
    have hafter : c'.afterTerminator i = c.afterTerminator i := by
      rw [afterTerminator, afterTerminator, h.terminator]
    rw [ArgCursor.positionalFrom, ArgCursor.positionalFrom, isConsumed, isConsumed, h.consumed,
      h.line]
    split
    · exact ih h
    cases c.line.arg i with
    | error e => exact ⟨rfl, h⟩
    | ok token =>
      simp only [hafter, h.clusterSettled]
      split
      · exact ih (h.consume i)
      split
      · exact ⟨rfl, h⟩
      · exact ⟨rfl, h.consume i⟩

theorem Alike.takePositionals (h : Alike c c') (fuel : Nat) :
    (c'.takePositionals fuel).map (·.map fun p => p.1.map (·.argument)) =
      (c.takePositionals fuel).map (·.map fun p => p.1.map (·.argument)) := by
  induction fuel generalizing c c' with
  | zero => rfl
  | succ fuel ih =>
    obtain ⟨hresult, hnext⟩ := h.positionalFrom (List.range c.line.len)
    rw [ArgCursor.takePositionals, ArgCursor.takePositionals, takePositional, takePositional,
      h.line]
    rcases hc : c.positionalFrom (List.range c.line.len) with ⟨result, next⟩
    rcases hc' : c'.positionalFrom (List.range c.line.len) with ⟨result', next'⟩
    rw [hc, hc'] at hresult hnext
    obtain rfl : result' = result := hresult
    rcases result' with e | _ | text
    · rfl
    · rfl
    · have hrest := ih hnext
      simp only at hrest ⊢
      rcases hfirst : next.takePositionals fuel with p | e | ⟨taken, last⟩ <;>
        rcases hsecond : next'.takePositionals fuel with p' | e' | ⟨taken', last'⟩ <;>
          simp_all [Except.map]

/-- A token that `take_positional` passes over. -/
def Settled (c : ArgCursor) (i : Nat) : Prop :=
  c.afterTerminator i = false ∧ ∃ token, c.line.arg i = .ok token ∧ c.clusterSettled i token = true

/-- What the loop of `take_positional` does to a cursor. -/
structure Passes (c : ArgCursor) (l : List Nat) (r : Except ParseError (Option Str) × ArgCursor) :
    Prop where
  same : ∃ consumed, r.2 = { c with consumed }
  keep : ∀ i, c.isConsumed i = true → r.2.isConsumed i = true
  what : ∀ i, r.2.isConsumed i = true → c.isConsumed i = false →
    c.Settled i ∨ ∃ text, r.1 = .ok (some text) ∧ c.line.arg i = .ok text ∧
      (c.afterTerminator i = true ∨ isOptionLike text = false)
  taken : ∀ text, r.1 = .ok (some text) → ∃ i ∈ l, c.isConsumed i = false ∧ r.2.isConsumed i = true
  through : r.1 = .ok none → ∀ i ∈ l, r.2.isConsumed i = true

theorem Passes.error (c : ArgCursor) (l : List Nat) (e : ParseError) :
    Passes c l (.error e, c) where
  same := ⟨c.consumed, rfl⟩
  keep := fun _ h => h
  what := fun _ h h' => nomatch h.symm.trans h'
  taken := nofun
  through := nofun

theorem Passes.consumed {l : List Nat} {r : Except ParseError (Option Str) × ArgCursor}
    (hi : c.isConsumed i = true) (h : Passes c l r) : Passes c (i :: l) r where
  same := h.same
  keep := h.keep
  what := h.what
  taken := fun text htext =>
    let ⟨j, hj, hnew⟩ := h.taken text htext
    ⟨j, List.mem_cons_of_mem _ hj, hnew⟩
  through := fun hnone => List.forall_mem_cons.mpr ⟨h.keep i hi, h.through hnone⟩

theorem isConsumed_keep (hi : i < 64) {j : Nat} (hj : c.isConsumed j = true) :
    (c.consume i).isConsumed j = true := by
  rw [isConsumed_consume hi, hj, Bool.true_or]

theorem Passes.settled {l : List Nat} {r : Except ParseError (Option Str) × ArgCursor} (hi : i < 64)
    (hsettled : c.Settled i) (h : Passes (c.consume i) l r) : Passes c (i :: l) r where
  same := h.same
  keep := fun j hj => h.keep j (isConsumed_keep hi hj)
  what := by
    intro j hj hnot
    by_cases heq : j = i
    · exact .inl (heq ▸ hsettled)
    · have hstill : (c.consume i).isConsumed j = false := by
        rw [isConsumed_consume hi, hnot]
        simp [heq]
      rcases h.what j hj hstill with ⟨hafter, token, harg, hcluster⟩ | htext
      · have hsame : (c.consume i).clusterSettled j token = c.clusterSettled j token :=
          clusterSettled_congr (by rfl) (by exact fun _ => rfl) (by rfl) token
        exact .inl ⟨hafter, token, harg, hsame ▸ hcluster⟩
      · exact .inr htext
  taken := by
    intro text htext
    obtain ⟨j, hj, hnot, hthen⟩ := h.taken text htext
    rw [isConsumed_consume hi, Bool.or_eq_false_iff] at hnot
    exact ⟨j, List.mem_cons_of_mem _ hj, hnot.1, hthen⟩
  through := by
    intro hnone
    have hnow : (c.consume i).isConsumed i = true := by simp [isConsumed_consume hi]
    exact List.forall_mem_cons.mpr ⟨h.keep i hnow, h.through hnone⟩

theorem Passes.text {l : List Nat} {token : Str} (hi : i < 64) (hnot : c.isConsumed i = false)
    (harg : c.line.arg i = .ok token)
    (hplain : c.afterTerminator i = true ∨ isOptionLike token = false) :
      Passes c (i :: l) (.ok (some token), c.consume i) where
  same := ⟨_, rfl⟩
  keep := fun _ hj => isConsumed_keep hi hj
  what := by
    intro j hj hfree
    rw [isConsumed_consume hi, hfree, Bool.false_or] at hj
    obtain rfl := of_decide_eq_true hj
    exact .inr ⟨token, rfl, harg, hplain⟩
  taken := fun _ _ => ⟨i, List.mem_cons_self, hnot, by simp [isConsumed_consume hi]⟩
  through := nofun

theorem positionalFrom_passes (hlen : c.line.len ≤ maxTokens) {l : List Nat}
    (hl : ∀ i ∈ l, i < c.line.len) : Passes c l (c.positionalFrom l) := by
  induction l generalizing c with
  | nil =>
    exact ⟨⟨c.consumed, rfl⟩, fun _ h => h, fun _ h h' => (nomatch h.symm.trans h'),
      fun _ h => (nomatch h), fun _ _ h => nomatch h⟩
  | cons i l ih =>
    obtain ⟨hi, hrest⟩ := List.forall_mem_cons.mp hl
    have hbit : i < 64 := Nat.lt_of_lt_of_le hi (Nat.le_trans hlen (by decide))
    rw [ArgCursor.positionalFrom]
    split
    · rename_i hconsumed
      exact (ih hlen hrest).consumed hconsumed
    rename_i hconsumed
    cases harg : c.line.arg i with
    | error e => exact Passes.error c _ e
    | ok token =>
      simp only
      split
      · rename_i hsettled
        simp only [Bool.and_eq_true, Bool.not_eq_true'] at hsettled
        have hhere : c.Settled i := ⟨hsettled.1, token, harg, hsettled.2⟩
        exact Passes.settled hbit hhere (ih (c := c.consume i) hlen hrest)
      split
      · exact Passes.error c _ _
      · rename_i hplain
        simp only [Bool.and_eq_true, Bool.not_eq_true', not_and, Bool.not_eq_true] at hplain
        refine Passes.text hbit (Bool.eq_false_iff.mpr hconsumed) harg ?_
        cases hafter : c.afterTerminator i with
        | true => exact .inl rfl
        | false => exact .inr (hplain hafter)

theorem takePositional_passes (hlen : c.line.len ≤ maxTokens) :
    Passes c (List.range c.line.len) c.takePositional :=
  positionalFrom_passes hlen fun _ hi => List.mem_range.mp hi

theorem finishFrom_consumed {l : List Nat} (h : ∀ i ∈ l, c.isConsumed i = true) :
    c.finishFrom l = (.ok (), c) := by
  induction l with
  | nil => rfl
  | cons i l ih =>
    obtain ⟨hi, hl⟩ := List.forall_mem_cons.mp h
    rw [finishFrom, if_pos hi, ih hl]

/-- Each argument is extracted where the one before it ended. -/
inductive Chain : ArgCursor → List Taken → ArgCursor → Prop
  | nil (c : ArgCursor) : Chain c [] c
  | cons {c next last : ArgCursor} {taken : List Taken} (argument : Argument)
    (h : Chain next taken last) :
    Chain c (⟨argument, c, next⟩ :: taken) last

theorem Chain.append {middle last : ArgCursor} {taken taken' : List Taken}
    (h : Chain c taken middle) (h' : Chain middle taken' last) : Chain c
    (taken ++ taken') last := by
  induction h with
  | nil => exact h'
  | cons argument _ ih => exact .cons argument (ih h')

theorem takeFields_chain {fields : List Field} {taken : List Taken} {last : ArgCursor}
    (hon : On d c) (h : c.takeFields fields = .ok (taken, last)) :
    Chain c taken last ∧ ∀ t ∈ taken, ∃ f ∈ fields, ∃ value, t.argument = .field f value ∧
      On d t.before ∧ f.take t.before = (.ok value, t.after) := by
  induction fields generalizing c taken with
  | nil =>
    obtain ⟨rfl, rfl⟩ := Prod.mk.inj (Except.ok.inj h)
    exact ⟨.nil _, List.forall_mem_nil _⟩
  | cons f fields ih =>
    rw [takeFields] at h
    rcases htake : f.take c with ⟨e | value, next⟩
    · rw [htake] at h
      exact nomatch h
    simp only [htake] at h
    rcases hrest : next.takeFields fields with e | ⟨taken', last'⟩
    · rw [hrest] at h
      exact nomatch h
    simp only [hrest] at h
    obtain ⟨rfl, rfl⟩ := Prod.mk.inj (Except.ok.inj h)
    have hnext : On d next := by
      have heq := f.take_eq hon.sound
      rw [htake] at heq
      rw [(Prod.mk.inj heq).2]
      exact hon.applyAll fun e he => hon.line ▸ (f.scan_owns c e he).index_lt
    obtain ⟨hchain, hall⟩ := ih hnext hrest
    refine ⟨.cons _ hchain,
      List.forall_mem_cons.mpr ⟨⟨f, List.mem_cons_self, value, rfl, hon, htake⟩, ?_⟩⟩
    intro t ht
    obtain ⟨g, hg, hspec⟩ := hall t ht
    exact ⟨g, List.mem_cons_of_mem _ hg, hspec⟩

/-- How many tokens are not consumed. -/
def free (c : ArgCursor) : Nat :=
  ((Finset.range c.line.len).filter fun i => c.isConsumed i = false).card

theorem free_le (c : ArgCursor) : c.free ≤ c.line.len :=
  (Finset.card_filter_le _ _).trans_eq (Finset.card_range _)

/-- The positionals are taken one after the other until every token is consumed. -/
theorem takePositionals_chain (hlen : c.line.len ≤ maxTokens) {fuel : Nat} (hfuel : c.free < fuel) :
    ∃ r, c.takePositionals fuel = .ok r ∧ ∀ taken last, r = .ok (taken, last) →
      ∃ middle, Chain c taken middle ∧ (∃ consumed, middle = { c with consumed }) ∧
        middle.takePositional = (.ok none, last) ∧ ∀ t ∈ taken, ∃ text, t.argument =
          .positional text ∧
          (∃ consumed, t.before = { c with consumed }) ∧
            t.before.takePositional = (.ok (some text), t.after) := by
  induction fuel generalizing c with
  | zero => exact absurd hfuel (Nat.not_lt_zero _)
  | succ fuel ih =>
    have hpasses := takePositional_passes hlen
    rw [takePositionals]
    rcases htake : c.takePositional with ⟨e | _ | text, next⟩
    · exact ⟨_, rfl, nofun⟩
    · refine ⟨_, rfl, fun taken last h => ?_⟩
      obtain ⟨rfl, rfl⟩ := Prod.mk.inj (Except.ok.inj h)
      exact ⟨c, .nil c, ⟨c.consumed, rfl⟩, htake, List.forall_mem_nil _⟩
    rw [htake] at hpasses
    obtain ⟨consumed, rfl⟩ : ∃ consumed, next = { c with consumed } := hpasses.same
    have hless : ({ c with consumed } : ArgCursor).free < c.free := by
      obtain ⟨i, hi, hbefore, hafter⟩ := hpasses.taken text rfl
      refine Finset.card_lt_card ⟨fun j hj => ?_, fun hsub => ?_⟩
      · obtain ⟨hrange, hfree⟩ := Finset.mem_filter.mp hj
        refine Finset.mem_filter.mpr ⟨hrange, Bool.eq_false_iff.mpr fun hj => ?_⟩
        exact nomatch hfree.symm.trans (hpasses.keep j hj)
      · have hmem := hsub (Finset.mem_filter.mpr
          ⟨Finset.mem_range.mpr (List.mem_range.mp hi), hbefore⟩)
        exact nomatch (Finset.mem_filter.mp hmem).2.symm.trans hafter
    obtain ⟨r, hr, hspec⟩ := ih (c := { c with consumed }) hlen (by omega)
    simp only [hr]
    rcases r with e | ⟨taken, last⟩
    · exact ⟨_, rfl, nofun⟩
    refine ⟨_, rfl, fun taken' last' h => ?_⟩
    obtain ⟨rfl, rfl⟩ := Prod.mk.inj (Except.ok.inj h)
    obtain ⟨middle, hchain, ⟨consumed', hmiddle⟩, hnone, hall⟩ := hspec taken last rfl
    refine ⟨middle, .cons _ hchain, ⟨consumed', hmiddle⟩, hnone, List.forall_mem_cons.mpr
      ⟨⟨text, rfl, ⟨c.consumed, rfl⟩, htake⟩, fun t ht => ?_⟩⟩
    obtain ⟨text', hargument, ⟨consumed'', hbefore⟩, htext⟩ := hall t ht
    exact ⟨text', hargument, ⟨consumed'', hbefore⟩, htext⟩

end ArgCursor

end Microtun.Cli
