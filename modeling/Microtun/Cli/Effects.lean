import Microtun.Cli.Cursor

/-! What an extraction records in the cursor, one record at a time. Records add up: their order does
not matter. -/

namespace Microtun.Cli

/-- One record in the cursor. -/
inductive Effect where
  | consume (index : Nat)
  | claim (index : Nat) (short : Char)
  | takeValue (index : Nat)
deriving DecidableEq, Repr

namespace Effect

def index : Effect → Nat
  | consume i => i
  | claim i _ => i
  | takeValue i => i

def apply (c : ArgCursor) : Effect → ArgCursor
  | consume i => c.consume i
  | claim i ch => c.recordShortUse i ch
  | takeValue i => c.recordValueTaken i

end Effect

namespace ArgCursor

variable {c₀ c c' : ArgCursor} {e : Effect} {i : Nat}

theorem modifySlot_line (c : ArgCursor) (i : Nat) (f : ShortUse → ShortUse) :
    (c.modifySlot i f).line = c.line ∧ (c.modifySlot i f).valueShorts = c.valueShorts ∧
      (c.modifySlot i f).terminator = c.terminator ∧ (c.modifySlot i f).consumed = c.consumed := by
  unfold modifySlot
  split
  · exact ⟨rfl, rfl, rfl, rfl⟩
  · split <;> exact ⟨rfl, rfl, rfl, rfl⟩

theorem apply_fixed (c : ArgCursor) (e : Effect) : (e.apply c).line = c.line ∧
    (e.apply c).valueShorts = c.valueShorts ∧ (e.apply c).terminator = c.terminator := by
  cases e with
  | consume i => exact ⟨rfl, rfl, rfl⟩
  | claim i ch =>
    show (c.recordShortUse i ch).line = _ ∧ (c.recordShortUse i ch).valueShorts = _ ∧
      (c.recordShortUse i ch).terminator = _
    unfold recordShortUse
    cases shortMask ch with
    | none => exact ⟨rfl, rfl, rfl⟩
    | some mask =>
      obtain ⟨hline, hvalue, hterm, -⟩ := modifySlot_line c i fun entry =>
        { entry with used := entry.used ||| mask }
      exact ⟨hline, hvalue, hterm⟩
  | takeValue i =>
    obtain ⟨hline, hvalue, hterm, -⟩ := modifySlot_line c i fun entry =>
      { entry with valueTaken := true }
    exact ⟨hline, hvalue, hterm⟩

/-- A cursor on the same line that knows the same value-taking letters. -/
structure On (c₀ c : ArgCursor) : Prop where
  line : c.line = c₀.line
  valueShorts : c.valueShorts = c₀.valueShorts
  terminator : c.terminator = c₀.terminator
  sound : c.Sound

theorem On.optionsEnd (h : On c₀ c) : c.optionsEnd = c₀.optionsEnd := by
  rw [ArgCursor.optionsEnd, ArgCursor.optionsEnd, h.terminator, h.line]

theorem Sound.apply (h : c.Sound) (hi : e.index < c.line.len) : (e.apply c).Sound := by
  cases e with
  | consume i => exact { h with }
  | claim i ch =>
    show (c.recordShortUse i ch).Sound
    unfold recordShortUse
    cases shortMask ch with
    | none => exact h
    | some mask => exact sound_modifySlot h hi (by exact fun _ => rfl)
  | takeValue i => exact sound_modifySlot h hi (by exact fun _ => rfl)

theorem On.apply (h : On c₀ c) (hi : e.index < c₀.line.len) : On c₀ (e.apply c) where
  line := (apply_fixed c e).1.trans h.line
  valueShorts := (apply_fixed c e).2.1.trans h.valueShorts
  terminator := (apply_fixed c e).2.2.trans h.terminator
  sound := h.sound.apply (h.line ▸ hi)

theorem isConsumed_recordShort (c : ArgCursor) (i : Nat) (ch : Char) (j : Nat) :
    (c.recordShortUse i ch).isConsumed j = c.isConsumed j := by
  unfold recordShortUse
  cases shortMask ch with
  | none => rfl
  | some mask => rw [isConsumed_eq, isConsumed_eq, (modifySlot_line ..).2.2.2]

theorem isConsumed_apply (h : c.Sound) (hi : e.index < c.line.len) (j : Nat) :
    (e.apply c).isConsumed j = (c.isConsumed j || decide (e = .consume j)) := by
  cases e with
  | consume i =>
    have hlen := h.len_le
    have hbit : i < 64 := Nat.lt_of_lt_of_le hi (Nat.le_trans hlen (by decide))
    rw [Effect.apply, isConsumed_consume hbit]
    simp [eq_comm]
  | claim i ch => simp [Effect.apply, isConsumed_recordShort]
  | takeValue i =>
    rw [Effect.apply, recordValueTaken, isConsumed_eq, isConsumed_eq, (modifySlot_line ..).2.2.2]
    simp

theorem shortUsed_apply (h : c.Sound) (hi : e.index < c.line.len) (j : Nat) (d : Char) :
    (e.apply c).shortUsed j d =
    (c.shortUsed j d || (decide (e = .claim j d) && decide (d.toNat < 128))) := by
  cases e with
  | consume i => simp only [reduceCtorEq, decide_false, Bool.false_and, Bool.or_false]; rfl
  | claim i ch =>
    have hi : i < c.line.len := hi
    rw [Effect.apply, shortUsed_record h hi]
    by_cases heq : j = i ∧ d = ch
    · obtain ⟨rfl, rfl⟩ := heq
      simp
    · have hne : ¬ (i = j ∧ ch = d) := fun h => heq ⟨h.1.symm, h.2.symm⟩
      simp [heq, hne]
  | takeValue i =>
    have hi : i < c.line.len := hi
    simp [Effect.apply, shortUsed_recordValue h hi]

theorem valueTaken_apply (h : c.Sound) (hi : e.index < c.line.len) (j : Nat) :
    (e.apply c).valueTaken j = (c.valueTaken j || decide (e = .takeValue j)) := by
  cases e with
  | consume i => simp only [reduceCtorEq, decide_false, Bool.or_false]; rfl
  | claim i ch =>
    have hi : i < c.line.len := hi
    simp [Effect.apply, valueTaken_record h hi]
  | takeValue i =>
    have hi : i < c.line.len := hi
    rw [Effect.apply, valueTaken_recordValue h hi]
    simp [eq_comm]

/-- The cursor after some effects. -/
def applyAll (c : ArgCursor) (effects : List Effect) : ArgCursor := effects.foldl Effect.apply c

theorem applyAll_cons (c : ArgCursor) (e : Effect) (effects : List Effect) :
    c.applyAll (e :: effects) = (e.apply c).applyAll effects := rfl

theorem applyAll_append (c : ArgCursor) (es es' : List Effect) :
    c.applyAll (es ++ es') = (c.applyAll es).applyAll es' := List.foldl_append

theorem On.applyAll (h : On c₀ c) {es : List Effect} (hes : ∀ e ∈ es, e.index < c₀.line.len) :
    On c₀ (c.applyAll es) := by
  induction es generalizing c with
  | nil => exact h
  | cons e es ih =>
    obtain ⟨he, hrest⟩ := List.forall_mem_cons.mp hes
    exact ih (h.apply he) hrest

theorem applyAll_spec (h : On c₀ c) {es : List Effect} (hes : ∀ e ∈ es, e.index < c₀.line.len) :
    (∀ j, (c.applyAll es).isConsumed j = (c.isConsumed j || decide (.consume j ∈ es))) ∧
    (∀ j d, (c.applyAll es).shortUsed j d =
      (c.shortUsed j d || (decide (.claim j d ∈ es) && decide (d.toNat < 128)))) ∧
    ∀ j, (c.applyAll es).valueTaken j = (c.valueTaken j || decide (.takeValue j ∈ es)) := by
  induction es generalizing c with
  | nil => simp [ArgCursor.applyAll]
  | cons e es ih =>
    obtain ⟨he, hrest⟩ := List.forall_mem_cons.mp hes
    have hlt : e.index < c.line.len := h.line ▸ he
    obtain ⟨hconsumed, hused, htaken⟩ := ih (h.apply he) hrest
    simp only [applyAll_cons, hconsumed, hused, htaken, isConsumed_apply h.sound hlt,
      shortUsed_apply h.sound hlt, valueTaken_apply h.sound hlt, List.mem_cons, Bool.or_assoc]
    refine ⟨fun j => ?_, fun j d => ?_, fun j => ?_⟩
    · by_cases heq : e = .consume j <;> simp [heq, eq_comm]
    · by_cases heq : e = .claim j d <;> by_cases hd : d.toNat < 128 <;> simp [heq, hd, eq_comm]
    · by_cases heq : e = .takeValue j <;> simp [heq, eq_comm]

end ArgCursor

end Microtun.Cli
