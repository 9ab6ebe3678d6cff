import Mathlib.Data.List.ReduceOption
import Mathlib.Data.List.Perm.Basic

/-! Pools of optional entries: what is in them, in any order. -/

namespace OptionPool

variable {α : Type}

theorem reduceOption_set_none (l : List (Option α)) (i : Nat) :
    ((l.set i none).reduceOption).Sublist l.reduceOption := by
  induction l generalizing i with
  | nil => simp
  | cons o l ih =>
    cases i with
    | zero =>
      cases o with
      | none => simp
      | some a => simp
    | succ i =>
      cases o with
      | none => simpa using ih i
      | some a => simpa using (ih i).cons_cons a

/-- An entry, and what is left when its position is emptied. -/
theorem reduceOption_perm_set_none {l : List (Option α)} {i : Nat} {a : α}
    (h : l[i]? = some (some a)) : l.reduceOption.Perm (a :: (l.set i none).reduceOption) := by
  induction l generalizing i with
  | nil => simp at h
  | cons o l ih =>
    cases i with
    | zero =>
      obtain rfl : o = some a := by simpa using h
      simp
    | succ i =>
      have hl := ih (i := i) (by simpa using h)
      cases o with
      | none => simpa using hl
      | some b =>
        simp only [List.set_cons_succ, List.reduceOption_cons_of_some]
        exact (hl.cons b).trans (List.Perm.swap a b _)

/-- Filling a position adds the entry in the place of at most one other. -/
theorem reduceOption_set_some {l : List (Option α)} {i : Nat} (h : i < l.length) (a : α) :
    ∃ rest, rest.Sublist l.reduceOption ∧ ((l.set i (some a)).reduceOption).Perm (a :: rest) := by
  refine ⟨(l.set i none).reduceOption, reduceOption_set_none l i, ?_⟩
  have hget : (l.set i (some a))[i]? = some (some a) := by simp [h]
  simpa using reduceOption_perm_set_none hget

theorem reduceOption_map_drop (l : List (Option α)) (drop : α → Bool) :
    (l.map fun o => if o.any drop then none else o).reduceOption =
      l.reduceOption.filter fun a => !drop a := by
  induction l with
  | nil => rfl
  | cons o l ih =>
    cases o with
    | none => simpa using ih
    | some a =>
      cases h : drop a with
      | false => simp [h, ih]
      | true => simp [h, ih]

end OptionPool
