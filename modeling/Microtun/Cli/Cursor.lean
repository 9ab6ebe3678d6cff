import Mathlib.Data.List.Perm.Basic
import Microtun.Cli.Parse

/-! What the cursor of the argument parser records, in terms of its three questions: is a token
consumed, is a letter of a cluster claimed, is the value of a cluster taken. -/

namespace Microtun.Cli

theorem bit_eq {w : Nat} (x : BitVec w) (i : Nat) :
    decide (x &&& (1#w <<< i) ≠ 0) = x.getLsbD i := by
  have hmask : (1#w <<< i) = BitVec.twoPow w i := rfl
  rw [hmask, BitVec.and_twoPow]
  by_cases hbit : x.getLsbD i = true
  · have hi : i < w := BitVec.lt_of_getLsbD hbit
    have hne : BitVec.twoPow w i ≠ 0 := by
      intro hzero
      have hone := congrArg (BitVec.getLsbD · i) hzero
      simp [hi] at hone
    rw [if_pos hbit, hbit]
    exact decide_eq_true hne
  · rw [if_neg hbit, Bool.eq_false_iff.mpr hbit]
    simp

theorem getLsbD_or_mask {w : Nat} (x : BitVec w) {i : Nat} (hi : i < w) (j : Nat) :
    (x ||| (1#w <<< i)).getLsbD j = (x.getLsbD j || decide (j = i)) := by
  have hmask : (1#w <<< i) = BitVec.twoPow w i := rfl
  rw [hmask, BitVec.getLsbD_or, BitVec.getLsbD_twoPow, decide_eq_true hi, Bool.true_and]
  congr 1
  exact decide_eq_decide.mpr eq_comm

namespace ArgCursor

variable {c : ArgCursor} {i j : Nat} {ch d : Char}

theorem isConsumed_eq (c : ArgCursor) (j : Nat) : c.isConsumed j = c.consumed.getLsbD j :=
  bit_eq _ _

theorem isConsumed_consume (hi : i < 64) (j : Nat) :
    (c.consume i).isConsumed j = (c.isConsumed j || decide (j = i)) := by
  rw [isConsumed_eq, isConsumed_eq, consume, getLsbD_or_mask _ hi]

/-- The slots are of different clusters of the line. -/
structure Sound (c : ArgCursor) : Prop where
  len_le : c.line.len ≤ maxTokens
  nodup : (c.shortUse.map (·.index)).Nodup
  index_lt : ∀ entry ∈ c.shortUse, entry.index < c.line.len
  optionsEnd_le : c.optionsEnd ≤ c.line.len

/-- The slot of a cluster. -/
def slot (c : ArgCursor) (i : Nat) : Option ShortUse := c.shortUse.find? (·.index = i)

theorem Sound.room (h : c.Sound) (hi : i < c.line.len) (hnone : c.slot i = none) :
    c.shortUse.length < maxTokens := by
  have hnew : i ∉ c.shortUse.map (·.index) := by
    intro hmem
    obtain ⟨entry, hentry, heq⟩ := List.mem_map.mp hmem
    exact List.find?_eq_none.mp hnone entry hentry (decide_eq_true heq)
  have hall : i :: c.shortUse.map (·.index) ⊆ List.range maxTokens := by
    intro k hk
    have hlen := h.len_le
    rcases List.mem_cons.mp hk with rfl | hk
    · exact List.mem_range.mpr (Nat.lt_of_lt_of_le hi hlen)
    · obtain ⟨entry, hentry, rfl⟩ := List.mem_map.mp hk
      exact List.mem_range.mpr (Nat.lt_of_lt_of_le (h.index_lt entry hentry) hlen)
  have hle := (List.subperm_of_subset (List.nodup_cons.mpr ⟨hnew, h.nodup⟩) hall).length_le
  rwa [List.length_cons, List.length_map, List.length_range] at hle

theorem find?_modify {f : ShortUse → ShortUse} (hf : ∀ entry, (f entry).index = entry.index)
    {k : Nat} {entries : List ShortUse} (hk : entries.findIdx? (·.index = i) = some k) (j : Nat) :
    (entries.modify k f).find? (·.index = j) =
      if j = i then (entries.find? (·.index = i)).map f else entries.find? (·.index = j) := by
  induction entries generalizing k with
  | nil => exact nomatch hk
  | cons entry entries ih =>
    rw [List.findIdx?_cons] at hk
    by_cases hentry : entry.index = i
    · rw [if_pos (decide_eq_true hentry)] at hk
      obtain rfl := Option.some.inj hk
      rw [List.modify_zero_cons, List.find?_cons, List.find?_cons, List.find?_cons, hf, hentry]
      by_cases hj : j = i
      · simp [hj]
      · simp [hj, Ne.symm hj]
    · rw [if_neg (by simp [hentry])] at hk
      obtain ⟨k', hk', rfl⟩ := Option.map_eq_some_iff.mp hk
      rw [List.modify_succ_cons, List.find?_cons, List.find?_cons, List.find?_cons, ih hk']
      by_cases hj : j = i
      · simp [hj, hentry]
      · simp only [hj, if_false]

theorem map_index_modify {f : ShortUse → ShortUse} (hf : ∀ entry, (f entry).index = entry.index)
    (entries : List ShortUse) (k : Nat) :
    (entries.modify k f).map (·.index) = entries.map (·.index) := by
  induction entries generalizing k with
  | nil => simp
  | cons entry entries ih =>
    cases k with
    | zero => simp [hf]
    | succ k => rw [List.modify_succ_cons, List.map_cons, List.map_cons, ih]

theorem slot_modifySlot (h : c.Sound) (hi : i < c.line.len) {f : ShortUse → ShortUse}
    (hf : ∀ entry, (f entry).index = entry.index) (j : Nat) : (c.modifySlot i f).slot j =
      if j = i then some (f ((c.slot i).getD ⟨i, 0, false⟩)) else c.slot j := by
  unfold modifySlot
  cases hposition : c.shortUse.findIdx? (·.index = i) with
  | some k =>
    have hsome : (c.slot i).isSome := by
      rw [slot, List.find?_isSome, ← List.any_eq_true, ← List.findIdx?_isSome, hposition]
      rfl
    obtain ⟨entry, hentry⟩ := Option.isSome_iff_exists.mp hsome
    show (c.shortUse.modify k f).find? (·.index = j) = _
    rw [find?_modify hf hposition, show c.shortUse.find? (·.index = i) = some entry from hentry,
      hentry]
    rfl
  | none =>
    have hnone : c.slot i = none := by
      rw [slot, List.find?_eq_none]
      intro entry hentry
      have := List.findIdx?_eq_none_iff.mp hposition entry hentry
      simpa using this
    simp only [if_pos (h.room hi hnone)]
    show (c.shortUse ++ [f ⟨i, 0, false⟩]).find? (·.index = j) = _
    rw [List.find?_append, List.find?_singleton, hf, hnone]
    by_cases hj : j = i
    · subst hj
      rw [if_pos rfl, show c.shortUse.find? (·.index = j) = none from hnone]
      simp
    · rw [if_neg hj, if_neg (by simp [Ne.symm hj]), Option.or_none]
      rfl

theorem sound_modifySlot (h : c.Sound) (hi : i < c.line.len) {f : ShortUse → ShortUse}
    (hf : ∀ entry, (f entry).index = entry.index) : (c.modifySlot i f).Sound := by
  unfold modifySlot
  cases hposition : c.shortUse.findIdx? (·.index = i) with
  | some k =>
    refine { h with nodup := ?_, index_lt := ?_ }
    · rw [map_index_modify hf]
      exact h.nodup
    · intro entry hentry
      have hmem : entry.index ∈ (c.shortUse.modify k f).map (·.index) := List.mem_map_of_mem hentry
      rw [map_index_modify hf] at hmem
      obtain ⟨entry', hentry', heq⟩ := List.mem_map.mp hmem
      exact heq ▸ h.index_lt entry' hentry'
  | none =>
    simp only
    split
    · refine { h with nodup := ?_, index_lt := ?_ }
      · rw [List.map_append, List.nodup_append]
        refine ⟨h.nodup, List.nodup_singleton _, ?_⟩
        intro k hk k' hk' heq
        obtain ⟨entry, hentry, rfl⟩ := List.mem_map.mp hk
        have hne := List.findIdx?_eq_none_iff.mp hposition entry hentry
        rw [List.map_singleton, List.mem_singleton, hf] at hk'
        simp [heq, hk'] at hne
      · intro entry hentry
        rcases List.mem_append.mp hentry with hentry | hentry
        · exact h.index_lt entry hentry
        · rw [List.mem_singleton.mp hentry, hf]
          exact hi
    · exact h

theorem shortUsed_eq (c : ArgCursor) (i : Nat) (d : Char) : c.shortUsed i d =
    (decide (d.toNat < 128) && (c.slot i).any fun entry => entry.used.getLsbD d.toNat) := by
  unfold shortUsed shortMask slot
  split
  · rename_i hnone
    split at hnone
    · exact nomatch hnone
    · rename_i hd
      simp [hd]
  · rename_i mask hmask
    split at hmask
    · rename_i hd
      obtain rfl := Option.some.inj hmask
      simp only [bit_eq, hd, decide_true, Bool.true_and]
    · exact nomatch hmask

theorem shortUsed_record (h : c.Sound) (hi : i < c.line.len) (ch : Char) (j : Nat) (d : Char) :
    (c.recordShortUse i ch).shortUsed j d =
      (c.shortUsed j d || (decide (j = i ∧ d = ch) && decide (ch.toNat < 128))) := by
  unfold recordShortUse shortMask
  by_cases hch : ch.toNat < 128
  · rw [if_pos hch]
    simp only [shortUsed_eq]
    rw [slot_modifySlot h hi (by exact fun _ => rfl)]
    by_cases hj : j = i
    · subst hj
      rw [if_pos rfl, Option.any_some, getLsbD_or_mask _ hch]
      have heq : (d.toNat = ch.toNat) = (d = ch) := propext Char.toNat_inj
      cases hslot : c.slot j with
      | none => by_cases hd : d = ch <;> simp [hch, hd, heq]
      | some entry => by_cases hd : d = ch <;> simp [hch, hd, heq]
    · rw [if_neg hj]
      simp [hj]
  · rw [if_neg hch]
    simp [hch]

theorem shortUsed_recordValue (h : c.Sound) (hi : i < c.line.len) (j : Nat) (d : Char) :
    (c.recordValueTaken i).shortUsed j d = c.shortUsed j d := by
  rw [shortUsed_eq, shortUsed_eq, recordValueTaken, slot_modifySlot h hi (by exact fun _ => rfl)]
  by_cases hj : j = i
  · subst hj
    rw [if_pos rfl]
    cases c.slot j <;> simp
  · rw [if_neg hj]

theorem valueTaken_recordValue (h : c.Sound) (hi : i < c.line.len) (j : Nat) :
    (c.recordValueTaken i).valueTaken j = (c.valueTaken j || decide (j = i)) := by
  show ((c.recordValueTaken i).slot j).any (·.valueTaken) = ((c.slot j).any (·.valueTaken) || _)
  rw [recordValueTaken, slot_modifySlot h hi (by exact fun _ => rfl)]
  by_cases hj : j = i
  · simp [hj]
  · simp [hj]

theorem valueTaken_record (h : c.Sound) (hi : i < c.line.len) (ch : Char) (j : Nat) :
    (c.recordShortUse i ch).valueTaken j = c.valueTaken j := by
  unfold recordShortUse
  cases shortMask ch with
  | none => rfl
  | some mask =>
    show ((c.modifySlot i _).slot j).any (·.valueTaken) = (c.slot j).any (·.valueTaken)
    rw [slot_modifySlot h hi (by exact fun _ => rfl)]
    by_cases hj : j = i
    · subst hj
      rw [if_pos rfl]
      cases c.slot j <;> rfl
    · rw [if_neg hj]

end ArgCursor

end Microtun.Cli
