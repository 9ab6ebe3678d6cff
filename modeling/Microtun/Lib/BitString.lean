import Microtun.Lib.RadixTree

/-! Bit strings in machine words.  A word encodes a bit string when its most significant bits are
the string and all other bits are zero; shifts, masks and leading zeros of such words are then
dropping, taking, appending and comparing of bit strings. -/

namespace Radix

variable {w : Nat} {x y : BitVec w} {s t : List Bool}

/-- The first `n` bits of `x`, most significant first. -/
def bitString (x : BitVec w) (n : Nat) : List Bool := (List.range n).map x.getMsbD

@[simp] theorem length_bitString (x : BitVec w) (n : Nat) : (bitString x n).length = n := by
  simp [bitString]

theorem getElem?_bitString (x : BitVec w) (n i : Nat) :
    (bitString x n)[i]? = if i < n then some (x.getMsbD i) else none := by
  simp only [bitString, List.getElem?_map]
  by_cases h : i < n <;> simp [h]

theorem drop_bitString (x : BitVec w) (n k : Nat) :
    (bitString x n).drop k = bitString (x <<< k) (n - k) := by
  refine List.ext_getElem? fun i => ?_
  rw [List.getElem?_drop, getElem?_bitString, getElem?_bitString]
  by_cases h : k + i < n
  · rw [if_pos h, if_pos (by omega), BitVec.getMsbD_shiftLeft, Nat.add_comm]
  · rw [if_neg h, if_neg (by omega)]

/-- `x` holds the bits of `s` at its most significant end, and zeros after them. -/
def Encodes (x : BitVec w) (s : List Bool) : Prop :=
  s.length ≤ w ∧ ∀ i, x.getMsbD i = s.getD i false

theorem encodes_bitString {n : Nat} (hn : n ≤ w) (h : ∀ i, n ≤ i → x.getMsbD i = false) :
    Encodes x (bitString x n) := by
  refine ⟨by simpa using hn, fun i => ?_⟩
  rw [List.getD_eq_getElem?_getD, getElem?_bitString]
  by_cases hi : i < n
  · simp [hi]
  · simp [hi, h i (by omega)]

theorem encodes_zero : Encodes (0 : BitVec w) [] := ⟨Nat.zero_le _, fun i => by simp⟩

theorem Encodes.getMsbD_of_le (h : Encodes x s) {i : Nat} (hi : s.length ≤ i) :
    x.getMsbD i = false := by
  rw [h.2, List.getD_eq_getElem?_getD, List.getElem?_eq_none hi]
  rfl

theorem Encodes.shiftLeft (h : Encodes x s) (n : Nat) : Encodes (x <<< n) (s.drop n) := by
  refine ⟨by rw [List.length_drop]; exact Nat.le_trans (Nat.sub_le _ _) h.1, fun i => ?_⟩
  rw [BitVec.getMsbD_shiftLeft, h.2, List.getD_eq_getElem?_getD, List.getD_eq_getElem?_getD,
    List.getElem?_drop, Nat.add_comm]

theorem Encodes.mask (h : Encodes x s) {n : Nat} (hn : n ≤ s.length) :
    Encodes (x &&& BitVec.allOnes w <<< (w - n)) (s.take n) := by
  have hw := h.1
  refine ⟨by rw [List.length_take]; omega, fun i => ?_⟩
  rw [BitVec.getMsbD_and, BitVec.getMsbD_shiftLeft, BitVec.getMsbD_allOnes, h.2,
    List.getD_eq_getElem?_getD, List.getD_eq_getElem?_getD, List.getElem?_take]
  by_cases hi : i < n
  · rw [if_pos hi, decide_eq_true (by omega), Bool.and_true]
  · rw [if_neg hi, decide_eq_false (by omega), Bool.and_false]
    rfl

theorem Encodes.append (hx : Encodes x s) (hy : Encodes y t) (hlen : s.length + t.length ≤ w) :
    Encodes (x ||| y >>> s.length) (s ++ t) := by
  refine ⟨by simpa using hlen, fun i => ?_⟩
  rw [BitVec.getMsbD_or, BitVec.getMsbD_ushiftRight, hx.2, hy.2]
  simp only [List.getD_eq_getElem?_getD]
  by_cases hi : i < s.length
  · rw [List.getElem?_append_left hi]
    simp [hi]
  · rw [List.getElem?_append_right (by omega), List.getElem?_eq_none (by omega : s.length ≤ i)]
    by_cases hw : i < w
    · simp [hw, hi]
    · rw [List.getElem?_eq_none (by omega)]
      simp [hw]

theorem toNat_clz_le (x : BitVec w) : x.clz.toNat ≤ w := by
  have h := BitVec.le_def.mp (BitVec.clz_le (x := x))
  simpa [Nat.mod_eq_of_lt Nat.lt_two_pow_self] using h

theorem clz_spec (x : BitVec w) : (∀ i < x.clz.toNat, x.getMsbD i = false) ∧
      (x.clz.toNat < w → x.getMsbD x.clz.toNat = true) := by
  constructor
  · intro i hi
    have hlt := BitVec.toNat_lt_two_pow_sub_clz (x := x)
    have hle := toNat_clz_le x
    rw [BitVec.getMsbD_eq_getLsbD, BitVec.getLsbD, Nat.testBit_lt_two_pow]
    · simp
    · exact hlt.trans_le (Nat.pow_le_pow_right (by decide) (by omega))
  · intro hlt
    have hne : x ≠ 0#w := by
      rintro rfl
      rw [BitVec.clz_eq_iff_eq_zero.mpr rfl] at hlt
      simp [Nat.mod_eq_of_lt Nat.lt_two_pow_self] at hlt
    rw [BitVec.getMsbD_eq_getLsbD, decide_eq_true hlt, Bool.true_and]
    exact BitVec.getLsbD_true_clz_of_ne_zero (by omega) hne

/-- The leading zeros of the difference of two words, capped at the shorter of their strings, are
the length of the common prefix of the strings. -/
theorem Encodes.clz_xor (hx : Encodes x s) (hy : Encodes y t) :
    min (x ^^^ y).clz.toNat (min s.length t.length) = shared s t := by
  obtain ⟨hzero, hone⟩ := clz_spec (x ^^^ y)
  simp only [BitVec.getMsbD_xor, hx.2, hy.2, List.getD_eq_getElem?_getD, bne_eq_false_iff_eq,
    bne_iff_ne] at hzero hone
  have hs := shared_le_left s t
  have ht := shared_le_right s t
  have hsw := hx.1
  apply Nat.le_antisymm
  · refine le_shared (by omega) (by omega) fun i hi => ?_
    have := hzero i (by omega)
    rw [List.getElem?_eq_getElem (by omega : i < s.length),
      List.getElem?_eq_getElem (by omega : i < t.length)] at this ⊢
    exact congrArg some this
  · by_contra hlt
    have hc : (x ^^^ y).clz.toNat < shared s t := by omega
    refine hone (by omega) ?_
    have htake := take_shared s t
    rw [← List.getElem?_take_of_lt hc, htake, List.getElem?_take_of_lt hc]

theorem Encodes.inj (hx : Encodes x s) (hy : Encodes y s) : x = y :=
  BitVec.eq_of_getMsbD_eq fun i _ => by rw [hx.2, hy.2]

end Radix
