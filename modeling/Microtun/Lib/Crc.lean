import Microtun.Lib.BitString

/-! Cyclic redundancy checks, bit by bit and with the high bit first. -/

namespace Microtun.Crc

open Radix (bitString length_bitString)

variable {w : Nat} {poly r r' : BitVec w} {b b' : Bool} {l l' : List Bool}

/-- The register after one bit of the message: it moves up, and the polynomial is subtracted if the
bit that leaves it differs from the one of the message. -/
def push (poly r : BitVec w) (b : Bool) : BitVec w :=
  if r.msb ^^ b then (r <<< 1) ^^^ poly else r <<< 1

/-- The register after a message. -/
def register (poly r : BitVec w) (message : List Bool) : BitVec w := message.foldl (push poly) r

@[simp] theorem register_nil : register poly r [] = r := rfl

@[simp] theorem register_cons : register poly r (b :: l) = register poly (push poly r b) l := rfl

theorem register_append : register poly r (l ++ l') = register poly (register poly r l) l' :=
  List.foldl_append

/-! ### Sums of messages -/

theorem push_xor : push poly (r ^^^ r') (b ^^ b') = push poly r b ^^^ push poly r' b' := by
  have hcancel : ∀ x y z : BitVec w, x ^^^ z ^^^ (y ^^^ z) = x ^^^ y := by
    intro x y z
    rw [BitVec.xor_assoc, ← BitVec.xor_assoc z, BitVec.xor_comm z, BitVec.xor_assoc y,
      BitVec.xor_self, BitVec.xor_zero]
  have hmsb : ((r ^^^ r').msb ^^ (b ^^ b')) = ((r.msb ^^ b) ^^ (r'.msb ^^ b')) := by
    rw [BitVec.msb_xor]
    cases r.msb <;> cases r'.msb <;> cases b <;> cases b' <;> rfl
  unfold push
  rw [hmsb, BitVec.shiftLeft_xor_distrib]
  cases hx : r.msb ^^ b with
  | false =>
    cases hy : r'.msb ^^ b' with
    | false => rfl
    | true => exact BitVec.xor_assoc ..
  | true =>
    cases hy : r'.msb ^^ b' with
    | false =>
      show r <<< 1 ^^^ r' <<< 1 ^^^ poly = r <<< 1 ^^^ poly ^^^ r' <<< 1
      rw [BitVec.xor_assoc, BitVec.xor_comm (r' <<< 1), BitVec.xor_assoc]
    | true => exact (hcancel _ _ _).symm

theorem register_xor (hlen : l.length = l'.length) : register poly (r ^^^ r')
    (l.zipWith (· ^^ ·) l') = register poly r l ^^^ register poly r' l' := by
  induction l generalizing l' r r' with
  | nil =>
    cases l' with
    | nil => rfl
    | cons => cases hlen
  | cons x l ih =>
    cases l' with
    | nil => cases hlen
    | cons y l' =>
      rw [List.zipWith_cons_cons, register_cons, push_xor, ih (Nat.succ.inj hlen)]
      rfl

theorem register_zeros (n : Nat) : register poly 0#w (List.replicate n false) = 0#w := by
  induction n with
  | zero => rfl
  | succ n ih =>
    have hpush : push poly 0#w false = 0#w := by simp [push]
    rw [List.replicate_succ, register_cons, hpush]
    exact ih

/-! ### The check at the end of a message -/

theorem register_self (r : BitVec w) (k : Nat) : register poly r (bitString r k) = r <<< k := by
  induction k with
  | zero => simp [bitString]
  | succ k ih =>
    have hbits : bitString r (k + 1) = bitString r k ++ [r.getMsbD k] := by
      simp [bitString, List.range_succ]
    have hmsb : ((r <<< k).msb ^^ r.getMsbD k) = false := by
      rw [BitVec.msb_eq_getMsbD_zero]
      simp
    rw [hbits, register_append, ih, register_cons, register_nil, push, hmsb,
      if_neg Bool.false_ne_true, BitVec.shiftLeft_add]

/-- With an odd polynomial only an empty register is emptied by a zero. -/
theorem push_false_eq_zero (hodd : poly.getLsbD 0 = true) (h : push poly r false = 0#w) :
    r = 0#w := by
  have hw : 0 < w := by
    by_contra hzero
    rw [BitVec.getLsbD_of_ge _ _ (Nat.le_of_not_lt hzero)] at hodd
    cases hodd
  unfold push at h
  rw [Bool.xor_false] at h
  split at h
  · have hbit := congrArg (·.getLsbD 0) h
    simp [hodd] at hbit
  · rename_i hmsb
    refine BitVec.eq_of_getLsbD_eq fun i hi => ?_
    rw [BitVec.getLsbD_zero]
    by_cases htop : i = w - 1
    · rw [BitVec.msb_eq_getLsbD_last, ← htop] at hmsb
      exact Bool.eq_false_iff.mpr hmsb
    · have hlt : i + 1 < w := by omega
      have hbit := congrArg (·.getLsbD (i + 1)) h
      simp only [BitVec.getLsbD_shiftLeft, BitVec.getLsbD_zero] at hbit
      simpa [hlt] using hbit

theorem register_zeros_eq_zero (hodd : poly.getLsbD 0 = true) {n : Nat}
    (h : register poly r (List.replicate n false) = 0#w) : r = 0#w := by
  induction n generalizing r with
  | zero => exact h
  | succ n ih =>
    rw [List.replicate_succ, register_cons] at h
    exact push_false_eq_zero hodd (ih h)

/-- A message that ends with a register empties the register if and only if it is that of the
message. -/
theorem register_check (hodd : poly.getLsbD 0 = true) (l : List Bool) (c : BitVec w) :
    register poly 0#w (l ++ bitString c w) = 0#w ↔ register poly 0#w l = c := by
  rw [register_append]
  generalize register poly 0#w l = r
  constructor
  · intro h
    -- Without the last bits, which it takes away, the register would be emptied by zeros.
    have hzeros : (bitString c w).zipWith (· ^^ ·) (bitString c w) = List.replicate w false := by
      rw [List.zipWith_self]
      simp only [Bool.xor_self, List.map_const', length_bitString]
    have hself : register poly c (bitString c w) = 0#w := by
      rw [register_self]
      simp
    have hsum : register poly (r ^^^ c) ((bitString c w).zipWith (· ^^ ·) (bitString c w)) =
        register poly r (bitString c w) ^^^ register poly c (bitString c w) := register_xor rfl
    rw [h, hself, hzeros, BitVec.xor_self] at hsum
    exact BitVec.xor_eq_zero_iff.mp (register_zeros_eq_zero hodd hsum)
  · rintro rfl
    rw [register_self]
    simp

/-! ### Errors -/

theorem push_low (hodd : poly.getLsbD 0 = true) {k : Nat} (hk : k + 1 < w)
    (h : ∃ i ≤ k, r.getLsbD i = true) : ∃ i ≤ k + 1, (push poly r b).getLsbD i = true := by
  unfold push
  split
  · refine ⟨0, Nat.zero_le _, ?_⟩
    rw [BitVec.getLsbD_xor, hodd]
    simp
  · obtain ⟨i, hi, hbit⟩ := h
    refine ⟨i + 1, Nat.succ_le_succ hi, ?_⟩
    rw [BitVec.getLsbD_shiftLeft]
    simp [hbit, Nat.lt_of_le_of_lt (Nat.succ_le_succ hi) hk]

theorem register_low (hodd : poly.getLsbD 0 = true) {k : Nat} (hk : k + l.length < w)
    (h : ∃ i ≤ k, r.getLsbD i = true) : ∃ i ≤ k + l.length,
    (register poly r l).getLsbD i = true := by
  induction l generalizing r k with
  | nil => exact h
  | cons b l ih =>
    rw [List.length_cons] at hk ⊢
    obtain ⟨i, hi, hbit⟩ := ih (k := k + 1) (by omega) (push_low hodd (by omega) h)
    exact ⟨i, by omega, hbit⟩

/-- A burst, whose first bit is set, is not longer than the register, and leaves something in it. -/
theorem register_burst (hodd : poly.getLsbD 0 = true) (hlen : l.length < w) :
    register poly 0#w (true :: l) ≠ 0#w := by
  intro hzero
  have hfirst : push poly 0#w true = poly := by simp [push]
  rw [register_cons, hfirst] at hzero
  obtain ⟨i, -, hbit⟩ := register_low (l := l) (k := 0) hodd (by omega) ⟨0, Nat.le_refl 0, hodd⟩
  rw [hzero, BitVec.getLsbD_zero] at hbit
  cases hbit

theorem exists_first {e : List Bool} (h : true ∈ e) :
    ∃ n rest, e = List.replicate n false ++ true :: rest := by
  induction e with
  | nil => cases h
  | cons b e ih =>
    cases b with
    | true => exact ⟨0, e, rfl⟩
    | false =>
      obtain ⟨n, rest, rfl⟩ := ih (by simpa using h)
      exact ⟨n + 1, rest, rfl⟩

theorem eq_zeros {e : List Bool} (h : ∀ j : Nat, e[j]? ≠ some true) :
    e = List.replicate e.length false := by
  refine List.eq_replicate_iff.mpr ⟨rfl, fun b hb => ?_⟩
  obtain ⟨j, hj⟩ := List.mem_iff_getElem?.mp hb
  cases b with
  | false => rfl
  | true => exact absurd hj (h j)

/-- Two messages that differ, and only within as many bits as the register has, do not both pass. -/
theorem burst_detected (hodd : poly.getLsbD 0 = true) (hlen : l.length = l'.length) (hne : l ≠ l')
    {i : Nat} (hwithin : ∀ j, j < i ∨ i + w ≤ j → l[j]? = l'[j]?) (h : register poly 0#w l = 0#w) :
    register poly 0#w l' ≠ 0#w := by
  intro h'
  have hsum : register poly (0#w ^^^ 0#w) (l.zipWith (· ^^ ·) l') =
      register poly 0#w l ^^^ register poly 0#w l' :=
    register_xor hlen
  rw [h, h', BitVec.xor_zero] at hsum
  -- The first bit in which the messages differ is the first one of the burst.
  generalize herror : l.zipWith (· ^^ ·) l' = error at hsum
  have hget : ∀ j : Nat, error[j]? = some true ↔ l[j]? ≠ l'[j]? := by
    intro j
    rw [← herror, List.getElem?_zipWith]
    by_cases hj : j < l.length
    · rw [List.getElem?_eq_getElem hj, List.getElem?_eq_getElem (hlen ▸ hj)]
      simp
    · rw [List.getElem?_eq_none (Nat.le_of_not_lt hj),
        List.getElem?_eq_none (hlen ▸ Nat.le_of_not_lt hj)]
      simp
  have hsome : true ∈ error := by
    by_contra hnone
    refine hne (List.ext_getElem? fun j => ?_)
    by_contra hj
    exact hnone (List.mem_of_getElem? ((hget j).mpr hj))
  obtain ⟨n, rest, hfirst⟩ := exists_first hsome
  have hrest : ∀ j : Nat, error[n + (j + 1)]? = rest[j]? := by
    intro j
    rw [hfirst, List.getElem?_append_right (by simp), List.length_replicate,
      Nat.add_sub_cancel_left, List.getElem?_cons_succ]
  have hle : i ≤ n := by
    by_contra hlt
    refine (hget n).mp ?_ (hwithin n (Or.inl (Nat.lt_of_not_le hlt)))
    rw [hfirst, List.getElem?_append_right (by simp), List.length_replicate, Nat.sub_self]
    rfl
  have hw : 0 < w := by
    by_contra hzero
    rw [BitVec.getLsbD_of_ge _ _ (Nat.le_of_not_lt hzero)] at hodd
    cases hodd
  have hafter : ∀ j : Nat, (rest.drop (w - 1))[j]? ≠ some true := by
    intro j hj
    rw [List.getElem?_drop, ← hrest] at hj
    exact (hget _).mp hj (hwithin _ (Or.inr (by omega)))
  have hsplit : error = List.replicate n false ++ (true :: rest.take (w - 1) ++
      List.replicate (rest.drop (w - 1)).length false) := by
    rw [← eq_zeros hafter, List.cons_append, List.take_append_drop, hfirst]
  rw [hsplit, register_append, register_zeros, register_append] at hsum
  refine register_burst hodd ?_ (register_zeros_eq_zero hodd hsum)
  exact Nat.lt_of_le_of_lt (List.length_take_le _ _) (by omega)

/-- Is the number of set bits odd? -/
def parity (l : List Bool) : Bool := l.foldr (· ^^ ·) false

theorem parity_append : parity (l ++ l') = (parity l ^^ parity l') := by
  induction l with
  | nil => exact (Bool.false_xor _).symm
  | cons b l ih =>
    show (b ^^ parity (l ++ l')) = ((b ^^ parity l) ^^ parity l')
    rw [ih, Bool.xor_assoc]

theorem parity_zipWith (hlen : l.length = l'.length) :
    parity (l.zipWith (· ^^ ·) l') = (parity l ^^ parity l') := by
  induction l generalizing l' with
  | nil =>
    cases l' with
    | nil => rfl
    | cons => cases hlen
  | cons x l ih =>
    cases l' with
    | nil => cases hlen
    | cons y l' =>
      show ((x ^^ y) ^^ parity (l.zipWith (· ^^ ·) l')) = ((x ^^ parity l) ^^ (y ^^ parity l'))
      rw [ih (Nat.succ.inj hlen), Bool.xor_assoc, Bool.xor_assoc, ← Bool.xor_assoc y,
        Bool.xor_comm y (parity l), Bool.xor_assoc]

theorem parity_shift (r : BitVec w) : parity (bitString (r <<< 1) w) =
    (parity (bitString r w) ^^ r.msb) := by
  cases w with
  | zero => simp [bitString, parity, BitVec.msb_eq_getMsbD_zero, BitVec.getMsbD]
  | succ w =>
    have hfirst : bitString r (w + 1) = r.msb :: bitString (r <<< 1) w := by
      have hrest := Radix.drop_bitString r (w + 1) 1
      rw [Nat.add_sub_cancel] at hrest
      rw [← hrest, BitVec.msb_eq_getMsbD_zero]
      simp [bitString, List.range_succ_eq_map]
    have hlast : bitString (r <<< 1) (w + 1) = bitString (r <<< 1) w ++ [false] := by
      simp [bitString, List.range_succ]
    rw [hfirst, hlast, parity_append]
    show (parity _ ^^ (false ^^ false)) = ((r.msb ^^ parity _) ^^ r.msb)
    cases r.msb <;> simp

theorem parity_xor (r r' : BitVec w) :
    parity (bitString (r ^^^ r') w) = (parity (bitString r w) ^^ parity (bitString r' w)) := by
  rw [← parity_zipWith (by simp)]
  congr 1
  refine List.ext_getElem? fun j => ?_
  rw [List.getElem?_zipWith, Radix.getElem?_bitString, Radix.getElem?_bitString,
    Radix.getElem?_bitString]
  by_cases hj : j < w
  · simp [hj]
  · simp [hj]

/-- With a polynomial that has an odd number of set bits, so has the register whenever the message
has. -/
theorem parity_register (hpoly : parity (bitString poly w) = true) :
    parity (bitString (register poly r l) w) = (parity (bitString r w) ^^ parity l) := by
  induction l generalizing r with
  | nil => exact (Bool.xor_false _).symm
  | cons b l ih =>
    have hpush : parity (bitString (push poly r b) w) = (parity (bitString r w) ^^ b) := by
      unfold push
      cases hb : r.msb ^^ b with
      | true =>
        rw [if_pos rfl, parity_xor, hpoly, parity_shift]
        revert hb
        cases r.msb <;> cases b <;> simp
      | false =>
        rw [if_neg Bool.false_ne_true, parity_shift]
        revert hb
        cases r.msb <;> cases b <;> simp
    rw [register_cons, ih, hpush, Bool.xor_assoc]
    rfl

/-- Two messages that differ in an odd number of bits do not both pass. -/
theorem odd_detected (hpoly : parity (bitString poly w) = true)
    (hodd : parity l ≠ parity l') (h : register poly 0#w l = 0#w) : register poly 0#w l' ≠ 0#w := by
  intro h'
  have hl := parity_register (r := 0#w) (l := l) hpoly
  have hl' := parity_register (r := 0#w) (l := l') hpoly
  rw [h] at hl
  rw [h'] at hl'
  exact hodd (Bool.xor_right_inj.mp (hl.symm.trans hl'))

/-! ### Messages of bytes -/

/-- The bits of bytes, in the order in which they are pushed. -/
def bits (bytes : List UInt8) : List Bool := bytes.flatMap fun byte => bitString byte.toBitVec 8

@[simp] theorem bits_nil : bits [] = [] := rfl

@[simp] theorem bits_cons (byte : UInt8) (bytes : List UInt8) :
    bits (byte :: bytes) = bitString byte.toBitVec 8 ++ bits bytes := rfl

theorem bits_append (xs ys : List UInt8) : bits (xs ++ ys) = bits xs ++ bits ys :=
    List.flatMap_append

theorem length_bits (bytes : List UInt8) : (bits bytes).length = 8 * bytes.length := by
  induction bytes with
  | nil => rfl
  | cons byte bytes ih =>
    rw [bits_cons, List.length_append, length_bitString, ih, List.length_cons]
    omega

theorem byte_of_bits {x y : UInt8} (h : bitString x.toBitVec 8 = bitString y.toBitVec 8) :
    x = y := by
  refine UInt8.toBitVec_inj.mp (BitVec.eq_of_getMsbD_eq fun i hi => ?_)
  have hbit := congrArg (·[i]?) h
  simp only [Radix.getElem?_bitString, if_pos hi] at hbit
  exact Option.some.inj hbit

theorem bits_inj {xs ys : List UInt8} (h : bits xs = bits ys) : xs = ys := by
  have hlen := congrArg List.length h
  rw [length_bits, length_bits] at hlen
  induction xs generalizing ys with
  | nil => exact (List.length_eq_zero_iff.mp (by rw [List.length_nil] at hlen; omega)).symm
  | cons x xs ih =>
    cases ys with
    | nil => simp at hlen
    | cons y ys =>
      obtain ⟨hbyte, hrest⟩ := List.append_inj h (by simp)
      rw [byte_of_bits hbyte, ih hrest (by simp only [List.length_cons] at hlen; omega)]

theorem bits_pair (hi lo : UInt8) : bits [hi, lo] = bitString (hi.toBitVec ++ lo.toBitVec) 16 := by
  refine List.ext_getElem? fun j => ?_
  rw [bits_cons, bits_cons, bits_nil, List.append_nil, List.getElem?_append, length_bitString,
    Radix.getElem?_bitString, Radix.getElem?_bitString, Radix.getElem?_bitString,
      BitVec.getMsbD_append]
  by_cases hj : j < 8
  · simp [hj, Nat.lt_trans hj]
  · by_cases hj' : j < 16
    · simp [hj, hj', Nat.le_of_not_lt hj, show j - 8 < 8 by omega]
    · simp [hj, hj', show ¬j - 8 < 8 by omega]

end Microtun.Crc
