import Mathlib.Algebra.Group.Nat.Defs

/-! Byte arrays and byte slices. -/

namespace Microtun

/-- An array of `n` bytes. -/
abbrev Bytes (n : Nat) := Vector UInt8 n

/-- A range of positions in a slice. -/
structure Range where
  start : Nat
  stop : Nat
deriving DecidableEq, Repr

namespace Bytes

def zero (n : Nat) : Bytes n := Vector.replicate n 0

/-- The array copied from a slice of `n` bytes. -/
def ofList (n : Nat) (bytes : List UInt8) : Bytes n :=
  ⟨⟨(bytes.rightpad n 0).take n⟩, by simp; omega⟩

end Bytes

/-- The bytes of a range, if the slice reaches that far. -/
def slice (bytes : List UInt8) (r : Range) : Option (List UInt8) :=
  if r.start ≤ r.stop ∧ r.stop ≤ bytes.length then
    some ((bytes.drop r.start).take (r.stop - r.start))
  else none

/-- The bytes of a range of a message that is known to have it. -/
def field (msg : List UInt8) (r : Range) : List UInt8 := (msg.drop r.start).take (r.stop - r.start)

/-- Overwrite a range of a message with as many bytes. -/
def setField (msg : List UInt8) (r : Range) (bytes : List UInt8) : List UInt8 :=
  msg.take r.start ++ bytes ++ msg.drop r.stop

/-- The `k` low bytes of a number, least significant first. -/
def toLeBytes : (k n : Nat) → List UInt8
  | 0, _ => []
  | k + 1, n => UInt8.ofNat n :: toLeBytes k (n / 256)

/-- The `k` low bytes of a number, most significant first. -/
def toBeBytes (k n : Nat) : List UInt8 := (toLeBytes k n).reverse

def ofLeBytes : List UInt8 → Nat
  | [] => 0
  | b :: rest => b.toNat + 256 * ofLeBytes rest

def ofBeBytes (bytes : List UInt8) : Nat := ofLeBytes bytes.reverse

@[simp] theorem length_toLeBytes (k n : Nat) : (toLeBytes k n).length = k := by
  induction k generalizing n with
  | zero => rfl
  | succ k ih => simp [toLeBytes, ih]

theorem ofLeBytes_toLeBytes (k n : Nat) : ofLeBytes (toLeBytes k n) = n % 256 ^ k := by
  induction k generalizing n with
  | zero => simp [toLeBytes, ofLeBytes, Nat.mod_one]
  | succ k ih =>
    have hb : (UInt8.ofNat n).toNat = n % 256 := UInt8.toNat_ofNat'
    rw [toLeBytes, ofLeBytes, ih, hb, Nat.pow_succ, Nat.mul_comm (256 ^ k), Nat.mod_mul]

theorem toLeBytes_ofLeBytes (bytes : List UInt8) : toLeBytes bytes.length (ofLeBytes bytes) =
    bytes := by
  induction bytes with
  | nil => rfl
  | cons b bytes ih =>
    have hb := b.toNat_lt
    have hlow : UInt8.ofNat (b.toNat + 256 * ofLeBytes bytes) = b := by
      apply UInt8.toNat_inj.mp
      rw [UInt8.toNat_ofNat']
      omega
    have hhigh : (b.toNat + 256 * ofLeBytes bytes) / 256 = ofLeBytes bytes := by omega
    rw [List.length_cons, ofLeBytes, toLeBytes, hlow, hhigh, ih]

theorem take_field (bytes : List UInt8) {a b : Nat} (h : a ≤ b) :
    bytes.take b = bytes.take a ++ field bytes ⟨a, b⟩ := by
  rw [field, ← List.take_add, Nat.add_sub_cancel' h]

theorem length_field {bytes : List UInt8} {a b : Nat} (h : b ≤ bytes.length) :
    (field bytes ⟨a, b⟩).length = b - a := by
  simp only [field, List.length_take, List.length_drop]
  omega

theorem toLeBytes_field {bytes : List UInt8} {a b : Nat} (h : b ≤ bytes.length) :
    toLeBytes (b - a) (ofLeBytes (field bytes ⟨a, b⟩)) = field bytes ⟨a, b⟩ := by
  rw [← length_field h, toLeBytes_ofLeBytes]

/-- The `u32` at the front of a slice. -/
def readU32Le (bytes : List UInt8) : Option UInt32 :=
  if 4 ≤ bytes.length then some (UInt32.ofNat (ofLeBytes (bytes.take 4))) else none

/-- The `u64` at the front of a slice. -/
def readU64Le (bytes : List UInt8) : Option Nat :=
  if 8 ≤ bytes.length then some (ofLeBytes (bytes.take 8)) else none

theorem readU64Le_toLeBytes {n : Nat} (h : n < 2 ^ 64) : readU64Le (toLeBytes 8 n) = some n := by
  have hlen := length_toLeBytes 8 n
  have htake : (toLeBytes 8 n).take 8 = toLeBytes 8 n := List.take_of_length_le (Nat.le_of_eq hlen)
  rw [readU64Le, if_pos (Nat.le_of_eq hlen.symm), htake, ofLeBytes_toLeBytes,
    Nat.mod_eq_of_lt (by simpa using h)]

@[simp] theorem Bytes.ofList_toList {n : Nat} (bytes : Bytes n) : Bytes.ofList n bytes.toList =
    bytes := by
  ext i hi
  simp [Bytes.ofList, List.rightpad]

theorem Bytes.toList_ofList {n : Nat} {bytes : List UInt8} (h : bytes.length = n) :
    (Bytes.ofList n bytes).toList = bytes := by
  subst h
  show (bytes.rightpad bytes.length 0).take bytes.length = bytes
  simp [List.rightpad]

theorem ofNat_ofLeBytes (n : UInt32) : UInt32.ofNat (ofLeBytes (toLeBytes 4 n.toNat)) = n := by
  have hlt : n.toNat < 256 ^ 4 := n.toNat_lt
  rw [ofLeBytes_toLeBytes, Nat.mod_eq_of_lt hlt, UInt32.ofNat_toNat]

/-! ### Slices -/

theorem slice_eq_some {bytes part : List UInt8} {r : Range} : slice bytes r = some part ↔
      r.start ≤ r.stop ∧ r.stop ≤ bytes.length ∧ part = (bytes.take r.stop).drop r.start := by
  unfold slice
  rw [List.drop_take]
  split
  · rename_i h
    simp only [h, Option.some.injEq, true_and, eq_comm]
  · rename_i h
    constructor
    · intro h
      cases h
    · intro h'
      exact absurd ⟨h'.1, h'.2.1⟩ h

theorem slice_of_take {bytes bytes' part : List UInt8} {r : Range} {n : Nat}
    (h : slice bytes r = some part) (hstop : r.stop ≤ n) (hagree : bytes'.take n = bytes.take n) :
    slice bytes' r = some part := by
  obtain ⟨hr, hlen, rfl⟩ := slice_eq_some.mp h
  have hlen' := congrArg List.length hagree
  rw [List.length_take, List.length_take] at hlen'
  refine slice_eq_some.mpr ⟨hr, by omega, ?_⟩
  have htake : ∀ l : List UInt8, l.take r.stop = (l.take n).take r.stop := by
    intro l
    rw [List.take_take, Nat.min_eq_left hstop]
  rw [htake bytes, htake bytes', hagree]

theorem slice_front {bytes part : List UInt8} {a b c : Nat} (h : slice bytes ⟨a, b⟩ = some part)
    (hac : a ≤ c) (hcb : c ≤ b) : slice bytes ⟨a, c⟩ = some (part.take (c - a)) := by
  obtain ⟨hr, hlen, rfl⟩ := slice_eq_some.mp h
  refine slice_eq_some.mpr ⟨hac, Nat.le_trans hcb hlen, ?_⟩
  rw [List.drop_take, List.drop_take, List.take_take, Nat.min_eq_left (Nat.sub_le_sub_right hcb a)]

/-! ### Numbers as bytes -/

theorem ofLeBytes_append (xs ys : List UInt8) :
    ofLeBytes (xs ++ ys) = ofLeBytes xs + 256 ^ xs.length * ofLeBytes ys := by
  induction xs with
  | nil => simp [ofLeBytes]
  | cons x xs ih =>
    rw [List.cons_append, ofLeBytes, ih, ofLeBytes, List.length_cons, Nat.pow_succ',
      Nat.mul_add, Nat.mul_assoc, Nat.add_assoc]

theorem ofLeBytes_lt (bytes : List UInt8) : ofLeBytes bytes < 256 ^ bytes.length := by
  induction bytes with
  | nil => decide
  | cons b rest ih =>
    have hb := b.toNat_lt
    rw [ofLeBytes, List.length_cons, Nat.pow_succ]
    omega

@[simp] theorem length_toBeBytes (k n : Nat) : (toBeBytes k n).length = k := by
  rw [toBeBytes, List.length_reverse, length_toLeBytes]

theorem ofBeBytes_toBeBytes (k n : Nat) : ofBeBytes (toBeBytes k n) = n % 256 ^ k := by
  rw [ofBeBytes, toBeBytes, List.reverse_reverse, ofLeBytes_toLeBytes]

theorem ofBeBytes_lt (bytes : List UInt8) : ofBeBytes bytes < 256 ^ bytes.length := by
  rw [ofBeBytes, ← List.length_reverse]
  exact ofLeBytes_lt bytes.reverse

theorem ofBeBytes_append (xs ys : List UInt8) :
    ofBeBytes (xs ++ ys) = ofBeBytes xs * 256 ^ ys.length + ofBeBytes ys := by
  rw [ofBeBytes, List.reverse_append, ofLeBytes_append, List.length_reverse, Nat.add_comm,
    Nat.mul_comm]
  rfl

theorem ofBeBytes_cons (b : UInt8) (rest : List UInt8) :
    ofBeBytes (b :: rest) = b.toNat * 256 ^ rest.length + ofBeBytes rest :=
  ofBeBytes_append [b] rest

/-- Arrays of one length are ordered as the numbers that they spell. -/
theorem lt_iff_ofBeBytes_lt {xs ys : List UInt8} (h : xs.length = ys.length) :
    xs < ys ↔ ofBeBytes xs < ofBeBytes ys := by
  induction xs generalizing ys with
  | nil =>
    obtain rfl : ys = [] := List.length_eq_zero_iff.mp h.symm
    simp
  | cons x xs ih =>
    cases ys with
    | nil => cases h
    | cons y ys =>
      have hlen : xs.length = ys.length := Nat.succ.inj h
      have hx := ofBeBytes_lt xs
      have hy := ofBeBytes_lt ys
      rw [List.cons_lt_cons_iff, ih hlen, ofBeBytes_cons, ofBeBytes_cons, UInt8.lt_iff_toNat_lt]
      rw [hlen] at hx ⊢
      generalize 256 ^ ys.length = width at *
      constructor
      · rintro (hlt | ⟨rfl, hlt⟩)
        · have := Nat.mul_le_mul_right width hlt
          rw [Nat.succ_mul] at this
          omega
        · omega
      · intro hlt
        rcases Nat.lt_trichotomy x.toNat y.toNat with hxy | hxy | hxy
        · exact Or.inl hxy
        · exact Or.inr ⟨UInt8.toNat_inj.mp hxy, by rw [hxy] at hlt; omega⟩
        · have := Nat.mul_le_mul_right width hxy
          rw [Nat.succ_mul] at this
          omega

/-! ### Fields of a message -/

section

variable {msg bytes : List UInt8} {r r' : Range}

theorem length_setField (hr : r.start ≤ r.stop) (hstop : r.stop ≤ msg.length)
    (hb : bytes.length = r.stop - r.start) : (setField msg r bytes).length = msg.length := by
  simp only [setField, List.length_append, List.length_take, List.length_drop, hb]
  omega

theorem field_setField (hr : r.start ≤ r.stop) (hstop : r.stop ≤ msg.length)
    (hb : bytes.length = r.stop - r.start) : field (setField msg r bytes) r = bytes := by
  have htake : (msg.take r.start).length = r.start := by
    rw [List.length_take]
    omega
  rw [field, setField, List.append_assoc, List.drop_left' htake, List.take_left' hb]

theorem field_setField_of_disjoint (hr : r.start ≤ r.stop) (hstop : r.stop ≤ msg.length)
    (hb : bytes.length = r.stop - r.start) (h : r'.stop ≤ r.start ∨ r.stop ≤ r'.start) :
    field (setField msg r bytes) r' = field msg r' := by
  apply List.ext_getElem?
  intro i
  simp only [field, setField, List.getElem?_take, List.getElem?_drop]
  split
  · rename_i hi
    rcases h with h | h
    · rw [List.append_assoc, List.getElem?_append_left (by simp; omega),
        List.getElem?_take_of_lt (by omega)]
    · rw [List.getElem?_append_right (by simp; omega), List.getElem?_drop]
      simp only [List.length_append, List.length_take, hb]
      congr 1
      omega
  · rfl

end

end Microtun
