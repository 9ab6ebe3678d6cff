import Mathlib.Data.List.Basic

/-! UTF-8 by its bytes: where characters begin, and that the bytes of a text are the bytes of no
other. -/

namespace Microtun.Utf8

/-- The bytes of a text. -/
def encode (text : List Char) : List UInt8 := text.flatMap String.utf8EncodeChar

/-- A byte inside a character. -/
def isContinuation (b : UInt8) : Bool := b &&& 0xc0 = 0x80

def decode? (bytes : List UInt8) : Option (List Char) :=
  (ByteArray.mk bytes.toArray).utf8Decode?.map Array.toList

variable {a b text text' : List Char} {c d : Char} {x y : List UInt8}

@[simp] theorem encode_nil : encode [] = [] := rfl

@[simp] theorem encode_append (a b : List Char) : encode (a ++ b) = encode a ++ encode b :=
  List.flatMap_append

@[simp] theorem encode_cons (c : Char) (text : List Char) :
    encode (c :: text) = String.utf8EncodeChar c ++ encode text := List.flatMap_cons

theorem length_le (text : List Char) : text.length ≤ (encode text).length := by
  induction text with
  | nil => exact Nat.le_refl _
  | cons c text ih =>
    rw [encode_cons, List.length_cons, List.length_append, String.length_utf8EncodeChar]
    have := c.utf8Size_pos
    omega

theorem length_sublist (h : text.Sublist text') : (encode text).length ≤ (encode text').length := by
  induction h with
  | slnil => exact Nat.le_refl _
  | cons c _ ih =>
    rw [encode_cons, List.length_append]
    exact Nat.le_trans ih (Nat.le_add_left _ _)
  | cons_cons c _ ih =>
    rw [encode_cons, encode_cons, List.length_append, List.length_append]
    exact Nat.add_le_add_left ih _

theorem toByteArray_encode (text : List Char) :
    ByteArray.mk (encode text).toArray = text.utf8Encode :=
  ByteArray.ext (List.data_toByteArray).symm

theorem decode?_encode (text : List Char) : decode? (encode text) = some text := by
  rw [decode?, toByteArray_encode, List.utf8Decode?_utf8Encode, Option.map_some]

theorem encode_of_decode? (h : decode? x = some text) : encode text = x := by
  obtain ⟨chars, hchars, rfl⟩ := Option.map_eq_some_iff.mp h
  have hsome : (ByteArray.mk x.toArray).utf8Decode?.isSome := by rw [hchars]; rfl
  have hbytes := ByteArray.utf8Encode_get_utf8Decode? (h := hsome)
  simp only [hchars, Option.get_some] at hbytes
  rw [← toByteArray_encode] at hbytes
  exact List.toArray_inj (congrArg ByteArray.data hbytes)

theorem encode_inj (h : encode a = encode b) : a = b :=
  Option.some.inj ((decode?_encode a).symm.trans (h ▸ decode?_encode b))

theorem encodeChar_cancel (h : String.utf8EncodeChar c ++ x = String.utf8EncodeChar d ++ y) :
    c = d ∧ x = y := by
  have hbytes : (String.utf8EncodeChar c).toByteArray ++ x.toByteArray =
      (String.utf8EncodeChar d).toByteArray ++ y.toByteArray := by
    rw [← List.toByteArray_append, h, List.toByteArray_append]
  have hc := ByteArray.utf8DecodeChar?_utf8EncodeChar_append (b := x.toByteArray) (c := c)
  rw [hbytes, ByteArray.utf8DecodeChar?_utf8EncodeChar_append] at hc
  obtain rfl := Option.some.inj hc
  exact ⟨rfl, List.append_cancel_left h⟩

theorem encode_cancel (h : encode a ++ x = encode text) : ∃ rest, text = a ++ rest ∧
    x = encode rest := by
  induction a generalizing text with
  | nil => exact ⟨text, rfl, h⟩
  | cons c a ih =>
    rw [encode_cons, List.append_assoc] at h
    cases text with
    | nil => exact absurd (List.append_eq_nil_iff.mp h).1 String.utf8EncodeChar_ne_nil
    | cons d text =>
      obtain ⟨rfl, hrest⟩ := encodeChar_cancel (h.trans (encode_cons d text))
      obtain ⟨rest, rfl, hx⟩ := ih hrest
      exact ⟨rest, rfl, hx⟩

theorem isContinuation_rest (b : UInt8) : isContinuation (b &&& 0x3f ||| 0x80) = true := by
  have hall : ∀ v : BitVec 8, isContinuation (UInt8.ofBitVec v &&& 0x3f ||| 0x80) =
      true := by decide
  exact hall b.toBitVec

theorem isContinuation_first (b : UInt8) (h : b.IsUTF8FirstByte) : isContinuation b = false := by
  have hall : ∀ v : BitVec 8, (UInt8.ofBitVec v).IsUTF8FirstByte →
      isContinuation (UInt8.ofBitVec v) = false := by decide
  exact hall b.toBitVec h

/-- A character is a byte that begins it and bytes inside it. -/
theorem encodeChar_cons (c : Char) : ∃ first rest, String.utf8EncodeChar c = first :: rest ∧
    isContinuation first = false ∧ ∀ b ∈ rest, isContinuation b = true := by
  have hfirst : ∀ first rest, String.utf8EncodeChar c = first :: rest → isContinuation first =
      false := by
    intro first rest h
    have hzero := UInt8.isUTF8FirstByte_getElem_zero_utf8EncodeChar (c := c)
    simp only [h, List.getElem_cons_zero] at hzero
    exact isContinuation_first first hzero
  rcases c.utf8Size_eq with h | h | h | h
  · have hc := String.utf8EncodeChar_eq_singleton h
    exact ⟨_, _, hc, hfirst _ _ hc, List.forall_mem_nil _⟩
  · have hc := String.utf8EncodeChar_eq_cons_cons h
    refine ⟨_, _, hc, hfirst _ _ hc, ?_⟩
    simp only [List.forall_mem_cons, isContinuation_rest, true_and]
    exact List.forall_mem_nil _
  · have hc := String.utf8EncodeChar_eq_cons_cons_cons h
    refine ⟨_, _, hc, hfirst _ _ hc, ?_⟩
    simp only [List.forall_mem_cons, isContinuation_rest, true_and]
    exact List.forall_mem_nil _
  · have hc := String.utf8EncodeChar_eq_cons_cons_cons_cons h
    refine ⟨_, _, hc, hfirst _ _ hc, ?_⟩
    simp only [List.forall_mem_cons, isContinuation_rest, true_and]
    exact List.forall_mem_nil _

theorem toNat_eq (c : Char) : c.toNat = c.val.toNat := rfl

theorem encodeChar_ascii (h : c.toNat < 128) : String.utf8EncodeChar c = [c.val.toUInt8] := by
  refine String.utf8EncodeChar_eq_singleton (Char.utf8Size_eq_one_iff.mpr ?_)
  rw [UInt32.le_iff_toNat_le]
  exact Nat.le_of_lt_succ h

theorem toNat_ascii (h : c.toNat < 128) : c.val.toUInt8.toNat = c.toNat := by
  rw [UInt32.toNat_toUInt8, ← toNat_eq]
  exact Nat.mod_eq_of_lt (Nat.lt_trans h (by decide))

/-- The bytes of a longer character are not ASCII. -/
theorem encodeChar_high (h : 128 ≤ c.toNat) : ∀ b ∈ String.utf8EncodeChar c, 0x80 ≤ b := by
  have hone : c.utf8Size ≠ 1 := by
    rw [ne_eq, Char.utf8Size_eq_one_iff, UInt32.le_iff_toNat_le]
    exact Nat.not_le.mpr h
  have hall : ∀ v : BitVec 8, 0x80 ≤ UInt8.ofBitVec v &&& 0x3f ||| 0x80 ∧
    0x80 ≤ UInt8.ofBitVec v &&& 0x1f ||| 0xc0 ∧
      0x80 ≤ UInt8.ofBitVec v &&& 0x0f ||| 0xe0 ∧
        0x80 ≤ UInt8.ofBitVec v &&& 0x07 ||| 0xf0 := by decide
  have hrest : ∀ b : UInt8, 0x80 ≤ b &&& 0x3f ||| 0x80 := fun b => (hall b.toBitVec).1
  rcases c.utf8Size_eq with hsize | hsize | hsize | hsize
  · exact absurd hsize hone
  · rw [String.utf8EncodeChar_eq_cons_cons hsize]
    exact List.forall_mem_cons.mpr ⟨(hall _).2.1, List.forall_mem_singleton.mpr (hrest _)⟩
  · rw [String.utf8EncodeChar_eq_cons_cons_cons hsize]
    exact List.forall_mem_cons.mpr ⟨(hall _).2.2.1,
      List.forall_mem_cons.mpr ⟨hrest _, List.forall_mem_singleton.mpr (hrest _)⟩⟩
  · rw [String.utf8EncodeChar_eq_cons_cons_cons_cons hsize]
    exact List.forall_mem_cons.mpr ⟨(hall _).2.2.2, List.forall_mem_cons.mpr ⟨hrest _,
      List.forall_mem_cons.mpr ⟨hrest _, List.forall_mem_singleton.mpr (hrest _)⟩⟩⟩

theorem takeWhile_encode (hx : ∀ b ∈ x, isContinuation b = true) (text : List Char) :
    (x ++ encode text).takeWhile isContinuation = x := by
  rw [List.takeWhile_append_of_pos hx]
  cases text with
  | nil => simp
  | cons c text =>
    obtain ⟨first, rest, hc, hfirst, -⟩ := encodeChar_cons c
    rw [encode_cons, hc, List.cons_append, List.takeWhile_cons_of_neg (by simp [hfirst]),
      List.append_nil]

/-- A text whose bytes are cut where a character begins, or at the end, is cut into two texts. -/
theorem encode_split (h : encode text = x ++ y) (hy : ∀ b ∈ y.head?, isContinuation b = false) :
    ∃ a b, x = encode a ∧ y = encode b := by
  induction text generalizing x with
  | nil =>
    obtain ⟨rfl, rfl⟩ := List.append_eq_nil_iff.mp h.symm
    exact ⟨[], [], rfl, rfl⟩
  | cons c text ih =>
    rw [encode_cons] at h
    rcases List.append_eq_append_iff.mp h with ⟨x', rfl, htext⟩ | ⟨inside, hc, rfl⟩
    · obtain ⟨a, b, rfl, rfl⟩ := ih htext
      exact ⟨c :: a, b, (encode_cons c a).symm, rfl⟩
    cases x with
    | nil => exact ⟨[], c :: text, rfl, by rw [encode_cons, hc, List.nil_append]⟩
    | cons first x =>
      cases inside with
      | nil => exact ⟨[c],
        text, by rw [encode_cons, hc, encode_nil, List.append_nil, List.append_nil], rfl⟩
      | cons b inside =>
        obtain ⟨first', rest, hchar, -, hrest⟩ := encodeChar_cons c
        obtain ⟨-, hinside⟩ := List.cons.inj (hchar.symm.trans hc)
        have hb := hrest b (hinside ▸ List.mem_append_right _ List.mem_cons_self)
        exact nomatch hb.symm.trans (hy b rfl)

/-- A part of a character between two texts is not in a text. -/
theorem partial_ne {n : Nat} (hpos : 0 < n) (hn : n < c.utf8Size) :
    encode a ++ ((String.utf8EncodeChar c).take n ++ encode b) ≠ encode text := by
  intro h
  obtain ⟨rest, -, hrest⟩ := encode_cancel h
  obtain ⟨first, inside, hc, -, hinside⟩ := encodeChar_cons c
  obtain ⟨n, rfl⟩ : ∃ k, n = k + 1 := ⟨n - 1, by omega⟩
  cases rest with
  | nil =>
    rw [hc, List.take_succ_cons] at hrest
    exact nomatch hrest
  | cons d rest =>
    obtain ⟨first', inside', hd, -, hinside'⟩ := encodeChar_cons d
    rw [encode_cons, hd, hc, List.take_succ_cons, List.cons_append, List.cons_append] at hrest
    obtain ⟨rfl, htail⟩ := List.cons.inj hrest
    have hsame : inside.take n = inside' := by
      rw [← takeWhile_encode (fun b hb => hinside b (List.mem_of_mem_take hb)) b, htail,
        takeWhile_encode hinside' rest]
    have hprefix : String.utf8EncodeChar d ++ inside.drop n = String.utf8EncodeChar c ++ [] := by
      rw [hd, hc, ← hsame, List.cons_append, List.take_append_drop, List.append_nil]
    obtain ⟨-, hdrop⟩ := encodeChar_cancel hprefix
    have hlen := String.length_utf8EncodeChar c
    rw [hc, List.length_cons] at hlen
    have := List.drop_eq_nil_iff.mp hdrop
    omega

end Microtun.Utf8
