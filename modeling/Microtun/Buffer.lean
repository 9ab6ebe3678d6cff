import Microtun.Bytes
import Microtun.PrefixTrie.Model

/-! Reads and writes of a buffer at offsets, which panic outside of it. -/

namespace Microtun

/-- `copy_from_slice` into the part of a buffer that begins at an offset. -/
def copyAt (buffer : List UInt8) (start : Nat) (bytes : List UInt8) : Except Panic (List UInt8) :=
  if start + bytes.length ≤ buffer.length then
    return buffer.take start ++ bytes ++ buffer.drop (start + bytes.length)
  else throw .index

/-- `fill` of a part of a buffer. -/
def fillAt (buffer : List UInt8) (start stop : Nat) (byte : UInt8) : Except Panic (List UInt8) :=
  if start ≤ stop ∧ stop ≤ buffer.length then
    return buffer.take start ++ List.replicate (stop - start) byte ++ buffer.drop stop
  else throw .index

def byteAt (buffer : List UInt8) (i : Nat) : Except Panic UInt8 :=
  match buffer[i]? with
  | some byte => return byte
  | none => throw .index

/-- The array of the `n` bytes at an offset. -/
def arrayAt (n : Nat) (buffer : List UInt8) (start : Nat) : Except Panic (Bytes n) :=
  if start + n ≤ buffer.length then return Bytes.ofList n (buffer.drop start) else throw .index

variable {buffer bytes : List UInt8} {start : Nat}

theorem copyAt_ok (h : start + bytes.length ≤ buffer.length) :
    copyAt buffer start bytes =
      .ok (buffer.take start ++ bytes ++ buffer.drop (start + bytes.length)) := if_pos h

theorem take_copied {front : List UInt8} (h : buffer.take start = front)
    (hstart : front.length = start) :
    (buffer.take start ++ bytes ++ buffer.drop (start + bytes.length)).take (start + bytes.length) =
      front ++ bytes := by
  rw [h]
  exact List.take_left' (by rw [List.length_append, hstart])

theorem length_copied (h : start + bytes.length ≤ buffer.length) :
    (buffer.take start ++ bytes ++ buffer.drop (start + bytes.length)).length = buffer.length := by
  simp only [List.length_append, List.length_take, List.length_drop]
  omega

theorem byteAt_ok {i : Nat} (h : i < buffer.length) : byteAt buffer i = .ok buffer[i] := by
  rw [byteAt, List.getElem?_eq_getElem h]
  rfl

theorem arrayAt_ok {n : Nat} (h : start + n ≤ buffer.length) :
    arrayAt n buffer start = .ok (Bytes.ofList n (buffer.drop start)) := if_pos h

theorem field_eq_of_getElem? {a b : List UInt8} {r : Range}
    (h : ∀ i, r.start ≤ i → i < r.stop → a[i]? = b[i]?) : field a r = field b r := by
  apply List.ext_getElem?
  intro i
  rw [field, field, List.getElem?_take, List.getElem?_take]
  split
  · rw [List.getElem?_drop, List.getElem?_drop]
    exact h _ (Nat.le_add_right _ _) (by omega)
  · rfl

theorem copyAt_rule {α : Type} {k : List UInt8 → Except Panic α} {Q : Except Panic α → Prop}
    (h : start + bytes.length ≤ buffer.length)
    (hk : ∀ after, after.length = buffer.length → field after ⟨start, start + bytes.length⟩ =
      bytes → (∀ r : Range, r.stop ≤ start ∨ start + bytes.length ≤ r.start →
        field after r = field buffer r) → Q (k after)) : Q (copyAt buffer start bytes >>= k) := by
  rw [copyAt_ok h]
  have hfront : (buffer.take start).length = start := List.length_take_of_le (by omega)
  refine hk _ (length_copied h) ?_ fun r hr => ?_
  · rw [field, List.append_assoc, List.drop_left' hfront, Nat.add_sub_cancel_left, List.take_left]
  · refine field_eq_of_getElem? fun i hlow hhigh => ?_
    rcases hr with hr | hr
    · rw [List.append_assoc, List.getElem?_append_left (by omega),
        List.getElem?_take_of_lt (by omega)]
    · rw [List.getElem?_append_right (by rw [List.length_append]; omega), List.getElem?_drop,
        List.length_append, hfront, Nat.add_sub_cancel' (by omega)]

end Microtun
