import Microtun.Cli.Zipper

/-! The editor of bytes does what the editor of characters does, as long as no character is inserted
in part. -/

namespace Microtun.Cli

open Utf8 (encode isContinuation encodeChar_cons)

theorem copyWithin_remove (p m s : List UInt8) :
    ∃ l, copyWithin (p ++ m ++ s) (p.length + m.length) (p ++ m ++ s).length p.length = .ok l ∧
      pops l m.length = p ++ s := by
  have hlen : (p ++ m ++ s).length = p.length + m.length + s.length := by
    rw [List.length_append, List.length_append]
  have hroom : p.length + m.length ≤ (p ++ m ++ s).length ∧
    (p ++ m ++ s).length ≤ (p ++ m ++ s).length ∧
      p.length + ((p ++ m ++ s).length - (p.length + m.length)) ≤ (p ++ m ++ s).length := by omega
  refine ⟨_, if_pos hroom, ?_⟩
  have htake : (p ++ m ++ s).take p.length = p := by
    rw [List.append_assoc, List.take_left]
  have hdrop : ((p ++ m ++ s).take (p ++ m ++ s).length).drop (p.length + m.length) = s := by
    rw [List.take_length, ← List.length_append, List.drop_left]
  rw [htake, hdrop, pops, List.take_append_of_le_length, List.take_of_length_le]
  · simp only [List.length_append, List.length_drop]
    omega
  · simp only [List.length_append, List.length_drop]
    omega

theorem copyWithin_insert (p : List UInt8) (b : UInt8) {s : List UInt8} (hs : s ≠ []) :
    ∃ l, copyWithin (p ++ s ++ [0]) p.length ((p ++ s ++ [0]).length - 1) (p.length + 1) = .ok l ∧
      p.length < l.length ∧ l.set p.length b = p ++ b :: s := by
  obtain ⟨d, s, rfl⟩ := List.exists_cons_of_ne_nil hs
  have hlen : (p ++ d :: s ++ [0]).length = p.length + s.length + 2 := by
    simp only [List.length_append, List.length_cons, List.length_nil]
    omega
  have hroom : p.length ≤ (p ++ d :: s ++ [0]).length - 1 ∧
      (p ++ d :: s ++ [0]).length - 1 ≤ (p ++ d :: s ++ [0]).length ∧
      p.length + 1 + ((p ++ d :: s ++ [0]).length - 1 - p.length) ≤
        (p ++ d :: s ++ [0]).length := by omega
  refine ⟨_, if_pos hroom, ?_⟩
  have hstart : (p ++ d :: s ++ [0]).take (p.length + 1) = p ++ [d] := by
    rw [List.append_assoc, List.take_append, List.take_of_length_le (Nat.le_succ _),
      Nat.add_sub_cancel_left]
    rfl
  have hmove : ((p ++ d :: s ++ [0]).take ((p ++ d :: s ++ [0]).length - 1)).drop p.length =
      d :: s := by
    rw [List.take_append_of_le_length (by simp), List.take_of_length_le (by simp), List.drop_left]
  have hrest : (p ++ d :: s ++ [0]).drop
      (p.length + 1 + ((p ++ d :: s ++ [0]).length - 1 - p.length)) = [] :=
    List.drop_eq_nil_iff.mpr (by omega)
  rw [hstart, hmove, hrest, List.append_nil]
  refine ⟨by simp only [List.length_append, List.length_cons]; omega, ?_⟩
  rw [List.append_assoc, List.set_append_right _ _ (Nat.le_refl _), Nat.sub_self]
  rfl

namespace Editor

variable {LINE HISTORY : Nat} {e : Editor} {z : Zipper} {p s : List UInt8}

/-- The loop of `prev_boundary` ends at the first byte of a character. -/
theorem prevFrom_eq {first : UInt8} {x : List UInt8} (hfirst : isContinuation first = false)
    (hx : ∀ b ∈ x, isContinuation b = true) {k : Nat} (hk : k ≤ x.length) :
    prevFrom (p ++ first :: (x ++ s)) (p.length + k) = .ok p.length := by
  induction k with
  | zero =>
    rw [Nat.add_zero]
    cases hlen : p.length with
    | zero => rfl
    | succ n =>
      have hat : (p ++ first :: (x ++ s))[n + 1]? = some first := by
        rw [← hlen, List.getElem?_append_right (Nat.le_refl _), Nat.sub_self]
        rfl
      simp only [prevFrom, hat, hfirst]
      rfl
  | succ k ih =>
    have hat : (p ++ first :: (x ++ s))[p.length + k + 1]? = some x[k] := by
      rw [List.getElem?_append_right (by omega), show p.length + k + 1 - p.length = k + 1 by omega,
        List.getElem?_cons_succ, List.getElem?_append_left hk, List.getElem?_eq_getElem hk]
    have hinside : isContinuation x[k] = true := hx _ (List.getElem_mem hk)
    rw [← Nat.add_assoc]
    simp only [prevFrom, hat, hinside, if_true]
    exact ih (Nat.le_of_succ_le hk)

theorem prevBoundary_eq {ch : Char} (hline : e.line = p ++ String.utf8EncodeChar ch ++ s) :
    e.prevBoundary (p ++ String.utf8EncodeChar ch).length = .ok p.length := by
  obtain ⟨first, x, hch, hfirst, hx⟩ := encodeChar_cons ch
  have hlen : (p ++ String.utf8EncodeChar ch).length = p.length + x.length + 1 := by
    rw [hch, List.length_append, List.length_cons, Nat.add_assoc]
  rw [prevBoundary, hlen, if_neg (Nat.succ_ne_zero _), Nat.add_sub_cancel, hline, hch,
    List.append_assoc, List.cons_append]
  exact prevFrom_eq hfirst hx (Nat.le_refl _)

theorem nextFrom_eq (index : Nat) (l : List UInt8) :
    nextFrom index l = index + (l.takeWhile isContinuation).length := by
  induction l generalizing index with
  | nil => rfl
  | cons b l ih =>
    rw [nextFrom, List.takeWhile_cons]
    split
    · rw [ih, List.length_cons, Nat.add_assoc, Nat.add_comm 1]
    · rfl

theorem nextBoundary_eq {ch : Char} {text : Str}
    (hline : e.line = p ++ (String.utf8EncodeChar ch ++ encode text)) :
    e.nextBoundary p.length = p.length + (String.utf8EncodeChar ch).length := by
  obtain ⟨first, x, hch, hfirst, hx⟩ := encodeChar_cons ch
  have hlen : ¬ e.line.length ≤ p.length := by
    rw [hline, hch, List.length_append, List.cons_append, List.length_cons]
    omega
  have hdrop : e.line.drop (p.length + 1) = x ++ encode text := by
    rw [hline, hch, List.drop_append, List.drop_of_length_le (Nat.le_succ _),
      Nat.add_sub_cancel_left]
    rfl
  rw [nextBoundary, if_neg hlen, nextFrom_eq, hdrop, Utf8.takeWhile_encode hx, hch,
    List.length_cons]
  omega

variable {escape : EscapeState} {history : List Str} {index : Option Nat} {cr : Bool}

/-- A byte goes between the text before the cursor and the text after it. -/
theorem insert_room (b : UInt8) (hroom : (p ++ s).length < LINE) :
    insert LINE ⟨p ++ s, p.length, escape, history, index, cr⟩ b =
      .ok (true, ⟨p ++ b :: s, p.length + 1, escape, history, index, cr⟩) := by
  have hpush : ∀ a, push LINE (p ++ s) a = some (p ++ s ++ [a]) := fun a => if_pos hroom
  unfold insert
  rw [if_neg (Nat.ne_of_lt hroom), hpush, hpush]
  by_cases hs : s = []
  · subst hs
    rw [List.append_nil, if_pos rfl]
    rfl
  · have hne : ¬ p.length = (p ++ s).length := by
      rw [List.length_append]
      have := List.length_pos_of_ne_nil hs
      omega
    obtain ⟨l, hcopy, hlt, hset⟩ := copyWithin_insert p b hs
    simp only [if_neg hne, hcopy, ok_bind, if_neg (Nat.not_le.mpr hlt), hset]
    rfl

theorem insert_full (b : UInt8) (hfull : (p ++ s).length = LINE) :
    insert LINE ⟨p ++ s, p.length, escape, history, index, cr⟩ b =
      .ok (false, ⟨p ++ s, p.length, escape, history, index, cr⟩) :=
  if_pos hfull

/-- A byte that is inserted. -/
def IsText (b : UInt8) : Prop := 0x20 ≤ b ∧ b ≠ 0x7f

theorem IsText.ne {b : UInt8} (h : IsText b) : b ≠ 0x0a ∧ b ≠ 0 ∧ b ≠ 0x0d ∧ b ≠ 0x09 ∧ b ≠ 0x1b ∧
    b ≠ 0x03 ∧ b ≠ 0x0c ∧ b ≠ 0x01 ∧ b ≠ 0x05 ∧ b ≠ 0x15 ∧ b ≠ 0x0b ∧ b ≠ 0x17 ∧ b ≠ 0x08 := by
  have hall : ∀ v : BitVec 8, 0x20 ≤ UInt8.ofBitVec v → UInt8.ofBitVec v ≠ 0x0a ∧
    UInt8.ofBitVec v ≠ 0 ∧
      UInt8.ofBitVec v ≠ 0x0d ∧ UInt8.ofBitVec v ≠ 0x09 ∧ UInt8.ofBitVec v ≠ 0x1b ∧
      UInt8.ofBitVec v ≠ 0x03 ∧ UInt8.ofBitVec v ≠ 0x0c ∧ UInt8.ofBitVec v ≠ 0x01 ∧
      UInt8.ofBitVec v ≠ 0x05 ∧ UInt8.ofBitVec v ≠ 0x15 ∧ UInt8.ofBitVec v ≠ 0x0b ∧
      UInt8.ofBitVec v ≠ 0x17 ∧ UInt8.ofBitVec v ≠ 0x08 := by
    decide +kernel
  exact hall b.toBitVec h.1

theorem plain_insert (cr : Bool) {b : UInt8} (hb : IsText b) {line : List UInt8} {cursor : Nat}
    {changed : Bool} {e' : Editor}
    (h : insert LINE ⟨line, cursor, escape, history, index, false⟩ b = .ok (changed, e')) :
    ∃ ev, plain LINE ⟨line, cursor, escape, history, index, cr⟩ b = .ok (ev, e') := by
  obtain ⟨hlf, hnul, hcr, htab, hesc, hetx, hff, hsoh, henq, hnak, hvt, hetb, hbs⟩ := hb.ne
  refine ⟨if changed then (if cursor = line.length then .echo b else .redraw) else .none, ?_⟩
  unfold plain key
  simp only [hlf, hnul, hcr, htab, hesc, hetx, hff, hsoh, henq, hnak, hvt, hetb, hbs, hb.2, hb.1, h,
    decide_false, Bool.or_self, Bool.and_false, Bool.false_eq_true, if_false, if_true, ok_bind]
  rfl

theorem feedAll_insert {bytes : List UInt8} (hbytes : ∀ b ∈ bytes, IsText b)
    (hfits : (p ++ s).length ≤ LINE) (history : List Str) (index : Option Nat) :
    feedAll LINE ⟨p ++ s, p.length, .normal, history, index, false⟩ bytes =
      .ok ⟨p ++ bytes.take (LINE - (p ++ s).length) ++ s,
        (p ++ bytes.take (LINE - (p ++ s).length)).length, .normal, history, index, false⟩ := by
  induction bytes generalizing p with
  | nil =>
    rw [List.take_nil, List.append_nil]
    rfl
  | cons b bytes ih =>
    obtain ⟨hb, hrest⟩ := List.forall_mem_cons.mp hbytes
    rw [feedAll, feed]
    simp only
    rcases Nat.lt_or_ge (p ++ s).length LINE with hroom | hfull
    · obtain ⟨ev, hplain⟩ := plain_insert false hb (insert_room b hroom)
      have hnew : p ++ b :: s = (p ++ [b]) ++ s := by simp
      have hnext : p.length + 1 = (p ++ [b]).length := by simp
      have hlen : ((p ++ [b]) ++ s).length = (p ++ s).length + 1 := by
        simp only [List.length_append, List.length_singleton]
        omega
      have htake : LINE - (p ++ s).length = LINE - ((p ++ s).length + 1) + 1 := by omega
      rw [hplain, ok_bind, hnew, hnext]
      simp only
      rw [ih hrest (by rw [hlen]; exact hroom), hlen, htake, List.take_succ_cons]
      simp
    · have hlen : (p ++ s).length = LINE := Nat.le_antisymm hfits hfull
      obtain ⟨ev, hplain⟩ := plain_insert false hb (insert_full b hlen)
      rw [hplain, ok_bind]
      simp only
      rw [ih hrest hfits, hlen, Nat.sub_self, List.take_zero, List.take_zero]

theorem feedAll_text {b : UInt8} {bytes : List UInt8} (hbytes : ∀ d ∈ b :: bytes, IsText d)
    (hescape : escape = .normal ∨ escape = .esc ∧ b ≠ 0x5b ∧ b ≠ 0x4f)
    (hfits : (p ++ s).length ≤ LINE) :
    feedAll LINE ⟨p ++ s, p.length, escape, history, index, cr⟩ (b :: bytes) =
      .ok ⟨p ++ (b :: bytes).take (LINE - (p ++ s).length) ++ s,
        (p ++ (b :: bytes).take (LINE - (p ++ s).length)).length, .normal, history, index,
          false⟩ := by
  have hfeed : feed LINE ⟨p ++ s, p.length, escape, history, index, cr⟩ b =
      plain LINE ⟨p ++ s, p.length, .normal, history, index, cr⟩ b := by
    rcases hescape with rfl | ⟨rfl, hbracket, hletter⟩
    · rfl
    · simp [feed, hbracket, hletter]
  have hb := hbytes b List.mem_cons_self
  have hreset : ∃ changed e', insert LINE ⟨p ++ s, p.length, .normal, history, index, false⟩ b =
      .ok (changed, e') := by
    rcases Nat.lt_or_eq_of_le hfits with hroom | hfull
    · exact ⟨_, _, insert_room b hroom⟩
    · exact ⟨_, _, insert_full b hfull⟩
  obtain ⟨changed, e', hinsert⟩ := hreset
  obtain ⟨ev, hplain⟩ := plain_insert cr hb hinsert
  obtain ⟨ev', hplain'⟩ := plain_insert false hb hinsert
  have hsame := feedAll_insert hbytes hfits history index
  rw [feedAll, feed] at hsame
  simp only at hsame
  rw [hplain', ok_bind] at hsame
  rw [feedAll, hfeed, hplain, ok_bind]
  exact hsame

theorem feedAll_one {b : UInt8} {ev : EditorEvent} {e' : Editor}
    (h : e.feed LINE b = .ok (ev, e')) : e.feedAll LINE [b] = .ok e' := by
  rw [feedAll, h, ok_bind]
  rfl

theorem take_take_append (l m : List UInt8) (n : Nat) : (l.take n ++ m).take n =
    (l ++ m).take n := by
  rcases Nat.le_total n l.length with h | h
  · rw [List.take_append_of_le_length (by rw [List.length_take]; omega), List.take_take,
      Nat.min_self, List.take_append_of_le_length h]
  · rw [List.take_of_length_le h]

theorem push_eight {l : List UInt8} (hl : l.length ≤ 8) (b : UInt8) :
    (push 8 l b).getD l = (l ++ [b]).take 8 := by
  unfold push
  split
  · rename_i hlt
    rw [Option.getD_some, List.take_of_length_le (by rw [List.length_append]; exact hlt)]
  · rename_i hge
    have hlen : l.length = 8 := by omega
    rw [Option.getD_none, ← hlen, List.take_left]

theorem not_final {b : UInt8} (h : 0x80 ≤ b) : (isAsciiAlphabetic b || b = 0x7e) = false := by
  have hall : ∀ v : BitVec 8, 0x80 ≤ UInt8.ofBitVec v →
      (isAsciiAlphabetic (UInt8.ofBitVec v) || UInt8.ofBitVec v = 0x7e) = false := by
    decide +kernel
  exact hall b.toBitVec h

/-- Bytes that end no escape sequence are kept as part of it, up to eight. -/
theorem feedAll_csi {bytes : List UInt8} (hbytes : ∀ b ∈ bytes, 0x80 ≤ b)
    {line sequence : List UInt8} {cursor : Nat} (hl : sequence.length ≤ 8) :
    feedAll LINE ⟨line, cursor, .csi sequence, history, index, cr⟩ bytes =
      .ok ⟨line, cursor, .csi ((sequence ++ bytes).take 8), history, index, cr⟩ := by
  induction bytes generalizing sequence with
  | nil =>
    rw [List.append_nil, List.take_of_length_le hl]
    rfl
  | cons b bytes ih =>
    obtain ⟨hb, hrest⟩ := List.forall_mem_cons.mp hbytes
    rw [feedAll, feed]
    simp only [push_eight hl, not_final hb, Bool.false_eq_true, if_false, pure_bind]
    rw [ih hrest (List.length_take_le _ _)]
    rw [take_take_append, List.append_assoc, List.singleton_append]

end Editor

namespace Zipper

theorem left_text (z : Zipper) : z.left.text = z.text := by
  obtain ⟨before, after⟩ := z
  rcases List.eq_nil_or_concat' before with rfl | ⟨b, ch, rfl⟩
  · rfl
  · simp [left, text]

theorem right_text (z : Zipper) : z.right.text = z.text := by
  obtain ⟨before, after⟩ := z
  cases after with
  | nil => rfl
  | cons ch rest => simp [right, text]

theorem stop_text (z : Zipper) : z.stop.text = z.text := List.append_nil _

end Zipper

/-- The bytes of an escape sequence, as many of them as are kept. -/
def Escape.bytes : Escape → EscapeState
  | normal => .normal
  | esc => .esc
  | csi sequence => .csi ((encode sequence).take 8)

theorem byte_eq_iff {ch : Char} (h : ch.toNat < 128) (b : UInt8) : ch.val.toUInt8 = b ↔
    ch.toNat = b.toNat := by
  rw [← UInt8.toNat_inj, Utf8.toNat_ascii h]

theorem char_eq_iff (ch d : Char) : ch = d ↔ ch.toNat = d.toNat := Char.toNat_inj.symm

namespace TextEditor

/-- The editor of bytes that an editor of characters stands for. -/
def bytes (t : TextEditor) : Editor :=
  ⟨encode t.zipper.text, (encode t.zipper.before).length, t.escape.bytes, t.history, t.recalled,
    t.afterCr⟩

/-- The line and the history fit in their buffers. -/
structure Bounded (LINE : Nat) (t : TextEditor) : Prop where
  size_le : t.zipper.size ≤ LINE
  stored : ∀ text ∈ t.history, (encode text).length ≤ LINE

variable {LINE HISTORY : Nat} {t : TextEditor}

theorem text_split {b : Str} {ch : Char} (a : Str) :
    encode (b ++ [ch] ++ a) = encode b ++ String.utf8EncodeChar ch ++ encode a := by
  simp

theorem bytes_prev (t : TextEditor) :
    t.bytes.prevBoundary t.bytes.cursor = .ok (encode t.zipper.left.before).length := by
  obtain ⟨⟨before, after⟩, escape, history, recalled, cr⟩ := t
  rcases List.eq_nil_or_concat' before with rfl | ⟨b, ch, rfl⟩
  · rfl
  · have hline : (encode (b ++ [ch] ++ after)) = encode b ++ String.utf8EncodeChar ch ++
        encode after :=
      text_split after
    have hprev := Editor.prevBoundary_eq
        (e := bytes ⟨⟨b ++ [ch], after⟩, escape, history, recalled, cr⟩) hline
    have hcursor : encode (b ++ [ch]) = encode b ++ String.utf8EncodeChar ch := by simp
    simp only [bytes, hcursor, Zipper.left, List.getLast?_append, List.dropLast_concat] at hprev ⊢
    exact hprev

theorem bytes_next (t : TextEditor) :
    t.bytes.nextBoundary t.bytes.cursor = (encode t.zipper.right.before).length := by
  obtain ⟨⟨before, after⟩, escape, history, recalled, cr⟩ := t
  cases after with
  | nil =>
    show Editor.nextBoundary _ (encode before).length = (encode before).length
    have hline : (encode (before ++ [])).length = (encode before).length := by rw [List.append_nil]
    rw [Editor.nextBoundary]
    simp only [bytes, Zipper.text, hline, Nat.le_refl, if_true]
  | cons ch rest =>
    have hline : encode (before ++ ch :: rest) = encode before ++
        (String.utf8EncodeChar ch ++ encode rest) := by
      simp
    have hnext := Editor.nextBoundary_eq
      (e := bytes ⟨⟨before, ch :: rest⟩, escape, history, recalled, cr⟩) hline
    simp only [bytes, Zipper.right, Utf8.encode_append, Utf8.encode_cons, Utf8.encode_nil,
      List.append_nil, List.length_append] at hnext ⊢
    exact hnext

theorem bytes_backspace (t : TextEditor) : t.bytes.backspace =
    .ok (!t.zipper.before.isEmpty,
      ({ t with zipper := t.zipper.deleteLeft } : TextEditor).bytes) := by
  have hprev := t.bytes_prev
  obtain ⟨⟨before, after⟩, escape, history, recalled, cr⟩ := t
  rcases List.eq_nil_or_concat' before with rfl | ⟨b, ch, rfl⟩
  · rfl
  · obtain ⟨l, hcopy, hpops⟩ :=
      copyWithin_remove (encode b) (String.utf8EncodeChar ch) (encode after)
    have hcursor : encode (b ++ [ch]) = encode b ++ String.utf8EncodeChar ch := by simp
    have hne : ¬ (encode b).length + (String.utf8EncodeChar ch).length = 0 := by
      rw [String.length_utf8EncodeChar]
      have := ch.utf8Size_pos
      omega
    unfold Editor.backspace
    rw [hprev]
    simp only [bytes, Zipper.text, Zipper.left, Zipper.deleteLeft, text_split, hcursor, ok_bind,
      List.getLast?_append, List.getLast?_singleton, Option.some_or, List.dropLast_concat,
      List.length_append] at hcopy ⊢
    have hsome : (b ++ [ch]).isEmpty = false := by simp
    rw [if_neg hne, hcopy, ok_bind, Nat.add_sub_cancel_left, hpops, hsome, Utf8.encode_append]
    rfl

theorem bytes_delete (t : TextEditor) : t.bytes.delete =
    .ok (!t.zipper.after.isEmpty,
      ({ t with zipper := t.zipper.deleteRight } : TextEditor).bytes) := by
  have hnext := t.bytes_next
  obtain ⟨⟨before, after⟩, escape, history, recalled, cr⟩ := t
  cases after with
  | nil =>
    have hend : (encode (before ++ [])).length ≤ (encode before).length := by rw [List.append_nil]
    exact if_pos hend
  | cons ch rest =>
    obtain ⟨l, hcopy, hpops⟩ :=
      copyWithin_remove (encode before) (String.utf8EncodeChar ch) (encode rest)
    have hpos := ch.utf8Size_pos
    have hline : encode (before ++ ch :: rest) =
        encode before ++ String.utf8EncodeChar ch ++ encode rest := by simp
    have hend : ¬ (encode before).length + (String.utf8EncodeChar ch).length +
      (encode rest).length ≤
        (encode before).length := by
      rw [String.length_utf8EncodeChar]
      omega
    unfold Editor.delete
    rw [hnext]
    simp only [bytes, Zipper.text, Zipper.right, Zipper.deleteRight, hline, Utf8.encode_append,
      Utf8.encode_cons, Utf8.encode_nil, List.append_nil, List.length_append] at hcopy ⊢
    rw [if_neg hend, hcopy, ok_bind, Nat.add_sub_cancel_left, hpops]
    rfl

theorem not_blank {ch : Char} (h : 128 ≤ ch.toNat) : isBlank ch = false := by
  simp only [isBlank, char_eq_iff]
  have hne : ∀ d : Char, d.toNat < 128 → decide (ch.toNat = d.toNat) = false := by
    intro d hd
    exact decide_eq_false (by omega)
  rw [hne ' ' (by decide), hne '\t' (by decide), hne '\n' (by decide), hne '\x0c' (by decide),
    hne '\r' (by decide)]
  rfl

theorem not_whitespace {b : UInt8} (h : 0x80 ≤ b) : isAsciiWhitespace b = false := by
  have hall : ∀ v : BitVec 8, 0x80 ≤ UInt8.ofBitVec v → isAsciiWhitespace (UInt8.ofBitVec v) =
      false := by
    decide
  exact hall b.toBitVec h

theorem take_encode {sequence m : Str} (hm : (encode m).length < 8)
    (h : (encode sequence).take 8 = encode m) : sequence = m := by
  have hlen := congrArg List.length h
  rw [List.length_take] at hlen
  refine Utf8.encode_inj ?_
  rw [← h, List.take_of_length_le (by omega)]

theorem getLast?_blank (ch : Char) : ∃ b, (String.utf8EncodeChar ch).getLast? = some b ∧
    isAsciiWhitespace b = isBlank ch := by
  rcases Nat.lt_or_ge ch.toNat 128 with h | h
  · refine ⟨ch.val.toUInt8, by rw [Utf8.encodeChar_ascii h]; rfl, ?_⟩
    simp only [isAsciiWhitespace, isBlank, byte_eq_iff h, char_eq_iff]
    rfl
  · have hne := String.utf8EncodeChar_ne_nil (c := ch)
    refine ⟨_, List.getLast?_eq_some_getLast hne, ?_⟩
    rw [not_whitespace (Utf8.encodeChar_high h _ (List.getLast_mem hne)), not_blank h]

theorem blank_iff (ch : Char) (b : UInt8) (h : (String.utf8EncodeChar ch).getLast? = some b) :
    isAsciiWhitespace b = isBlank ch := by
  obtain ⟨last, hlast, hblank⟩ := getLast?_blank ch
  obtain rfl := Option.some.inj (h.symm.trans hlast)
  exact hblank

theorem bytes_eraseWhile (t : TextEditor) {p : UInt8 → Bool} {q : Char → Bool}
    (hpq : ∀ ch b, (String.utf8EncodeChar ch).getLast? = some b → p b = q ch) {fuel : Nat}
    (changed : Bool) (hfuel : t.zipper.before.length < fuel) :
    ∃ changed', Editor.eraseWhile p fuel (changed, t.bytes) = .ok (changed',
      ({ t with zipper := { t.zipper with before := t.zipper.before.rdropWhile q } } :
        TextEditor).bytes) := by
  induction fuel generalizing t changed with
  | zero => exact absurd hfuel (Nat.not_lt_zero _)
  | succ fuel ih =>
    have hback := t.bytes_backspace
    obtain ⟨⟨before, after⟩, escape, history, recalled, cr⟩ := t
    rcases List.eq_nil_or_concat' before with rfl | ⟨b, ch, rfl⟩
    · exact ⟨changed, rfl⟩
    · obtain ⟨last, hlast, -⟩ := getLast?_blank ch
      have hcursor : ¬ (encode (b ++ [ch])).length = 0 := by
        have := ch.utf8Size_pos
        simp only [Utf8.encode_append, Utf8.encode_cons, Utf8.encode_nil, List.append_nil,
          List.length_append, String.length_utf8EncodeChar]
        omega
      have hat : (encode (b ++ [ch] ++ after))[(encode (b ++ [ch])).length - 1]? = some last := by
        have hlast' : (encode (b ++ [ch])).getLast? = some last := by
          rw [Utf8.encode_append, List.getLast?_append, Utf8.encode_cons, Utf8.encode_nil,
            List.append_nil, hlast]
          rfl
        rw [List.getLast?_eq_getElem?] at hlast'
        rw [Utf8.encode_append, List.getElem?_append_left (by omega), hlast']
      rw [Editor.eraseWhile]
      simp only [bytes, Zipper.text, if_neg hcursor, hat, hpq ch last hlast, List.rdropWhile_concat]
      cases hq : q ch with
      | false => exact ⟨changed, rfl⟩
      | true =>
        simp only [if_true]
        simp only [bytes, Zipper.text] at hback
        rw [hback, ok_bind]
        have hlen : b.length < fuel := by simpa using hfuel
        obtain ⟨changed', herase⟩ := ih ⟨⟨b, after⟩, escape, history, recalled, cr⟩
          (changed || !(b ++ [ch]).isEmpty) hlen
        refine ⟨changed', ?_⟩
        simp only [bytes, Zipper.text, Zipper.deleteLeft, List.dropLast_concat] at herase ⊢
        exact herase

theorem bytes_recallEntry (h : t.Bounded LINE) (index : Nat) :
    Editor.loadHistory LINE { t.bytes with historyIndex := some index } index =
      (t.recallEntry index).bytes := by
  unfold Editor.loadHistory recallEntry
  have hhistory : ({ t.bytes with historyIndex := some index } : Editor).history = t.history := rfl
  rw [hhistory]
  cases hentry : t.history[index]? with
  | none => rfl
  | some entry =>
    have hfits : (encode entry).length ≤ LINE := h.stored entry (List.mem_of_getElem? hentry)
    simp only [bytes, Zipper.text, List.append_nil, if_pos hfits]

theorem bytes_historyUp (h : t.Bounded LINE) :
    ∃ changed, t.bytes.historyUp LINE = (changed, t.historyUp.bytes) := by
  unfold Editor.historyUp historyUp
  show ∃ changed, (if t.history.isEmpty then _ else _) = (changed, _)
  split
  · exact ⟨false, rfl⟩
  · exact ⟨true, Prod.ext rfl (bytes_recallEntry h _)⟩

theorem bytes_historyDown (h : t.Bounded LINE) :
    ∃ changed, t.bytes.historyDown LINE = (changed, t.historyDown.bytes) := by
  unfold Editor.historyDown historyDown
  have hindex : t.bytes.historyIndex = t.recalled := rfl
  rw [hindex]
  cases t.recalled with
  | none => exact ⟨false, rfl⟩
  | some index =>
    show ∃ changed, (if t.history.length ≤ index + 1 then _ else _) = (changed, _)
    simp only
    split
    · exact ⟨true, rfl⟩
    · exact ⟨true, Prod.ext rfl (bytes_recallEntry h _)⟩

theorem bytes_remember (h : t.Bounded LINE) :
    t.bytes.remember LINE HISTORY = (t.remember HISTORY).bytes := by
  unfold Editor.remember remember
  have hline : t.bytes.line = encode t.zipper.text := rfl
  rw [hline, Utf8.decode?_encode]
  have hfits : ¬ LINE < (encode t.zipper.text).length := Nat.not_lt.mpr h.size_le
  have hhistory : t.bytes.history = t.history := rfl
  simp only [hhistory, if_neg hfits]
  cases t.zipper.text.all isWhitespace with
  | true => rfl
  | false =>
    by_cases hlast : t.history.getLast? = some t.zipper.text
    · simp [hlast]
    · simp only [hlast, decide_false, Bool.or_self, Bool.false_eq_true, if_false]
      rfl

/-- A key that ends an escape sequence does the same to bytes and to characters. -/
theorem bytes_finish (h : t.Bounded LINE) (sequence : Str) :
    ∃ ev, t.bytes.finishCsi LINE ((encode sequence).take 8) =
      .ok (ev, (t.finish sequence).bytes) := by
  unfold finish
  split
  · obtain ⟨changed, hup⟩ := bytes_historyUp h
    show ∃ ev, t.bytes.finishCsi LINE [0x41] = _
    simp only [Editor.finishCsi, hup]
    cases changed <;> exact ⟨_, rfl⟩
  · obtain ⟨changed, hdown⟩ := bytes_historyDown h
    show ∃ ev, t.bytes.finishCsi LINE [0x42] = _
    simp only [Editor.finishCsi, hdown]
    cases changed <;> exact ⟨_, rfl⟩
  · show ∃ ev, t.bytes.finishCsi LINE [0x43] = _
    simp only [Editor.finishCsi, t.bytes_next]
    exact ⟨.redraw, by simp only [bytes, t.zipper.right_text]; rfl⟩
  · show ∃ ev, t.bytes.finishCsi LINE [0x44] = _
    simp only [Editor.finishCsi, t.bytes_prev, ok_bind]
    exact ⟨.redraw, by simp only [bytes, t.zipper.left_text]; rfl⟩
  · exact ⟨.redraw, rfl⟩
  · exact ⟨.redraw, rfl⟩
  · exact ⟨.redraw, by simp only [bytes, t.zipper.stop_text]; rfl⟩
  · exact ⟨.redraw, by simp only [bytes, t.zipper.stop_text]; rfl⟩
  · show ∃ ev, t.bytes.finishCsi LINE [0x33, 0x7e] = _
    simp only [Editor.finishCsi, t.bytes_delete, ok_bind]
    cases t.zipper.after.isEmpty <;> exact ⟨_, rfl⟩
  · rename_i hA hB hC hD hH h1 hF h4 h3
    refine ⟨.none, ?_⟩
    unfold Editor.finishCsi
    split
    · rename_i heq
      exact absurd (take_encode (m := ['A']) (by decide) heq) hA
    · rename_i heq
      exact absurd (take_encode (m := ['B']) (by decide) heq) hB
    · rename_i heq
      exact absurd (take_encode (m := ['C']) (by decide) heq) hC
    · rename_i heq
      exact absurd (take_encode (m := ['D']) (by decide) heq) hD
    · rename_i heq
      exact absurd (take_encode (m := ['H']) (by decide) heq) hH
    · rename_i heq
      exact absurd (take_encode (m := ['1', '~']) (by decide) heq) h1
    · rename_i heq
      exact absurd (take_encode (m := ['F']) (by decide) heq) hF
    · rename_i heq
      exact absurd (take_encode (m := ['4', '~']) (by decide) heq) h4
    · rename_i heq
      exact absurd (take_encode (m := ['3', '~']) (by decide) heq) h3
    · rfl

theorem isText {ch : Char} (hlow : 0x20 ≤ ch.toNat) (hdel : ch ≠ '\x7f') :
    ∀ b ∈ String.utf8EncodeChar ch, Editor.IsText b := by
  intro b hb
  rcases Nat.lt_or_ge ch.toNat 128 with h | h
  · rw [Utf8.encodeChar_ascii h, List.mem_singleton] at hb
    subst hb
    refine ⟨?_, ?_⟩
    · rw [UInt8.le_iff_toNat_le, Utf8.toNat_ascii h]
      exact hlow
    · rw [ne_eq, byte_eq_iff h]
      exact fun heq => hdel ((char_eq_iff ch '\x7f').mpr heq)
  · have hhigh := Utf8.encodeChar_high h b hb
    refine ⟨UInt8.le_trans (by decide) hhigh, ?_⟩
    rintro rfl
    exact absurd hhigh (by decide)

/-- The first byte of a character tells an introducer of a sequence. -/
theorem bracket {ch : Char} {b : UInt8} {rest : List UInt8}
    (hch : String.utf8EncodeChar ch = b :: rest) (hne : ¬ (ch = '[' ∨ ch = 'O')) : b ≠ 0x5b ∧
    b ≠ 0x4f := by
  rcases Nat.lt_or_ge ch.toNat 128 with h | h
  · rw [Utf8.encodeChar_ascii h] at hch
    obtain ⟨rfl, -⟩ := List.cons.inj hch
    rw [ne_eq, ne_eq, byte_eq_iff h, byte_eq_iff h]
    rw [char_eq_iff ch '[', char_eq_iff ch 'O', not_or] at hne
    exact hne
  · have hhigh := Utf8.encodeChar_high h b (hch ▸ List.mem_cons_self)
    refine ⟨?_, ?_⟩
    · rintro rfl
      exact absurd hhigh (by decide)
    · rintro rfl
      exact absurd hhigh (by decide)

/-- As many bytes of a character are inserted as there is room for. -/
theorem bytes_type (h : t.Bounded LINE) {ch : Char} (htypes : t.bytes.Types ch) :
    t.bytes.feedAll LINE (String.utf8EncodeChar ch) = .ok
      ⟨encode t.zipper.before ++ (String.utf8EncodeChar ch).take (LINE - t.zipper.size) ++
        encode t.zipper.after,
        (encode t.zipper.before ++ (String.utf8EncodeChar ch).take (LINE - t.zipper.size)).length,
        .normal, t.history, t.recalled, false⟩ := by
  obtain ⟨hcsi, hesc, hlow, hdel⟩ := htypes
  obtain ⟨b, rest, hch, -⟩ := encodeChar_cons ch
  have hsize : t.zipper.size = (encode t.zipper.before ++ encode t.zipper.after).length := by
    rw [← Utf8.encode_append]
    rfl
  have hescape : t.escape.bytes = .normal ∨ t.escape.bytes = .esc ∧ b ≠ 0x5b ∧ b ≠ 0x4f := by
    cases hstate : t.escape with
    | normal => exact .inl rfl
    | esc =>
      have hstate : t.bytes.escape = .esc := by
        show t.escape.bytes = .esc
        rw [hstate]
        rfl
      exact .inr ⟨rfl, bracket hch fun hor => hesc ⟨hstate, hor⟩⟩
    | csi sequence =>
      refine absurd ?_ (hcsi ((encode sequence).take 8))
      show t.escape.bytes = _
      rw [hstate]
      rfl
  have hfits := h.size_le
  have htext := isText hlow hdel
  rw [hsize] at hfits ⊢
  rw [hch] at htext ⊢
  have hline : t.bytes =
    ⟨encode t.zipper.before ++ encode t.zipper.after, (encode t.zipper.before).length,
      t.escape.bytes, t.history, t.recalled, t.afterCr⟩ := by
    rw [← Utf8.encode_append]
    rfl
  rw [hline]
  exact Editor.feedAll_text htext hescape hfits

theorem plain_type {ch : Char} (hlow : 0x20 ≤ ch.toNat) (hdel : ch ≠ '\x7f') :
    t.plain LINE ch = { t with zipper := t.zipper.insert LINE ch, afterCr := false } := by
  have hne : ∀ d : Char, d.toNat < 0x20 → ch ≠ d := by
    intro d hd
    rw [ne_eq, char_eq_iff]
    omega
  unfold plain key
  simp only [hne '\n' (by decide), hne '\x00' (by decide), hne '\r' (by decide),
    hne '\x1b' (by decide), hne '\x01' (by decide), hne '\x05' (by decide), hne '\x15' (by decide),
    hne '\x0b' (by decide),
    hne '\x17' (by decide), hne '\x08' (by decide), hdel, hlow, decide_false, Bool.or_self,
      Bool.and_false, Bool.false_eq_true, if_false, if_true]

theorem bytes_killLeft (t : TextEditor) : ∃ l,
    copyWithin t.bytes.line t.bytes.cursor t.bytes.line.length 0 = .ok l ∧
      pops l t.bytes.cursor = encode t.zipper.after := by
  obtain ⟨l, hcopy, hpops⟩ := copyWithin_remove [] (encode t.zipper.before) (encode t.zipper.after)
  simp only [List.nil_append, List.length_nil, Nat.zero_add] at hcopy hpops
  refine ⟨l, ?_, hpops⟩
  rw [← Utf8.encode_append] at hcopy
  exact hcopy

/-- A key that is not inserted does the same to bytes and to characters. -/
theorem bytes_key {ch : Char} (hascii : ch.toNat < 128) (hkey : ¬ (0x20 ≤ ch.toNat ∧ ch ≠ '\x7f')) :
    ∃ ev, t.bytes.key LINE ch.val.toUInt8 = .ok (ev, (t.key LINE ch).bytes) := by
  have hbyte := byte_eq_iff hascii
  have hlow : 0x20 ≤ ch.val.toUInt8 ↔ 0x20 ≤ ch.toNat := by
    rw [UInt8.le_iff_toNat_le, Utf8.toNat_ascii hascii]
    rfl
  unfold Editor.key key
  simp only [hbyte, char_eq_iff ch, hlow, ne_eq, UInt8.reduceToNat, Char.reduceToNat] at hkey ⊢
  by_cases hret : ch.toNat = 13
  · rw [hret]
    exact ⟨.submit, rfl⟩
  by_cases hlf : ch.toNat = 10
  · rw [hlf]
    exact ⟨.submit, rfl⟩
  by_cases htab : ch.toNat = 9
  · rw [htab]
    exact ⟨.complete, rfl⟩
  by_cases hesc : ch.toNat = 27
  · rw [hesc]
    exact ⟨.none, rfl⟩
  by_cases hetx : ch.toNat = 3
  · rw [hetx]
    exact ⟨.interrupt, rfl⟩
  by_cases hff : ch.toNat = 12
  · rw [hff]
    exact ⟨.clearScreen, rfl⟩
  simp only [if_neg hret, if_neg hlf, if_neg htab, if_neg hesc, if_neg hetx, if_neg hff]
  by_cases hsoh : ch.toNat = 1
  · simp only [if_pos hsoh]
    exact ⟨.redraw, rfl⟩
  by_cases henq : ch.toNat = 5
  · simp only [if_neg hsoh, if_pos henq]
    exact ⟨.redraw, by simp only [bytes, t.zipper.stop_text]; rfl⟩
  by_cases hnak : ch.toNat = 21
  · simp only [if_neg hsoh, if_neg henq, if_pos hnak]
    obtain ⟨l, hcopy, hpops⟩ := t.bytes_killLeft
    split
    · rename_i hzero
      have hlen := Utf8.length_le t.zipper.before
      have hnil : t.zipper.before = [] := List.eq_nil_of_length_eq_zero (by
        rw [show (encode t.zipper.before).length = 0 from hzero] at hlen
        exact Nat.le_zero.mp hlen)
      have hsame : t.zipper.killLeft = t.zipper := by rw [Zipper.killLeft, ← hnil]
      exact ⟨.none, by rw [hsame]; rfl⟩
    · rw [hcopy, ok_bind, hpops]
      exact ⟨.redraw, rfl⟩
  by_cases hvt : ch.toNat = 11
  · simp only [if_neg hsoh, if_neg henq, if_neg hnak, if_pos hvt]
    refine ⟨.redraw, ?_⟩
    have htake : (encode t.zipper.text).take (encode t.zipper.before).length =
        encode t.zipper.killRight.text := by
      simp [Zipper.text, Zipper.killRight]
    simp only [bytes, htake]
    rfl
  by_cases hetb : ch.toNat = 23
  · simp only [if_neg hsoh, if_neg henq, if_neg hnak, if_neg hvt, if_pos hetb]
    obtain ⟨changed, hblank⟩ := t.bytes_eraseWhile blank_iff false
      (Nat.lt_succ_of_le (Utf8.length_le t.zipper.before))
    have hword : ∀ ch b, (String.utf8EncodeChar ch).getLast? = some b →
        (!isAsciiWhitespace b) = (!isBlank ch) := fun ch b hb => congrArg (!·) (blank_iff ch b hb)
    obtain ⟨changed', hrest⟩ := bytes_eraseWhile
      { t with zipper := { t.zipper with before := t.zipper.before.rdropWhile isBlank } } hword
        changed
      (Nat.lt_succ_of_le (Utf8.length_le (t.zipper.before.rdropWhile isBlank)))
    rw [show t.bytes.cursor = (encode t.zipper.before).length from rfl, hblank, ok_bind]
    simp only
    rw [show Editor.cursor _ = (encode (t.zipper.before.rdropWhile isBlank)).length from rfl, hrest,
      ok_bind]
    exact ⟨_, rfl⟩
  simp only [if_neg hsoh, if_neg henq, if_neg hnak, if_neg hvt, if_neg hetb]
  split
  · rw [t.bytes_backspace, ok_bind]
    exact ⟨_, rfl⟩
  · rename_i hdel
    have hnot : ¬ 0x20 ≤ ch.toNat := by
      simp only [Bool.or_eq_true, decide_eq_true_eq] at hdel
      omega
    rw [if_neg hnot, if_neg hnot]
    exact ⟨.none, rfl⟩

theorem control_ascii {ch : Char} (hkey : ¬ (0x20 ≤ ch.toNat ∧ ch ≠ '\x7f')) : ch.toNat < 128 := by
  rw [ne_eq, char_eq_iff ch '\x7f', show '\x7f'.toNat = 127 from rfl] at hkey
  omega

theorem bytes_plain {ch : Char} (hascii : ch.toNat < 128)
    (hkey : ¬ (0x20 ≤ ch.toNat ∧ ch ≠ '\x7f')) :
    ∃ ev, t.bytes.plain LINE ch.val.toUInt8 = .ok (ev, (t.plain LINE ch).bytes) := by
  have hcond : (t.bytes.lastWasCr &&
    (decide (ch.val.toUInt8 = 0x0a) || decide (ch.val.toUInt8 = 0))) =
      (t.afterCr && (decide (ch = '\n') || decide (ch = '\x00'))) := by
    simp only [byte_eq_iff hascii, char_eq_iff ch]
    rfl
  unfold Editor.plain plain
  rw [hcond]
  split
  · exact ⟨.none, rfl⟩
  · exact bytes_key (t := { t with afterCr := false }) hascii hkey

/-- A letter or a tilde ends a sequence. -/
def IsFinal (n : Nat) : Prop := 65 ≤ n ∧ n ≤ 90 ∨ 97 ≤ n ∧ n ≤ 122 ∨ n = 126

theorem final_char (ch : Char) : (ch.isAlpha || decide (ch = '~')) = true ↔ IsFinal ch.toNat := by
  have halpha : ch.isAlpha = (decide ('A'.val ≤ ch.val ∧ ch.val ≤ 'Z'.val) ||
      (decide ('a'.val ≤ ch.val) && decide (ch.val ≤ 'z'.val))) := rfl
  simp only [halpha, Bool.or_eq_true, Bool.and_eq_true, decide_eq_true_eq, UInt32.le_iff_toNat_le,
    char_eq_iff ch, IsFinal, Utf8.toNat_eq, or_assoc]
  rfl

theorem final_byte {ch : Char} (h : ch.toNat < 128) :
    (isAsciiAlphabetic ch.val.toUInt8 || decide (ch.val.toUInt8 = 0x7e)) = true ↔
      IsFinal ch.toNat := by
  simp only [isAsciiAlphabetic, Bool.or_eq_true, Bool.and_eq_true, decide_eq_true_eq,
    UInt8.le_iff_toNat_le, byte_eq_iff h, Utf8.toNat_ascii h, IsFinal, or_assoc]
  rfl

/-- A character inside an escape sequence. -/
theorem bytes_csi (h : t.Bounded LINE) {sequence : Str} (hescape : t.escape = .csi sequence)
    (ch : Char) :
    t.bytes.feedAll LINE (String.utf8EncodeChar ch) = .ok (t.press LINE ch).bytes := by
  obtain ⟨zipper, escape, history, recalled, cr⟩ := t
  obtain rfl : escape = .csi sequence := hescape
  have hkept : ((encode sequence).take 8).length ≤ 8 := List.length_take_le _ _
  have hnext : ((encode sequence).take 8 ++ String.utf8EncodeChar ch).take 8 =
      (encode (sequence ++ [ch])).take 8 := by
    rw [Editor.take_take_append]
    simp
  rcases Nat.lt_or_ge ch.toNat 128 with hascii | hhigh
  · rw [Utf8.encodeChar_ascii hascii] at hnext ⊢
    have hfinal : (isAsciiAlphabetic ch.val.toUInt8 || decide (ch.val.toUInt8 = 0x7e)) =
        (ch.isAlpha || decide (ch = '~')) :=
          Bool.eq_iff_iff.mpr ((final_byte hascii).trans (final_char ch).symm)
    have hbounded : (⟨zipper, .normal, history, recalled, cr⟩ : TextEditor).Bounded LINE :=
      ⟨h.size_le, h.stored⟩
    obtain ⟨ev, hfinish⟩ := bytes_finish hbounded (sequence ++ [ch])
    have hfeed : (bytes ⟨zipper, .csi sequence, history, recalled, cr⟩).feed LINE ch.val.toUInt8 =
        if (isAsciiAlphabetic ch.val.toUInt8 || decide (ch.val.toUInt8 = 0x7e)) = true then
          (bytes ⟨zipper, .normal, history, recalled, cr⟩).finishCsi LINE
            ((push 8 ((encode sequence).take 8) ch.val.toUInt8).getD ((encode sequence).take 8))
        else .ok (.none, { bytes ⟨zipper, .normal, history, recalled, cr⟩ with
          escape := .csi ((push 8 ((encode sequence).take 8) ch.val.toUInt8).getD
            ((encode sequence).take 8)) }) :=
      rfl
    rw [hfinal, Editor.push_eight hkept, hnext] at hfeed
    simp only [press]
    split
    · rename_i hlast
      rw [if_pos hlast, hfinish] at hfeed
      exact Editor.feedAll_one hfeed
    · rename_i hlast
      rw [if_neg hlast] at hfeed
      exact Editor.feedAll_one hfeed
  · have hfinal : (ch.isAlpha || decide (ch = '~')) = false := by
      rw [← Bool.not_eq_true, final_char, IsFinal]
      omega
    have hpress : (⟨zipper, .csi sequence, history, recalled, cr⟩ : TextEditor).press LINE ch =
        ⟨zipper, .csi (sequence ++ [ch]), history, recalled, cr⟩ := by
      simp only [press, hfinal, Bool.false_eq_true, if_false]
    rw [hpress]
    show Editor.feedAll LINE ⟨_, _, .csi ((encode sequence).take 8), _, _, _⟩ _ = _
    rw [Editor.feedAll_csi (Utf8.encodeChar_high hhigh) hkept, hnext]
    rfl

theorem press_type {ch : Char} (htypes : t.bytes.Types ch) :
    t.press LINE ch =
      { t with zipper := t.zipper.insert LINE ch, escape := .normal, afterCr := false } := by
  obtain ⟨hcsi, hesc, hlow, hdel⟩ := htypes
  obtain ⟨zipper, escape, history, recalled, cr⟩ := t
  cases escape with
  | normal => exact plain_type hlow hdel
  | esc =>
    have hne : (decide (ch = '[') || decide (ch = 'O')) = false := by
      rw [← Bool.not_eq_true, Bool.or_eq_true, decide_eq_true_eq, decide_eq_true_eq]
      exact fun hor => hesc ⟨rfl, hor⟩
    simp only [press, hne, Bool.false_eq_true, if_false]
    exact plain_type hlow hdel
  | csi sequence => exact absurd rfl (hcsi ((encode sequence).take 8))

/-- A keystroke does the same to bytes and to characters, if its character is inserted whole or not
at all. -/
theorem bytes_press (h : t.Bounded LINE) {ch : Char} (hfits : t.bytes.Fits LINE (.key ch)) :
    t.bytes.feedAll LINE (String.utf8EncodeChar ch) = .ok (t.press LINE ch).bytes := by
  by_cases htypes : t.bytes.Types ch
  · rw [bytes_type h htypes, press_type htypes]
    have hlen := String.length_utf8EncodeChar ch
    have hpos := ch.utf8Size_pos
    rcases (show t.zipper.size + ch.utf8Size ≤ LINE ∨
      t.zipper.size = LINE from hfits htypes) with hroom | hfull
    · rw [List.take_of_length_le (by omega), Zipper.insert, if_pos hroom]
      simp [bytes, Zipper.text, Escape.bytes]
    · rw [hfull, Nat.sub_self, List.take_zero, Zipper.insert, if_neg (by omega)]
      simp [bytes, Zipper.text, Escape.bytes]
  obtain ⟨zipper, escape, history, recalled, cr⟩ := t
  cases escape with
  | csi sequence => exact bytes_csi h rfl ch
  | normal =>
    have hkey : ¬ (0x20 ≤ ch.toNat ∧ ch ≠ '\x7f') :=
      fun hkey => htypes ⟨nofun, nofun, hkey.1, hkey.2⟩
    have hascii := control_ascii hkey
    obtain ⟨ev, hplain⟩ := bytes_plain (t := ⟨zipper, .normal, history, recalled, cr⟩) hascii hkey
    rw [Utf8.encodeChar_ascii hascii]
    exact Editor.feedAll_one hplain
  | esc =>
    by_cases hbracket : ch = '[' ∨ ch = 'O'
    · rcases hbracket with rfl | rfl <;> rfl
    · have hkey : ¬ (0x20 ≤ ch.toNat ∧ ch ≠ '\x7f') :=
        fun hkey => htypes ⟨nofun, fun hesc => hbracket hesc.2, hkey.1, hkey.2⟩
      have hascii := control_ascii hkey
      obtain ⟨hopen, hletter⟩ := bracket (Utf8.encodeChar_ascii hascii) hbracket
      obtain ⟨ev, hplain⟩ := bytes_plain (t := ⟨zipper, .normal, history, recalled, cr⟩) hascii hkey
      have hfeed : (bytes ⟨zipper, .esc, history, recalled, cr⟩).feed LINE ch.val.toUInt8 =
          (bytes ⟨zipper, .normal, history, recalled, cr⟩).plain LINE ch.val.toUInt8 :=
        if_neg (by rw [decide_eq_false hopen, decide_eq_false hletter]; decide)
      have hpress : (⟨zipper, .esc, history, recalled, cr⟩ : TextEditor).press LINE ch =
          (⟨zipper, .normal, history, recalled, cr⟩ : TextEditor).plain LINE ch :=
        if_neg (by simpa using hbracket)
      rw [Utf8.encodeChar_ascii hascii, hpress]
      exact Editor.feedAll_one (hfeed.trans hplain)

theorem Bounded.sublist (h : t.Bounded LINE) {zipper : Zipper}
    (hsub : zipper.text.Sublist t.zipper.text) (escape : Escape) (recalled : Option Nat)
    (cr : Bool) :
    (⟨zipper, escape, t.history, recalled, cr⟩ : TextEditor).Bounded LINE where
  size_le := Nat.le_trans (Utf8.length_sublist hsub) h.size_le
  stored := h.stored

theorem Bounded.before (h : t.Bounded LINE) {before : Str} (hsub : before.Sublist t.zipper.before) :
    ({ t with zipper := { t.zipper with before } } : TextEditor).Bounded LINE :=
  h.sublist (hsub.append (List.Sublist.refl _)) _ _ _

theorem Bounded.after (h : t.Bounded LINE) {after : Str} (hsub : after.Sublist t.zipper.after) :
    ({ t with zipper := { t.zipper with after } } : TextEditor).Bounded LINE := by
  have htext : ({ t.zipper with after } : Zipper).text.Sublist t.zipper.text :=
    (List.Sublist.refl t.zipper.before).append hsub
  exact h.sublist htext _ _ _

theorem Bounded.recallEntry (h : t.Bounded LINE) (index : Nat) :
    (t.recallEntry index).Bounded LINE where
  size_le := by
    unfold TextEditor.recallEntry Zipper.size Zipper.text
    simp only
    cases hentry : t.history[index]? with
    | none => exact h.size_le
    | some entry =>
      simp only [List.append_nil]
      exact h.stored entry (List.mem_of_getElem? hentry)
  stored := h.stored

theorem Bounded.clear (h : t.Bounded LINE) : t.clear.Bounded LINE := ⟨Nat.zero_le _, h.stored⟩

theorem Bounded.remember (h : t.Bounded LINE) : (t.remember HISTORY).Bounded LINE := by
  have hpush : ∀ history : List Str, (∀ text ∈ history, (encode text).length ≤ LINE) →
      ∀ text ∈ (push HISTORY history t.zipper.text).getD history, (encode text).length ≤ LINE := by
    intro history hkept
    unfold push
    split
    · intro text htext
      rcases List.mem_append.mp htext with htext | htext
      · exact hkept text htext
      · rw [List.mem_singleton.mp htext]
        exact h.size_le
    · exact hkept
  unfold TextEditor.remember
  simp only
  split
  · exact h
  · refine ⟨h.size_le, hpush _ ?_⟩
    intro text htext
    split at htext
    · exact h.stored text (List.mem_of_mem_drop htext)
    · exact h.stored text htext

theorem Bounded.finish (h : t.Bounded LINE) (sequence : Str) :
    (t.finish sequence).Bounded LINE := by
  have hsame : ∀ zipper : Zipper, zipper.text = t.zipper.text →
      ({ t with zipper } : TextEditor).Bounded LINE :=
    fun zipper heq => h.sublist (heq ▸ List.Sublist.refl _) _ _ _
  unfold TextEditor.finish
  split
  · unfold TextEditor.historyUp
    split
    · exact h
    · exact h.recallEntry _
  · unfold TextEditor.historyDown
    split
    · exact h
    split
    · exact h.clear
    · exact h.recallEntry _
  · exact hsame _ t.zipper.right_text
  · exact hsame _ t.zipper.left_text
  · exact hsame _ rfl
  · exact hsame _ rfl
  · exact hsame _ t.zipper.stop_text
  · exact hsame _ t.zipper.stop_text
  · exact h.after (List.tail_sublist _)
  · exact h

theorem Bounded.key (h : t.Bounded LINE) (ch : Char) : (t.key LINE ch).Bounded LINE := by
  unfold TextEditor.key
  split
  · exact ⟨h.size_le, h.stored⟩
  split
  · exact ⟨h.size_le, h.stored⟩
  split
  · exact ⟨h.size_le, h.stored⟩
  split
  · exact h.sublist (t.zipper.stop_text ▸ List.Sublist.refl _) _ _ _
  split
  · exact h.before (List.nil_sublist _)
  split
  · exact h.after (List.nil_sublist _)
  split
  · exact h.before ((List.rdropWhile_prefix _ _).sublist.trans (List.rdropWhile_prefix _ _).sublist)
  split
  · exact h.before (List.dropLast_sublist _)
  split
  · refine ⟨?_, h.stored⟩
    show (t.zipper.insert LINE ch).size ≤ LINE
    unfold Zipper.insert
    split
    · rename_i hroom
      refine Nat.le_trans (Nat.le_of_eq ?_) hroom
      simp only [Zipper.size, Zipper.text, Utf8.encode_append, Utf8.encode_cons, Utf8.encode_nil,
        List.append_nil, List.length_append, String.length_utf8EncodeChar]
      omega
    · exact h.size_le
  · exact h

theorem Bounded.press (h : t.Bounded LINE) (ch : Char) : (t.press LINE ch).Bounded LINE := by
  have hplain : ∀ t : TextEditor, t.Bounded LINE → (t.plain LINE ch).Bounded LINE := by
    intro t h
    unfold TextEditor.plain
    split
    · exact ⟨h.size_le, h.stored⟩
    · exact Bounded.key (t := { t with afterCr := false }) ⟨h.size_le, h.stored⟩ ch
  unfold TextEditor.press
  split
  · split
    · exact ⟨h.size_le, h.stored⟩
    · exact hplain _ ⟨h.size_le, h.stored⟩
  · split
    · exact Bounded.finish (t := { t with escape := .normal }) ⟨h.size_le, h.stored⟩ _
    · exact ⟨h.size_le, h.stored⟩
  · exact hplain t h

theorem Bounded.step (h : t.Bounded LINE) (s : Stroke) : (t.step LINE HISTORY s).Bounded LINE := by
  cases s with
  | key ch => exact h.press ch
  | remember => exact h.remember
  | clear => exact h.clear

theorem bytes_step (h : t.Bounded LINE) {s : Stroke} (hfits : t.bytes.Fits LINE s) :
    t.bytes.step LINE HISTORY s = .ok (t.step LINE HISTORY s).bytes := by
  cases s with
  | key ch => exact bytes_press h hfits
  | remember => exact congrArg Except.ok (bytes_remember h)
  | clear => rfl

theorem bytes_partial (HISTORY : Nat) (h : t.Bounded LINE) {s : Stroke}
    (hpart : ¬ t.bytes.Fits LINE s) :
    ∃ e, t.bytes.step LINE HISTORY s = .ok e ∧ ∀ text, e.line ≠ encode text := by
  cases s with
  | remember => exact absurd trivial hpart
  | clear => exact absurd trivial hpart
  | key ch =>
    rw [Editor.Fits, Classical.not_imp, not_or] at hpart
    obtain ⟨htypes, hroom, hfull⟩ := hpart
    have hsize : t.bytes.line.length = t.zipper.size := rfl
    have hle := h.size_le
    refine ⟨_, bytes_type h htypes, fun text heq => ?_⟩
    have hline : encode t.zipper.before ++
      ((String.utf8EncodeChar ch).take (LINE - t.zipper.size) ++
        encode t.zipper.after) = encode text := by
      rw [← List.append_assoc]
      exact heq
    exact Utf8.partial_ne (by omega) (by omega) hline

end TextEditor

namespace Editor

variable {LINE HISTORY : Nat}

theorem steps_append (e : Editor) (strokes strokes' : List Stroke) :
    e.steps LINE HISTORY (strokes ++ strokes') =
      e.steps LINE HISTORY strokes >>= fun e => e.steps LINE HISTORY strokes' := by
  induction strokes generalizing e with
  | nil => rfl
  | cons s strokes ih =>
    rw [List.cons_append, steps, steps]
    cases e.step LINE HISTORY s with
    | error p => rfl
    | ok e' => exact ih e'

theorem run_concat {strokes : List Stroke} {s : Stroke} {e : Editor}
    (h : run LINE HISTORY strokes = .ok e) : run LINE HISTORY (strokes ++ [s]) =
      e.step LINE HISTORY s := by
  rw [run, steps_append, show steps LINE HISTORY new strokes = .ok e from h, ok_bind, steps]
  cases e.step LINE HISTORY s <;> rfl

/-- Every keystroke so far inserted its character whole or not at all. -/
def AllFit (LINE HISTORY : Nat) (strokes : List Stroke) : Prop :=
  ∀ done s, done ++ [s] <+: strokes → ∀ e, run LINE HISTORY done = .ok e → e.Fits LINE s

theorem AllFit.init {strokes : List Stroke} {s : Stroke}
    (h : AllFit LINE HISTORY (strokes ++ [s])) : AllFit LINE HISTORY strokes :=
  fun done s' hdone => h done s' (hdone.trans (List.prefix_append _ _))

theorem run_bytes {strokes : List Stroke} (h : AllFit LINE HISTORY strokes) :
    run LINE HISTORY strokes = .ok (TextEditor.run LINE HISTORY strokes).bytes ∧
      (TextEditor.run LINE HISTORY strokes).Bounded LINE := by
  induction strokes using List.reverseRecOn with
  | nil => exact ⟨rfl, ⟨Nat.zero_le _, List.forall_mem_nil _⟩⟩
  | append_singleton strokes s ih =>
    obtain ⟨hrun, hbounded⟩ := ih h.init
    have hfits := h strokes s (List.prefix_refl _) _ hrun
    have hnext : TextEditor.run LINE HISTORY (strokes ++ [s]) =
        (TextEditor.run LINE HISTORY strokes).step LINE HISTORY s := List.foldl_concat ..
    rw [run_concat hrun, hnext]
    exact ⟨TextEditor.bytes_step hbounded hfits, hbounded.step s⟩

/-- The editor shows the text and the cursor of an editor of characters after every keystroke,
exactly if no keystroke inserts a character in part. -/
theorem edits_refine (LINE HISTORY : Nat) (strokes : List Stroke) :
    (∀ done, done <+: strokes → ∃ e, run LINE HISTORY done = .ok e ∧
      e.Shows LINE (TextEditor.run LINE HISTORY done).zipper) ↔ AllFit LINE HISTORY strokes := by
  constructor
  · intro hshows
    induction strokes using List.reverseRecOn with
    | nil => exact fun done s hdone => absurd (List.prefix_nil.mp hdone) (by simp)
    | append_singleton strokes s ih =>
      have hinit := ih fun done hdone => hshows done (hdone.trans (List.prefix_append _ _))
      obtain ⟨hrun, hbounded⟩ := run_bytes hinit
      intro done s' hdone e he
      rcases List.prefix_concat_iff.mp hdone with heq | hdone
      · obtain ⟨rfl, rfl⟩ := List.append_singleton_inj.mp heq
        obtain rfl := Except.ok.inj (he.symm.trans hrun)
        by_contra hpart
        obtain ⟨e', hstep, hline⟩ := TextEditor.bytes_partial HISTORY hbounded hpart
        obtain ⟨e'', hrun', hshow⟩ := hshows _ (List.prefix_refl _)
        rw [run_concat hrun, hstep] at hrun'
        obtain rfl := Except.ok.inj hrun'
        exact hline _ hshow.line
      · exact hinit done s' hdone e he
  · intro hfit done hdone
    obtain ⟨hrun, hbounded⟩ := run_bytes fun done' s hdone' => hfit done' s (hdone'.trans hdone)
    exact ⟨_, hrun, rfl, rfl, hbounded.size_le⟩

/-- A character of two bytes in the last byte of room. -/
theorem half_inserted : ∃ e, run 2 1 [.key 'a', .key 'é'] = .ok e ∧
    ∀ text, e.line ≠ Utf8.encode text := by
  have hrun : run 2 1 [.key 'a'] = .ok (TextEditor.run 2 1 [.key 'a']).bytes := rfl
  have hbounded : (TextEditor.run 2 1 [.key 'a']).Bounded 2 := ⟨by decide, List.forall_mem_nil _⟩
  have hpart : ¬ (TextEditor.run 2 1 [.key 'a']).bytes.Fits 2 (.key 'é') := by
    intro hfits
    exact absurd (hfits ⟨nofun, nofun, by decide, by decide⟩) (by decide)
  obtain ⟨e, hstep, hline⟩ := TextEditor.bytes_partial 1 hbounded hpart
  exact ⟨e, (run_concat hrun).trans hstep, hline⟩

end Editor

end Microtun.Cli
