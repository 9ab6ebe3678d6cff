import Mathlib.Data.List.TakeWhile
import Microtun.Cli.Completion
import Microtun.Cli.Reference

/-! The words that the completer takes a line apart into are the tokens of the lexer. -/

namespace Microtun.Cli

open Completion (wordLength logicalFrom)

namespace Reference

/-- What the reference lexer has read of a text, of any number of tokens: those that ended, and the
word that did not. -/
def read (tokens : List (List UInt8)) : Option Word → List UInt8 → List (List UInt8) × Option Word
  | current, [] => (tokens, current)
  | current, b :: rest =>
    let w := current.getD ⟨[], none⟩
    if w.quote = some b then read tokens (some { w with quote := none }) rest
    else if b = backslash then
      match rest with
      | [] => (tokens, some w)
      | c :: rest => read tokens (some { w with text := w.text ++ [c] }) rest
    else if w.quote = none ∧ isQuote b then read tokens (some { w with quote := some b }) rest
    else if w.quote = none ∧ isSpace b then
      match current with
      | none => read tokens none rest
      | some w => read (tokens ++ [w.text]) none rest
    else read tokens (some { w with text := w.text ++ [b] }) rest

/-- The tokens before the word at the end of a text, or before the last one that there is room for.
-/
def before (text : List UInt8) : List (List UInt8) :=
  let (tokens, current) := read [] none text
  if maxTokens < tokens.length + current.toList.length then tokens.take (maxTokens - 1) else tokens

/-- How a word ends that is at the end of a line. -/
def close : Option UInt8 → List UInt8 → Except ParseErrorKind Unit
  | none, [] => .ok ()
  | some _, [] => .error .unterminatedQuote
  | quote, b :: rest =>
    if quote = some b then close none rest
    else if b = backslash then
      match rest with
      | [] => .error .trailingEscape
      | _ :: rest => close quote rest
    else if quote = none ∧ isQuote b then close (some b) rest
    else close quote rest

theorem read_cons (tokens : List (List UInt8)) (w : Word) (b : UInt8) (rest : List UInt8) :
    read tokens (some w) (b :: rest) =
      if w.quote = some b then read tokens (some { w with quote := none }) rest
      else if b = backslash then
        match rest with
        | [] => (tokens, some w)
        | c :: rest => read tokens (some { w with text := w.text ++ [c] }) rest
      else if w.quote = none ∧ isQuote b then read tokens (some { w with quote := some b }) rest
      else if w.quote = none ∧ isSpace b then read (tokens ++ [w.text]) none rest
      else read tokens (some { w with text := w.text ++ [b] }) rest := by
  rw [read.eq_def]
  rfl

theorem read_blank (tokens : List (List UInt8)) {b : UInt8} (h : isSpace b = true)
    (rest : List UInt8) : read tokens none (b :: rest) = read tokens none rest := by
  rw [read.eq_def]
  simp [backslash_ne (.inl h), not_isQuote h, h]

theorem read_start (tokens : List (List UInt8)) {b : UInt8} (h : isSpace b = false)
    (rest : List UInt8) :
    read tokens none (b :: rest) = read tokens (some ⟨[], none⟩) (b :: rest) := by
  rw [read_cons, read.eq_def]
  simp [h]

theorem close_cons (quote : Option UInt8) (b : UInt8) (rest : List UInt8) :
    close quote (b :: rest) =
    if quote = some b then close none rest
    else if b = backslash then
      match rest with
      | [] => .error .trailingEscape
      | _ :: rest => close quote rest
    else if quote = none ∧ isQuote b then close (some b) rest
    else close quote rest := by
  cases quote <;> cases rest <;> rfl

theorem logicalFrom_cons (quote : Option UInt8) (b : UInt8) (rest : List UInt8) :
    logicalFrom quote (b :: rest) =
    if quote = some b then logicalFrom none rest
    else if b = backslash then
      match rest with
      | [] => []
      | escaped :: rest => escaped :: logicalFrom quote rest
    else if quote = none ∧ isQuote b then logicalFrom (some b) rest
    else b :: logicalFrom quote rest := by
  cases rest <;> rfl

theorem wordLength_cons (quote : Option UInt8) (b : UInt8) (rest : List UInt8) :
    wordLength quote (b :: rest) =
    if quote = some b then wordLength none rest + 1
    else if b = backslash then
      match rest with
      | [] => 1
      | _ :: rest => wordLength quote rest + 2
    else if quote = none ∧ isQuote b then wordLength (some b) rest + 1
    else if quote = none ∧ isSpace b then 0
    else wordLength quote rest + 1 := by
  cases quote with
  | none =>
    by_cases hquote : isQuote b = true
    · cases rest <;> simp [wordLength, hquote, backslash_ne (.inr hquote)]
    · cases rest <;> simp [wordLength, hquote]
  | some q =>
    by_cases hq : b = q
    · cases rest <;> simp [wordLength, hq]
    · cases rest <;> simp [wordLength, hq, Ne.symm hq]

/-- The bytes of a word, one after the other: each ends a quote, escapes the next, begins a quote,
ends the word or is part of the text. -/
theorem word_induct {P : Option UInt8 → List UInt8 → Prop} (nil : ∀ quote, P quote [])
    (close : ∀ b rest, P none rest → P (some b) (b :: rest))
    (trailing : ∀ quote, quote ≠ some backslash → P quote [backslash])
    (escape : ∀ quote c rest, quote ≠ some backslash → P quote rest →
      P quote (backslash :: c :: rest))
    (quote : ∀ b rest, b ≠ backslash → isQuote b = true → P (some b) rest → P none (b :: rest))
    (blank : ∀ b rest, b ≠ backslash → isQuote b = false → isSpace b = true → P none (b :: rest))
    (copy : ∀ quote b rest, quote ≠ some b → b ≠ backslash → ¬(quote = none ∧ isQuote b) →
      ¬(quote = none ∧ isSpace b) → P quote rest → P quote (b :: rest)) :
    ∀ quote rest, P quote rest := by
  intro q rest
  fun_induction wordLength q rest with
  | case1 q => exact nil q
  | case2 b rest ih => exact close b rest ih
  | case3 q h => exact trailing _ (fun heq => h (Option.some.inj heq).symm)
  | case4 q c rest h ih => exact escape _ c rest (fun heq => h (Option.some.inj heq).symm) ih
  | case5 q b rest hq hb ih =>
    exact copy _ b rest (fun heq => hq (Option.some.inj heq).symm) hb nofun nofun ih
  | case6 b rest hb ih => exact quote b rest (backslash_ne (.inr hb)) hb ih
  | case7 _ => exact trailing none nofun
  | case8 c rest _ ih => exact escape none c rest nofun ih
  | case9 b rest hquote hb hspace =>
    exact blank b rest hb (Bool.eq_false_of_not_eq_true hquote) hspace
  | case10 b rest hquote hb hspace ih =>
    exact copy none b rest nofun hb (fun h => hquote h.2) (fun h => hspace h.2) ih

theorem lex_word (tokens : List (List UInt8)) (text : List UInt8) (quote : Option UInt8)
    (rest : List UInt8) :
    lex tokens (some ⟨text, quote⟩) rest = (do
      close quote (rest.take (wordLength quote rest))
      let tokens ← push tokens (text ++ logicalFrom quote (rest.take (wordLength quote rest)))
      lex tokens none (rest.drop (wordLength quote rest))) := by
  induction quote, rest using word_induct generalizing text with
  | nil quote =>
    cases quote <;> simp [close, logicalFrom, lex_nil] <;> rfl
  | close b rest ih => simp [lex_cons, wordLength_cons, close_cons, logicalFrom_cons, ih]
  | trailing quote h => 
    simp only [lex_cons, h, if_false, if_true]
    simp [wordLength_cons, close_cons, h, Bind.bind, Except.bind]
  | escape quote c rest h ih =>
    simp [lex_cons, wordLength_cons, close_cons, logicalFrom_cons, h, ih]
  | quote b rest hb hquote ih =>
    simp [lex_cons, wordLength_cons, close_cons, logicalFrom_cons, hb, hquote, ih]
  | blank b rest hb hquote hspace =>
    simp [lex_cons, wordLength_cons, close, logicalFrom, hb, hquote, hspace, lex_blank]; rfl
  | copy quote b rest h hb hquote hspace ih =>
    simp [lex_cons, wordLength_cons, close_cons, logicalFrom_cons, h, hb, hquote, hspace, ih]

theorem read_nil (tokens : List (List UInt8)) (current : Option Word) : read tokens current [] =
    (tokens, current) := by
  cases current <;> rfl

/-- How reading goes on after a word: there is nothing after it, or a blank that ends it. -/
def Ends (quote : Option UInt8) (rest raw tail : List UInt8) : Prop :=
  (tail = [] ∧ ∀ tokens text, ∃ w, read tokens (some ⟨text, quote⟩) rest = (tokens, some w)) ∨
    ∃ b more, tail = b :: more ∧ isSpace b = true ∧ close quote raw = .ok () ∧
      ∀ tokens text, read tokens (some ⟨text, quote⟩) rest =
        read (tokens ++ [text ++ logicalFrom quote raw]) none tail

theorem Ends.copy {quote : Option UInt8} {rest raw tail rest' raw' : List UInt8} {b : UInt8}
    (h : Ends quote rest raw tail) (hread : ∀ tokens text, read tokens (some ⟨text, quote⟩) rest' =
      read tokens (some ⟨text ++ [b], quote⟩) rest) (hclose : close quote raw' = close quote raw)
    (hlogical : logicalFrom quote raw' = b :: logicalFrom quote raw) :
    Ends quote rest' raw' tail := by
  rcases h with ⟨htail, hend⟩ | ⟨b', more, htail, hspace, hok, hnext⟩
  · refine .inl ⟨htail, fun tokens text => ?_⟩
    rw [hread]
    exact hend tokens _
  · refine .inr ⟨b', more, htail, hspace, hclose.trans hok, fun tokens text => ?_⟩
    rw [hread, hnext, hlogical, List.append_assoc text, List.singleton_append]

theorem Ends.move {quote quote' : Option UInt8} {rest raw tail rest' raw' : List UInt8}
    (h : Ends quote rest raw tail) (hread : ∀ tokens text, read tokens (some ⟨text, quote'⟩) rest' =
      read tokens (some ⟨text, quote⟩) rest) (hclose : close quote' raw' = close quote raw)
    (hlogical : logicalFrom quote' raw' = logicalFrom quote raw) : Ends quote' rest' raw' tail := by
  rcases h with ⟨htail, hend⟩ | ⟨b', more, htail, hspace, hok, hnext⟩
  · exact .inl ⟨htail, fun tokens text => hread tokens text ▸ hend tokens text⟩
  · exact .inr ⟨b', more, htail, hspace, hclose.trans hok,
      fun tokens text => by rw [hread, hnext, hlogical]⟩

theorem word_ends (quote : Option UInt8) (rest : List UInt8) :
    Ends quote rest (rest.take (wordLength quote rest)) (rest.drop (wordLength quote rest)) := by
  induction quote, rest using word_induct with
  | nil quote => exact .inl ⟨rfl, fun tokens text => ⟨_, read_nil _ _⟩⟩
  | close b rest ih =>
    simp only [wordLength_cons, if_true, List.take_succ_cons, List.drop_succ_cons]
    exact ih.move (fun tokens text => by simp [read_cons]) (by simp [close_cons])
      (by simp [logicalFrom_cons])
  | trailing quote h =>
    refine .inl ⟨by simp [wordLength_cons, h], fun tokens text => ⟨⟨text, quote⟩, ?_⟩⟩
    simp only [read_cons, h, if_false, if_true]
  | escape quote c rest h ih =>
    simp only [wordLength_cons, h, if_false, if_true, List.take_succ_cons, List.drop_succ_cons]
    exact ih.copy (b := c) (fun tokens text => by simp [read_cons, h]) (by simp [close_cons, h])
      (by simp [logicalFrom_cons, h])
  | quote b rest hb hquote ih =>
    simp only [wordLength_cons, hb, hquote, reduceCtorEq, if_false, true_and, if_true,
      List.take_succ_cons, List.drop_succ_cons]
    exact ih.move (fun tokens text => by simp [read_cons, hb, hquote])
      (by simp [close_cons, hb, hquote])
      (by simp [logicalFrom_cons, hb, hquote])
  | blank b rest hb hquote hspace =>
    refine .inr ⟨b, rest, by simp [wordLength_cons, hb, hquote, hspace], hspace, ?_⟩
    simp [read_cons, wordLength_cons, close, logicalFrom, hb, hquote, hspace, read_blank]
  | copy quote b rest h hb hquote hspace ih =>
    simp only [wordLength_cons, h, hb, hquote, hspace, if_false, List.take_succ_cons,
      List.drop_succ_cons]
    exact ih.copy (b := b) (fun tokens text => by simp [read_cons, h, hb, hquote, hspace])
      (by simp [close_cons, h, hb, hquote]) (by simp [logicalFrom_cons, h, hb, hquote])

theorem prefix_read (tokens : List (List UInt8)) (current : Option Word) (rest : List UInt8) :
    tokens <+: (read tokens current rest).1 := by
  fun_induction read tokens current rest with
  | case1 | case3 => exact List.prefix_refl _
  | case2 | case4 | case5 | case6 | case8 => assumption
  | case7 tokens b rest _ w _ _ _ _ ih => exact (List.prefix_append tokens [w.text]).trans ih

theorem wordLength_take {quote : Option UInt8} {rest tail : List UInt8} {b b' : UInt8}
    (hrest : rest.drop (wordLength quote rest) = b :: tail) (hb' : isSpace b' = true)
    (more : List UInt8) :
    wordLength quote (rest.take (wordLength quote rest) ++ b' :: more) = wordLength quote rest := by
  induction quote, rest using word_induct with
  | nil quote => exact nomatch hrest
  | close b rest ih =>
    simp only [wordLength_cons, if_true, List.take_succ_cons, List.drop_succ_cons,
      List.cons_append] at hrest ⊢
    rw [ih hrest]
  | trailing quote h => simp [wordLength_cons, h] at hrest
  | escape quote c rest h ih =>
    simp only [wordLength_cons, h, if_false, if_true, List.take_succ_cons, List.drop_succ_cons,
      List.cons_append] at hrest ⊢
    rw [ih hrest]
  | quote b rest hb hquote ih =>
    simp only [wordLength_cons, hb, hquote, reduceCtorEq, if_false, true_and, if_true,
      List.take_succ_cons, List.drop_succ_cons, List.cons_append] at hrest ⊢
    rw [ih hrest]
  | blank b rest hb hquote hspace =>
    simp [wordLength_cons, hb, hquote, hspace, backslash_ne (.inl hb'), not_isQuote hb', hb']
  | copy quote b rest h hb hquote hspace ih =>
    simp only [wordLength_cons, h, hb, hquote, hspace, if_false, List.take_succ_cons,
      List.drop_succ_cons, List.cons_append] at hrest ⊢
    rw [ih hrest]

theorem lex_blanks (tokens : List (List UInt8)) {blanks : List UInt8}
    (h : ∀ b ∈ blanks, isSpace b = true) (rest : List UInt8) : lex tokens none (blanks ++ rest) =
    lex tokens none rest := by
  induction blanks with
  | nil => rfl
  | cons b blanks ih =>
    obtain ⟨hb, hblanks⟩ := List.forall_mem_cons.mp h
    rw [List.cons_append, lex_blank tokens hb, ih hblanks]

theorem read_blanks (tokens : List (List UInt8)) {blanks : List UInt8}
    (h : ∀ b ∈ blanks, isSpace b = true) (rest : List UInt8) : read tokens none (blanks ++ rest) =
    read tokens none rest := by
  induction blanks with
  | nil => rfl
  | cons b blanks ih =>
    obtain ⟨hb, hblanks⟩ := List.forall_mem_cons.mp h
    rw [List.cons_append, read_blank tokens hb, ih hblanks]

theorem lex_first {tokens : List (List UInt8)} {rest more : List UInt8} {byte : UInt8}
    (h : rest.dropWhile isSpace = byte :: more) :
    lex tokens none rest = (do
      close none ((byte :: more).take (wordLength none (byte :: more)))
      let tokens ← push tokens
        (logicalFrom none ((byte :: more).take (wordLength none (byte :: more))))
      lex tokens none ((byte :: more).drop (wordLength none (byte :: more)))) := by
  rw [← List.takeWhile_append_dropWhile (p := isSpace) (l := rest), h,
    lex_blanks tokens (fun _ hb => List.mem_takeWhile_imp hb),
      lex_start tokens (Completion.isSpace_of_dropWhile h), lex_word, List.nil_append]

theorem read_first {tokens : List (List UInt8)} {rest more : List UInt8} {byte : UInt8}
    (h : rest.dropWhile isSpace = byte :: more) :
    read tokens none rest = read tokens (some ⟨[], none⟩) (byte :: more) := by
  rw [← List.takeWhile_append_dropWhile (p := isSpace) (l := rest), h,
    read_blanks tokens (fun _ hb => List.mem_takeWhile_imp hb),
    read_start tokens (Completion.isSpace_of_dropWhile h)]

/-- Before a blank, a word with no quote left open is a token. -/
theorem lex_taken {tokens : List (List UInt8)} {rest tail more : List UInt8} {b b' byte : UInt8}
    (hbyte : isSpace byte = false)
    (hrest : (byte :: rest).drop (wordLength none (byte :: rest)) = b :: tail)
    (htokens : tokens.length < maxTokens) (hb' : isSpace b' = true) :
    lex tokens none ((byte :: rest).take (wordLength none (byte :: rest)) ++ b' :: more) =
      lex (tokens ++ [logicalFrom none ((byte :: rest).take (wordLength none (byte :: rest)))])
        none (b' :: more) := by
  have hsame := wordLength_take hrest hb' more
  have hclose : close none ((byte :: rest).take (wordLength none (byte :: rest))) = .ok () := by
    rcases word_ends none (byte :: rest) with ⟨hnil, -⟩ | ⟨_, _, _, _, hok, -⟩
    · exact nomatch hnil.symm.trans hrest
    · exact hok
  have hpos := Completion.wordLength_pos hbyte rest
  generalize hn : wordLength none (byte :: rest) = n at *
  obtain ⟨k, rfl⟩ : ∃ k, n = k + 1 := ⟨n - 1, by omega⟩
  have hlen : ((byte :: rest).take (k + 1)).length = k + 1 := by
    have := congrArg List.length hrest
    simp only [List.length_drop, List.length_take, List.length_cons] at this ⊢
    omega
  have hword := lex_word tokens [] none ((byte :: rest).take (k + 1) ++ b' :: more)
  rw [hsame, List.take_left' hlen, List.drop_left' hlen, hclose, List.nil_append] at hword
  have hpush : push tokens (logicalFrom none ((byte :: rest).take (k + 1))) =
      .ok (tokens ++ [logicalFrom none ((byte :: rest).take (k + 1))]) := if_pos htokens
  rw [hpush] at hword
  rw [List.take_succ_cons, List.cons_append] at hword ⊢
  exact (lex_start tokens hbyte _).trans hword

end Reference

namespace Completion

open Reference (close Ends word_ends)
variable {words : List Word} {trailing : Bool} {start : Nat} {rest : List UInt8}

theorem wordsFrom_blank (h : rest.dropWhile isSpace = []) :
    wordsFrom words trailing start rest = .ok (words, trailing || !rest.isEmpty) := by
  rw [wordsFrom]
  split
  · rfl
  · rename_i heq
    cases h.symm.trans heq

theorem wordsFrom_word {byte : UInt8} {more : List UInt8} {raw : Str}
    (h : rest.dropWhile isSpace = byte :: more)
    (hraw : Utf8.decode? ((byte :: more).take (wordLength none (byte :: more))) = some raw) :
    wordsFrom words trailing start rest =
      if words.length < maxTokens then
        wordsFrom (words ++ [⟨raw, start + (rest.length - (byte :: more).length)⟩]) false
          (start + (rest.length - (byte :: more).length) + wordLength none (byte :: more))
          ((byte :: more).drop (wordLength none (byte :: more)))
      else .ok (words, false) := by
  rw [wordsFrom]
  split
  · rename_i heq
    cases h.symm.trans heq
  · rename_i byte' more' heq
    obtain ⟨rfl, rfl⟩ := List.cons.inj (h.symm.trans heq)
    simp only [hraw]
    rfl

theorem isContinuation_of_isSpace {b : UInt8} (h : isSpace b = true) : Utf8.isContinuation b =
    false := by
  simp only [isSpace, Bool.or_eq_true, decide_eq_true_eq] at h
  rcases h with ((rfl | rfl) | rfl) | rfl <;> rfl

theorem not_isSpace {b : UInt8} (h : 0x80 ≤ b) : isSpace b = false := by
  have hall : ∀ v : BitVec 8, 0x80 ≤ UInt8.ofBitVec v → isSpace (UInt8.ofBitVec v) =
      false := by decide
  exact hall b.toBitVec h

/-- The blanks before a text are characters of it. -/
theorem dropWhile_encode (text : Str) : ∃ rest, (Utf8.encode text).dropWhile isSpace =
    Utf8.encode rest := by
  induction text with
  | nil => exact ⟨[], rfl⟩
  | cons c text ih =>
    obtain ⟨rest, hrest⟩ := ih
    by_cases hc : c.toNat < 128
    · rw [Utf8.encode_cons, Utf8.encodeChar_ascii hc, List.singleton_append, List.dropWhile_cons]
      split
      · exact ⟨rest, hrest⟩
      · exact ⟨c :: text, by rw [Utf8.encode_cons, Utf8.encodeChar_ascii hc, List.singleton_append]⟩
    · obtain ⟨first, inside, hchar, -⟩ := Utf8.encodeChar_cons c
      have hhigh := Utf8.encodeChar_high (Nat.le_of_not_lt hc) first (hchar ▸ List.mem_cons_self)
      refine ⟨c :: text, ?_⟩
      rw [Utf8.encode_cons, hchar, List.cons_append,
        List.dropWhile_cons_of_neg (by simp [not_isSpace hhigh])]

theorem word_encode {text : Str} {bytes : List UInt8} (h : Utf8.encode text = bytes)
    (quote : Option UInt8): ∃ raw rest, bytes.take (wordLength quote bytes) = Utf8.encode raw ∧
      bytes.drop (wordLength quote bytes) = Utf8.encode rest := by
  refine Utf8.encode_split (h.trans (List.take_append_drop (wordLength quote bytes) bytes).symm)
    fun b hb => ?_
  rcases Reference.word_ends quote bytes with ⟨hnil, -⟩ | ⟨b', more, hmore, hspace, -⟩
  · rw [hnil] at hb
    exact nomatch hb
  · rw [hmore] at hb
    exact Option.some.inj hb ▸ isContinuation_of_isSpace hspace

/-- The tokens that words stand for. -/
def texts (words : List Word) : List (List UInt8) := words.map fun word => logical word.raw

theorem texts_concat (words : List Word) (w : Word) : texts (words ++ [w]) = texts words ++
    [logical w.raw] :=
  List.map_append

theorem word_at (h : ∃ text, Utf8.encode text = rest) {byte : UInt8} {more : List UInt8}
    (hrest : rest.dropWhile isSpace = byte :: more) :
    ∃ raw, (byte :: more).take (wordLength none (byte :: more)) = Utf8.encode raw ∧
      Utf8.decode? ((byte :: more).take (wordLength none (byte :: more))) = some raw ∧
      ∃ text, Utf8.encode text = (byte :: more).drop (wordLength none (byte :: more)) := by
  obtain ⟨text, rfl⟩ := h
  obtain ⟨text', htext'⟩ := dropWhile_encode text
  obtain ⟨raw, tail, hraw, htail⟩ := word_encode (htext'.symm.trans hrest) none
  exact ⟨raw, hraw, hraw ▸ Utf8.decode?_encode raw, tail, htail.symm⟩

theorem wordsFrom_lex {tokens : List (List UInt8)} (hrest : ∃ text, Utf8.encode text = rest)
    (h : Reference.lex (texts words) none rest = .ok tokens) :
    ∃ result, wordsFrom words trailing start rest = .ok result ∧ texts result.1 = tokens := by
  induction words, trailing, start, rest using wordsFrom.induct with
  | case1 words trailing start rest hblank =>
    refine ⟨_, wordsFrom_blank hblank, ?_⟩
    have hall : ∀ b ∈ rest, isSpace b = true := List.dropWhile_eq_nil_iff.mp hblank
    have hnil := Reference.lex_blanks (texts words) hall []
    rw [List.append_nil] at hnil
    exact Except.ok.inj (hnil.symm.trans h)
  | case2 words trailing start rest byte more hmore taken hnone =>
    obtain ⟨raw, -, hraw, -⟩ := word_at hrest hmore
    cases hraw.symm.trans hnone
  | case3 words trailing start rest byte more hmore start' taken raw hraw hroom ih =>
    rw [wordsFrom_word hmore hraw, if_pos hroom]
    obtain ⟨raw', hraw', hdecode, hnext⟩ := word_at hrest hmore
    obtain rfl := Option.some.inj (hraw.symm.trans hdecode)
    refine ih hnext ?_
    rw [Reference.lex_first hmore, hraw'] at h
    rw [texts_concat, logical]
    cases hclose : Reference.close none (Utf8.encode raw) with
    | error kind =>
      rw [hclose] at h
      cases h
    | ok u =>
      have hlength : (texts words).length < maxTokens := (List.length_map _).symm ▸ hroom
      rw [hclose, Reference.push, if_pos hlength] at h
      exact h
  | case4 words trailing start rest byte more hmore taken raw hraw hfull =>
    have hlength : ¬(texts words).length < maxTokens := (List.length_map _).symm ▸ hfull
    rw [Reference.lex_first hmore, Reference.push, if_neg hlength] at h
    cases hclose : Reference.close none ((byte :: more).take (wordLength none (byte :: more))) with
    | error kind =>
      rw [hclose] at h
      cases h
    | ok u =>
      rw [hclose] at h
      cases h

end Completion

end Microtun.Cli
