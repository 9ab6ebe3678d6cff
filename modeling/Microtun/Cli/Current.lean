import Microtun.Cli.Words

/-! The word of a line that is completed, and what stands before it. -/

namespace Microtun.Cli

namespace Reference

open Completion (wordLength)

theorem wordLength_le (quote : Option UInt8) (rest : List UInt8) : wordLength quote rest ≤
    rest.length := by
  fun_induction wordLength quote rest
  all_goals simp only [List.length_cons, List.length_nil]
  all_goals omega

theorem wordLength_whole (quote : Option UInt8) (rest : List UInt8) :
    wordLength quote (rest.take (wordLength quote rest)) = wordLength quote rest := by
  induction quote, rest using word_induct with
  | nil quote => rfl
  | close b rest ih => simp [wordLength_cons, ih]
  | trailing quote h => simp [wordLength_cons, h]
  | escape quote c rest h ih => simp [wordLength_cons, h, ih]
  | quote b rest hb hquote ih => simp [wordLength_cons, hb, hquote, ih]
  | blank b rest hb hquote hspace => simp [wordLength_cons, hb, hquote, hspace, wordLength]
  | copy quote b rest h hb hquote hspace ih => simp [wordLength_cons, h, hb, hquote, hspace, ih]

end Reference

namespace Completion

open Reference (before)

variable {words : List Word} {trailing : Bool} {start : Nat} {rest line : List UInt8}

/-- Words stand in a line before another one: what the lexer makes of the line up to there are their
tokens, whatever follows. -/
structure Stands (line : List UInt8) (words : List Word) (current : Word) : Prop where
  lex : ∀ more, Reference.lex [] none (line.take current.start ++ more) =
    Reference.lex (texts words) none more
  raw : ∃ more, line.drop current.start = Utf8.encode current.raw ++ more
  whole : wordLength none (Utf8.encode current.raw) = len current.raw
  start_le : current.start ≤ line.length
  length : words.length ≤ maxTokens

/-- Where the loop over the words of a line is: at the start or after a word, with a blank next. -/
structure Reads (line : List UInt8) (words : List Word) (start : Nat) (rest : List UInt8) :
    Prop where
  cut : line.drop start = rest
  text : ∃ text, Utf8.encode text = rest
  begins : start = 0 ∧ words = [] ∨ ∃ b more, rest = b :: more ∧ isSpace b = true
  lex : ∀ b more, isSpace b = true →
    Reference.lex [] none (line.take start ++ b :: more) =
      Reference.lex (texts words) none (b :: more)
  read : Reference.read [] none line = Reference.read (texts words) none rest
  length : words.length ≤ maxTokens
  last : ∀ word, words.getLast? = some word → Stands line words.dropLast word

/-- The words before the current one, and the current one. -/
def pick (line : List UInt8) : List Word × Bool → List Word × Word
  | (words, true) => (words, ⟨[], line.length⟩)
  | (words, false) => (words.dropLast, words.getLast?.getD ⟨[], line.length⟩)

theorem splitWords_eq (text : Str) :
    splitWords text = (completionWords text).map (pick (Utf8.encode text)) := by
  unfold splitWords
  cases completionWords text with
  | error p => rfl
  | ok result =>
    obtain ⟨words, trailing⟩ := result
    cases trailing <;> rfl

theorem pick_concat (line : List UInt8) (words : List Word) (w : Word) :
    pick line (words ++ [w], false) = (words, w) := by
  simp [pick]

theorem before_of_read {tokens : List (List UInt8)} {current : Option Cli.Word}
    (h : Reference.read [] none line = (tokens, current))
    (hlength : tokens.length + current.toList.length ≤ maxTokens) : before line = tokens := by
  simp [before, h, Nat.not_lt.mpr hlength]

/-- Of too many words the last one that there is room for is completed. -/
theorem before_of_full {tokens all : List (List UInt8)} {current : Option Cli.Word}
    (h : Reference.read [] none line = (all, current)) (hall : tokens <+: all)
    (hlength : tokens.length = maxTokens)
    (hmore : tokens.length < all.length + current.toList.length) :
    before line = tokens.dropLast := by
  obtain ⟨more, rfl⟩ := hall
  have hfull : maxTokens < (tokens ++ more).length + current.toList.length := hlength ▸ hmore
  rw [before, h]
  simp only [hfull, if_true]
  rw [List.dropLast_eq_take, hlength, List.take_append_of_le_length (by rw [hlength]; decide)]

namespace Reads

theorem lex_blanks {blanks more : List UInt8} (h : Reads line words start rest)
    (hrest : rest = blanks ++ more) (hblanks : ∀ b ∈ blanks, isSpace b = true)
    (hmore : blanks ≠ [] ∨ start = 0 ∧ words = []) (tail : List UInt8) :
    Reference.lex [] none (line.take (start + blanks.length) ++ tail) = Reference.lex
      (texts words) none tail := by
  have htake : line.take (start + blanks.length) = line.take start ++ blanks := by
    rw [List.take_add, h.cut, hrest, List.take_left]
  rw [htake, List.append_assoc]
  cases blanks with
  | nil =>
    obtain ⟨rfl, rfl⟩ := hmore.resolve_left (· rfl)
    rfl
  | cons b blanks =>
    rw [List.cons_append, h.lex b _ (hblanks b List.mem_cons_self), ← List.cons_append]
    exact Reference.lex_blanks _ hblanks tail

theorem blanks_length {byte : UInt8} {more : List UInt8}
    (hmore : rest.dropWhile isSpace = byte :: more) :
    rest = rest.takeWhile isSpace ++ byte :: more ∧
      rest.length - (byte :: more).length = (rest.takeWhile isSpace).length := by
  have hrest : rest = rest.takeWhile isSpace ++ byte :: more := by
    rw [← hmore, List.takeWhile_append_dropWhile]
  refine ⟨hrest, ?_⟩
  have := congrArg List.length hrest
  rw [List.length_append] at this
  omega

theorem drop_start {byte : UInt8} {more : List UInt8} (h : Reads line words start rest)
    (hmore : rest.dropWhile isSpace = byte :: more) :
    line.drop (start + (rest.length - (byte :: more).length)) = byte :: more := by
  obtain ⟨hrest, hlength⟩ := blanks_length hmore
  rw [hlength, ← List.drop_drop, h.cut]
  exact (congrArg (List.drop _) hrest).trans List.drop_left

theorem stands {byte : UInt8} {more : List UInt8} {raw : Str} (h : Reads line words start rest)
    (hmore : rest.dropWhile isSpace = byte :: more)
    (hraw : (byte :: more).take (wordLength none (byte :: more)) = Utf8.encode raw) :
    Stands line words ⟨raw, start + (rest.length - (byte :: more).length)⟩ := by
  obtain ⟨hrest, hlength⟩ := blanks_length hmore
  have hblanks : ∀ b ∈ rest.takeWhile isSpace, isSpace b = true :=
    fun _ hb => List.mem_takeWhile_imp hb
  have hbegins : rest.takeWhile isSpace ≠ [] ∨ start = 0 ∧ words = [] := by
    rcases h.begins with hstart | ⟨b, tail, rfl, hb⟩
    · exact .inr hstart
    · exact .inl (by simp [hb])
  have hdrop := h.drop_start hmore
  refine ⟨fun tail => ?_, ⟨(byte :: more).drop (wordLength none (byte :: more)), ?_⟩, ?_, ?_,
    h.length⟩
  · rw [hlength]
    exact h.lex_blanks hrest hblanks hbegins tail
  · rw [← hraw, List.take_append_drop, hdrop]
  · rw [len, ← hraw, List.length_take_of_le (Reference.wordLength_le _ _)]
    exact Reference.wordLength_whole _ _
  · refine Nat.le_of_lt (Nat.lt_of_not_le fun hle => ?_)
    rw [List.drop_eq_nil_of_le hle] at hdrop
    exact nomatch hdrop

theorem next {byte b : UInt8} {more tail : List UInt8} {raw : Str} (h : Reads line words start rest)
    (hmore : rest.dropWhile isSpace = byte :: more)
    (hraw : (byte :: more).take (wordLength none (byte :: more)) = Utf8.encode raw)
    (htext : ∃ text, Utf8.encode text = (byte :: more).drop (wordLength none (byte :: more)))
    (htail : (byte :: more).drop (wordLength none (byte :: more)) = b :: tail)
    (hb : isSpace b = true)
    (hread : ∀ tokens text, Reference.read tokens (some ⟨text, none⟩) (byte :: more) =
      Reference.read (tokens ++ [text ++ logical raw]) none (b :: tail))
    (hroom : words.length < maxTokens) :
    Reads line (words ++ [⟨raw, start + (rest.length - (byte :: more).length)⟩])
      (start + (rest.length - (byte :: more).length) + wordLength none (byte :: more))
      (b :: tail) := by
  have hstands := h.stands hmore hraw
  have hdrop := h.drop_start hmore
  refine ⟨?_, htail ▸ htext, .inr ⟨b, tail, rfl, hb⟩, fun b' more' hb' => ?_, ?_, ?_, ?_⟩
  · rw [← List.drop_drop, hdrop, htail]
  · rw [List.take_add, hdrop, List.append_assoc, hstands.lex, texts_concat, logical, ← hraw]
    exact Reference.lex_taken (isSpace_of_dropWhile hmore) htail (by simpa [texts] using hroom) hb'
  · rw [h.read, Reference.read_first hmore, hread, texts_concat]
    rfl
  · rw [List.length_append]
    exact hroom
  · intro word hword
    rw [List.getLast?_concat] at hword
    obtain rfl := Option.some.inj hword
    rw [List.dropLast_concat]
    exact hstands

end Reads

/-- The completer takes any line apart into words, of which the last is where the cursor is. -/
theorem wordsFrom_pick (h : Reads line words start rest) :
    ∃ result, wordsFrom words trailing start rest = .ok result ∧
      Stands line (pick line result).1 (pick line result).2 ∧ texts (pick line result).1 =
        before line := by
  induction words, trailing, start, rest using wordsFrom.induct with
  | case1 words trailing start rest hblank =>
    refine ⟨_, wordsFrom_blank hblank, ?_⟩
    have hblanks : ∀ b ∈ rest, isSpace b = true := List.dropWhile_eq_nil_iff.mp hblank
    cases rest with
    | nil =>
      have hnone : ¬∃ b more, [] = b :: more ∧ isSpace b = true := by
        rintro ⟨b, more, hrest, -⟩
        cases hrest
      obtain ⟨rfl, rfl⟩ := h.begins.resolve_right hnone
      obtain rfl : line = [] := h.cut
      cases trailing <;> exact ⟨⟨fun more => rfl, ⟨[], rfl⟩, rfl, Nat.zero_le _, Nat.zero_le _⟩,
        rfl⟩
    | cons b more =>
      have hlength : line.length = start + (b :: more).length := by
        have := congrArg List.length h.cut
        rw [List.length_drop, List.length_cons] at this
        rw [List.length_cons]
        omega
      have hread := Reference.read_blanks (texts words) hblanks []
      rw [List.append_nil, Reference.read_nil] at hread
      rw [List.isEmpty_cons, Bool.not_false, Bool.or_true]
      refine ⟨⟨fun tail => ?_, ⟨[], ?_⟩, rfl, Nat.le_refl _, h.length⟩, ?_⟩
      · have hlex := h.lex_blanks (List.append_nil _).symm hblanks (.inl (List.cons_ne_nil b more))
          tail
        rwa [← hlength] at hlex
      · exact List.drop_length
      · exact (before_of_read (h.read.trans hread) (by simpa [texts] using h.length)).symm
  | case2 words trailing start rest byte more hmore taken hnone =>
    obtain ⟨raw, -, hraw, -⟩ := word_at h.text hmore
    cases hraw.symm.trans hnone
  | case3 words trailing start rest byte more hmore start' taken raw hraw hroom ih =>
    rw [wordsFrom_word hmore hraw, if_pos hroom]
    obtain ⟨raw', hraw', hdecode, hnext⟩ := word_at h.text hmore
    obtain rfl := Option.some.inj (hraw.symm.trans hdecode)
    rcases Reference.word_ends none (byte :: more) with ⟨hnil, hend⟩ | ⟨b, tail, htail, hb, -,
      hread⟩
    · rw [hnil, wordsFrom_blank rfl]
      refine ⟨_, rfl, ?_⟩
      rw [List.isEmpty_nil, Bool.not_true, Bool.or_false, pick_concat]
      refine ⟨h.stands hmore hraw', ?_⟩
      obtain ⟨w, hw⟩ := hend (texts words) []
      exact (before_of_read (h.read.trans ((Reference.read_first hmore).trans hw))
        (by simpa [texts, Nat.succ_le_iff] using hroom)).symm
    · refine ih ?_
      have hnext' := h.next hmore hraw' hnext htail hb ?_ hroom
      · rw [htail]
        exact hnext'
      · intro tokens text
        rw [hread, hraw', htail, logical]
  | case4 words trailing start rest byte more hmore taken raw hraw hfull =>
    rw [wordsFrom_word hmore hraw, if_neg hfull]
    refine ⟨_, rfl, ?_⟩
    have hlength : words.length = maxTokens := Nat.le_antisymm h.length (Nat.le_of_not_lt hfull)
    have htokens : (texts words).length = maxTokens := (List.length_map _).trans hlength
    obtain rfl | ⟨front, last, rfl⟩ := List.eq_nil_or_concat' words
    · cases hlength
    rw [pick_concat]
    have hlast := h.last last List.getLast?_concat
    rw [List.dropLast_concat] at hlast
    refine ⟨hlast, ?_⟩
    have hfront : texts front = (texts (front ++ [last])).dropLast := by
      rw [texts_concat, List.dropLast_concat]
    rw [hfront]
    rcases Reference.word_ends none (byte :: more) with ⟨-, hend⟩ | ⟨b, tail, -, -, -, hread⟩
    · obtain ⟨w, hw⟩ := hend (texts (front ++ [last])) []
      have hall := h.read.trans ((Reference.read_first hmore).trans hw)
      exact (before_of_full hall (List.prefix_refl _) htokens (Nat.lt_succ_self _)).symm
    · have hall := h.read.trans ((Reference.read_first hmore).trans (hread _ _))
      have hpre := Reference.prefix_read (texts (front ++ [last]) ++
        [[] ++ logicalFrom none ((byte :: more).take (wordLength none (byte :: more)))]) none
        ((byte :: more).drop (wordLength none (byte :: more)))
      have hle := hpre.length_le
      rw [List.length_append, List.length_singleton] at hle
      exact (before_of_full hall ((List.prefix_append _ _).trans hpre) htokens
        (Nat.lt_of_lt_of_le hle (Nat.le_add_right _ _))).symm

theorem reads_start (text : Str) : Reads (Utf8.encode text) [] 0 (Utf8.encode text) where
  cut := rfl
  text := ⟨text, rfl⟩
  begins := .inl ⟨rfl, rfl⟩
  lex := fun _ _ _ => rfl
  read := rfl
  length := Nat.zero_le _
  last := nofun

theorem splitWords_stands (text : Str) : ∃ words current, splitWords text = .ok (words, current) ∧
    Stands (Utf8.encode text) words current ∧ texts words = before (Utf8.encode text) := by
  obtain ⟨result, hresult, hstands, hbefore⟩ := wordsFrom_pick (reads_start text)
  refine ⟨_, _, ?_, hstands, hbefore⟩
  rw [splitWords_eq, completionWords, hresult]
  rfl

theorem completionWords_lex (text : Str) {tokens : List (List UInt8)}
    (h : Reference.lex [] none (Utf8.encode text) = .ok tokens) :
    ∃ words trailing, completionWords text = .ok (words, trailing) ∧ texts words = tokens := by
  obtain ⟨result, hresult, htexts⟩ := wordsFrom_lex ⟨text, rfl⟩
    (show Reference.lex (texts []) none (Utf8.encode text) = .ok tokens from h)
  exact ⟨result.1, result.2, hresult, htexts⟩

end Completion

end Microtun.Cli
