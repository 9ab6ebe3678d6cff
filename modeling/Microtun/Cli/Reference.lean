import Mathlib.Logic.Relation
import Microtun.Cli.Lexer

/-! The reference lexer, which reads a line and changes nothing, and that the lexer in place agrees
with it. -/

namespace Microtun.Cli

/-- A token that is being read, and the quote that is open in it. -/
structure Word where
  text : List UInt8
  quote : Option UInt8
deriving DecidableEq, Repr

namespace Reference

def push (tokens : List (List UInt8)) (text : List UInt8) : Except ParseErrorKind
    (List (List UInt8)) :=
  if tokens.length < maxTokens then .ok (tokens ++ [text]) else .error .tooManyTokens

/-- The tokens of a line, after those that were read and with the word that is being read. -/
def lex (tokens : List (List UInt8)) : Option Word → List UInt8 →
    Except ParseErrorKind (List (List UInt8))
  | none, [] => .ok tokens
  | some w, [] => if w.quote ≠ none then .error .unterminatedQuote else push tokens w.text
  | current, b :: rest =>
    let w := current.getD ⟨[], none⟩
    if w.quote = some b then lex tokens (some { w with quote := none }) rest
    else if b = backslash then
      match rest with
      | [] => .error .trailingEscape
      | c :: rest => lex tokens (some { w with text := w.text ++ [c] }) rest
    else if w.quote = none ∧ isQuote b then lex tokens (some { w with quote := some b }) rest
    else if w.quote = none ∧ isSpace b then
      match current with
      | none => lex tokens none rest
      | some w => do
        let tokens ← push tokens w.text
        lex tokens none rest
    else lex tokens (some { w with text := w.text ++ [b] }) rest

theorem lex_cons (tokens : List (List UInt8)) (w : Word) (b : UInt8) (rest : List UInt8) :
    lex tokens (some w) (b :: rest) =
      if w.quote = some b then lex tokens (some { w with quote := none }) rest
      else if b = backslash then
        match rest with
        | [] => .error .trailingEscape
        | c :: rest => lex tokens (some { w with text := w.text ++ [c] }) rest
      else if w.quote = none ∧ isQuote b then lex tokens (some { w with quote := some b }) rest
      else if w.quote = none ∧ isSpace b then do
        let tokens ← push tokens w.text
        lex tokens none rest
      else lex tokens (some { w with text := w.text ++ [b] }) rest := by
  rw [lex.eq_def]
  rfl

theorem lex_nil (tokens : List (List UInt8)) (w : Word) : lex tokens (some w) [] =
    if w.quote ≠ none then .error .unterminatedQuote
    else push tokens w.text >>= fun tokens => lex tokens none [] := by
  unfold lex
  split
  · rfl
  · cases push tokens w.text <;> rfl

theorem backslash_ne {b : UInt8} (h : isSpace b = true ∨ isQuote b = true) : b ≠ backslash := by
  rintro rfl
  exact absurd h (by decide)

theorem not_isQuote {b : UInt8} (h : isSpace b = true) : isQuote b = false := by
  simp only [isSpace, Bool.or_eq_true, decide_eq_true_eq] at h
  rcases h with ((rfl | rfl) | rfl) | rfl <;> rfl

theorem lex_blank (tokens : List (List UInt8)) {b : UInt8} (h : isSpace b = true)
    (rest : List UInt8) : lex tokens none (b :: rest) = lex tokens none rest := by
  rw [lex.eq_def]
  simp [backslash_ne (.inl h), not_isQuote h, h]

theorem lex_start (tokens : List (List UInt8)) {b : UInt8} (h : isSpace b = false)
    (rest : List UInt8) :
    lex tokens none (b :: rest) = lex tokens (some ⟨[], none⟩) (b :: rest) := by
  rw [lex_cons, lex.eq_def]
  simp [h]

end Reference

namespace Lexer

/-- What was written so far. -/
def written (s : Lexer) : List UInt8 := s.buffer.take s.write

/-- The tokens read so far. -/
def texts (s : Lexer) : List (List UInt8) := (Lexed.mk s.written s.tokens).texts

/-- The token that is being read. -/
def current (s : Lexer) : Option Word :=
  match s.position with
  | .between => none
  | .inside start quote => some ⟨s.written.drop start, quote⟩

/-- What is left of the line, of which the first `len` bytes count. -/
def unread (line : List UInt8) (len : Nat) (s : Lexer) : List UInt8 := (line.take len).drop s.read

/-- What the reference lexer makes of the rest of the line. -/
def meaning (line : List UInt8) (len : Nat) (s : Lexer) : Except ParseErrorKind
    (List (List UInt8)) :=
  Reference.lex s.texts s.current (s.unread line len)

/-- The cursors of the lexer on a line: it writes behind what it reads, so what is unread is still
as in the line. -/
structure Keeps (line : List UInt8) (len : Nat) (s : Lexer) : Prop where
  length : s.buffer.length = line.length
  unread : s.buffer.drop s.read = line.drop s.read
  write_le : s.write ≤ s.read
  read_le : s.read ≤ len
  start_le : ∀ start quote, s.position = .inside start quote → start ≤ s.write
  tokens_le : ∀ token ∈ s.tokens, token.stop.toNat ≤ s.write

variable {line : List UInt8} {len : Nat} {s s' : Lexer}

theorem byte_at (h : s.Keeps line len) (hlen : len ≤ line.length) {i : Nat} (hi : s.read ≤ i)
    (hread : i < len) :
    ∃ b, s.buffer[i]? = some b ∧ (line.take len).drop i = b :: (line.take len).drop (i + 1) := by
  have hbyte : i < line.length := Nat.lt_of_lt_of_le hread hlen
  have hsame : s.buffer[i]? = (line)[i]? := by
    have := congrArg (·[i - s.read]?) h.unread
    simpa only [List.getElem?_drop, Nat.add_sub_cancel' hi] using this
  refine ⟨(line)[i], ?_, ?_⟩
  · rw [hsame, List.getElem?_eq_getElem hbyte]
  · have htake : i < (line.take len).length := by
      rw [List.length_take]
      omega
    rw [List.drop_eq_getElem_cons htake, List.getElem_take]

theorem texts_append {tokens : List Token} {written : List UInt8} (b : UInt8)
    (h : ∀ token ∈ tokens, token.stop.toNat ≤ written.length) :
    (Lexed.mk (written ++ [b]) tokens).texts = (Lexed.mk written tokens).texts := by
  refine List.map_congr_left fun token htoken => ?_
  simp only [Lexed.text]
  rw [List.take_append_of_le_length (h token htoken)]

theorem length_written (h : s.Keeps line len) (hlen : len ≤ line.length) :
    s.written.length = s.write := by
  have := h.length
  have := h.write_le
  have := h.read_le
  rw [written, List.length_take]
  omega

/-- A byte that is copied is the next one of the token that is read. -/
theorem copy_spec (h : s.Keeps line len) (hlen : len ≤ line.length) {start : Nat}
    {quote : Option UInt8} (hposition : s.position = .inside start quote) {i : Nat}
    (hi : s.read ≤ i) (hread : i < len) {b : UInt8} (hb : s.buffer[i]? = some b) :
    ∃ s', s.copy i start quote = .ok (.again s') ∧ s'.Keeps line len ∧ s'.texts = s.texts ∧
      s'.current = some ⟨s.written.drop start ++ [b], quote⟩ ∧
      s'.unread line len = (line.take len).drop (i + 1) := by
  have hwrite := h.write_le
  have hlength := h.length
  have hwritten : (s.buffer.set s.write b).take (s.write + 1) = s.written ++ [b] := by
    rw [List.take_add_one, List.take_set_of_le (Nat.le_refl _), List.getElem?_set_self (by omega)]
    rfl
  have hstart := h.start_le start quote hposition
  refine ⟨_, by simp only [copy, hb, if_neg (show ¬ s.buffer.length ≤ s.write by omega)]; rfl, ?_,
    ?_, ?_, rfl⟩
  · constructor
    · exact (List.length_set ..).trans h.length
    · show (s.buffer.set s.write b).drop (i + 1) = line.drop (i + 1)
      rw [List.drop_set_of_lt (by omega)]
      have hdrop := congrArg (List.drop (i + 1 - s.read)) h.unread
      simpa only [List.drop_drop, Nat.add_sub_cancel' (show s.read ≤ i + 1 by omega)] using hdrop
    · show s.write + 1 ≤ i + 1
      omega
    · exact hread
    · intro start' quote' heq
      obtain ⟨rfl, rfl⟩ := Position.inside.inj heq
      exact Nat.le_succ_of_le hstart
    · exact fun token htoken => Nat.le_succ_of_le (h.tokens_le token htoken)
  · show (Lexed.mk ((s.buffer.set s.write b).take (s.write + 1)) s.tokens).texts = s.texts
    rw [hwritten, texts_append]
    · rfl
    · rw [length_written h hlen]
      exact h.tokens_le
  · show some (Word.mk (((s.buffer.set s.write b).take (s.write + 1)).drop start) quote) = _
    rw [hwritten, List.drop_append_of_le_length]
    rw [length_written h hlen]
    exact hstart

/-- The lexer and the reference both stop, or the lexer goes on and the reference means the same
then. -/
def Agrees (line : List UInt8) (len : Nat) (r : Except Panic Turn)
    (meaning : Except ParseErrorKind (List (List UInt8))) : Prop :=
  (∃ result, r = .ok (.finished result) ∧ result.map Lexed.texts = meaning) ∨
    ∃ s', r = .ok (.again s') ∧ s'.Keeps line len ∧ s'.meaning line len = meaning

theorem copy_agrees (h : s.Keeps line len) (hlen : len ≤ line.length) {start : Nat}
    {quote : Option UInt8} (hposition : s.position = .inside start quote) {i : Nat}
    (hi : s.read ≤ i) (hread : i < len) {b : UInt8} (hb : s.buffer[i]? = some b) :
    Agrees line len (s.copy i start quote)
      (Reference.lex s.texts (some ⟨s.written.drop start ++ [b], quote⟩)
        ((line.take len).drop (i + 1))) := by
  obtain ⟨s', hrun, hkeeps, htexts, hcurrent, hunread⟩ := copy_spec h hlen hposition hi hread hb
  exact .inr ⟨s', hrun, hkeeps, by rw [meaning, htexts, hcurrent, hunread]⟩

theorem Keeps.skip (h : s.Keeps line len) (hread : s.read < len) (position : Position)
    (hstart : ∀ start quote, position = .inside start quote → start ≤ s.write) :
    Keeps line len { s with read := s.read + 1, position } where
  length := h.length
  unread := by
    have hdrop := congrArg (List.drop 1) h.unread
    simpa only [List.drop_drop] using hdrop
  write_le := Nat.le_succ_of_le h.write_le
  read_le := hread
  start_le := hstart
  tokens_le := h.tokens_le

theorem endToken_agrees (h : s.Keeps line len) (hlen : len ≤ line.length) (hshort : len < 2 ^ 16)
    {start : Nat} {quote : Option UInt8} (hposition : s.position = .inside start quote)
    {rest : List UInt8} (hrest : s.unread line len = rest) :
    Agrees line len (.ok (s.endToken start quote))
      (if quote ≠ none then .error .unterminatedQuote
        else Reference.push s.texts (s.written.drop start) >>= fun tokens =>
          Reference.lex tokens none rest) := by
  have hstart := h.start_le start quote hposition
  have hwrite := h.write_le
  have hread := h.read_le
  unfold endToken
  by_cases hquote : quote ≠ none
  · rw [if_pos hquote, if_pos hquote]
    exact .inl ⟨_, rfl, rfl⟩
  rw [if_neg hquote, if_neg hquote]
  have hcount : s.texts.length = s.tokens.length := List.length_map ..
  by_cases hroom : s.tokens.length < maxTokens
  · rw [if_pos hroom, Reference.push, hcount, if_pos hroom]
    refine .inr ⟨_, rfl, ?_, ?_⟩
    · refine { h with start_le := nofun, tokens_le := fun token htoken => ?_ }
      rcases List.mem_append.mp htoken with htoken | htoken
      · exact h.tokens_le token htoken
      · rw [List.mem_singleton.mp htoken]
        show (UInt16.ofNat s.write).toNat ≤ s.write
        exact Nat.mod_le ..
    · show Reference.lex (Lexed.mk s.written (s.tokens ++ [_])).texts none _ = _
      have htoken : (Lexed.mk s.written s.tokens).text ⟨.ofNat start, .ofNat s.write⟩ =
          s.written.drop start := by
        have hstop : (UInt16.ofNat s.write).toNat = s.write := UInt16.toNat_ofNat_of_lt
          (show s.write < 2 ^ 16 by omega)
        have hbegin : (UInt16.ofNat start).toNat = start := UInt16.toNat_ofNat_of_lt
          (show start < 2 ^ 16 by omega)
        rw [Lexed.text, hstop, hbegin,
          List.take_of_length_le (Nat.le_of_eq (length_written h hlen))]
      have htexts : (Lexed.mk s.written (s.tokens ++ [⟨.ofNat start, .ofNat s.write⟩])).texts =
          s.texts ++ [s.written.drop start] := by
        rw [Lexed.texts, List.map_append, List.map_singleton]
        exact congrArg (fun text => s.texts ++ [text]) htoken
      rw [htexts, ← hrest]
      rfl
  · rw [if_neg hroom, Reference.push, hcount, if_neg hroom]
    exact .inl ⟨_, rfl, rfl⟩

theorem escape_agrees (h : s.Keeps line len) (hlen : len ≤ line.length) {start : Nat}
    {quote : Option UInt8} (hposition : s.position = .inside start quote) (hread : s.read < len)
    (hquote : quote ≠ some backslash) : Agrees line len (s.escape len start quote)
      (Reference.lex s.texts (some ⟨s.written.drop start, quote⟩)
        (backslash :: (line.take len).drop (s.read + 1))) := by
  unfold escape
  rw [Reference.lex_cons]
  simp only [if_neg hquote, if_true]
  by_cases hend : s.read + 1 = len
  · have hnil : (line.take len).drop (s.read + 1) = [] := by
      rw [hend]
      exact List.drop_eq_nil_of_le (List.length_take_le ..)
    rw [if_pos hend, hnil]
    exact .inl ⟨_, rfl, rfl⟩
  · have hnext : s.read + 1 < len := Nat.lt_of_le_of_ne hread hend
    obtain ⟨c, hc, hrest⟩ := byte_at h hlen (Nat.le_succ _) hnext
    rw [if_neg hend, hrest]
    exact copy_agrees h hlen hposition (Nat.le_succ _) hnext hc

theorem turn_agrees (h : s.Keeps line len) (hlen : len ≤ line.length) (hshort : len < 2 ^ 16) :
    Agrees line len (s.turn len) (s.meaning line len) := by
  unfold turn
  cases hposition : s.position with
  | between =>
    have hcurrent : s.current = none := by rw [current, hposition]
    simp only
    by_cases hread : s.read < len
    · obtain ⟨b, hb, hrest⟩ := byte_at h hlen (Nat.le_refl _) hread
      rw [if_pos hread, meaning, hcurrent, unread, hrest]
      simp only [hb]
      cases hspace : isSpace b with
      | true =>
        rw [Reference.lex_blank _ hspace]
        have hbetween (start : Nat) (quote : Option UInt8) : Position.between ≠
            .inside start quote := by
          rintro ⟨⟩
        refine .inr ⟨_, rfl, h.skip hread .between fun start quote heq =>
          absurd heq (hbetween start quote), rfl⟩
      | false =>
        rw [Reference.lex_start _ hspace]
        refine .inr ⟨_, rfl, { h with start_le := ?_ }, ?_⟩
        · intro start quote heq
          exact Nat.le_of_eq (Position.inside.inj heq).1.symm
        · have hempty : s.written.drop s.write = [] :=
            List.drop_eq_nil_of_le (Nat.le_of_eq (length_written h hlen))
          show Reference.lex s.texts (some ⟨s.written.drop s.write, none⟩)
            ((line.take len).drop s.read) = _
          rw [hempty, hrest]
    · have hnil : s.unread line len = [] :=
        List.drop_eq_nil_of_le ((List.length_take_le ..).trans (Nat.le_of_not_lt hread))
      rw [if_neg hread, meaning, hcurrent, hnil]
      exact .inl ⟨_, rfl, rfl⟩
  | inside start quote =>
    have hcurrent : s.current = some ⟨s.written.drop start, quote⟩ := by rw [current, hposition]
    have hstart := h.start_le start quote hposition
    simp only
    by_cases hread : s.read < len
    · obtain ⟨b, hb, hrest⟩ := byte_at h hlen (Nat.le_refl _) hread
      rw [if_pos hread, meaning, hcurrent, unread, hrest]
      simp only [hb]
      cases quote with
      | some q =>
        simp only
        by_cases hclose : b = q
        · subst hclose
          rw [if_pos rfl, Reference.lex_cons]
          simp only [if_true]
          exact .inr ⟨_, rfl, h.skip hread (.inside start none)
            (fun start' quote' heq => (Position.inside.inj heq).1 ▸ hstart), rfl⟩
        rw [if_neg hclose]
        by_cases hescape : b = backslash
        · subst hescape
          rw [if_pos rfl]
          exact escape_agrees h hlen hposition hread (fun heq => hclose (Option.some.inj heq).symm)
        rw [if_neg hescape, Reference.lex_cons]
        simp only [Option.some.injEq, Ne.symm hclose, hescape, if_false, reduceCtorEq,
          false_and]
        exact copy_agrees h hlen hposition (Nat.le_refl _) hread hb
      | none =>
        simp only
        by_cases hquote : isQuote b = true
        · rw [if_pos hquote, Reference.lex_cons]
          simp only [reduceCtorEq, if_false, Reference.backslash_ne (.inr hquote), hquote, true_and,
            if_true]
          exact .inr ⟨_, rfl, h.skip hread (.inside start (some b))
            (fun start' quote' heq => (Position.inside.inj heq).1 ▸ hstart), rfl⟩
        rw [if_neg hquote]
        by_cases hescape : b = backslash
        · subst hescape
          rw [if_pos rfl]
          exact escape_agrees h hlen hposition hread (Option.some_ne_none _).symm
        rw [if_neg hescape]
        by_cases hspace : isSpace b = true
        · rw [if_pos hspace]
          have hend := endToken_agrees h hlen hshort hposition hrest
          rw [Reference.lex_cons]
          simp only [reduceCtorEq, if_false, hescape, hquote, and_false, hspace, true_and, if_true]
          simp only [ne_eq, not_true_eq_false, if_false] at hend
          simp only [Reference.lex_blank _ hspace] at hend
          exact hend
        · rw [if_neg hspace, Reference.lex_cons]
          simp only [reduceCtorEq, if_false, hescape, hquote, and_false, hspace]
          exact copy_agrees h hlen hposition (Nat.le_refl _) hread hb
    · have hnil : s.unread line len = [] :=
        List.drop_eq_nil_of_le ((List.length_take_le ..).trans (Nat.le_of_not_lt hread))
      rw [if_neg hread, meaning, hcurrent, hnil, Reference.lex_nil]
      exact endToken_agrees h hlen hshort hposition hnil

/-- The loops end, and with what the reference lexer makes of the rest. -/
theorem run_eq (hlen : len ≤ line.length) (hshort : len < 2 ^ 16) (s : Lexer)
    (h : s.Keeps line len) :
    ∃ result, run len s = .ok result ∧ result.map Lexed.texts = s.meaning line len := by
  induction s using run.induct len with
  | case1 s p hturn =>
    rcases turn_agrees h hlen hshort with ⟨r, hr, -⟩ | ⟨s', hs', -⟩
    · exact nomatch hturn.symm.trans hr
    · exact nomatch hturn.symm.trans hs'
  | case2 s r hturn =>
    rcases turn_agrees h hlen hshort with ⟨r', hr, hmeaning⟩ | ⟨s', hs', -⟩
    · obtain rfl := Turn.finished.inj (Except.ok.inj (hturn.symm.trans hr))
      exact ⟨r, by rw [run, hturn], hmeaning⟩
    · exact nomatch hturn.symm.trans hs'
  | case3 s s' hturn ih =>
    rcases turn_agrees h hlen hshort with ⟨r, hr, -⟩ | ⟨s'', hs', hkeeps, hmeaning⟩
    · exact nomatch hturn.symm.trans hr
    · obtain rfl := Turn.again.inj (Except.ok.inj (hturn.symm.trans hs'))
      obtain ⟨result, hrun, hresult⟩ := ih hkeeps
      exact ⟨result, by rw [run, hturn]; exact hrun, hresult.trans hmeaning⟩

/-- The lexer on a line of `len` bytes gets to a state after some turns. -/
def Reaches (len : Nat) : Lexer → Lexer → Prop :=
  Relation.ReflTransGen fun s s' => s.turn len = .ok (.again s')

theorem keeps_start (line : List UInt8) (len : Nat) :
    Keeps line len ⟨line, 0, 0, [], .between⟩ where
  length := rfl
  unread := rfl
  write_le := Nat.le_refl 0
  read_le := Nat.zero_le len
  start_le := nofun
  tokens_le := nofun

theorem keeps_reaches (hlen : len ≤ line.length) (hshort : len < 2 ^ 16) (hs : s.Keeps line len)
    (h : Reaches len s s') : s'.Keeps line len := by
  induction h with
  | refl => exact hs
  | tail _ hturn ih =>
    rcases turn_agrees ih hlen hshort with ⟨r, hr, -⟩ | ⟨t, ht, hkeeps, -⟩
    · exact nomatch hturn.symm.trans hr
    · obtain rfl := Turn.again.inj (Except.ok.inj (hturn.symm.trans ht))
      exact hkeeps

end Lexer

theorem lex_agrees {buffer : List UInt8} {len : Nat} (hlen : len ≤ buffer.length)
    (hshort : len ≤ 2 ^ 16 - 1) : ∃ result, lex buffer len = .ok result ∧
      result.map Lexed.texts = Reference.lex [] none (buffer.take len) := by
  have hsmall : len < 2 ^ 16 := Nat.lt_of_le_of_lt hshort (by decide)
  obtain ⟨result, hrun, hresult⟩ := Lexer.run_eq hlen hsmall _ (Lexer.keeps_start buffer len)
  refine ⟨result, ?_, hresult⟩
  rw [lex, if_neg (by omega)]
  exact hrun

/-- The lexer gives the tokens, or the error, of the reference lexer on the line as it was, and at
every turn it writes behind what it reads, so that what it has not read is as it was. -/
theorem lex_reference (buffer : List UInt8) (len : Nat) (hlen : len ≤ buffer.length)
    (hshort : len ≤ 2 ^ 16 - 1) : (∃ result, lex buffer len = .ok result ∧
      result.map Lexed.texts = Reference.lex [] none (buffer.take len)) ∧
    ∀ s, Lexer.Reaches len ⟨buffer, 0, 0, [], .between⟩ s →
      s.write ≤ s.read ∧ s.buffer.drop s.read = buffer.drop s.read := by
  refine ⟨lex_agrees hlen hshort, fun s hs => ?_⟩
  have hsmall : len < 2 ^ 16 := Nat.lt_of_le_of_lt hshort (by decide)
  have hstart := Lexer.keeps_start buffer len
  have hkeeps := Lexer.keeps_reaches hlen hsmall hstart hs
  exact ⟨hkeeps.write_le, hkeeps.unread⟩

/-- The line `a' 'b ""`. -/
theorem lex_reference_quotes : ∃ lexed, lex [0x61, 0x27, 0x20, 0x27, 0x62, 0x20, 0x22, 0x22] 8 =
    .ok (.ok lexed) ∧ lexed.texts = [[0x61, 0x20, 0x62], []] := by
  obtain ⟨result, hrun, hresult⟩ :=
    (lex_reference [0x61, 0x27, 0x20, 0x27, 0x62, 0x20, 0x22, 0x22] 8 (by decide) (by decide)).1
  have htokens : Reference.lex [] none [0x61, 0x27, 0x20, 0x27, 0x62, 0x20, 0x22, 0x22] =
      .ok [[0x61, 0x20, 0x62], []] := rfl
  cases result with
  | error kind => exact nomatch hresult.trans htokens
  | ok lexed => exact ⟨lexed, hrun, Except.ok.inj (hresult.trans htokens)⟩

end Microtun.Cli
