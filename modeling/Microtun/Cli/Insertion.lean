import Microtun.Cli.Editing
import Microtun.Cli.Relex
import Mathlib.Data.Bool.AllAny

/-! Which candidates come back from the lexer as they were, once they are inserted in the line. -/

namespace Microtun.Cli.Completion

open Reference (before)

/-- The bytes that a candidate inserts. -/
def Candidate.insertion (c : Candidate) : List UInt8 :=
  let quote := if c.quote then [quoteByte] else []
  Utf8.encode c.pre ++ quote ++ Utf8.encode c.value ++ quote

/-- Where the insertion ends. -/
def Candidate.stop (c : Candidate) : Nat := c.replaceAt + c.insertion.length

/-- The line with the part from the offset of a candidate to the cursor replaced. -/
def replaced (line : List UInt8) (cursor : Nat) (c : Candidate) : List UInt8 :=
  line.take c.replaceAt ++ c.insertion ++ line.drop (min cursor line.length)

/-- The name of the option in the current word that a candidate is a value for. -/
def attachedHead (line : List UInt8) (cursor : Nat) (c : Candidate) : List UInt8 :=
  match (Utf8.decode? (upTo line cursor)).map splitWords with
  | some (.ok (_, current)) => (line.take c.replaceAt).drop current.start
  | _ => []

/-- The line with a candidate inserted is read, up to the end of it, and the candidate comes back as
the last token. -/
def Relexes (line : List UInt8) (cursor : Nat) (c : Candidate) : Prop :=
  ∃ lexed, lex (replaced line cursor c) c.stop = .ok (.ok lexed) ∧
    lexed.texts.getLast? =
      some (attachedHead line cursor c ++ Utf8.encode c.pre ++ Utf8.encode c.value)

/-- There is room for the line and for one more token, and a value has no double quote and no
backslash, and a name no blank, no quote and no backslash. A name of blanks alone makes no token. -/
def Survives (line : List UInt8) (cursor : Nat) (c : Candidate) : Prop :=
  c.stop ≤ 2 ^ 16 - 1 ∧
    match c.kind with
    | .value => (before (upTo line cursor)).length < maxTokens ∧
        ∀ b ∈ Utf8.encode c.value, b ≠ quoteByte ∧ b ≠ backslash
    | _ =>
      let name := Utf8.encode c.pre ++ Utf8.encode c.value
      ((before (upTo line cursor)).length < maxTokens ∧ name ≠ [] ∧ ∀ b ∈ name, Ordinary b) ∨
        ((∀ b ∈ name, isSpace b = true) ∧ (before (upTo line cursor)).getLast? = some name)

variable {line : List UInt8} {cursor : Nat} {c : Candidate} {text : Str} {words : List Word}
  {current : Word}

/-- A word without quotes or backslashes has no blanks. -/
theorem not_isSpace_of_whole {bytes : List UInt8}
    (hplain : ∀ b ∈ bytes, isQuote b = false ∧ b ≠ backslash)
    (h : wordLength none bytes = bytes.length) : ∀ b ∈ bytes, isSpace b = false := by
  induction bytes with
  | nil => exact List.forall_mem_nil _
  | cons b bytes ih =>
    obtain ⟨⟨hquote, hescape⟩, hbytes⟩ := List.forall_mem_cons.mp hplain
    simp only [Reference.wordLength_cons, reduceCtorEq, hescape, hquote, Bool.false_eq_true,
      and_false, if_false, true_and] at h
    split at h
    · exact nomatch h
    · rename_i hspace
      exact List.forall_mem_cons.mpr
        ⟨Bool.eq_false_of_not_eq_true hspace, ih hbytes (Nat.succ.inj h)⟩

theorem ordinary_of_plain {raw : Str} (hplain : isPlain raw = true)
    (h : wordLength none (Utf8.encode raw) = len raw) : ∀ b ∈ Utf8.encode raw, Ordinary b := by
  have hbytes : ∀ b ∈ Utf8.encode raw, isQuote b = false ∧ b ≠ backslash := by
    simpa [isPlain] using hplain
  intro b hb
  exact ⟨not_isSpace_of_whole hbytes h b hb, hbytes b hb⟩

theorem ordinary_of_not_needsQuoting {value : Str} (h : needsQuoting value = false) :
    Utf8.encode value ≠ [] ∧ ∀ b ∈ Utf8.encode value, Ordinary b := by
  simp only [needsQuoting, Bool.or_eq_false_iff, List.isEmpty_eq_false_iff, List.any_eq_false,
    Bool.or_eq_true, decide_eq_true_eq, not_or, Bool.not_eq_true] at h
  obtain ⟨hne, hbytes⟩ := h
  refine ⟨fun hnil => hne (Utf8.encode_inj hnil), fun b hb => ?_⟩
  obtain ⟨⟨hspace, hquote⟩, hescape⟩ := hbytes b hb
  exact ⟨hspace, hquote, hescape⟩

/-- The line up to the offset of a candidate. -/
theorem take_replaceAt {head rest : Str} (hstands : Stands (upTo line cursor) words current)
    (hraw : current.raw = head ++ rest) (hat : c.replaceAt = current.start + len head) :
    c.replaceAt ≤ (upTo line cursor).length ∧
      line.take c.replaceAt = (upTo line cursor).take current.start ++ Utf8.encode head := by
  obtain ⟨more, hmore⟩ := hstands.raw
  rw [hraw, Utf8.encode_append, List.append_assoc] at hmore
  have hle : c.replaceAt ≤ (upTo line cursor).length := by
    have hstart := hstands.start_le
    have := congrArg List.length hmore
    rw [List.length_drop, List.length_append] at this
    rw [hat, len]
    omega
  have hsame : (upTo line cursor).take c.replaceAt = line.take c.replaceAt := by
    have hline := hle
    rw [upTo, List.length_take] at hline
    rw [upTo, List.take_take, Nat.min_eq_left (by omega)]
  refine ⟨hle, ?_⟩
  rw [← hsame, hat, List.take_add, hmore, len, List.take_left]

theorem attachedHead_eq {head rest : Str} (htext : Utf8.encode text = upTo line cursor)
    (hsplit : splitWords text = .ok (words, current))
    (hstands : Stands (upTo line cursor) words current) (hraw : current.raw = head ++ rest)
    (hat : c.replaceAt = current.start + len head) :
    attachedHead line cursor c = Utf8.encode head := by
  rw [attachedHead, ← htext, Utf8.decode?_encode, Option.map_some, hsplit]
  simp only
  rw [(take_replaceAt hstands hraw hat).2]
  exact List.drop_left' (List.length_take_of_le hstands.start_le)

/-- A candidate comes back if there is room for the line, and it does so after the tokens before it.
-/
theorem relexes_iff {head rest : Str} (htext : Utf8.encode text = upTo line cursor)
    (hsplit : splitWords text = .ok (words, current))
    (hstands : Stands (upTo line cursor) words current)
    (hbefore : texts words = before (upTo line cursor)) (hraw : current.raw = head ++ rest)
    (hat : c.replaceAt = current.start + len head) : Relexes line cursor c ↔ c.stop ≤ 2 ^ 16 - 1 ∧
      ∃ out, Reference.lex (before (upTo line cursor)) none (Utf8.encode head ++ c.insertion) =
        .ok out ∧
        out.getLast? = some (Utf8.encode head ++ Utf8.encode c.pre ++ Utf8.encode c.value) := by
  obtain ⟨hle, htake⟩ := take_replaceAt hstands hraw hat
  have hlength : (line.take c.replaceAt).length = c.replaceAt := by
    rw [upTo, List.length_take] at hle
    rw [List.length_take]
    omega
  have hline : (replaced line cursor c).take c.stop =
      (upTo line cursor).take current.start ++ (Utf8.encode head ++ c.insertion) := by
    rw [replaced, List.take_left' (by rw [List.length_append, hlength]; rfl), htake,
      List.append_assoc]
  have hstop : c.stop ≤ (replaced line cursor c).length := by
    rw [replaced, List.length_append, List.length_append, hlength]
    exact Nat.le_add_right _ _
  rw [Relexes, attachedHead_eq htext hsplit hstands hraw hat]
  by_cases hshort : c.stop ≤ 2 ^ 16 - 1
  · obtain ⟨result, hlex, htexts⟩ := lex_agrees hstop hshort
    rw [hline, hstands.lex, hbefore] at htexts
    rw [hlex, ← htexts]
    constructor
    · rintro ⟨lexed, hlexed, hlast⟩
      obtain rfl := Except.ok.inj hlexed
      exact ⟨hshort, _, rfl, hlast⟩
    · rintro ⟨-, out, hout, hlast⟩
      cases result with
      | error kind => cases hout
      | ok lexed => exact ⟨lexed, rfl, Except.ok.inj hout ▸ hlast⟩
  · have hlong : lex (replaced line cursor c) c.stop = .ok (.error .lineTooLong) := by
      rw [lex, if_pos (.inr (Nat.lt_of_not_le hshort))]
      rfl
    rw [hlong]
    constructor
    · rintro ⟨lexed, hlexed, -⟩
      cases hlexed
    · rintro ⟨hle, -⟩
      exact absurd hle hshort

theorem survives_value {head value : Str} {start : Nat}
    (hhead : ∀ b ∈ Utf8.encode head, Ordinary b) :
    let c : Candidate := ⟨[], value, .value, start, needsQuoting value⟩
    (∃ out, Reference.lex (before (upTo line cursor)) none (Utf8.encode head ++ c.insertion) =
      .ok out ∧
        out.getLast? = some (Utf8.encode head ++ Utf8.encode c.pre ++ Utf8.encode c.value)) ↔
      (before (upTo line cursor)).length < maxTokens ∧ ∀ b ∈ Utf8.encode value, b ≠ quoteByte ∧
        b ≠ backslash := by
  intro c
  cases hquote : needsQuoting value with
  | true =>
    have hinsertion : c.insertion = quoteByte :: (Utf8.encode value ++ [quoteByte]) := by
      simp [Candidate.insertion, c, hquote]
    rw [hinsertion, show Utf8.encode c.pre = [] from rfl, List.append_nil]
    exact Reference.insert_between_iff hhead
  | false =>
    have hinsertion : c.insertion = Utf8.encode value := by
      simp [Candidate.insertion, c, hquote]
    obtain ⟨hne, hvalue⟩ := ordinary_of_not_needsQuoting hquote
    have hordinary : ∀ b ∈ Utf8.encode head ++ Utf8.encode value, Ordinary b :=
      List.forall_mem_append.mpr ⟨hhead, hvalue⟩
    have hword : Utf8.encode head ++ Utf8.encode value ≠ [] :=
      fun h => hne (List.append_eq_nil_iff.mp h).2
    rw [hinsertion, show Utf8.encode c.pre = [] from rfl, List.append_nil, Reference.insert_iff]
    constructor
    · rintro (⟨hroom, -, -⟩ | ⟨hblank, -⟩)
      · exact ⟨hroom, fun b hb =>
          ⟨fun heq => absurd (hvalue b hb).2.1 (by simp [heq, isQuote, quoteByte]),
          (hvalue b hb).2.2⟩⟩
      · obtain ⟨b, rest, hrest⟩ := List.exists_cons_of_ne_nil hword
        rw [hrest] at hblank hordinary
        exact nomatch (hblank b List.mem_cons_self).symm.trans (hordinary b List.mem_cons_self).1
    · rintro ⟨hroom, -⟩
      exact .inl ⟨hroom, hword, hordinary⟩

theorem survives_name (hquote : c.quote = false) :
    (∃ out, Reference.lex (before (upTo line cursor)) none (Utf8.encode [] ++ c.insertion) =
      .ok out ∧
        out.getLast? = some (Utf8.encode [] ++ Utf8.encode c.pre ++ Utf8.encode c.value)) ↔
      let name := Utf8.encode c.pre ++ Utf8.encode c.value
      ((before (upTo line cursor)).length < maxTokens ∧ name ≠ [] ∧ ∀ b ∈ name, Ordinary b) ∨
        ((∀ b ∈ name, isSpace b = true) ∧ (before (upTo line cursor)).getLast? = some name) := by
  have hinsertion : c.insertion = Utf8.encode c.pre ++ Utf8.encode c.value := by
    simp [Candidate.insertion, hquote]
  rw [hinsertion, Utf8.encode_nil, List.nil_append, List.nil_append]
  exact Reference.insert_iff

theorem relexes_survives (htext : Utf8.encode text = upTo line cursor)
    (hsplit : splitWords text = .ok (words, current))
    (hstands : Stands (upTo line cursor) words current)
    (hbefore : texts words = before (upTo line cursor)) (hc : Offered current c) :
    Relexes line cursor c ↔ Survives line cursor c := by
  cases hc with
  | value head rest value hraw hhead =>
    rw [relexes_iff htext hsplit hstands hbefore hraw rfl]
    refine and_congr_right fun _ => survives_value fun b hb => ?_
    rcases hhead with rfl | ⟨-, hplain⟩
    · exact nomatch hb
    · refine ordinary_of_plain hplain hstands.whole b ?_
      rw [hraw, Utf8.encode_append]
      exact List.mem_append_left _ hb
  | option value =>
    rw [relexes_iff htext hsplit hstands hbefore (List.nil_append _).symm rfl]
    exact and_congr_right fun _ => survives_name rfl
  | command value =>
    rw [relexes_iff htext hsplit hstands hbefore (List.nil_append _).symm rfl]
    exact and_congr_right fun _ => survives_name rfl

/-- What a candidate leaves of the current word is nothing, or the name of an option. -/
theorem attachedHead_offered (htext : Utf8.encode text = upTo line cursor)
    (hsplit : splitWords text = .ok (words, current))
    (hstands : Stands (upTo line cursor) words current) (hc : Offered current c) :
    ∃ head, attachedHead line cursor c = Utf8.encode head ∧ (head = [] ∨ IsHead head) := by
  cases hc with
  | value head rest value hraw hhead =>
    exact ⟨head, attachedHead_eq htext hsplit hstands hraw rfl, hhead.imp_right And.left⟩
  | option value => exact ⟨[], attachedHead_eq htext hsplit hstands rfl rfl, .inl rfl⟩
  | command value => exact ⟨[], attachedHead_eq htext hsplit hstands rfl rfl, .inl rfl⟩

/-- The words of a line that the lexer accepts are its tokens. And a candidate, once it is inserted,
comes back as the last token, after the name of the option that it is attached to, exactly if there
is room for it, it is no value with a double quote or a backslash, and no name with a blank, a quote
or a backslash. -/
theorem complete_survives (N : Nat) (root : RootSpec) (line : List UInt8) (cursor : Nat) :
    (∀ (buffer : List UInt8) (n : Nat) (text : Str) (lexed : Lexed), buffer.take n =
      Utf8.encode text → lex buffer n = .ok (.ok lexed) →
      ∃ words trailing, completionWords text = .ok (words, trailing) ∧ texts words = lexed.texts) ∧
    ∃ out, complete N root line cursor = .ok out ∧ ∀ c ∈ out,
        (∃ head, attachedHead line cursor c = Utf8.encode head ∧ (head = [] ∨ IsHead head)) ∧
        (Relexes line cursor c ↔ Survives line cursor c) := by
  constructor
  · intro buffer n text lexed hbuffer hlex
    have hbounds : n ≤ buffer.length ∧ n ≤ 2 ^ 16 - 1 := by
      by_contra hlong
      rw [lex, if_pos (by omega)] at hlex
      cases hlex
    obtain ⟨result, hresult, htexts⟩ := lex_agrees hbounds.1 hbounds.2
    obtain rfl := Except.ok.inj (hlex.symm.trans hresult)
    exact completionWords_lex text (hbuffer ▸ htexts.symm)
  · unfold complete
    cases hdecode : Utf8.decode? (upTo line cursor) with
    | none => exact ⟨[], rfl, List.forall_mem_nil _⟩
    | some text =>
      have htext := Utf8.encode_of_decode? hdecode
      obtain ⟨words, current, hsplit, hstands, hbefore⟩ := splitWords_stands text
      rw [htext] at hstands hbefore
      simp only [hsplit, ok_bind]
      refine ⟨_, rfl, fun c hc => ?_⟩
      have hoffered := offered_candidates root _ _ c hc
      exact ⟨attachedHead_offered htext hsplit hstands hoffered,
        relexes_survives htext hsplit hstands hbefore hoffered⟩

theorem insertAll_room {LINE n : Nat} {escape : EscapeState} {history : List Str}
    {index : Option Nat} {cr : Bool} (bytes : List UInt8) {p s : List UInt8} (hn : p.length = n)
    (hroom : (p ++ bytes ++ s).length ≤ LINE) :
    Editor.insertAll LINE ⟨p ++ s, n, escape, history, index, cr⟩ bytes =
      .ok (true, ⟨p ++ bytes ++ s, n + bytes.length, escape, history, index, cr⟩) := by
  subst hn
  induction bytes generalizing p with
  | nil =>
    rw [List.append_nil]
    rfl
  | cons b bytes ih =>
    have hnow : (p ++ s).length < LINE := by
      simp only [List.length_append, List.length_cons] at hroom ⊢
      omega
    rw [List.append_cons p b bytes] at hroom ⊢
    rw [Editor.insertAll, Editor.insert_room b hnow, ok_bind, List.append_cons p b s]
    have hrest := ih hroom
    rw [List.length_append, List.length_singleton, Nat.add_assoc, Nat.add_comm 1] at hrest
    exact hrest

/-- The editor replaces the part of the line before its cursor if there is room for the line. -/
theorem replaceRange_replaced {LINE : Nat} {e : Editor} (hcursor : e.cursor ≤ e.line.length)
    (hat : c.replaceAt ≤ e.cursor) (hroom : (replaced e.line e.cursor c).length ≤ LINE) :
    e.replaceRange LINE c.replaceAt c.pre c.value c.quote false =
      .ok (true, { e with line := replaced e.line e.cursor c, cursor := c.stop }) := by
  obtain ⟨line, cursor, escape, history, index, cr⟩ := e
  simp only at hcursor hat hroom ⊢
  have hp : (line.take c.replaceAt).length = c.replaceAt :=
    List.length_take_of_le (Nat.le_trans hat hcursor)
  have hm : ((line.take cursor).drop c.replaceAt).length = cursor - c.replaceAt := by
    rw [List.length_drop, List.length_take_of_le hcursor]
  have hline : line.take c.replaceAt ++ (line.take cursor).drop c.replaceAt ++ line.drop cursor =
      line := by
    have htake := List.take_append_drop c.replaceAt (line.take cursor)
    rw [List.take_take, Nat.min_eq_left hat] at htake
    rw [htake, List.take_append_drop]
  obtain ⟨l, hcopy, hpops⟩ :=
    copyWithin_remove (line.take c.replaceAt) ((line.take cursor).drop c.replaceAt)
    (line.drop cursor)
  rw [hline, hp, hm, Nat.add_sub_cancel' hat] at hcopy
  rw [hm] at hpops
  have hbytes : Utf8.encode c.pre ++ (if c.quote then [0x22] else []) ++ Utf8.encode c.value ++
      (if c.quote then [0x22] else []) ++ (if false then [0x20] else []) = c.insertion :=
        List.append_nil _
  rw [replaced, Nat.min_eq_left hcursor] at hroom ⊢
  rw [Editor.replaceRange, Nat.min_eq_left hat]
  simp only [hcopy, ok_bind, hpops, Bool.false_eq_true, if_false]
  simp only [Bool.false_eq_true, if_false] at hbytes
  rw [hbytes]
  exact insertAll_room c.insertion hp hroom

/-- A command line with one argument, of which one value is known. -/
def oneValue (value : Str) : RootSpec :=
  ⟨⟨0, [{ ArgSpec.default with values := [⟨value, []⟩] }]⟩, []⟩

theorem complete_oneValue (value : Str) :
    complete 4 (oneValue value) [] 0 = .ok [⟨[], value, .value, 0, needsQuoting value⟩] := by
  have hsplit : splitWords [] = .ok ([], ⟨[], 0⟩) := by
    rw [splitWords_eq, completionWords, Utf8.encode_nil, wordsFrom_blank rfl]
    rfl
  rw [complete, show upTo [] 0 = Utf8.encode [] from rfl, Utf8.decode?_encode]
  simp only [hsplit, ok_bind]
  rfl

/-- The value `a b` comes back. -/
theorem complete_survives_blank : ∃ out, complete 4 (oneValue ['a', ' ', 'b']) [] 0 = .ok out ∧
    ∃ c ∈ out, c.quote = true ∧ Relexes [] 0 c := by
  obtain ⟨out, hout, hall⟩ := (complete_survives 4 (oneValue ['a', ' ', 'b']) [] 0).2
  obtain rfl := Except.ok.inj (hout.symm.trans (complete_oneValue ['a', ' ', 'b']))
  refine ⟨_, hout, _, List.mem_singleton_self _, by decide, ?_⟩
  exact (hall _ (List.mem_singleton_self _)).2.mpr
    ⟨by decide, by decide, List.all_iff_forall_prop.mp (by decide)⟩

/-- The value `a"b` is put between quotes, of which the lexer finds three. -/
theorem quoted_unterminated : ∃ out, complete 4 (oneValue ['a', '"', 'b']) [] 0 = .ok out ∧
    ∃ c ∈ out, c.quote = true ∧ lex (replaced [] 0 c) c.stop = .ok (.error .unterminatedQuote) ∧
      ¬Relexes [] 0 c := by
  refine ⟨_, complete_oneValue _, _, List.mem_singleton_self _, by decide, ?_⟩
  have hstop : Candidate.stop ⟨[], ['a', '"', 'b'], .value, 0, needsQuoting ['a', '"', 'b']⟩ ≤
      (replaced [] 0 ⟨[], ['a', '"', 'b'], .value, 0, needsQuoting ['a', '"', 'b']⟩).length := by
        decide
  obtain ⟨result, hresult, htexts⟩ := lex_agrees hstop (by decide)
  have herror : result = .error .unterminatedQuote := by
    cases result with
    | error kind => exact congrArg _ (Except.error.inj (htexts.trans rfl))
    | ok lexed => exact nomatch htexts.trans rfl
  rw [hresult, herror]
  refine ⟨rfl, ?_⟩
  rintro ⟨lexed, hlexed, -⟩
  rw [hresult, herror] at hlexed
  exact nomatch hlexed

end Microtun.Cli.Completion
