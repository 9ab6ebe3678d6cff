import Microtun.Cli.Candidates
import Microtun.Cli.Current

/-! What the lexer makes of text that was inserted after some tokens. -/

namespace Microtun.Cli

def quoteByte : UInt8 := 0x22

/-- A byte that means itself outside of quotes. -/
def Ordinary (b : UInt8) : Prop := isSpace b = false ∧ isQuote b = false ∧ b ≠ backslash

instance (b : UInt8) : Decidable (Ordinary b) := inferInstanceAs (Decidable (_ ∧ _ ∧ _))

namespace Reference

variable {tokens out : List (List UInt8)} {text bytes more : List UInt8}

theorem lex_end : lex tokens (some ⟨text, none⟩) [] = push tokens text := by
  rw [lex]
  rfl

theorem lex_copy {quote : Option UInt8} {b : UInt8} (hquote : quote ≠ some b)
    (hescape : b ≠ backslash) (h : quote = none → Ordinary b) :
    lex tokens (some ⟨text, quote⟩) (b :: more) = lex tokens (some ⟨text ++ [b], quote⟩) more := by
  have hopen : ¬(quote = none ∧ isQuote b = true) :=
    fun ⟨hnone, hb⟩ => by simp [(h hnone).2.1] at hb
  have hblank : ¬(quote = none ∧ isSpace b = true) := fun ⟨hnone, hb⟩ => by simp [(h hnone).1] at hb
  rw [lex_cons, if_neg hquote, if_neg hescape, if_neg hopen, if_neg hblank]

theorem lex_ordinary (h : ∀ b ∈ bytes, Ordinary b) :
    lex tokens (some ⟨text, none⟩) (bytes ++ more) = lex tokens
      (some ⟨text ++ bytes, none⟩) more := by
  induction bytes generalizing text with
  | nil => rw [List.nil_append, List.append_nil]
  | cons b bytes ih =>
    obtain ⟨hb, hbytes⟩ := List.forall_mem_cons.mp h
    rw [List.cons_append, lex_copy (Option.some_ne_none b).symm hb.2.2 fun _ => hb, ih hbytes,
      List.append_assoc, List.singleton_append]

theorem lex_quoted (h : ∀ b ∈ bytes, b ≠ quoteByte ∧ b ≠ backslash) :
    lex tokens (some ⟨text, some quoteByte⟩) (bytes ++ more) = lex tokens
      (some ⟨text ++ bytes, some quoteByte⟩) more := by
  induction bytes generalizing text with
  | nil => rw [List.nil_append, List.append_nil]
  | cons b bytes ih =>
    obtain ⟨⟨hb, hescape⟩, hbytes⟩ := List.forall_mem_cons.mp h
    rw [List.cons_append, lex_copy (fun heq => hb (Option.some.inj heq).symm) hescape (nomatch ·),
      ih hbytes, List.append_assoc, List.singleton_append]

theorem lex_open : lex tokens (some ⟨text, none⟩) (quoteByte :: more) = lex tokens
    (some ⟨text, some quoteByte⟩) more := by
  rw [lex_cons]
  rfl

theorem lex_close : lex tokens (some ⟨text, some quoteByte⟩) (quoteByte :: more) = lex tokens
    (some ⟨text, none⟩) more := by
  rw [lex_cons]
  rfl

/-- The last token is no longer than the word that is read and what is left of the line, and shorter
if a quote is open or a byte that is left is not ordinary. -/
def LastFits (out : List (List UInt8)) (w : Word) (rest : List UInt8) : Prop :=
  ∃ last, out.getLast? = some last ∧ last.length ≤ w.text.length + rest.length ∧
    (w.quote ≠ none ∨ (∃ b ∈ rest, ¬Ordinary b) → last.length < w.text.length + rest.length)

theorem LastFits.longer {w w' : Word} {rest rest' : List UInt8} (h : LastFits out w' rest')
    (hlt : w'.text.length + rest'.length < w.text.length + rest.length) : LastFits out w rest := by
  obtain ⟨last, hlast, hle, -⟩ := h
  exact ⟨last, hlast, Nat.le_of_lt (Nat.lt_of_le_of_lt hle hlt), fun _ =>
    Nat.lt_of_le_of_lt hle hlt⟩

theorem LastFits.copy {quote : Option UInt8} {b : UInt8} {rest : List UInt8}
    (h : LastFits out ⟨text ++ [b], quote⟩ rest) (hb : quote = none → Ordinary b) :
    LastFits out ⟨text, quote⟩ (b :: rest) := by
  obtain ⟨last, hlast, hle, hlt⟩ := h
  have hsize : (text ++ [b]).length + rest.length = text.length + (b :: rest).length := by
    rw [List.length_append, List.length_singleton, List.length_cons]
    omega
  simp only [hsize] at hle hlt
  refine ⟨last, hlast, hle, fun hstrict => hlt ?_⟩
  by_cases hquote : quote = none
  · obtain ⟨b', hb', hnot⟩ := hstrict.resolve_left fun h => h hquote
    rcases List.mem_cons.mp hb' with rfl | hrest
    · exact absurd (hb hquote) hnot
    · exact .inr ⟨b', hrest, hnot⟩
  · exact .inl hquote

theorem push_ok (h : push tokens text = .ok out) : tokens.length < maxTokens ∧ out = tokens ++
    [text] := by
  unfold push at h
  split at h
  · exact ⟨‹_›, (Except.ok.inj h).symm⟩
  · exact nomatch h

/-- After some tokens, a line is blank or has a last token of its own. -/
theorem last_fits {current : Option Word} (h : lex tokens current bytes = .ok out) :
    (current = none ∧ out = tokens ∧ ∀ b ∈ bytes, isSpace b = true) ∨
      LastFits out (current.getD ⟨[], none⟩) bytes := by
  fun_induction lex tokens current bytes with
  | case1 tokens => exact .inl ⟨rfl, (Except.ok.inj h).symm, List.forall_mem_nil _⟩
  | case2 => exact nomatch h
  | case3 tokens w hquote =>
    obtain ⟨-, rfl⟩ := push_ok h
    refine .inr ⟨w.text, List.getLast?_concat, Nat.le_refl _, fun hstrict => ?_⟩
    rcases hstrict with hopen | ⟨b, hb, -⟩
    · exact absurd hopen hquote
    · exact nomatch hb
  | case4 tokens current b rest w _ ih =>
    exact .inr (((ih h).resolve_left nofun).longer (Nat.lt_succ_self _))
  | case5 => exact nomatch h
  | case6 tokens current w c rest _ ih =>
    refine .inr (((ih h).resolve_left nofun).longer ?_)
    simp only [Option.getD_some, List.length_append, List.length_cons, List.length_nil, w]
    omega
  | case7 tokens current b rest w _ _ _ ih =>
    exact .inr (((ih h).resolve_left nofun).longer (Nat.lt_succ_self _))
  | case8 tokens b rest _ w _ _ hblank ih =>
    rcases ih h with ⟨-, hout, hrest⟩ | hlast
    · exact .inl ⟨rfl, hout, List.forall_mem_cons.mpr ⟨hblank.2, hrest⟩⟩
    · exact .inr (hlast.longer (Nat.lt_succ_self _))
  | case9 tokens b rest _ w _ _ _ _ ih =>
    cases hpush : push tokens w.text with
    | error kind =>
      rw [hpush] at h
      exact nomatch h
    | ok tokens' =>
      rw [hpush] at h
      obtain ⟨-, rfl⟩ := push_ok hpush
      rcases ih _ h with ⟨-, rfl, -⟩ | hlast
      · have hlt : w.text.length < w.text.length + (b :: rest).length :=
          Nat.lt_add_of_pos_right (Nat.succ_pos _)
        exact .inr ⟨w.text, List.getLast?_concat, Nat.le_of_lt hlt, fun _ => hlt⟩
      · refine .inr (hlast.longer ?_)
        simp only [Option.getD_some, Option.getD_none, List.length_cons, List.length_nil]
        omega
  | case10 tokens current b rest w hclose hescape hquote hblank ih =>
    refine .inr (((ih h).resolve_left nofun).copy fun hnone => ⟨?_, ?_, hescape⟩)
    · exact Bool.eq_false_of_not_eq_true fun hb => hblank ⟨hnone, hb⟩
    · exact Bool.eq_false_of_not_eq_true fun hb => hquote ⟨hnone, hb⟩

variable (tokens more) in
/-- Text without quotes that is not all blank comes back as the last token if all of it is ordinary.
-/
theorem lex_plain (h : bytes ≠ []) (hbytes : ∀ b ∈ bytes, Ordinary b) :
    lex tokens none (bytes ++ more) = lex tokens (some ⟨bytes, none⟩) more := by
  cases bytes with
  | nil => exact absurd rfl h
  | cons b bytes =>
    rw [List.cons_append, lex_start tokens (hbytes b List.mem_cons_self).1, ← List.cons_append,
      lex_ordinary hbytes, List.nil_append]

theorem insert_iff : (∃ out, lex tokens none bytes = .ok out ∧ out.getLast? = some bytes) ↔
    (tokens.length < maxTokens ∧ bytes ≠ [] ∧ ∀ b ∈ bytes, Ordinary b) ∨
      ((∀ b ∈ bytes, isSpace b = true) ∧ tokens.getLast? = some bytes) := by
  constructor
  · rintro ⟨out, hlex, hlast⟩
    rcases last_fits hlex with ⟨-, rfl, hblank⟩ | ⟨last, hlast', -, hlt⟩
    · exact .inr ⟨hblank, hlast⟩
    obtain rfl := Option.some.inj (hlast.symm.trans hlast')
    have hbytes : ∀ b ∈ bytes, Ordinary b := fun b hb => Decidable.byContradiction fun hnot =>
      absurd (hlt (.inr ⟨b, hb, hnot⟩)) (by simp)
    by_cases hne : bytes = []
    · subst hne
      exact .inr ⟨List.forall_mem_nil _, Except.ok.inj hlex ▸ hlast⟩
    · have hword := lex_plain tokens [] hne hbytes
      rw [List.append_nil, hlex, lex_end] at hword
      exact .inl ⟨(push_ok hword.symm).1, hne, hbytes⟩
  · rintro (⟨hroom, hne, hbytes⟩ | ⟨hblank, hlast⟩)
    · have hlex := lex_plain tokens [] hne hbytes
      rw [List.append_nil, lex_end, push, if_pos hroom] at hlex
      exact ⟨_, hlex, List.getLast?_concat⟩
    · have hlex := lex_blanks tokens hblank []
      rw [List.append_nil] at hlex
      exact ⟨_, hlex, hlast⟩

theorem lex_head {head : List UInt8} {b : UInt8} (h : ∀ b ∈ head, Ordinary b)
    (hb : isSpace b = false) :
    lex tokens none (head ++ b :: more) = lex tokens (some ⟨head, none⟩) (b :: more) := by
  by_cases hhead : head = []
  · rw [hhead, List.nil_append, lex_start tokens hb]
  · exact lex_plain _ _ hhead h

theorem lex_between {head value : List UInt8} (hhead : ∀ b ∈ head, Ordinary b)
    (hvalue : ∀ b ∈ value, b ≠ quoteByte ∧ b ≠ backslash) :
    lex tokens none (head ++ quoteByte :: (value ++ [quoteByte])) = push tokens
      (head ++ value) := by
  rw [lex_head hhead rfl, lex_open, lex_quoted hvalue, lex_close, lex_end]

theorem lex_between_lt {value : List UInt8}
    (h : lex tokens (some ⟨text, some quoteByte⟩) (value ++ [quoteByte]) = .ok out)
    (hvalue : ∃ b ∈ value, b = quoteByte ∨ b = backslash) :
    ∃ last, out.getLast? = some last ∧ last.length < text.length + value.length := by
  induction value generalizing text with
  | nil =>
    obtain ⟨b, hb, -⟩ := hvalue
    exact nomatch hb
  | cons b value ih =>
    rw [List.cons_append] at h
    by_cases hquote : b = quoteByte
    · subst hquote
      rw [lex_close] at h
      obtain ⟨last, hlast, -, hlt⟩ := (last_fits h).resolve_left nofun
      refine ⟨last, hlast, ?_⟩
      have := hlt (.inr ⟨quoteByte, List.mem_append_right _ (List.mem_singleton_self _), by decide⟩)
      simpa using this
    by_cases hescape : b = backslash
    · subst hescape
      cases value with
      | nil =>
        exact nomatch h
      | cons c value =>
        have hword : lex tokens (some ⟨text ++ [c], some quoteByte⟩) (value ++ [quoteByte]) =
            .ok out := h
        obtain ⟨last, hlast, -, hlt⟩ := (last_fits hword).resolve_left nofun
        refine ⟨last, hlast, ?_⟩
        have := hlt (.inl nofun)
        simp only [Option.getD_some, List.length_append, List.length_cons,
          List.length_nil] at this ⊢
        omega
    · rw [lex_copy (fun heq => hquote (Option.some.inj heq).symm) hescape (nomatch ·)] at h
      obtain ⟨b', hb', hbad⟩ := hvalue
      have hrest : b' ∈ value := by
        rcases List.mem_cons.mp hb' with rfl | hrest
        · exact absurd hbad (by simp [hquote, hescape])
        · exact hrest
      obtain ⟨last, hlast, hlt⟩ := ih h ⟨b', hrest, hbad⟩
      refine ⟨last, hlast, ?_⟩
      simp only [List.length_append, List.length_cons, List.length_nil] at hlt ⊢
      omega

/-- When a value that is inserted between quotes, after the head of a token, comes back. -/
theorem insert_between_iff {head value : List UInt8} (hhead : ∀ b ∈ head, Ordinary b) :
    (∃ out, lex tokens none (head ++ quoteByte :: (value ++ [quoteByte])) = .ok out ∧
      out.getLast? = some (head ++ value)) ↔
      tokens.length < maxTokens ∧ ∀ b ∈ value, b ≠ quoteByte ∧ b ≠ backslash := by
  constructor
  · rintro ⟨out, hlex, hlast⟩
    have hvalue : ∀ b ∈ value, b ≠ quoteByte ∧ b ≠ backslash := by
      intro b hb
      refine not_or.mp fun hbad => ?_
      rw [lex_head hhead rfl, lex_open] at hlex
      obtain ⟨last, hlast', hlt⟩ := lex_between_lt hlex ⟨b, hb, hbad⟩
      obtain rfl := Option.some.inj (hlast.symm.trans hlast')
      rw [List.length_append] at hlt
      exact Nat.lt_irrefl _ hlt
    exact ⟨(push_ok ((lex_between hhead hvalue).symm.trans hlex)).1, hvalue⟩
  · rintro ⟨hroom, hvalue⟩
    exact ⟨_, (lex_between hhead hvalue).trans (if_pos hroom), List.getLast?_concat⟩

end Reference

end Microtun.Cli
