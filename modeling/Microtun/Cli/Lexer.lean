import Microtun.Cli.Error
import Microtun.PrefixTrie.Model

/-! The lexer of the shell, `lexer.rs`. It takes the quotes and escapes out of a line in the buffer
that holds the line: a write cursor follows the read cursor, and tokens are ranges of what was
written. -/

namespace Microtun.Cli

/-- A `&str`, by its characters. -/
abbrev Str := List Char

def maxTokens : Nat := 32

/-- A range of the buffer, as two `u16`. -/
structure Token where
  start : UInt16
  stop : UInt16
deriving DecidableEq, Repr

structure Lexed where
  bytes : List UInt8
  tokens : List Token
deriving DecidableEq, Repr

namespace Lexed

def len (l : Lexed) : Nat := l.tokens.length

/-- The bytes of a token. -/
def text (l : Lexed) (token : Token) : List UInt8 :=
  (l.bytes.take token.stop.toNat).drop token.start.toNat

def texts (l : Lexed) : List (List UInt8) := l.tokens.map l.text

/-- A token as text. -/
def arg (l : Lexed) (index : Nat) : Except ParseError Str :=
  match l.tokens[index]? with
  | none => .error (.new .unexpectedArgument)
  | some token =>
    match (ByteArray.mk (l.text token).toArray).utf8Decode? with
    | some chars => .ok chars.toList
    | none => .error (.new .invalidUtf8)

end Lexed

def isSpace (byte : UInt8) : Bool := byte = 0x20 || byte = 0x09 || byte = 0x0d || byte = 0x0a

def isQuote (byte : UInt8) : Bool := byte = 0x27 || byte = 0x22

def backslash : UInt8 := 0x5c

/-- Where the loops are: between two tokens, or inside the token that starts at an offset. -/
inductive Position where
  | between
  | inside (start : Nat) (quote : Option UInt8)
deriving DecidableEq, Repr

structure Lexer where
  buffer : List UInt8
  read : Nat
  write : Nat
  tokens : List Token
  position : Position
deriving DecidableEq, Repr

/-- What one turn of a loop comes to. -/
inductive Turn where
  | again (s : Lexer)
  | finished (r : Except ParseErrorKind Lexed)

namespace Lexer

variable (len : Nat) (s : Lexer)

/-- Copy the byte under the read cursor to the write cursor and move both. -/
def copy (read : Nat) (start : Nat) (quote : Option UInt8) : Except Panic Turn :=
  match s.buffer[read]? with
  | none => throw .index
  | some b =>
    if s.buffer.length ≤ s.write then throw .index
    else return .again { s with
      buffer := s.buffer.set s.write b
      read := read + 1
      write := s.write + 1
      position := .inside start quote }

/-- A backslash takes the next byte as it is. -/
def escape (start : Nat) (quote : Option UInt8) : Except Panic Turn :=
  if s.read + 1 = len then return .finished (.error .trailingEscape)
  else s.copy (s.read + 1) start quote

/-- The loop over the bytes of a token is left. -/
def endToken (start : Nat) (quote : Option UInt8) : Turn :=
  if quote ≠ none then .finished (.error .unterminatedQuote)
  else if s.tokens.length < maxTokens then .again { s with
    tokens := s.tokens ++ [⟨.ofNat start, .ofNat s.write⟩]
    position := .between }
  else .finished (.error .tooManyTokens)

/-- One turn of the loop that the lexer is in. -/
def turn : Except Panic Turn :=
  match s.position with
  | .between =>
    if s.read < len then
      match s.buffer[s.read]? with
      | none => throw .index
      | some b =>
        if isSpace b then return .again { s with read := s.read + 1 }
        else return .again { s with position := .inside s.write none }
    else return .finished (.ok ⟨s.buffer.take s.write, s.tokens⟩)
  | .inside start quote =>
    if s.read < len then
      match s.buffer[s.read]? with
      | none => throw .index
      | some b =>
        match quote with
        | some q =>
          if b = q then return .again { s with read := s.read + 1, position := .inside start none }
          else if b = backslash then s.escape len start quote
          else s.copy s.read start quote
        | none =>
          if isQuote b then
            return .again { s with read := s.read + 1, position := .inside start (some b) }
          else if b = backslash then s.escape len start quote
          else if isSpace b then return s.endToken start quote
          else s.copy s.read start quote
    else return s.endToken start quote

/-- The next turn moves no cursor. -/
def turns : Bool :=
  match s.position, s.buffer[s.read]? with
  | .between, some b => s.read < len && !isSpace b
  | .between, none => false
  | .inside _ quote, some b => len ≤ s.read || (quote = none && isSpace b)
  | .inside _ _, none => true

def measure : Nat := 2 * (len - s.read) + (s.turns len).toNat

variable {len s}

theorem measure_le (len : Nat) (s : Lexer) : s.measure len ≤ 2 * (len - s.read) + 1 :=
  Nat.add_le_add_left (Bool.toNat_le _) _

theorem measure_lt {s' : Lexer} (hread : s.read < len) (h : s.read < s'.read) :
    s'.measure len < s.measure len := by
  have := measure_le len s'
  unfold measure at this ⊢
  omega

theorem copy_lt {s' : Lexer} {read start : Nat} {quote : Option UInt8} (hread : s.read < len)
    (hle : s.read ≤ read) (h : s.copy read start quote = .ok (.again s')) :
    s'.measure len < s.measure len := by
  unfold copy at h
  cases hb : s.buffer[read]? with
  | none =>
    rw [hb] at h
    exact nomatch h
  | some b =>
    simp only [hb] at h
    split at h
    · exact nomatch h
    · obtain rfl := Turn.again.inj (Except.ok.inj h)
      exact measure_lt hread (Nat.lt_succ_of_le hle)

theorem escape_lt {s' : Lexer} {start : Nat} {quote : Option UInt8} (hread : s.read < len)
    (h : s.escape len start quote = .ok (.again s')) : s'.measure len < s.measure len := by
  unfold escape at h
  split at h
  · exact nomatch h
  · exact copy_lt hread (Nat.le_succ _) h

/-- The end of a token moves no cursor, and then blanks or the end of the line are next. -/
theorem endToken_lt {s' : Lexer} {start : Nat} {quote : Option UInt8}
    (hposition : s.position = .inside start quote)
    (hnext : len ≤ s.read ∨ quote = none ∧ ∃ b, s.buffer[s.read]? = some b ∧ isSpace b = true)
    (h : s.endToken start quote = .again s') : s'.measure len < s.measure len := by
  unfold endToken at h
  split at h
  · exact nomatch h
  split at h
  · obtain rfl := Turn.again.inj h
    have hnow : s.turns len = true := by
      unfold turns
      rw [hposition]
      rcases hnext with hend | ⟨rfl, b, hb, hspace⟩
      · cases s.buffer[s.read]? <;> simp [hend]
      · simp [hb, hspace]
    unfold measure
    rw [hnow]
    simp only [turns]
    rcases hnext with hend | ⟨rfl, b, hb, hspace⟩
    · cases s.buffer[s.read]? <;> simp [Nat.not_lt.mpr hend]
    · simp [hb, hspace]
  · exact nomatch h

theorem turn_lt {s' : Lexer} (h : s.turn len = .ok (.again s')) :
    s'.measure len < s.measure len := by
  unfold turn at h
  cases hposition : s.position with
  | between =>
    rw [hposition] at h
    simp only at h
    split at h
    · rename_i hread
      cases hb : s.buffer[s.read]? with
      | none =>
        rw [hb] at h
        cases h
      | some b =>
        simp only [hb] at h
        cases hspace : isSpace b with
        | true =>
          rw [if_pos hspace] at h
          obtain rfl := Turn.again.inj (Except.ok.inj h)
          exact measure_lt hread (Nat.lt_succ_self _)
        | false =>
          rw [if_neg (by simp [hspace])] at h
          obtain rfl := Turn.again.inj (Except.ok.inj h)
          simp [measure, turns, hposition, hb, hspace, hread, Nat.not_le.mpr hread]
    · cases h
  | inside start quote =>
    rw [hposition] at h
    simp only at h
    split at h
    · rename_i hread
      cases hb : s.buffer[s.read]? with
      | none =>
        rw [hb] at h
        cases h
      | some b =>
        simp only [hb] at h
        cases quote with
        | some q =>
          simp only at h
          split at h
          · obtain rfl := Turn.again.inj (Except.ok.inj h)
            exact measure_lt hread (Nat.lt_succ_self _)
          split at h
          · exact escape_lt hread h
          · exact copy_lt hread (Nat.le_refl _) h
        | none =>
          simp only at h
          split at h
          · obtain rfl := Turn.again.inj (Except.ok.inj h)
            exact measure_lt hread (Nat.lt_succ_self _)
          split at h
          · exact escape_lt hread h
          split at h
          · rename_i hspace
            exact endToken_lt hposition (.inr ⟨rfl, b, hb, hspace⟩) (Except.ok.inj h)
          · exact copy_lt hread (Nat.le_refl _) h
    · rename_i hend
      exact endToken_lt hposition (.inl (Nat.le_of_not_lt hend)) (Except.ok.inj h)

variable (len)

/-- The loops of `lex`. -/
def run (s : Lexer) : Except Panic (Except ParseErrorKind Lexed) :=
  match _h : s.turn len with
  | .error p => .error p
  | .ok (.finished r) => .ok r
  | .ok (.again s') => run s'
termination_by s.measure len
decreasing_by exact turn_lt _h

end Lexer

def lex (buffer : List UInt8) (len : Nat) : Except Panic (Except ParseErrorKind Lexed) :=
  if buffer.length < len ∨ 2 ^ 16 - 1 < len then return .error .lineTooLong
  else Lexer.run len ⟨buffer, 0, 0, [], .between⟩

end Microtun.Cli
