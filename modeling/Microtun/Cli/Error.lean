/-! The errors of the command line, `error.rs`. -/

namespace Microtun.Cli

inductive ParseErrorKind where
  | empty
  | tooManyTokens
  | lineTooLong
  | invalidUtf8
  | unterminatedQuote
  | trailingEscape
  | unknownCommand
  | unknownOption
  | unexpectedArgument
  | missingArgument
  | missingValue
  | invalidValue
  | tooManyValues
deriving DecidableEq, Repr

structure ParseError where
  kind : ParseErrorKind
  argument : Option String
  expected : Option String
deriving DecidableEq, Repr

namespace ParseError

def new (kind : ParseErrorKind) : ParseError := ⟨kind, none, none⟩

def forArgument (kind : ParseErrorKind) (argument : String) : ParseError :=
  ⟨kind, some argument, none⟩

end ParseError

end Microtun.Cli
