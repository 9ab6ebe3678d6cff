import Microtun.Cli.Lexer

/-! The tables that describe a command line, `schema.rs`. -/

namespace Microtun.Cli

structure ValueSpec where
  name : Str
  visibleAliases : List Str
deriving DecidableEq, Repr

inductive ArgAction where
  | set
  | setTrue
  | setFalse
  | count
  | append
deriving DecidableEq, Repr

inductive ArgKind where
  | positional
  | option
  | flag
  | flatten
deriving DecidableEq, Repr

structure ArgSpec where
  short : Option Char
  long : Option Str
  aliases : List Str
  visibleAliases : List Str
  global : Bool
  kind : ArgKind
  action : ArgAction
  values : List ValueSpec
  children : List ArgSpec

/-- The fields of `ArgSpec::DEFAULT`. -/
def ArgSpec.default : ArgSpec := ⟨none, none, [], [], false, .positional, .set, [], []⟩

/-- A `&'static [ArgSpec]`, of which `core::ptr::eq` compares the address and the length. -/
structure Args where
  address : Nat
  specs : List ArgSpec

def Args.ptrEq (a b : Args) : Bool := a.address == b.address && a.specs.length == b.specs.length

structure CommandSpec where
  name : Str
  aliases : List Str
  visibleAliases : List Str
  args : Args
  subcommands : List CommandSpec
  /-- A group, whose commands stand for it. -/
  flatten : Bool

structure RootSpec where
  args : Args
  commands : List CommandSpec

namespace CommandSpec

/-- Does a name select the command? -/
def matchesName (c : CommandSpec) (name : Str) : Bool :=
  !c.flatten && (c.name == name || c.aliases.contains name || c.visibleAliases.contains name)

end CommandSpec

def maxCommandFlattenDepth : Nat := 8

/-- What the iterator gives when `room` more groups go on its stack: a group that does not is
skipped. -/
def commandsIn : Nat → List CommandSpec → List CommandSpec
  | 0, commands => commands.filter (!·.flatten)
  | room + 1, commands =>
    commands.flatMap fun command =>
      if command.flatten then commandsIn room command.subcommands else [command]

/-- `CommandIter`, by what it gives.  The list itself is the first entry of the stack. -/
def commandIter (commands : List CommandSpec) : List CommandSpec :=
  commandsIn (maxCommandFlattenDepth - 1) commands

def findCommand (commands : List CommandSpec) (name : Str) : Option CommandSpec :=
  (commandIter commands).find? (·.matchesName name)

end Microtun.Cli
