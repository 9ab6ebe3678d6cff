import Microtun.Cli.Parse
import Microtun.Cli.Schema
import Microtun.Lib.Utf8

/-! The completion of a line, `completion.rs`. -/

namespace Microtun.Cli.Completion

inductive CandidateKind where
  | command
  | option
  | value
deriving DecidableEq, Repr

structure Candidate where
  pre : Str
  value : Str
  kind : CandidateKind
  /-- The offset in the line at which replacement begins. -/
  replaceAt : Nat
  /-- The value is inserted between double quotes. -/
  quote : Bool
deriving DecidableEq, Repr

/-- `str::len`. -/
def len (s : Str) : Nat := (Utf8.encode s).length

def needsQuoting (value : Str) : Bool :=
  value.isEmpty || (Utf8.encode value).any fun byte => isSpace byte || isQuote byte || byte =
    backslash

def pushUnique (N : Nat) (out : List Candidate) (candidate : Candidate) : List Candidate :=
  if out.any fun item => item.pre == candidate.pre && item.value == candidate.value &&
      item.replaceAt == candidate.replaceAt then out
  else if out.length < N then out ++ [candidate]
  else out

/-- What `Logical` gives from the quote that is open. -/
def logicalFrom : Option UInt8 → List UInt8 → List UInt8
  | _, [] => []
  | quote, byte :: rest =>
    if quote = some byte then logicalFrom none rest
    else if byte = backslash then
      match rest with
      | [] => []
      | escaped :: rest => escaped :: logicalFrom quote rest
    else if quote = none ∧ isQuote byte then logicalFrom (some byte) rest
    else byte :: logicalFrom quote rest

/-- `Logical`, by what it gives. -/
def logical (raw : Str) : List UInt8 := logicalFrom none (Utf8.encode raw)

def logicalIsPrefixOf (raw candidate : Str) : Bool :=
  (logical raw).isPrefixOf (Utf8.encode candidate)

def isPlain (raw : Str) : Bool := !(Utf8.encode raw).any fun byte => isQuote byte || byte =
    backslash

mutual

/-- The arguments that `visit_args` calls its function on for one argument: a group stands for what
is in it. -/
def visitArg : ArgSpec → List ArgSpec
  | ⟨short, long, aliases, visibleAliases, global, kind, action, values, children⟩ =>
    if kind = .flatten then visitArgs children
    else [⟨short, long, aliases, visibleAliases, global, kind, action, values, children⟩]

def visitArgs : List ArgSpec → List ArgSpec
  | [] => []
  | arg :: rest => visitArg arg ++ visitArgs rest

end

def argLongMatches (arg : ArgSpec) (name : Str) : Bool :=
  arg.long = some name || arg.aliases.contains name || arg.visibleAliases.contains name

def shortToken (token : Str) (short : Char) : Bool := token = ['-', short]

/-- `str::split_once`. -/
def splitOnce (c : Char) (s : Str) : Option (Str × Str) :=
  match s.dropWhile (· ≠ c) with
  | [] => none
  | _ :: after => some (s.takeWhile (· ≠ c), after)

/-- The names of the values of an argument. -/
def valueNames (arg : ArgSpec) : List Str :=
  arg.values.flatMap fun value => value.name :: value.visibleAliases

variable (N : Nat)

def addValueCandidates (arg : ArgSpec) (current : Str) (replaceAt : Nat) (out : List Candidate) :
    List Candidate :=
  let add := fun out value =>
    if logicalIsPrefixOf current value then
      pushUnique N out ⟨[], value, .value, replaceAt, needsQuoting value⟩
    else out
  (valueNames arg).foldl add out

def optionValueCandidates (args : List ArgSpec) (previous current : Str) (replaceAt : Nat)
    (globalsOnly : Bool) (out : List Candidate) : Bool × List Candidate :=
  let visit := fun ((found, out) : Bool × List Candidate) (arg : ArgSpec) =>
    if globalsOnly && !arg.global then (found, out)
    else if arg.kind ≠ .option then (found, out)
    else
      let previousLong := (['-', '-'].isPrefixOf? previous).getD previous
      let isMatch := argLongMatches arg previousLong || arg.short.any (shortToken previous)
      if !isMatch || arg.values.isEmpty then (found, out)
      else (true, addValueCandidates N arg current replaceAt out)
  (visitArgs args).foldl visit (false, out)

/-- The value attached to the name of an option, and the offset of it. -/
def attachedValue (arg : ArgSpec) (current : Str) : Option (Str × Nat) :=
  let long := (['-', '-'].isPrefixOf? current).bind fun rest =>
    (splitOnce '=' rest).bind fun (name, value) =>
    if argLongMatches arg name then some (value, len current - len value) else none
  let short :=
    match current with
    | '-' :: tokenShort :: value =>
      if tokenShort = '-' then none
      else if arg.short ≠ some tokenShort then none
      else if value.isEmpty then none
      else
        let base := 1 + tokenShort.utf8Size
        match value with
        | '=' :: rest => some (rest, base + 1)
        | _ => some (value, base)
    | _ => none
  long.or short

def attachedOptionValueCandidates (args : List ArgSpec) (current : Str) (tokenAt : Nat)
    (globalsOnly : Bool) (out : List Candidate) : Bool × List Candidate :=
  let visit := fun ((found, out) : Bool × List Candidate) (arg : ArgSpec) =>
    if found || (globalsOnly && !arg.global) || arg.kind ≠ .option ||
      arg.values.isEmpty then (found, out)
    else
      match attachedValue arg current with
      | some (value, offset) => (true, addValueCandidates N arg value (tokenAt + offset) out)
      | none => (found, out)
  if !isPlain current then (false, out)
  else (visitArgs args).foldl visit (false, out)

/-- Does a token name an option, and does the option take the next token? -/
def optionConsumesNext (args : List ArgSpec) (token : Str) (globalsOnly : Bool) : Option Bool :=
  (visitArgs args).findSome? fun arg =>
    if globalsOnly && !arg.global then none
    else if arg.kind ≠ .option && arg.kind ≠ .flag then none
    else
      let long := (['-', '-'].isPrefixOf? token).bind fun rest =>
        let (name, attached) := match splitOnce '=' rest with
          | some (name, _) => (name, true)
          | none => (rest, false)
        if argLongMatches arg name then some (arg.kind = .option && !attached) else none
      let short := arg.short.bind fun short =>
        if shortToken token short then some (decide (arg.kind = .option))
        else if arg.kind = .option && ['-'].isPrefixOf token && !(['-', '-'].isPrefixOf token) then
          match token with
          | _ :: ch :: rest => if ch = short && !rest.isEmpty then some false else none
          | _ => none
        else none
      long.or short

def positionalAt (args : List ArgSpec) (index : Nat) : Option ArgSpec :=
  let visit := fun ((position, lastRepeated, answer) : Nat × Option ArgSpec × Option ArgSpec)
    (arg : ArgSpec) =>
    if answer.isSome || arg.kind ≠ .positional then (position, lastRepeated, answer)
    else if position = index then (position, lastRepeated, some arg)
    else (position + 1, if arg.action = .append then some arg else lastRepeated, answer)
  let (position, lastRepeated, answer) := (visitArgs args).foldl visit (0, none, none)
  answer.or (lastRepeated.filter fun _ => position ≤ index)

/-- A token of the line, with its offset. -/
structure Word where
  raw : Str
  start : Nat
deriving DecidableEq, Repr

/-- How many bytes the loop over a word takes, from the quote that is open. -/
def wordLength : Option UInt8 → List UInt8 → Nat
  | _, [] => 0
  | some q, byte :: rest =>
    if byte = q then wordLength none rest + 1
    else if byte = backslash then
      match rest with
      | [] => 1
      | _ :: rest => wordLength (some q) rest + 2
    else wordLength (some q) rest + 1
  | none, byte :: rest =>
    if isQuote byte then wordLength (some byte) rest + 1
    else if byte = backslash then
      match rest with
      | [] => 1
      | _ :: rest => wordLength none rest + 2
    else if isSpace byte then 0
    else wordLength none rest + 1

theorem wordLength_pos {byte : UInt8} (h : isSpace byte = false) (rest : List UInt8) :
    0 < wordLength none (byte :: rest) := by
  unfold wordLength
  split
  · exact Nat.succ_pos _
  split
  · split <;> exact Nat.succ_pos _
  · rw [if_neg (by simp [h])]
    exact Nat.succ_pos _

theorem isSpace_of_dropWhile {byte : UInt8} {rest more : List UInt8}
    (h : rest.dropWhile isSpace = byte :: more) : isSpace byte = false := by
  have := List.head?_dropWhile_not isSpace rest
  rwa [h] at this

/-- The loop over the words, from an offset, with what follows it. A slice of a text that is not at
the bounds of characters is not a text. -/
def wordsFrom (words : List Word) (trailingSpace : Bool) (read : Nat) (rest : List UInt8) :
    Except Panic (List Word × Bool) :=
  match _h : rest.dropWhile isSpace with
  | [] => return (words, trailingSpace || !rest.isEmpty)
  | byte :: more =>
    let start := read + (rest.length - (byte :: more).length)
    let taken := wordLength none (byte :: more)
    match Utf8.decode? ((byte :: more).take taken) with
    | none => throw .index
    | some raw =>
      if words.length < maxTokens then
        wordsFrom (words ++ [⟨raw, start⟩]) false (start + taken) ((byte :: more).drop taken)
      else return (words, false)
termination_by rest.length
decreasing_by
  have hle : (byte :: more).length ≤ rest.length := _h ▸ (List.dropWhile_sublist isSpace).length_le
  have := wordLength_pos (isSpace_of_dropWhile _h) more
  rw [List.length_drop]
  rw [List.length_cons] at hle ⊢
  omega

def completionWords (text : Str) : Except Panic (List Word × Bool) :=
  wordsFrom [] false 0 (Utf8.encode text)

/-- Where the words before the current one lead to. -/
structure Walk where
  commands : List CommandSpec
  args : Args
  positionalSeen : Nat
  skipValue : Bool
  terminated : Bool

def Walk.step (root : RootSpec) (w : Walk) (word : Str) : Walk :=
  if w.skipValue then { w with skipValue := false }
  else if w.terminated then { w with positionalSeen := w.positionalSeen + 1 }
  else if word = optionTerminator then { w with terminated := true }
  else if ['-'].isPrefixOf word && word ≠ ['-'] then
    match (optionConsumesNext w.args.specs word false).or
      (optionConsumesNext root.args.specs word true) with
    | some consumes => { w with skipValue := consumes }
    | none => w
  else
    match findCommand w.commands word with
    | some command =>
      { w with commands := command.subcommands, args := command.args, positionalSeen := 0 }
    | none => { w with positionalSeen := w.positionalSeen + 1 }

/-- The words before the cursor, and the current one. -/
def splitWords (text : Str) : Except Panic (List Word × Word) := do
  let (words, trailingSpace) ← completionWords text
  if trailingSpace then return (words, ⟨[], len text⟩)
  else return (words.dropLast, words.getLast?.getD ⟨[], len text⟩)

/-- The names of the options that begin as the current word does. -/
def addOptions (args : List ArgSpec) (needle : Str) (replaceAt : Nat) (out : List Candidate) :
    List Candidate :=
  let add := fun out value =>
    if needle.isPrefixOf value then pushUnique N out ⟨['-', '-'], value, .option, replaceAt, false⟩
      else out
  (args.flatMap fun arg => arg.long.toList ++ arg.visibleAliases).foldl add out

def addCommands (commands : List CommandSpec) (current : Str) (replaceAt : Nat)
    (out : List Candidate) :
    List Candidate :=
  let add := fun out value =>
    if logicalIsPrefixOf current value then pushUnique N out ⟨[], value, .command, replaceAt, false⟩
      else out
  ((commandIter commands).flatMap fun command => command.name :: command.visibleAliases).foldl add
    out

/-- The candidates for the current word. -/
def candidates (root : RootSpec) (w : Walk) (previous : Str) (current : Word) : List Candidate :=
  let isRoot := w.args.ptrEq root.args
  let positional := fun out =>
    match positionalAt w.args.specs w.positionalSeen with
    | some arg => addValueCandidates N arg current.raw current.start out
    | none => out
  if w.terminated then positional []
  else
    let (localAttached, out) :=
      attachedOptionValueCandidates N w.args.specs current.raw current.start false []
    let (globalAttached, out) :=
      if isRoot then (false, out)
      else attachedOptionValueCandidates N root.args.specs current.raw current.start true out
    if localAttached || globalAttached then out
    else
      let (localValue, out) :=
        optionValueCandidates N w.args.specs previous current.raw current.start false out
      let (globalValue, out) :=
        if isRoot then (false, out)
        else optionValueCandidates N root.args.specs previous current.raw current.start true out
      if localValue || globalValue then out
      else if ['-'].isPrefixOf current.raw && current.raw ≠ ['-'] then
        let needle := current.raw.dropWhile (· = '-')
        let out := addOptions N (visitArgs w.args.specs) needle current.start out
        if isRoot then out
        else addOptions N ((visitArgs root.args.specs).filter (·.global)) needle current.start out
      else addCommands N w.commands current.raw current.start (positional out)

/-- The part of a line up to the cursor. -/
def upTo (line : List UInt8) (cursor : Nat) : List UInt8 := line.take (min cursor line.length)

def complete (root : RootSpec) (line : List UInt8) (cursor : Nat) : Except Panic (List Candidate) :=
  match Utf8.decode? (upTo line cursor) with
  | none => return []
  | some text => do
    let (words, current) ← splitWords text
    let previous := (words.getLast?.map Word.raw).getD []
    let walk := (words.map Word.raw).foldl (Walk.step root)
      ⟨root.commands, root.args, 0, false, false⟩
    return candidates N root walk previous current

end Microtun.Cli.Completion
