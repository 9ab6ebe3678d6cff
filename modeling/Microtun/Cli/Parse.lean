import Mathlib.Data.List.Basic
import Microtun.Cli.Lexer

/-! The extraction of arguments from the tokens of a line, `parse.rs`. -/

namespace Microtun.Cli

/-- The end-of-options marker. -/
def optionTerminator : Str := ['-', '-']

def shortMask (ch : Char) : Option (BitVec 128) :=
  if ch.toNat < 128 then some (1#128 <<< ch.toNat) else none

/-- A negative number rather than an option. -/
def isNegativeNumber : Str → Bool
  | '-' :: rest =>
    match rest with
    | [] => false
    | '.' :: more => more.head?.any Char.isDigit
    | ch :: _ => ch.isDigit
  | _ => false

/-- To be rejected where a value is expected. -/
def isOptionLike (token : Str) : Bool :=
  ['-'].isPrefixOf token && token != ['-'] && !isNegativeNumber token

/-- The body of a cluster of short options. -/
def shortCluster (token : Str) : Option Str :=
  if !(['-'].isPrefixOf token) || ['-', '-'].isPrefixOf token || token == ['-'] then none
  else if isNegativeNumber token then none
  else some (token.drop 1)

structure ShortUse where
  index : Nat
  /-- The letters claimed in the cluster. -/
  used : BitVec 128
  /-- An option claimed the value at the end of the cluster. -/
  valueTaken : Bool
deriving DecidableEq, Repr

structure ArgCursor where
  line : Lexed
  consumed : BitVec 64
  shortUse : List ShortUse
  /-- The letters that are known to take a value. -/
  valueShorts : BitVec 128
  terminator : Option Nat
deriving DecidableEq, Repr

namespace ArgCursor

variable (c : ArgCursor)

def isConsumed (index : Nat) : Bool := c.consumed &&& (1#64 <<< index) ≠ 0

def consume (index : Nat) : ArgCursor := { c with consumed := c.consumed ||| (1#64 <<< index) }

def new (line : Lexed) : ArgCursor :=
  let terminator := (List.range line.len).find? fun index =>
    (line.arg index).toOption = some optionTerminator
  let c : ArgCursor := ⟨line, 0, [], 0, terminator⟩
  match terminator with
  | some index => c.consume index
  | none => c

/-- One past the last token that may be an option. -/
def optionsEnd : Nat := c.terminator.getD c.line.len

def isValueShort (ch : Char) : Bool := (shortMask ch).any fun mask => c.valueShorts &&& mask ≠ 0

/-- Change the slot of a cluster, which is made if there is none. -/
def modifySlot (index : Nat) (f : ShortUse → ShortUse) : ArgCursor :=
  match c.shortUse.findIdx? (·.index = index) with
  | some position => { c with shortUse := c.shortUse.modify position f }
  | none =>
    if c.shortUse.length < maxTokens then { c with shortUse := c.shortUse ++ [f ⟨index, 0, false⟩] }
    else c

def recordShortUse (index : Nat) (ch : Char) : ArgCursor :=
  match shortMask ch with
  | none => c
  | some mask => c.modifySlot index fun entry => { entry with used := entry.used ||| mask }

def recordValueTaken (index : Nat) : ArgCursor :=
  c.modifySlot index fun entry => { entry with valueTaken := true }

def shortUsed (index : Nat) (ch : Char) : Bool :=
  match shortMask ch with
  | none => false
  | some mask => (c.shortUse.find? (·.index = index)).any fun entry => entry.used &&& mask ≠ 0

def valueTaken (index : Nat) : Bool := (c.shortUse.find? (·.index = index)).any (·.valueTaken)

/-- What follows a letter in a cluster.  After a letter that takes a value comes its value. -/
def locateShort (short : Char) : Str → Option Str
  | [] => none
  | ch :: after =>
    if ch = short then some after
    else if c.isValueShort ch then none
    else locateShort short after

/-- How often a letter is among the flags of a cluster. -/
def countShort (short : Char) : Str → Nat
  | [] => 0
  | ch :: after =>
    if ch = short then countShort short after + 1
    else if c.isValueShort ch then 0
    else countShort short after

def settledFrom (index : Nat) : Str → Bool
  | [] => true
  | ch :: rest =>
    if !c.shortUsed index ch then false
    else if c.isValueShort ch then c.valueTaken index
    else settledFrom index rest

/-- All letters of a cluster are claimed, and the value at its end if it has one. -/
def clusterSettled (index : Nat) (token : Str) : Bool :=
  match shortCluster token with
  | none => false
  | some [] => false
  | some body => c.settledFrom index body

end ArgCursor

def longMatches (token long : Str) : Bool := (optionTerminator.isPrefixOf? token).any (· = long)

namespace ArgCursor

variable (c : ArgCursor)

/-- One turn of the loop of `take_flag`: the cursor if the flag is found at an index. -/
def flagAt (long : Option Str) (short : Option Char) (index : Nat) : Option ArgCursor :=
  if c.isConsumed index then none
  else match c.line.arg index with
  | .error _ => none
  | .ok token =>
    if long.any (longMatches token) then some (c.consume index)
    else match short, shortCluster token with
    | some short, some body =>
      if (c.locateShort short body).isSome && !c.shortUsed index short then
        some (c.recordShortUse index short)
      else none
    | _, _ => none

def takeFlag (long : Option Str) (short : Option Char) : Bool × ArgCursor :=
  match (List.range c.optionsEnd).findSome? (c.flagAt long short) with
  | some c => (true, c)
  | none => (false, c)

/-- One turn of the loop of `take_flag_count`. -/
def countAt (long : Option Str) (short : Option Char) (count : Nat) (index : Nat) :
    Nat × ArgCursor :=
  if c.isConsumed index then (count, c)
  else match c.line.arg index with
  | .error _ => (count, c)
  | .ok token =>
    if long.any (longMatches token) then (min (count + 1) 255, c.consume index)
    else match short, shortCluster token with
    | some short, some body =>
      let hits := c.countShort short body
      if 0 < hits && !c.shortUsed index short then
        (min (count + min hits 255) 255, c.recordShortUse index short)
      else (count, c)
    | _, _ => (count, c)

def takeFlagCount (long : Option Str) (short : Option Char) : Nat × ArgCursor :=
  (List.range c.optionsEnd).foldl (fun (count, c) index => countAt c long short count index) (0, c)

/-- Claim the token after an index as the value of an option. -/
def takeDetachedValue (index : Nat) (argument : String) (allowHyphen : Bool) :
    Except ParseError Str × ArgCursor :=
  let valueIndex := index + 1
  if c.line.len ≤ valueIndex || c.isConsumed valueIndex then
    (.error (.forArgument .missingValue argument), c)
  else match c.line.arg valueIndex with
  | .error e => (.error e, c)
  | .ok token =>
    if !allowHyphen && isOptionLike token then (.error (.forArgument .missingValue argument), c)
    else (.ok token, c.consume valueIndex)

/-- One turn of the loop of `take_option_named`: what it returns, if it does. -/
def optionAt (long : Option Str) (short : Option Char) (argument : String) (allowHyphen : Bool)
    (index : Nat) : Option (Except ParseError Str × ArgCursor) :=
  if c.isConsumed index then none
  else match c.line.arg index with
  | .error e => some (.error e, c)
  | .ok token =>
    if long.any (longMatches token) then
      some ((c.consume index).takeDetachedValue index argument allowHyphen)
    else match long.bind fun long => (optionTerminator ++ long ++ ['=']).isPrefixOf? token with
    | some value => some (.ok value, c.consume index)
    | none =>
      match short with
      | none => none
      | some short =>
        if c.shortUsed index short then none
        else match (shortCluster token).bind (c.locateShort short) with
        | none => none
        | some after =>
          let c := (c.recordShortUse index short).recordValueTaken index
          match after with
          | '=' :: value => some (.ok value, c)
          | [] => some (c.takeDetachedValue index argument allowHyphen)
          | value => some (.ok value, c)

def takeOptionNamed (long : Option Str) (short : Option Char) (argument : String)
    (allowHyphen : Bool) : Except ParseError (Option Str) × ArgCursor :=
  match (List.range c.optionsEnd).findSome? (c.optionAt long short argument allowHyphen) with
  | some (.ok value, c) => (.ok (some value), c)
  | some (.error e, c) => (.error e, c)
  | none => (.ok none, c)

def takeOption (long : Option Str) (short : Option Char) :
    Except ParseError (Option Str) × ArgCursor :=
  c.takeOptionNamed long short "option" false

def afterTerminator (index : Nat) : Bool := c.terminator.any (· < index)

/-- The loop of `take_positional`. -/
def positionalFrom (c : ArgCursor) : List Nat → Except ParseError (Option Str) × ArgCursor
  | [] => (.ok none, c)
  | index :: rest =>
    if c.isConsumed index then positionalFrom c rest
    else match c.line.arg index with
    | .error e => (.error e, c)
    | .ok token =>
      if !c.afterTerminator index && c.clusterSettled index token then
        positionalFrom (c.consume index) rest
      else if !c.afterTerminator index && isOptionLike token then (.error (.new .unknownOption), c)
      else (.ok (some token), c.consume index)

def takePositional : Except ParseError (Option Str) × ArgCursor :=
  c.positionalFrom (List.range c.line.len)

/-- The loop of `finish`. -/
def finishFrom (c : ArgCursor) : List Nat → Except ParseError Unit × ArgCursor
  | [] => (.ok (), c)
  | index :: rest =>
    if c.isConsumed index then finishFrom c rest
    else match c.line.arg index with
    | .error e => (.error e, c)
    | .ok token =>
      if !c.afterTerminator index && c.clusterSettled index token then
        finishFrom (c.consume index) rest
      else if !c.afterTerminator index && isOptionLike token then (.error (.new .unknownOption), c)
      else (.error (.new .unexpectedArgument), c)

def finish : Except ParseError Unit × ArgCursor := c.finishFrom (List.range c.line.len)

end ArgCursor

end Microtun.Cli
