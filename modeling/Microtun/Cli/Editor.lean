import Microtun.Cli.Lexer
import Microtun.Lib.Utf8

/-! The line editor, `editor.rs`. It edits the bytes of the line in place, a byte of input at a
time. -/

namespace Microtun.Cli

open Utf8 (isContinuation)

inductive EditorEvent where
  | none
  | echo (byte : UInt8)
  | backspace
  | redraw
  | submit
  | complete
  | interrupt
  | clearScreen
deriving DecidableEq, Repr

inductive EscapeState where
  | normal
  | esc
  | csi (sequence : List UInt8)
deriving DecidableEq, Repr

structure Editor where
  line : List UInt8
  cursor : Nat
  escape : EscapeState
  /-- The oldest entry first. -/
  history : List Str
  historyIndex : Option Nat
  lastWasCr : Bool
deriving DecidableEq, Repr

/-- `slice::copy_within`, of a range to an offset. -/
def copyWithin (l : List UInt8) (start stop dest : Nat) : Except Panic (List UInt8) :=
  if start ≤ stop ∧ stop ≤ l.length ∧ dest + (stop - start) ≤ l.length then
    return l.take dest ++ (l.take stop).drop start ++ l.drop (dest + (stop - start))
  else throw .index

/-- A push to a vector of some capacity, if there is room. -/
def push {α : Type} (capacity : Nat) (l : List α) (a : α) : Option (List α) :=
  if l.length < capacity then some (l ++ [a]) else none

/-- A number of pops. -/
def pops (l : List UInt8) (count : Nat) : List UInt8 := l.take (l.length - count)

def isAsciiWhitespace (byte : UInt8) : Bool :=
  byte = 0x20 || byte = 0x09 || byte = 0x0a || byte = 0x0c || byte = 0x0d

def isAsciiAlphabetic (byte : UInt8) : Bool :=
  (0x41 ≤ byte && byte ≤ 0x5a) || (0x61 ≤ byte && byte ≤ 0x7a)

/-- The `White_Space` property of Unicode. -/
def isWhitespace (ch : Char) : Bool :=
  let n := ch.toNat
  (0x09 ≤ n && n ≤ 0x0d) || n = 0x20 || n = 0x85 || n = 0xa0 || n = 0x1680 ||
    (0x2000 ≤ n && n ≤ 0x200a) ||
    n = 0x2028 || n = 0x2029 || n = 0x202f || n = 0x205f || n = 0x3000

namespace Editor

def new : Editor := ⟨[], 0, .normal, [], none, false⟩

variable (LINE HISTORY : Nat) (e : Editor)

def clear : Editor := { e with line := [], cursor := 0, historyIndex := none }

/-- The loop of `prev_boundary`. -/
def prevFrom (bytes : List UInt8) : Nat → Except Panic Nat
  | 0 => return 0
  | index + 1 =>
    match bytes[index + 1]? with
    | none => throw .index
    | some byte => if isContinuation byte then prevFrom bytes index else return index + 1

def prevBoundary (index : Nat) : Except Panic Nat :=
  if index = 0 then return 0 else prevFrom e.line (index - 1)

/-- The loop of `next_boundary`, over what follows an index. -/
def nextFrom (index : Nat) : List UInt8 → Nat
  | [] => index
  | byte :: rest => if isContinuation byte then nextFrom (index + 1) rest else index

def nextBoundary (index : Nat) : Nat :=
  if e.line.length ≤ index then e.line.length else nextFrom (index + 1) (e.line.drop (index + 1))

def insert (byte : UInt8) : Except Panic (Bool × Editor) :=
  if e.line.length = LINE then return (false, e)
  else if e.cursor = e.line.length then
    match push LINE e.line byte with
    | some line => return (true, { e with line, cursor := e.cursor + 1 })
    | none => return (false, e)
  else
    match push LINE e.line 0 with
    | none => return (false, e)
    | some line => do
      let line ← copyWithin line e.cursor (line.length - 1) (e.cursor + 1)
      if line.length ≤ e.cursor then throw .index
      return (true, { e with line := line.set e.cursor byte, cursor := e.cursor + 1 })

def backspace : Except Panic (Bool × Editor) :=
  if e.cursor = 0 then return (false, e)
  else do
    let start ← e.prevBoundary e.cursor
    let count := e.cursor - start
    let line ← copyWithin e.line e.cursor e.line.length start
    return (true, { e with line := pops line count, cursor := start })

def delete : Except Panic (Bool × Editor) :=
  if e.line.length ≤ e.cursor then return (false, e)
  else do
    let stop := e.nextBoundary e.cursor
    let count := stop - e.cursor
    let line ← copyWithin e.line stop e.line.length e.cursor
    return (true, { e with line := pops line count })

def loadHistory (index : Nat) : Editor :=
  match e.history[index]? with
  | none => e
  | some entry =>
    let bytes := Utf8.encode entry
    let line := if bytes.length ≤ LINE then bytes else []
    { e with line, cursor := line.length }

def historyUp : Bool × Editor :=
  if e.history.isEmpty then (false, e)
  else
    let index := match e.historyIndex with
      | none => e.history.length - 1
      | some 0 => 0
      | some (index + 1) => index
    (true, loadHistory LINE { e with historyIndex := some index } index)

def historyDown : Bool × Editor :=
  match e.historyIndex with
  | none => (false, e)
  | some index =>
    if e.history.length ≤
      index + 1 then (true, { e with historyIndex := none, line := [], cursor := 0 })
    else (true, loadHistory LINE { e with historyIndex := some (index + 1) } (index + 1))

def remember : Editor :=
  match Utf8.decode? e.line with
  | none => e
  | some text =>
    if text.all isWhitespace then e
    else if e.history.getLast? = some text then e
    else if LINE < (Utf8.encode text).length then e
    else
      let history := if e.history.length = HISTORY then e.history.drop 1 else e.history
      { e with history := (push HISTORY history text).getD history }

/-- Bytes inserted until there is no room. -/
def insertAll (e : Editor) : List UInt8 → Except Panic (Bool × Editor)
  | [] => return (true, e)
  | byte :: bytes => do
    match ← e.insert LINE byte with
    | (true, e) => insertAll e bytes
    | (false, e) => return (false, e)

def replaceRange (start : Nat) (pre value : Str) (quote trailingSpace : Bool) :
    Except Panic (Bool × Editor) := do
  let start := min start e.cursor
  let remove := e.cursor - start
  let line ← copyWithin e.line e.cursor e.line.length start
  let e := { e with line := pops line remove, cursor := start }
  let quoteByte := if quote then [0x22] else []
  insertAll LINE e (Utf8.encode pre ++ quoteByte ++ Utf8.encode value ++ quoteByte ++
    if trailingSpace then [0x20] else [])

def finishCsi (sequence : List UInt8) : Except Panic (EditorEvent × Editor) :=
  match sequence with
  | [0x41] =>
    match e.historyUp LINE with
    | (true, e) => return (.redraw, e)
    | (false, e) => return (.none, e)
  | [0x42] =>
    match e.historyDown LINE with
    | (true, e) => return (.redraw, e)
    | (false, e) => return (.none, e)
  | [0x43] => return (.redraw, { e with cursor := e.nextBoundary e.cursor })
  | [0x44] => do
    let cursor ← e.prevBoundary e.cursor
    return (.redraw, { e with cursor })
  | [0x48] => return (.redraw, { e with cursor := 0 })
  | [0x31, 0x7e] => return (.redraw, { e with cursor := 0 })
  | [0x46] => return (.redraw, { e with cursor := e.line.length })
  | [0x34, 0x7e] => return (.redraw, { e with cursor := e.line.length })
  | [0x33, 0x7e] => do
    match ← e.delete with
    | (true, e) => return (.redraw, e)
    | (false, e) => return (.none, e)
  | _ => return (.none, e)

/-- A loop of `backspace` while the byte before the cursor is of a kind. -/
def eraseWhile (p : UInt8 → Bool) : Nat → Bool × Editor → Except Panic (Bool × Editor)
  | 0, _ => throw .diverges
  | fuel + 1, (changed, e) =>
    if e.cursor = 0 then return (changed, e)
    else match e.line[e.cursor - 1]? with
    | none => throw .index
    | some byte =>
      if p byte then do
        let (more, e) ← e.backspace
        eraseWhile p fuel (changed || more, e)
      else return (changed, e)

/-- The match on a byte that is not part of an escape sequence. -/
def key (byte : UInt8) : Except Panic (EditorEvent × Editor) :=
  if byte = 0x0d then return (.submit, { e with lastWasCr := true })
  else if byte = 0x0a then return (.submit, e)
  else if byte = 0x09 then return (.complete, e)
  else if byte = 0x1b then return (.none, { e with escape := .esc })
  else if byte = 0x03 then return (.interrupt, e)
  else if byte = 0x0c then return (.clearScreen, e)
  else if byte = 0x01 then return (.redraw, { e with cursor := 0 })
  else if byte = 0x05 then return (.redraw, { e with cursor := e.line.length })
  else if byte = 0x15 then
    if e.cursor = 0 then return (.none, e)
    else do
      let line ← copyWithin e.line e.cursor e.line.length 0
      return (.redraw, { e with line := pops line e.cursor, cursor := 0 })
  else if byte = 0x0b then return (.redraw, { e with line := e.line.take e.cursor })
  else if byte = 0x17 then do
    let (changed, e) ← eraseWhile isAsciiWhitespace (e.cursor + 1) (false, e)
    let (changed, e) ← eraseWhile (!isAsciiWhitespace ·) (e.cursor + 1) (changed, e)
    return (if changed then .redraw else .none, e)
  else if byte = 0x08 || byte = 0x7f then do
    let fast := e.cursor = e.line.length && 0 < e.cursor && e.line[e.cursor - 1]?.any (· < 0x80)
    let (changed, e) ← e.backspace
    return (if changed then (if fast then .backspace else .redraw) else .none, e)
  else if 0x20 ≤ byte then do
    let append := e.cursor = e.line.length
    let (changed, e) ← e.insert LINE byte
    return (if changed then (if append then .echo byte else .redraw) else .none, e)
  else return (.none, e)

/-- A byte that is not part of an escape sequence. A line feed or a NUL after a carriage return is
part of it. -/
def plain (byte : UInt8) : Except Panic (EditorEvent × Editor) :=
  if e.lastWasCr && (byte = 0x0a || byte = 0) then return (.none, { e with lastWasCr := false })
  else key LINE { e with lastWasCr := false } byte

def feed (byte : UInt8) : Except Panic (EditorEvent × Editor) :=
  let state := e.escape
  let e := { e with escape := .normal }
  match state with
  | .esc =>
    if byte = 0x5b || byte = 0x4f then return (.none, { e with escape := .csi [] })
    else e.plain LINE byte
  | .csi sequence =>
    let sequence := (push 8 sequence byte).getD sequence
    if isAsciiAlphabetic byte || byte = 0x7e then e.finishCsi LINE sequence
    else return (.none, { e with escape := .csi sequence })
  | .normal => e.plain LINE byte

/-- Bytes, one after the other. -/
def feedAll (e : Editor) : List UInt8 → Except Panic Editor
  | [] => return e
  | byte :: bytes => do
    let (_, e) ← e.feed LINE byte
    feedAll e bytes

end Editor

end Microtun.Cli
