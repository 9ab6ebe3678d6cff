import Mathlib.Data.List.DropRight
import Microtun.Cli.Editor

/-! An editor of whole characters: what the editor of bytes is for. The line is a text before the
cursor and a text after it. -/

namespace Microtun.Cli

structure Zipper where
  before : Str
  after : Str
deriving DecidableEq, Repr

/-- A character that ends a word. -/
def isBlank (ch : Char) : Bool := ch = ' ' || ch = '\t' || ch = '\n' || ch = '\x0c' || ch = '\r'

namespace Zipper

variable (z : Zipper)

def text : Str := z.before ++ z.after

def size : Nat := (Utf8.encode z.text).length

/-- The whole character or nothing. -/
def insert (limit : Nat) (ch : Char) : Zipper :=
  if z.size + ch.utf8Size ≤ limit then { z with before := z.before ++ [ch] } else z

def deleteLeft : Zipper := { z with before := z.before.dropLast }

def deleteRight : Zipper := { z with after := z.after.tail }

def left : Zipper :=
  match z.before.getLast? with
  | none => z
  | some ch => ⟨z.before.dropLast, ch :: z.after⟩

def right : Zipper :=
  match z.after with
  | [] => z
  | ch :: rest => ⟨z.before ++ [ch], rest⟩

def home : Zipper := ⟨[], z.text⟩

def stop : Zipper := ⟨z.text, []⟩

def killLeft : Zipper := { z with before := [] }

def killRight : Zipper := { z with after := [] }

def killWord : Zipper := { z with before := (z.before.rdropWhile isBlank).rdropWhile (!isBlank ·) }

end Zipper

/-- Where an escape sequence is. -/
inductive Escape where
  | normal
  | esc
  | csi (sequence : Str)
deriving DecidableEq, Repr

structure TextEditor where
  zipper : Zipper
  escape : Escape
  history : List Str
  recalled : Option Nat
  afterCr : Bool
deriving DecidableEq, Repr

/-- A keystroke of one character, or a call. -/
inductive Stroke where
  | key (ch : Char)
  | remember
  | clear
deriving DecidableEq, Repr

namespace TextEditor

def new : TextEditor := ⟨⟨[], []⟩, .normal, [], none, false⟩

variable (LINE HISTORY : Nat) (t : TextEditor)

def clear : TextEditor := { t with zipper := ⟨[], []⟩, recalled := none }

def recallEntry (index : Nat) : TextEditor :=
  { t with
    zipper := match t.history[index]? with
      | none => t.zipper
      | some text => ⟨text, []⟩
    recalled := some index }

def historyUp : TextEditor :=
  if t.history.isEmpty then t
  else t.recallEntry (match t.recalled with
    | none => t.history.length - 1
    | some 0 => 0
    | some (index + 1) => index)

def historyDown : TextEditor :=
  match t.recalled with
  | none => t
  | some index => if t.history.length ≤ index + 1 then t.clear else t.recallEntry (index + 1)

def remember : TextEditor :=
  let text := t.zipper.text
  if text.all isWhitespace || t.history.getLast? = some text then t
  else
    let history := if t.history.length = HISTORY then t.history.drop 1 else t.history
    { t with history := (push HISTORY history text).getD history }

def finish (sequence : Str) : TextEditor :=
  match sequence with
  | ['A'] => t.historyUp
  | ['B'] => t.historyDown
  | ['C'] => { t with zipper := t.zipper.right }
  | ['D'] => { t with zipper := t.zipper.left }
  | ['H'] => { t with zipper := t.zipper.home }
  | ['1', '~'] => { t with zipper := t.zipper.home }
  | ['F'] => { t with zipper := t.zipper.stop }
  | ['4', '~'] => { t with zipper := t.zipper.stop }
  | ['3', '~'] => { t with zipper := t.zipper.deleteRight }
  | _ => t

def key (ch : Char) : TextEditor :=
  if ch = '\r' then { t with afterCr := true }
  else if ch = '\x1b' then { t with escape := .esc }
  else if ch = '\x01' then { t with zipper := t.zipper.home }
  else if ch = '\x05' then { t with zipper := t.zipper.stop }
  else if ch = '\x15' then { t with zipper := t.zipper.killLeft }
  else if ch = '\x0b' then { t with zipper := t.zipper.killRight }
  else if ch = '\x17' then { t with zipper := t.zipper.killWord }
  else if ch = '\x08' || ch = '\x7f' then { t with zipper := t.zipper.deleteLeft }
  else if 0x20 ≤ ch.toNat then { t with zipper := t.zipper.insert LINE ch }
  else t

def plain (ch : Char) : TextEditor :=
  if t.afterCr && (ch = '\n' || ch = '\x00') then { t with afterCr := false }
  else key LINE { t with afterCr := false } ch

def press (ch : Char) : TextEditor :=
  match t.escape with
  | .esc =>
    if ch = '[' || ch = 'O' then { t with escape := .csi [] }
    else ({ t with escape := .normal } : TextEditor).plain LINE ch
  | .csi sequence =>
    if ch.isAlpha || ch = '~' then ({ t with escape := .normal } : TextEditor).finish
      (sequence ++ [ch])
    else { t with escape := .csi (sequence ++ [ch]) }
  | .normal => t.plain LINE ch

def step : Stroke → TextEditor
  | .key ch => t.press LINE ch
  | .remember => t.remember HISTORY
  | .clear => t.clear

def run (strokes : List Stroke) : TextEditor := strokes.foldl (step LINE HISTORY) new

end TextEditor

namespace Editor

variable (LINE HISTORY : Nat)

/-- A keystroke: the bytes of its character. -/
def step (e : Editor) : Stroke → Except Panic Editor
  | .key ch => e.feedAll LINE (String.utf8EncodeChar ch)
  | .remember => .ok (e.remember LINE HISTORY)
  | .clear => .ok e.clear

def steps (e : Editor) : List Stroke → Except Panic Editor
  | [] => return e
  | s :: strokes => do steps (← e.step LINE HISTORY s) strokes

def run (strokes : List Stroke) : Except Panic Editor := steps LINE HISTORY new strokes

/-- The line is the text before the cursor and the text after it, within the capacity. -/
structure Shows (e : Editor) (z : Zipper) : Prop where
  line : e.line = Utf8.encode z.text
  cursor : e.cursor = (Utf8.encode z.before).length
  fits : e.line.length ≤ LINE

/-- A character is inserted. -/
def Types (e : Editor) (ch : Char) : Prop :=
  (∀ sequence, e.escape ≠ .csi sequence) ∧ ¬ (e.escape = .esc ∧ (ch = '[' ∨ ch = 'O')) ∧
    0x20 ≤ ch.toNat ∧ ch ≠ '\x7f'

/-- A character that is inserted is one byte, or has room, or the line is full. -/
def Fits (e : Editor) : Stroke → Prop
  | .key ch => e.Types ch → e.line.length + ch.utf8Size ≤ LINE ∨ e.line.length = LINE
  | _ => True

end Editor

end Microtun.Cli
