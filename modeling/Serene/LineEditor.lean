import Serene.InputHistory
import Serene.LineDrawing

/-!
# The line editor

The editing functions, the dispatch on a key, and the loop of `linenoiseEdit`.
The input is the list of bytes that reading `ifd` gives; reading ends with it. A
read gives all the bytes it asks for while the input has them: a terminal that
hands over a part of a character only, a short read, is not modelled. A read
that leaves a byte of the caller's buffer undecided at the end of the input, as
an escape sequence cut short does, is `none` like an access outside the memory.
No completion callback is set, as none is in this program.
-/

namespace LineEditor

open ByteClasses Utf8Texts TerminalText MemoryBlocks LineDrawing InputHistory

/-- The C string in a block of memory, which must have a terminator. -/
def cString (mem : Bytes) : Option Bytes :=
  if nul ∈ mem then some (cStr mem) else none

section Edits
variable (mlmode : Bool) (l : LinenoiseState)

def linenoiseEditInsert (cbuf : Bytes) : Option LinenoiseState :=
  let clen := cbuf.length
  if l.len < l.buflen then
    if l.len = l.pos then do
      let buf ← store l.buf l.pos cbuf
      let buf ← store buf (l.len + clen) [nul]
      let l := { l with buf, pos := l.pos + clen, len := l.len + clen }
      if mlmode then refreshLine mlmode l
      else
        let pcolwid ← unicodeColumnPos l.prompt
        let width ← (load l.buf 0 l.len).bind unicodeColumnPos
        if pcolwid + width < l.cols then return { l with out := l.out ++ cbuf }
        else refreshLine mlmode l
    else do
      let buf ← move l.buf (l.pos + clen) l.pos (l.len - l.pos)
      let buf ← store buf l.pos cbuf
      let buf ← store buf (l.len + clen) [nul]
      refreshLine mlmode { l with buf, pos := l.pos + clen, len := l.len + clen }
  else some l

def linenoiseEditMoveLeft : Option LinenoiseState :=
  if 0 < l.pos then do
    let glen ← unicodePrevGraphemeLen l.buf l.pos
    refreshLine mlmode { l with pos := l.pos - glen }
  else some l

def linenoiseEditMoveRight : Option LinenoiseState :=
  if l.pos ≠ l.len then do
    let glen ← unicodeGraphemeLen l.buf l.len l.pos
    refreshLine mlmode { l with pos := l.pos + glen }
  else some l

def linenoiseEditMoveHome : Option LinenoiseState :=
  if l.pos ≠ 0 then refreshLine mlmode { l with pos := 0 } else some l

def linenoiseEditMoveEnd : Option LinenoiseState :=
  if l.pos ≠ l.len then refreshLine mlmode { l with pos := l.len } else some l

def linenoiseEditDelete : Option LinenoiseState :=
  if 0 < l.len ∧ l.pos < l.len then do
    let glen ← unicodeGraphemeLen l.buf l.len l.pos
    -- a cluster that ends behind the line would make the count of bytes negative
    if l.len < l.pos + glen then none
    else
      let buf ← move l.buf l.pos (l.pos + glen) (l.len - l.pos - glen)
      let buf ← store buf (l.len - glen) [nul]
      refreshLine mlmode { l with buf, len := l.len - glen }
  else some l

def linenoiseEditBackspace : Option LinenoiseState :=
  if 0 < l.pos ∧ 0 < l.len then do
    let glen ← unicodePrevGraphemeLen l.buf l.pos
    let buf ← move l.buf (l.pos - glen) l.pos (l.len - l.pos)
    let buf ← store buf (l.len - glen) [nul]
    refreshLine mlmode { l with buf, pos := l.pos - glen, len := l.len - glen }
  else some l

def linenoiseEditDeletePrevWord : Option LinenoiseState := do
  let pos ← backOver (fun b => b == ' '.toUInt8) l.buf l.pos
  let pos ← backOver (fun b => b != ' '.toUInt8) l.buf pos
  let diff := l.pos - pos
  let buf ← move l.buf pos l.pos (l.len - l.pos + 1)
  refreshLine mlmode { l with buf, pos, len := l.len - diff }

/-- `CTRL_T`: the bytes on the two sides of the cursor change places. -/
def transposeChars : Option LinenoiseState :=
  if 0 < l.pos ∧ l.pos < l.len then do
    let aux ← load l.buf (l.pos - 1) 1
    let here ← load l.buf l.pos 1
    let buf ← store l.buf (l.pos - 1) here
    let buf ← store buf l.pos aux
    refreshLine mlmode { l with buf, pos := if l.pos ≠ l.len - 1 then l.pos + 1 else l.pos }
  else some l

/-- `CTRL_U`. -/
def deleteLine : Option LinenoiseState := do
  let buf ← store l.buf 0 [nul]
  refreshLine mlmode { l with buf, pos := 0, len := 0 }

/-- `CTRL_K`. -/
def deleteToEnd : Option LinenoiseState := do
  let buf ← store l.buf l.pos [nul]
  refreshLine mlmode { l with buf, len := l.pos }

/-- `CTRL_L`, with `linenoiseClearScreen`. -/
def clearScreen : Option LinenoiseState :=
  refreshLine mlmode { l with out := l.out ++ text "\x1b[H\x1b[2J" }

end Edits

/-- The state of the editor and the history it works on. -/
structure Editor where
  state : LinenoiseState
  history : List Bytes
  deriving DecidableEq

/-- `LINENOISE_HISTORY_NEXT` and `LINENOISE_HISTORY_PREV`. -/
inductive Direction
  | next
  | prev
  deriving DecidableEq

section Keys
variable (mlmode : Bool)

/-- Put the entry `index` places before the last one in the line. -/
def showEntry (e : Editor) (index : Nat) : Option Editor := do
  let l := { e.state with history_index := index }
  let buf ← store l.buf 0 (List.replicate l.buflen 0)
  let entry ← e.history[e.history.length - 1 - index]?
  let buf ← store buf 0 (cStr entry ++ [nul])
  let len := (cStr entry).length
  let l ← refreshLine mlmode { l with buf, len, pos := len }
  return { e with state := l }

def linenoiseEditHistoryNext (e : Editor) (dir : Direction) : Option Editor :=
  let index := e.state.history_index
  if 1 < e.history.length then do
    let line ← cString e.state.buf
    if e.history.length ≤ index then none
    else
      let e := { e with history := e.history.set (e.history.length - 1 - index) line }
      match dir with
      | .next => if index = 0 then some e else showEntry mlmode e (index - 1)
      | .prev => if e.history.length ≤ index + 1 then some e else showEntry mlmode e (index + 1)
  else some e

def Editor.edit (e : Editor) (f : Bool → LinenoiseState → Option LinenoiseState) :
    Option Editor :=
  (f mlmode e.state).map fun l => { e with state := l }

/-- The bytes read as one character, its code point, and the input behind it; inside, `none` is
the end of the input or a byte that no character begins with. -/
def unicodeReadUTF8Char : Bytes → Option (Option (Bytes × Nat × Bytes))
  | [] => some none
  | byte :: input =>
    let more :=
      if byte &&& 0x80 = 0 then some 0
      else if byte &&& 0xE0 = 0xC0 then some 1
      else if byte &&& 0xF0 = 0xE0 then some 2
      else if byte &&& 0xF8 = 0xF0 then some 3
      else none
    match more with
    | none => some none
    | some n =>
      if n ≠ 0 ∧ input = [] then some none
      -- a short read leaves the rest of the character undecided
      else if input.length < n then none
      else do
        let cbuf := byte :: input.take n
        let (_, cp) ← unicodeUTF8CharToCodePoint cbuf 4
        return some (cbuf, cp, input.drop n)

/-- The bytes behind an ESC, and what is left of the input. -/
def escapeSequence (e : Editor) : Bytes → Option (Editor × Bytes)
  | a :: b :: input =>
    let edit (f : Bool → LinenoiseState → Option LinenoiseState) :=
      (e.edit mlmode f).map fun e => (e, input)
    let browse (dir : Direction) :=
      (linenoiseEditHistoryNext mlmode e dir).map fun e => (e, input)
    if a = '['.toUInt8 then
      if isdigit b then
        match input with
        | [] => none
        | d :: input =>
          if d = '~'.toUInt8 ∧ b = '3'.toUInt8 then
            (e.edit mlmode linenoiseEditDelete).map fun e => (e, input)
          else some (e, input)
      else if b = 'A'.toUInt8 then browse .prev
      else if b = 'B'.toUInt8 then browse .next
      else if b = 'C'.toUInt8 then edit linenoiseEditMoveRight
      else if b = 'D'.toUInt8 then edit linenoiseEditMoveLeft
      else if b = 'H'.toUInt8 then edit linenoiseEditMoveHome
      else if b = 'F'.toUInt8 then edit linenoiseEditMoveEnd
      else some (e, input)
    else if a = 'O'.toUInt8 then
      if b = 'H'.toUInt8 then edit linenoiseEditMoveHome
      else if b = 'F'.toUInt8 then edit linenoiseEditMoveEnd
      else some (e, input)
    else some (e, input)
  | _ => none

/-- One turn of the loop: it goes on, or `linenoiseEdit` returns a length or -1, here `none`. -/
inductive Turn
  | goesOn (e : Editor) (input : Bytes)
  | returns (result : Option Nat) (e : Editor) (input : Bytes)
  deriving DecidableEq

/-- The `switch` on the code point `c` of the character `cbuf`. -/
def handleKey (e : Editor) (cbuf : Bytes) (c : Nat) (input : Bytes) : Option Turn :=
  let edit (f : Bool → LinenoiseState → Option LinenoiseState) :=
    (e.edit mlmode f).map fun e => Turn.goesOn e input
  let browse (dir : Direction) :=
    (linenoiseEditHistoryNext mlmode e dir).map fun e => Turn.goesOn e input
  match c with
  | 13 => do
    let e := { e with history := e.history.dropLast }
    let e ← if mlmode then e.edit mlmode linenoiseEditMoveEnd else some e
    return .returns (some e.state.len) e input
  | 3 => some (.returns none e input)
  | 127 | 8 => edit linenoiseEditBackspace
  | 4 =>
    if 0 < e.state.len then edit linenoiseEditDelete
    -- `pop_back` of an empty vector has no meaning
    else if e.history = [] then none
    else some (.returns none { e with history := e.history.dropLast } input)
  | 20 => edit transposeChars
  | 2 => edit linenoiseEditMoveLeft
  | 6 => edit linenoiseEditMoveRight
  | 16 => browse .prev
  | 14 => browse .next
  | 27 => (escapeSequence mlmode e input).map fun (e, input) => .goesOn e input
  | 21 => edit deleteLine
  | 11 => edit deleteToEnd
  | 1 => edit linenoiseEditMoveHome
  | 5 => edit linenoiseEditMoveEnd
  | 12 => edit clearScreen
  | 23 => edit linenoiseEditDeletePrevWord
  | _ => edit fun mlmode l => linenoiseEditInsert mlmode l cbuf

def turn (e : Editor) (input : Bytes) : Option Turn :=
  (unicodeReadUTF8Char input).bind fun
    | none => some (.returns (some e.state.len) e input)
    | some (cbuf, c, input) => handleKey mlmode e cbuf c input

/-- The `while (1)` of `linenoiseEdit`, for at most `fuel` turns. -/
def editLoop : Nat → Editor → Bytes → Option (Option Nat × Editor × Bytes)
  | 0, _, _ => none
  | fuel + 1, e, input =>
    (turn mlmode e input).bind fun
      | .returns result e input => some (result, e, input)
      | .goesOn e input => editLoop fuel e input

end Keys

/-- `mem` is the caller's array, of `buflen` bytes, and `cols` what `getColumns` returns. The
result is the value returned, the editor as it is left, with the history, and the input that was
not read. -/
def linenoiseEdit (mlmode : Bool) (h : History) (cols : Nat) (mem prompt input : Bytes) :
    Option (Option Nat × Editor × Bytes) := do
  let buf ← store mem 0 [nul]
  let state := {
    buf, buflen := mem.length - 1, prompt, pos := 0, oldcolpos := 0, len := 0, cols,
    maxrows := 0, history_index := 0, out := prompt }
  editLoop mlmode (input.length + 1) ⟨state, (addHistory h []).2.history⟩ input

/-- Interactive editing in a buffer on the stack, which holds `mem`. A line, or `none` where the
caller is told to quit; the history as it is left; and the input that was not read. -/
def linenoiseRaw (mlmode : Bool) (h : History) (cols : Nat) (mem prompt input : Bytes) :
    Option (Option Bytes × History × Bytes) := do
  let (count, e, rest) ← linenoiseEdit mlmode h cols mem prompt input
  let h := { h with history := e.history }
  match count with
  | none => return (none, h, rest)
  | some count => return (some (← load e.state.buf 0 count), h, rest)

end LineEditor
