import Serene.MemoryBlocks
import Serene.TerminalText
import Serene.Zippers

/-!
# Drawing the edited line

The state of the line editor and the two functions that draw it. The memory
behind `buf` is all of the caller's array, and `out` collects what is written to
`ofd`; writing never fails here. As in `TerminalText`, `none` is an access
outside the memory or a loop that does not end.
-/

namespace LineDrawing

open ByteClasses UnicodeTables Utf8Texts TerminalText MemoryBlocks

structure LinenoiseState where
  buf : Bytes
  buflen : Nat
  prompt : Bytes
  pos : Nat
  oldcolpos : Nat
  len : Nat
  cols : Nat
  maxrows : Nat
  history_index : Nat
  out : Bytes
  deriving DecidableEq

def ansiFinal (b : UInt8) : Bool := (text "ABCDEFGHJKSTfm").contains b

/-- The length of the escape sequence at the front of `buf`, if there is one. -/
def isAnsiEscape : Bytes → Option Nat
  | 27 :: 91 :: rest => (rest.findIdx? ansiFinal).map (· + 3)
  | _ => none

def charWidth (cp : Nat) : Nat :=
  if unicodeIsCombiningChar cp then 0 else if unicodeIsWideChar cp then 2 else 1

theorem isAnsiEscape_pos {buf : Bytes} {len : Nat} (found : isAnsiEscape buf = some len) :
    0 < len ∧ 0 < buf.length := by
  unfold isAnsiEscape at found
  split at found
  next rest =>
    obtain ⟨i, -, rfl⟩ := Option.map_eq_some_iff.mp found
    simp
  next => cases found

/-- Columns taken by `buf`, escape sequences apart. Where no character can be decoded the loop of
the source stays where it is. -/
def unicodeColumnPos (buf : Bytes) : Option Nat :=
  if _some : 0 < buf.length then
    match _found : isAnsiEscape buf with
    | some len => unicodeColumnPos (buf.drop len)
    | none =>
      match unicodeUTF8CharToCodePoint buf buf.length with
      | some (len + 1, cp) => (unicodeColumnPos (buf.drop (len + 1))).map (charWidth cp + ·)
      | _ => none
  else some 0
termination_by buf.length
decreasing_by
  · have := (isAnsiEscape_pos _found).1
    rw [List.length_drop]
    omega
  · rw [List.length_drop]
    omega

/-- The loop of `unicodeColumnPosForMultiLine` from the offset `off` on. -/
def columnPosLoop (buf : Bytes) (pos cols off ret colwid : Nat) : Option Nat :=
  if _inside : off < buf.length then
    match unicodeUTF8CharToCodePoint (buf.drop off) (buf.length - off) with
    | none => none
    | some (len, cp) =>
      let wid := charWidth cp
      -- a character that does not fit leaves the rest of the row empty
      let (ret, colwid) :=
        if cols < colwid + wid then (ret + (colwid + wid - cols), wid)
        else if colwid + wid = cols then (ret, 0)
        else (ret, colwid + wid)
      if pos ≤ off then some ret
      else if _moves : 0 < len then columnPosLoop buf pos cols (off + len) (ret + wid) colwid
      else none
  else some ret
termination_by buf.length - off

def unicodeColumnPosForMultiLine (buf : Bytes) (pos cols ini_pos : Nat) : Option Nat :=
  columnPosLoop buf pos cols 0 0 ini_pos

/-- `snprintf(seq, 64, "\x1b[%d?", n)` with the letter of the command for `?`. -/
def csi (n : Int) (command : UInt8) : Bytes := text "\x1b[" ++ text (toString n) ++ [command]

/-- `"\x1b[0K"`. -/
def eraseToRight : Bytes := csi 0 'K'.toUInt8

/-- The first loop of `refreshSingleLine`: drop clusters on the left until the cursor is in the
window. `buf` is the memory from the first byte shown on. A cursor that the loop of the source
takes below 0 counts as no columns, as 0 does. -/
def dropLeft (pcolwid cols : Nat) (buf : Bytes) (len pos : Nat) : Option (Bytes × Nat × Nat) := do
  let width ← (load buf 0 pos).bind unicodeColumnPos
  if cols ≤ pcolwid + width then
    let glen ← unicodeGraphemeLen buf len 0
    if _moves : 0 < glen ∧ glen ≤ len then
      dropLeft pcolwid cols (buf.drop glen) (len - glen) (pos - glen)
    else none
  else some (buf, len, pos)
termination_by len

/-- The second loop of `refreshSingleLine`: drop clusters on the right until the rest fits. -/
def dropRight (pcolwid cols : Nat) (buf : Bytes) (len : Nat) : Option Nat := do
  let width ← (load buf 0 len).bind unicodeColumnPos
  if cols < pcolwid + width then
    let glen ← unicodePrevGraphemeLen buf len
    if _moves : 0 < glen ∧ glen ≤ len then dropRight pcolwid cols buf (len - glen) else none
  else some len
termination_by len

def refreshSingleLine (l : LinenoiseState) : Option LinenoiseState := do
  let pcolwid ← unicodeColumnPos l.prompt
  let (buf, len, pos) ← dropLeft pcolwid l.cols l.buf l.len l.pos
  let len ← dropRight pcolwid l.cols buf len
  let shown ← load buf 0 len
  let width ← (load buf 0 pos).bind unicodeColumnPos
  return { l with
    out := l.out ++ (text "\r" ++ l.prompt ++ shown ++ eraseToRight ++
      (text "\r" ++ csi (width + pcolwid : Nat) 'C'.toUInt8)) }

/-- `n` times `"\r\x1b[0K\x1b[1A"`. -/
def clearRows : Nat → Bytes
  | 0 => []
  | n + 1 => text "\r" ++ eraseToRight ++ csi 1 'A'.toUInt8 ++ clearRows n

def refreshMultiLine (l : LinenoiseState) : Option LinenoiseState := do
  let pcolwid ← unicodeColumnPos l.prompt
  let line ← load l.buf 0 l.len
  let colpos ← unicodeColumnPosForMultiLine line l.len l.cols pcolwid
  -- the divisions by the number of columns
  if l.cols = 0 then none
  else
    let rows := (pcolwid + colpos + l.cols - 1) / l.cols
    let rpos := (pcolwid + l.oldcolpos + l.cols) / l.cols
    let old_rows := l.maxrows
    let maxrows := max rows l.maxrows
    let down := if rpos < old_rows then csi ((old_rows : Int) - rpos) 'B'.toUInt8 else []
    let cleared := clearRows (old_rows - 1) ++ (text "\r" ++ eraseToRight)
    let colpos2 ← unicodeColumnPosForMultiLine line l.pos l.cols pcolwid
    let edge := l.pos ≠ 0 ∧ l.pos = l.len ∧ (colpos2 + pcolwid) % l.cols = 0
    let newline := if edge then text "\n\r" else []
    let rows := if edge then rows + 1 else rows
    let maxrows := if edge then max rows maxrows else maxrows
    let rpos2 := (pcolwid + colpos2 + l.cols) / l.cols
    let up := if rpos2 < rows then csi ((rows : Int) - rpos2) 'A'.toUInt8 else []
    let col := (pcolwid + colpos2) % l.cols
    let column := if col ≠ 0 then text "\r" ++ csi col 'C'.toUInt8 else text "\r"
    return { l with
      maxrows, oldcolpos := colpos2,
      out := l.out ++ (down ++ cleared ++ l.prompt ++ line ++ newline ++ up ++ column) }

def refreshLine (mlmode : Bool) (l : LinenoiseState) : Option LinenoiseState :=
  if mlmode then refreshMultiLine l else refreshSingleLine l

end LineDrawing
