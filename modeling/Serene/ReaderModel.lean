import Serene.AstNodes
import Serene.StatefulRuns

/-!
# The reader

The member functions of `Reader`, as `reader.cpp` has them. A pointer is an
offset from `buf.begin() - 1`, where the cursor starts: byte `i` of the buffer is
at pointer `i + 1`, and pointer 0 is before the memory. Every byte goes through
`deref`, which stops the run where the memory has no such byte. A loop is given
turns and the recursion of lists a depth; a run that uses them up is stopped
with `outOfTurns`, and the reader's own results are proved never to be that.
-/

namespace ReaderModel

open ByteClasses Locations AstNodes

/-- An `llvm::StringRef`: `size` bytes from the start of a memory that may go on. -/
structure StringRef where
  mem : Bytes
  size : Nat
  size_le : size ≤ mem.length

/-- The string with the terminator that `std::string` and `MemoryBuffer` put after it. -/
def StringRef.nulTerminated (buf : Bytes) : StringRef :=
  ⟨buf ++ [nul], buf.length, by simp⟩

def StringRef.at? (buf : StringRef) : Nat → Option UInt8
  | 0 => none
  | i + 1 => buf.mem[i]?

/-- The members of a `Reader` that no method changes. -/
structure Source where
  buf : StringRef
  ns : Bytes
  filename : Option Bytes

/-- The reader's members over a terminated buffer. -/
abbrev Source.ofText (buf ns : Bytes) (filename : Option Bytes) : Source :=
  ⟨.nulTerminated buf, ns, filename⟩

/-- A bound on the turns of any loop over the bytes of the memory. -/
def Source.turns (src : Source) : Nat := src.buf.mem.length + 1

/-- The members of a `Reader` that its methods change. -/
structure Reader where
  currentChar : Nat
  currentPos : Nat
  currentLocation : Location
  readEOL : Bool
  ast : Ast
  currentPos_eq : currentPos = currentChar + 1

/-- The constructor of `Reader`. -/
def Source.reader (src : Source) : Reader where
  currentChar := 0
  currentPos := 1
  currentLocation := { ns := src.ns, filename := src.filename, line := 1, col := 1 }
  readEOL := false
  ast := []
  currentPos_eq := rfl

/-- The index of the byte under the cursor; -1 before the first byte. -/
def Reader.index (r : Reader) : Int := r.currentChar - 1

/-- The return statement that an error leaves the reader through. -/
inductive Exit where
  | notADigit
  | secondPoint
  | letterAfterNumber
  | invalidCharacter
  | unterminatedList
deriving DecidableEq

inductive Stop where
  | failed (error : Error) (exit : Exit)
  | outOfBounds
  | assertionFailed
  | outOfTurns

abbrev ReaderM := EStateM Stop Reader

section Methods
variable (src : Source)

def deref (c : Nat) : ReaderM UInt8 :=
  match src.buf.at? c with
  | some byte => pure byte
  | none => throw .outOfBounds

theorem Reader.currentPos_bump (r : Reader) : r.currentPos + 1 = r.currentChar + 1 + 1 :=
  congrArg (· + 1) r.currentPos_eq

def Reader.bump (r : Reader) : Reader :=
  { r with
    currentChar := r.currentChar + 1
    currentPos := r.currentPos + 1
    currentLocation := { r.currentLocation with col := r.currentLocation.col + 1 }
    currentPos_eq := r.currentPos_bump }

def Reader.nextLine (r : Reader) : Reader :=
  { r with
    currentLocation := { r.currentLocation with line := r.currentLocation.line + 1, col := 1 } }

def advanceByOne : ReaderM Unit := do
  modify Reader.bump
  let r ← get
  let c ← deref src r.currentChar
  if c = newline then
    if r.readEOL then modify Reader.nextLine
    modify fun r => { r with readEOL := true }
  else
    if r.readEOL then modify Reader.nextLine
    modify fun r => { r with readEOL := false }

def advanceSpaces : Nat → ReaderM Unit
  | 0 => throw .outOfTurns
  | turns + 1 => do
    let r ← get
    let next ← deref src (r.currentChar + 1)
    if isspace next then
      advanceByOne src
      advanceSpaces turns
    else pure ()

def advance (skipWhitespace : Bool) : ReaderM Unit :=
  if skipWhitespace then advanceSpaces src src.turns else advanceByOne src

def skipSpaces : Nat → Nat → ReaderM Nat
  | 0, _ => throw .outOfTurns
  | turns + 1, c => do
    let byte ← deref src c
    if isspace byte then skipSpaces turns (c + 1) else pure c

def nextChar (skipWhitespace : Bool) (count : Nat) : ReaderM Nat := do
  let r ← get
  if skipWhitespace then skipSpaces src src.turns (r.currentChar + 1)
  else pure (r.currentChar + count)

def isEndOfBuffer (c : Nat) : ReaderM Bool := do
  let byte ← deref src c
  let r ← get
  pure (byte == nul || decide (r.currentPos > src.buf.size) || byte.toInt8.toInt == EOF)

def getCurrentLocation : ReaderM Location := do
  let r ← get
  pure r.currentLocation

/-- `errors::make(type, loc, msg)` in a return statement. -/
def fail {α : Type} (exit : Exit) (type : ErrorType) (loc : LocationRange) (msg : Bytes) :
    ReaderM α :=
  throw (.failed ⟨type, loc, msg⟩ exit)

/-- The loop of `readNumber`, from the byte at `c` on. -/
def readNumberLoop : Nat → Bytes → Nat → Bool → ReaderM (Bytes × Nat × Bool)
  | 0, _, _, _ => throw .outOfTurns
  | turns + 1, number, c, floatNum => do
    let byte ← deref src c
    let c ← nextChar src false 1
    let next ← deref src c
    if isdigit next || next == dot then
      if next == dot && floatNum then
        let loc ← getCurrentLocation
        fail .secondPoint .twoFloatPoints (.ofStart loc) []
      else
        advance src false
        readNumberLoop turns (number ++ [byte]) c (floatNum || next == dot)
    else pure (number ++ [byte], c, floatNum)

def readNumber (neg : Bool) : ReaderM (Node LocationRange) := do
  let c ← nextChar src false 1
  advance src false
  let start ← getCurrentLocation
  let byte ← deref src c
  if !isdigit byte then
    fail .notADigit .invalidDigitForNumber (.ofStart start) []
  else
    let (number, c, floatNum) ←
      readNumberLoop src src.turns (if neg then [minus] else []) c false
    let byte ← deref src c
    -- `empty` is false from its declaration on, so the test is the letter test
    if isalpha byte then
      advance src false
      let loc ← getCurrentLocation
      fail .letterAfterNumber .invalidDigitForNumber ⟨loc, start⟩ []
    else
      let stop ← getCurrentLocation
      pure (.number ⟨⟨start, stop⟩, number, neg, floatNum⟩)

/-- The loop of `readSymbol`, from the byte at `c` on. -/
def readSymbolLoop : Nat → Bytes → Nat → ReaderM Bytes
  | 0, _, _ => throw .outOfTurns
  | turns + 1, sym, c => do
    let byte ← deref src c
    let c ← nextChar src false 1
    let atEnd ← isEndOfBuffer src c
    let next ← deref src c
    if !atEnd && !isspace next && isValidForIdentifier next then
      advance src false
      readSymbolLoop turns (sym ++ [byte]) c
    else pure (sym ++ [byte])

/-- The part of `readSymbol` after the number dispatch. -/
def readSymbolName (c : Nat) : ReaderM (Node LocationRange) := do
  advance src false
  let sym ← readSymbolLoop src src.turns [] c
  let stop ← getCurrentLocation
  pure (.symbol (Symbol.make ⟨{}, stop⟩ sym src.ns))

def readSymbol : ReaderM (Node LocationRange) := do
  let c ← nextChar src false 1
  let byte ← deref src c
  let atEnd ← isEndOfBuffer src c
  if !isValidForIdentifier byte || atEnd || isspace byte then
    advance src false
    let loc ← getCurrentLocation
    fail .invalidCharacter .invalidCharacterForSymbol (.ofStart loc)
      (if byte = rparen then text "An extra ')' is detected." else [])
  else if byte = minus then
    let next ← nextChar src false 2
    let second ← deref src next
    if isdigit second then
      advance src false
      readNumber src true
    else readSymbolName src c
  else if isdigit byte then readNumber src false
  else readSymbolName src c

/-- One turn of the loop of `readList`; the flag is `list_terminated`. -/
def readListBody (readExpr : ReaderM (Node LocationRange)) (loc : LocationRange)
    (elements : Ast) : ReaderM (LocationRange × Ast × Bool) := do
  let ch ← nextChar src true 1
  let atEnd ← isEndOfBuffer src ch
  if atEnd then
    advance src true
    advance src false
    let stop ← getCurrentLocation
    fail .unterminatedList .eofWhileScaningAList ⟨loc.start, stop⟩ []
  else
    let byte ← deref src ch
    if byte = rparen then
      advance src true
      advance src false
      let stop ← getCurrentLocation
      pure (⟨loc.start, stop⟩, elements, true)
    else
      advance src true
      let expr ← readExpr
      pure (loc, elements ++ [expr], false)

def readListLoop (readExpr : ReaderM (Node LocationRange)) :
    Nat → LocationRange → Ast → ReaderM (Node LocationRange)
  | 0, _, _ => throw .outOfTurns
  | turns + 1, loc, elements => do
    let (loc, elements, list_terminated) ← readListBody src readExpr loc elements
    if list_terminated then pure (.list loc elements)
    else readListLoop readExpr turns loc elements

def readList (readExpr : ReaderM (Node LocationRange)) : ReaderM (Node LocationRange) := do
  let c ← nextChar src false 1
  let loc ← getCurrentLocation
  advance src false
  let byte ← deref src c
  if byte = lparen then readListLoop src readExpr src.turns (.ofStart loc) []
  else throw .assertionFailed

/-- `readExpr` with the reader it calls on a parenthesis. -/
def readExprBody (readList : ReaderM (Node LocationRange)) : ReaderM (Node LocationRange) := do
  let c ← nextChar src true 1
  let atEnd ← isEndOfBuffer src c
  if atEnd then pure .null
  else
    let byte ← deref src c
    advance src true
    if byte = lparen then readList else readSymbol src

/-- `depth` is how many lists may be open inside the expression. -/
def readExpr : Nat → ReaderM (Node LocationRange)
  | 0 => readExprBody src (throw .outOfTurns)
  | depth + 1 => readExprBody src (readList src (readExpr depth))

/-- The loop of `Reader::read`; the condition compares `current_pos`, which stays 0. -/
def readLoop (depth : Nat) : Nat → ReaderM Unit
  | 0 => throw .outOfTurns
  | turns + 1 => do
    if 0 < src.buf.size then
      let c ← nextChar src true 1
      let atEnd ← isEndOfBuffer src c
      if atEnd then pure ()
      else
        advance src true
        let tmp ← readExpr src depth
        match tmp with
        | .null => pure ()
        | node =>
          modify fun r => { r with ast := r.ast ++ [node] }
          readLoop depth turns
    else pure ()

/-- `Reader::read`. -/
def Reader.read (depth turns : Nat) : ReaderM Ast := do
  readLoop src depth turns
  let r ← get
  pure r.ast

end Methods

/-- The free function `read`, with turns and depth that the memory cannot use up. -/
def read (buf : StringRef) (ns : Bytes) (filename : Option Bytes) :
    EStateM.Result Stop Reader Ast :=
  let src : Source := ⟨buf, ns, filename⟩
  Reader.read src src.turns src.turns src.reader

/-- What a run shows the caller of `read`, where it ends in a return statement. -/
def outcome : EStateM.Result Stop Reader Ast → Option (Except Error Ast)
  | .ok ast _ => some (.ok ast)
  | .error (.failed e _) _ => some (.error e)
  | .error _ _ => none

/-- `read` over a terminated buffer returned this tree. -/
def ReadsAs (buf ns : Bytes) (filename : Option Bytes) (ast : Ast) : Prop :=
  outcome (read (.nulTerminated buf) ns filename) = some (.ok ast)

/-- `read` over a terminated buffer returned this error. -/
def FailsWith (buf ns : Bytes) (filename : Option Bytes) (e : Error) : Prop :=
  outcome (read (.nulTerminated buf) ns filename) = some (.error e)

end ReaderModel
