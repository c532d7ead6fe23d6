import Serene.ByteClasses

/-!
# Locations and the two location trackers

`line` and `col` are unsigned 16-bit counters, so they wrap. The reader tracks
its location with a deferred end-of-line flag; `incLocation` and `decLocation`
are the free functions of `reader.cpp` on the same record.
-/

namespace Locations

open ByteClasses

structure Location where
  ns : Bytes := []
  filename : Option Bytes := none
  line : UInt16 := 0
  col : UInt16 := 0
  knownLocation : Bool := true
deriving DecidableEq, Inhabited

/-- A place in a text of no namespace and no file. -/
def lineCol (line col : UInt16) : Location := { line := line, col := col }

/-- `end` of the source is `stop` here; the default constructor is the empty instance. -/
structure LocationRange where
  start : Location := {}
  stop : Location := {}
deriving DecidableEq, Inhabited

/-- `LocationRange(Location _start)`. -/
def LocationRange.ofStart (start : Location) : LocationRange := ⟨start, start⟩

def incLocation (loc : Location) (c : UInt8) : Location :=
  if c = newline then { loc with line := loc.line + 1, col := 0 }
  else { loc with col := loc.col + 1 }

def decLocation (loc : Location) (c : UInt8) : Location :=
  if c = newline then { loc with line := if loc.line = 0 then 0 else loc.line - 1 }
  else { loc with col := if loc.col = 0 then 0 else loc.col - 1 }

/-- What the reader's location depends on: the last location and the pending
end of line. -/
structure Tracker where
  location : Location
  readEOL : Bool
deriving DecidableEq

namespace Tracker

def step (t : Tracker) (c : UInt8) : Tracker where
  location :=
    if t.readEOL then { t.location with line := t.location.line + 1, col := 1 }
    else { t.location with col := t.location.col + 1 }
  readEOL := c == newline

def steps (t : Tracker) (cs : Bytes) : Tracker := cs.foldl step t

@[simp] theorem steps_nil (t : Tracker) : t.steps [] = t := rfl

@[simp] theorem steps_cons (t : Tracker) (c : UInt8) (cs : Bytes) :
    t.steps (c :: cs) = (t.step c).steps cs := rfl

@[simp] theorem steps_append (t : Tracker) (cs ds : Bytes) :
    t.steps (cs ++ ds) = (t.steps cs).steps ds := List.foldl_append

/-- Every step changes the location, whatever wraps. -/
theorem step_ne (t : Tracker) (c : UInt8) : (t.step c).location ≠ t.location := by
  intro same
  by_cases eol : t.readEOL = true
  · have line := congrArg Location.line same
    simp [step, eol] at line
  · have col := congrArg Location.col same
    simp [step, eol] at col

end Tracker

/-- The tracker of a fresh reader. -/
def origin (ns : Bytes) (filename : Option Bytes) : Tracker :=
  ⟨{ ns := ns, filename := filename, line := 1, col := 1 }, false⟩

end Locations
