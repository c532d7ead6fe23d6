import Serene.MethodInvariants
import Serene.ReaderPlaces

/-!
# The cursor is where its location says

Every method of the reader moves the cursor by `advanceByOne` only, so the
location that goes with the cursor is at all times the one the tracker has after
the bytes passed. A run that looked outside of the memory has no place and is
left out.
-/

namespace CursorPlaces

open ByteClasses Locations ReaderModel ReaderSteps StatefulRuns MethodInvariants

/-- The location belongs to the byte under the cursor. -/
def Placed (src : Source) (r : Reader) : Prop :=
  tracker r = (origin src.ns src.filename).steps (src.buf.mem.take r.currentChar)

def Regular (stop : Stop) : Prop := stop ≠ .outOfBounds

theorem reader_placed (src : Source) : Placed src src.reader := rfl

section Methods
variable {src : Source}

/-- The method leaves the cursor with its location, if it found it so. -/
abbrev Follows {α : Type} (src : Source) (m : ReaderM α) : Prop :=
  Keeps (Placed src) Regular m

theorem step_placed {r : Reader} {c : UInt8} {rest : Bytes} (placed : Placed src r)
    (here : ahead src r = c :: rest) : Placed src (step r c) := by
  have byte : src.buf.mem.take (r.currentChar + 1) = src.buf.mem.take r.currentChar ++ [c] := by
    rw [ahead] at here
    rw [List.take_add, here]
    rfl
  rw [Placed, step_tracker, placed, step_currentChar, byte, Tracker.steps_append]
  rfl

theorem advanceByOne_follows : Follows src (advanceByOne src) := by
  intro r placed
  cases here : ahead src r with
  | nil =>
    have none : deref src (r.bump).currentChar = throw .outOfBounds := deref_none here
    simp only [advanceByOne, modify_bind, get_bind, none]
    intro regular
    exact absurd rfl regular
  | cons c rest =>
    rw [advanceByOne_run here]
    exact step_placed placed here

theorem read_follows (depth turns : Nat) : Follows src (Reader.read src depth turns) :=
  read_keeps advanceByOne_follows (fun _ _ placed => placed) depth turns

end Methods

end CursorPlaces
