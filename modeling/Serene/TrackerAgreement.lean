import Serene.CursorPlaces
import Serene.LocationLookup

/-!
# The two location trackers agree

`advanceByOne` waits for the byte after a newline before it changes the line,
`incLocation` changes it on the newline itself. What is pending in the reader is
its flag, so the reader's location with the pending end of line carried out is
`incLocation`'s, on every byte and whatever wraps.
-/

namespace TrackerAgreement

open ByteClasses Locations ReaderModel ReaderSteps CursorPlaces LocationLookup

/-- The next line, before its first byte. -/
def lineBegun (loc : Location) : Location := { loc with line := loc.line + 1, col := 0 }

/-- The location with the pending end of line carried out. -/
def settled (t : Tracker) : Location :=
  if t.readEOL then lineBegun t.location else t.location

theorem settled_step (t : Tracker) (c : UInt8) :
    settled (t.step c) = incLocation (settled t) c := by
  by_cases pending : t.readEOL = true <;> by_cases ends : c = newline <;>
    simp [settled, lineBegun, Tracker.step, incLocation, pending, ends]

/-- `incLocation` simulates the reader's tracker over every run of bytes. -/
theorem settled_steps (t : Tracker) (w : Bytes) :
    settled (t.steps w) = w.foldl incLocation (settled t) := by
  induction w generalizing t with
  | nil => rfl
  | cons c w ih =>
    rw [Tracker.steps_cons, ih, settled_step]
    rfl

section Readers
variable {src : Source} {r : Reader} {i : Nat}

/-- Wherever a reader stands, `incLocation` has counted the bytes it has passed. -/
theorem placed_settled (placed : Placed src r) :
    settled (tracker r) =
      (src.buf.mem.take r.currentChar).foldl incLocation src.reader.currentLocation := by
  rw [placed, settled_steps]
  rfl

/-- The flag of a reader that stands on a byte tells whether it is a newline. -/
theorem placed_readEOL (placed : Placed src r) (passed : r.currentChar = i + 1)
    (inside : i < src.buf.mem.length) : r.readEOL = (src.buf.mem[i] == newline) := by
  rw [Placed, passed, List.take_succ_eq_append_getElem inside, Tracker.steps_append] at placed
  exact congrArg Tracker.readEOL placed

/-- The cursor of a fresh reader reaches every byte of the memory. -/
theorem advances_reach (inside : i < src.buf.mem.length) :
    ∃ r, advances src (i + 1) src.reader = .ok () r ∧ r.currentChar = i + 1 ∧ Placed src r := by
  have length : (src.buf.mem.take (i + 1)).length = i + 1 := List.length_take_of_le inside
  have here : ahead src src.reader = src.buf.mem.take (i + 1) ++ src.buf.mem.drop (i + 1) :=
    (List.take_append_drop _ _).symm
  have ran := advances_run here
  have passed : (steps src.reader (src.buf.mem.take (i + 1))).currentChar = i + 1 := by
    rw [steps_currentChar, length]
    exact Nat.zero_add _
  rw [length] at ran
  refine ⟨_, ran, passed, ?_⟩
  rw [Placed, passed, steps_tracker]
  rfl

end Readers

/-- On every byte of every memory the reader's location is the one that `incLocation` counts from
the reader's first location; on a newline `incLocation` is already on the line that the reader
has pending. -/
theorem trackers_agree (src : Source) (i : Fin src.buf.mem.length) :
    src.reader.currentLocation.line = 1 ∧ src.reader.currentLocation.col = 1 ∧
    ∃ r, advances src (i + 1) src.reader = .ok () r ∧ r.index = i ∧
      (src.buf.mem[i] ≠ newline →
        (src.buf.mem.take (i + 1)).foldl incLocation src.reader.currentLocation =
          r.currentLocation) ∧
      (src.buf.mem[i] = newline →
        (src.buf.mem.take (i + 1)).foldl incLocation src.reader.currentLocation =
          lineBegun r.currentLocation) := by
  refine ⟨rfl, rfl, ?_⟩
  obtain ⟨r, ran, passed, placed⟩ := advances_reach i.isLt
  have counted := placed_settled placed
  have flag : r.readEOL = (src.buf.mem[i] == newline) := placed_readEOL placed passed i.isLt
  rw [passed] at counted
  refine ⟨r, ran, ?_, ?_, ?_⟩
  · rw [Reader.index, passed]
    omega
  · intro other
    have clear : r.readEOL = false := by
      rw [flag]
      exact beq_eq_false_iff_ne.mpr other
    simp [← counted, settled, tracker, clear]
  · intro eol
    have pending : r.readEOL = true := by
      rw [flag]
      exact beq_iff_eq.mpr eol
    simp [← counted, settled, tracker, pending]

end TrackerAgreement
