import Serene.ReaderSafety
import Serene.ReaderPlaces
import Serene.SourceBuffers

/-!
# From a reader's location back to the byte

The source manager finds the line of a location through the newline offsets of
the buffer, and the column counts on from there. The reader's columns fit this
from the second line on; on the first they are one too large.
-/

namespace LocationLookup

open ByteClasses Locations AstNodes ReaderModel ReaderSteps StatefulRuns Lines ReaderPlaces
  SourceBuffers

/-- `advanceByOne`, called `k` times. -/
def advances (src : Source) : Nat → ReaderM Unit
  | 0 => pure ()
  | k + 1 => do
    advanceByOne src
    advances src k

theorem advances_run {src : Source} {r : Reader} {v rest : Bytes}
    (here : ahead src r = v ++ rest) : advances src v.length r = .ok () (steps r v) := by
  induction v generalizing r with
  | nil => rfl
  | cons c v ih =>
    rw [List.length_cons, advances, bind_ok (advanceByOne_run here)]
    exact ih (ahead_step here)

/-- The line of the location is found, and its column leads from there to byte `i`. -/
def LeadsBack (b : SrcBuffer) (loc : Location) (i : Nat) : Prop :=
  ∃ pointer b', getPointerForLineNumber b loc.line.toUInt32 = .ok (some pointer, b') ∧
    (pointer : Int) + ((loc.col.toNat : Int) - 1) = i

/-- The cursor of a fresh reader reaches byte `i`, and its location there is the reader's place
of what comes before. -/
theorem advances_to (ns : Bytes) (filename : Option Bytes) {buf : Bytes} {i : Nat}
    (inside : i ≤ buf.length) :
    ∃ r c, advances (.ofText buf ns filename) (i + 1)
        (Source.reader (.ofText buf ns filename)) = .ok () r ∧ r.index = i ∧
      r.currentLocation = ((origin ns filename).steps (buf.take i ++ [c])).location := by
  obtain ⟨c, rest, split⟩ : ∃ c rest, buf.drop i ++ [nul] = c :: rest :=
    List.exists_cons_of_ne_nil (by simp)
  have here : ahead (.ofText buf ns filename) (Source.reader (.ofText buf ns filename)) =
      (buf.take i ++ [c]) ++ rest := by
    rw [List.append_assoc, List.singleton_append, ← split, ← List.append_assoc,
      List.take_append_drop]
    rfl
  have length : (buf.take i ++ [c]).length = i + 1 := by
    rw [List.length_append, List.length_take_of_le inside]
    rfl
  have ran := advances_run here
  rw [length] at ran
  refine ⟨_, c, ran, ?_, ?_⟩
  · rw [Reader.index, steps_currentChar, length]
    change ((0 + (i + 1) : Nat) : Int) - 1 = i
    omega
  · have tracked := steps_tracker (Source.reader (.ofText buf ns filename)) (buf.take i ++ [c])
    exact congrArg Tracker.location tracked

/-- What the source manager makes of the place of the byte after `w`. -/
theorem leadsBack_place (ns : Bytes) (filename : Option Bytes) (c : UInt8) {b : SrcBuffer}
    (sound : Sound b) {w v : Bytes} (split : b.buffer.data = w ++ v) (fits : Fits (w ++ v)) :
    LeadsBack b ((origin ns filename).steps (w ++ [c])).location w.length ↔ newline ∈ w := by
  obtain ⟨lines, columns⟩ := fits.bounds
  have short := column_le newline w
  rw [origin_steps, LeadsBack]
  simp only [UInt16.toNat_ofNat_of_lt' columns]
  obtain ⟨b', found, -⟩ := getPointer_sound sound (UInt16.ofNat (readerLine w)).toUInt32
  rw [UInt16.toNat_toUInt32, UInt16.toNat_ofNat_of_lt' lines, split, readerLine,
    Nat.add_sub_cancel, lineStart_line] at found
  constructor
  · rintro ⟨pointer, b'', found', back⟩
    obtain ⟨same, -⟩ := Prod.mk.inj (Except.ok.inj (found.symm.trans found'))
    rw [← Option.some.inj same] at back
    by_contra first
    rw [readerCol, if_neg first, column_first newline first] at back
    omega
  · intro later
    refine ⟨_, b', found, ?_⟩
    rw [readerCol, if_pos later]
    omega

/-- Past the first line, and only there, the location of the cursor on a byte leads the
source manager back to the byte; also after any lookups made before. -/
theorem leadsBack_iff (buffer : MemoryBuffer) (importLoc : LocationRange) (ns : Bytes)
    (filename : Option Bytes) (earlier : List UInt32) (fits : Fits buffer.data) {i : Nat}
    (inside : i ≤ buffer.size) :
    ∃ r b, advances (.ofText buffer.data ns filename) (i + 1)
        (Source.reader (.ofText buffer.data ns filename)) = .ok () r ∧ r.index = i ∧
      lookups (fresh buffer importLoc) earlier = .ok b ∧
      (LeadsBack b r.currentLocation i ↔ ∃ j < i, buffer.data[j]? = some newline) := by
  obtain ⟨r, c, ran, index, location⟩ := advances_to ns filename inside
  obtain ⟨b, looked, same, sound⟩ := lookups_sound (fresh_sound buffer importLoc) earlier
  refine ⟨r, b, ran, index, looked, ?_⟩
  have data : b.buffer.data = buffer.data.take i ++ buffer.data.drop i := by
    rw [same, List.take_append_drop]
    rfl
  have back := leadsBack_place ns filename c sound data
    (by rwa [List.take_append_drop])
  rw [List.length_take_of_le inside] at back
  rw [location, back, List.mem_take_iff_getElem]
  constructor
  · rintro ⟨j, early, byte⟩
    exact ⟨j, by omega, List.getElem?_eq_some_iff.mpr ⟨by omega, byte⟩⟩
  · rintro ⟨j, early, byte⟩
    obtain ⟨bound, byte⟩ := List.getElem?_eq_some_iff.mp byte
    exact ⟨j, by omega, byte⟩

theorem fits_short {text : Bytes} (short : text.length ≤ 2) : Fits text := by
  constructor
  · have count := List.count_le_length (a := newline) (l := text)
    rw [line]
    omega
  · intro v part _
    have length := part.length_le
    omega

/-- A newline and an `a`. -/
def secondLine : MemoryBuffer := ⟨[10, 97], by decide⟩

theorem second_line_leads_back :
    ∃ r b, advances (.ofText secondLine.data [] none) 2
        (Source.reader (.ofText secondLine.data [] none)) = .ok () r ∧ r.index = 1 ∧
      lookups (fresh secondLine {}) [1, 7] = .ok b ∧ LeadsBack b r.currentLocation 1 := by
  obtain ⟨r, b, ran, index, looked, back⟩ := leadsBack_iff secondLine {} [] none [1, 7]
    (fits_short (by decide)) (i := 1) (by decide)
  exact ⟨r, b, ran, index, looked, back.mpr ⟨0, by decide, rfl⟩⟩

/-- An `a`, alone on the first line. -/
def oneByte : MemoryBuffer := ⟨[97], by decide⟩

/-- The location of the cursor on its only byte leads one byte too far. -/
theorem first_line_off : Fits oneByte.data ∧
    ∃ r, advances (.ofText oneByte.data [] none) 1
        (Source.reader (.ofText oneByte.data [] none)) = .ok () r ∧ r.index = 0 ∧
      ¬ LeadsBack (fresh oneByte {}) r.currentLocation 0 := by
  refine ⟨fits_short (by decide), _, rfl, rfl, ?_⟩
  rintro ⟨pointer, b', found, back⟩
  cases found
  cases back

end LocationLookup
