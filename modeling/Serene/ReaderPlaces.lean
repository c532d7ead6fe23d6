import Serene.Locations
import Serene.Lines

/-!
# The places the reader counts

After the bytes `w` and one more, the tracker of a fresh reader stands on that
byte, in the line of `w` and one column further than `w` goes; on the first line
it is one more, since the counters start at 1 before the first byte. Counters
are taken modulo 2^16, and what the numbers mean is stated for texts that fit.
-/

namespace ReaderPlaces

open ByteClasses Locations Lines

/-- The line of the byte after `w`, not reduced to 16 bits. -/
def readerLine (w : Bytes) : Nat := line newline w + 1

def readerCol (w : Bytes) : Nat :=
  if newline ∈ w then column newline w + 1 else w.length + 2

@[simp] theorem readerLine_newline (w : Bytes) :
    readerLine (w ++ [newline]) = readerLine w + 1 := by
  rw [readerLine, line_eol]
  rfl

@[simp] theorem readerCol_newline (w : Bytes) : readerCol (w ++ [newline]) = 1 := by
  simp [readerCol, column_eol]

theorem readerLine_other (w : Bytes) {c : UInt8} (other : c ≠ newline) :
    readerLine (w ++ [c]) = readerLine w := by
  rw [readerLine, line_other _ _ other]
  rfl

theorem readerCol_other (w : Bytes) {c : UInt8} (other : c ≠ newline) :
    readerCol (w ++ [c]) = readerCol w + 1 := by
  by_cases later : newline ∈ w
  · simp [readerCol, later, column_other _ _ other]
  · simp [readerCol, later, Ne.symm other]

theorem ofNat_succ (n : Nat) : UInt16.ofNat (n + 1) = UInt16.ofNat n + 1 := UInt16.ofNat_add n 1

theorem origin_steps (ns : Bytes) (filename : Option Bytes) (w : Bytes) (c : UInt8) :
    (origin ns filename).steps (w ++ [c]) =
      ⟨{ ns := ns, filename := filename,
          line := .ofNat (readerLine w), col := .ofNat (readerCol w) }, c == newline⟩ := by
  induction w using List.reverseRecOn generalizing c with
  | nil => rfl
  | append_singleton w d ih =>
    rw [Tracker.steps_append, ih]
    by_cases ends : d = newline
    · subst ends
      simp [Tracker.step, ofNat_succ]
    · simp [Tracker.step, ends, readerLine_other w ends, readerCol_other w ends, ofNat_succ]

/-- Lines and columns fit the 16 bits of a location, with room for the reader's counting. -/
structure Fits (text : Bytes) : Prop where
  lines : line newline text + 1 < 65536
  columns : ∀ v, v <:+: text → newline ∉ v → v.length + 2 < 65536

theorem Fits.bounds {w v : Bytes} (fits : Fits (w ++ v)) :
    readerLine w < 65536 ∧ readerCol w < 65536 := by
  constructor
  · have lines := fits.lines
    rw [line, List.count_append] at lines
    rw [readerLine, line]
    omega
  · by_cases later : newline ∈ w
    · obtain ⟨suffix, none⟩ := current_spec newline w
      have columns := fits.columns _ (suffix.isInfix.trans (List.prefix_append w v).isInfix) none
      rw [readerCol, if_pos later, column]
      omega
    · rw [readerCol, if_neg later]
      exact fits.columns w (List.prefix_append w v).isInfix later

/-- The order of places, as the recorded numbers have it. -/
def key (loc : Location) : Nat ×ₗ Nat := toLex (loc.line.toNat, loc.col.toNat)

/-- The unreduced place of the byte after `w`. -/
def readerPlace (w : Bytes) : Nat ×ₗ Nat := toLex (readerLine w, readerCol w)

/-- Later bytes have later places. -/
theorem readerPlace_lt (w v : Bytes) (some : v ≠ []) : readerPlace w < readerPlace (w ++ v) := by
  have lt := place_lt newline w v some
  rw [place, place, Prod.Lex.lt_iff] at lt
  rw [readerPlace, readerPlace, Prod.Lex.lt_iff]
  rcases lt with lines | ⟨lines, columns⟩
  · left
    exact Nat.succ_lt_succ lines
  · right
    constructor
    · exact congrArg (· + 1) lines
    · change column newline w < column newline (w ++ v) at columns
      change line newline w = line newline (w ++ v) at lines
      by_cases later : newline ∈ w
      · simp only [ofLex_toLex, readerCol, later, List.mem_append, true_or, if_true]
        omega
      · have still : newline ∉ w ++ v := by
          rwa [← line_eq_zero, ← lines, line_eq_zero]
        have length := List.length_pos_of_ne_nil some
        simp only [ofLex_toLex, readerCol, later, still, if_false, List.length_append]
        omega

theorem key_origin_steps {ns : Bytes} {filename : Option Bytes} {w v : Bytes} {c : UInt8}
    (fits : Fits (w ++ v)) :
    key ((origin ns filename).steps (w ++ [c])).location = readerPlace w := by
  obtain ⟨line, col⟩ := fits.bounds
  rw [origin_steps, key, UInt16.toNat_ofNat_of_lt' line, UInt16.toNat_ofNat_of_lt' col]
  rfl

end ReaderPlaces
