import Serene.ReaderRefinement
import Serene.ScannerGrammar

/-!
# What the reader accepts

The reader follows the scanner and the scanner the grammar, so a terminated
buffer reads exactly where its body is a sequence of expressions, and into the
tree of that sequence.
-/

namespace ReaderGrammar

open ByteClasses Locations AstNodes ReaderModel ReaderRefinement Scanner Grammar ScannerGrammar

/-- The returned tree, with its locations: the derivation's spans as the code records them. -/
theorem readsAs_iff (buf ns : Bytes) (filename : Option Bytes) (ast : Ast) :
    ReadsAs buf ns filename ast ↔ ∃ tree, Parses ns (body buf) tree ∧
      ast = tree.map (asRead (origin ns filename) (body buf)) := by
  rw [readsAs_run]
  exact run_iff_parses ns (body buf) filename ast

/-- `read` accepts the buffers whose body is a sequence of expressions, and returns the
expressions of the body. -/
theorem read_iff_parses (buf ns : Bytes) (filename : Option Bytes) (tree : List (Node Unit)) :
    (∃ ast, ReadsAs buf ns filename ast ∧ bareAll ast = tree) ↔
      ∃ spans, Parses ns (body buf) spans ∧ bareAll spans = tree := by
  constructor
  · rintro ⟨ast, reads, rfl⟩
    obtain ⟨spans, parsed, rfl⟩ := (readsAs_iff buf ns filename ast).mp reads
    exact ⟨spans, parsed, (bareAll_map _ spans).symm⟩
  · rintro ⟨spans, parsed, rfl⟩
    exact ⟨_, (readsAs_iff buf ns filename _).mpr ⟨spans, parsed, rfl⟩, bareAll_map _ spans⟩

/-- A text has at most one tree. -/
theorem parses_unique {ns text : Bytes} {spans spans' : List (Node Span)}
    (parsed : Parses ns text spans) (parsed' : Parses ns text spans') :
    bareAll spans = bareAll spans' := by
  have ran := (run_iff_parses ns text none _).mpr ⟨spans, parsed, rfl⟩
  have ran' := (run_iff_parses ns text none _).mpr ⟨spans', parsed', rfl⟩
  have same := congrArg bareAll (Except.ok.inj (ran.symm.trans ran'))
  rwa [asRead, bareAll_map, bareAll_map] at same

/-- What `read` returns spells the buffer up to its first end byte. -/
theorem readsAs_spells (buf ns : Bytes) (filename : Option Bytes) (ast : Ast)
    (reads : ReadsAs buf ns filename ast) : Spells ns ast (body buf) := by
  obtain ⟨tree, parsed, rfl⟩ := (readsAs_iff buf ns filename ast).mp reads
  obtain ⟨v, split, -, spelled⟩ := exprs_spell parsed
  rw [List.append_nil] at split
  rw [split]
  exact spells_map _ spelled

/-- `(f -1)` as the reader returns it. -/
def readApplication : Ast :=
  [.list ⟨lineCol 1 1, lineCol 1 7⟩
    [.symbol ⟨⟨{}, lineCol 1 3⟩, text "f", []⟩,
      .number ⟨⟨lineCol 1 6, lineCol 1 6⟩, text "-1", true, false⟩]]

theorem application_spells : Spells [] readApplication (body (text "(f -1)")) :=
  readsAs_spells (text "(f -1)") [] none readApplication rfl

/-- What the reader returns of `a`, a NUL and `b`. -/
def readUpToNul : Ast := [.symbol ⟨⟨{}, lineCol 1 2⟩, [97], []⟩]

theorem nul_ends_text :
    ReadsAs [97, 0, 98] [] none readUpToNul ∧ ¬ Spells [] readUpToNul [97, 0, 98] := by
  constructor
  · rfl
  · intro spelled
    have plain := spells_plain spelled 0 (by simp)
    cases plain

end ReaderGrammar
