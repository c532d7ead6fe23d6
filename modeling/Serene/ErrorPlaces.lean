import Serene.CounterLimits
import Serene.IncompleteInput
import Serene.ScannerTurns

/-!
# Where errors point

An error should carry the location the cursor has on the first byte that no text
can make up for, and the error for a list that is never closed the location of
its parenthesis. Two of the error exits take the location before the cursor has
moved on: that for a second point and that for an open list.
-/

namespace ErrorPlaces

open ByteClasses Locations AstNodes Incremental ReaderModel ReaderPlaces LocationLookup Scanner
  ReaderRefinement Grammar ScannerGrammar IncompleteInput CounterLimits ScannerTurns

/-- Some text after these bytes makes a sequence of expressions of them. -/
def Continuable (ns v : Bytes) : Prop := ∃ t tree, Parses ns (v ++ t) tree

/-- The bytes could be continued until this one came. -/
structure Offends (ns v : Bytes) (c : UInt8) : Prop where
  before : Continuable ns v
  after : ¬ Continuable ns (v ++ [c])

/-- What is wrong with a byte after these, and the error for it. -/
inductive Offence (v : Bytes) : UInt8 → ErrorType → Prop where
  | secondPoint {w lexeme : Bytes} (split : v = w ++ lexeme) (number : NumberAt lexeme [])
      (pointed : dot ∈ lexeme) : Offence v dot .twoFloatPoints
  | letter {c : UInt8} {w lexeme : Bytes} (split : v = w ++ lexeme) (number : NumberAt lexeme [])
      (letter : isalpha c = true) : Offence v c .invalidDigitForNumber
  | illegal {c : UInt8} (space : isspace c = false) (ident : isValidForIdentifier c = false)
      (noOpen : c ≠ lparen) (noClose : c ≠ rparen) : Offence v c .invalidCharacterForSymbol
  | extra (level : v.count lparen = v.count rparen) : Offence v rparen .invalidCharacterForSymbol

/-- Every parenthesis has its match among these bytes. -/
inductive Balanced : Bytes → Prop where
  | nil : Balanced []
  | other {v : Bytes} {c : UInt8} (noOpen : c ≠ lparen) (noClose : c ≠ rparen)
      (before : Balanced v) : Balanced (v ++ [c])
  | list {v w : Bytes} (before : Balanced v) (inside : Balanced w) :
      Balanced (v ++ lparen :: (w ++ [rparen]))

/-- The error points at the byte that offends, with the type for what is wrong there; where no
byte does, it points at the parenthesis of the innermost list that is still open. -/
structure Points (buf ns : Bytes) (filename : Option Bytes) (e : Error) : Prop where
  onByte : ∀ v c u, body buf = v ++ c :: u → Offends ns v c →
    CursorAt buf ns filename v.length e.location.start ∧ Offence v c e.type
  atEnd : Continuable ns (body buf) → e.type = .eofWhileScaningAList ∧
    ∀ v w, body buf = v ++ lparen :: w → Balanced w →
      CursorAt buf ns filename v.length e.location.start

/-- The token being read, as the end of the text. -/
def Token (v : Bytes) : Mode → Prop
  | .between => True
  | .symbol lexeme => ∃ w, v = w ++ lexeme
  | .number _ lexeme _ floatNum => (∃ w, v = w ++ lexeme) ∧ NumberAt lexeme [] ∧
      floatNum = lexeme.contains dot

/-- The open lists begin where the text has parentheses without a match. -/
inductive Nested (t₀ : Tracker) : Bytes → List (Location × Ast) → Prop where
  | top {v : Bytes} : Nested t₀ v []
  | inside {v w : Bytes} {outer : Ast} {opened : List (Location × Ast)}
      (around : Nested t₀ v opened) (balanced : Balanced w) :
      Nested t₀ (v ++ lparen :: w) (((t₀.steps v).location, outer) :: opened)

/-- The scanner after these bytes. -/
structure After (t₀ : Tracker) (v : Bytes) (s : Scan) : Prop where
  tracker : s.tracker = t₀.steps v
  token : Token v s.mode
  nested : Nested t₀ v s.opened

section Turns
variable {t₀ : Tracker} {ns v : Bytes} {s s' : Scan} {c : UInt8}

theorem token_turn (token : Token v s.mode) (turn : Turn s c s') : Token (v ++ [c]) s'.mode := by
  cases turn with
  | space | opens | closes => trivial
  | digit digit =>
    obtain ⟨number, -, noPoint⟩ := number_first false digit
    exact ⟨⟨v, rfl⟩, number, noPoint.symm⟩
  | ident ident => exact ⟨v, rfl⟩
  | signed symbol digit =>
    rw [symbol] at token
    obtain ⟨w, rfl⟩ := token
    obtain ⟨number, -, noPoint⟩ := number_first true digit
    exact ⟨⟨w, by simp⟩, number, noPoint.symm⟩
  | symbol symbol ident =>
    rw [symbol] at token
    obtain ⟨w, rfl⟩ := token
    exact ⟨w, List.append_assoc _ _ _⟩
  | number mode inside first =>
    rw [mode] at token
    obtain ⟨⟨w, rfl⟩, number, rfl⟩ := token
    exact ⟨⟨w, List.append_assoc _ _ _⟩, number_longer number inside first,
      (contains_point _ c).symm⟩

theorem nested_other {opened : List (Location × Ast)} (noOpen : c ≠ lparen) (noClose : c ≠ rparen)
    (nested : Nested t₀ v opened) : Nested t₀ (v ++ [c]) opened := by
  cases nested with
  | top => exact .top
  | inside around balanced =>
    rw [List.append_assoc]
    exact .inside around (balanced.other noOpen noClose)

/-- A closing parenthesis makes a balanced part of the list and goes on with the one around. -/
theorem nested_close {start : Location} {outer : Ast} {opened : List (Location × Ast)}
    (nested : Nested t₀ v ((start, outer) :: opened)) : Nested t₀ (v ++ [rparen]) opened := by
  cases nested with
  | inside around inside =>
    cases around with
    | top => exact .top
    | inside around before =>
      rw [List.append_assoc, List.append_assoc]
      exact .inside around (before.list inside)

theorem nested_turn (tracker : s.tracker = t₀.steps v) (nested : Nested t₀ v s.opened)
    (turn : Turn s c s') : Nested t₀ (v ++ [c]) s'.opened := by
  rcases turn_opened turn with ⟨noOpen, noClose, same⟩ | ⟨rfl, items, opens⟩ |
    ⟨rfl, start, outer, closes⟩
  · rw [same]
    exact nested_other noOpen noClose nested
  · rw [opens, tracker]
    exact .inside nested .nil
  · rw [closes] at nested
    exact nested_close nested

theorem after_turn (after : After t₀ v s) (turn : Turn s c s') : After t₀ (v ++ [c]) s' := by
  constructor
  · rw [turn_tracker turn, after.tracker, Tracker.steps_append]
    rfl
  · exact token_turn after.token turn
  · exact nested_turn after.tracker after.nested turn

/-- By the bytes still to come. -/
theorem after_feed {u : Bytes} (after : After t₀ v s) (fed : (scanner ns).feed s u = .ok s') :
    After t₀ (v ++ u) s' := by
  induction u generalizing v s with
  | nil =>
    cases fed
    rwa [List.append_nil]
  | cons c u ih =>
    cases stepped : s.step ns c with
    | error e => cases ((scanner ns).feed_cons_error stepped u).symm.trans fed
    | ok next =>
      rw [feed_step stepped] at fed
      rw [List.append_cons]
      exact ih (after_turn after (step_turn stepped)) fed

theorem initial_after {filename : Option Bytes}
    (fed : (scanner ns).feed (initial ns filename) v = .ok s) :
    After (origin ns filename) v s := by
  have start : After (origin ns filename) [] (initial ns filename) := ⟨rfl, trivial, .top⟩
  exact after_feed start fed

end Turns

section Offending
variable {ns v w u : Bytes} {c : UInt8}

theorem Continuable.front (continuable : Continuable ns (v ++ w)) : Continuable ns v := by
  obtain ⟨t, tree, parsed⟩ := continuable
  exact ⟨w ++ t, tree, by rwa [← List.append_assoc]⟩

/-- What the scanner gets over can be continued: closing parentheses complete it. -/
theorem continuable_iff (filename : Option Bytes) :
    Continuable ns v ↔ ∃ s, (scanner ns).feed (initial ns filename) v = .ok s := by
  constructor
  · rintro ⟨t, tree, parsed⟩
    have ran := (run_iff_parses ns (v ++ t) filename _).mpr ⟨tree, parsed, rfl⟩
    cases fed : (scanner ns).feed (initial ns filename) v with
    | ok s => exact ⟨s, rfl⟩
    | error e => cases ((scanner ns).run_append_error fed t).symm.trans ran
  · rintro ⟨s, fed⟩
    obtain ⟨ast, closed⟩ := (run_rparens ns s s.opened.length).2.1 rfl
    rw [← (scanner ns).run_append_ok fed] at closed
    obtain ⟨tree, parsed, -⟩ := (run_iff_parses ns _ filename ast).mp closed
    exact ⟨_, tree, parsed⟩

theorem offends_of_step {filename : Option Bytes} {s : Scan} {e : Error}
    (fed : (scanner ns).feed (initial ns filename) v = .ok s) (failed : s.step ns c = .error e) :
    Offends ns v c := by
  refine ⟨(continuable_iff filename).mpr ⟨s, fed⟩, ?_⟩
  intro continuable
  obtain ⟨s', fed'⟩ := (continuable_iff filename).mp continuable
  rw [(scanner ns).feed_append_ok fed, (scanner ns).feed_cons_error failed] at fed'
  cases fed'

/-- A text has one byte that offends, if any. -/
theorem offends_unique {v' u' : Bytes} {c' : UInt8} (same : v ++ c :: u = v' ++ c' :: u')
    (offends : Offends ns v c) (offends' : Offends ns v' c') : v' = v ∧ c' = c := by
  rcases List.append_eq_append_iff.mp same with ⟨a, rfl, rest⟩ | ⟨a, rfl, rest⟩
  · cases a with
    | nil => exact ⟨List.append_nil v, (List.cons.inj rest).1.symm⟩
    | cons d a =>
      have before := offends'.before
      rw [← (List.cons.inj rest).1, List.append_cons] at before
      exact absurd before.front offends.after
  · cases a with
    | nil => exact ⟨(List.append_nil v').symm, (List.cons.inj rest).1⟩
    | cons d a =>
      have before := offends.before
      rw [← (List.cons.inj rest).1, List.append_cons] at before
      exact absurd before.front offends'.after

end Offending

section Errors
variable {buf ns v w u : Bytes} {filename : Option Bytes} {c : UInt8} {s : Scan} {e : Error}

theorem cursorAt_byte (split : body buf = v ++ c :: u) {loc : Location} :
    CursorAt buf ns filename v.length loc ↔
      loc = (((origin ns filename).steps v).step c).location := by
  obtain ⟨rest, whole⟩ : body buf <+: buf := List.takeWhile_prefix _
  rw [split] at whole
  have inside : v.length ≤ buf.length := by
    rw [← whole, List.append_assoc, List.length_append]
    exact Nat.le_add_right _ _
  have front : buf.take v.length = v := by rw [← whole, List.append_assoc, List.take_left]
  have step : ((origin ns filename).steps v).step c = (origin ns filename).steps (v ++ [c]) := by
    rw [Tracker.steps_append]
    rfl
  rw [cursorAt_iff inside, front, step, origin_steps]
  rfl

/-- Every error about a byte is located on it, but the one about a second point. -/
theorem rejects_start (rejected : Rejects s c e) :
    e.location.start = (s.tracker.step c).location ↔ c ≠ dot := by
  cases rejected with
  | secondPoint number point =>
    rw [point]
    exact iff_of_false (s.tracker.step_ne dot).symm (by simp)
  | letter number letter => exact iff_of_true rfl (alpha_facts letter).2.2
  | illegal space ident noOpen noClose =>
    refine iff_of_true rfl ?_
    rintro rfl
    cases ident
  | extra closing top =>
    rw [closing]
    exact iff_of_true rfl (by decide)

theorem offence_of_rejects (fed : (scanner ns).feed (initial ns filename) v = .ok s)
    (rejected : Rejects s c e) : Offence v c e.type := by
  have token := (initial_after fed).token
  cases rejected with
  | secondPoint mode point =>
    rw [mode] at token
    obtain ⟨⟨w, split⟩, number, pointed⟩ := token
    rw [point]
    exact .secondPoint split number (List.contains_iff_mem.mp pointed.symm)
  | letter mode letter =>
    rw [mode] at token
    obtain ⟨⟨w, split⟩, number, -⟩ := token
    exact .letter split number letter
  | illegal space ident noOpen noClose => exact .illegal space ident noOpen noClose
  | extra closing top =>
    have depth := feed_depth fed
    rw [top] at depth
    rw [closing]
    exact .extra (by simpa [initial] using depth.symm)

theorem points_iff_byte (split : body buf = v ++ c :: u)
    (fed : (scanner ns).feed (initial ns filename) v = .ok s) (failed : s.step ns c = .error e) :
    Points buf ns filename e ↔ c ≠ dot := by
  have offends := offends_of_step fed failed
  have rejected := step_rejects failed
  have start : CursorAt buf ns filename v.length e.location.start ↔ c ≠ dot := by
    rw [cursorAt_byte split, ← (initial_after fed).tracker]
    exact rejects_start rejected
  constructor
  · intro points
    exact start.mp (points.onByte v c u split offends).1
  · intro noPoint
    constructor
    · intro v' c' u' split' offends'
      obtain ⟨rfl, rfl⟩ := offends_unique (split.symm.trans split') offends offends'
      exact ⟨start.mpr noPoint, offence_of_rejects fed rejected⟩
    · intro continuable
      rw [split, List.append_cons] at continuable
      exact absurd continuable.front offends.after

/-- The error for an open list has the location before its parenthesis. -/
theorem open_misses (fed : (scanner ns).feed (initial ns filename) (body buf) = .ok s)
    (failed : s.finish ns = .error e) : ¬ Points buf ns filename e := by
  intro points
  obtain ⟨-, onOpen⟩ := points.atEnd ((continuable_iff filename).mpr ⟨s, fed⟩)
  have nested := (initial_after fed).nested
  simp only [Scan.finish] at failed
  split at failed
  · cases failed
  · next start outer opened inList =>
    cases failed
    rw [inList] at nested
    generalize text : body buf = whole at nested
    cases nested with
    | inside around balanced =>
      have there := onOpen _ _ text balanced
      rw [cursorAt_byte text] at there
      exact Tracker.step_ne _ _ there.symm

end Errors

/-- The errors that point at the offending place are those about a byte, other than a second
point. -/
theorem errors_point_iff {buf ns : Bytes} {filename : Option Bytes} {e : Error}
    (failed : FailsWith buf ns filename e) :
    Points buf ns filename e ↔
      ∃ v c u, body buf = v ++ c :: u ∧ Offends ns v c ∧ c ≠ dot := by
  rw [failsWith_run] at failed
  cases fed : (scanner ns).feed (initial ns filename) (body buf) with
  | ok s =>
    rw [Machine.run_of_feed _ fed] at failed
    refine iff_of_false (open_misses fed failed) ?_
    rintro ⟨v, c, u, split, offends, -⟩
    have continuable := (continuable_iff filename).mpr ⟨s, fed⟩
    rw [split, List.append_cons] at continuable
    exact offends.after continuable.front
  | error e' =>
    rw [Machine.run, fed] at failed
    cases failed
    obtain ⟨v, c, u, s, split, before, stepped⟩ := Machine.split_of_feed_error _ fed
    rw [points_iff_byte split before stepped]
    constructor
    · intro noPoint
      exact ⟨v, c, u, split, offends_of_step before stepped, noPoint⟩
    · rintro ⟨v', c', u', split', offends, noPoint⟩
      have same := offends_unique (split.symm.trans split') (offends_of_step before stepped) offends
      rwa [← same.2]

/-- The letter of `1a`. -/
theorem letter_pointed : Points (text "1a") [] none
    ⟨.invalidDigitForNumber, ⟨lineCol 1 3, lineCol 1 2⟩, []⟩ := by
  have failed : FailsWith (text "1a") [] none
    ⟨.invalidDigitForNumber, ⟨lineCol 1 3, lineCol 1 2⟩, []⟩ := rfl
  refine (errors_point_iff failed).mpr ⟨text "1", 97, [], rfl, ?_, by decide⟩
  have fed : (scanner []).feed (initial [] none) (text "1") = .ok _ := rfl
  exact offends_of_step fed rfl

/-- The second point of `1..` is at column 4. -/
theorem second_point_missed :
    FailsWith (text "1..") [] none ⟨.twoFloatPoints, .ofStart (lineCol 1 3), []⟩ ∧
      ¬ Points (text "1..") [] none ⟨.twoFloatPoints, .ofStart (lineCol 1 3), []⟩ := by
  refine ⟨rfl, ?_⟩
  intro points
  have fed : (scanner []).feed (initial [] none) (text "1.") = .ok _ := rfl
  have split : body (text "1..") = text "1." ++ dot :: [] := rfl
  exact (points_iff_byte split fed rfl).mp points rfl

end ErrorPlaces
