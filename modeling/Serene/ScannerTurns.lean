import Serene.Grammar
import Serene.Scanner

/-!
# What one byte can do to the scanner

Every step that succeeds is one of eight, and every step that fails is one of
four. What holds after a run is read off these cases, and no later proof goes
through the branches of the step again.
-/

namespace ScannerTurns

open ByteClasses Locations AstNodes Incremental Scanner

/-- The steps that the scanner takes on a byte. -/
inductive Turn (s : Scan) (c : UInt8) : Scan → Prop where
  | space {items : Ast} (space : isspace c = true) :
      Turn s c ⟨s.tracker.step c, s.opened, items, .between⟩
  | opens {items : Ast} (opening : c = lparen) :
      Turn s c ⟨s.tracker.step c, (s.tracker.location, items) :: s.opened, [], .between⟩
  | closes {start : Location} {outer items : Ast} {opened : List (Location × Ast)}
      (closing : c = rparen) (inList : s.opened = (start, outer) :: opened) :
      Turn s c ⟨s.tracker.step c, opened, items, .between⟩
  | digit {items : Ast} (digit : isdigit c = true) :
      Turn s c ⟨s.tracker.step c, s.opened, items,
        .number (s.tracker.step c).location [c] false false⟩
  | ident {items : Ast} (ident : isValidForIdentifier c = true) :
      Turn s c ⟨s.tracker.step c, s.opened, items, .symbol [c]⟩
  | signed (symbol : s.mode = .symbol [minus]) (digit : isdigit c = true) :
      Turn s c (s.reading (s.tracker.step c)
        (.number (s.tracker.step c).location [minus, c] true false))
  | symbol {lexeme : Bytes} (symbol : s.mode = .symbol lexeme)
      (ident : isValidForIdentifier c = true) :
      Turn s c (s.reading (s.tracker.step c) (.symbol (lexeme ++ [c])))
  | number {start : Location} {lexeme : Bytes} {neg floatNum : Bool}
      (number : s.mode = .number start lexeme neg floatNum)
      (inside : (isdigit c || c == dot) = true) (first : (c == dot && floatNum) = false) :
      Turn s c (s.reading (s.tracker.step c)
        (.number start (lexeme ++ [c]) neg (floatNum || c == dot)))

/-- The bytes that the scanner rejects, with its error. -/
inductive Rejects (s : Scan) (c : UInt8) : Error → Prop where
  | secondPoint {start : Location} {lexeme : Bytes} {neg : Bool}
      (number : s.mode = .number start lexeme neg true) (point : c = dot) :
      Rejects s c ⟨.twoFloatPoints, .ofStart s.tracker.location, []⟩
  | letter {start : Location} {lexeme : Bytes} {neg floatNum : Bool}
      (number : s.mode = .number start lexeme neg floatNum) (letter : isalpha c = true) :
      Rejects s c ⟨.invalidDigitForNumber, ⟨(s.tracker.step c).location, start⟩, []⟩
  | illegal (space : isspace c = false) (ident : isValidForIdentifier c = false)
      (noOpen : c ≠ lparen) (noClose : c ≠ rparen) :
      Rejects s c ⟨.invalidCharacterForSymbol, .ofStart (s.tracker.step c).location, []⟩
  | extra (closing : c = rparen) (top : s.opened = []) :
      Rejects s c ⟨.invalidCharacterForSymbol, .ofStart (s.tracker.step c).location,
        text "An extra ')' is detected."⟩

section Steps
variable {ns : Bytes} {s s' : Scan} {c : UInt8} {e : Error}

theorem close_turn (closing : c = rparen) (closed : s.close (s.tracker.step c) = .ok s') :
    Turn s c s' := by
  simp only [Scan.close] at closed
  split at closed
  · cases closed
  · next inList =>
    cases closed
    exact .closes closing inList

theorem close_rejects (closing : c = rparen) (failed : s.close (s.tracker.step c) = .error e) :
    Rejects s c e := by
  simp only [Scan.close, Scan.failure] at failed
  split at failed
  · next top =>
    cases failed
    exact .extra closing top
  · cases failed

theorem start_turn (started : s.start c = .ok s') : Turn s c s' := by
  simp only [Scan.start] at started
  split at started
  · next space =>
    cases started
    exact .space space
  · split at started
    · next opening =>
      cases started
      exact .opens opening
    · split at started
      · next closing => exact close_turn closing started
      · split at started
        · next digit =>
          cases started
          exact .digit digit
        · split at started
          · next ident =>
            cases started
            exact .ident ident
          · cases started

theorem start_rejects (failed : s.start c = .error e) : Rejects s c e := by
  by_cases space : isspace c = true
  · cases (start_space space).symm.trans failed
  · by_cases opening : c = lparen
    · rw [opening, start_lparen] at failed
      cases failed
    · by_cases closing : c = rparen
      · rw [closing, start_rparen, ← closing] at failed
        exact close_rejects closing failed
      · rw [Bool.not_eq_true] at space
        cases ident : isValidForIdentifier c with
        | true =>
          cases digit : isdigit c with
          | true => cases (start_digit digit).symm.trans failed
          | false => cases (start_ident ident digit).symm.trans failed
        | false =>
          cases (start_invalid space ident opening closing).symm.trans failed
          exact .illegal space ident opening closing

theorem Turn.of_flush (turn : Turn (s.flush ns) c s') : Turn s c s' := by
  have between := flush_mode ns s
  have tracker := flush_tracker ns s
  have opened := flush_opened ns s
  cases turn with
  | space space => rw [tracker, opened]; exact .space space
  | opens opening => rw [tracker, opened]; exact .opens opening
  | closes closing inList => rw [tracker]; exact .closes closing (opened.symm.trans inList)
  | digit digit => rw [tracker, opened]; exact .digit digit
  | ident ident => rw [tracker, opened]; exact .ident ident
  | signed symbol digit => cases between.symm.trans symbol
  | symbol symbol ident => cases between.symm.trans symbol
  | number number inside first => cases between.symm.trans number

theorem Rejects.of_flush (rejected : Rejects (s.flush ns) c e) : Rejects s c e := by
  have between := flush_mode ns s
  have tracker := flush_tracker ns s
  cases rejected with
  | secondPoint number point => cases between.symm.trans number
  | letter number letter => cases between.symm.trans number
  | illegal space ident noOpen noClose =>
    rw [tracker]
    exact .illegal space ident noOpen noClose
  | extra closing top =>
    rw [tracker]
    exact .extra closing ((flush_opened ns s).symm.trans top)

/-- A byte that goes on with the token. -/
theorem takes_turn (takes : Takes s c) (stepped : s.step ns c = .ok s') : Turn s c s' := by
  cases mode : s.mode with
  | between => simp [Takes, mode] at takes
  | symbol lexeme =>
    have ident := takes_ident takes
    simp only [Scan.step, mode, ident, if_true] at stepped
    split at stepped
    · next sign =>
      cases stepped
      obtain ⟨rfl, digit⟩ := sign
      exact .signed mode digit
    · cases stepped
      exact .symbol mode ident
  | number start lexeme neg floatNum =>
    simp only [Scan.step, mode] at stepped
    split at stepped
    · next inside =>
      split at stepped
      · cases stepped
      · next first =>
        cases stepped
        exact .number mode inside (Bool.not_eq_true _ ▸ first)
    · next outside =>
      split at stepped
      · cases stepped
      · next noLetter =>
        have inside : isdigit c = true ∨ c = dot := by simpa [Takes, mode, noLetter] using takes
        exact absurd (by simpa using inside) outside

theorem takes_rejects (takes : Takes s c) (failed : s.step ns c = .error e) : Rejects s c e := by
  cases mode : s.mode with
  | between => simp [Takes, mode] at takes
  | symbol lexeme =>
    simp only [Scan.step, mode, takes_ident takes, if_true] at failed
    split at failed <;> cases failed
  | number start lexeme neg floatNum =>
    simp only [Scan.step, mode, Scan.failure] at failed
    split at failed
    · split at failed
      · next second =>
        cases failed
        obtain ⟨point, rfl⟩ := Bool.and_eq_true_iff.mp second
        exact .secondPoint mode (beq_iff_eq.mp point)
      · cases failed
    · next outside =>
      split at failed
      · next letter =>
        cases failed
        exact .letter mode letter
      · next noLetter =>
        have inside : isdigit c = true ∨ c = dot := by simpa [Takes, mode, noLetter] using takes
        exact absurd (by simpa using inside) outside

theorem step_turn (stepped : s.step ns c = .ok s') : Turn s c s' := by
  by_cases takes : Takes s c
  · exact takes_turn takes stepped
  · rw [step_flush takes, step_between (flush_mode ns s)] at stepped
    exact (start_turn stepped).of_flush

theorem step_rejects (failed : s.step ns c = .error e) : Rejects s c e := by
  by_cases takes : Takes s c
  · exact takes_rejects takes failed
  · rw [step_flush takes, step_between (flush_mode ns s)] at failed
    exact (start_rejects failed).of_flush

theorem turn_tracker (turn : Turn s c s') : s'.tracker = s.tracker.step c := by
  cases turn <;> rfl

/-- Parentheses open and close lists, and no other byte does. -/
theorem turn_opened (turn : Turn s c s') :
    (c ≠ lparen ∧ c ≠ rparen ∧ s'.opened = s.opened) ∨
      (c = lparen ∧ ∃ items, s'.opened = (s.tracker.location, items) :: s.opened) ∨
      (c = rparen ∧ ∃ start outer, s.opened = (start, outer) :: s'.opened) := by
  have other (ident : isValidForIdentifier c = true) (same : s'.opened = s.opened) :
      c ≠ lparen ∧ c ≠ rparen ∧ s'.opened = s.opened :=
    ⟨(ident_facts ident).2.2.1, (ident_facts ident).2.2.2, same⟩
  cases turn with
  | space space =>
    obtain ⟨-, -, -, -, -, noOpen, noClose⟩ := space_facts space
    exact Or.inl ⟨noOpen, noClose, rfl⟩
  | opens opening => exact Or.inr (Or.inl ⟨opening, _, rfl⟩)
  | closes closing inList => exact Or.inr (Or.inr ⟨closing, _, _, inList⟩)
  | digit digit => exact Or.inl (other (digit_facts digit).1 rfl)
  | ident ident => exact Or.inl (other ident rfl)
  | signed symbol digit => exact Or.inl (other (digit_facts digit).1 rfl)
  | symbol symbol ident => exact Or.inl (other ident rfl)
  | number mode inside first =>
    have ident : isValidForIdentifier c = true := by
      rcases Bool.or_eq_true_iff.mp inside with digit | point
      · exact (digit_facts digit).1
      · rw [beq_iff_eq.mp point]
        rfl
    exact Or.inl (other ident rfl)

end Steps

end ScannerTurns
