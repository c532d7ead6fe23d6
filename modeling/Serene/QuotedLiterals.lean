import Mathlib.Algebra.GroupWithZero.Nat
import Serene.CppTokens

/-!
# Strings quoted without escapes

A text that quotes strings without escaping them is read back as these strings
only where no byte of them has a meaning of its own. For this the decoded bytes
are counted: nothing of a text counts for more than its length, and what stands
between the strings counts for nothing.
-/

namespace CppTokens

def Token.weight : Token → Nat
  | .string content => content.length
  | _ => 0

/-- The bytes of an open literal. The digits of a universal name count before its bytes, of
which there are at most four. -/
def Mode.weight : Mode → Nat
  | .literal s | .escape s | .hex s none => s.length
  | .octal s _ _ | .hex s (some _) => s.length + 1
  | .universal s _ left => s.length + (4 - left)
  | _ => 0

def weight (ts : List Token) : Nat := (ts.map Token.weight).sum

def Lexer.weight (l : Lexer) : Nat := CppTokens.weight l.tokens + l.mode.weight

@[simp] theorem weight_append (ts us : List Token) : weight (ts ++ us) = weight ts + weight us := by
  simp [weight]

@[simp] theorem weight_nil : weight [] = 0 := rfl

@[simp] theorem weight_cons (t : Token) (ts : List Token) :
    weight (t :: ts) = t.weight + weight ts := by
  simp [weight]

/-- Not in a literal. -/
def Mode.outside : Mode → Bool
  | .code | .word _ | .slash | .lineComment | .blockComment | .blockStar => true
  | _ => false

section Steps
variable {ts : List Token} {s f : List UInt8} {b : UInt8} {l l' l'' : Lexer}

theorem codeStep_outside (ran : codeStep ts b = some l') :
    l'.weight = weight ts ∧ (l'.mode.outside ∨ b = quote ∧ l'.mode = .literal []) := by
  unfold codeStep at ran
  split_ifs at ran <;> cases ran <;>
    simp_all [Lexer.weight, Mode.weight, Token.weight, Mode.outside]

/-- Outside of literals nothing counts, and only a quote opens one. -/
theorem step_outside (outside : l.mode.outside) (ran : step l b = some l') :
    l'.weight = l.weight ∧ (l'.mode.outside ∨ b = quote ∧ l'.mode = .literal []) := by
  obtain ⟨ts, mode⟩ := l
  cases mode with
  | code => simpa [Lexer.weight, Mode.weight] using codeStep_outside ran
  | word bytes =>
    simp only [step] at ran
    split_ifs at ran
    · cases ran
      exact ⟨rfl, Or.inl rfl⟩
    · simpa [Lexer.weight, Mode.weight, Token.weight] using codeStep_outside ran
  | slash =>
    simp only [step] at ran
    split_ifs at ran
    · cases ran
      exact ⟨rfl, Or.inl rfl⟩
    · cases ran
      exact ⟨rfl, Or.inl rfl⟩
    · simpa [Lexer.weight, Mode.weight, Token.weight] using codeStep_outside ran
  | lineComment =>
    cases ran
    split_ifs <;> exact ⟨rfl, Or.inl rfl⟩
  | blockComment =>
    cases ran
    split_ifs <;> exact ⟨rfl, Or.inl rfl⟩
  | blockStar =>
    cases ran
    split_ifs <;> exact ⟨rfl, Or.inl rfl⟩
  | _ => cases outside

theorem literalStep_weight (ran : literalStep ts s b = some l') :
    l'.weight ≤ weight ts + s.length + 1 := by
  unfold literalStep at ran
  split_ifs at ran <;> cases ran <;> simp only [Lexer.weight, Mode.weight, Token.weight,
    weight_append, weight_cons, weight_nil, List.length_append, List.length_singleton] <;> omega

theorem escapeStep_weight (ran : escapeStep ts s b = some l') :
    l'.weight ≤ weight ts + s.length + 1 := by
  unfold escapeStep at ran
  split_ifs at ran
  · cases ran
    exact Nat.le_succ _
  · cases ran
    exact Nat.le_succ _
  · cases ran
    exact Nat.le_succ _
  · cases digit : octalDigit b with
    | some value =>
      rw [digit] at ran
      cases ran
      exact Nat.le_refl _
    | none =>
      rw [digit] at ran
      obtain ⟨c, -, rfl⟩ := Option.map_eq_some_iff.mp ran
      simp only [Lexer.weight, Mode.weight, List.length_append, List.length_singleton]
      omega

theorem afterDigits_weight {value : Nat} (ran : afterDigits ts s value b = some l') :
    l'.weight ≤ weight ts + s.length + 2 := by
  unfold afterDigits at ran
  split_ifs at ran
  have next := literalStep_weight ran
  rw [List.length_append, List.length_singleton] at next
  omega

theorem utf8_length_le {value : Nat} {c : List UInt8} (encoded : utf8 value = some c) :
    c.length ≤ 4 := by
  unfold utf8 at encoded
  split_ifs at encoded
  cases encoded
  rw [String.length_utf8EncodeChar]
  exact Char.utf8Size_le_four _

/-- No byte counts for more than one. -/
theorem step_weight_le (ran : step l b = some l') : l'.weight ≤ l.weight + 1 := by
  by_cases outside : l.mode.outside = true
  · have same := (step_outside outside ran).1
    omega
  obtain ⟨ts, mode⟩ := l
  cases mode with
  | literal s => exact literalStep_weight ran
  | escape s => exact escapeStep_weight ran
  | octal s value left =>
    cases digit : octalDigit b with
    | none => exact afterDigits_weight (by simpa [step, digit] using ran)
    | some d =>
      cases left with
      | zero => exact afterDigits_weight (by simpa [step, digit] using ran)
      | succ left =>
        obtain rfl : _ = l' := by simpa [step, digit] using ran
        exact Nat.le_succ _
  | hex s value =>
    cases digit : hexDigit b with
    | some d =>
      obtain rfl : _ = l' := by simpa [step, digit] using ran
      cases value <;> simp only [Lexer.weight, Mode.weight] <;> omega
    | none =>
      cases value with
      | none => simp [step, digit] at ran
      | some value => exact afterDigits_weight (by simpa [step, digit] using ran)
  | universal s value left =>
    cases digit : hexDigit b with
    | none => simp [step, digit] at ran
    | some d =>
      simp only [step, digit] at ran
      split_ifs at ran with more
      · cases ran
        simp only [Lexer.weight, Mode.weight]
        omega
      · obtain ⟨c, encoded, rfl⟩ := Option.map_eq_some_iff.mp ran
        have bound := utf8_length_le encoded
        simp only [Lexer.weight, Mode.weight, List.length_append]
        omega
  | _ => exact absurd rfl outside

/-- An unmarked byte of a literal stands for itself, and every other byte is lost. -/
theorem literal_step (ran : step ⟨ts, .literal s⟩ b = some l') :
    (¬ Marks b ∧ l' = ⟨ts, .literal (s ++ [b])⟩) ∨
      l'.weight = (Lexer.mk ts (.literal s)).weight := by
  simp only [step, literalStep] at ran
  split_ifs at ran with quoted escaped broken
  · cases ran
    exact Or.inr (by simp [Lexer.weight, Mode.weight, Token.weight])
  · cases ran
    exact Or.inr rfl
  · cases ran
    exact Or.inl ⟨by simp [Marks, quoted, escaped, broken], rfl⟩

theorem step_unmarked (unmarked : ¬ Marks b) :
    step ⟨ts, .literal s⟩ b = some ⟨ts, .literal (s ++ [b])⟩ := by
  simp only [Marks, not_or] at unmarked
  simp [step, literalStep, unmarked]

/-- A quote ends a literal that is read to its end, or leaves one open. -/
theorem step_quote (ran : step l quote = some l') :
    (∃ s, l'.mode = .literal s) ∨ (l'.mode.outside ∧ l'.weight ≤ l.weight) := by
  have closes {ts s} (ran : literalStep ts s quote = some l') :
      l'.mode.outside ∧ l'.weight ≤ weight ts + s.length := by
    obtain rfl : _ = l' := by simpa [literalStep] using ran
    exact ⟨rfl, by simp [Lexer.weight, Mode.weight, Token.weight]⟩
  have after {ts s value} (ran : afterDigits ts s value quote = some l') :
      l'.mode.outside ∧ l'.weight ≤ weight ts + (s.length + 1) := by
    unfold afterDigits at ran
    split_ifs at ran
    simpa using closes ran
  by_cases outside : l.mode.outside = true
  · obtain ⟨same, there | ⟨-, opened⟩⟩ := step_outside outside ran
    · exact Or.inr ⟨there, Nat.le_of_eq same⟩
    · exact Or.inl ⟨[], opened⟩
  obtain ⟨ts, mode⟩ := l
  cases mode with
  | literal s => exact Or.inr (closes ran)
  | escape s =>
    have escaped : step ⟨ts, .escape s⟩ quote = some ⟨ts, .literal (s ++ [quote])⟩ := rfl
    obtain rfl := Option.some.inj (escaped.symm.trans ran)
    exact Or.inl ⟨_, rfl⟩
  | octal s value left => exact Or.inr (after ran)
  | hex s value =>
    cases value with
    | none => cases ran
    | some value => exact Or.inr (after ran)
  | universal s value left => cases ran
  | _ => exact absurd rfl outside

end Steps

section Runs
variable {ts : List Token} {s f d u v : List UInt8} {l l' l'' : Lexer}

theorem run_cons (b : UInt8) : run l (b :: u) = (step l b).bind fun l' => run l' u :=
  List.foldlM_cons

theorem run_append : run l (u ++ v) = (run l u).bind fun l' => run l' v :=
  List.foldlM_append

theorem run_cons_some {b : UInt8} (ran : run l (b :: u) = some l'') :
    ∃ l', step l b = some l' ∧ run l' u = some l'' :=
  Option.bind_eq_some_iff.mp (run_cons b ▸ ran)

theorem run_append_some (ran : run l (u ++ v) = some l'') :
    ∃ l', run l u = some l' ∧ run l' v = some l'' :=
  Option.bind_eq_some_iff.mp (run_append ▸ ran)

theorem run_weight_le (ran : run l f = some l') : l'.weight ≤ l.weight + f.length := by
  induction f generalizing l with
  | nil =>
    cases ran
    exact Nat.le_refl _
  | cons b f ih =>
    obtain ⟨m, first, rest⟩ := run_cons_some ran
    have one := step_weight_le first
    have more := ih rest
    rw [List.length_cons]
    omega

theorem run_unmarked (unmarked : ∀ b ∈ f, ¬ Marks b) :
    run ⟨ts, .literal s⟩ f = some ⟨ts, .literal (s ++ f)⟩ := by
  induction f generalizing s with
  | nil => rw [List.append_nil]; rfl
  | cons b f ih =>
    obtain ⟨first, rest⟩ := List.forall_mem_cons.mp unmarked
    rw [run_cons, step_unmarked first, Option.bind_some, ih rest, List.append_assoc]
    rfl

/-- Inside a literal a text counts for its whole length only if none of its bytes is marked. -/
theorem run_literal (ran : run ⟨ts, .literal s⟩ f = some l')
    (full : weight ts + s.length + f.length ≤ l'.weight) : ∀ b ∈ f, ¬ Marks b := by
  induction f generalizing s with
  | nil => simp
  | cons b f ih =>
    obtain ⟨m, first, rest⟩ := run_cons_some ran
    rw [List.length_cons] at full
    rcases literal_step first with ⟨unmarked, rfl⟩ | lost
    · refine List.forall_mem_cons.mpr ⟨unmarked, ih rest ?_⟩
      rw [List.length_append, List.length_singleton]
      omega
    · have more := run_weight_le rest
      simp only [Lexer.weight, Mode.weight] at lost more full
      omega

theorem run_outside (outside : l.mode.outside) (unquoted : quote ∉ d) (ran : run l d = some l') :
    l'.mode.outside ∧ l'.weight = l.weight := by
  induction d generalizing l with
  | nil =>
    cases ran
    exact ⟨outside, rfl⟩
  | cons b d ih =>
    obtain ⟨m, first, rest⟩ := run_cons_some ran
    rw [List.mem_cons, not_or] at unquoted
    obtain ⟨same, there | ⟨quoted, -⟩⟩ := step_outside outside first
    · obtain ⟨outside', same'⟩ := ih there unquoted.2 rest
      exact ⟨outside', same'.trans same⟩
    · exact absurd quoted.symm unquoted.1

/-- A byte between literals that is a token of its own, or none. -/
def separates (b : UInt8) : Bool :=
  isBlank b || !(isWord b || [quote, apostrophe, slash, backslash, carriageReturn].contains b)

theorem separates_facts {b : UInt8} (sep : separates b = true) :
    b ≠ quote ∧ b ≠ backslash ∧ stays b = true := by
  have unescaped : b ≠ backslash := by
    rintro rfl
    exact absurd sep (by decide)
  have unreturned : b ≠ carriageReturn := by
    rintro rfl
    exact absurd sep (by decide)
  refine ⟨?_, unescaped, by simp [stays, unescaped, unreturned]⟩
  rintro rfl
  exact absurd sep (by decide)

/-- A literal does not go on over the end of its line. -/
theorem run_newline (sep : d.all separates) (ends : newline ∈ d) :
    run ⟨ts, .literal s⟩ d = none := by
  induction d generalizing s with
  | nil => cases ends
  | cons b d ih =>
    rw [List.all_cons, Bool.and_eq_true] at sep
    obtain ⟨unquoted, unescaped, -⟩ := separates_facts sep.1
    rw [run_cons]
    by_cases broken : b = newline
    · rw [broken]
      rfl
    · have later := (List.mem_cons.mp ends).resolve_left (Ne.symm broken)
      rw [step_unmarked (by simp [Marks, unquoted, unescaped, broken]), Option.bind_some]
      exact ih sep.2 later

def puncts (d : List UInt8) : List Token := (d.filter fun b => !isBlank b).map .punct

theorem step_separator {b : UInt8} (sep : separates b = true) :
    step ⟨ts, .code⟩ b = some ⟨ts ++ puncts [b], .code⟩ := by
  by_cases blank : isBlank b = true
  · simp [step, codeStep, puncts, blank]
  · simp [separates, blank] at sep
    simp [step, codeStep, puncts, blank, sep]

theorem run_separator (sep : d.all separates) :
    run ⟨ts, .code⟩ d = some ⟨ts ++ puncts d, .code⟩ := by
  induction d generalizing ts with
  | nil => simp [run, puncts]
  | cons b d ih =>
    rw [List.all_cons, Bool.and_eq_true] at sep
    rw [run_cons, step_separator sep.1, Option.bind_some, ih sep.2, List.append_assoc, puncts,
      puncts, puncts, ← List.map_append, ← List.filter_append, List.singleton_append]

theorem word_facts {b : UInt8} (word : isWord b = true) :
    isBlank b = false ∧ stays b = true := by
  have returns : carriageReturn.toNat = 13 := rfl
  have escapes : backslash.toNat = 92 := rfl
  simp [isWord, isBlank, isDigit, stays, UInt8.le_iff_toNat_le, ← UInt8.toNat_inj] at *
  omega

theorem run_longer_word (word : ∀ b ∈ u, isWord b = true) :
    run ⟨ts, .word s⟩ u = some ⟨ts, .word (s ++ u)⟩ := by
  induction u generalizing s with
  | nil => simp [run]
  | cons b u ih =>
    obtain ⟨first, rest⟩ := List.forall_mem_cons.mp word
    have longer : step ⟨ts, .word s⟩ b = some ⟨ts, .word (s ++ [b])⟩ := by simp [step, first]
    rw [run_cons, longer, Option.bind_some, ih rest, List.append_assoc, List.singleton_append]

theorem step_after_word {b : UInt8} (sep : separates b = true) :
    step ⟨ts, .word s⟩ b = step ⟨ts ++ [.word s], .code⟩ b := by
  have other : isWord b = false := by
    by_contra word
    rw [Bool.not_eq_false] at word
    simp [separates, word, (word_facts word).1] at sep
  simp [step, other, (separates_facts sep).1]

/-- A word ends at the separator. -/
theorem run_word (word : ∀ b ∈ u, isWord b = true) (begun : u ≠ []) (sep : d.all separates)
    (ends : d ≠ []) : run ⟨ts, .code⟩ (u ++ d) = some ⟨ts ++ .word u :: puncts d, .code⟩ := by
  obtain ⟨b, u, rfl⟩ := List.exists_cons_of_ne_nil begun
  obtain ⟨c, d, rfl⟩ := List.exists_cons_of_ne_nil ends
  obtain ⟨first, rest⟩ := List.forall_mem_cons.mp word
  have begins : step ⟨ts, .code⟩ b = some ⟨ts, .word [b]⟩ := by
    simp [step, codeStep, (word_facts first).1, first]
  have closes := (List.all_eq_true.mp sep) c List.mem_cons_self
  have after := @run_separator (ts ++ [.word (b :: u)]) (c :: d) sep
  rw [run_cons, ← step_after_word closes] at after
  rw [List.cons_append, run_cons, begins, Option.bind_some, run_append, run_longer_word rest,
    Option.bind_some, run_cons]
  simpa using after

/-- After a quote and a separator with a newline no literal is open, and none of these bytes
has been counted. -/
theorem run_close (sep : d.all separates) (ends : newline ∈ d)
    (ran : run l (quote :: d) = some l') : l'.mode.outside ∧ l'.weight ≤ l.weight := by
  obtain ⟨⟨ts, mode⟩, first, rest⟩ := run_cons_some ran
  rcases step_quote first with ⟨s, opened⟩ | ⟨outside, bound⟩
  · obtain rfl : mode = .literal s := opened
    rw [run_newline sep ends] at rest
    cases rest
  · have unquoted : quote ∉ d := fun mem => (separates_facts (List.all_eq_true.mp sep _ mem)).1 rfl
    obtain ⟨outside', same⟩ := run_outside outside unquoted rest
    exact ⟨outside', by omega⟩

end Runs

/-- A string between quotes, and the bytes up to the next quote, which go past a line. -/
structure Piece where
  content : List UInt8
  after : List UInt8
  separates : after.all separates
  ends : newline ∈ after

namespace Piece

def text (p : Piece) : List UInt8 := quote :: p.content ++ quote :: p.after

def tokens (p : Piece) : List Token := .string p.content :: puncts p.after

def logical (p : Piece) : Piece := { p with content := logicalLines p.content }

end Piece

def size (pieces : List Piece) : Nat := (pieces.map fun p => p.content.length).sum

section Pieces
variable {ts us : List Token} {lead : List UInt8} {pieces : List Piece} {l l' : Lexer} {p : Piece}

theorem run_piece (ran : run l p.text = some l') (outside : l.mode.outside) :
    l'.mode.outside ∧ l'.weight ≤ l.weight + p.content.length := by
  obtain ⟨m, opening, rest⟩ := run_append_some ran
  obtain ⟨m', first, middle⟩ := run_cons_some opening
  have same := (step_outside outside first).1
  have bound := run_weight_le middle
  obtain ⟨outside', bound'⟩ := run_close p.separates p.ends rest
  exact ⟨outside', by omega⟩

theorem run_unmarked_piece (unmarked : ∀ b ∈ p.content, ¬ Marks b) :
    run ⟨ts, .code⟩ p.text = some ⟨ts ++ p.tokens, .code⟩ := by
  have opens : step ⟨ts, .code⟩ quote = some ⟨ts, .literal []⟩ := rfl
  have closes : step ⟨ts, .literal ([] ++ p.content)⟩ quote =
    some ⟨ts ++ [.string p.content], .code⟩ := rfl
  rw [Piece.text, List.cons_append, run_cons, opens, Option.bind_some, run_append,
    run_unmarked unmarked, Option.bind_some, run_cons, closes, Option.bind_some,
    run_separator p.separates, List.append_assoc, List.singleton_append, Piece.tokens]

@[simp] theorem weight_code (ts : List Token) : (Lexer.mk ts .code).weight = weight ts := rfl

theorem weight_tokens (p : Piece) : weight p.tokens = p.content.length := by
  have none (d : List UInt8) : weight (puncts d) = 0 := by
    simp [weight, puncts, Token.weight, Function.comp_def]
  rw [Piece.tokens, ← List.singleton_append, weight_append, none, weight_cons]
  rfl

theorem full_piece (ran : run ⟨ts, .code⟩ p.text = some l')
    (full : weight ts + p.content.length ≤ l'.weight) : ∀ b ∈ p.content, ¬ Marks b := by
  obtain ⟨m, opening, rest⟩ := run_append_some ran
  have bound := (run_close p.separates p.ends rest).2
  have opened : run ⟨ts, .literal []⟩ p.content = some m := opening
  refine run_literal opened ?_
  rw [List.length_nil]
  omega

theorem run_pieces (ran : run l (pieces.flatMap Piece.text) = some l') (outside : l.mode.outside) :
    l'.mode.outside ∧ l'.weight ≤ l.weight + size pieces := by
  induction pieces generalizing l with
  | nil =>
    cases ran
    exact ⟨outside, Nat.le_refl _⟩
  | cons p pieces ih =>
    rw [List.flatMap_cons] at ran
    obtain ⟨m, first, rest⟩ := run_append_some ran
    obtain ⟨outside', bound⟩ := run_piece first outside
    obtain ⟨outside'', bound'⟩ := ih rest outside'
    simp only [size, List.map_cons, List.sum_cons] at bound' ⊢
    exact ⟨outside'', by omega⟩

theorem run_unmarked_pieces (unmarked : ∀ p ∈ pieces, ∀ b ∈ p.content, ¬ Marks b) :
    run ⟨ts, .code⟩ (pieces.flatMap Piece.text) =
      some ⟨ts ++ pieces.flatMap Piece.tokens, .code⟩ := by
  induction pieces generalizing ts with
  | nil => simp [run]
  | cons p pieces ih =>
    obtain ⟨first, rest⟩ := List.forall_mem_cons.mp unmarked
    rw [List.flatMap_cons, run_append, run_unmarked_piece first, Option.bind_some, ih rest,
      List.flatMap_cons, List.append_assoc]

/-- Pieces that count for the whole length of their strings have no marks in them. -/
theorem full_pieces (ran : run ⟨ts, .code⟩ (pieces.flatMap Piece.text) = some l')
    (full : weight ts + size pieces ≤ l'.weight) :
    ∀ p ∈ pieces, ∀ b ∈ p.content, ¬ Marks b := by
  induction pieces generalizing ts with
  | nil => simp
  | cons p pieces ih =>
    rw [List.flatMap_cons] at ran
    obtain ⟨m, first, rest⟩ := run_append_some ran
    obtain ⟨outside, bound⟩ := run_piece first rfl
    have bound' := (run_pieces rest outside).2
    simp only [size, List.map_cons, List.sum_cons, weight_code] at bound bound' full
    have unmarked := full_piece first (by omega)
    obtain rfl := Option.some.inj ((run_unmarked_piece unmarked).symm.trans first)
    refine List.forall_mem_cons.mpr ⟨unmarked, ih rest ?_⟩
    rw [weight_append, weight_tokens, size]
    omega

theorem logicalLines_pieces (pieces : List Piece) :
    logicalLines (pieces.flatMap Piece.text) =
      (pieces.map Piece.logical).flatMap Piece.text := by
  induction pieces with
  | nil => rfl
  | cons p pieces ih =>
    have fixed : p.after.all stays := by
      rw [List.all_eq_true]
      intro b mem
      exact (separates_facts (List.all_eq_true.mp p.separates b mem)).2.2
    rw [List.flatMap_cons, Piece.text, List.append_assoc, List.cons_append, List.cons_append,
      logicalLines_cons (by decide) (by decide), logicalLines_quote, logicalLines_fixed fixed, ih]
    simp [Piece.text, Piece.logical]

theorem tokens_lead (fixed : lead.all stays)
    (leads : run ⟨[], .code⟩ lead = some ⟨ts, .code⟩) (pieces : List Piece) :
    tokens (lead ++ pieces.flatMap Piece.text) =
      (run ⟨ts, .code⟩ ((pieces.map Piece.logical).flatMap Piece.text)).bind finish := by
  rw [tokens, logicalLines_fixed fixed, logicalLines_pieces, run_append, leads, Option.bind_some]

theorem logical_plain (plain : Plain p.content) : p.logical = p := by
  rw [Piece.logical, plain_fixed plain]

/-- Plain strings are read back as they are. -/
theorem tokens_plain (fixed : lead.all stays)
    (leads : run ⟨[], .code⟩ lead = some ⟨ts, .code⟩) (plain : ∀ p ∈ pieces, Plain p.content) :
    tokens (lead ++ pieces.flatMap Piece.text) = some (ts ++ pieces.flatMap Piece.tokens) := by
  have same : pieces.map Piece.logical = pieces := by
    rw [List.map_congr_left fun p mem => logical_plain (plain p mem), List.map_id']
  rw [tokens_lead fixed leads, same, run_unmarked_pieces fun p mem b inside =>
    (plain p mem b inside).1]
  rfl

theorem finish_weight (outside : l.mode.outside) (ends : finish l = some us) :
    weight us = l.weight := by
  obtain ⟨ts, mode⟩ := l
  cases mode <;> cases outside <;> cases ends <;> simp [Lexer.weight, Mode.weight, Token.weight]

theorem size_logical_le (pieces : List Piece) : size (pieces.map Piece.logical) ≤ size pieces := by
  induction pieces with
  | nil => exact Nat.le_refl _
  | cons p pieces ih =>
    have first := logicalLines_length_le p.content
    simp only [size, List.map_cons, List.sum_cons, Piece.logical] at ih ⊢
    omega

theorem size_logical_eq (full : size pieces ≤ size (pieces.map Piece.logical)) :
    ∀ p ∈ pieces, (logicalLines p.content).length = p.content.length := by
  induction pieces with
  | nil => simp
  | cons p pieces ih =>
    have first := logicalLines_length_le p.content
    have rest := size_logical_le pieces
    simp only [size, List.map_cons, List.sum_cons, Piece.logical] at ih full rest
    exact List.forall_mem_cons.mpr ⟨by omega, ih (by omega)⟩

/-- If the literals of a text have as many bytes as the strings that were quoted in it, all of
these are plain. -/
theorem plain_of_tokens (fixed : lead.all stays)
    (leads : run ⟨[], .code⟩ lead = some ⟨ts, .code⟩)
    (read : tokens (lead ++ pieces.flatMap Piece.text) = some us)
    (full : weight ts + size pieces ≤ weight us) : ∀ p ∈ pieces, Plain p.content := by
  rw [tokens_lead fixed leads] at read
  obtain ⟨l, ran, ends⟩ := Option.bind_eq_some_iff.mp read
  obtain ⟨outside, bound⟩ := run_pieces ran rfl
  rw [finish_weight outside ends] at full
  rw [weight_code] at bound
  have shorter := size_logical_le pieces
  have unmarked := full_pieces ran (by omega)
  have lengths := @size_logical_eq pieces (by omega)
  intro p mem
  exact plain_of_logicalLines (lengths p mem) (unmarked _ (List.mem_map_of_mem mem))

end Pieces

end CppTokens
