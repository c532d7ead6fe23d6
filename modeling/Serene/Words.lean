import Serene.Grammar
import Serene.MaximalRuns

/-!
# The words of a text

A word is a longest run of identifier bytes. The grammar cuts a word that starts
like a number where the number ends, and goes on with what is left of it.
-/

namespace Words

open ByteClasses AstNodes Grammar MaximalRuns

def words (text : Bytes) : List Bytes :=
  (text.splitOnP fun c => !isValidForIdentifier c).filter fun w => !w.isEmpty

/-- What is left of a word after the numbers at its front; `inside` after a digit or a point. -/
def afterNumbers (inside : Bool) : Bytes → Bytes
  | [] => []
  | c :: u =>
    if isdigit c || (inside && c == dot) || (c == minus && u.head?.any isdigit) then
      afterNumbers true u
    else c :: u

/-- What the words of a text leave for symbols, in their order. -/
def symbolLexemes (text : Bytes) : List Bytes :=
  ((words text).map (afterNumbers false)).filter fun w => !w.isEmpty

section Splitting
variable {v w u : Bytes} {c : UInt8}

theorem words_append (v u : Bytes) (other : isValidForIdentifier c = false) :
    words (v ++ c :: u) = words v ++ words u := by
  rw [words, List.splitOnP_append_cons v u (by simp [other]), List.filter_append]
  rfl

theorem words_other (u : Bytes) (other : isValidForIdentifier c = false) :
    words (c :: u) = words u := words_append [] u other

/-- A run with nothing of it behind it is the first word. -/
theorem words_run (some : w ≠ []) (ident : ∀ d ∈ w, isValidForIdentifier d = true)
    (maximal : ∀ d ∈ u.head?, isValidForIdentifier d = false) :
    words (w ++ u) = w :: words u := by
  have alone : words w = [w] := by
    have single : w.splitOnP (fun d => !isValidForIdentifier d) = [w] := by
      apply List.splitOnP_eq_singleton
      intro d mem
      rw [ident d mem]
      rfl
    simp [words, single, some]
  cases u with
  | nil => rw [List.append_nil, alone]; rfl
  | cons d u =>
    have other := maximal d rfl
    rw [words_append w u other, words_other u other, alone]
    rfl

/-- The run `w` of a text has nothing of it before it or behind it. -/
structure Longest (v w u : Bytes) : Prop where
  nonempty : w ≠ []
  ident : ∀ c ∈ w, isValidForIdentifier c = true
  left : ∀ c ∈ v.getLast?, isValidForIdentifier c = false
  right : ∀ c ∈ u.head?, isValidForIdentifier c = false

theorem longest_mem (longest : Longest v w u) : w ∈ words (v ++ (w ++ u)) := by
  have first : w ∈ words (w ++ u) := by
    rw [words_run longest.nonempty longest.ident longest.right]
    exact List.mem_cons_self
  rcases List.eq_nil_or_concat' v with rfl | ⟨v, c, rfl⟩
  · exact first
  · have other : isValidForIdentifier c = false := by
      apply longest.left
      simp
    rw [List.append_assoc, List.singleton_append, words_append v (w ++ u) other]
    exact List.mem_append_right _ first

theorem Longest.cons (longest : Longest v w u) (other : isValidForIdentifier c = false) :
    Longest (c :: v) w u := by
  refine ⟨longest.nonempty, longest.ident, ?_, longest.right⟩
  intro d last
  cases v with
  | nil => rwa [← Option.some.inj last]
  | cons b v => exact longest.left d last

/-- The words of a text are its longest runs. -/
theorem mem_words {text : Bytes} (mem : w ∈ words text) :
    ∃ v u, text = v ++ (w ++ u) ∧ Longest v w u := by
  induction length : text.length using Nat.strongRecOn generalizing text with
  | ind n ih =>
    obtain ⟨t, u, rfl, ident, maximal⟩ := exists_run isValidForIdentifier text
    rw [List.length_append] at length
    have later : w ∈ words u → ∃ v u', t ++ u = v ++ (w ++ u') ∧ Longest v w u' := by
      intro mem
      cases u with
      | nil => simp [words] at mem
      | cons c u =>
        have other := maximal c rfl
        rw [words_other u other] at mem
        rw [List.length_cons] at length
        obtain ⟨v, u', rfl, longest⟩ := ih u.length (by omega) mem rfl
        refine ⟨t ++ c :: v, u', by simp, longest.nonempty, longest.ident, ?_, longest.right⟩
        rw [List.getLast?_append_of_ne_nil t (List.cons_ne_nil c v)]
        exact (longest.cons other).left
    by_cases some : t = []
    · rw [some] at mem
      exact later mem
    · rw [words_run some ident maximal, List.mem_cons] at mem
      rcases mem with rfl | mem
      · exact ⟨[], u, rfl, some, ident, by simp, maximal⟩
      · exact later mem

theorem symbolLexemes_append (v u : Bytes) (other : isValidForIdentifier c = false) :
    symbolLexemes (v ++ c :: u) = symbolLexemes v ++ symbolLexemes u := by
  rw [symbolLexemes, words_append v u other, List.map_append, List.filter_append]
  rfl

theorem symbolLexemes_other (u : Bytes) (other : isValidForIdentifier c = false) :
    symbolLexemes (c :: u) = symbolLexemes u := symbolLexemes_append [] u other

end Splitting

section Tokens
variable {lexeme u : Bytes}

/-- Past the end of a number it makes no difference that there was one. -/
theorem afterNumbers_ended (maximal : ∀ c ∈ u.head?, isdigit c = false ∧ c ≠ dot) :
    afterNumbers true u = afterNumbers false u := by
  cases u with
  | nil => rfl
  | cons c u => simp [afterNumbers, (maximal c rfl).2]

theorem afterNumbers_digits {digits : Bytes} (shape : ∀ c ∈ digits, isdigit c = true ∨ c = dot) :
    afterNumbers true (digits ++ u) = afterNumbers true u := by
  induction digits with
  | nil => rfl
  | cons c digits ih =>
    have inside : (isdigit c || c == dot) = true := by simpa using shape c List.mem_cons_self
    rw [List.cons_append, afterNumbers, Bool.true_and, inside, Bool.true_or, if_pos rfl]
    exact ih fun d mem => shape d (List.mem_cons_of_mem c mem)

theorem afterNumbers_number {rest : Bytes} (token : NumberAt lexeme (u ++ rest)) :
    afterNumbers false (lexeme ++ u) = afterNumbers false u := by
  obtain ⟨neg, digit, digits, rfl, isDigit, shape⟩ := token.shape
  have unsigned (inside : Bool) :
      afterNumbers inside (digit :: (digits ++ u)) = afterNumbers false u := by
    rw [afterNumbers, isDigit, Bool.true_or, Bool.true_or, if_pos rfl, afterNumbers_digits shape]
    apply afterNumbers_ended
    intro c first
    apply token.maximal c
    rw [List.head?_append, Option.mem_def.mp first]
    rfl
  cases neg with
  | false => exact unsigned false
  | true =>
    change afterNumbers false (minus :: digit :: (digits ++ u)) = _
    rw [afterNumbers, List.head?_cons, Option.any_some, isDigit]
    exact unsigned true

theorem afterNumbers_symbol {rest : Bytes} (token : SymbolAt lexeme rest) :
    afterNumbers false lexeme = lexeme := by
  obtain ⟨c, cs, rfl⟩ := List.exists_cons_of_ne_nil token.nonempty
  have noNumber := token.alone.noNumber
  rw [List.append_nil, StartsNumber, not_or] at noNumber
  have noMinus : (c == minus && cs.head?.any isdigit) = false := by
    rw [← Bool.not_eq_true, Bool.and_eq_true, beq_iff_eq, Option.any_eq_true]
    rintro ⟨dash, d, second, digit⟩
    exact noNumber.2 ⟨dash, d, second, digit⟩
  rw [afterNumbers, noMinus]
  simp [noNumber.1]

/-- A number leaves nothing for symbols, also where more of its word follows. -/
theorem symbolLexemes_number {rest : Bytes} (token : NumberAt lexeme (u ++ rest)) :
    symbolLexemes (lexeme ++ u) = symbolLexemes u := by
  obtain ⟨t, u, rfl, ident, maximal⟩ := exists_run isValidForIdentifier u
  have whole : words (lexeme ++ t ++ u) = (lexeme ++ t) :: words u :=
    words_run (by simp [token.nonempty]) (List.forall_mem_append.mpr ⟨token.ident, ident⟩) maximal
  rw [List.append_assoc] at token
  rw [← List.append_assoc, symbolLexemes, whole, List.map_cons, afterNumbers_number token]
  cases t with
  | nil => rfl
  | cons c t => rw [symbolLexemes, words_run (List.cons_ne_nil c t) ident maximal, List.map_cons]

theorem symbolLexemes_symbol {rest : Bytes} (token : SymbolAt lexeme (u ++ rest)) :
    symbolLexemes (lexeme ++ u) = lexeme :: symbolLexemes u := by
  have maximal : ∀ c ∈ u.head?, isValidForIdentifier c = false := by
    intro c first
    apply token.maximal c
    rw [List.head?_append, Option.mem_def.mp first]
    rfl
  rw [symbolLexemes, words_run token.nonempty token.ident maximal, List.map_cons,
    afterNumbers_symbol token]
  simp [symbolLexemes, token.nonempty]

end Tokens

end Words
