import Serene.AstPrinting
import Serene.ReaderGrammar

/-!
# Numbers, read and printed

`readNumber` starts the value of a negative number with a `-` and sets `isNeg`
as well; `Number::toString` prints a `-` for the flag and then the value. So the
sign is there twice, and a number keeps its numeral only where there is none.
-/

namespace NumberPrinting

open ByteClasses Locations AstNodes ReaderModel Scanner Grammar ScannerGrammar ReaderGrammar

def digitsValue (digits : Bytes) : Nat :=
  digits.foldl (fun value digit => 10 * value + (digit.toNat - '0'.toNat)) 0

/-- The digits as a whole number, divided by ten for each that follows the point. -/
def magnitude (numeral : Bytes) : Rat :=
  digitsValue (numeral.filter isdigit) / 10 ^ (numeral.dropWhile (· != dot)).tail.length

def numeralValue (numeral : Bytes) : Rat :=
  if numeral.head? = some minus then -magnitude numeral else magnitude numeral

/-- What the fields of a number denote, when the flag gives the sign of the value string. -/
def signedOnce {L : Type} (n : Number L) : Rat :=
  if n.isNeg then -numeralValue n.value else numeralValue n.value

/-- The bytes of a span. -/
def lexemeOf (text : Bytes) (span : Span) : Bytes := (text.drop span.1).take (span.2 - span.1)

/-- Reading the buffer makes this number, at the top or in a list, of this lexeme. -/
def Makes (buf ns : Bytes) (filename : Option Bytes) (lexeme : Bytes) (n : Number LocationRange) :
    Prop :=
  ∃ tree, Parses ns (body buf) tree ∧ ∃ m ∈ Node.numbersAll tree,
    lexemeOf (body buf) m.location = lexeme ∧
      asRead (origin ns filename) (body buf) (.number m) = .number n

/-- Every number is made of the bytes of its span. -/
theorem exprs_numbers {ns text u w : Bytes} {k m : Nat} {tree : List (Node Span)}
    (parsed : Exprs ns k u tree m w) (here : text.drop k = u) :
    (∀ n ∈ Node.numbersAll tree, NumberAt (lexemeOf text n.location) [] ∧
      .number n = numberNode n.location (lexemeOf text n.location)) ∧ text.drop m = w := by
  induction parsed with
  | nil => exact ⟨by simp [Node.numbersAll], here⟩
  | space space _ ih => exact ih (drop_succ here)
  | @number k m lexeme u w tree token _ ih =>
    obtain ⟨numbers, there⟩ := ih (drop_append here)
    refine ⟨List.forall_mem_cons.mpr ⟨?_, numbers⟩, there⟩
    have own : lexemeOf text (k, k + lexeme.length) = lexeme := by
      rw [lexemeOf, here, Nat.add_sub_cancel_left, List.take_left]
    rw [own]
    exact ⟨token.alone, rfl⟩
  | symbol token _ ih => exact ih (drop_append here)
  | list _ _ ihInside ih =>
    obtain ⟨inside, there⟩ := ihInside (drop_succ here)
    obtain ⟨numbers, there'⟩ := ih (drop_succ there)
    exact ⟨List.forall_mem_append.mpr ⟨inside, numbers⟩, there'⟩

section Buffers
variable {buf ns lexeme : Bytes} {filename : Option Bytes}

theorem makes_fields {n : Number LocationRange} (makes : Makes buf ns filename lexeme n) :
    NumberAt lexeme [] ∧ n.value = lexeme ∧ n.isNeg = (lexeme.head? == some minus) ∧
      n.isFloat = lexeme.contains dot := by
  obtain ⟨tree, parsed, m, mem, rfl, read⟩ := makes
  obtain ⟨numeral, same⟩ := (exprs_numbers parsed rfl).1 m mem
  rw [same] at read
  cases read
  exact ⟨numeral, rfl, rfl, rfl⟩

theorem numbers_map {L M : Type} (f : Kind → L → M) (node : Node L) {n : Number M}
    (mem : n ∈ (node.map f).numbers) : ∃ m ∈ node.numbers, (Node.number m).map f = .number n := by
  induction node using Node.tree_induction with
  | null => cases mem
  | symbol s => cases mem
  | number m =>
    rw [List.mem_singleton.mp mem]
    exact ⟨m, List.mem_singleton.mpr rfl, rfl⟩
  | list loc elements ih =>
    rw [Node.map_list, Node.numbers, Node.numbersAll_eq, List.flatMap_map] at mem
    obtain ⟨e, inside, mem⟩ := List.mem_flatMap.mp mem
    obtain ⟨m, own, same⟩ := ih e inside mem
    rw [Node.numbers, Node.numbersAll_eq]
    exact ⟨m, List.mem_flatMap.mpr ⟨e, inside, own⟩, same⟩

/-- Every number that the reader returns is made of a lexeme. -/
theorem reads_makes {ast : Ast} (reads : ReadsAs buf ns filename ast) :
    ∀ n ∈ Node.numbersAll ast, ∃ lexeme, Makes buf ns filename lexeme n := by
  obtain ⟨tree, parsed, rfl⟩ := (readsAs_iff buf ns filename ast).mp reads
  intro n mem
  rw [Node.numbersAll_eq, List.flatMap_map] at mem
  obtain ⟨node, inside, mem⟩ := List.mem_flatMap.mp mem
  obtain ⟨m, own, same⟩ := numbers_map _ node mem
  refine ⟨_, tree, parsed, m, ?_, rfl, same⟩
  rw [Node.numbersAll_eq]
  exact List.mem_flatMap.mpr ⟨node, inside, own⟩

/-- A numeral alone reads as its number. -/
theorem numeral_reads (numeral : NumberAt lexeme []) (ns : Bytes) (filename : Option Bytes) :
    ∃ loc, ReadsAs lexeme ns filename [numberNode loc lexeme] := by
  have parsed : Exprs ns 0 (lexeme ++ []) _ (0 + lexeme.length) [] := .number numeral .nil
  rw [List.append_nil, Nat.zero_add] at parsed
  have reads := (readsAs_iff lexeme ns filename _).mpr
    ⟨_, by rw [body_eq_self numeral.plain]; exact parsed, rfl⟩
  exact ⟨_, reads⟩

end Buffers

/-- The numeral is kept: the fields denote it, with the sign of the flag taken once, the flag
for floats tells of its point, it is printed as it was written, and what is printed reads as an
equal number. -/
structure Kept (lexeme : Bytes) (n : Number LocationRange) : Prop where
  denotes : signedOnce n = numeralValue lexeme
  isFloat : n.isFloat = true ↔ dot ∈ lexeme
  prints : n.toString = text "<Number " ++ lexeme ++ text ">"
  rereads : ∀ printed, n.toString = text "<Number " ++ printed ++ text ">" → ∀ ns filename,
    ∃ loc, ReadsAs printed ns filename [.number ⟨loc, n.value, n.isNeg, n.isFloat⟩]

theorem dash_prints (lexeme : Bytes) : text "<Number " ++ text "-" ++ lexeme ++ text ">" ≠
    text "<Number " ++ lexeme ++ text ">" := by
  intro same
  have lengths := congrArg List.length same
  simp only [List.length_append] at lengths
  rw [show (text "-").length = 1 from rfl] at lengths
  omega

/-- Every number that the reader returns has a lexeme that it was made of. It keeps the numeral
exactly when that does not start with a `-`; a negative number has the sign in its value
string and again in its flag, so together they denote the opposite and print a second `-`. -/
theorem numeral_kept_iff (buf ns : Bytes) (filename : Option Bytes) :
    (∀ ast, ReadsAs buf ns filename ast →
      ∀ n ∈ Node.numbersAll ast, ∃ lexeme, Makes buf ns filename lexeme n) ∧
    ∀ lexeme n, Makes buf ns filename lexeme n →
      (Kept lexeme n ↔ lexeme.head? ≠ some minus) ∧
      (lexeme.head? = some minus → signedOnce n = -numeralValue lexeme ∧
        n.toString = text "<Number " ++ text "-" ++ lexeme ++ text ">") := by
  refine ⟨fun ast reads => reads_makes reads, ?_⟩
  intro lexeme n makes
  obtain ⟨numeral, value, isNeg, isFloat⟩ := makes_fields makes
  by_cases negative : lexeme.head? = some minus
  · have flag : n.isNeg = true := by
      rw [isNeg]
      exact beq_iff_eq.mpr negative
    have prints : n.toString = text "<Number " ++ text "-" ++ lexeme ++ text ">" := by
      rw [Number.toString, flag, value, if_pos rfl]
    refine ⟨⟨fun kept => ?_, fun other => absurd negative other⟩, fun _ => ⟨?_, prints⟩⟩
    · exact absurd (prints.symm.trans kept.prints) (dash_prints lexeme)
    · rw [signedOnce, flag, value, if_pos rfl]
  · have flag : n.isNeg = false := by
      rw [isNeg]
      exact beq_eq_false_iff_ne.mpr negative
    have prints : n.toString = text "<Number " ++ lexeme ++ text ">" := by
      simp [Number.toString, flag, value]
    refine ⟨⟨fun _ => negative, fun _ => ⟨?_, ?_, prints, ?_⟩⟩, fun other => absurd other negative⟩
    · simp [signedOnce, flag, value]
    · rw [isFloat, List.contains_iff_mem]
    · intro printed same ns' filename'
      have own : lexeme = printed := by
        rw [prints] at same
        exact List.append_cancel_left (List.append_cancel_right same)
      obtain ⟨loc, reads⟩ := numeral_reads numeral ns' filename'
      rw [← own, value, isNeg, isFloat]
      exact ⟨loc, reads⟩

/-- `-1` is the value `-1` with the flag set, and prints with two signs. -/
def readMinusOne : Number LocationRange := ⟨⟨lineCol 1 3, lineCol 1 3⟩, text "-1", true, false⟩

theorem minus_one_twice : ReadsAs (text "-1") [] none [.number readMinusOne] ∧
    Makes (text "-1") [] none (text "-1") readMinusOne ∧
    readMinusOne.toString = text "<Number --1>" ∧ ¬ Kept (text "-1") readMinusOne := by
  have token : NumberAt (text "-1") [] := (@number_first true '1'.toUInt8 rfl).1
  have parsed : Parses [] (text "-1") [numberNode (0, 2) (text "-1")] := .number token .nil
  refine ⟨rfl, ⟨_, parsed, _, List.mem_singleton.mpr rfl, rfl, rfl⟩, rfl, fun kept => ?_⟩
  exact dash_prints (text "-1") kept.prints

end NumberPrinting
