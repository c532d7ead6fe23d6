import Serene.AstNodes

/-!
# The grammar of the reader

Which texts are sequences of expressions, and of which trees. A judgement
`Exprs ns k u tree m w` reads: the text `u`, which begins at byte `k`, starts
with the expressions `tree`, and `w`, which begins at byte `m`, comes after
them. What follows a token is part of the judgement, since tokens are maximal.
-/

namespace Grammar

open ByteClasses AstNodes

/-- The first byte of a node and the byte after its last. -/
abbrev Span := Nat × Nat

def sign (neg : Bool) : Bytes := if neg then [minus] else []

/-- An optional `-`, a digit, and then all the digits and points there are: at most
one point, and no letter next. -/
structure NumberAt (lexeme rest : Bytes) : Prop where
  shape : ∃ neg digit digits, lexeme = sign neg ++ digit :: digits ∧
    isdigit digit = true ∧ ∀ c ∈ digits, isdigit c = true ∨ c = dot
  onePoint : lexeme.count dot ≤ 1
  maximal : ∀ c ∈ rest.head?, isdigit c = false ∧ c ≠ dot
  noLetter : ∀ c ∈ rest.head?, isalpha c = false

/-- A digit, or a `-` with a digit after it. -/
def StartsNumber : Bytes → Prop
  | [] => False
  | c :: u => isdigit c = true ∨ (c = minus ∧ ∃ d ∈ u.head?, isdigit d = true)

/-- All the identifier bytes there are, not starting like a number. -/
structure SymbolAt (lexeme rest : Bytes) : Prop where
  nonempty : lexeme ≠ []
  ident : ∀ c ∈ lexeme, isValidForIdentifier c = true
  noNumber : ¬ StartsNumber (lexeme ++ rest)
  maximal : ∀ c ∈ rest.head?, isValidForIdentifier c = false

def numberNode {L : Type} (loc : L) (lexeme : Bytes) : Node L :=
  .number ⟨loc, lexeme, lexeme.head? == some minus, lexeme.contains dot⟩

def symbolNode {L : Type} (ns : Bytes) (loc : L) (lexeme : Bytes) : Node L :=
  .symbol (Symbol.make loc lexeme ns)

inductive Exprs (ns : Bytes) : Nat → Bytes → List (Node Span) → Nat → Bytes → Prop where
  | nil {k : Nat} {u : Bytes} : Exprs ns k u [] k u
  | space {k m : Nat} {c : UInt8} {u w : Bytes} {tree : List (Node Span)}
      (space : isspace c = true) (next : Exprs ns (k + 1) u tree m w) :
      Exprs ns k (c :: u) tree m w
  | number {k m : Nat} {lexeme u w : Bytes} {tree : List (Node Span)}
      (token : NumberAt lexeme u) (next : Exprs ns (k + lexeme.length) u tree m w) :
      Exprs ns k (lexeme ++ u) (numberNode (k, k + lexeme.length) lexeme :: tree) m w
  | symbol {k m : Nat} {lexeme u w : Bytes} {tree : List (Node Span)}
      (token : SymbolAt lexeme u) (next : Exprs ns (k + lexeme.length) u tree m w) :
      Exprs ns k (lexeme ++ u) (symbolNode ns (k, k + lexeme.length) lexeme :: tree) m w
  | list {k j m : Nat} {u v w : Bytes} {elements tree : List (Node Span)}
      (inside : Exprs ns (k + 1) u elements j (rparen :: v))
      (next : Exprs ns (j + 1) v tree m w) :
      Exprs ns k (lparen :: u) (.list (k, j + 1) elements :: tree) m w

/-- The text is a sequence of expressions. -/
def Parses (ns text : Bytes) (tree : List (Node Span)) : Prop :=
  Exprs ns 0 text tree text.length []

/-- The text is the lexemes of the tree in their order, the parentheses of its lists, and
spaces: every byte is accounted for once. -/
inductive Spells {L : Type} (ns : Bytes) : List (Node L) → Bytes → Prop where
  | nil : Spells ns [] []
  | space {c : UInt8} {nodes : List (Node L)} {text : Bytes} (space : isspace c = true)
      (rest : Spells ns nodes text) : Spells ns nodes (c :: text)
  | number {loc : L} {lexeme text : Bytes} {nodes : List (Node L)} (token : NumberAt lexeme [])
      (rest : Spells ns nodes text) : Spells ns (numberNode loc lexeme :: nodes) (lexeme ++ text)
  | symbol {loc : L} {lexeme text : Bytes} {nodes : List (Node L)} (token : SymbolAt lexeme [])
      (rest : Spells ns nodes text) : Spells ns (symbolNode ns loc lexeme :: nodes) (lexeme ++ text)
  | list {loc : L} {inner text : Bytes} {elements nodes : List (Node L)}
      (inside : Spells ns elements inner) (rest : Spells ns nodes text) :
      Spells ns (.list loc elements :: nodes) (lparen :: (inner ++ rparen :: text))

theorem NumberAt.alone {lexeme rest : Bytes} (token : NumberAt lexeme rest) : NumberAt lexeme [] :=
  ⟨token.shape, token.onePoint, by simp, by simp⟩

theorem startsNumber_append {w : Bytes} (starts : StartsNumber w) (t : Bytes) :
    StartsNumber (w ++ t) := by
  cases w with
  | nil => cases starts
  | cons c cs =>
    rcases starts with digit | ⟨dash, d, second, digit⟩
    · exact Or.inl digit
    · refine Or.inr ⟨dash, d, ?_, digit⟩
      change (cs ++ t).head? = some d
      rw [List.head?_append, Option.mem_def.mp second]
      rfl

theorem SymbolAt.alone {lexeme rest : Bytes} (token : SymbolAt lexeme rest) :
    SymbolAt lexeme [] := by
  refine ⟨token.nonempty, token.ident, ?_, by simp⟩
  intro numeric
  rw [List.append_nil] at numeric
  exact token.noNumber (startsNumber_append numeric rest)

theorem exprs_spell {ns : Bytes} {k m : Nat} {u w : Bytes} {tree : List (Node Span)}
    (parsed : Exprs ns k u tree m w) : ∃ v, u = v ++ w ∧ m = k + v.length ∧ Spells ns tree v := by
  induction parsed with
  | nil => exact ⟨[], rfl, rfl, .nil⟩
  | @space k m c u w tree space next ih =>
    obtain ⟨v, rfl, rfl, spelled⟩ := ih
    exact ⟨c :: v, rfl, by rw [List.length_cons]; omega, .space space spelled⟩
  | @number k m lexeme u w tree token next ih =>
    obtain ⟨v, rfl, rfl, spelled⟩ := ih
    exact ⟨lexeme ++ v, by rw [List.append_assoc], by rw [List.length_append]; omega,
      .number token.alone spelled⟩
  | @symbol k m lexeme u w tree token next ih =>
    obtain ⟨v, rfl, rfl, spelled⟩ := ih
    exact ⟨lexeme ++ v, by rw [List.append_assoc], by rw [List.length_append]; omega,
      .symbol token.alone spelled⟩
  | @list k j m u v w elements tree inside next ihInside ihNext =>
    obtain ⟨inner, rfl, rfl, spelledInside⟩ := ihInside
    obtain ⟨after, rfl, rfl, spelled⟩ := ihNext
    refine ⟨lparen :: (inner ++ rparen :: after), by simp, ?_, .list spelledInside spelled⟩
    rw [List.length_cons, List.length_append, List.length_cons]
    omega

theorem spells_map {L M : Type} {ns text : Bytes} {nodes : List (Node L)} (f : Kind → L → M)
    (spelled : Spells ns nodes text) : Spells ns (nodes.map (Node.map f)) text := by
  induction spelled with
  | nil => exact .nil
  | space space _ ih => exact .space space ih
  | number token _ ih => exact .number token ih
  | symbol token _ ih =>
    rw [List.map_cons, symbolNode, Node.map_make]
    exact .symbol token ih
  | list _ _ ihInside ih =>
    rw [List.map_cons, Node.map_list]
    exact .list ihInside ih

theorem NumberAt.nonempty {lexeme rest : Bytes} (token : NumberAt lexeme rest) : lexeme ≠ [] := by
  obtain ⟨neg, digit, digits, rfl, -⟩ := token.shape
  exact List.append_ne_nil_of_right_ne_nil _ (List.cons_ne_nil digit digits)

theorem NumberAt.ident {lexeme rest : Bytes} (token : NumberAt lexeme rest) :
    ∀ c ∈ lexeme, isValidForIdentifier c = true := by
  obtain ⟨neg, digit, digits, rfl, isDigit, shape⟩ := token.shape
  intro c hc
  rcases List.mem_append.mp hc with signed | hc
  · cases neg with
    | false => cases signed
    | true => rw [List.mem_singleton.mp signed]; rfl
  · rcases List.mem_cons.mp hc with rfl | hc
    · exact (digit_facts isDigit).1
    · rcases shape c hc with isDigit | rfl
      · exact (digit_facts isDigit).1
      · rfl

theorem NumberAt.plain {lexeme rest : Bytes} (token : NumberAt lexeme rest) :
    ∀ c ∈ lexeme, isEndByte c = false := by
  intro c hc
  exact (ident_facts (token.ident c hc)).2.1

/-- No lexeme and no space has a byte that the reader takes for the end. -/
theorem spells_plain {L : Type} {ns text : Bytes} {nodes : List (Node L)}
    (spelled : Spells ns nodes text) : ∀ c ∈ text, isEndByte c = false := by
  induction spelled with
  | nil =>
    intro c mem
    cases mem
  | space space _ ih => exact List.forall_mem_cons.mpr ⟨(space_facts space).2.2.2.1, ih⟩
  | number token _ ih => exact List.forall_mem_append.mpr ⟨token.plain, ih⟩
  | symbol token _ ih =>
    exact List.forall_mem_append.mpr ⟨fun c hc => (ident_facts (token.ident c hc)).2.1, ih⟩
  | list _ _ ihInside ih =>
    refine List.forall_mem_cons.mpr ⟨rfl, List.forall_mem_append.mpr ⟨ihInside, ?_⟩⟩
    exact List.forall_mem_cons.mpr ⟨rfl, ih⟩

end Grammar
