import Serene.ReaderGrammar
import Serene.Words

/-!
# Names of symbols

A symbol is split at its first slash into the name of a namespace and a name, or
taken into the current namespace where it has no slash. Joined again with a
slash it is a text of its own, which reads as the same symbol everywhere.
-/

namespace SymbolNames

open ByteClasses Locations AstNodes ReaderModel Scanner Grammar ScannerGrammar ReaderGrammar Words

variable {L : Type}

/-- A column of the first line, read in the namespace `user`. -/
def userCol (col : UInt16) : Location := { ns := text "user", line := 1, col := col }

/-- `makeFQSymbolName`, which leaves its result in an argument. -/
def makeFQSymbolName (ns sym : Bytes) : Bytes := ns ++ text "/" ++ sym

/-- What the fully qualified name is made of. -/
def parts (s : Symbol L) : Bytes × Bytes := (s.nsName, s.name)

/-- The parts that the constructor makes of a lexeme. -/
def qualify (ns lexeme : Bytes) : Bytes × Bytes := parts (Symbol.make () lexeme ns)

theorem make_eq (loc : L) (ns lexeme : Bytes) :
    Symbol.make loc lexeme ns = ⟨loc, (qualify ns lexeme).2, (qualify ns lexeme).1⟩ := by
  simp only [qualify, Symbol.make]
  split <;> rfl

theorem parts_make (loc : L) (ns lexeme : Bytes) :
    parts (Symbol.make loc lexeme ns) = qualify ns lexeme := by
  rw [make_eq]
  rfl

theorem qualify_simple (ns : Bytes) {lexeme : Bytes} (simple : slash ∉ lexeme) :
    qualify ns lexeme = (ns, lexeme) := by
  rw [qualify, Symbol.make, List.idxOf?_eq_none_iff.mpr simple]
  rfl

theorem idxOf?_first {a : Bytes} (b : Bytes) (first : slash ∉ a) :
    (a ++ slash :: b).idxOf? slash = some a.length := by
  induction a with
  | nil => rfl
  | cons c a ih =>
    rw [List.mem_cons, not_or] at first
    rw [List.cons_append, List.idxOf?_cons, if_neg (by simpa using Ne.symm first.1), ih first.2]
    rfl

theorem qualify_split (ns : Bytes) {a : Bytes} (b : Bytes) (first : slash ∉ a) :
    qualify ns (a ++ slash :: b) = (a, b) := by
  rw [qualify, Symbol.make, idxOf?_first b first]
  simp [parts]

/-- A lexeme with a slash is the namespace and the name with the slash between. -/
theorem slash_cases (lexeme : Bytes) :
    slash ∉ lexeme ∨ ∃ a b, lexeme = a ++ slash :: b ∧ slash ∉ a := by
  by_cases mem : slash ∈ lexeme
  · obtain ⟨a, b, split, first⟩ := List.eq_append_cons_of_mem mem
    exact Or.inr ⟨a, b, split, first⟩
  · exact Or.inl mem

/-- The symbols of a derivation are made of what its words leave for symbols. -/
theorem exprs_symbols {ns u w : Bytes} {k m : Nat} {tree : List (Node Span)}
    (parsed : Exprs ns k u tree m w) : ∃ v, u = v ++ w ∧
      (Node.symbolsAll tree).map parts = (symbolLexemes v).map (qualify ns) ∧
      ∀ lexeme ∈ symbolLexemes v, SymbolAt lexeme [] := by
  induction parsed with
  | nil => exact ⟨[], rfl, rfl, by simp [symbolLexemes, words]⟩
  | @space k m c u w tree space next ih =>
    obtain ⟨v, rfl, same⟩ := ih
    refine ⟨c :: v, rfl, ?_⟩
    rw [symbolLexemes_other v (space_facts space).1]
    exact same
  | @number k m lexeme u w tree token next ih =>
    obtain ⟨v, rfl, same⟩ := ih
    refine ⟨lexeme ++ v, by rw [List.append_assoc], ?_⟩
    rw [symbolLexemes_number token]
    exact same
  | @symbol k m lexeme u w tree token next ih =>
    obtain ⟨v, rfl, same, symbols⟩ := ih
    refine ⟨lexeme ++ v, by rw [List.append_assoc], ?_, ?_⟩
    · rw [symbolLexemes_symbol token, List.map_cons, ← same, symbolNode, Node.symbolsAll,
        Node.symbols, List.map_append, List.map_cons, parts_make]
      rfl
    · rw [symbolLexemes_symbol token]
      exact List.forall_mem_cons.mpr ⟨token.alone, symbols⟩
  | @list k j m u v w elements tree inside next ihInside ihNext =>
    obtain ⟨inner, rfl, sameInside, symbolsInside⟩ := ihInside
    obtain ⟨after, rfl, same, symbols⟩ := ihNext
    refine ⟨lparen :: (inner ++ rparen :: after), by simp, ?_, ?_⟩
    · rw [symbolLexemes_other _ (by rfl), symbolLexemes_append inner after (by rfl),
        List.map_append, ← same, ← sameInside, Node.symbolsAll, Node.symbols, List.map_append]
    · rw [symbolLexemes_other _ (by rfl), symbolLexemes_append inner after (by rfl)]
      exact List.forall_mem_append.mpr ⟨symbolsInside, symbols⟩

theorem symbols_map {M : Type} (f : Kind → L → M) (node : Node L) :
    (node.map f).symbols.map parts = node.symbols.map parts := by
  induction node using Node.tree_induction with
  | null => rfl
  | symbol s => rfl
  | number n => rfl
  | list loc elements ih =>
    simp only [Node.map_list, Node.symbols, Node.symbolsAll_eq, List.flatMap_map, List.map_flatMap]
    exact List.flatMap_congr ih

/-- What `read` returns has the symbols that the words of the text leave. -/
theorem readsAs_symbols {buf ns : Bytes} {filename : Option Bytes} {ast : Ast}
    (reads : ReadsAs buf ns filename ast) :
    (Node.symbolsAll ast).map parts = (symbolLexemes (body buf)).map (qualify ns) ∧
      ∀ lexeme ∈ symbolLexemes (body buf), SymbolAt lexeme [] := by
  obtain ⟨tree, parsed, rfl⟩ := (readsAs_iff buf ns filename ast).mp reads
  obtain ⟨v, split, same, symbols⟩ := exprs_symbols parsed
  rw [List.append_nil] at split
  rw [split]
  refine ⟨?_, symbols⟩
  rw [← same]
  simp only [Node.symbolsAll_eq, List.flatMap_map, List.map_flatMap]
  exact List.flatMap_congr fun node _ => symbols_map _ node

/-- The parts of a symbol as a checked lexeme has them. -/
structure WellFormed (nsName name : Bytes) : Prop where
  nsName_nonempty : nsName ≠ []
  name_nonempty : name ≠ []
  nsName_simple : slash ∉ nsName
  name_simple : slash ∉ name

/-- At most one slash, neither at the start nor at the end. -/
def WellFormedLexeme (lexeme : Bytes) : Prop :=
  lexeme.count slash ≤ 1 ∧ lexeme.head? ≠ some slash ∧ lexeme.getLast? ≠ some slash

instance (lexeme : Bytes) : Decidable (WellFormedLexeme lexeme) :=
  inferInstanceAs (Decidable (_ ∧ _ ∧ _))

theorem wellFormed_simple {ns lexeme : Bytes} (current : ns ≠ []) (simpleNS : slash ∉ ns)
    (some : lexeme ≠ []) (simple : slash ∉ lexeme) :
    WellFormed ns lexeme ∧ WellFormedLexeme lexeme := by
  refine ⟨⟨current, some, simpleNS, simple⟩, ?_, ?_, ?_⟩
  · rw [List.count_eq_zero.mpr simple]
    exact Nat.zero_le 1
  · intro first
    exact simple (List.mem_of_head? first)
  · intro last
    exact simple (List.mem_of_getLast? last)

theorem wellFormed_split {a b : Bytes} (first : slash ∉ a) :
    WellFormed a b ↔ WellFormedLexeme (a ++ slash :: b) := by
  have count : (a ++ slash :: b).count slash = b.count slash + 1 := by
    rw [List.count_append, List.count_eq_zero.mpr first, List.count_cons_self, Nat.zero_add]
  rw [WellFormedLexeme, count]
  constructor
  · rintro ⟨nonemptyNS, nonempty, -, simple⟩
    refine ⟨by rw [List.count_eq_zero.mpr simple], ?_, ?_⟩
    · intro start
      obtain ⟨c, a, rfl⟩ := List.exists_cons_of_ne_nil nonemptyNS
      exact first (Option.some.inj start ▸ List.mem_cons_self)
    · intro last
      rw [List.append_cons, List.getLast?_append_of_ne_nil _ nonempty] at last
      exact simple (List.mem_of_getLast? last)
  · rintro ⟨one, start, last⟩
    refine ⟨?_, ?_, first, List.count_eq_zero.mp (by omega)⟩
    · rintro rfl
      exact start rfl
    · rintro rfl
      exact last List.getLast?_concat

/-- The constructor makes well-formed parts of the well-formed lexemes. -/
theorem wellFormed_qualify {ns lexeme : Bytes} (current : ns ≠ []) (simpleNS : slash ∉ ns)
    (some : lexeme ≠ []) :
    WellFormed (qualify ns lexeme).1 (qualify ns lexeme).2 ↔ WellFormedLexeme lexeme := by
  rcases slash_cases lexeme with simple | ⟨a, b, rfl, first⟩
  · obtain ⟨made, lexed⟩ := wellFormed_simple current simpleNS some simple
    rw [qualify_simple ns simple]
    exact iff_of_true made lexed
  · rw [qualify_split ns b first]
    exact wellFormed_split first

/-- In a text that reads, the symbols are well formed exactly where their lexemes are: nothing
checks a lexeme on the way. -/
theorem symbols_wellFormed_iff {buf ns : Bytes} {filename : Option Bytes} {ast : Ast}
    (current : ns ≠ []) (simpleNS : slash ∉ ns) (reads : ReadsAs buf ns filename ast) :
    (∀ s ∈ Node.symbolsAll ast, WellFormed s.nsName s.name) ↔
      ∀ lexeme ∈ symbolLexemes (body buf), WellFormedLexeme lexeme := by
  obtain ⟨same, symbols⟩ := readsAs_symbols reads
  have ofParts : (∀ s ∈ Node.symbolsAll ast, WellFormed s.nsName s.name) ↔
      ∀ p ∈ (Node.symbolsAll ast).map parts, WellFormed p.1 p.2 := by
    rw [List.forall_mem_map]
    rfl
  rw [ofParts, same, List.forall_mem_map]
  refine forall₂_congr fun lexeme mem => ?_
  exact wellFormed_qualify current simpleNS (symbols lexeme mem).nonempty

/-- `a/b` and `c` in a list, as read in the namespace `user`. -/
def readNames : Ast :=
  [.list ⟨userCol 1, userCol 8⟩
    [.symbol ⟨⟨{}, userCol 5⟩, text "b", text "a"⟩,
      .symbol ⟨⟨{}, userCol 7⟩, text "c", text "user"⟩]]

theorem names_wellFormed : ReadsAs (text "(a/b c)") (text "user") none readNames ∧
    ∀ s ∈ Node.symbolsAll readNames, WellFormed s.nsName s.name := by
  have reads : ReadsAs (text "(a/b c)") (text "user") none readNames := rfl
  exact ⟨reads, (symbols_wellFormed_iff (by decide) (by decide) reads).mpr (by decide)⟩

/-- A slash at the start is taken for the end of an empty namespace. -/
theorem leading_slash_reads :
    ReadsAs (text "/a") (text "user") none [.symbol ⟨⟨{}, userCol 3⟩, text "a", []⟩] ∧
      ¬ WellFormed [] (text "a") := by
  constructor
  · rfl
  · intro wellFormed
    exact wellFormed.nsName_nonempty rfl

theorem joined_parts (ns : Bytes) {nsName : Bytes} (name : Bytes) (first : slash ∉ nsName) :
    qualify ns (makeFQSymbolName nsName name) = (nsName, name) := by
  have joined : makeFQSymbolName nsName name = nsName ++ slash :: name :=
    List.append_assoc nsName (text "/") name
  rw [joined, qualify_split ns name first]

/-- With a slash behind it a symbol does not become a number. -/
theorem noNumber_joined {c lexeme : Bytes} (readable : SymbolAt c []) :
    ¬ StartsNumber (makeFQSymbolName c lexeme) := by
  have noNumber := readable.noNumber
  rw [List.append_nil] at noNumber
  obtain ⟨x, xs, rfl⟩ := List.exists_cons_of_ne_nil readable.nonempty
  rintro (digit | ⟨dash, d, second, digit⟩)
  · exact noNumber (Or.inl digit)
  · cases xs with
    | nil =>
      obtain rfl : slash = d := Option.some.inj second
      cases digit
    | cons y xs => exact noNumber (Or.inr ⟨dash, d, second, digit⟩)

/-- The fully qualified name of a symbol lexeme is a symbol lexeme with the same parts,
whatever namespace it is read in. -/
theorem qualified_lexeme {c lexeme : Bytes} (readable : SymbolAt c []) (simpleNS : slash ∉ c)
    (token : SymbolAt lexeme []) {nsName name : Bytes} (made : qualify c lexeme = (nsName, name)) :
    slash ∉ nsName ∧ SymbolAt (makeFQSymbolName nsName name) [] := by
  rcases slash_cases lexeme with simple | ⟨a, b, rfl, first⟩
  · rw [qualify_simple c simple] at made
    obtain ⟨rfl, rfl⟩ := Prod.mk.inj made
    refine ⟨simpleNS, ?_, ?_, ?_, by simp⟩
    · simp [makeFQSymbolName, readable.nonempty]
    · have slashed : ∀ d ∈ text "/", isValidForIdentifier d = true :=
        List.forall_mem_singleton.mpr rfl
      exact List.forall_mem_append.mpr
        ⟨List.forall_mem_append.mpr ⟨readable.ident, slashed⟩, token.ident⟩
    · rw [List.append_nil]
      exact noNumber_joined readable
  · rw [qualify_split c b first] at made
    obtain ⟨rfl, rfl⟩ := Prod.mk.inj made
    have joined : makeFQSymbolName a b = a ++ slash :: b := List.append_assoc a (text "/") b
    rw [joined]
    exact ⟨first, token⟩

theorem qualified_symbol {c buf : Bytes} {filename : Option Bytes} {ast : Ast}
    (readable : SymbolAt c []) (simple : slash ∉ c) (reads : ReadsAs buf c filename ast) :
    ∀ s ∈ Node.symbolsAll ast,
      slash ∉ s.nsName ∧ SymbolAt (makeFQSymbolName s.nsName s.name) [] := by
  intro s mem
  obtain ⟨same, symbols⟩ := readsAs_symbols reads
  have made : parts s ∈ (symbolLexemes (body buf)).map (qualify c) := by
    rw [← same]
    exact List.mem_map_of_mem mem
  obtain ⟨lexeme, inside, own⟩ := List.mem_map.mp made
  exact qualified_lexeme readable simple (symbols lexeme inside) own

/-- The text of a symbol lexeme reads as that symbol alone. -/
theorem lexeme_reads {lexeme : Bytes} (token : SymbolAt lexeme []) (ns : Bytes)
    (filename : Option Bytes) :
    ∃ loc, ReadsAs lexeme ns filename [.symbol (Symbol.make loc lexeme ns)] := by
  have plain : body lexeme = lexeme :=
    body_eq_self fun c mem => (ident_facts (token.ident c mem)).2.1
  have parsed : Exprs ns 0 (lexeme ++ []) _ (0 + lexeme.length) [] := .symbol token .nil
  rw [List.append_nil, Nat.zero_add] at parsed
  have reads := (readsAs_iff lexeme ns filename _).mpr ⟨_, by rw [plain]; exact parsed, rfl⟩
  rw [List.map_singleton, asRead, symbolNode, Node.map_make] at reads
  exact ⟨_, reads⟩

/-- Fully qualified names lose nothing: the name of a symbol read under a namespace that is
itself a symbol without a slash reads as that symbol under every namespace, and two such
symbols have the same name only if they have the same parts. -/
theorem qualified_names {c buf : Bytes} {filename : Option Bytes} {ast : Ast}
    (readable : SymbolAt c []) (simple : slash ∉ c) (reads : ReadsAs buf c filename ast) :
    ∀ s ∈ Node.symbolsAll ast,
      (∀ c' filename', ∃ loc, ReadsAs (makeFQSymbolName s.nsName s.name) c' filename'
        [.symbol ⟨loc, s.name, s.nsName⟩]) ∧
      ∀ c' buf' filename' ast', SymbolAt c' [] → slash ∉ c' → ReadsAs buf' c' filename' ast' →
        ∀ s' ∈ Node.symbolsAll ast',
          (makeFQSymbolName s.nsName s.name = makeFQSymbolName s'.nsName s'.name ↔
            s.nsName = s'.nsName ∧ s.name = s'.name) := by
  intro s mem
  obtain ⟨first, token⟩ := qualified_symbol readable simple reads s mem
  constructor
  · intro c' filename'
    obtain ⟨loc, alone⟩ := lexeme_reads token c' filename'
    rw [make_eq, joined_parts c' s.name first] at alone
    exact ⟨loc, alone⟩
  · intro c' buf' filename' ast' readable' simple' reads' s' mem'
    obtain ⟨first', -⟩ := qualified_symbol readable' simple' reads' s' mem'
    constructor
    · intro same
      have split := congrArg (qualify []) same
      rw [joined_parts [] s.name first, joined_parts [] s'.name first'] at split
      exact Prod.mk.inj split
    · rintro ⟨sameNS, sameName⟩
      rw [sameNS, sameName]

/-- `x/1` and `f`, read under `user`. -/
def readMixed : Ast :=
  [.symbol ⟨⟨{}, userCol 4⟩, text "1", text "x"⟩, .symbol ⟨⟨{}, userCol 6⟩, text "f", text "user"⟩]

theorem user_readable : SymbolAt (text "user") [] := by
  refine ⟨by decide, List.all_eq_true.mp (by decide), ?_, by simp⟩
  rintro (digit | ⟨dash, -⟩)
  · cases digit
  · cases dash

theorem mixed_names :
    (∀ c' filename', ∃ loc, ReadsAs (makeFQSymbolName (text "x") (text "1")) c' filename'
      [.symbol ⟨loc, text "1", text "x"⟩]) ∧
    makeFQSymbolName (text "x") (text "1") ≠ makeFQSymbolName (text "user") (text "f") := by
  have reads : ReadsAs (text "x/1 f") (text "user") none readMixed := rfl
  have names := qualified_names user_readable (by decide) reads
  obtain ⟨again, distinct⟩ := names ⟨⟨{}, userCol 4⟩, text "1", text "x"⟩ List.mem_cons_self
  refine ⟨again, ?_⟩
  have other : (⟨⟨{}, userCol 6⟩, text "f", text "user"⟩ : Symbol LocationRange) ∈
      Node.symbolsAll readMixed := List.mem_cons_of_mem _ List.mem_cons_self
  intro same
  have parts := (distinct _ _ none _ user_readable (by decide) reads _ other).mp same
  cases parts.1

end SymbolNames
