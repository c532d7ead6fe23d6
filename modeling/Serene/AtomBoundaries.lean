import Serene.ReaderGrammar
import Serene.Words

/-!
# Where atoms end

Numbers and symbols are meant to be words: nothing but a space or a parenthesis
separates two of them. A symbol takes all of its word, but a number ends at the
first byte that is neither a digit nor a point, and only a letter there is an
error. So a word that starts like a number may be cut into several atoms.
-/

namespace AtomBoundaries

open ByteClasses Locations AstNodes ReaderModel Scanner Grammar ScannerGrammar ReaderGrammar Words
  MaximalRuns

/-- An identifier byte stands at this index. -/
def Ident (text : Bytes) (p : Nat) : Prop := ∃ c, text[p]? = some c ∧ isValidForIdentifier c = true

/-- A space or a parenthesis stands at this index. -/
def Separates (text : Bytes) (p : Nat) : Prop :=
  ∃ c, text[p]? = some c ∧ (isspace c = true ∨ c = lparen ∨ c = rparen)

/-- A longest run of identifier bytes. -/
structure WordAt (text : Bytes) (span : Span) : Prop where
  nonempty : span.1 < span.2
  ident : ∀ p, span.1 ≤ p → p < span.2 → Ident text p
  left : ∀ p, p + 1 = span.1 → ¬ Ident text p
  right : ¬ Ident text span.2

/-- The atoms of a text, as its tree has them, are its words: any two have a separator between
them, and every word is one of them. -/
structure Apart (text : Bytes) (atoms : List Span) : Prop where
  separated : atoms.Pairwise fun a b => ∃ p, a.2 ≤ p ∧ p < b.1 ∧ Separates text p
  words : ∀ span, WordAt text span → span ∈ atoms

/-- An optional `-`, and then digits and points only. -/
def Numeral (w : Bytes) : Prop :=
  ∃ neg v, w = sign neg ++ v ∧ ∀ c ∈ v, isdigit c = true ∨ c = dot

section Indexes
variable {text : Bytes} {p : Nat}

theorem separates_not_ident (separates : Separates text p) : ¬ Ident text p := by
  rintro ⟨c, here, ident⟩
  obtain ⟨d, there, separator⟩ := separates
  obtain rfl := Option.some.inj (here.symm.trans there)
  obtain ⟨noSpace, -, noOpen, noClose⟩ := ident_facts ident
  rcases separator with space | rfl | rfl
  · rw [noSpace] at space
    cases space
  · exact noOpen rfl
  · exact noClose rfl

theorem ident_inside {lexeme rest : Bytes} {i : Nat} (here : text.drop i = lexeme ++ rest)
    (ident : ∀ c ∈ lexeme, isValidForIdentifier c = true) (low : i ≤ p)
    (high : p < i + lexeme.length) : Ident text p := by
  have byte : text[p]? = lexeme[p - i]? := by
    have shift : text[p]? = (text.drop i)[p - i]? := by
      rw [List.getElem?_drop, Nat.add_sub_cancel' low]
    rw [shift, here, List.getElem?_append_left (by omega)]
  refine ⟨lexeme[p - i], ?_, ident _ (List.getElem_mem _)⟩
  rw [byte, List.getElem?_eq_getElem (by omega)]

theorem wordAt_unique {a b : Span} (wordA : WordAt text a) (wordB : WordAt text b)
    (insideA : a.1 ≤ p ∧ p < a.2) (insideB : b.1 ≤ p ∧ p < b.2) : a = b := by
  have starts {a b : Span} (wordA : WordAt text a) (wordB : WordAt text b)
      (insideA : a.1 ≤ p ∧ p < a.2) (insideB : b.1 ≤ p ∧ p < b.2) : a.1 ≤ b.1 := by
    by_contra before
    exact wordA.left (a.1 - 1) (by omega) (wordB.ident _ (by omega) (by omega))
  have stops {a b : Span} (wordA : WordAt text a) (wordB : WordAt text b)
      (insideA : a.1 ≤ p ∧ p < a.2) (insideB : b.1 ≤ p ∧ p < b.2) : a.2 ≤ b.2 := by
    by_contra after
    exact wordB.right (wordA.ident _ (by omega) (by omega))
  apply Prod.ext
  · exact Nat.le_antisymm (starts wordA wordB insideA insideB) (starts wordB wordA insideB insideA)
  · exact Nat.le_antisymm (stops wordA wordB insideA insideB) (stops wordB wordA insideB insideA)

/-- A longest run, by its place. -/
theorem wordAt_of_longest {v w u : Bytes} (longest : Longest v w u) :
    WordAt (v ++ (w ++ u)) (v.length, v.length + w.length) := by
  have here : (v ++ (w ++ u)).drop v.length = w ++ u := List.drop_left
  have length := List.length_pos_of_ne_nil longest.nonempty
  constructor
  · exact Nat.lt_add_of_pos_right length
  · intro p low high
    exact ident_inside here longest.ident low high
  · rintro p before ⟨c, byte, ident⟩
    change p + 1 = v.length at before
    have last : c ∈ v.getLast? := by
      rw [List.getLast?_eq_getElem?, ← before, Nat.add_sub_cancel, Option.mem_def, ← byte,
        List.getElem?_append_left (by omega)]
    rw [longest.left c last] at ident
    cases ident
  · rintro ⟨c, byte, ident⟩
    rw [← List.head?_drop, ← List.drop_drop, here, List.drop_left] at byte
    rw [longest.right c byte] at ident
    cases ident

end Indexes

/-- The lexeme of an atom, where its span says. -/
def TokenAt (text : Bytes) (span : Span) : Prop :=
  ∃ lexeme rest, text.drop span.1 = lexeme ++ rest ∧ span.2 = span.1 + lexeme.length ∧
    (NumberAt lexeme rest ∨ SymbolAt lexeme rest)

/-- From byte `k` to byte `m` there are these atoms, one after the other, and separators. -/
structure Covers (text : Bytes) (k m : Nat) (atoms : List Span) : Prop where
  order : k ≤ m
  tokens : ∀ s ∈ atoms, k ≤ s.1 ∧ s.2 ≤ m ∧ TokenAt text s
  sorted : atoms.Pairwise fun a b => a.2 ≤ b.1
  rest : ∀ p, k ≤ p → p < m → (∃ s ∈ atoms, s.1 ≤ p ∧ p < s.2) ∨ Separates text p

section Covering
variable {text : Bytes} {k j m : Nat} {atoms more : List Span}

theorem covers_nil (text : Bytes) (k : Nat) : Covers text k k [] := by
  refine ⟨Nat.le_refl k, by simp, List.Pairwise.nil, ?_⟩
  intro p low high
  omega

theorem covers_separator (separates : Separates text k) : Covers text k (k + 1) [] := by
  refine ⟨Nat.le_succ k, by simp, List.Pairwise.nil, ?_⟩
  intro p low high
  obtain rfl : p = k := by omega
  exact Or.inr separates

theorem covers_token (order : k ≤ j) (token : TokenAt text (k, j)) :
    Covers text k j [(k, j)] := by
  refine ⟨order, ?_, List.pairwise_singleton _ _, ?_⟩
  · intro s mem
    obtain rfl := List.mem_singleton.mp mem
    exact ⟨Nat.le_refl k, Nat.le_refl j, token⟩
  · intro p low high
    exact Or.inl ⟨(k, j), List.mem_singleton.mpr rfl, low, high⟩

theorem Covers.append (first : Covers text k j atoms) (second : Covers text j m more) :
    Covers text k m (atoms ++ more) := by
  have order := first.order
  have order' := second.order
  refine ⟨by omega, ?_, ?_, ?_⟩
  · intro s mem
    rcases List.mem_append.mp mem with mem | mem
    · obtain ⟨low, high, token⟩ := first.tokens s mem
      exact ⟨low, by omega, token⟩
    · obtain ⟨low, high, token⟩ := second.tokens s mem
      exact ⟨by omega, high, token⟩
  · refine List.pairwise_append.mpr ⟨first.sorted, second.sorted, ?_⟩
    intro a memA b memB
    exact (first.tokens a memA).2.1.trans (second.tokens b memB).1
  · intro p low high
    by_cases early : p < j
    · rcases first.rest p low early with ⟨s, mem, inside⟩ | separates
      · exact Or.inl ⟨s, List.mem_append_left _ mem, inside⟩
      · exact Or.inr separates
    · rcases second.rest p (by omega) high with ⟨s, mem, inside⟩ | separates
      · exact Or.inl ⟨s, List.mem_append_right _ mem, inside⟩
      · exact Or.inr separates

theorem separates_head {c : UInt8} {u : Bytes} (here : text.drop k = c :: u)
    (separator : isspace c = true ∨ c = lparen ∨ c = rparen) : Separates text k := by
  refine ⟨c, ?_, separator⟩
  rw [← List.head?_drop, here]
  rfl

theorem exprs_covers {ns u w : Bytes} {tree : List (Node Span)} (parsed : Exprs ns k u tree m w)
    (here : text.drop k = u) : Covers text k m (Node.atomsAll tree) ∧ text.drop m = w := by
  induction parsed with
  | nil => exact ⟨covers_nil text _, here⟩
  | space space _ ih =>
    obtain ⟨covers, there⟩ := ih (drop_succ here)
    exact ⟨(covers_separator (separates_head here (Or.inl space))).append covers, there⟩
  | number token _ ih =>
    obtain ⟨covers, there⟩ := ih (drop_append here)
    have own := covers_token (Nat.le_add_right _ _) ⟨_, _, here, rfl, Or.inl token⟩
    exact ⟨own.append covers, there⟩
  | symbol token _ ih =>
    obtain ⟨covers, there⟩ := ih (drop_append here)
    have own := covers_token (Nat.le_add_right _ _) ⟨_, _, here, rfl, Or.inr token⟩
    rw [symbolNode, Node.atomsAll, Node.atoms, Symbol.make_location]
    exact ⟨own.append covers, there⟩
  | list _ _ ihInside ih =>
    obtain ⟨inside, there⟩ := ihInside (drop_succ here)
    obtain ⟨covers, there'⟩ := ih (drop_succ there)
    have opened := covers_separator (separates_head here (Or.inr (Or.inl rfl)))
    have closed := covers_separator (separates_head there (Or.inr (Or.inr rfl)))
    have whole := (opened.append (inside.append closed)).append covers
    rw [List.append_nil] at whole
    exact ⟨whole, there'⟩

end Covering

/-- Not inside a word: no identifier byte comes before, or none comes next. -/
def Edge (text : Bytes) (k : Nat) : Prop :=
  (∀ c ∈ (text.take k).getLast?, isValidForIdentifier c = false) ∨
    ∀ c ∈ (text.drop k).head?, isValidForIdentifier c = false

/-- The words that start like numbers have only the bytes of a number. -/
def NumbersWhole (text : Bytes) : Prop := ∀ w ∈ words text, StartsNumber w → Numeral w

section Wholes
variable {text : Bytes} {k : Nat} {lexeme u : Bytes}

theorem edge_succ {c : UInt8} (here : text.drop k = c :: u)
    (other : isValidForIdentifier c = false) : Edge text (k + 1) := by
  left
  intro d last
  rw [List.take_add, here, List.take_succ_cons, List.take_zero, List.getLast?_concat] at last
  rwa [← Option.some.inj last]

theorem longest_token (here : text.drop k = lexeme ++ u) (nonempty : lexeme ≠ [])
    (ident : ∀ c ∈ lexeme, isValidForIdentifier c = true)
    (right : ∀ c ∈ u.head?, isValidForIdentifier c = false) (edge : Edge text k) :
    Longest (text.take k) lexeme u := by
  refine ⟨nonempty, ident, ?_, right⟩
  rcases edge with left | next
  · exact left
  · obtain ⟨c, cs, rfl⟩ := List.exists_cons_of_ne_nil nonempty
    have first := next c (by rw [here]; rfl)
    rw [ident c List.mem_cons_self] at first
    cases first

theorem wordAt_token (here : text.drop k = lexeme ++ u)
    (longest : Longest (text.take k) lexeme u) : WordAt text (k, k + lexeme.length) := by
  have word := wordAt_of_longest longest
  have inside : k ≤ text.length := by
    have length := congrArg List.length here
    have positive := List.length_pos_of_ne_nil longest.nonempty
    rw [List.length_drop, List.length_append] at length
    omega
  rwa [← here, List.take_append_drop, List.length_take_of_le inside] at word

theorem startsNumber_number {rest : Bytes} (token : NumberAt lexeme rest) (t : Bytes) :
    StartsNumber (lexeme ++ t) := by
  obtain ⟨neg, digit, digits, rfl, isDigit, -⟩ := token.shape
  cases neg with
  | false => exact Or.inl isDigit
  | true => exact Or.inr ⟨rfl, digit, rfl, isDigit⟩

/-- After a number, what a numeral goes on with is a digit or a point. -/
theorem numeral_after {rest t : Bytes} {c : UInt8} (token : NumberAt lexeme rest)
    (numeral : Numeral (lexeme ++ c :: t)) : isdigit c = true ∨ c = dot := by
  obtain ⟨neg, v, same, shape⟩ := numeral
  obtain ⟨neg', digit, digits, rfl, isDigit, -⟩ := token.shape
  have signed : ∃ w, v = w ++ digit :: (digits ++ c :: t) := by
    cases neg with
    | false =>
      refine ⟨sign neg', ?_⟩
      rw [← List.cons_append, ← List.append_assoc, same]
      rfl
    | true =>
      cases neg' with
      | false =>
        have first := (List.cons.inj same).1
        rw [first] at isDigit
        cases isDigit
      | true => exact ⟨[], (List.cons.inj same).2.symm⟩
  obtain ⟨w, rfl⟩ := signed
  apply shape c
  simp

/-- A number whose word is a numeral ends with the word. -/
theorem number_ends (whole : NumbersWhole text) (here : text.drop k = lexeme ++ u)
    (token : NumberAt lexeme u) (edge : Edge text k) :
    ∀ c ∈ u.head?, isValidForIdentifier c = false := by
  obtain ⟨t, u, rfl, ident, right⟩ := exists_run isValidForIdentifier u
  rw [← List.append_assoc] at here
  have longest : Longest (text.take k) (lexeme ++ t) u :=
    longest_token here (by simp [token.nonempty])
      (List.forall_mem_append.mpr ⟨token.ident, ident⟩) right edge
  have mem := longest_mem longest
  rw [← here, List.take_append_drop] at mem
  cases t with
  | nil => exact right
  | cons c t =>
    have numeral := whole _ mem (startsNumber_number token (c :: t))
    obtain ⟨noDigit, noPoint⟩ := token.maximal c rfl
    rcases numeral_after token numeral with isDigit | point
    · rw [noDigit] at isDigit
      cases isDigit
    · exact absurd point noPoint

theorem exprs_words (whole : NumbersWhole text) {ns w : Bytes} {m : Nat}
    {tree : List (Node Span)} (parsed : Exprs ns k u tree m w) (here : text.drop k = u)
    (edge : Edge text k) : (∀ s ∈ Node.atomsAll tree, WordAt text s) ∧ Edge text m := by
  induction parsed with
  | nil => exact ⟨by simp [Node.atomsAll], edge⟩
  | space space _ ih => exact ih (drop_succ here) (edge_succ here (space_facts space).1)
  | number token _ ih =>
    have ends := number_ends whole here token edge
    have longest := longest_token here token.nonempty token.ident ends edge
    have there := drop_append here
    obtain ⟨later, edge'⟩ := ih there (Or.inr (by rwa [there]))
    exact ⟨List.forall_mem_cons.mpr ⟨wordAt_token here longest, later⟩, edge'⟩
  | symbol token _ ih =>
    have longest := longest_token here token.nonempty token.ident token.maximal edge
    have there := drop_append here
    obtain ⟨later, edge'⟩ := ih there (Or.inr (by rw [there]; exact token.maximal))
    rw [symbolNode, Node.atomsAll, Node.atoms, Symbol.make_location]
    exact ⟨List.forall_mem_cons.mpr ⟨wordAt_token here longest, later⟩, edge'⟩
  | list inside _ ihInside ih =>
    obtain ⟨inner, edge'⟩ := ihInside (drop_succ here) (edge_succ here rfl)
    have there := (exprs_covers inside (drop_succ here)).2
    obtain ⟨later, edge''⟩ := ih (drop_succ there) (edge_succ there rfl)
    rw [Node.atomsAll, Node.atoms]
    exact ⟨List.forall_mem_append.mpr ⟨inner, later⟩, edge''⟩

theorem numberAt_numeral {rest : Bytes} (token : NumberAt lexeme rest) : Numeral lexeme := by
  obtain ⟨neg, digit, digits, rfl, isDigit, shape⟩ := token.shape
  exact ⟨neg, digit :: digits, rfl, List.forall_mem_cons.mpr ⟨Or.inl isDigit, shape⟩⟩

end Wholes

section Reading
variable {text : Bytes} {m : Nat} {atoms : List Span}

/-- Atoms that are words are all the words, and apart. -/
theorem apart_of_words (covers : Covers text 0 text.length atoms)
    (areWords : ∀ s ∈ atoms, WordAt text s) : Apart text atoms := by
  have covered (p : Nat) (inside : p < text.length) (none : ¬ ∃ s ∈ atoms, s.1 ≤ p ∧ p < s.2) :
      Separates text p := (covers.rest p (Nat.zero_le p) inside).resolve_left none
  constructor
  · refine covers.sorted.imp_of_mem ?_
    intro a b memA memB order
    have wordB := areWords b memB
    have stop := (areWords a memA).right
    have later : a.2 < b.1 := by
      apply Nat.lt_of_le_of_ne order
      intro same
      rw [same] at stop
      exact stop (wordB.ident b.1 (Nat.le_refl _) wordB.nonempty)
    refine ⟨a.2, Nat.le_refl _, later, covered a.2 ?_ ?_⟩
    · exact later.trans (wordB.nonempty.trans_le (covers.tokens b memB).2.1)
    · rintro ⟨s, mem, low, high⟩
      exact stop ((areWords s mem).ident a.2 low high)
  · intro span word
    have ident := word.ident span.1 (Nat.le_refl _) word.nonempty
    obtain ⟨inside, -⟩ := List.getElem?_eq_some_iff.mp ident.choose_spec.1
    by_contra missing
    refine separates_not_ident (covered span.1 inside ?_) ident
    rintro ⟨s, mem, within⟩
    rw [wordAt_unique (areWords s mem) word within ⟨Nat.le_refl _, word.nonempty⟩] at mem
    exact missing mem

theorem whole_of_apart (covers : Covers text 0 m atoms) (apart : Apart text atoms) :
    NumbersWhole text := by
  intro w mem starts
  obtain ⟨v, u, rfl, longest⟩ := mem_words mem
  obtain ⟨-, -, lexeme, rest, here, stop, token⟩ :=
    covers.tokens _ (apart.words _ (wordAt_of_longest longest))
  rw [List.drop_left] at here
  obtain ⟨rfl, rfl⟩ := List.append_inj here (Nat.add_left_cancel stop)
  rcases token with number | symbol
  · exact numberAt_numeral number
  · exact absurd (startsNumber_append starts u) symbol.noNumber

end Reading

/-- The atoms of a buffer that reads are apart just when its words that start like numbers have
only a sign, digits and points. -/
theorem atoms_apart_iff {buf ns : Bytes} {filename : Option Bytes} {ast : Ast}
    (reads : ReadsAs buf ns filename ast) :
    (∃ tree, Parses ns (body buf) tree ∧
      ast = tree.map (asRead (origin ns filename) (body buf))) ∧
    ∀ tree, Parses ns (body buf) tree →
      (Apart (body buf) (Node.atomsAll tree) ↔ NumbersWhole (body buf)) := by
  refine ⟨(readsAs_iff buf ns filename ast).mp reads, ?_⟩
  intro tree parsed
  have covers := (exprs_covers parsed List.drop_zero).1
  constructor
  · exact whole_of_apart covers
  · intro whole
    have start : Edge (body buf) 0 := Or.inl (by simp)
    exact apart_of_words covers (exprs_words whole parsed List.drop_zero start).1

theorem application_apart :
    ∃ tree, Parses [] (body (text "(f -1)")) tree ∧
      Apart (body (text "(f -1)")) (Node.atomsAll tree) := by
  have reads : ReadsAs (text "(f -1)") [] none readApplication := rfl
  obtain ⟨⟨tree, parsed, -⟩, apart⟩ := atoms_apart_iff reads
  refine ⟨tree, parsed, (apart tree parsed).mpr ?_⟩
  have both : words (body (text "(f -1)")) = [text "f", text "-1"] := by decide
  intro w mem starts
  rw [both] at mem
  rcases List.mem_pair.mp mem with rfl | rfl
  · rcases starts with digit | ⟨dash, -⟩
    · cases digit
    · cases dash
  · exact ⟨true, text "1", rfl, List.forall_mem_singleton.mpr (Or.inl rfl)⟩

/-- `1-2` as the reader returns it. -/
def readDifference : Ast :=
  [.number ⟨⟨lineCol 1 2, lineCol 1 2⟩, text "1", false, false⟩,
    .number ⟨⟨lineCol 1 4, lineCol 1 4⟩, text "-2", true, false⟩]

/-- Two numbers with nothing between them. -/
theorem difference_joined :
    ∃ tree, ReadsAs (text "1-2") [] none readDifference ∧ Parses [] (body (text "1-2")) tree ∧
      readDifference = tree.map (asRead (origin [] none) (body (text "1-2"))) ∧
      ¬ Apart (body (text "1-2")) (Node.atomsAll tree) := by
  refine ⟨[numberNode (0, 1) (text "1"), numberNode (1, 3) (text "-2")], rfl, ?_, rfl, ?_⟩
  · have second : NumberAt (text "-2") [] :=
      ⟨⟨true, 50, [], rfl, rfl, by simp⟩, by decide, by simp, by simp⟩
    have first : NumberAt (text "1") (text "-2") := by
      refine ⟨⟨false, 49, [], rfl, rfl, by simp⟩, by decide, ?_, ?_⟩
      · rintro c ⟨rfl⟩
        decide
      · rintro c ⟨rfl⟩
        rfl
    exact .number first (.number second .nil)
  · intro apart
    obtain ⟨p, low, high, -⟩ := List.rel_of_pairwise_cons apart.separated List.mem_cons_self
    change 1 ≤ p at low
    change p < 1 at high
    omega

end AtomBoundaries
