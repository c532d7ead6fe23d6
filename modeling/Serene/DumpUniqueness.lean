import Mathlib.Algebra.GroupWithZero.Nat
import Serene.DumpPieces
import Serene.SymbolNames

/-!
# When a dump determines its tree

The pieces of a tree determine it, since every node closes once: the numbers of
`>` signs say where each list ends. What a dump shows of a piece is the body and
the signs in one run. Names can end with `>` too, so two trees can have one
dump, unless one of them has no such name: then it has as many signs after each
body as there can be, and the other tree cannot have as many in all with fewer
somewhere.
-/

namespace DumpUniqueness

open ByteClasses AstNodes ReaderModel ReaderRefinement ReaderResults Grammar DumpPieces SymbolNames

variable {L M : Type} {ns : Bytes}

def closersOf (ps : List Piece) : Nat := (ps.map Piece.closers).sum

theorem closersOf_append (ps qs : List Piece) :
    closersOf (ps ++ qs) = closersOf ps + closersOf qs := by
  simp [closersOf]

theorem closersOf_cons (p : Piece) (ps : List Piece) :
    closersOf (p :: ps) = p.closers + closersOf ps := by
  simp [closersOf]

/-- Every node has one piece and one `>` sign. -/
theorem closersOf_pieces {node : Node L} (noNull : NoNull node) (k : Nat) :
    closersOf (pieces node k) = (pieces node k).length + k := by
  induction noNull generalizing k with
  | symbol s => simp [pieces, closersOf, Nat.add_comm]
  | number n => simp [pieces, closersOf, Nat.add_comm]
  | @list loc elements all ih =>
    have loop (k : Nat) (some : elements ≠ []) :
        closersOf (piecesAll elements k) = (piecesAll elements k).length + k := by
      clear all
      induction elements with
      | nil => exact absurd rfl some
      | cons e elements next =>
        have first := ih e List.mem_cons_self
        rw [piecesAll, closersOf_append, first, List.length_append]
        cases elements with
        | nil => simp [piecesAll, closersOf]
        | cons e' elements =>
          rw [next (fun e mem => ih e (List.mem_cons_of_mem _ mem)) (List.cons_ne_nil _ _)]
          simp only [List.isEmpty_cons, Bool.false_eq_true, if_false]
          omega
    cases elements with
    | nil => simp [closersOf, Nat.add_comm]
    | cons e elements =>
      rw [pieces_cons, closersOf_cons, loop (k + 1) (List.cons_ne_nil e elements), List.length_cons]
      simp only
      omega

/-- A number is printed with its sign once more, which does not confuse numbers. -/
theorem signed_unique {lexeme lexeme' : Bytes}
    (same : (if lexeme.head? == some minus then text "-" else []) ++ lexeme =
      (if lexeme'.head? == some minus then text "-" else []) ++ lexeme') : lexeme = lexeme' := by
  have dash : text "-" = [minus] := rfl
  rw [dash] at same
  by_cases signed : (lexeme.head? == some minus) = true <;>
    by_cases signed' : (lexeme'.head? == some minus) = true
  · rw [if_pos signed, if_pos signed'] at same
    exact (List.cons.inj same).2
  · rw [if_pos signed, if_neg signed', List.nil_append] at same
    exact absurd (same ▸ rfl) signed'
  · rw [if_neg signed, if_pos signed', List.nil_append] at same
    exact absurd (same ▸ rfl) signed
  · rwa [if_neg signed, if_neg signed', List.nil_append, List.nil_append] at same

/-- The pieces at the front of a row determine a node and where it ends. -/
def Determines (ns : Bytes) (a : Node L) : Prop :=
  ∀ (b : Node L) (k k' : Nat) (r r' : List Piece), Produced ns b →
    pieces a k ++ r = pieces b k' ++ r' → a.bare = b.bare ∧ k = k' ∧ r = r'

theorem piecesAll_determine {elements elements' : List (Node L)}
    (determine : ∀ e ∈ elements, Determines ns e) (produced : ∀ e ∈ elements', Produced ns e)
    (some : elements ≠ []) (some' : elements' ≠ []) {k k' : Nat} {r r' : List Piece}
    (same : piecesAll elements (k + 1) ++ r = piecesAll elements' (k' + 1) ++ r') :
    elements.map Node.bare = elements'.map Node.bare ∧ k = k' ∧ r = r' := by
  induction elements generalizing elements' with
  | nil => exact absurd rfl some
  | cons e elements ih =>
    obtain ⟨e', elements', rfl⟩ := List.exists_cons_of_ne_nil some'
    obtain ⟨first, rest⟩ := List.forall_mem_cons.mp determine
    obtain ⟨first', rest'⟩ := List.forall_mem_cons.mp produced
    rw [piecesAll, piecesAll, List.append_assoc, List.append_assoc] at same
    obtain ⟨bare, depths, same⟩ := first e' _ _ _ _ first' same
    -- an element that is not the last has no sign of its list after it
    cases elements with
    | nil =>
      cases elements' with
      | nil =>
        simp only [List.isEmpty_nil, if_true] at depths
        exact ⟨by simp [bare], by omega, same⟩
      | cons d' elements' => simp at depths
    | cons d elements =>
      cases elements' with
      | nil => simp at depths
      | cons d' elements' =>
        obtain ⟨bares, depth, tails⟩ := ih rest rest' (List.cons_ne_nil d elements)
          (List.cons_ne_nil d' elements') same
        exact ⟨congrArg₂ List.cons bare bares, depth, tails⟩

theorem pieces_determine {a : Node L} (produced : Produced ns a) : Determines ns a := by
  induction produced with
  | symbol nonempty ident =>
    intro b k k' r r' produced' same
    cases produced' with
    | symbol nonempty' ident' =>
      simp only [symbolNode, pieces, List.cons_append, List.nil_append, List.cons.injEq,
        Piece.mk.injEq, Label.symbol.injEq] at same
      obtain ⟨⟨nsName, name, depth⟩, tails⟩ := same
      refine ⟨?_, by omega, tails⟩
      simp only [symbolNode, Node.bare, Node.map, nsName, name]
    | number numeral' => simp [symbolNode, numberNode, pieces] at same
    | @list loc' elements' all' =>
      cases elements' <;> simp [symbolNode, pieces] at same
  | number numeral =>
    intro b k k' r r' produced' same
    cases produced' with
    | symbol nonempty' ident' => simp [symbolNode, numberNode, pieces] at same
    | number numeral' =>
      simp only [numberNode, pieces, List.cons_append, List.nil_append, List.cons.injEq,
        Piece.mk.injEq, true_and] at same
      obtain ⟨⟨body, depth⟩, tails⟩ := same
      obtain rfl := signed_unique body
      exact ⟨rfl, by omega, tails⟩
    | @list loc' elements' all' =>
      cases elements' <;> simp [numberNode, pieces] at same
  | @list loc elements all ih =>
    intro b k k' r r' produced' same
    cases produced' with
    | symbol nonempty' ident' => cases elements <;> simp [symbolNode, pieces] at same
    | number numeral' => cases elements <;> simp [numberNode, pieces] at same
    | @list loc' elements' all' =>
      cases elements with
      | nil =>
        cases elements' with
        | nil =>
          simp only [pieces_nil, List.cons_append, List.nil_append, List.cons.injEq,
            Piece.mk.injEq, true_and] at same
          exact ⟨rfl, by omega, same.2⟩
        | cons e' elements' => simp [text] at same
      | cons e elements =>
        cases elements' with
        | nil => simp [text] at same
        | cons e' elements' =>
          obtain ⟨bares, depth, tails⟩ := piecesAll_determine ih all' (List.cons_ne_nil e elements)
            (List.cons_ne_nil e' elements') (List.cons.inj same).2
          refine ⟨?_, depth, tails⟩
          rw [Node.bare, Node.map_list, Node.map_list]
          exact congrArg (Node.list ()) bares

theorem qualify_ident {lexeme : Bytes} (ns : Bytes)
    (ident : ∀ c ∈ lexeme, isValidForIdentifier c = true) :
    ∀ c ∈ (qualify ns lexeme).2, isValidForIdentifier c = true := by
  rcases slash_cases lexeme with simple | ⟨a, b, rfl, first⟩
  · rwa [qualify_simple ns simple]
  · rw [qualify_split ns b first]
    exact fun c mem => ident c (List.mem_append_right a (List.mem_cons_of_mem slash mem))

theorem qualify_noSlash {ns : Bytes} (simple : slash ∉ ns) (lexeme : Bytes) :
    slash ∉ (qualify ns lexeme).1 := by
  rcases slash_cases lexeme with whole | ⟨a, b, rfl, first⟩
  · rwa [qualify_simple ns whole]
  · rwa [qualify_split ns b first]

theorem pieces_symbol (ns : Bytes) (loc : L) (lexeme : Bytes) (k : Nat) :
    pieces (symbolNode ns loc lexeme) k =
      [⟨.symbol (qualify ns lexeme).1, (qualify ns lexeme).2, k + 1⟩] := by
  rw [symbolNode, make_eq, pieces]

theorem mem_piecesAll {elements : List (Node L)} {k : Nat} {p : Piece}
    (mem : p ∈ piecesAll elements k) : ∃ e ∈ elements, ∃ j, p ∈ pieces e j := by
  induction elements with
  | nil => cases mem
  | cons e elements ih =>
    rw [piecesAll] at mem
    rcases List.mem_append.mp mem with mem | mem
    · exact ⟨e, List.mem_cons_self, _, mem⟩
    · obtain ⟨d, inside, j, mem⟩ := ih mem
      exact ⟨d, List.mem_cons_of_mem e inside, j, mem⟩

/-- A number has no `>`. -/
theorem numeral_plain {lexeme : Bytes} (numeral : NumberAt lexeme []) :
    ∀ c ∈ (if lexeme.head? == some minus then text "-" else []) ++ lexeme, c ≠ closer := by
  have other : minus ≠ closer := by decide
  have signed : ∀ c ∈ text "-", c ≠ closer := List.forall_mem_singleton.mpr other
  obtain ⟨neg, digit, digits, rfl, isDigit, shape⟩ := numeral.shape
  have noCloser {c : UInt8} (digit : isdigit c = true) : c ≠ closer := by
    rintro rfl
    cases digit
  refine List.forall_mem_append.mpr ⟨?_, List.forall_mem_append.mpr ⟨?_, ?_⟩⟩
  · split
    · exact signed
    · simp
  · cases neg with
    | true => exact signed
    | false => simp [sign]
  · refine List.forall_mem_cons.mpr ⟨noCloser isDigit, fun c mem => ?_⟩
    rcases shape c mem with isDigit | rfl
    · exact noCloser isDigit
    · decide

/-- No name of the tree ends with `>`. -/
def PlainNames (node : Node L) : Prop := ∀ s ∈ node.symbols, s.name.getLast? ≠ some closer

theorem pieces_shown (simple : slash ∉ ns) {node : Node L} (produced : Produced ns node) :
    ∀ k, ∀ p ∈ pieces node k, Shown p := by
  induction produced with
  | @symbol loc lexeme nonempty ident =>
    intro k
    rw [pieces_symbol]
    refine List.forall_mem_singleton.mpr ⟨?_, qualify_ident ns ident⟩
    intro nsName same
    rw [← Label.symbol.inj same]
    exact qualify_noSlash simple lexeme
  | @number loc lexeme numeral =>
    intro k
    refine List.forall_mem_singleton.mpr ⟨?_, List.forall_mem_append.mpr ⟨?_, numeral.ident⟩⟩
    · intro nsName same
      cases same
    · split
      · exact List.forall_mem_singleton.mpr rfl
      · simp
  | @list loc elements all ih =>
    intro k p mem
    cases elements with
    | nil =>
      rw [List.mem_singleton.mp mem]
      exact ⟨by simp, List.forall_mem_singleton.mpr rfl⟩
    | cons e elements =>
      rcases List.mem_cons.mp mem with rfl | mem
      · exact ⟨by simp, by simp⟩
      · obtain ⟨d, inside, j, mem⟩ := mem_piecesAll mem
        exact ih d inside j p mem

theorem pieces_plain {node : Node L} (produced : Produced ns node) (plain : PlainNames node) :
    ∀ k, ∀ p ∈ pieces node k, p.body.getLast? ≠ some closer := by
  induction produced with
  | @symbol loc lexeme nonempty ident =>
    intro k
    exact List.forall_mem_singleton.mpr (plain _ (List.mem_singleton.mpr rfl))
  | @number loc lexeme numeral =>
    intro k
    refine List.forall_mem_singleton.mpr fun last => ?_
    exact numeral_plain numeral closer (List.mem_of_getLast? last) rfl
  | @list loc elements all ih =>
    intro k p mem
    cases elements with
    | nil =>
      rw [List.mem_singleton.mp mem]
      change (text "-").getLast? ≠ some closer
      decide
    | cons e elements =>
      rcases List.mem_cons.mp mem with rfl | mem
      · simp
      · obtain ⟨d, inside, j, mem⟩ := mem_piecesAll mem
        refine ih d inside (fun s named => plain s ?_) j p mem
        rw [Node.symbols, Node.symbolsAll_eq]
        exact List.mem_flatMap.mpr ⟨d, inside, named⟩

section Counting
variable {p q : Piece} {ps qs : List Piece}

/-- A body that does not end with `>` has all the signs of its run after it. -/
theorem closers_le (same : p.run = q.run) (plain : p.body.getLast? ≠ some closer) :
    q.closers ≤ p.closers := by
  by_contra fewer
  obtain ⟨more, sum⟩ : ∃ more, q.closers = more + 1 + p.closers :=
    ⟨q.closers - p.closers - 1, by omega⟩
  rw [Piece.run, Piece.run, sum, List.replicate_add, ← List.append_assoc] at same
  apply plain
  rw [List.append_cancel_right same, List.replicate_succ', ← List.append_assoc,
    List.getLast?_concat]

theorem body_eq (same : p.run = q.run) (closers : p.closers = q.closers) : p.body = q.body := by
  rw [Piece.run, Piece.run, closers] at same
  exact List.append_cancel_right same

theorem alike_closers (alike : Alike ps qs) (plain : ∀ p ∈ ps, p.body.getLast? ≠ some closer) :
    closersOf qs ≤ closersOf ps ∧ (closersOf ps = closersOf qs → ps = qs) := by
  induction alike with
  | nil => exact ⟨Nat.le_refl _, fun _ => rfl⟩
  | @cons p q ps qs shown alike ih =>
    obtain ⟨first, rest⟩ := List.forall_mem_cons.mp plain
    obtain ⟨fewer, same⟩ := ih rest
    have le := closers_le shown.2 first
    rw [closersOf_cons, closersOf_cons]
    refine ⟨by omega, fun sums => ?_⟩
    have closers : p.closers = q.closers := by omega
    rw [Piece.ext shown.1 (body_eq shown.2 closers) closers, same (by omega)]

theorem alike_single (alike : Alike [p] qs) (sums : closersOf [p] = closersOf qs) : [p] = qs := by
  cases alike with
  | @cons _ q _ _ shown rest =>
    cases rest
    have closers : p.closers = q.closers := by simpa [closersOf] using sums
    rw [Piece.ext shown.1 (body_eq shown.2 closers) closers]

end Counting

/-- The node is no list with a symbol inside whose name ends with `>`. -/
def Plain (node : Node L) : Prop :=
  ∀ loc elements, node = .list loc elements → PlainNames node

/-- Of two trees with one dump, one that is plain is like the other. -/
theorem plain_dump (simple : slash ∉ ns) {a b : Node L} (produced : Produced ns a)
    (produced' : Produced ns b) (same : a.toString = b.toString) (plain : Plain a) :
    a.bare = b.bare := by
  obtain ⟨dump, dumped⟩ := Option.isSome_iff_exists.mp ((toString_isSome a).mpr produced.noNull)
  have rows := (toString_joined a 0 dumped).symm.trans (toString_joined b 0 (same ▸ dumped))
  have alike := joined_alike (pieces_shown simple produced 0) (pieces_shown simple produced' 0) rows
  have sums : closersOf (pieces a 0) = closersOf (pieces b 0) := by
    rw [closersOf_pieces produced.noNull, closersOf_pieces produced'.noNull, alike.length_eq]
  have equal : pieces a 0 = pieces b 0 := by
    cases produced with
    | symbol nonempty ident => exact alike_single alike sums
    | number numeral => exact alike_single alike sums
    | list all =>
      have names := plain _ _ rfl
      exact (alike_closers alike (pieces_plain (.list all) names 0)).2 sums
  refine (pieces_determine produced b 0 0 [] [] produced' ?_).1
  rw [equal]

theorem outcome_ok {result : EStateM.Result Stop Reader Ast} {ast : Ast}
    (returned : outcome result = some (.ok ast)) : ∃ r, result = .ok ast r := by
  cases result with
  | ok ast' r =>
    obtain rfl : ast' = ast := by simpa [outcome] using returned
    exact ⟨r, rfl⟩
  | error stop r => cases stop <;> simp [outcome] at returned

theorem dumps_unique {as bs : List (Node L)} (simple : slash ∉ ns)
    (produced : ∀ a ∈ as, Produced ns a) (produced' : ∀ b ∈ bs, Produced ns b)
    (same : List.Forall₂ (fun a b => a.toString = b.toString ∧ (Plain a ∨ Plain b)) as bs) :
    bareAll as = bareAll bs := by
  induction same with
  | nil => rfl
  | @cons a b as bs dumps _ ih =>
    obtain ⟨first, rest⟩ := List.forall_mem_cons.mp produced
    obtain ⟨first', rest'⟩ := List.forall_mem_cons.mp produced'
    have bare : a.bare = b.bare := by
      rcases dumps.2 with plain | plain
      · exact plain_dump simple first first' dumps.1 plain
      · exact (plain_dump simple first' first dumps.1.symm plain).symm
    exact congrArg₂ List.cons bare (ih rest rest')

/-- Two trees read in the same namespace, pairwise with one dump, are the same up to their
locations, if in no pair both are lists with a symbol inside whose name ends with `>`. -/
theorem dump_unambiguous {buf buf' : StringRef} {filename filename' : Option Bytes} {ast ast' : Ast}
    {r r' : Reader} (simple : slash ∉ ns) (reads : read buf ns filename = .ok ast r)
    (reads' : read buf' ns filename' = .ok ast' r')
    (dumps : List.Forall₂ (fun a b => a.toString = b.toString ∧ (Plain a ∨ Plain b)) ast ast') :
    bareAll ast = bareAll ast' :=
  dumps_unique simple (read_produced reads) (read_produced reads') dumps

/-- What the reader returns of `((a) b)`. -/
def readClosed : Ast :=
  [.list ⟨userCol 1, userCol 8⟩
    [.list ⟨userCol 2, userCol 5⟩ [.symbol ⟨⟨{}, userCol 4⟩, text "a", text "user"⟩],
      .symbol ⟨⟨{}, userCol 7⟩, text "b", text "user"⟩]]

/-- What the reader returns of `( (a) user/b )`. -/
def readSpaced : Ast :=
  [.list ⟨userCol 1, userCol 15⟩
    [.list ⟨userCol 3, userCol 6⟩ [.symbol ⟨⟨{}, userCol 5⟩, text "a", text "user"⟩],
      .symbol ⟨⟨{}, userCol 13⟩, text "b", text "user"⟩]]

theorem closed_unambiguous :
    ReadsAs (text "((a) b)") (text "user") none readClosed ∧
    ReadsAs (text "( (a) user/b )") (text "user") none readSpaced ∧
    bareAll readClosed = bareAll readSpaced := by
  have reads : ReadsAs (text "((a) b)") (text "user") none readClosed :=
    (read_nulTerminated _ _ _).trans rfl
  have reads' : ReadsAs (text "( (a) user/b )") (text "user") none readSpaced :=
    (read_nulTerminated _ _ _).trans rfl
  obtain ⟨r, ran⟩ := outcome_ok reads
  obtain ⟨r', ran'⟩ := outcome_ok reads'
  refine ⟨reads, reads', dump_unambiguous (by decide) ran ran' (.cons ⟨rfl, Or.inl ?_⟩ .nil)⟩
  intro _ _ _
  exact List.forall_mem_cons.mpr ⟨by decide, List.forall_mem_singleton.mpr (by decide)⟩

/-- What the reader returns of `((a) b>)`. -/
def readOuter : Ast :=
  [.list ⟨userCol 1, userCol 9⟩
    [.list ⟨userCol 2, userCol 5⟩ [.symbol ⟨⟨{}, userCol 4⟩, text "a", text "user"⟩],
      .symbol ⟨⟨{}, userCol 8⟩, text "b>", text "user"⟩]]

/-- What the reader returns of `((a> b))`. -/
def readInner : Ast :=
  [.list ⟨userCol 1, userCol 9⟩
    [.list ⟨userCol 2, userCol 8⟩ [.symbol ⟨⟨{}, userCol 5⟩, text "a>", text "user"⟩,
      .symbol ⟨⟨{}, userCol 7⟩, text "b", text "user"⟩]]]

theorem dump_ambiguous : slash ∉ text "user" ∧
    ReadsAs (text "((a) b>)") (text "user") none readOuter ∧
    ReadsAs (text "((a> b))") (text "user") none readInner ∧
    List.Forall₂ (fun a b => a.toString = b.toString) readOuter readInner ∧
    bareAll readOuter ≠ bareAll readInner := by
  refine ⟨by decide, (read_nulTerminated _ _ _).trans rfl, (read_nulTerminated _ _ _).trans rfl,
    .cons rfl .nil, ?_⟩
  intro same
  simp [bareAll, Node.bare, readOuter, readInner] at same

end DumpUniqueness
