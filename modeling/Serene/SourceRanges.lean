import Serene.ReaderGrammar
import Serene.ReaderPlaces

/-!
# Source ranges of nodes

A node's range should go from the location of the cursor on its first byte to
the one on its last. Ranges with this property are nested and ordered as the
nodes are. What the code records has it for non-negative numbers only.
-/

namespace SourceRanges

open ByteClasses Locations AstNodes ReaderModel Scanner Grammar ScannerGrammar ReaderGrammar
  ReaderPlaces

universe u

/-- No range of the sequence ends before it starts, ranges of siblings are disjoint and in
order, and the ranges of elements lie in the range of their list; at every depth. -/
inductive Placed {L : Type} {α : Type u} [Preorder α] (start stop : L → α) :
    List (Node L) → Prop where
  | intro {nodes : List (Node L)}
      (ranged : ∀ node ∈ nodes, ∀ l ∈ node.location?, start l ≤ stop l)
      (siblings : nodes.Pairwise fun a b =>
        ∀ l ∈ a.location?, ∀ k ∈ b.location?, stop l < start k)
      (inside : ∀ l elements, Node.list l elements ∈ nodes →
        ∀ e ∈ elements, ∀ k ∈ e.location?, start l ≤ start k ∧ stop k ≤ stop l)
      (deeper : ∀ l elements, Node.list l elements ∈ nodes → Placed start stop elements) :
      Placed start stop nodes

/-- The first byte of a node and its last, counted from 1. -/
def firstByte (s : Span) : Nat := s.1 + 1

def lastByte (s : Span) : Nat := s.2

/-- The nodes lie between byte `k` and byte `m`. -/
def Between (k m : Nat) (nodes : List (Node Span)) : Prop :=
  ∀ node ∈ nodes, ∀ s ∈ node.location?, k ≤ s.1 ∧ s.2 ≤ m

theorem placed_nil : Placed firstByte lastByte [] := by
  constructor
  · intro node mem
    cases mem
  · exact List.Pairwise.nil
  · intro l elements mem
    cases mem
  · intro l elements mem
    cases mem

theorem between_nil (k m : Nat) : Between k m [] := by
  intro node mem
  cases mem

/-- A node in front of a sequence. -/
theorem placed_cons {k j m : Nat} {node : Node Span} {nodes : List (Node Span)}
    (own : node.location? = some (k, j)) (range : k < j)
    (inner : ∀ l elements, node = .list l elements →
      Between k j elements ∧ Placed firstByte lastByte elements)
    (between : Between j m nodes) (placed : Placed firstByte lastByte nodes) :
    Placed firstByte lastByte (node :: nodes) := by
  obtain ⟨ranged, siblings, inside, deeper⟩ := placed
  constructor
  · intro a ha l hl
    rcases List.mem_cons.mp ha with rfl | ha
    · obtain rfl := Option.some.inj (own.symm.trans hl)
      exact range
    · exact ranged a ha l hl
  · refine List.Pairwise.cons (fun b hb l hl s hs => ?_) siblings
    obtain rfl := Option.some.inj (own.symm.trans hl)
    exact Nat.lt_succ_of_le (between b hb s hs).1
  · intro l elements mem e he s hs
    rcases List.mem_cons.mp mem with same | mem
    · obtain ⟨bounds, -⟩ := inner l elements same.symm
      rw [← same] at own
      obtain rfl := Option.some.inj own
      exact ⟨Nat.succ_le_succ (bounds e he s hs).1, (bounds e he s hs).2⟩
    · exact inside l elements mem e he s hs
  · intro l elements mem
    rcases List.mem_cons.mp mem with same | mem
    · exact (inner l elements same.symm).2
    · exact deeper l elements mem

theorem between_cons {k k' j m : Nat} {node : Node Span} {nodes : List (Node Span)}
    (own : node.location? = some (k, j)) (early : k' ≤ k) (order : k ≤ j) (late : j ≤ m)
    (between : Between j m nodes) : Between k' m (node :: nodes) := by
  intro a ha s hs
  rcases List.mem_cons.mp ha with rfl | ha
  · obtain rfl := Option.some.inj (own.symm.trans hs)
    exact ⟨early, late⟩
  · obtain ⟨low, high⟩ := between a ha s hs
    exact ⟨by omega, high⟩

/-- A derivation has its nodes where they are read. -/
theorem exprs_placed {ns : Bytes} {k m : Nat} {u w : Bytes} {tree : List (Node Span)}
    (parsed : Exprs ns k u tree m w) :
    k ≤ m ∧ Between k m tree ∧ Placed firstByte lastByte tree := by
  induction parsed with
  | nil => exact ⟨Nat.le_refl _, between_nil _ _, placed_nil⟩
  | space _ _ ih =>
    obtain ⟨order, between, placed⟩ := ih
    refine ⟨by omega, fun node mem s hs => ?_, placed⟩
    obtain ⟨low, high⟩ := between node mem s hs
    exact ⟨by omega, high⟩
  | @number k m lexeme u w tree token _ ih =>
    obtain ⟨order, between, placed⟩ := ih
    have length := List.length_pos_of_ne_nil token.nonempty
    refine ⟨by omega, between_cons rfl (Nat.le_refl k) (by omega) order between,
      placed_cons rfl (by omega) ?_ between placed⟩
    intro l inner same
    cases same
  | @symbol k m lexeme u w tree token _ ih =>
    obtain ⟨order, between, placed⟩ := ih
    have length := List.length_pos_of_ne_nil token.nonempty
    have own : (symbolNode ns (k, k + lexeme.length) lexeme).location? =
        some (k, k + lexeme.length) := by
      simp only [symbolNode, Node.location?, Symbol.make_location]
    refine ⟨by omega, between_cons own (Nat.le_refl k) (by omega) order between,
      placed_cons own (by omega) ?_ between placed⟩
    intro l inner same
    cases same
  | @list k j m u v w elements tree _ _ ihInside ih =>
    obtain ⟨orderInside, betweenInside, placedInside⟩ := ihInside
    obtain ⟨order, between, placed⟩ := ih
    refine ⟨by omega, between_cons rfl (Nat.le_refl k) (by omega) order between,
      placed_cons rfl (by omega) ?_ between placed⟩
    intro l inner same
    cases same
    refine ⟨fun e he s hs => ?_, placedInside⟩
    obtain ⟨low, high⟩ := betweenInside e he s hs
    exact ⟨by omega, by omega⟩

/-- A negative number takes two bytes at least. -/
theorem negative_span {ns : Bytes} {k m : Nat} {u w : Bytes} {tree : List (Node Span)}
    (parsed : Exprs ns k u tree m w) : ∀ n, Node.number n ∈ tree → n.isNeg = true →
      n.location.1 + 2 ≤ n.location.2 := by
  induction parsed with
  | nil =>
    intro n mem
    cases mem
  | space _ _ ih => exact ih
  | @number k m lexeme u w tree token _ ih =>
    intro n mem isNeg
    rcases List.mem_cons.mp mem with same | mem
    · cases same
      obtain ⟨neg, digit, digits, rfl, isDigit, -⟩ := token.shape
      cases neg with
      | false =>
        have dash : digit = minus := by simpa [sign] using isNeg
        exact absurd dash (digit_facts isDigit).2.2.1
      | true =>
        simp only [sign, if_true, List.length_append, List.length_cons]
        omega
    · exact ih n mem isNeg
  | symbol _ _ ih =>
    intro n mem isNeg
    rcases List.mem_cons.mp mem with same | mem
    · cases same
    · exact ih n mem isNeg
  | list _ _ _ ih =>
    intro n mem isNeg
    rcases List.mem_cons.mp mem with same | mem
    · cases same
    · exact ih n mem isNeg

/-- Ranges read off at the bytes of the nodes are placed as the nodes are. -/
theorem placed_map {α : Type u} [Preorder α] {M : Type} {n : Nat} {f : Nat → α}
    (mono : ∀ i j, 0 < i → i < j → j ≤ n → f i < f j) {start stop : M → α} {g : Kind → Span → M}
    (starts : ∀ kind s, start (g kind s) = f (firstByte s))
    (stops : ∀ kind s, stop (g kind s) = f (lastByte s)) {nodes : List (Node Span)}
    (between : Between 0 n nodes) (placed : Placed firstByte lastByte nodes) :
    Placed start stop (nodes.map (Node.map g)) := by
  have le : ∀ i j, 0 < i → i ≤ j → j ≤ n → f i ≤ f j := by
    intro i j positive order bound
    rcases Nat.lt_or_eq_of_le order with lt | rfl
    · exact (mono i j positive lt bound).le
    · exact le_refl _
  induction placed with
  | @intro nodes ranged siblings inside deeper ih =>
    constructor
    · intro a ha l hl
      obtain ⟨node, mem, rfl⟩ := List.mem_map.mp ha
      obtain ⟨kind, s, hs, rfl⟩ := Node.mem_location?_map hl
      rw [starts, stops]
      exact le _ _ (Nat.succ_pos _) (ranged node mem s hs) (between node mem s hs).2
    · rw [List.pairwise_map]
      apply siblings.imp_of_mem
      intro a b ha hb apart l hl l' hl'
      obtain ⟨kind, s, hs, rfl⟩ := Node.mem_location?_map hl
      obtain ⟨kind', s', hs', rfl⟩ := Node.mem_location?_map hl'
      have own := ranged a ha s hs
      have other := ranged b hb s' hs'
      have bound := (between b hb s' hs').2
      rw [starts, stops]
      refine mono _ _ ?_ (apart s hs s' hs') ?_
      · exact (Nat.succ_pos _).trans_le own
      · exact other.trans bound
    · intro l elements mem e he k hk
      obtain ⟨node, hnode, same⟩ := List.mem_map.mp mem
      obtain ⟨s, inner, rfl, rfl, rfl⟩ := Node.list_of_map same
      obtain ⟨e', he', rfl⟩ := List.mem_map.mp he
      obtain ⟨kind, s', hs', rfl⟩ := Node.mem_location?_map hk
      obtain ⟨low, high⟩ := inside s inner hnode e' he' s' hs'
      have bound : lastByte s ≤ n := (between _ hnode s rfl).2
      have own : firstByte s' ≤ lastByte s' := by
        cases deeper s inner hnode with
        | intro ranged' => exact ranged' e' he' s' hs'
      rw [starts, stops, starts, stops]
      constructor
      · exact le _ _ (Nat.succ_pos _) low (by omega)
      · exact le _ _ ((Nat.succ_pos _).trans_le own) high bound
    · intro l elements mem
      obtain ⟨node, hnode, same⟩ := List.mem_map.mp mem
      obtain ⟨s, inner, rfl, rfl, rfl⟩ := Node.list_of_map same
      apply ih s inner hnode
      intro e he s' hs'
      exact ⟨Nat.zero_le _, ((inside s inner hnode e he s' hs').2).trans (between _ hnode s rfl).2⟩

section Recorded
variable (buf ns : Bytes) (filename : Option Bytes)

/-- The location of the cursor on byte `k` of the body, counted from 1. -/
def cursorAt (k : Nat) : Location := (trackerAt (origin ns filename) (body buf) k).location

/-- The range that goes from the first byte to the last. -/
def exactRange : Kind → Span → LocationRange :=
  fun _ s => ⟨cursorAt buf ns filename (firstByte s), cursorAt buf ns filename (lastByte s)⟩

/-- Every node that is read from the buffer has its range, and so, where lines and columns
fit, the ranges are nested and ordered. -/
def RangesKnown : Prop :=
  ∀ ast tree, ReadsAs buf ns filename ast → Parses ns (body buf) tree →
    ast = tree.map (Node.map (exactRange buf ns filename)) ∧
      (Fits (body buf) → Placed (fun r : LocationRange => key r.start) (fun r => key r.stop) ast)

/-- A number without a sign; a symbol whose first byte has the default location. -/
def Unaffected : Node Span → Prop
  | .null => True
  | .symbol s => cursorAt buf ns filename (firstByte s.location) = {}
  | .number n => n.isNeg = false
  | .list .. => False

variable {buf ns filename}

theorem cursorAt_key {k : Nat} (fits : Fits (body buf)) (inside : k < (body buf).length) :
    key (cursorAt buf ns filename (k + 1)) = readerPlace ((body buf).take k) := by
  have split : (body buf).take (k + 1) = (body buf).take k ++ [(body buf)[k]] :=
    List.take_succ_eq_append_getElem inside
  rw [cursorAt, trackerAt, split]
  exact key_origin_steps (v := (body buf).drop k) (by rwa [List.take_append_drop])

theorem cursorAt_mono (fits : Fits (body buf)) {i j : Nat} (positive : 0 < i) (order : i < j)
    (bound : j ≤ (body buf).length) :
    key (cursorAt buf ns filename i) < key (cursorAt buf ns filename j) := by
  obtain ⟨i, rfl⟩ : ∃ k, i = k + 1 := ⟨i - 1, by omega⟩
  obtain ⟨j, rfl⟩ : ∃ k, j = k + 1 := ⟨j - 1, by omega⟩
  rw [cursorAt_key fits (by omega), cursorAt_key fits (by omega)]
  have split := List.take_append_drop i ((body buf).take j)
  rw [List.take_take, Nat.min_eq_left (by omega)] at split
  rw [← split]
  apply readerPlace_lt
  intro none
  have length := congrArg List.length none
  rw [List.length_drop, List.length_take, List.length_nil] at length
  omega

theorem cursorAt_succ_ne {k : Nat} (inside : k < (body buf).length) :
    cursorAt buf ns filename (k + 1) ≠ cursorAt buf ns filename k := by
  have here : (body buf).drop k = (body buf)[k] :: (body buf).drop (k + 1) :=
    List.drop_eq_getElem_cons inside
  rw [cursorAt, cursorAt, trackerAt_succ here]
  exact Tracker.step_ne _ _

/-- The range recorded for a node is its range exactly when the node is unaffected. -/
theorem recorded_exact {tree : List (Node Span)} (parsed : Parses ns (body buf) tree)
    {node : Node Span} (mem : node ∈ tree) :
    node.map (recorded (cursorAt buf ns filename)) =
        node.map (exactRange buf ns filename) ↔
      Unaffected buf ns filename node := by
  obtain ⟨-, between, placed⟩ := exprs_placed parsed
  cases placed with
  | intro ranged _ _ _ =>
    have bounds := between node mem
    have range := ranged node mem
    cases node with
    | null => exact iff_of_true rfl trivial
    | symbol s =>
      simp only [Node.map, recorded, exactRange, Node.symbol.injEq, Symbol.mk.injEq,
        LocationRange.mk.injEq, Unaffected, lastByte, and_true]
      exact eq_comm
    | number n =>
      simp only [Node.map, recorded, exactRange, Node.number.injEq, Number.mk.injEq,
        LocationRange.mk.injEq, Unaffected, firstByte, lastByte, and_true]
      cases isNeg : n.isNeg with
      | false => simp
      | true =>
        have length := negative_span parsed n mem isNeg
        have bound := (bounds n.location rfl).2
        have moved := @cursorAt_succ_ne buf ns filename (n.location.1 + 1) (by omega)
        simpa using moved
    | list s elements =>
      have bound := (bounds s rfl).2
      have order : s.1 + 1 ≤ s.2 := range s rfl
      have moved := @cursorAt_succ_ne buf ns filename s.1 (by omega)
      simp only [Node.map_list, recorded, exactRange, Node.list.injEq, LocationRange.mk.injEq,
        Unaffected, firstByte, iff_false, not_and]
      exact fun same => absurd same.1.symm moved

/-- Every node knows its range exactly when the text has no lists, no negative numbers,
and symbols only where the cursor is at the default location. -/
theorem rangesKnown_iff (buf ns : Bytes) (filename : Option Bytes) :
    RangesKnown buf ns filename ↔ ∀ tree, Parses ns (body buf) tree →
      ∀ node ∈ tree, Unaffected buf ns filename node := by
  constructor
  · intro known tree parsed node mem
    have reads := (readsAs_iff buf ns filename _).mpr ⟨tree, parsed, rfl⟩
    have same := (known _ tree reads parsed).1
    exact (recorded_exact parsed mem).mp (List.map_inj_left.mp same node mem)
  · intro unaffected ast tree reads parsed
    have reads' := (readsAs_iff buf ns filename _).mpr ⟨tree, parsed, rfl⟩
    have same : ast = tree.map (asRead (origin ns filename) (body buf)) :=
      Except.ok.inj (Option.some.inj (reads.symm.trans reads'))
    have exactly : tree.map (asRead (origin ns filename) (body buf)) =
        tree.map (Node.map (exactRange buf ns filename)) :=
      List.map_inj_left.mpr fun node mem =>
        (recorded_exact parsed mem).mpr (unaffected tree parsed node mem)
    rw [same, exactly]
    refine ⟨rfl, fun fits => ?_⟩
    obtain ⟨-, between, placed⟩ := exprs_placed parsed
    refine placed_map (f := fun k => key (cursorAt buf ns filename k)) ?_ ?_ ?_ between placed
    · intro i j
      exact cursorAt_mono fits
    · intro _ _
      rfl
    · intro _ _
      rfl

end Recorded

/-- The symbol `a` is returned without a start. -/
theorem symbol_start_unset : ¬ RangesKnown [97] [] none := by
  intro known
  have token : SymbolAt [97] [] := by
    refine ⟨by simp, List.forall_mem_singleton.mpr rfl, ?_, by simp⟩
    rintro (digit | ⟨dash, -⟩)
    · cases digit
    · cases dash
  have parsed : Exprs [] 0 ([97] ++ []) _ 1 [] := .symbol token .nil
  have reads : ReadsAs [97] [] none [.symbol ⟨⟨{}, lineCol 1 2⟩, [97], []⟩] := rfl
  have same := congrArg (List.map Node.location?) (known _ _ reads parsed).1
  revert same
  decide

end SourceRanges
