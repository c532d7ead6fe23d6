import Mathlib.Data.List.Forall2
import Serene.MaximalRuns
import Serene.ReaderResults

/-!
# A dump in pieces

Every node of a tree contributes one piece to its dump: what stands before its
name, number or `-`, that body, and the `>` signs that follow, its own and those
of the lists that end with it. Pieces are separated by commas. A comma and a space are no
identifier bytes, but `>` is one, so a dump shows of each piece the body and the
`>` signs after it as one run.
-/

namespace DumpPieces

open ByteClasses AstNodes ReaderResults Grammar MaximalRuns

abbrev closer : UInt8 := '>'.toUInt8

inductive Label where
  | list
  | number
  | symbol (nsName : Bytes)

def Label.head : Label → Bytes
  | .list => text "<List "
  | .number => text "<Number "
  | .symbol nsName => text "<Symbol " ++ nsName ++ text "/"

@[ext] structure Piece where
  label : Label
  body : Bytes
  closers : Nat

/-- What a dump shows after the head of the piece. -/
def Piece.run (p : Piece) : Bytes := p.body ++ List.replicate p.closers closer

def Piece.text (p : Piece) : Bytes := p.label.head ++ p.run

/-- The pieces in a row, a separator before each. -/
def joined (pieces : List Piece) : Bytes :=
  pieces.flatMap fun p => ByteClasses.text ", " ++ p.text

variable {L : Type}

mutual
/-- The pieces of a node that `k` more lists end with. -/
def pieces : Node L → Nat → List Piece
  | .null, _ => []
  | .symbol s, k => [⟨.symbol s.nsName, s.name, k + 1⟩]
  | .number n, k => [⟨.number, (if n.isNeg then text "-" else []) ++ n.value, k + 1⟩]
  | .list _ elements, k =>
    if elements.isEmpty then [⟨.list, text "-", k + 1⟩]
    else ⟨.list, [], 0⟩ :: piecesAll elements (k + 1)

/-- The pieces of the last elements of a list, which `k` lists end with. -/
def piecesAll : List (Node L) → Nat → List Piece
  | [], _ => []
  | e :: elements, k => pieces e (if elements.isEmpty then k else 0) ++ piecesAll elements k
end

@[simp] theorem pieces_nil (loc : L) (k : Nat) :
    pieces (.list loc []) k = [⟨.list, text "-", k + 1⟩] := rfl

@[simp] theorem pieces_cons (loc : L) (e : Node L) (elements : List (Node L)) (k : Nat) :
    pieces (.list loc (e :: elements)) k = ⟨.list, [], 0⟩ :: piecesAll (e :: elements) (k + 1) :=
  rfl

@[simp] theorem joined_append (ps qs : List Piece) : joined (ps ++ qs) = joined ps ++ joined qs :=
  List.flatMap_append

@[simp] theorem joined_cons (p : Piece) (ps : List Piece) :
    joined (p :: ps) = text ", " ++ p.text ++ joined ps := List.flatMap_cons

@[simp] theorem joined_nil : joined [] = [] := rfl

/-- The loop of `List::toString` appends the pieces of the elements. -/
theorem toStringLoop_joined {elements : List (Node L)} (some : elements ≠ [])
    (ih : ∀ e ∈ elements, ∀ dump k, e.toString = .some dump →
      text ", " ++ dump ++ List.replicate k closer = joined (pieces e k))
    {s dump : Bytes} (k : Nat) (dumped : Node.toStringLoop s elements = .some dump) :
    dump ++ List.replicate k closer = s ++ joined (piecesAll elements k) := by
  induction elements generalizing s with
  | nil => exact absurd rfl some
  | cons e elements next =>
    rw [Node.toStringLoop] at dumped
    obtain ⟨string, first, rest⟩ := Option.bind_eq_some_iff.mp dumped
    have dumps := ih e List.mem_cons_self string
    rw [piecesAll, joined_append]
    cases elements with
    | nil =>
      rw [← Option.some.inj rest, List.isEmpty_nil, if_pos rfl, ← dumps k first]
      simp [piecesAll]
    | cons e' elements =>
      have last := next (List.cons_ne_nil e' elements)
        (fun e mem => ih e (List.mem_cons_of_mem _ mem)) rest
      rw [last, List.isEmpty_cons, if_neg Bool.false_ne_true, ← dumps 0 first]
      simp

theorem closer_replicate (k : Nat) :
    text ">" ++ List.replicate k closer = List.replicate (k + 1) closer := rfl

/-- A dump is the pieces of its tree. -/
theorem toString_joined (node : Node L) {dump : Bytes} (k : Nat)
    (dumped : node.toString = some dump) :
    text ", " ++ dump ++ List.replicate k closer = joined (pieces node k) := by
  induction node using Node.tree_induction generalizing dump k with
  | null => cases dumped
  | symbol s =>
    rw [← Option.some.inj dumped, pieces, Symbol.toString, joined_cons, joined_nil, Piece.text,
      Piece.run, ← closer_replicate, Label.head]
    simp only [List.append_assoc, List.append_nil]
  | number n =>
    rw [← Option.some.inj dumped, pieces, Number.toString, joined_cons, joined_nil, Piece.text,
      Piece.run, ← closer_replicate, Label.head]
    simp only [List.append_assoc, List.append_nil]
  | list loc elements ih =>
    rw [Node.toString_list] at dumped
    obtain ⟨s, looped, rfl⟩ := Option.map_eq_some_iff.mp dumped
    cases elements with
    | nil =>
      rw [← Option.some.inj looped]
      simp only [pieces_nil, List.isEmpty_nil, if_true, joined_cons, joined_nil, Piece.text,
        Piece.run, ← closer_replicate, Label.head, List.append_assoc, List.append_nil]
    | cons e elements =>
      have last := toStringLoop_joined (List.cons_ne_nil e elements)
        (fun e mem dump k => ih e mem k) (k + 1) looped
      simp only [List.isEmpty_cons, Bool.false_eq_true, if_false, List.nil_append] at last
      simp only [pieces_cons, joined_cons, ← last, ← closer_replicate, Piece.text, Piece.run,
        Label.head, List.append_assoc, List.replicate_zero, List.nil_append]

/-- The end of the piece can be seen in a dump. -/
structure Shown (p : Piece) : Prop where
  simple : ∀ nsName, p.label = .symbol nsName → slash ∉ nsName
  ident : ∀ c ∈ p.body, isValidForIdentifier c = true

theorem Shown.run {p : Piece} (shown : Shown p) : ∀ c ∈ p.run, isValidForIdentifier c = true := by
  refine List.forall_mem_append.mpr ⟨shown.ident, ?_⟩
  intro c mem
  rw [List.eq_of_mem_replicate mem]
  rfl

theorem joined_stops (ps : List Piece) : Stops isValidForIdentifier (joined ps) := by
  cases ps with
  | nil => exact stops_nil
  | cons p ps =>
    rw [joined_cons]
    exact stops_cons rfl _

/-- The first slash ends the namespace of a symbol. -/
theorem slash_unique {n n' x x' : Bytes} (simple : slash ∉ n) (simple' : slash ∉ n')
    (same : n ++ slash :: x = n' ++ slash :: x') : n = n' ∧ x = x' := by
  have others {m : Bytes} (simple : slash ∉ m) : ∀ c ∈ m, (c != slash) = true := by
    intro c mem
    rw [bne_iff_ne]
    rintro rfl
    exact simple mem
  have stops (u : Bytes) : Stops (· != slash) (slash :: u) := stops_cons rfl u
  obtain ⟨rfl, rest⟩ := run_unique (others simple) (others simple') (stops x) (stops x') same
  exact ⟨rfl, (List.cons.inj rest).2⟩

/-- The letter that tells the kinds of pieces apart. -/
def Label.letter : Label → UInt8
  | .list => 'L'.toUInt8
  | .number => 'N'.toUInt8
  | .symbol _ => 'S'.toUInt8

theorem text_letter (p : Piece) (r : Bytes) : (p.text ++ r)[1]? = some p.label.letter := by
  obtain ⟨label, body, closers⟩ := p
  cases label <;> rfl

theorem text_unique {p q : Piece} {r r' : Bytes} (shown : Shown p) (shown' : Shown q)
    (stops : Stops isValidForIdentifier r) (stops' : Stops isValidForIdentifier r')
    (same : p.text ++ r = q.text ++ r') : p.label = q.label ∧ p.run = q.run ∧ r = r' := by
  have letters : p.label.letter = q.label.letter := by
    have second := congrArg (fun w => w[1]?) same
    rw [text_letter, text_letter] at second
    exact Option.some.inj second
  have runs := run_unique shown.run shown'.run stops stops'
  rw [Piece.text, Piece.text, List.append_assoc, List.append_assoc] at same
  cases kind : p.label with
  | list =>
    cases kind' : q.label with
    | list =>
      rw [kind, kind'] at same
      exact ⟨rfl, runs (List.append_cancel_left same)⟩
    | number | symbol =>
      rw [kind, kind'] at letters
      simp only [Label.letter] at letters
      exact absurd letters (by decide)
  | number =>
    cases kind' : q.label with
    | number =>
      rw [kind, kind'] at same
      exact ⟨rfl, runs (List.append_cancel_left same)⟩
    | list | symbol =>
      rw [kind, kind'] at letters
      simp only [Label.letter] at letters
      exact absurd letters (by decide)
  | symbol n =>
    cases kind' : q.label with
    | symbol n' =>
      rw [kind, kind', Label.head, Label.head, List.append_assoc, List.append_assoc,
        List.append_assoc, List.append_assoc] at same
      obtain ⟨rfl, rest⟩ := slash_unique (shown.simple n kind) (shown'.simple n' kind')
        (List.append_cancel_left same)
      exact ⟨rfl, runs rest⟩
    | list | number =>
      rw [kind, kind'] at letters
      simp only [Label.letter] at letters
      exact absurd letters (by decide)

/-- Two rows of pieces that look the same have the same labels and runs. -/
def Alike (ps qs : List Piece) : Prop :=
  List.Forall₂ (fun p q => p.label = q.label ∧ p.run = q.run) ps qs

theorem joined_alike {ps qs : List Piece} (shown : ∀ p ∈ ps, Shown p) (shown' : ∀ q ∈ qs, Shown q)
    (same : joined ps = joined qs) : Alike ps qs := by
  induction ps generalizing qs with
  | nil =>
    cases qs with
    | nil => exact .nil
    | cons q qs => cases same
  | cons p ps ih =>
    cases qs with
    | nil => cases same
    | cons q qs =>
      obtain ⟨first, rest⟩ := List.forall_mem_cons.mp shown
      obtain ⟨first', rest'⟩ := List.forall_mem_cons.mp shown'
      rw [joined_cons, joined_cons, List.append_assoc, List.append_assoc] at same
      obtain ⟨label, run, same⟩ := text_unique first first' (joined_stops ps) (joined_stops qs)
        (List.append_cancel_left same)
      exact .cons ⟨label, run⟩ (ih rest rest' same)

end DumpPieces
