import Serene.AstNodes

/-!
# The dump of a tree

`toString` of the expressions that the reader makes, as `ast.cpp` has it. The
elements of a list are dereferenced without a test, so a tree with a null in it
has no dump; every other tree has one.
-/

namespace AstNodes

open ByteClasses

variable {L : Type}

/-- `Symbol::toString`. -/
def Symbol.toString (s : Symbol L) : Bytes :=
  text "<Symbol " ++ s.nsName ++ text "/" ++ s.name ++ text ">"

/-- `Number::toString`. -/
def Number.toString (n : Number L) : Bytes :=
  text "<Number " ++ (if n.isNeg then text "-" else []) ++ n.value ++ text ">"

mutual
/-- `Expression::toString` through a pointer; the null pointer has no such member. -/
def Node.toString : Node L → Option Bytes
  | .null => none
  | .symbol s => some s.toString
  | .number n => some n.toString
  | .list _ elements => do
    let s ← Node.toStringLoop (if elements.isEmpty then text "-" else []) elements
    some (text "<List " ++ s ++ text ">")

/-- The loop of `List::toString`, which appends to `s`. -/
def Node.toStringLoop (s : Bytes) : List (Node L) → Option Bytes
  | [] => some s
  | n :: elements => do
    let string ← n.toString
    Node.toStringLoop (s ++ text ", " ++ string) elements
end

theorem Node.toString_list (loc : L) (elements : List (Node L)) :
    (Node.list loc elements).toString =
      (Node.toStringLoop (if elements.isEmpty then text "-" else []) elements).map
        fun s => text "<List " ++ s ++ text ">" := by
  rw [Node.toString]
  exact Option.map_eq_bind.symm

/-- No null at any depth. -/
inductive NoNull : Node L → Prop where
  | symbol (s : Symbol L) : NoNull (.symbol s)
  | number (n : Number L) : NoNull (.number n)
  | list {loc : L} {elements : List (Node L)} (all : ∀ e ∈ elements, NoNull e) :
      NoNull (.list loc elements)

theorem noNull_list {loc : L} {elements : List (Node L)} :
    NoNull (.list loc elements) ↔ ∀ e ∈ elements, NoNull e := by
  constructor
  · intro full
    cases full with
    | list all => exact all
  · exact .list

theorem toStringLoop_isSome (elements : List (Node L)) (s : Bytes) :
    (Node.toStringLoop s elements).isSome ↔ ∀ e ∈ elements, e.toString.isSome := by
  induction elements generalizing s with
  | nil => simp [Node.toStringLoop]
  | cons n elements ih =>
    cases dumped : n.toString with
    | none => simp [Node.toStringLoop, dumped]
    | some string => simp [Node.toStringLoop, dumped, ih]

/-- A tree can be dumped exactly when there is no null in it. -/
theorem toString_isSome (node : Node L) : node.toString.isSome ↔ NoNull node := by
  induction node using Node.tree_induction with
  | null =>
    constructor
    · intro some
      cases some
    · intro full
      cases full
  | symbol s => exact ⟨fun _ => .symbol s, fun _ => rfl⟩
  | number n => exact ⟨fun _ => .number n, fun _ => rfl⟩
  | list loc elements ih =>
    rw [Node.toString_list, Option.isSome_map, toStringLoop_isSome, noNull_list]
    exact forall₂_congr ih

end AstNodes
