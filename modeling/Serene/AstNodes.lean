import Serene.Locations

/-!
# AST nodes and errors

A `Node` is a `std::unique_ptr<Expression>`, so it may be null. The location of
a node is a type parameter: it is a `LocationRange` in the code, a byte span in
the grammar, and `Unit` where two trees are compared up to locations.
-/

namespace AstNodes

open ByteClasses Locations

structure Symbol (L : Type) where
  location : L
  name : Bytes
  nsName : Bytes
deriving DecidableEq

structure Number (L : Type) where
  location : L
  value : Bytes
  isNeg : Bool
  isFloat : Bool
deriving DecidableEq

inductive Node (L : Type) where
  | null
  | symbol (node : Symbol L)
  | number (node : Number L)
  | list (location : L) (elements : List (Node L))

abbrev Ast := List (Node LocationRange)

/-- The constructor `Symbol(loc, name, currentNS)`, which splits at the first slash. -/
def Symbol.make {L : Type} (loc : L) (name currentNS : Bytes) : Symbol L :=
  match name.idxOf? slash with
  | none => ⟨loc, name, currentNS⟩
  | some partDelimiter => ⟨loc, name.drop (partDelimiter + 1), name.take partDelimiter⟩

/-- What the locations of a node may depend on besides its place. -/
inductive Kind where
  | symbol
  | number (isNeg : Bool)
  | list
deriving DecidableEq

variable {L M N : Type}

mutual
/-- The same tree with every location replaced. -/
def Node.map (f : Kind → L → M) : Node L → Node M
  | .null => .null
  | .symbol s => .symbol ⟨f .symbol s.location, s.name, s.nsName⟩
  | .number n => .number ⟨f (.number n.isNeg) n.location, n.value, n.isNeg, n.isFloat⟩
  | .list loc elements => .list (f .list loc) (Node.mapAll f elements)

def Node.mapAll (f : Kind → L → M) : List (Node L) → List (Node M)
  | [] => []
  | node :: nodes => node.map f :: Node.mapAll f nodes
end

@[simp] theorem Node.mapAll_eq (f : Kind → L → M) (nodes : List (Node L)) :
    Node.mapAll f nodes = nodes.map (Node.map f) := by
  induction nodes with
  | nil => rfl
  | cons node nodes ih => simp [Node.mapAll, ih]

@[simp] theorem Node.map_list (f : Kind → L → M) (loc : L) (elements : List (Node L)) :
    (Node.list loc elements).map f = .list (f .list loc) (elements.map (Node.map f)) := by
  rw [Node.map, Node.mapAll_eq]

mutual
/-- The symbols of a tree at any depth, in their order. -/
def Node.symbols : Node L → List (Symbol L)
  | .null => []
  | .symbol s => [s]
  | .number _ => []
  | .list _ elements => Node.symbolsAll elements

def Node.symbolsAll : List (Node L) → List (Symbol L)
  | [] => []
  | node :: nodes => node.symbols ++ Node.symbolsAll nodes
end

mutual
/-- The numbers of a tree at any depth, in their order. -/
def Node.numbers : Node L → List (Number L)
  | .null => []
  | .symbol _ => []
  | .number n => [n]
  | .list _ elements => Node.numbersAll elements

def Node.numbersAll : List (Node L) → List (Number L)
  | [] => []
  | node :: nodes => node.numbers ++ Node.numbersAll nodes
end

mutual
/-- The locations of the numbers and symbols of a tree at any depth, in their order. -/
def Node.atoms : Node L → List L
  | .null => []
  | .symbol s => [s.location]
  | .number n => [n.location]
  | .list _ elements => Node.atomsAll elements

def Node.atomsAll : List (Node L) → List L
  | [] => []
  | node :: nodes => node.atoms ++ Node.atomsAll nodes
end

def Node.location? : Node L → Option L
  | .null => none
  | .symbol s => some s.location
  | .number n => some n.location
  | .list loc _ => some loc

theorem Node.mem_location?_map {f : Kind → L → M} {node : Node L} {loc : M}
    (mem : loc ∈ (node.map f).location?) : ∃ kind, ∃ l ∈ node.location?, loc = f kind l := by
  cases node with
  | null => cases mem
  | symbol s => exact ⟨.symbol, s.location, rfl, (Option.some.inj mem).symm⟩
  | number n => exact ⟨.number n.isNeg, n.location, rfl, (Option.some.inj mem).symm⟩
  | list l elements => exact ⟨.list, l, rfl, (Option.some.inj mem).symm⟩

theorem Node.list_of_map {f : Kind → L → M} {node : Node L} {loc : M} {elements : List (Node M)}
    (same : node.map f = .list loc elements) :
    ∃ l inner, node = .list l inner ∧ loc = f .list l ∧ elements = inner.map (Node.map f) := by
  cases node with
  | null => cases same
  | symbol s => cases same
  | number n => cases same
  | list l inner =>
    rw [Node.map_list] at same
    cases same
    exact ⟨l, inner, rfl, rfl, rfl⟩

@[simp] theorem Node.symbolsAll_eq (nodes : List (Node L)) :
    Node.symbolsAll nodes = nodes.flatMap Node.symbols := by
  induction nodes with
  | nil => rfl
  | cons node nodes ih => rw [Node.symbolsAll, ih, List.flatMap_cons]

@[simp] theorem Node.numbersAll_eq (nodes : List (Node L)) :
    Node.numbersAll nodes = nodes.flatMap Node.numbers := by
  induction nodes with
  | nil => rfl
  | cons node nodes ih => rw [Node.numbersAll, ih, List.flatMap_cons]

/-- A tree without its locations. -/
def Node.bare : Node L → Node Unit := Node.map fun _ _ => ()

/-- Induction over a tree with the elements of a list at hand. -/
theorem Node.tree_induction {P : Node L → Prop} (null : P .null)
    (symbol : ∀ s, P (.symbol s)) (number : ∀ n, P (.number n))
    (list : ∀ loc elements, (∀ e ∈ elements, P e) → P (.list loc elements)) :
    ∀ node, P node
  | .null => null
  | .symbol s => symbol s
  | .number n => number n
  | .list loc elements =>
    list loc elements fun e _ => tree_induction null symbol number list e

theorem Node.map_map (f : Kind → L → M) (g : Kind → M → N) (node : Node L) :
    (node.map f).map g = node.map fun kind loc => g kind (f kind loc) := by
  induction node using Node.tree_induction with
  | null => rfl
  | symbol s => rfl
  | number n => rfl
  | list loc elements ih => simpa using ih

@[simp] theorem Node.bare_map (f : Kind → L → M) (node : Node L) :
    (node.map f).bare = node.bare := node.map_map f _

/-- A text read into nodes, without the locations. -/
def bareAll (nodes : List (Node L)) : List (Node Unit) := nodes.map Node.bare

@[simp] theorem bareAll_map (f : Kind → L → M) (nodes : List (Node L)) :
    bareAll (nodes.map (Node.map f)) = bareAll nodes := by
  simp [bareAll]

@[simp] theorem Symbol.make_location (loc : L) (name currentNS : Bytes) :
    (Symbol.make loc name currentNS).location = loc := by
  simp only [Symbol.make]
  split <;> rfl

theorem Node.map_make (f : Kind → L → M) (loc : L) (name currentNS : Bytes) :
    (Node.symbol (Symbol.make loc name currentNS)).map f =
      .symbol (Symbol.make (f .symbol loc) name currentNS) := by
  simp only [Symbol.make]
  split <;> rfl

/-- `errors::Type`, without the sentinel `FINALERROR`. -/
inductive ErrorType where
  | nsLoadError
  | nsAddToSMError
  | invalidDigitForNumber
  | twoFloatPoints
  | invalidCharacterForSymbol
  | eofWhileScaningAList
deriving DecidableEq

/-- `errors::Error`. -/
structure Error where
  type : ErrorType
  location : LocationRange
  msg : Bytes := []
deriving DecidableEq

end AstNodes
