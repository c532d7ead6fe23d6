import Serene.AstPrinting

/-!
# Copies of nodes

The copy constructors of `ast.cpp` take a mutable reference, so each is a
function from the node to its copy and to what is left of the node. The one of
`Number` never sets the two flags of the copy, which then hold whatever was in
the memory; the one of `Error` moves the tag out of the node it copies.
-/

namespace NodeCopies

open ByteClasses Locations AstNodes

section Copying
variable {G α β : Type}

/-- Whatever the memory holds, the copy is equal to the original and prints as it does, the
original is as before, and so a second copy is equal to the first. -/
def Faithful (copy : G → α → α × α) (print : α → β) (original : α) : Prop :=
  ∀ g, (copy g original).1 = original ∧ print (copy g original).1 = print original ∧
    (copy g original).2 = original ∧ ∀ g', (copy g' (copy g original).2).1 = (copy g original).1

theorem faithful_iff (copy : G → α → α × α) (print : α → β) (original : α) :
    Faithful copy print original ↔ ∀ g, copy g original = (original, original) := by
  constructor
  · intro faithful g
    obtain ⟨copied, -, left, -⟩ := faithful g
    exact Prod.ext copied left
  · intro same g
    refine ⟨by rw [same], by rw [same], by rw [same], fun g' => ?_⟩
    rw [same, same]

end Copying

structure StringNode where
  location : LocationRange
  data : Bytes

structure KeywordNode where
  location : LocationRange
  name : Bytes

/-- `tag` is a `std::unique_ptr`, with null for `none`. -/
structure ErrorNode where
  location : LocationRange
  msg : Bytes
  tag : Option KeywordNode

/-- What the flags of a `Number` hold before they are set. -/
structure Uninitialized where
  isNeg : Bool
  isFloat : Bool

/-- `String::toString`, which shows the first ten bytes. -/
def StringNode.toString (s : StringNode) : Bytes :=
  let truncateSize := 10
  text "<String '" ++
    s.data.take (if truncateSize ≤ s.data.length then truncateSize else s.data.length) ++ text "'>"

/-- `Keyword::toString`. -/
def KeywordNode.toString (k : KeywordNode) : Bytes := text "<Keyword " ++ k.name ++ text ">"

/-- `Error::toString`. -/
def ErrorNode.toString (e : ErrorNode) : Bytes := text "<Error " ++ e.msg ++ text ">"

/-- `Symbol(Symbol &s)`. -/
def copySymbol (s : Symbol LocationRange) : Symbol LocationRange × Symbol LocationRange :=
  (⟨s.location, s.name, s.nsName⟩, s)

/-- `Number(Number &n)`. -/
def copyNumber (memory : Uninitialized) (n : Number LocationRange) :
    Number LocationRange × Number LocationRange :=
  (⟨n.location, n.value, memory.isNeg, memory.isFloat⟩, n)

/-- `String(String &s)`. -/
def copyString (s : StringNode) : StringNode × StringNode := (⟨s.location, s.data⟩, s)

/-- `Keyword(Keyword &s)`. -/
def copyKeyword (s : KeywordNode) : KeywordNode × KeywordNode := (⟨s.location, s.name⟩, s)

/-- `Error(Error &e)`. -/
def copyError (e : ErrorNode) : ErrorNode × ErrorNode :=
  (⟨e.location, e.msg, e.tag⟩, { e with tag := none })

inductive Copyable where
  | symbol (s : Symbol LocationRange)
  | number (n : Number LocationRange)
  | string (s : StringNode)
  | keyword (k : KeywordNode)
  | error (e : ErrorNode)

/-- The copy constructor of the node's class. -/
def Copyable.copy (memory : Uninitialized) : Copyable → Copyable × Copyable
  | .symbol s => (copySymbol s).map .symbol .symbol
  | .number n => (copyNumber memory n).map .number .number
  | .string s => (copyString s).map .string .string
  | .keyword k => (copyKeyword k).map .keyword .keyword
  | .error e => (copyError e).map .error .error

def Copyable.toString : Copyable → Bytes
  | .symbol s => s.toString
  | .number n => n.toString
  | .string s => s.toString
  | .keyword k => k.toString
  | .error e => e.toString

/-- The flags of a copied number are what the memory held. -/
theorem copy_number_iff (memory : Uninitialized) (n : Number LocationRange) :
    Copyable.copy memory (.number n) = (.number n, .number n) ↔
      memory.isNeg = n.isNeg ∧ memory.isFloat = n.isFloat := by
  obtain ⟨location, value, isNeg, isFloat⟩ := n
  simp [Copyable.copy, copyNumber]

/-- The tag of a copied error is gone from the original. -/
theorem copy_error_iff (memory : Uninitialized) (e : ErrorNode) :
    Copyable.copy memory (.error e) = (.error e, .error e) ↔ e.tag = none := by
  obtain ⟨location, msg, tag⟩ := e
  simp [Copyable.copy, copyError, eq_comm]

/-- A copy constructor is faithful for every node, except that no number is copied faithfully and
no error with a tag. -/
theorem copy_faithful_iff (node : Copyable) :
    Faithful Copyable.copy Copyable.toString node ↔
      (∀ n, node ≠ .number n) ∧ ∀ e, node = .error e → e.tag = none := by
  rw [faithful_iff]
  cases node with
  | symbol s => exact ⟨fun _ => ⟨by simp, by simp⟩, fun _ _ => rfl⟩
  | string s => exact ⟨fun _ => ⟨by simp, by simp⟩, fun _ _ => rfl⟩
  | keyword k => exact ⟨fun _ => ⟨by simp, by simp⟩, fun _ _ => rfl⟩
  | number n =>
    constructor
    · intro same
      obtain ⟨flag, -⟩ := (copy_number_iff ⟨!n.isNeg, n.isFloat⟩ n).mp (same _)
      exact absurd flag (by simp)
    · rintro ⟨other, -⟩
      exact absurd rfl (other n)
  | error e =>
    constructor
    · intro same
      refine ⟨by simp, ?_⟩
      rintro e' same'
      rw [← Copyable.error.inj same']
      exact (copy_error_iff ⟨false, false⟩ e).mp (same _)
    · rintro ⟨-, untagged⟩ memory
      exact (copy_error_iff memory e).mpr (untagged e rfl)

/-- The number 1, and an error with the tag `t`. -/
def one : Number LocationRange := ⟨{}, text "1", false, false⟩

def tagged : ErrorNode := ⟨{}, text "m", some ⟨{}, text "t"⟩⟩

theorem copies_differ :
    ((Copyable.number one).copy ⟨true, false⟩).1.toString = text "<Number -1>" ∧
    (Copyable.number one).toString = text "<Number 1>" ∧
    (copyError tagged).2.tag = none ∧ (copyError (copyError tagged).2).1.tag = none ∧
    ¬ Faithful Copyable.copy Copyable.toString (.number one) ∧
    ¬ Faithful Copyable.copy Copyable.toString (.error tagged) := by
  refine ⟨rfl, rfl, rfl, rfl, fun faithful => ?_, fun faithful => ?_⟩
  · have prints := (faithful ⟨true, false⟩).2.1
    exact absurd prints (by decide)
  · have left := (faithful ⟨false, false⟩).2.2.1
    cases left

end NodeCopies
