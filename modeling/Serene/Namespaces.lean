import Serene.ReadingInPieces

/-!
# Namespaces and their trees

`Namespace::ExpandTree` moves the nodes of an AST to the end of the namespace's
tree and empties the AST, in every compilation phase. So a session that reads
its text in pieces builds the tree of the whole text.
-/

namespace Namespaces

open ByteClasses Locations AstNodes ReaderModel ReadingInPieces

inductive CompilationPhase where
  | parse
  | analysis
  | slir
  | mlir
  | lir
  | ir
  | noOptimization
  | o1
  | o2
  | o3
deriving DecidableEq

/-- What `ExpandTree` sees of a `Namespace`; the phase is an option of its engine. -/
structure Namespace where
  compilationPhase : CompilationPhase
  tree : Ast

/-- `insert` at the end through move iterators, which leaves null pointers behind. -/
def moveToEnd (tree ast : Ast) : Ast × Ast := (tree ++ ast, ast.map fun _ => .null)

/-- The result, and the namespace and the argument as the call leaves them. -/
def Namespace.expandTree (ns : Namespace) (ast : Ast) : Except Error Unit × Namespace × Ast :=
  if ns.compilationPhase = .parse then
    let (tree, _) := moveToEnd ns.tree ast
    -- `ast.clear()` drops the null pointers
    (.ok (), { ns with tree := tree }, [])
  else
    let (tree, _) := moveToEnd ns.tree ast
    (.ok (), { ns with tree := tree }, [])

/-- One call after the other, with what is left of every argument. -/
def Namespace.expandAll (ns : Namespace) : List Ast → Namespace × List Ast
  | [] => (ns, [])
  | ast :: asts =>
    let (_, ns, ast) := ns.expandTree ast
    let (ns, asts) := ns.expandAll asts
    (ns, ast :: asts)

theorem expandTree_eq (ns : Namespace) (ast : Ast) :
    ns.expandTree ast = (.ok (), { ns with tree := ns.tree ++ ast }, []) := by
  simp only [Namespace.expandTree]
  split <;> rfl

theorem expandAll_eq (ns : Namespace) (asts : List Ast) :
    ns.expandAll asts = ({ ns with tree := ns.tree ++ asts.flatten }, asts.map fun _ => []) := by
  induction asts generalizing ns with
  | nil => simp [Namespace.expandAll]
  | cons ast asts ih => simp [Namespace.expandAll, expandTree_eq, ih]

/-- The texts in their order, with some spaces between each two. -/
inductive Joined : List Bytes → Bytes → Prop where
  | nil : Joined [] []
  | single (s : Bytes) : Joined [s] s
  | cons {s s' w t : Bytes} {texts : List Bytes} (gap : w ≠ [])
      (spaces : ∀ c ∈ w, isspace c = true) (rest : Joined (s' :: texts) t) :
      Joined (s :: s' :: texts) (s ++ w ++ t)

/-- Texts without end bytes, each with what `read` returns of it. -/
def AllRead (ns : Bytes) : List Bytes → List Ast → Prop :=
  List.Forall₂ fun text ast =>
    (∀ c ∈ text, isEndByte c = false) ∧ ∃ filename, ReadsAs text ns filename ast

theorem joined_reads (ns : Bytes) (filename : Option Bytes) {texts : List Bytes} {text : Bytes}
    (joined : Joined texts text) : ∀ {asts : List Ast}, AllRead ns texts asts →
      (∀ c ∈ text, isEndByte c = false) ∧
      ∃ ast, ReadsAs text ns filename ast ∧ bareAll ast = bareAll asts.flatten := by
  induction joined with
  | nil =>
    intro asts read
    cases read
    exact ⟨by simp, [], rfl, rfl⟩
  | single s =>
    intro asts read
    cases read with
    | cons own rest =>
      cases rest
      obtain ⟨plain, filename₁, reads⟩ := own
      obtain ⟨ast, here, same⟩ := reads_elsewhere filename plain reads
      exact ⟨plain, ast, here, by rw [same]; simp⟩
  | cons gap spaces _ ih =>
    intro asts read
    cases read with
    | cons own rest =>
      obtain ⟨plain, filename₁, reads⟩ := own
      obtain ⟨plainRest, ast, readsRest, same⟩ := ih rest
      obtain ⟨whole, here, appended⟩ :=
        reads_joined filename plain gap spaces plainRest reads readsRest
      refine ⟨?_, whole, here, ?_⟩
      · refine List.forall_mem_append.mpr ⟨List.forall_mem_append.mpr ⟨plain, ?_⟩, plainRest⟩
        exact fun c hc => (space_facts (spaces c hc)).2.2.2.1
      · rw [appended, same]
        simp [bareAll]

/-- Reading texts in pieces is reading them at once: two texts with spaces between give the
nodes of both, or the failure of the second; and expanding a namespace with the pieces of a
text, one after the other, builds the tree that the whole text builds. -/
theorem pieces_build_tree (ns : Bytes) (filename : Option Bytes) :
    (∀ s₁ w s₂ filename₁ ast₁, (∀ c ∈ s₁, isEndByte c = false) → w ≠ [] →
      (∀ c ∈ w, isspace c = true) → (∀ c ∈ s₂, isEndByte c = false) →
      ReadsAs s₁ ns filename₁ ast₁ →
      (∀ filename₂ ast₂, ReadsAs s₂ ns filename₂ ast₂ →
        ∃ ast, ReadsAs (s₁ ++ w ++ s₂) ns filename ast ∧
          bareAll ast = bareAll ast₁ ++ bareAll ast₂) ∧
      (∀ filename₂ e, FailsWith s₂ ns filename₂ e →
        ∃ e', FailsWith (s₁ ++ w ++ s₂) ns filename e' ∧ e'.type = e.type)) ∧
    (∀ (target : Namespace) (texts : List Bytes) (asts : List Ast) (text : Bytes),
      AllRead ns texts asts → Joined texts text →
      ∃ ast, ReadsAs text ns filename ast ∧
        bareAll (target.expandAll asts).1.tree = bareAll (target.expandTree ast).2.1.tree ∧
        (target.expandAll asts).1.tree = target.tree ++ asts.flatten ∧
        (target.expandAll asts).2 = asts.map (fun _ => []) ∧
        (target.expandTree ast).2.2 = []) := by
  constructor
  · intro s₁ w s₂ filename₁ ast₁ plain₁ gap spaces plain₂ reads₁
    constructor
    · intro filename₂ ast₂ reads₂
      exact reads_joined filename plain₁ gap spaces plain₂ reads₁ reads₂
    · intro filename₂ e fails₂
      exact fails_joined filename plain₁ gap spaces plain₂ reads₁ fails₂
  · intro target texts asts text read joined
    obtain ⟨-, ast, here, same⟩ := joined_reads ns filename joined read
    refine ⟨ast, here, ?_⟩
    rw [expandAll_eq, expandTree_eq]
    refine ⟨?_, rfl, rfl, rfl⟩
    simp only [bareAll, List.map_append] at same ⊢
    rw [same]

end Namespaces
