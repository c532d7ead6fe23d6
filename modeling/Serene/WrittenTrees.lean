import Serene.SymbolNames

/-!
# Trees as texts

A tree written with qualified names, and a space behind every expression, reads
as that tree under every namespace. So the trees that are read are those that
can be written, and the text of a tree is a normal form of all texts that read
as it.
-/

namespace WrittenTrees

open ByteClasses Locations AstNodes ReaderModel Scanner Grammar ScannerGrammar ReaderGrammar
  SymbolNames

variable {L M : Type}

abbrev space : UInt8 := 32

mutual
def written : Node L → Bytes
  | .null => []
  | .symbol s => makeFQSymbolName s.nsName s.name
  | .number n => n.value
  | .list _ elements => lparen :: (writtenAll elements ++ [rparen])

def writtenAll : List (Node L) → Bytes
  | [] => []
  | node :: nodes => written node ++ space :: writtenAll nodes
end

/-- The node has the fields the reader gives it, and its names stay apart when they are joined. -/
inductive Writable : Node L → Prop where
  | symbol {s : Symbol L} (first : slash ∉ s.nsName)
      (token : SymbolAt (makeFQSymbolName s.nsName s.name) []) : Writable (.symbol s)
  | number {n : Number L} (token : NumberAt n.value [])
      (isNeg : n.isNeg = (n.value.head? == some minus))
      (isFloat : n.isFloat = n.value.contains dot) : Writable (.number n)
  | list {loc : L} {elements : List (Node L)} (inside : ∀ e ∈ elements, Writable e) :
      Writable (.list loc elements)

theorem writable_map (f : Kind → L → M) (node : Node L) :
    Writable (node.map f) ↔ Writable node := by
  induction node using Node.tree_induction with
  | null => constructor <;> rintro ⟨⟩
  | symbol s =>
    constructor
    · rintro ⟨first, token⟩
      exact .symbol first token
    · rintro ⟨first, token⟩
      exact .symbol first token
  | number n =>
    constructor
    · rintro (_ | ⟨token, isNeg, isFloat⟩)
      exact .number token isNeg isFloat
    · rintro (_ | ⟨token, isNeg, isFloat⟩)
      exact .number token isNeg isFloat
  | list loc elements ih =>
    rw [Node.map_list]
    constructor
    · rintro (_ | _ | ⟨inside⟩)
      exact .list fun e mem => (ih e mem).mp (inside _ (List.mem_map_of_mem mem))
    · rintro (_ | _ | ⟨inside⟩)
      refine .list fun e mem => ?_
      obtain ⟨node, there, rfl⟩ := List.mem_map.mp mem
      exact (ih node there).mpr (inside node there)

theorem written_map (f : Kind → L → M) (node : Node L) : written (node.map f) = written node := by
  induction node using Node.tree_induction with
  | null => rfl
  | symbol s => rfl
  | number n => rfl
  | list loc elements ih =>
    have all : writtenAll (elements.map (Node.map f)) = writtenAll elements := by
      induction elements with
      | nil => rfl
      | cons e elements ih' =>
        rw [List.map_cons, writtenAll, writtenAll, ih e List.mem_cons_self,
          ih' fun e mem => ih e (List.mem_cons_of_mem _ mem)]
    rw [Node.map_list, written, written, all]

theorem writtenAll_map (f : Kind → L → M) (nodes : List (Node L)) :
    writtenAll (nodes.map (Node.map f)) = writtenAll nodes := by
  induction nodes with
  | nil => rfl
  | cons node nodes ih => rw [List.map_cons, writtenAll, writtenAll, written_map, ih]

theorem number_space {lexeme : Bytes} (token : NumberAt lexeme []) (w : Bytes) :
    NumberAt lexeme (space :: w) :=
  ⟨token.shape, token.onePoint, by simp only [List.head?_cons]; decide +kernel,
    by simp only [List.head?_cons]; decide +kernel⟩

theorem symbol_space {lexeme : Bytes} (token : SymbolAt lexeme []) (w : Bytes) :
    SymbolAt lexeme (space :: w) := by
  refine ⟨token.nonempty, token.ident, ?_, by simp only [List.head?_cons]; decide +kernel⟩
  have noNumber := token.noNumber
  obtain ⟨c, cs, rfl⟩ := List.exists_cons_of_ne_nil token.nonempty
  rintro (digit | ⟨dash, d, second, digit⟩)
  · exact noNumber (Or.inl digit)
  · cases cs with
    | nil =>
      obtain rfl : space = d := Option.some.inj second
      cases digit
    | cons e cs => exact noNumber (Or.inr ⟨dash, d, second, digit⟩)

/-- The text `t` in front of `w` reads as these nodes. -/
def ReadsBack (ns : Bytes) (nodes : List (Node L)) (t w : Bytes) : Prop :=
  ∀ k, ∃ spans : List (Node Span), bareAll spans = bareAll nodes ∧
    ∀ {tree m w'}, Exprs ns (k + t.length) w tree m w' → Exprs ns k (t ++ w) (spans ++ tree) m w'

section Reading
variable {ns t u w : Bytes} {node : Node L} {nodes more : List (Node L)}

theorem readsBack_append (first : ReadsBack ns nodes t (u ++ w)) (second : ReadsBack ns more u w) :
    ReadsBack ns (nodes ++ more) (t ++ u) w := by
  intro k
  obtain ⟨spans, bare, before⟩ := first k
  obtain ⟨spans', bare', behind⟩ := second (k + t.length)
  refine ⟨spans ++ spans', ?_, fun parsed => ?_⟩
  · simp only [bareAll, List.map_append] at bare bare' ⊢
    rw [bare, bare']
  · rw [List.length_append, ← Nat.add_assoc] at parsed
    rw [List.append_assoc, List.append_assoc]
    exact before (behind parsed)

theorem readsBack_space (ns w : Bytes) : ReadsBack ns ([] : List (Node L)) [space] w :=
  fun _ => ⟨[], rfl, fun parsed => .space rfl parsed⟩

theorem readsBack_all (each : ∀ node ∈ nodes, ∀ w, ReadsBack ns [node] (written node) (space :: w))
    (w : Bytes) : ReadsBack ns nodes (writtenAll nodes) w := by
  induction nodes with
  | nil => exact fun _ => ⟨[], rfl, fun parsed => parsed⟩
  | cons node nodes ih =>
    have rest := ih fun e mem => each e (List.mem_cons_of_mem _ mem)
    have first := each node List.mem_cons_self (writtenAll nodes ++ w)
    have behind := readsBack_append (readsBack_space ns (writtenAll nodes ++ w)) rest
    exact readsBack_append first behind

theorem readsBack_node (writable : Writable node) (w : Bytes) :
    ReadsBack ns [node] (written node) (space :: w) := by
  induction writable generalizing w with
  | @symbol s first token =>
    intro k
    have made := joined_parts ns s.name first
    refine ⟨[symbolNode ns (k, _) (makeFQSymbolName s.nsName s.name)], ?_,
      fun parsed => .symbol (symbol_space token w) parsed⟩
    simp only [bareAll, List.map_cons, List.map_nil, symbolNode, make_eq, made]
    rfl
  | @number n token isNeg isFloat =>
    intro k
    refine ⟨[numberNode (k, _) n.value], ?_, fun parsed => .number (number_space token w) parsed⟩
    simp only [bareAll, List.map_cons, List.map_nil, numberNode, Node.bare, Node.map, isNeg,
      isFloat]
  | @list loc elements inside ih =>
    intro k
    obtain ⟨spans, bare, reads⟩ := readsBack_all ih (rparen :: space :: w) (k + 1)
    refine ⟨[.list (k, k + 1 + (writtenAll elements).length + 1) spans], ?_, fun parsed => ?_⟩
    · rw [bareAll, bareAll] at bare
      rw [bareAll, bareAll, List.map_singleton, List.map_singleton, Node.bare, Node.bare,
        Node.map_list, Node.map_list]
      exact congrArg (fun es => [Node.list () es]) bare
    · have within := reads .nil
      have stop : k + (written (Node.list loc elements)).length =
          k + 1 + (writtenAll elements).length + 1 := by
        rw [written, List.length_cons, List.length_append, List.length_singleton]
        omega
      have whole : written (Node.list loc elements) ++ space :: w =
          lparen :: (writtenAll elements ++ rparen :: space :: w) := by simp [written]
      rw [List.append_nil] at within
      rw [stop] at parsed
      rw [whole]
      exact .list within parsed

theorem written_reads (writable : ∀ node ∈ nodes, Writable node) (ns : Bytes)
    (filename : Option Bytes) :
    ∃ ast, ReadsAs (writtenAll nodes) ns filename ast ∧ bareAll ast = bareAll nodes := by
  have back : ReadsBack ns nodes (writtenAll nodes) [] :=
    readsBack_all (fun node mem w => readsBack_node (writable node mem) w) []
  obtain ⟨spans, bare, reads⟩ := back 0
  have parsed := reads .nil
  rw [List.append_nil, List.append_nil, Nat.zero_add] at parsed
  obtain ⟨v, whole, -, spelled⟩ := exprs_spell parsed
  rw [List.append_nil] at whole
  have plain : body (writtenAll nodes) = writtenAll nodes :=
    body_eq_self (whole ▸ spells_plain spelled)
  refine ⟨_, (readsAs_iff _ ns filename _).mpr ⟨spans, plain.symm ▸ parsed, rfl⟩, ?_⟩
  rw [asRead, bareAll_map, bare]

end Reading

theorem exprs_writable {ns u w : Bytes} {k m : Nat} {tree : List (Node Span)}
    (readable : SymbolAt ns []) (simple : slash ∉ ns) (parsed : Exprs ns k u tree m w) :
    ∀ node ∈ tree, Writable node := by
  induction parsed with
  | nil => simp
  | space _ _ ih => exact ih
  | number token _ ih =>
    exact List.forall_mem_cons.mpr ⟨.number token.alone rfl rfl, ih⟩
  | @symbol k m lexeme u w tree token _ ih =>
    refine List.forall_mem_cons.mpr ⟨?_, ih⟩
    obtain ⟨first, joined⟩ := qualified_lexeme readable simple token.alone rfl
    rw [symbolNode, make_eq]
    exact .symbol first joined
  | list _ _ ihInside ih => exact List.forall_mem_cons.mpr ⟨.list ihInside, ih⟩

section Trees
variable {ns buf : Bytes} {filename : Option Bytes} {ast : Ast}

theorem readsAs_writable (readable : SymbolAt ns []) (simple : slash ∉ ns)
    (reads : ReadsAs buf ns filename ast) : ∀ node ∈ ast, Writable node := by
  obtain ⟨tree, parsed, rfl⟩ := (readsAs_iff buf ns filename ast).mp reads
  intro node mem
  obtain ⟨span, there, rfl⟩ := List.mem_map.mp mem
  exact (writable_map _ span).mpr (exprs_writable readable simple parsed span there)

theorem bare_writable {nodes : List (Node L)} {tree : List (Node M)}
    (bare : bareAll nodes = bareAll tree) (writable : ∀ node ∈ nodes, Writable node) :
    ∀ node ∈ tree, Writable node := by
  have all : ∀ node ∈ bareAll tree, Writable node := by
    rw [← bare]
    intro node mem
    obtain ⟨own, there, rfl⟩ := List.mem_map.mp mem
    exact (writable_map _ own).mpr (writable own there)
  intro node mem
  exact (writable_map _ node).mp (all _ (List.mem_map_of_mem mem))

theorem written_bare {nodes : List (Node L)} : writtenAll (bareAll nodes) = writtenAll nodes :=
  writtenAll_map _ nodes

/-- Under a namespace that is a symbol without a slash, the trees that are read are those that can
be written; each of them reads again from its text, under every namespace; and two of them
have the same text only if they are the same up to locations. -/
theorem trees_written (readable : SymbolAt ns []) (simple : slash ∉ ns) :
    (∀ tree : List (Node Unit), (∃ buf filename ast, ReadsAs buf ns filename ast ∧
      bareAll ast = bareAll tree) ↔ ∀ node ∈ tree, Writable node) ∧
    (∀ buf filename ast, ReadsAs buf ns filename ast → ∀ ns' filename',
      ∃ ast', ReadsAs (writtenAll ast) ns' filename' ast' ∧ bareAll ast' = bareAll ast) ∧
    ∀ buf filename ast buf' filename' ast', ReadsAs buf ns filename ast →
      ReadsAs buf' ns filename' ast' →
        (writtenAll ast = writtenAll ast' ↔ bareAll ast = bareAll ast') := by
  refine ⟨?_, ?_, ?_⟩
  · intro tree
    constructor
    · rintro ⟨buf, filename, ast, reads, bare⟩
      exact bare_writable bare (readsAs_writable readable simple reads)
    · intro writable
      obtain ⟨ast, reads, bare⟩ := written_reads writable ns none
      exact ⟨_, none, ast, reads, bare⟩
  · intro buf filename ast reads ns' filename'
    exact written_reads (readsAs_writable readable simple reads) ns' filename'
  · intro buf filename ast buf' filename' ast' reads reads'
    constructor
    · intro same
      obtain ⟨again, rereads, bare⟩ :=
        written_reads (readsAs_writable readable simple reads) ns none
      obtain ⟨again', rereads', bare'⟩ :=
        written_reads (readsAs_writable readable simple reads') ns none
      rw [same] at rereads
      have one := Except.ok.inj (Option.some.inj (rereads.symm.trans rereads'))
      rw [← bare, ← bare', one]
    · intro same
      rw [← written_bare, same, written_bare]

end Trees

/-- `(f -1)`, as read in the namespace `user`. -/
def readCall : Ast :=
  [.list ⟨userCol 1, userCol 7⟩
    [.symbol ⟨⟨{}, userCol 3⟩, text "f", text "user"⟩,
      .number ⟨⟨userCol 6, userCol 6⟩, text "-1", true, false⟩]]

theorem trees_written_call : ∃ ast', ReadsAs (text "(user/f -1 ) ") (text "core") none ast' ∧
    bareAll ast' = bareAll readCall := by
  have reads : ReadsAs (text "(f -1)") (text "user") none readCall := rfl
  exact (trees_written user_readable (by decide)).2.1 _ none readCall reads (text "core") none

end WrittenTrees
