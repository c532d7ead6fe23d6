import Serene.AstPrinting
import Serene.MethodInvariants
import Serene.ReaderRefinement
import Serene.ScannerGrammar

/-!
# What the reader returns

From any memory, terminated or not: a number has the shape of a numeral, a
symbol is made of identifier bytes, and an element that a list keeps is a node.
A null result of `readExpr` leaves the reader where it was, in front of the end
that `readExpr` has found, so the next turn of `readList` finds it again.
-/

namespace ReaderResults

open ByteClasses Locations AstNodes ReaderModel ReaderSteps StatefulRuns MethodInvariants
  Grammar ScannerGrammar ReaderRefinement MaximalRuns

/-- The nodes that the reader makes of lexemes, and lists of such nodes. -/
inductive Produced {L : Type} (ns : Bytes) : Node L → Prop where
  | symbol {loc : L} {lexeme : Bytes} (nonempty : lexeme ≠ [])
      (ident : ∀ c ∈ lexeme, isValidForIdentifier c = true) : Produced ns (symbolNode ns loc lexeme)
  | number {loc : L} {lexeme : Bytes} (numeral : NumberAt lexeme []) :
      Produced ns (numberNode loc lexeme)
  | list {loc : L} {elements : List (Node L)} (all : ∀ e ∈ elements, Produced ns e) :
      Produced ns (.list loc elements)

theorem Produced.noNull {L : Type} {ns : Bytes} {node : Node L} (produced : Produced ns node) :
    NoNull node := by
  induction produced with
  | symbol => exact .symbol _
  | number => exact .number _
  | list _ ih => exact .list ih

section Tokens
variable {src : Source}

theorem deref_returns (c : Nat) :
    Returns (fun byte => src.buf.at? c = some byte) (deref src c) := by
  intro r byte r' ran
  cases found : src.buf.at? c with
  | none =>
    simp only [deref, found] at ran
    cases ran
  | some b =>
    simp only [deref, found, pure_run] at ran
    rw [← (EStateM.Result.ok.inj ran).1]

/-- What the flags of `readNumber` say of the bytes read. -/
def Numeral (neg : Bool) (number : Bytes) (floatNum : Bool) : Prop :=
  NumberAt number [] ∧ (number.head? == some minus) = neg ∧ number.contains dot = floatNum

theorem readNumberLoop_returns (neg : Bool) (turns : Nat) : ∀ number c floatNum,
    (∀ byte, src.buf.at? c = some byte → Numeral neg (number ++ [byte]) floatNum) →
    Returns (fun result : Bytes × Nat × Bool => Numeral neg result.1 result.2.2)
      (readNumberLoop src turns number c floatNum) := by
  induction turns with
  | zero => exact fun number c floatNum _ => .throw _
  | succ turns ih =>
    intro number c floatNum going
    refine (deref_returns c).bind fun byte here => .skip fun c' =>
      (deref_returns c').bind fun next there => ?_
    obtain ⟨numeral, signed, point⟩ := going byte here
    refine .ite (fun inside => .ite (fun _ => ?_) fun first => ?_) fun _ => ?_
    · exact .skip fun loc => .throw _
    · refine .skip fun _ => ih _ _ _ fun byte' there' => ?_
      obtain rfl : next = byte' := Option.some.inj (there.symm.trans there')
      rw [Bool.not_eq_true, ← point] at first
      refine ⟨number_longer numeral inside first, ?_, ?_⟩
      · rwa [List.head?_append_of_ne_nil _ numeral.nonempty]
      · rw [contains_point, point]
    · exact .pure ⟨numeral, signed, point⟩

theorem readNumber_returns (neg : Bool) : Returns (Produced src.ns) (readNumber src neg) := by
  refine .skip fun c => .skip fun _ => .skip fun start => (deref_returns c).bind fun byte here =>
    .ite (fun _ => .throw _) fun digit => ?_
  have going : ∀ byte', src.buf.at? c = some byte' →
      Numeral neg ((if neg then [minus] else []) ++ [byte']) false := by
    intro byte' here'
    obtain rfl : byte = byte' := Option.some.inj (here.symm.trans here')
    exact number_first neg (by simpa using digit)
  refine (readNumberLoop_returns neg _ _ _ _ going).bind fun ⟨number, c, floatNum⟩ read =>
    .skip fun byte => .ite (fun _ => ?_) fun _ => ?_
  · exact .skip fun _ => .skip fun loc => .throw _
  · obtain ⟨numeral, signed, point⟩ : Numeral neg number floatNum := read
    subst signed point
    exact .skip fun stop => .pure (.number numeral)

theorem readSymbolLoop_returns (turns : Nat) : ∀ sym c,
    (∀ byte, src.buf.at? c = some byte → ∀ d ∈ sym ++ [byte], isValidForIdentifier d = true) →
    Returns (fun lexeme : Bytes => lexeme ≠ [] ∧ ∀ d ∈ lexeme, isValidForIdentifier d = true)
      (readSymbolLoop src turns sym c) := by
  induction turns with
  | zero => exact fun sym c _ => .throw _
  | succ turns ih =>
    intro sym c valid
    refine (deref_returns c).bind fun byte here => .skip fun c' => .skip fun atEnd =>
      (deref_returns c').bind fun next there => .ite (fun inside => ?_) fun _ => ?_
    · refine .skip fun _ => ih _ _ fun byte' there' => ?_
      obtain rfl : next = byte' := Option.some.inj (there.symm.trans there')
      refine List.forall_mem_append.mpr ⟨valid byte here, List.forall_mem_singleton.mpr ?_⟩
      rw [Bool.and_eq_true] at inside
      exact inside.2
    · exact .pure ⟨by simp, valid byte here⟩

theorem readSymbolName_returns {c : Nat}
    (valid : ∀ byte, src.buf.at? c = some byte → isValidForIdentifier byte = true) :
    Returns (Produced src.ns) (readSymbolName src c) := by
  refine .skip fun _ => (readSymbolLoop_returns _ _ _ ?_).bind fun sym lexeme =>
    .skip fun stop => .pure (.symbol lexeme.1 lexeme.2)
  intro byte here
  exact List.forall_mem_singleton.mpr (valid byte here)

theorem readSymbol_returns : Returns (Produced src.ns) (readSymbol src) := by
  refine .skip fun c => (deref_returns c).bind fun byte here => .skip fun atEnd =>
    .ite (fun _ => ?_) fun valid => ?_
  · exact .skip fun _ => .skip fun loc => .throw _
  · have ident : ∀ byte', src.buf.at? c = some byte' → isValidForIdentifier byte' = true := by
      intro byte' here'
      obtain rfl : byte = byte' := Option.some.inj (here.symm.trans here')
      simp only [Bool.or_eq_true, not_or, Bool.not_eq_true] at valid
      simpa using valid.1.1
    refine .ite (fun _ => .skip fun next => .skip fun second => .ite (fun _ => ?_) fun _ => ?_)
      fun _ => .ite (fun _ => readNumber_returns false) fun _ => readSymbolName_returns ident
    · exact .skip fun _ => readNumber_returns true
    · exact readSymbolName_returns ident

end Tokens

/-- The peek found a byte that is not the end, and the reader has moved up to it. -/
def Enters (src : Source) (r : Reader) (byte : UInt8) (r' : Reader) : Prop :=
  ∃ c, nextChar src true 1 r = .ok c r ∧ isEndOfBuffer src c r = .ok false r ∧
    deref src c r = .ok byte r ∧ advance src true r = .ok () r'

/-- The peek found the end. -/
def Ended (src : Source) (r : Reader) : Prop :=
  ∃ c, nextChar src true 1 r = .ok c r ∧ isEndOfBuffer src c r = .ok true r

section Peeks
variable {src : Source} {r r' s : Reader} {byte : UInt8}

theorem enters_not_ended (enters : Enters src r byte r') : ¬ Ended src r := by
  rintro ⟨c', next', ended⟩
  obtain ⟨c, next, going, -⟩ := enters
  obtain rfl : c = c' := (EStateM.Result.ok.inj (next.symm.trans next')).1
  cases going.symm.trans ended

/-- A method that starts with a peek went one of two ways. -/
theorem peek_cases {α : Type} {f : Nat → Bool → ReaderM α} {a : α}
    (ran : (nextChar src true 1 >>= fun c => isEndOfBuffer src c >>= f c) r = .ok a s) :
    (∃ c, Ended src r ∧ f c true r = .ok a s) ∨
      ∃ c, nextChar src true 1 r = .ok c r ∧ isEndOfBuffer src c r = .ok false r ∧
        f c false r = .ok a s := by
  obtain ⟨c, r₁, next, ran'⟩ := of_bind_ok ran
  obtain rfl : r₁ = r := (nextChar_looks _ _).same next
  obtain ⟨ended, r₂, asked, ran''⟩ := of_bind_ok ran'
  obtain rfl : r₂ = r₁ := (isEndOfBuffer_looks _).same asked
  cases ended with
  | true => exact Or.inl ⟨c, ⟨c, next, asked⟩, ran''⟩
  | false => exact Or.inr ⟨c, next, asked, ran''⟩

/-- Skipping spaces that go on to the end of the memory does not return. -/
theorem skipSpaces_lost {turns k : Nat} (spaces : ∀ d ∈ src.buf.mem.drop k, isspace d = true)
    (c : Nat) : skipSpaces src turns (k + 1) r ≠ .ok c s := by
  induction turns generalizing k with
  | zero =>
    intro ran
    cases ran
  | succ turns ih =>
    intro ran
    cases here : src.buf.mem.drop k with
    | nil =>
      simp only [skipSpaces, deref_none here] at ran
      cases ran
    | cons d rest =>
      have space := spaces d (by simp [here])
      simp only [skipSpaces, deref_drop here, pure_bind, space, if_true] at ran
      refine ih (fun e mem => spaces e ?_) ran
      rw [← List.drop_drop] at mem
      exact List.mem_of_mem_drop mem

/-- The bytes between the cursor and the byte that a peek found. -/
theorem nextChar_found {c : Nat} (next : nextChar src true 1 r = .ok c s) :
    ∃ ws byte rest, ahead src r = ws ++ byte :: rest ∧ (∀ d ∈ ws, isspace d = true) ∧
      isspace byte = false ∧ c = r.currentChar + ws.length + 1 := by
  obtain ⟨ws, rest, split, spaces, stop⟩ := exists_run isspace (ahead src r)
  cases rest with
  | nil =>
    rw [List.append_nil] at split
    refine absurd next ?_
    simp only [nextChar, get_bind, if_true]
    exact skipSpaces_lost (fun d mem => spaces d (split ▸ mem)) c
  | cons byte rest =>
    have noSpace := stop byte rfl
    refine ⟨ws, byte, rest, split, spaces, noSpace, ?_⟩
    exact (EStateM.Result.ok.inj (next.symm.trans (nextChar_spaces split spaces noSpace))).1

/-- The reader moves up to the byte that the peek found. -/
theorem enters_spaces (enters : Enters src r byte r') :
    ∃ ws rest, ahead src r = ws ++ byte :: rest ∧ r' = steps r ws := by
  obtain ⟨c, next, -, looked, moved⟩ := enters
  obtain ⟨ws, b, rest, here, spaces, noSpace, rfl⟩ := nextChar_found next
  rw [deref_drop (drop_after_spaces here)] at looked
  obtain rfl : b = byte := (EStateM.Result.ok.inj looked).1
  rw [advance_spaces here spaces noSpace] at moved
  exact ⟨ws, rest, here, (EStateM.Result.ok.inj moved).2.symm⟩

/-- After a peek that found the end there is nothing to close a list with. -/
theorem readListLoop_ended {expr : ReaderM (Node LocationRange)} (ended : Ended src r)
    (turns : Nat) (loc : LocationRange) (elements : Ast) :
    ∃ stop s, readListLoop src expr (turns + 1) loc elements r = .error (.failed
      ⟨.eofWhileScaningAList, ⟨loc.start, stop⟩, []⟩ .unterminatedList) s := by
  obtain ⟨c, next, asked⟩ := ended
  obtain ⟨ws, byte, rest, here, spaces, noSpace, rfl⟩ := nextChar_found next
  rw [isEndOfBuffer_run (drop_after_spaces here)] at asked
  have failed := readListBody_end expr loc elements here spaces noSpace
    (EStateM.Result.ok.inj asked).1
  exact ⟨_, _, bind_error failed _⟩

theorem readExprBody_cases {list : ReaderM (Node LocationRange)} {node : Node LocationRange}
    (ran : readExprBody src list r = .ok node s) :
    (node = .null ∧ s = r ∧ Ended src r) ∨
      ∃ byte r', Enters src r byte r' ∧
        (if byte = lparen then list else readSymbol src) r' = .ok node s := by
  rcases peek_cases ran with ⟨c, ended, last⟩ | ⟨c, next, going, inside⟩
  · obtain ⟨null, same⟩ := EStateM.Result.ok.inj last
    exact Or.inl ⟨null.symm, same.symm, ended⟩
  · obtain ⟨byte, r₁, looked, entering⟩ := of_bind_ok inside
    obtain rfl : r₁ = r := (deref_looks _).same looked
    obtain ⟨_, r', moved, rest⟩ := of_bind_ok entering
    exact Or.inr ⟨byte, r', ⟨c, next, going, looked, moved⟩, rest⟩

/-- A turn of the loop of `readList` closes the list or appends what `readExpr` returned. -/
theorem readListBody_cases {expr : ReaderM (Node LocationRange)} {loc loc' : LocationRange}
    {elements elements' : Ast} {terminated : Bool}
    (ran : readListBody src expr loc elements r = .ok (loc', elements', terminated) s) :
    (terminated = true ∧ elements' = elements) ∨
      (terminated = false ∧ loc' = loc ∧ ∃ byte r' node, Enters src r byte r' ∧ byte ≠ rparen ∧
        expr r' = .ok node s ∧ elements' = elements ++ [node]) := by
  rcases peek_cases ran with ⟨c, -, failed⟩ | ⟨c, next, going, inside⟩
  · obtain ⟨_, r₁, -, failed⟩ := of_bind_ok failed
    obtain ⟨_, r₂, -, failed⟩ := of_bind_ok failed
    obtain ⟨stop, r₃, -, failed⟩ := of_bind_ok failed
    cases failed
  · obtain ⟨byte, r₁, looked, entering⟩ := of_bind_ok inside
    obtain rfl : r₁ = r := (deref_looks _).same looked
    by_cases close : byte = rparen
    · rw [if_pos close] at entering
      obtain ⟨_, r₂, -, closing⟩ := of_bind_ok entering
      obtain ⟨_, r₃, -, closing⟩ := of_bind_ok closing
      obtain ⟨stop, r₄, -, closing⟩ := of_bind_ok closing
      cases closing
      exact Or.inl ⟨rfl, rfl⟩
    · rw [if_neg close] at entering
      obtain ⟨_, r', moved, reading⟩ := of_bind_ok entering
      obtain ⟨node, r₂, found, last⟩ := of_bind_ok reading
      cases last
      exact Or.inr ⟨rfl, rfl, byte, r', node, ⟨c, next, going, looked, moved⟩, close, found, rfl⟩

end Peeks

section Expressions
variable {src : Source} {r s : Reader} {node : Node LocationRange}

/-- What a reader of expressions returns: a node, or null with nothing left. -/
def NodeOrEnd (src : Source) (r : Reader) (node : Node LocationRange) (s : Reader) : Prop :=
  Produced src.ns node ∨ node = .null ∧ s = r ∧ Ended src r

variable {expr : ReaderM (Node LocationRange)}
  (inner : ∀ r node s, expr r = .ok node s → NodeOrEnd src r node s)
include inner

theorem readListLoop_produced {turns : Nat} {loc : LocationRange} {elements : Ast}
    (all : ∀ e ∈ elements, Produced src.ns e)
    (ran : readListLoop src expr turns loc elements r = .ok node s) : Produced src.ns node := by
  induction turns generalizing loc elements r with
  | zero => cases ran
  | succ turns ih =>
    obtain ⟨⟨loc', elements', terminated⟩, r₁, turned, ran'⟩ := of_bind_ok ran
    rcases readListBody_cases turned with ⟨rfl, rfl⟩ | ⟨rfl, rfl, byte, r', e, -, -, found, rfl⟩
    · rw [← (EStateM.Result.ok.inj ran').1]
      exact .list all
    · rcases inner r' e r₁ found with produced | ⟨rfl, rfl, ended⟩
      · refine ih ?_ ran'
        exact List.forall_mem_append.mpr ⟨all, List.forall_mem_singleton.mpr produced⟩
      · cases turns with
        | zero => cases ran'
        | succ turns =>
          obtain ⟨stop, s', failed⟩ := readListLoop_ended ended turns loc' (elements ++ [.null])
          cases ran'.symm.trans failed

theorem readList_produced (ran : readList src expr r = .ok node s) : Produced src.ns node := by
  obtain ⟨c, r₁, -, ran⟩ := of_bind_ok ran
  obtain ⟨loc, r₂, -, ran⟩ := of_bind_ok ran
  obtain ⟨_, r₃, -, ran⟩ := of_bind_ok ran
  obtain ⟨byte, r₄, -, ran⟩ := of_bind_ok ran
  by_cases opens : byte = lparen
  · rw [if_pos opens] at ran
    exact readListLoop_produced inner (by simp) ran
  · rw [if_neg opens] at ran
    cases ran

end Expressions

theorem readExprBody_nodeOrEnd {src : Source} {list : ReaderM (Node LocationRange)}
    (lists : Returns (Produced src.ns) list) {r s : Reader} {node : Node LocationRange}
    (ran : readExprBody src list r = .ok node s) : NodeOrEnd src r node s := by
  rcases readExprBody_cases ran with ended | ⟨byte, r', -, found⟩
  · exact Or.inr ended
  · left
    by_cases opens : byte = lparen
    · rw [if_pos opens] at found
      exact lists r' node s found
    · rw [if_neg opens] at found
      exact readSymbol_returns r' node s found

theorem readExpr_nodeOrEnd {src : Source} {depth : Nat} {r s : Reader} {node : Node LocationRange}
    (ran : readExpr src depth r = .ok node s) : NodeOrEnd src r node s := by
  induction depth generalizing r s node with
  | zero => exact readExprBody_nodeOrEnd (Returns.throw _) ran
  | succ depth ih =>
    refine readExprBody_nodeOrEnd (fun r node s found => ?_) ran
    exact readList_produced (fun r node s => ih) found

/-- A turn of the loop of `read` leaves the tree as it is and ends the loop, or appends a node. -/
theorem readLoop_cases {src : Source} {depth turns : Nat} {r s : Reader}
    (ran : readLoop src depth (turns + 1) r = .ok () s) :
    s.ast = r.ast ∨ ∃ r' node s', s'.ast = r.ast ∧ node ≠ .null ∧
      readExpr src depth r' = .ok node s' ∧
      readLoop src depth turns { s' with ast := s'.ast ++ [node] } = .ok () s := by
  rw [readLoop] at ran
  by_cases some : 0 < src.buf.size
  · rw [if_pos some] at ran
    rcases peek_cases ran with ⟨c, -, last⟩ | ⟨c, next, going, inside⟩
    · rw [(EStateM.Result.ok.inj last).2]
      exact Or.inl rfl
    · obtain ⟨_, r', moved, reading⟩ := of_bind_ok inside
      obtain ⟨node, s', found, last⟩ := of_bind_ok reading
      have same : s'.ast = r.ast :=
        ((readExpr_advances depth).ast_eq found).trans ((advance_advances true).ast_eq moved)
      cases node with
      | null =>
        rw [← (EStateM.Result.ok.inj last).2]
        exact Or.inl same
      | symbol | number | list => exact Or.inr ⟨r', _, s', same, by simp, found, last⟩
  · rw [if_neg some] at ran
    rw [(EStateM.Result.ok.inj ran).2]
    exact Or.inl rfl

/-- The tree so far has nodes only. -/
theorem readLoop_produced {src : Source} {depth turns : Nat} {r s : Reader}
    (all : ∀ e ∈ r.ast, Produced src.ns e) (ran : readLoop src depth turns r = .ok () s) :
    ∀ e ∈ s.ast, Produced src.ns e := by
  induction turns generalizing r with
  | zero => cases ran
  | succ turns ih =>
    rcases readLoop_cases ran with same | ⟨r', node, s', same, nonnull, found, ran'⟩
    · rwa [same]
    · refine ih ?_ ran'
      rcases readExpr_nodeOrEnd found with produced | ⟨null, -, -⟩
      · rw [same]
        exact List.forall_mem_append.mpr ⟨all, List.forall_mem_singleton.mpr produced⟩
      · exact absurd null nonnull

/-- What `read` returns, from any memory, is made of lexemes, with nodes all the way down. -/
theorem read_produced {buf : StringRef} {ns : Bytes} {filename : Option Bytes} {ast : Ast}
    {r : Reader} (ran : read buf ns filename = .ok ast r) : ∀ node ∈ ast, Produced ns node := by
  obtain ⟨_, s, looped, last⟩ := of_bind_ok ran
  obtain ⟨r', s', same, last⟩ := of_bind_ok last
  obtain ⟨rfl, rfl⟩ := EStateM.Result.ok.inj last
  obtain ⟨rfl, rfl⟩ := EStateM.Result.ok.inj same
  exact @readLoop_produced ⟨buf, ns, filename⟩ _ _ _ _ (by simp [Source.reader]) looped

end ReaderResults
