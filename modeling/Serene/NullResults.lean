import Serene.ReaderResults

/-!
# Null never leaves the reader

`readExpr` answers null for the end of the buffer. `read` tests for it and
`readList` does not, but a list that has got a null cannot be closed any more:
whatever the memory holds, the run ends in the error for an open list. The calls
that a run of `read` makes are a relation, so that this is said of every one.
-/

namespace NullResults

open ByteClasses Locations AstNodes ReaderModel ReaderSteps StatefulRuns MethodInvariants
  ReaderRefinement ReaderResults

/-- The calls and the turns of loops that can be under way. -/
inductive Call where
  | top (turns : Nat)
  | expr (depth : Nat)
  | list (depth turns : Nat) (loc : LocationRange) (elements : Ast)

/-- The run of `read` over the memory comes to this call with this reader. -/
inductive Comes (src : Source) : Call → Reader → Prop where
  | start : Comes src (.top src.turns) src.reader
  | topExpr {turns : Nat} {byte : UInt8} {r r' : Reader} (comes : Comes src (.top (turns + 1)) r)
      (some : 0 < src.buf.size) (enters : Enters src r byte r') : Comes src (.expr src.turns) r'
  | topNext {turns : Nat} {byte : UInt8} {r r' s : Reader} {node : Node LocationRange}
      (comes : Comes src (.top (turns + 1)) r) (some : 0 < src.buf.size)
      (enters : Enters src r byte r') (found : readExpr src src.turns r' = .ok node s)
      (nonnull : node ≠ .null) : Comes src (.top turns) { s with ast := s.ast ++ [node] }
  | opened {depth : Nat} {r r' s : Reader} (comes : Comes src (.expr (depth + 1)) r)
      (enters : Enters src r lparen r') (moved : advance src false r' = .ok () s) :
      Comes src (.list depth src.turns (.ofStart r'.currentLocation) []) s
  | element {depth turns : Nat} {loc : LocationRange} {elements : Ast} {byte : UInt8}
      {r r' : Reader} (comes : Comes src (.list depth (turns + 1) loc elements) r)
      (enters : Enters src r byte r') (other : byte ≠ rparen) : Comes src (.expr depth) r'
  | listNext {depth turns : Nat} {loc : LocationRange} {elements : Ast} {byte : UInt8}
      {r r' s : Reader} {node : Node LocationRange}
      (comes : Comes src (.list depth (turns + 1) loc elements) r)
      (enters : Enters src r byte r') (other : byte ≠ rparen)
      (found : readExpr src depth r' = .ok node s) :
      Comes src (.list depth turns loc (elements ++ [node])) s

section Calls
variable {src : Source} {r r' s : Reader} {byte : UInt8}

theorem readExprBody_enters (list : ReaderM (Node LocationRange)) (enters : Enters src r byte r') :
    readExprBody src list r = (if byte = lparen then list else readSymbol src) r' := by
  obtain ⟨c, next, going, looked, moved⟩ := enters
  rw [readExprBody, bind_ok next, bind_ok going]
  simp only [Bool.false_eq_true, if_false]
  rw [bind_ok looked, bind_ok moved]

theorem readListBody_enters (expr : ReaderM (Node LocationRange)) (loc : LocationRange)
    (elements : Ast) (enters : Enters src r byte r') (other : byte ≠ rparen) :
    readListBody src expr loc elements r =
      (expr >>= fun node => pure (loc, elements ++ [node], false)) r' := by
  obtain ⟨c, next, going, looked, moved⟩ := enters
  rw [readListBody, bind_ok next, bind_ok going]
  simp only [Bool.false_eq_true, if_false]
  rw [bind_ok looked, if_neg other, bind_ok moved]

theorem readLoop_fails {depth : Nat} {stop : Stop} (turns : Nat) (some : 0 < src.buf.size)
    (enters : Enters src r byte r') (failed : readExpr src depth r' = .error stop s) :
    readLoop src depth (turns + 1) r = .error stop s := by
  obtain ⟨c, next, going, -, moved⟩ := enters
  rw [readLoop, if_pos some, bind_ok next, bind_ok going]
  simp only [Bool.false_eq_true, if_false]
  rw [bind_ok moved, bind_error failed]

theorem readLoop_next {depth : Nat} {node : Node LocationRange} (turns : Nat)
    (some : 0 < src.buf.size) (enters : Enters src r byte r')
    (found : readExpr src depth r' = .ok node s) (nonnull : node ≠ .null) :
    readLoop src depth (turns + 1) r =
      readLoop src depth turns { s with ast := s.ast ++ [node] } := by
  obtain ⟨c, next, going, -, moved⟩ := enters
  rw [readLoop, if_pos some, bind_ok next, bind_ok going]
  simp only [Bool.false_eq_true, if_false]
  rw [bind_ok moved, bind_ok found]
  cases node with
  | null => exact absurd rfl nonnull
  | symbol | number | list => rfl

theorem readList_opens (expr : ReaderM (Node LocationRange)) (enters : Enters src r lparen r')
    (moved : advance src false r' = .ok () s) :
    readList src expr r' = readListLoop src expr src.turns (.ofStart r'.currentLocation) [] s := by
  obtain ⟨ws, rest, here, rfl⟩ := enters_spaces enters
  have opens : ahead src (steps r ws) = lparen :: rest := ahead_steps here
  rw [advance_run opens] at moved
  rw [← (EStateM.Result.ok.inj moved).2, readList_run expr opens]

/-- The call ends in this error. -/
def Fails (src : Source) (stop : Stop) (s : Reader) : Call → Reader → Prop
  | .top turns, r => readLoop src src.turns turns r = .error stop s
  | .expr depth, r => readExpr src depth r = .error stop s
  | .list depth turns loc elements, r =>
    readListLoop src (readExpr src depth) turns loc elements r = .error stop s

/-- An error of any call is the error of the run. -/
theorem comes_fails {call : Call} {stop : Stop} (comes : Comes src call r)
    (failed : Fails src stop s call r) :
    Reader.read src src.turns src.turns src.reader = .error stop s := by
  induction comes with
  | start => exact bind_error failed _
  | topExpr comes some enters ih => exact ih (readLoop_fails _ some enters failed)
  | topNext comes some enters found nonnull ih =>
    exact ih ((readLoop_next _ some enters found nonnull).trans failed)
  | opened comes enters moved ih =>
    apply ih
    rw [Fails, readExpr, readExprBody_enters _ enters, if_pos rfl, readList_opens _ enters moved]
    exact failed
  | @element depth _ loc elements _ _ _ comes enters other ih =>
    have turned := readListBody_enters (readExpr src depth) loc elements enters other
    exact ih (bind_error (turned.trans (bind_error failed _)) _)
  | @listNext depth _ loc elements _ _ _ _ _ comes enters other found ih =>
    have turned := readListBody_enters (readExpr src depth) loc elements enters other
    exact ih ((bind_ok (turned.trans (bind_ok found _)) _).trans failed)

theorem enters_le (enters : Enters src r byte r') : r.currentChar ≤ r'.currentChar := by
  obtain ⟨ws, rest, -, rfl⟩ := enters_spaces enters
  rw [steps_currentChar]
  exact Nat.le_add_right _ _

/-- A node takes a byte. -/
theorem readExpr_lt {depth : Nat} {node : Node LocationRange} (nonnull : node ≠ .null)
    (found : readExpr src depth r = .ok node s) : r.currentChar < s.currentChar := by
  have body : ∀ list : ReaderM (Node LocationRange), Increasing Reader.currentChar list →
      readExprBody src list r = .ok node s → r.currentChar < s.currentChar := by
    intro list increasing ran
    rcases readExprBody_cases ran with ⟨null, -, -⟩ | ⟨byte, r', enters, ran⟩
    · exact absurd null nonnull
    · refine Nat.lt_of_le_of_lt (enters_le enters) ?_
      exact Increasing.ite increasing readSymbol_increasing r' node s ran
  cases depth with
  | zero => exact body _ (Increasing.throw _) found
  | succ depth => exact body _ (readList_increasing (readExpr_advances depth)) found

/-- The turns of a list last to the end of the memory, unless the list has got a null. -/
def Enough (src : Source) : Call → Reader → Prop
  | .list _ turns _ _, r => src.buf.mem.length + 2 ≤ r.currentChar + turns ∨ Ended src r
  | _, _ => True

theorem comes_enough {call : Call} (comes : Comes src call r) : Enough src call r := by
  induction comes with
  | start | topExpr | topNext | element => trivial
  | opened comes enters moved =>
    left
    obtain ⟨c, rest, -, rfl⟩ := advanceByOne_cases moved
    rw [step_currentChar, Source.turns]
    omega
  | listNext comes enters other found ih =>
    rcases ih with bound | ended
    · rcases readExpr_nodeOrEnd found with produced | ⟨-, same, ended⟩
      · left
        have behind := enters_le enters
        have progress := readExpr_lt (by rintro rfl; cases produced) found
        omega
      · exact Or.inr (same ▸ ended)
    · exact absurd ended (enters_not_ended enters)

theorem ended_inside (ended : Ended src r) : r.currentChar < src.buf.mem.length := by
  obtain ⟨c, next, -⟩ := ended
  obtain ⟨ws, byte, rest, here, -⟩ := nextChar_found next
  have length := congrArg List.length here
  rw [ahead, List.length_drop, List.length_append, List.length_cons] at length
  omega

/-- When a list gets a null it has another turn. -/
theorem turns_left {depth turns : Nat} {loc : LocationRange} {elements : Ast}
    (comes : Comes src (.list depth (turns + 1) loc elements) r) (enters : Enters src r byte r')
    (ended : Ended src r') : ∃ left, turns = left + 1 := by
  have behind := enters_le enters
  have inside := ended_inside ended
  rcases comes_enough comes with bound | ended
  · exact Nat.exists_eq_add_one.mpr (by omega)
  · exact absurd ended (enters_not_ended enters)

end Calls

/-- Reading any slice of any memory. A run that returns a tree returns one without a null at any
depth, so that all of it can be printed. And in every run that comes to a turn of the loop of
`readList` in which `readExpr` answers null, what `read` returns is the error for an open list. -/
theorem no_null_escapes (buf : StringRef) (ns : Bytes) (filename : Option Bytes) :
    (∀ ast r, read buf ns filename = .ok ast r →
      ∀ node ∈ ast, NoNull node ∧ ∃ dump, node.toString = some dump) ∧
    ∀ depth turns loc elements r byte r' s,
      Comes ⟨buf, ns, filename⟩ (.list depth (turns + 1) loc elements) r →
      Enters ⟨buf, ns, filename⟩ r byte r' → byte ≠ rparen →
      readExpr ⟨buf, ns, filename⟩ depth r' = .ok .null s →
      ∃ stop s', read buf ns filename = .error (.failed
        ⟨.eofWhileScaningAList, ⟨loc.start, stop⟩, []⟩ .unterminatedList) s' := by
  constructor
  · intro ast r ran node mem
    have noNull := (read_produced ran node mem).noNull
    exact ⟨noNull, Option.isSome_iff_exists.mp ((toString_isSome node).mpr noNull)⟩
  · intro depth turns loc elements r byte r' s comes enters other found
    rcases readExpr_nodeOrEnd found with produced | ⟨-, rfl, ended⟩
    · cases produced
    · obtain ⟨left, rfl⟩ := turns_left comes enters ended
      obtain ⟨stop, s', failed⟩ := readListLoop_ended ended left loc (elements ++ [.null])
      exact ⟨stop, s', comes_fails (.listNext comes enters other found) failed⟩

/-- The slice `( ` before an `a`: the list goes on, `readExpr` finds the end and answers null. -/
example : outcome (read ⟨text "( a", 2, by decide⟩ [] none) =
    some (.error ⟨.eofWhileScaningAList, ⟨lineCol 1 1, lineCol 1 4⟩, []⟩) := rfl

end NullResults
