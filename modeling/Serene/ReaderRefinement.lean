import Serene.MaximalRuns
import Serene.TokenRefinement

/-!
# The reader refines the scanner

Lists, expressions and the outer loop, from what tokens yield: one call goes
around the loop of `readList` or of `read` for every node, so the inductions are
on the turns, and on the depth of the lists for `readExpr`. What `read` returns
is what the scanner answers.
-/

namespace ReaderRefinement

open ByteClasses Locations AstNodes ReaderModel ReaderSteps StatefulRuns Incremental Scanner
  SealedText TokenRefinement MaximalRuns

/-- The specification of a reader of expressions with at most `depth` open lists. -/
def ExprYields (src : Source) (tail : Bytes) (expr : ReaderM (Node LocationRange))
    (depth : Nat) : Prop :=
  ∀ (b : Scan) (r : Reader) (ws : Bytes) (c : UInt8) (u : Bytes),
    ahead src r = ws ++ c :: (u ++ tail) → (∀ d ∈ ws, isspace d = true) → isspace c = false →
    (c = rparen → b.opened = []) → (c :: u).count lparen ≤ depth →
    Sealed src r.currentChar (b.reading (tracker r) .between) (ws ++ c :: u) tail →
    Yields src tail b (b.reading (tracker r) .between) r (ws ++ c :: u) (expr r)

/-- Inside a list opened at `start` in the sequence of `b`. -/
def inList (b : Scan) (start : Location) (elements : Ast) : Scan :=
  ⟨b.tracker, (start, b.items) :: b.opened, elements, .between⟩

section Expressions
variable {src : Source} {tail : Bytes} {expr : ReaderM (Node LocationRange)} {depth : Nat}

/-- What the loops know after an element: the text goes on behind it, with fewer bytes. -/
theorem after_element {r : Reader} {ws v w w' : Bytes} {c : UInt8} {turns : Nat}
    (here : ahead src r = ws ++ c :: (w ++ tail)) (split : c :: w = v ++ w') (consumed : v ≠ [])
    (nested : (ws ++ c :: w).count lparen ≤ depth) (enough : (ws ++ c :: w).length < turns + 1) :
    ws ++ c :: w = (ws ++ v) ++ w' ∧ ahead src (steps r (ws ++ v)) = w' ++ tail ∧
      w'.count lparen ≤ depth ∧ w'.length < turns := by
  have split' : ws ++ c :: w = (ws ++ v) ++ w' := by rw [split, List.append_assoc]
  have here' : ahead src r = (ws ++ v) ++ (w' ++ tail) := by
    rw [here, ← List.append_assoc, ← split', List.append_assoc]
    rfl
  have length := List.length_pos_of_ne_nil consumed
  rw [split', List.count_append] at nested
  rw [split', List.length_append, List.length_append] at enough
  exact ⟨split', ahead_steps here', by omega, by omega⟩

section ListBody
variable {r : Reader} {ws rest : Bytes} {c : UInt8}

theorem readListBody_end (expr : ReaderM (Node LocationRange)) (loc : LocationRange)
    (elements : Ast) (here : ahead src r = ws ++ c :: rest)
    (spaces : ∀ d ∈ ws, isspace d = true) (noSpace : isspace c = false)
    (ended : atEnd src r c = true) :
    readListBody src expr loc elements r = .error (.failed
      ⟨.eofWhileScaningAList, ⟨loc.start, (step (steps r ws) c).currentLocation⟩, []⟩
      .unterminatedList) (step (steps r ws) c) := by
  rw [readListBody, peek_run here spaces noSpace ended]
  simp only [if_true]
  rw [bind_ok (advance_spaces here spaces noSpace), bind_ok (advance_run (ahead_steps here))]
  rfl

theorem readListBody_close (expr : ReaderM (Node LocationRange)) (loc : LocationRange)
    (elements : Ast) (here : ahead src r = ws ++ rparen :: rest)
    (spaces : ∀ d ∈ ws, isspace d = true) (going : atEnd src r rparen = false) :
    readListBody src expr loc elements r = .ok
      (⟨loc.start, (step (steps r ws) rparen).currentLocation⟩, elements, true)
      (step (steps r ws) rparen) := by
  have noSpace : isspace rparen = false := rfl
  rw [readListBody, peek_run here spaces noSpace going]
  simp only [Bool.false_eq_true, if_false, deref_drop (drop_after_spaces here), pure_bind, if_true]
  rw [bind_ok (advance_spaces here spaces noSpace), bind_ok (advance_run (ahead_steps here))]
  rfl

theorem readListBody_element (expr : ReaderM (Node LocationRange)) (loc : LocationRange)
    (elements : Ast) (here : ahead src r = ws ++ c :: rest)
    (spaces : ∀ d ∈ ws, isspace d = true) (noSpace : isspace c = false)
    (going : atEnd src r c = false) (noClose : c ≠ rparen) :
    readListBody src expr loc elements r =
      (expr >>= fun expr => pure (loc, elements ++ [expr], false)) (steps r ws) := by
  rw [readListBody, peek_run here spaces noSpace going]
  simp only [Bool.false_eq_true, if_false, deref_drop (drop_after_spaces here), pure_bind, noClose]
  rw [bind_ok (advance_spaces here spaces noSpace)]

/-- A list is read from its parenthesis on by the turns of its loop. -/
theorem readList_run (expr : ReaderM (Node LocationRange)) (here : ahead src r = lparen :: rest) :
    readList src expr r = readListLoop src expr src.turns (.ofStart r.currentLocation) []
      (step r lparen) := by
  simp only [readList]
  rw [bind_ok (nextChar_run 1)]
  simp only [getCurrentLocation, bind_assoc, get_bind, pure_bind]
  rw [bind_ok (advance_run here)]
  simp only [deref_next here, pure_bind, if_true]

end ListBody

/-- A list ends with the parenthesis after the spaces. -/
theorem close_yields (b : Scan) {r : Reader} (loc : LocationRange) (elements : Ast) {ws w : Bytes}
    (spaces : ∀ c ∈ ws, isspace c = true)
    (sealed : Sealed src r.currentChar
      ((inList b loc.start elements).reading (tracker r) .between) (ws ++ rparen :: w) tail) :
    Yields src tail b ((inList b loc.start elements).reading (tracker r) .between) r
      (ws ++ rparen :: w)
      (.ok (.list ⟨loc.start, (step (steps r ws) rparen).currentLocation⟩ elements)
        (step (steps r ws) rparen)) := by
  have split : ws ++ rparen :: w = (ws ++ [rparen]) ++ w := by simp
  have last : step (steps r ws) rparen = steps r (ws ++ [rparen]) := by
    rw [steps_append]
    rfl
  have closed : (scanner src.ns).feed
      ((inList b loc.start elements).reading (tracker r) .between) (ws ++ [rparen]) =
      .ok (b.put (tracker (steps r (ws ++ [rparen])))
        (.list ⟨loc.start, (steps r (ws ++ [rparen])).currentLocation⟩ elements)) := by
    rw [Machine.feed_append_ok _ (feed_steps src (inList b loc.start elements) r spaces),
      steps_append]
    rfl
  rw [last]
  refine .node split (fun _ => by simp) (by simp) ?_ ?_
  · rw [split, Machine.run_append_ok _ closed]
  · rw [steps_currentChar]
    exact Sealed.feed (split ▸ sealed) closed

theorem readListLoop_yields (inner : ExprYields src tail expr depth) {turns : Nat} (b : Scan)
    {r : Reader} (loc : LocationRange) (elements : Ast) {u : Bytes}
    (here : ahead src r = u ++ tail) (nested : u.count lparen ≤ depth)
    (enough : u.length < turns)
    (sealed : Sealed src r.currentChar
      ((inList b loc.start elements).reading (tracker r) .between) u tail) :
    Yields src tail b ((inList b loc.start elements).reading (tracker r) .between) r u
      (readListLoop src expr turns loc elements r) := by
  induction turns generalizing r elements u with
  | zero => omega
  | succ turns ih =>
    obtain ⟨ws, rest, rfl, spaces, stop⟩ := exists_run isspace u
    have fed := feed_steps src (inList b loc.start elements) r spaces
    cases rest with
    | nil =>
      rw [List.append_nil] at *
      obtain ⟨e, rest, rfl, isEnd⟩ : ∃ e rest, tail = e :: rest ∧ isEndByte e = true := by
        rcases sealed.ends with terminated | ⟨-, -, safe⟩
        · exact terminated
        · exact absurd (safe _ fed).1 (List.cons_ne_nil _ _)
      rw [readListLoop, bind_error (readListBody_end expr loc elements here spaces
        (end_facts isEnd).2.1 (atEnd_of_end isEnd))]
      exact .error (Machine.run_of_feed _ fed) (by decide) (bound_step (ahead_steps here))
    | cons c w =>
      have noSpace := stop c rfl
      obtain ⟨-, going, sealed'⟩ := sealed.atToken spaces noSpace
      rw [List.append_assoc] at here
      by_cases close : c = rparen
      · subst close
        rw [readListLoop, bind_ok (readListBody_close expr loc elements here spaces going)]
        exact close_yields b loc elements spaces sealed
      · have ran := readListBody_element expr loc elements here spaces noSpace going close
        have inside : (c :: w).count lparen ≤ depth :=
          ((List.sublist_append_right ws _).count_le _).trans nested
        have element := inner (inList b loc.start elements) (steps r ws) [] c w (ahead_steps here)
          (by simp) noSpace (fun h => absurd h close) inside sealed'
        generalize found : expr (steps r ws) = result at element
        cases element with
        | @node v w' node split progress nonnull runs rest =>
          rw [readListLoop, bind_ok (ran.trans (bind_ok found _))]
          have consumed : v ≠ [] := progress rfl
          rw [← steps_append] at runs rest ⊢
          obtain ⟨split', here', nested', enough'⟩ :=
            after_element here split consumed nested enough
          refine Yields.after split' (List.append_ne_nil_of_right_ne_nil ws consumed) ?_
            (ih (elements ++ [node]) here' nested' enough' rest)
          exact (Machine.run_append_ok _ fed _).trans runs
        | error runs reachable bound =>
          rw [readListLoop, bind_error (ran.trans (bind_error found _))]
          exact .error ((Machine.run_append_ok _ fed _).trans runs) reachable bound

theorem readList_yields (inner : ExprYields src tail expr depth) (b : Scan) {r : Reader} {u : Bytes}
    (here : ahead src r = lparen :: (u ++ tail)) (nested : u.count lparen ≤ depth)
    (sealed : Sealed src r.currentChar (b.reading (tracker r) .between) (lparen :: u) tail) :
    Yields src tail b (b.reading (tracker r) .between) r (lparen :: u)
      (readList src expr r) := by
  have stepped : (b.reading (tracker r) .between).step src.ns lparen = .ok
      ((inList b r.currentLocation []).reading ((tracker r).step lparen) .between) := start_lparen
  rw [readList_run expr here]
  exact Yields.cons stepped (readListLoop_yields inner b (.ofStart r.currentLocation) []
    (ahead_step here) nested (spaces_lt_turns (ahead_step here)) (sealed.step stepped))

theorem readExprBody_yields {list : ReaderM (Node LocationRange)}
    (lists : ∀ b r u, ahead src r = lparen :: (u ++ tail) → (lparen :: u).count lparen ≤ depth →
      Sealed src r.currentChar (b.reading (tracker r) .between) (lparen :: u) tail →
      Yields src tail b (b.reading (tracker r) .between) r (lparen :: u) (list r)) :
    ExprYields src tail (readExprBody src list) depth := by
  intro b r ws c u here spaces noSpace atTop nested sealed
  obtain ⟨-, going, sealed'⟩ := sealed.atToken spaces noSpace
  have ran : readExprBody src list r =
      (if c = lparen then list else readSymbol src) (steps r ws) := by
    rw [readExprBody, peek_run here spaces noSpace going]
    simp only [Bool.false_eq_true, if_false, deref_drop (drop_after_spaces here), pure_bind]
    exact bind_ok (advance_spaces here spaces noSpace) _
  rw [ran]
  apply Yields.spaces spaces
  by_cases open_ : c = lparen
  · subst open_
    exact lists b (steps r ws) u (ahead_steps here) nested sealed'
  · rw [if_neg open_]
    exact readSymbol_yields (ahead_steps here) noSpace open_ atTop sealed'

theorem readExpr_yields (src : Source) (tail : Bytes) (depth : Nat) :
    ExprYields src tail (readExpr src depth) depth := by
  induction depth with
  | zero =>
    apply readExprBody_yields
    intro b r u _ nested _
    rw [List.count_cons_self] at nested
    omega
  | succ depth ih =>
    apply readExprBody_yields
    intro b r u here nested sealed
    rw [List.count_cons_self] at nested
    exact readList_yields ih b here (by omega) sealed

/-- At an end byte, or at or past the size, a reader of expressions finds nothing. -/
theorem readExpr_null {r : Reader} {ws : Bytes} {e : UInt8} {rest : Bytes}
    (here : ahead src r = ws ++ e :: rest) (spaces : ∀ d ∈ ws, isspace d = true)
    (noSpace : isspace e = false) (ended : atEnd src r e = true) (depth : Nat) :
    readExpr src depth r = .ok .null r := by
  have null : ∀ list, readExprBody src list r = .ok .null r := by
    intro list
    rw [readExprBody, peek_run here spaces noSpace ended]
    rfl
  cases depth <;> exact null _

/-- The scanner state of a reader between top-level expressions. -/
def topLevel (r : Reader) : Scan := ⟨tracker r, [], r.ast, .between⟩

/-- The reader after the outer loop has kept the node read over `v`. -/
def keep (r : Reader) (v : Bytes) (node : Node LocationRange) : Reader :=
  { steps r v with ast := (steps r v).ast ++ [node] }

theorem topLevel_keep (r : Reader) (v : Bytes) (node : Node LocationRange) :
    topLevel (keep r v node) = (topLevel r).put (tracker (steps r v)) node := by
  simp [topLevel, keep, Scan.put, tracker]

/-- What the loop of `Reader::read` leaves: the tree in the reader, or the error. -/
inductive Reads (src : Source) (s : Scan) (u : Bytes) : EStateM.Result Stop Reader Unit → Prop where
  | ast {r' : Reader} (runs : (scanner src.ns).run s u = .ok r'.ast)
      (bound : r'.currentChar ≤ src.buf.mem.length) : Reads src s u (.ok () r')
  | error {e : Error} {exit : Exit} {r' : Reader} (runs : (scanner src.ns).run s u = .error e)
      (reachable : exit ≠ .notADigit) (bound : r'.currentChar ≤ src.buf.mem.length) :
      Reads src s u (.error (.failed e exit) r')

theorem bound_ahead {r : Reader} {v w : Bytes} (here : ahead src r = v ++ w) (some : w ≠ []) :
    r.currentChar + v.length ≤ src.buf.mem.length := by
  have same := congrArg List.length here
  have length := List.length_pos_of_ne_nil some
  rw [ahead, List.length_drop, List.length_append] at same
  omega

/-- Where the buffer goes on behind its last spaces, the reader is past its size. -/
theorem past_spaces {r : Reader} {s : Scan} {ws ws' rest : Bytes} {e : UInt8}
    (sealed : Sealed src r.currentChar s ws (ws' ++ e :: rest))
    (spaces' : ∀ c ∈ ws', isspace c = true) (going : atEnd src r e = false) :
    atEnd src (steps r (ws ++ ws')) e = true := by
  rw [atEnd, Bool.or_eq_true, decide_eq_true_eq, steps_currentChar, List.length_append]
  right
  rcases sealed.ends with ⟨e', rest', split, isEnd⟩ | ⟨size, -, -⟩
  · cases ws' with
    | nil =>
      rw [List.nil_append] at split
      rw [List.head_eq_of_cons_eq split, atEnd_of_end isEnd] at going
      cases going
    | cons d ws' =>
      have space := spaces' d List.mem_cons_self
      rw [List.head_eq_of_cons_eq split, (end_facts isEnd).2.1] at space
      cases space
  · omega

/-- Only spaces are left: whatever the memory holds after them, the loop ends here. -/
theorem readLoop_spaces {turns : Nat} {r : Reader} {ws : Bytes}
    (here : ahead src r = ws ++ tail) (spaces : ∀ c ∈ ws, isspace c = true)
    (sealed : Sealed src r.currentChar (topLevel r) ws tail) :
    Reads src (topLevel r) ws (readLoop src depth (turns + 1) r) := by
  have runs : (scanner src.ns).run (topLevel r) ws = .ok r.ast :=
    Machine.run_of_feed _ (feed_spaces (topLevel r) (tracker r) spaces)
  obtain ⟨ws', e, rest, rfl, spaces', noSpace⟩ := sealed.stop
  have here' : ahead src r = (ws ++ ws') ++ e :: rest := by rw [here, List.append_assoc]
  have allSpaces : ∀ c ∈ ws ++ ws', isspace c = true := fun c hc =>
    (List.mem_append.mp hc).elim (spaces c) (spaces' c)
  have bound := bound_ahead here' (List.cons_ne_nil e rest)
  by_cases empty : 0 < src.buf.size
  · simp only [readLoop, empty, if_true]
    cases ended : atEnd src r e with
    | true =>
      rw [peek_run here' allSpaces noSpace ended]
      exact .ast runs (by omega)
    | false =>
      have past := past_spaces sealed spaces' ended
      rw [peek_run here' allSpaces noSpace ended]
      simp only [Bool.false_eq_true, if_false]
      rw [bind_ok (advance_spaces here' allSpaces noSpace),
        bind_ok (@readExpr_null src _ [] e rest (ahead_steps here') (by simp) noSpace past depth)]
      refine .ast (by rw [steps_ast]; exact runs) ?_
      rw [steps_currentChar]
      exact bound
  · simp only [readLoop, empty, if_false]
    exact .ast runs (by omega)

/-- The rest of a turn of the loop of `read`, after the expression. -/
def readNext (src : Source) (depth turns : Nat) : Node LocationRange → ReaderM Unit
  | .null => pure ()
  | node => do
    modify fun r => { r with ast := r.ast ++ [node] }
    readLoop src depth turns

/-- An expression is kept, and the loop goes on. -/
theorem readNext_keep {depth turns : Nat} {r : Reader} {v : Bytes} {node : Node LocationRange}
    (nonnull : node ≠ .null) : readNext src depth turns node (steps r v) =
      readLoop src depth turns (keep r v node) := by
  cases node with
  | null => exact absurd rfl nonnull
  | symbol s => rfl
  | number n => rfl
  | list loc elements => rfl

theorem readLoop_reads {turns : Nat} {r : Reader} {u : Bytes} (here : ahead src r = u ++ tail)
    (nested : u.count lparen ≤ depth) (enough : u.length < turns)
    (sealed : Sealed src r.currentChar (topLevel r) u tail) :
    Reads src (topLevel r) u (readLoop src depth turns r) := by
  induction turns generalizing r u with
  | zero => omega
  | succ turns ih =>
    obtain ⟨ws, rest, rfl, spaces, stop⟩ := exists_run isspace u
    cases rest with
    | nil =>
      rw [List.append_nil] at *
      exact readLoop_spaces here spaces sealed
    | cons c w =>
      have noSpace := stop c rfl
      obtain ⟨lt, going, sealed'⟩ := Sealed.atToken (b := topLevel r) sealed spaces noSpace
      rw [List.append_assoc] at here
      have fed := feed_steps src (topLevel r) r spaces
      have inside : (c :: w).count lparen ≤ depth :=
        ((List.sublist_append_right ws _).count_le _).trans nested
      have expression := readExpr_yields src tail depth (topLevel r) (steps r ws) [] c w
        (ahead_steps here) (by simp) noSpace (fun _ => rfl) inside sealed'
      have ran : readLoop src depth (turns + 1) r =
          (readExpr src depth >>= readNext src depth turns) (steps r ws) := by
        simp only [readLoop, Nat.zero_lt_of_lt lt, if_true]
        rw [peek_run here spaces noSpace going]
        simp only [Bool.false_eq_true, if_false]
        exact bind_ok (advance_spaces here spaces noSpace) _
      rw [ran]
      generalize found : readExpr src depth (steps r ws) = result at expression
      cases expression with
      | @node v w' node split progress nonnull runs rest =>
        rw [← steps_append] at runs rest
        rw [bind_ok found, ← steps_append, readNext_keep nonnull]
        obtain ⟨-, here', nested', enough'⟩ :=
          after_element here split (progress rfl) nested enough
        have read : Reads src (topLevel (keep r (ws ++ v) node)) w'
            (readLoop src depth turns (keep r (ws ++ v) node)) :=
          ih here' nested' enough' (topLevel_keep r (ws ++ v) node ▸ rest)
        have last : (scanner src.ns).run (topLevel r) (ws ++ c :: w) =
            (scanner src.ns).run (topLevel (keep r (ws ++ v) node)) w' := by
          rw [topLevel_keep, ← runs]
          exact Machine.run_append_ok _ fed _
        generalize readLoop src depth turns (keep r (ws ++ v) node) = result at read
        cases read with
        | ast runs' bound => exact .ast (last.trans runs') bound
        | error runs' reachable bound => exact .error (last.trans runs') reachable bound
      | error runs reachable bound =>
        rw [bind_error found]
        exact .error ((Machine.run_append_ok _ fed _).trans runs) reachable bound

/-- A run of `Reader::read` that ends where the scanner says. -/
inductive Ends (src : Source) (s : Scan) (u : Bytes) : EStateM.Result Stop Reader Ast → Prop where
  | ast {a : Ast} {r' : Reader} (runs : (scanner src.ns).run s u = .ok a)
      (bound : r'.currentChar ≤ src.buf.mem.length) : Ends src s u (.ok a r')
  | error {e : Error} {exit : Exit} {r' : Reader} (runs : (scanner src.ns).run s u = .error e)
      (reachable : exit ≠ .notADigit) (bound : r'.currentChar ≤ src.buf.mem.length) :
      Ends src s u (.error (.failed e exit) r')

theorem Ends.outcome_eq {s : Scan} {u : Bytes} {result : EStateM.Result Stop Reader Ast}
    (ends : Ends src s u result) : outcome result = some ((scanner src.ns).run s u) := by
  cases ends with
  | ast runs bound => rw [runs]; rfl
  | error runs reachable bound => rw [runs]; rfl

theorem reader_read_ends {turns : Nat} {u : Bytes} (mem : src.buf.mem = u ++ tail)
    (nested : u.count lparen ≤ depth) (enough : u.length < turns)
    (sealed : Sealed src 0 (initial src.ns src.filename) u tail) :
    Ends src (initial src.ns src.filename) u (Reader.read src depth turns src.reader) := by
  have reads := readLoop_reads (r := src.reader) mem nested enough sealed
  rw [Reader.read]
  generalize found : readLoop src depth turns src.reader = result at reads
  cases reads with
  | ast runs bound => rw [bind_ok found]; exact .ast runs bound
  | error runs reachable bound => rw [bind_error found]; exact .error runs reachable bound

end Expressions

/-- Reading a sealed text is a run of the scanner over it. -/
theorem read_sealed (src : Source) {u tail : Bytes} (mem : src.buf.mem = u ++ tail)
    (sealed : Sealed src 0 (initial src.ns src.filename) u tail) :
    outcome (read src.buf src.ns src.filename) =
      some ((scanner src.ns).run (initial src.ns src.filename) u) := by
  have enough : u.length < src.turns := spaces_lt_turns (r := src.reader) mem
  exact (reader_read_ends mem (List.count_le_length.trans enough.le) enough sealed).outcome_eq

theorem read_nulTerminated_ends (buf ns : Bytes) (filename : Option Bytes) {depth turns : Nat}
    (nested : buf.count lparen ≤ depth) (enough : buf.length < turns) :
    Ends ⟨.nulTerminated buf, ns, filename⟩ (initial ns filename) (body buf)
      (Reader.read ⟨.nulTerminated buf, ns, filename⟩ depth turns
        (Source.reader ⟨.nulTerminated buf, ns, filename⟩)) := by
  refine reader_read_ends (body_append_remainder buf).symm ?_ ?_
    (sealed_nulTerminated buf ns filename _)
  · exact ((List.takeWhile_prefix _).sublist.count_le _).trans nested
  · exact (body_length_le buf).trans_lt enough

/-- Reading a terminated buffer is a run of the scanner over its body. -/
theorem read_nulTerminated (buf ns : Bytes) (filename : Option Bytes) :
    outcome (read (.nulTerminated buf) ns filename) =
      some ((scanner ns).run (initial ns filename) (body buf)) :=
  read_sealed (.ofText buf ns filename) (body_append_remainder buf).symm
    (sealed_nulTerminated buf ns filename _)

theorem readsAs_run {buf ns : Bytes} {filename : Option Bytes} {ast : Ast} :
    ReadsAs buf ns filename ast ↔
      (scanner ns).run (initial ns filename) (body buf) = .ok ast := by
  rw [ReadsAs, read_nulTerminated, Option.some_inj]

theorem failsWith_run {buf ns : Bytes} {filename : Option Bytes} {e : Error} :
    FailsWith buf ns filename e ↔
      (scanner ns).run (initial ns filename) (body buf) = .error e := by
  rw [FailsWith, read_nulTerminated, Option.some_inj]

end ReaderRefinement
