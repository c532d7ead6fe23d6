import Serene.ReaderRefinement

/-!
# The reader stays in its buffer and comes to an end

For a terminated buffer of `n` bytes: no byte outside 0 to `n` is asked for, the
loops and the recursion of lists end within the bytes and the parentheses there
are, and every expression read is a step towards the terminator.
-/

namespace ReaderSafety

open ByteClasses Locations AstNodes ReaderModel ReaderSteps StatefulRuns Scanner SealedText
  TokenRefinement ReaderRefinement MaximalRuns

variable {buf ns : Bytes} {filename : Option Bytes} {r r' : Reader}

theorem ofText_length (buf ns : Bytes) (filename : Option Bytes) :
    (Source.ofText buf ns filename).buf.mem.length = buf.length + 1 := by
  simp [StringRef.nulTerminated]

/-- The text in front of any cursor inside a terminated buffer is sealed. -/
theorem sealed_ahead (ns : Bytes) (filename : Option Bytes) (inside : r.currentChar ≤ buf.length)
    (s : Scan) :
    ahead (.ofText buf ns filename) r =
        body (buf.drop r.currentChar) ++ remainder (buf.drop r.currentChar) ∧
      Sealed (.ofText buf ns filename) r.currentChar s
        (body (buf.drop r.currentChar)) (remainder (buf.drop r.currentChar)) := by
  refine ⟨?_, body_plain _, ?_, Or.inl (remainder_ends _)⟩
  · rw [body_append_remainder]
    exact List.drop_append_of_le_length inside
  · have length := body_length_le (buf.drop r.currentChar)
    rw [List.length_drop] at length
    exact inBounds_of_le (by simp only [StringRef.nulTerminated]; omega)

theorem nested_ahead (buf : Bytes) (k : Nat) :
    (body (buf.drop k)).count lparen ≤ buf.count lparen :=
  ((List.takeWhile_prefix _).sublist.trans (List.drop_sublist k buf)).count_le _

/-- A peek from outside the buffer does not return. -/
theorem nextChar_outside {count : Nat} (outside : buf.length < r.currentChar) :
    nextChar (.ofText buf ns filename) true count r = .error .outOfBounds r := by
  have none : deref (.ofText buf ns filename) (r.currentChar + 1) = throw .outOfBounds :=
    deref_none (List.drop_eq_nil_of_le (by rw [ofText_length]; omega))
  simp only [nextChar, get_bind, if_true, Source.turns, skipSpaces, none]
  rfl

/-- A node comes with the bytes it was read from. -/
theorem yields_moves {src : Source} {tail u : Bytes} {b s : Scan} {node : Node LocationRange}
    (between : s.mode = .between) (yields : Yields src tail b s r u (.ok node r')) :
    r.currentChar < r'.currentChar ∧ r'.currentChar ≤ r.currentChar + u.length := by
  cases yields with
  | @node v w _ split progress _ _ _ =>
    have consumed := List.length_pos_of_ne_nil (progress between)
    rw [split, List.length_append, steps_currentChar]
    omega

/-- In front of a cursor inside the buffer: spaces, and then an end byte or a token. -/
theorem in_front (ns : Bytes) (filename : Option Bytes) (inside : r.currentChar ≤ buf.length) :
    ∃ ws, (∀ d ∈ ws, isspace d = true) ∧
      ((∃ e rest, ahead (.ofText buf ns filename) r = ws ++ e :: rest ∧ isEndByte e = true) ∨
      ∃ c u tail, ahead (.ofText buf ns filename) r = ws ++ c :: (u ++ tail) ∧
        isspace c = false ∧ (c :: u).count lparen ≤ buf.count lparen ∧
        r.currentChar + (ws ++ c :: u).length ≤ buf.length ∧
        Sealed (.ofText buf ns filename) r.currentChar ((topLevel r).reading (tracker r) .between)
          (ws ++ c :: u) tail) := by
  obtain ⟨here, sealed⟩ := sealed_ahead ns filename inside
    ((topLevel r).reading (tracker r) .between)
  have length := body_length_le (buf.drop r.currentChar)
  have count := nested_ahead buf r.currentChar
  rw [List.length_drop] at length
  generalize body (buf.drop r.currentChar) = u at here sealed length count
  obtain ⟨ws, u, rfl, spaces, stop⟩ := exists_run isspace u
  refine ⟨ws, spaces, ?_⟩
  cases u with
  | nil =>
    left
    obtain ⟨e, rest, split, isEnd⟩ := remainder_ends (buf.drop r.currentChar)
    rw [List.append_nil, split] at here
    exact ⟨e, rest, here, isEnd⟩
  | cons c u =>
    right
    rw [List.append_assoc] at here
    refine ⟨c, u, _, here, stop c rfl, ?_, by omega, sealed⟩
    exact ((List.sublist_append_right ws _).count_le _).trans count

/-- An expression found from inside the buffer takes bytes of its text. -/
theorem readExpr_progress {depth : Nat} {node : Node LocationRange}
    (nested : buf.count lparen ≤ depth) (nonnull : node ≠ .null)
    (found : readExpr (.ofText buf ns filename) depth r = .ok node r') :
    r.currentChar < r'.currentChar ∧ r'.currentChar ≤ buf.length := by
  by_cases outside : buf.length < r.currentChar
  · have stopped : ∀ list, readExprBody (.ofText buf ns filename) list r = .error .outOfBounds r :=
      fun list => bind_error (nextChar_outside outside) _
    cases depth <;> cases (stopped _).symm.trans found
  · obtain ⟨ws, spaces, ended | token⟩ := in_front ns filename (not_lt.mp outside)
    · obtain ⟨e, rest, here, isEnd⟩ := ended
      have null := readExpr_null here spaces (end_facts isEnd).2.1 (atEnd_of_end isEnd) depth
      injection null.symm.trans found with same
      exact absurd same.symm nonnull
    · obtain ⟨c, u, tail, here, noSpace, count, length, sealed⟩ := token
      have yields := readExpr_yields _ tail depth _ r ws c u here spaces noSpace (fun _ => rfl)
        (count.trans nested) sealed
      obtain ⟨moved, bound⟩ := yields_moves rfl (found ▸ yields)
      exact ⟨moved, bound.trans length⟩

/-- A turn of the loop of `readList` that goes on has read an element. -/
theorem readListBody_progress {depth : Nat} {loc loc' : LocationRange} {elements elements' : Ast}
    (nested : buf.count lparen ≤ depth)
    (turned : readListBody (.ofText buf ns filename) (readExpr (.ofText buf ns filename) depth)
      loc elements r = .ok (loc', elements', false) r') :
    r.currentChar < r'.currentChar ∧ r'.currentChar ≤ buf.length := by
  by_cases outside : buf.length < r.currentChar
  · cases (bind_error (nextChar_outside outside) _).symm.trans turned
  · obtain ⟨ws, spaces, ended | token⟩ := in_front ns filename (not_lt.mp outside)
    · obtain ⟨e, rest, here, isEnd⟩ := ended
      cases (readListBody_end _ loc elements here spaces (end_facts isEnd).2.1
        (atEnd_of_end isEnd)).symm.trans turned
    · obtain ⟨c, u, tail, here, noSpace, count, length, sealed⟩ := token
      obtain ⟨-, going, sealed'⟩ := sealed.atToken spaces noSpace
      by_cases close : c = rparen
      · subst close
        cases (readListBody_close _ loc elements here spaces going).symm.trans turned
      · have ran := readListBody_element (readExpr (.ofText buf ns filename) depth) loc elements
          here spaces noSpace going close
        obtain ⟨node, r₁, found, last⟩ := of_bind_ok (ran.symm.trans turned)
        obtain rfl : r₁ = r' := (EStateM.Result.ok.inj last).2
        have yields := readExpr_yields _ tail depth (topLevel r) (steps r ws) [] c u
          (ahead_steps here) (by simp) noSpace (fun _ => rfl) (count.trans nested) sealed'
        obtain ⟨moved, bound⟩ := yields_moves rfl (found ▸ yields)
        rw [steps_currentChar] at moved bound
        rw [List.length_append] at length
        rw [List.nil_append] at bound
        omega

/-- The run ended in a return statement that can be reached, the cursor at most at byte `n`. -/
def EndsInside (n : Nat) : EStateM.Result Stop Reader Ast → Prop
  | .ok _ r => r.index ≤ n
  | .error (.failed _ exit) r => exit ≠ .notADigit ∧ r.index ≤ n
  | .error _ _ => False

theorem ends_inside {s : Scan} {u : Bytes} {result : EStateM.Result Stop Reader Ast}
    (ends : Ends (.ofText buf ns filename) s u result) : EndsInside buf.length result := by
  have index : ∀ r : Reader, r.currentChar ≤ (Source.ofText buf ns filename).buf.mem.length →
      r.index ≤ buf.length := by
    intro r bound
    rw [ofText_length] at bound
    rw [Reader.index]
    omega
  cases ends with
  | ast runs bound => exact index _ bound
  | error runs reachable bound => exact ⟨reachable, index _ bound⟩

theorem deref_inside {k : Nat} {byte : UInt8}
    (read : deref (.ofText buf ns filename) k r = .ok byte r') :
    0 ≤ (k : Int) - 1 ∧ (k : Int) - 1 ≤ buf.length := by
  cases k with
  | zero => cases read
  | succ k =>
    by_cases past : (Source.ofText buf ns filename).buf.mem.length ≤ k
    · rw [deref_none (List.drop_eq_nil_of_le past)] at read
      cases read
    · rw [ofText_length] at past
      omega

/-- Reading a terminated buffer of `n` bytes: every byte looked at has an index from
0 to `n`, every move leaves the cursor there, and the run ends in a return statement
other than the first one of `readNumber`, with no assertion failed on the way. -/
theorem read_stays_inside (buf ns : Bytes) (filename : Option Bytes) :
    (∀ k r byte r', deref (.ofText buf ns filename) k r = .ok byte r' →
      0 ≤ (k : Int) - 1 ∧ (k : Int) - 1 ≤ buf.length) ∧
    (∀ r r', advanceByOne (.ofText buf ns filename) r = .ok () r' → r'.index ≤ buf.length) ∧
    (∀ r : Reader, r.currentPos = r.index + 2) ∧
    EndsInside buf.length (read (.nulTerminated buf) ns filename) := by
  refine ⟨?_, ?_, ?_, ?_⟩
  · intro k r byte r' read
    exact deref_inside read
  · intro r r' moved
    have bound := advanceByOne_bound moved
    rw [ofText_length] at bound
    rw [Reader.index]
    omega
  · intro r
    rw [r.currentPos_eq, Reader.index]
    omega
  · have turns : buf.length < Source.turns (.ofText buf ns filename) := by
      rw [Source.turns, ofText_length]
      omega
    exact ends_inside (read_nulTerminated_ends buf ns filename
      (List.count_le_length.trans turns.le) turns)

/-- Reading a terminated buffer ends: with at most `n + 1` turns of the outer loop and
lists nested no deeper than there are parentheses, since an expression takes a byte and
so does a turn of the list loop that is not the last. -/
theorem read_terminates (buf ns : Bytes) (filename : Option Bytes) :
    (∀ depth turns, buf.count lparen ≤ depth → buf.length + 1 ≤ turns →
      ∃ result, outcome (Reader.read (.ofText buf ns filename) depth turns
          (Source.reader (.ofText buf ns filename))) = some result ∧
        outcome (read (.nulTerminated buf) ns filename) = some result) ∧
    (∀ depth r node r', buf.count lparen ≤ depth → node ≠ .null →
      readExpr (.ofText buf ns filename) depth r = .ok node r' →
      r.currentChar < r'.currentChar ∧ r'.index ≤ buf.length) ∧
    (∀ depth r loc elements loc' elements' r', buf.count lparen ≤ depth →
      readListBody (.ofText buf ns filename) (readExpr (.ofText buf ns filename) depth)
        loc elements r = .ok (loc', elements', false) r' →
      r.currentChar < r'.currentChar) := by
  refine ⟨?_, ?_, ?_⟩
  · intro depth turns nested enough
    exact ⟨_, (read_nulTerminated_ends buf ns filename nested enough).outcome_eq,
      read_nulTerminated buf ns filename⟩
  · intro depth r node r' nested nonnull found
    obtain ⟨moved, bound⟩ := readExpr_progress nested nonnull found
    exact ⟨moved, by rw [Reader.index]; omega⟩
  · intro depth r loc elements loc' elements' r' nested turned
    exact (readListBody_progress nested turned).1

end ReaderSafety
