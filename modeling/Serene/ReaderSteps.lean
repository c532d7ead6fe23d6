import Serene.ReaderModel

/-!
# The reader's primitives, evaluated

A reader is moved by `step` for the byte it lands on and by nothing else, so
`steps` of the bytes passed over describes every later state. Each primitive is
evaluated here once, from what the memory holds after the cursor.
-/

namespace ReaderSteps

open ByteClasses Locations AstNodes ReaderModel StatefulRuns

def tracker (r : Reader) : Tracker := ⟨r.currentLocation, r.readEOL⟩

/-- The reader after the cursor has moved onto the byte `c`. -/
def step (r : Reader) (c : UInt8) : Reader where
  currentChar := r.currentChar + 1
  currentPos := r.currentPos + 1
  currentLocation := ((tracker r).step c).location
  readEOL := ((tracker r).step c).readEOL
  ast := r.ast
  currentPos_eq := r.currentPos_bump

def steps (r : Reader) (cs : Bytes) : Reader := cs.foldl step r

@[simp] theorem steps_nil (r : Reader) : steps r [] = r := rfl

@[simp] theorem steps_cons (r : Reader) (c : UInt8) (cs : Bytes) :
    steps r (c :: cs) = steps (step r c) cs := rfl

theorem steps_append (r : Reader) (cs ds : Bytes) :
    steps r (cs ++ ds) = steps (steps r cs) ds := List.foldl_append

@[simp] theorem step_tracker (r : Reader) (c : UInt8) :
    tracker (step r c) = (tracker r).step c := rfl

@[simp] theorem step_currentChar (r : Reader) (c : UInt8) :
    (step r c).currentChar = r.currentChar + 1 := rfl

@[simp] theorem steps_tracker (r : Reader) (cs : Bytes) :
    tracker (steps r cs) = (tracker r).steps cs := by
  induction cs generalizing r with
  | nil => rfl
  | cons c cs ih => exact ih (step r c)

@[simp] theorem steps_currentChar (r : Reader) (cs : Bytes) :
    (steps r cs).currentChar = r.currentChar + cs.length := by
  induction cs generalizing r with
  | nil => rfl
  | cons c cs ih =>
    rw [steps_cons, ih, step_currentChar, List.length_cons]
    omega

@[simp] theorem steps_ast (r : Reader) (cs : Bytes) : (steps r cs).ast = r.ast := by
  induction cs generalizing r with
  | nil => rfl
  | cons c cs ih => exact ih (step r c)

/-- The memory from the byte after the cursor on. -/
def ahead (src : Source) (r : Reader) : Bytes := src.buf.mem.drop r.currentChar

section Primitives
variable {src : Source} {r : Reader} {c : UInt8} {ws rest : Bytes}

theorem ahead_step (here : ahead src r = c :: rest) : ahead src (step r c) = rest := by
  simp only [ahead] at *
  rw [step_currentChar, ← List.drop_drop, here]
  rfl

theorem ahead_steps {cs : Bytes} (here : ahead src r = cs ++ rest) :
    ahead src (steps r cs) = rest := by
  simp only [ahead] at *
  rw [steps_currentChar, ← List.drop_drop, here, List.drop_left]

theorem ahead_length (here : ahead src r = c :: rest) :
    r.currentChar + (c :: rest).length = src.buf.mem.length := by
  have same := congrArg List.length here
  rw [ahead, List.length_drop, List.length_cons] at same
  rw [List.length_cons]
  omega

theorem deref_drop {k : Nat} (here : src.buf.mem.drop k = c :: rest) :
    deref src (k + 1) = pure c := by
  have byte : src.buf.at? (k + 1) = some c := by
    change src.buf.mem[k]? = some c
    rw [← List.head?_drop, here, List.head?_cons]
  simp only [deref, byte]

theorem deref_next (here : ahead src r = c :: rest) :
    deref src (r.currentChar + 1) = pure c := deref_drop here

theorem deref_none {k : Nat} (past : src.buf.mem.drop k = []) :
    deref src (k + 1) = throw .outOfBounds := by
  have byte : src.buf.at? (k + 1) = none := by
    change src.buf.mem[k]? = none
    rw [← List.head?_drop, past, List.head?_nil]
  simp only [deref, byte]

theorem advanceByOne_run (here : ahead src r = c :: rest) :
    advanceByOne src r = .ok () (step r c) := by
  have byte : deref src (r.bump).currentChar = pure c := deref_next here
  simp only [advanceByOne, modify_bind, get_bind, byte, pure_bind]
  by_cases eol : r.readEOL = true <;> by_cases nl : c = newline <;>
    simp [nl, eol, Reader.bump, Reader.nextLine, step, tracker, Tracker.step]

theorem advance_run (here : ahead src r = c :: rest) :
    advance src false r = .ok () (step r c) := advanceByOne_run here

/-- A cursor that has been moved was moved onto a byte. -/
theorem advanceByOne_cases {r' : Reader} (moved : advanceByOne src r = .ok () r') :
    ∃ c rest, ahead src r = c :: rest ∧ r' = step r c := by
  cases here : ahead src r with
  | nil =>
    have none : deref src (r.bump).currentChar = throw .outOfBounds := deref_none here
    simp only [advanceByOne, modify_bind, get_bind, none] at moved
    cases moved
  | cons c rest =>
    rw [advanceByOne_run here] at moved
    exact ⟨c, rest, rfl, (EStateM.Result.ok.inj moved).2.symm⟩

/-- A cursor that has been moved stands on a byte of the memory. -/
theorem advanceByOne_bound {r' : Reader} (moved : advanceByOne src r = .ok () r') :
    r'.currentChar ≤ src.buf.mem.length := by
  obtain ⟨c, rest, here, rfl⟩ := advanceByOne_cases moved
  have bound := ahead_length here
  rw [step_currentChar, ← bound, List.length_cons]
  omega

theorem advanceSpaces_run {turns : Nat} (here : ahead src r = ws ++ c :: rest)
    (spaces : ∀ d ∈ ws, isspace d = true) (stop : isspace c = false)
    (enough : ws.length < turns) : advanceSpaces src turns r = .ok () (steps r ws) := by
  induction ws generalizing r turns with
  | nil =>
    obtain ⟨turns, rfl⟩ := Nat.exists_eq_add_one.mpr (Nat.zero_lt_of_lt enough)
    simp [advanceSpaces, deref_next here, stop]
  | cons d ws ih =>
    obtain ⟨turns, rfl⟩ := Nat.exists_eq_add_one.mpr (Nat.zero_lt_of_lt enough)
    have space := spaces d List.mem_cons_self
    simp only [advanceSpaces, get_bind, deref_next here, pure_bind, space, if_true]
    rw [bind_ok (advanceByOne_run here), steps_cons]
    exact ih (ahead_step here) (fun x hx => spaces x (List.mem_cons_of_mem d hx))
      (by rw [List.length_cons] at enough; omega)

theorem skipSpaces_run {turns k : Nat} (here : src.buf.mem.drop k = ws ++ c :: rest)
    (spaces : ∀ d ∈ ws, isspace d = true) (stop : isspace c = false)
    (enough : ws.length < turns) :
    skipSpaces src turns (k + 1) = pure (k + ws.length + 1) := by
  induction ws generalizing k turns with
  | nil =>
    obtain ⟨turns, rfl⟩ := Nat.exists_eq_add_one.mpr (Nat.zero_lt_of_lt enough)
    simp [skipSpaces, deref_drop here, stop]
  | cons d ws ih =>
    obtain ⟨turns, rfl⟩ := Nat.exists_eq_add_one.mpr (Nat.zero_lt_of_lt enough)
    have space := spaces d List.mem_cons_self
    have next : src.buf.mem.drop (k + 1) = ws ++ c :: rest := by
      rw [← List.drop_drop, here]
      rfl
    simp only [skipSpaces, deref_drop here, pure_bind, space, if_true]
    rw [ih next (fun x hx => spaces x (List.mem_cons_of_mem d hx))
      (by rw [List.length_cons] at enough; omega), List.length_cons]
    congr 1
    omega

theorem spaces_lt_turns (here : ahead src r = ws ++ rest) : ws.length < src.turns := by
  have same := congrArg List.length here
  rw [ahead, List.length_drop, List.length_append] at same
  rw [Source.turns]
  omega

theorem nextChar_spaces (here : ahead src r = ws ++ c :: rest)
    (spaces : ∀ d ∈ ws, isspace d = true) (stop : isspace c = false) :
    nextChar src true 1 r = .ok (r.currentChar + ws.length + 1) r := by
  simp only [nextChar, get_bind, if_true,
    skipSpaces_run here spaces stop (spaces_lt_turns here), pure_run]

theorem nextChar_run (count : Nat) :
    nextChar src false count r = .ok (r.currentChar + count) r := by
  simp [nextChar]

theorem advance_spaces (here : ahead src r = ws ++ c :: rest)
    (spaces : ∀ d ∈ ws, isspace d = true) (stop : isspace c = false) :
    advance src true r = .ok () (steps r ws) := by
  simp only [advance, if_true]
  exact advanceSpaces_run here spaces stop (spaces_lt_turns here)

/-- What `isEndOfBuffer` answers for the byte `c`: it looks at the byte and at the cursor,
not at the peeked pointer. -/
def atEnd (src : Source) (r : Reader) (c : UInt8) : Bool :=
  isEndByte c || decide (src.buf.size ≤ r.currentChar)

theorem atEnd_of_end (isEnd : isEndByte c = true) : atEnd src r c = true := by
  simp [atEnd, isEnd]

theorem not_atEnd (plain : isEndByte c = false) (inside : r.currentChar < src.buf.size) :
    atEnd src r c = false := by
  simp [atEnd, plain, inside]

theorem isEndOfBuffer_run {k : Nat} (here : src.buf.mem.drop k = c :: rest) :
    isEndOfBuffer src (k + 1) r = .ok (atEnd src r c) r := by
  have position : decide (r.currentPos > src.buf.size) =
      decide (src.buf.size ≤ r.currentChar) := by
    rw [r.currentPos_eq]
    exact decide_eq_decide.mpr Nat.lt_succ_iff
  simp only [isEndOfBuffer, deref_drop here, pure_bind, get_bind, pure_run, position]
  congr 1
  exact Bool.or_right_comm _ _ _

theorem drop_after_spaces (here : ahead src r = ws ++ c :: rest) :
    src.buf.mem.drop (r.currentChar + ws.length) = c :: rest := by
  have after := ahead_steps here
  rwa [ahead, steps_currentChar] at after

/-- The peek that readers of expressions start with. -/
theorem peek_run {α : Type} {ended : Bool} (here : ahead src r = ws ++ c :: rest)
    (spaces : ∀ d ∈ ws, isspace d = true) (stop : isspace c = false)
    (answer : atEnd src r c = ended) (f : Nat → Bool → ReaderM α) :
    (nextChar src true 1 >>= fun c => isEndOfBuffer src c >>= f c) r =
      f (r.currentChar + ws.length + 1) ended r := by
  rw [bind_ok (nextChar_spaces here spaces stop),
    bind_ok (isEndOfBuffer_run (drop_after_spaces here)), answer]

section Turns
variable {turns c₀ : Nat} {sym number : Bytes} {last : UInt8} {floatNum : Bool}

theorem readSymbolLoop_stops (pointer : deref src c₀ = pure last) (here : ahead src r = c :: rest)
    (stops : atEnd src r c = true ∨ isValidForIdentifier c = false) :
    readSymbolLoop src (turns + 1) sym c₀ r = .ok (sym ++ [last]) r := by
  simp only [readSymbolLoop, pointer, pure_bind]
  rw [bind_ok (nextChar_run 1), bind_ok (isEndOfBuffer_run here), deref_next here]
  rcases stops with ended | other
  · simp [ended]
  · simp [other]

theorem readSymbolLoop_continues (pointer : deref src c₀ = pure last)
    (here : ahead src r = c :: rest) (going : atEnd src r c = false)
    (ident : isValidForIdentifier c = true) :
    readSymbolLoop src (turns + 1) sym c₀ r =
      readSymbolLoop src turns (sym ++ [last]) (r.currentChar + 1) (step r c) := by
  have noSpace : isspace c = false := (ident_facts ident).1
  simp only [readSymbolLoop, pointer, pure_bind]
  rw [bind_ok (nextChar_run 1), bind_ok (isEndOfBuffer_run here), deref_next here]
  simp only [going, pure_bind, noSpace, ident, Bool.not_false, Bool.and_self, if_true]
  exact bind_ok (advance_run here) _

theorem readNumberLoop_stops (pointer : deref src c₀ = pure last) (here : ahead src r = c :: rest)
    (outside : (isdigit c || c == dot) = false) :
    readNumberLoop src (turns + 1) number c₀ floatNum r =
      .ok (number ++ [last], r.currentChar + 1, floatNum) r := by
  simp only [readNumberLoop, pointer, pure_bind]
  rw [bind_ok (nextChar_run 1), deref_next here]
  simp only [pure_bind, outside]
  rfl

theorem readNumberLoop_fails (pointer : deref src c₀ = pure last) (here : ahead src r = c :: rest)
    (inside : (isdigit c || c == dot) = true) (second : (c == dot && floatNum) = true) :
    readNumberLoop src (turns + 1) number c₀ floatNum r = .error
      (.failed ⟨.twoFloatPoints, .ofStart r.currentLocation, []⟩ .secondPoint) r := by
  simp only [readNumberLoop, pointer, pure_bind]
  rw [bind_ok (nextChar_run 1), deref_next here]
  simp only [pure_bind, inside, second, if_true]
  rfl

theorem readNumberLoop_continues (pointer : deref src c₀ = pure last)
    (here : ahead src r = c :: rest) (inside : (isdigit c || c == dot) = true)
    (first : (c == dot && floatNum) = false) :
    readNumberLoop src (turns + 1) number c₀ floatNum r =
      readNumberLoop src turns (number ++ [last]) (r.currentChar + 1) (floatNum || c == dot)
        (step r c) := by
  simp only [readNumberLoop, pointer, pure_bind]
  rw [bind_ok (nextChar_run 1), deref_next here]
  simp only [pure_bind, inside, first, if_true]
  exact bind_ok (advance_run here) _

end Turns

theorem readSymbol_invalid (here : ahead src r = c :: rest)
    (invalid : isValidForIdentifier c = false) :
    readSymbol src r = .error (.failed ⟨.invalidCharacterForSymbol,
      .ofStart ((tracker r).step c).location,
      if c = rparen then text "An extra ')' is detected." else []⟩ .invalidCharacter)
      (step r c) := by
  simp only [readSymbol]
  rw [bind_ok (nextChar_run 1)]
  simp only [deref_next here, pure_bind]
  rw [bind_ok (isEndOfBuffer_run here)]
  simp only [invalid, Bool.not_false, Bool.true_or, if_true]
  rw [bind_ok (advance_run here)]
  rfl

theorem readSymbol_valid (here : ahead src r = c :: rest) (going : atEnd src r c = false)
    (ident : isValidForIdentifier c = true) :
    readSymbol src r = (if c = minus then do
        let next ← nextChar src false 2
        let second ← deref src next
        if isdigit second then
          advance src false
          readNumber src true
        else readSymbolName src (r.currentChar + 1)
      else if isdigit c then readNumber src false
      else readSymbolName src (r.currentChar + 1)) r := by
  simp only [readSymbol]
  rw [bind_ok (nextChar_run 1)]
  simp only [deref_next here, pure_bind]
  rw [bind_ok (isEndOfBuffer_run here)]
  simp [ident, going, (ident_facts ident).1]

end Primitives

end ReaderSteps
