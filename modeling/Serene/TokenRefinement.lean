import Serene.SealedText

/-!
# Tokens: the reader refines the scanner

Every call of a reading method is matched with a piece of a scanner run: the
bytes the method consumes take the scanner from its state before the call to
the state with the method's node appended, and a method that fails does so
where the scanner run fails, with the same error. Here for numbers and symbols.
-/

namespace TokenRefinement

open ByteClasses Locations AstNodes ReaderModel ReaderSteps StatefulRuns Incremental Scanner
  SealedText

/-- What a reading method yields at the reader `r`, in scanner state `s` with the
text `u` ahead: a node, which goes to the sequence of `b` as the scanner has it,
or the scanner's error. -/
inductive Yields (src : Source) (tail : Bytes) (b s : Scan) (r : Reader) (u : Bytes) :
    EStateM.Result Stop Reader (Node LocationRange) → Prop where
  | node {v w : Bytes} {node : Node LocationRange} (split : u = v ++ w)
      (progress : s.mode = .between → v ≠ []) (nonnull : node ≠ .null)
      (runs : (scanner src.ns).run s u =
        (scanner src.ns).run (b.put (tracker (steps r v)) node) w)
      (rest : Sealed src (steps r v).currentChar (b.put (tracker (steps r v)) node) w tail) :
      Yields src tail b s r u (.ok node (steps r v))
  | error {e : Error} {exit : Exit} {r' : Reader}
      (runs : (scanner src.ns).run s u = .error e) (reachable : exit ≠ .notADigit)
      (bound : r'.currentChar ≤ src.buf.mem.length) :
      Yields src tail b s r u (.error (.failed e exit) r')

section Tokens
variable {src : Source} {tail : Bytes} {b s s' : Scan} {r : Reader} {c : UInt8} {u : Bytes}
variable {res : EStateM.Result Stop Reader (Node LocationRange)}

/-- The cursor takes a byte inside an expression. -/
theorem Yields.cons (stepped : s.step src.ns c = .ok s')
    (yields : Yields src tail b s' (step r c) u res) : Yields src tail b s r (c :: u) res := by
  cases yields with
  | @node v w node split progress nonnull runs rest =>
    refine .node (v := c :: v) (by rw [split]; rfl) (fun _ => List.cons_ne_nil c v) nonnull ?_ rest
    exact ((scanner src.ns).run_cons_ok stepped u).trans runs
  | error runs reachable bound =>
    exact .error (((scanner src.ns).run_cons_ok stepped u).trans runs) reachable bound

/-- The token ends in front of `u`. -/
theorem Yields.token {node : Node LocationRange} (flushed : s.flush src.ns = b.put (tracker r) node)
    (inside : s.mode ≠ .between) (nonnull : node ≠ .null)
    (free : ∀ c ∈ u.head?, ¬ Takes s c) (sealed : Sealed src r.currentChar s u tail) :
    Yields src tail b s r u (.ok node r) :=
  .node (v := []) rfl (fun between => absurd between inside) nonnull
    (flushed ▸ run_flush free) (flushed ▸ sealed.flush free)

theorem bound_step {rest : Bytes} (here : ahead src r = c :: rest) :
    (step r c).currentChar ≤ src.buf.mem.length := by
  have bound := ahead_length here
  rw [step_currentChar, ← bound, List.length_cons]
  omega

theorem symbol_ends {lexeme : Bytes} (free : ∀ c ∈ u.head?, isValidForIdentifier c = false)
    (sealed : Sealed src r.currentChar (b.reading (tracker r) (.symbol lexeme)) u tail) :
    Yields src tail b (b.reading (tracker r) (.symbol lexeme)) r u
      (.ok (.symbol (Symbol.make ⟨{}, r.currentLocation⟩ lexeme src.ns)) r) := by
  refine Yields.token rfl (by simp [Scan.reading]) (by simp) (fun c hc => ?_) sealed
  simp [Takes, Scan.reading, free c hc]

/-- The end of `readSymbol`, from its loop on. -/
theorem symbolLoop_yields {turns c₀ : Nat} (sym : Bytes) {last : UInt8}
    (pointer : deref src c₀ = pure last) (here : ahead src r = u ++ tail)
    (noNumber : ∀ d ∈ u.head?, ¬ (sym ++ [last] = [minus] ∧ isdigit d = true))
    (enough : u.length < turns)
    (sealed : Sealed src r.currentChar (b.reading (tracker r) (.symbol (sym ++ [last]))) u tail) :
    Yields src tail b (b.reading (tracker r) (.symbol (sym ++ [last]))) r u
      ((readSymbolLoop src turns sym c₀ >>= fun sym => do
        let stop ← getCurrentLocation
        pure (.symbol (Symbol.make ⟨{}, stop⟩ sym src.ns))) r) := by
  induction u generalizing r turns c₀ sym last with
  | nil =>
    obtain ⟨turns, rfl⟩ := Nat.exists_eq_add_one.mpr (Nat.zero_lt_of_lt enough)
    obtain ⟨e, rest, rfl, ended⟩ := sealed.ended
    rw [bind_ok (readSymbolLoop_stops pointer here (Or.inl ended))]
    exact symbol_ends (by simp) sealed
  | cons d u ih =>
    obtain ⟨turns, rfl⟩ := Nat.exists_eq_add_one.mpr (Nat.zero_lt_of_lt enough)
    have plain : isEndByte d = false := sealed.plain d List.mem_cons_self
    cases ident : isValidForIdentifier d with
    | false =>
      rw [bind_ok (readSymbolLoop_stops pointer here (Or.inr ident))]
      refine symbol_ends (fun x hx => ?_) sealed
      rw [← Option.some.inj hx, ident]
    | true =>
      have noSpace : isspace d = false := (ident_facts ident).1
      have noDash := noNumber d rfl
      have lt : r.currentChar < src.buf.size := by
        rcases sealed.inBounds.1 with lt | goesOn | spaces
        · exact lt
        · exact absurd goesOn noDash
        · have space := spaces d List.mem_cons_self
          rw [noSpace] at space
          cases space
      rw [bind_congr (readSymbolLoop_continues pointer here (not_atEnd plain lt) ident)]
      have stepped := @step_ident src.ns b d (tracker r) _ noDash ident
      refine Yields.cons stepped (ih _ (deref_next here) (ahead_step here) ?_
        (by rw [List.length_cons] at enough; omega) (sealed.step stepped))
      rintro x - ⟨short, -⟩
      have length := congrArg List.length short
      simp at length

theorem number_ends {start : Location} {lexeme : Bytes} {neg floatNum : Bool}
    (free : ∀ c ∈ u.head?, isdigit c = false ∧ c ≠ dot ∧ isalpha c = false)
    (sealed : Sealed src r.currentChar
      (b.reading (tracker r) (.number start lexeme neg floatNum)) u tail) :
    Yields src tail b (b.reading (tracker r) (.number start lexeme neg floatNum)) r u
      (.ok (.number ⟨⟨start, r.currentLocation⟩, lexeme, neg, floatNum⟩) r) := by
  refine Yields.token rfl (by simp [Scan.reading]) (by simp) (fun c hc => ?_) sealed
  obtain ⟨noDigit, noDot, noAlpha⟩ := free c hc
  simp [Takes, Scan.reading, noDigit, noDot, noAlpha]

/-- The end of `readNumber`, from its loop on. -/
theorem numberLoop_yields {turns c₀ : Nat} {start : Location} {number : Bytes} {last : UInt8}
    {neg floatNum : Bool} (pointer : deref src c₀ = pure last)
    (here : ahead src r = u ++ tail) (enough : u.length < turns)
    (sealed : Sealed src r.currentChar
      (b.reading (tracker r) (.number start (number ++ [last]) neg floatNum)) u tail) :
    Yields src tail b (b.reading (tracker r) (.number start (number ++ [last]) neg floatNum)) r u
      ((readNumberLoop src turns number c₀ floatNum >>= fun
      | (number, c, floatNum) => do
        let byte ← deref src c
        if isalpha byte then
          advance src false
          let loc ← getCurrentLocation
          fail .letterAfterNumber .invalidDigitForNumber ⟨loc, start⟩ []
        else
          let stop ← getCurrentLocation
          pure (.number ⟨⟨start, stop⟩, number, neg, floatNum⟩)) r) := by
  induction u generalizing r turns c₀ number last floatNum with
  | nil =>
    obtain ⟨turns, rfl⟩ := Nat.exists_eq_add_one.mpr (Nat.zero_lt_of_lt enough)
    have terminated : ∃ e rest, tail = e :: rest ∧ isEndByte e = true := by
      rcases sealed.ends with terminated | ⟨-, -, safe⟩
      · exact terminated
      · exact (safe _ rfl).2.elim
    obtain ⟨e, rest, rfl, isEnd⟩ := terminated
    obtain ⟨-, -, noDigit, noAlpha, noDot, -⟩ := end_facts isEnd
    rw [bind_ok (readNumberLoop_stops pointer here (by simp [noDigit, noDot]))]
    simp only [deref_next here, pure_bind, noAlpha]
    exact number_ends (by simp) sealed
  | cons d u ih =>
    obtain ⟨turns, rfl⟩ := Nat.exists_eq_add_one.mpr (Nat.zero_lt_of_lt enough)
    cases inside : (isdigit d || d == dot) with
    | false =>
      obtain ⟨noDigit, noDot⟩ : isdigit d = false ∧ d ≠ dot := by simpa using inside
      rw [bind_ok (readNumberLoop_stops pointer here inside)]
      simp only [deref_next here, pure_bind]
      cases letter : isalpha d with
      | false =>
        refine number_ends (fun x hx => ?_) sealed
        obtain rfl : d = x := Option.some.inj hx
        exact ⟨noDigit, noDot, letter⟩
      | true =>
        simp only [if_true]
        rw [bind_ok (advance_run here)]
        exact .error (run_fail (step_letter inside letter) u) (by decide) (bound_step here)
    | true =>
      cases second : (d == dot && floatNum) with
      | true =>
        rw [bind_error (readNumberLoop_fails pointer here inside second)]
        refine .error (run_fail (step_point second) u) (by decide) ?_
        exact Nat.le_of_succ_le (bound_step here)
      | false =>
        have stepped := @step_digit src.ns b d (tracker r) (number ++ [last]) start neg _ inside
          second
        rw [bind_congr (readNumberLoop_continues pointer here inside second)]
        exact Yields.cons stepped (ih (deref_next here) (ahead_step here)
          (by rw [List.length_cons] at enough; omega) (sealed.step stepped))

theorem readNumber_yields (neg : Bool) {d : UInt8} (digit : isdigit d = true)
    (here : ahead src r = d :: (u ++ tail))
    (sealed : Sealed src (step r d).currentChar (b.reading ((tracker r).step d)
      (.number ((tracker r).step d).location ((if neg then [minus] else []) ++ [d]) neg false))
      u tail) :
    Yields src tail b (b.reading ((tracker r).step d)
      (.number ((tracker r).step d).location ((if neg then [minus] else []) ++ [d]) neg false))
      (step r d) u (readNumber src neg r) := by
  have ran : readNumber src neg r = (readNumberLoop src src.turns (if neg then [minus] else [])
      (r.currentChar + 1) false >>= fun
      | (number, c, floatNum) => do
        let byte ← deref src c
        if isalpha byte then
          advance src false
          let loc ← getCurrentLocation
          fail .letterAfterNumber .invalidDigitForNumber ⟨loc, (step r d).currentLocation⟩ []
        else
          let stop ← getCurrentLocation
          pure (.number ⟨⟨(step r d).currentLocation, stop⟩, number, neg, floatNum⟩))
      (step r d) := by
    simp only [readNumber]
    rw [bind_ok (nextChar_run 1), bind_ok (advance_run here)]
    simp only [getCurrentLocation, bind_assoc, get_bind, pure_bind, deref_next here, digit]
    rfl
  rw [ran]
  exact numberLoop_yields (deref_next here) (ahead_step here)
    (spaces_lt_turns (ahead_step here)) sealed

theorem readSymbolName_yields (here : ahead src r = c :: (u ++ tail))
    (noNumber : ∀ d ∈ u.head?, ¬ (c = minus ∧ isdigit d = true))
    (sealed : Sealed src (step r c).currentChar
      (b.reading ((tracker r).step c) (.symbol [c])) u tail) :
    Yields src tail b (b.reading ((tracker r).step c) (.symbol [c])) (step r c) u
      (readSymbolName src (r.currentChar + 1) r) := by
  rw [readSymbolName, bind_ok (advance_run here)]
  refine symbolLoop_yields [] (deref_next here) (ahead_step here) ?_
    (spaces_lt_turns (ahead_step here)) sealed
  rintro d hd ⟨dash, digit⟩
  exact noNumber d hd ⟨List.head_eq_of_cons_eq dash, digit⟩

/-- The byte two after the cursor, as the lookahead of `readSymbol` finds it. -/
theorem second_byte {t : Tracker} (here : ahead src r = c :: (u ++ tail))
    (sealed : Sealed src (r.currentChar + 1) (b.reading t (.symbol [minus])) u tail) :
    ∃ d, deref src (r.currentChar + 2) = pure d ∧
      (isdigit d = true → ∃ w, u = d :: w) ∧ ∀ x ∈ u.head?, x = d := by
  have next : src.buf.mem.drop (r.currentChar + 1) = u ++ tail := by
    rw [← List.drop_drop]
    change (ahead src r).drop 1 = _
    rw [here]
    rfl
  cases u with
  | cons d w =>
    exact ⟨d, deref_drop next, fun _ => ⟨w, rfl⟩, fun x hx => (Option.some.inj hx).symm⟩
  | nil =>
    rcases sealed.ends with ⟨e, rest, rfl, isEnd⟩ | ⟨-, -, safe⟩
    · have noDigit := (end_facts isEnd).2.2.1
      exact ⟨e, deref_drop next, fun digit => by simp [noDigit] at digit, by simp⟩
    · exact absurd rfl (safe _ rfl).2

theorem readSymbol_yields (here : ahead src r = c :: (u ++ tail)) (noSpace : isspace c = false)
    (noOpen : c ≠ lparen) (atTop : c = rparen → b.opened = [])
    (sealed : Sealed src r.currentChar (b.reading (tracker r) .between) (c :: u) tail) :
    Yields src tail b (b.reading (tracker r) .between) r (c :: u) (readSymbol src r) := by
  have going : atEnd src r c = false :=
    not_atEnd (sealed.plain c List.mem_cons_self) (sealed.lt_size (v := []) rfl noSpace)
  cases ident : isValidForIdentifier c with
  | false =>
    have failed : (scanner src.ns).step (b.reading (tracker r) .between) c =
        .error ⟨.invalidCharacterForSymbol, .ofStart ((tracker r).step c).location,
          if c = rparen then text "An extra ')' is detected." else []⟩ := by
      change (b.reading (tracker r) .between).start c = _
      by_cases close : c = rparen
      · subst close
        simp only [start_rparen, Scan.close, Scan.reading, atTop rfl, if_true]
        rfl
      · rw [start_invalid noSpace ident noOpen close, if_neg close]
        rfl
    rw [readSymbol_invalid here ident]
    exact .error ((scanner src.ns).run_cons_error failed u) (by decide) (bound_step here)
  | true =>
    rw [readSymbol_valid here going ident]
    by_cases dash : c = minus
    · subst dash
      have stepped : (b.reading (tracker r) .between).step src.ns minus =
          .ok (b.reading ((tracker r).step minus) (.symbol [minus])) := start_ident ident rfl
      have sealed' := sealed.step stepped
      obtain ⟨d, second, isHead, head⟩ := second_byte here sealed'
      simp only [if_true]
      rw [bind_ok (nextChar_run 2)]
      simp only [second, pure_bind]
      cases digit : isdigit d with
      | false =>
        refine Yields.cons stepped (readSymbolName_yields here ?_ sealed')
        rintro x hx ⟨-, isDigit⟩
        rw [head x hx, digit] at isDigit
        cases isDigit
      | true =>
        obtain ⟨w, rfl⟩ := isHead digit
        simp only [if_true]
        rw [bind_ok (advance_run here)]
        have stepped' : (b.reading ((tracker r).step minus) (.symbol [minus])).step src.ns d =
            .ok (b.reading (((tracker r).step minus).step d)
              (.number (((tracker r).step minus).step d).location [minus, d] true false)) := by
          simp only [Scan.step, Scan.reading, digit, and_self, if_true]
          rfl
        exact Yields.cons stepped (Yields.cons stepped'
          (readNumber_yields true digit (ahead_step here) (sealed'.step stepped')))
    · rw [if_neg dash]
      cases digit : isdigit c with
      | true =>
        have stepped : (b.reading (tracker r) .between).step src.ns c =
            .ok (b.reading ((tracker r).step c)
              (.number ((tracker r).step c).location [c] false false)) := start_digit digit
        simp only [if_true]
        exact Yields.cons stepped (readNumber_yields false digit here (sealed.step stepped))
      | false =>
        have stepped : (b.reading (tracker r) .between).step src.ns c =
            .ok (b.reading ((tracker r).step c) (.symbol [c])) := start_ident ident digit
        exact Yields.cons stepped (readSymbolName_yields here (fun x _ both => dash both.1)
          (sealed.step stepped))

/-- What comes before an expression, or before a part of it, is consumed first. -/
theorem Yields.after {v w : Bytes} (split : u = v ++ w) (consumed : v ≠ [])
    (runs : (scanner src.ns).run s u = (scanner src.ns).run s' w)
    (yields : Yields src tail b s' (steps r v) w res) : Yields src tail b s r u res := by
  cases yields with
  | @node v' w' node split' progress nonnull runs' rest =>
    rw [← steps_append] at runs' rest ⊢
    refine .node ?_ (fun _ => List.append_ne_nil_of_left_ne_nil consumed v') nonnull
      (runs.trans runs') rest
    rw [split, split', List.append_assoc]
  | error runs' reachable bound => exact .error (runs.trans runs') reachable bound

/-- Spaces in front of an expression take the scanner nowhere. -/
theorem Yields.spaces {ws : Bytes} (spaces : ∀ c ∈ ws, isspace c = true)
    (yields : Yields src tail b (b.reading (tracker (steps r ws)) .between) (steps r ws) u res) :
    Yields src tail b (b.reading (tracker r) .between) r (ws ++ u) res := by
  induction ws generalizing r with
  | nil => exact yields
  | cons c ws ih =>
    have stepped : (b.reading (tracker r) .between).step src.ns c =
        .ok (b.reading ((tracker r).step c) .between) := start_space (spaces c List.mem_cons_self)
    exact Yields.cons stepped (ih (fun d hd => spaces d (List.mem_cons_of_mem c hd)) yields)

end Tokens

end TokenRefinement
