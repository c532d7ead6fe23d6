import Serene.Grammar
import Serene.MaximalRuns
import Serene.Scanner

/-!
# The scanner accepts its grammar

Both directions go by places in one text: a derivation from byte `k` to byte `m`
takes the scanner from between tokens at `k` to between tokens at `m`, with the
nodes of the derivation in the sequence being read; and where the scanner gets
over the text, there was a derivation.
-/

namespace ScannerGrammar

open ByteClasses Locations AstNodes Incremental Scanner Grammar MaximalRuns

/-- The range the code records for a node, from the location `loc k` after `k` bytes. -/
def recorded (loc : Nat → Location) : Kind → Span → LocationRange
  | .symbol, (_, stop) => ⟨{}, loc stop⟩
  | .number isNeg, (start, stop) => ⟨loc (start + 1 + isNeg.toNat), loc stop⟩
  | .list, (start, stop) => ⟨loc start, loc stop⟩

/-- The tracker after `k` bytes of the text. -/
def trackerAt (t₀ : Tracker) (text : Bytes) (k : Nat) : Tracker := t₀.steps (text.take k)

def asRead (t₀ : Tracker) (text : Bytes) : Node Span → Node LocationRange :=
  Node.map (recorded fun k => (trackerAt t₀ text k).location)

theorem trackerAt_append {t₀ : Tracker} {text v u : Bytes} {k : Nat} (here : text.drop k = v ++ u) :
    trackerAt t₀ text (k + v.length) = (trackerAt t₀ text k).steps v := by
  rw [trackerAt, List.take_add, here, List.take_left, Tracker.steps_append, trackerAt]

theorem trackerAt_succ {t₀ : Tracker} {text u : Bytes} {c : UInt8} {k : Nat}
    (here : text.drop k = c :: u) : trackerAt t₀ text (k + 1) = (trackerAt t₀ text k).step c :=
  trackerAt_append (v := [c]) here

theorem drop_append {text v u : Bytes} {k : Nat} (here : text.drop k = v ++ u) :
    text.drop (k + v.length) = u := by
  rw [← List.drop_drop, here, List.drop_left]

theorem drop_succ {text u : Bytes} {c : UInt8} {k : Nat} (here : text.drop k = c :: u) :
    text.drop (k + 1) = u := drop_append (v := [c]) here

theorem trackerAt_take {t₀ : Tracker} {text lexeme u : Bytes} {k n : Nat}
    (here : text.drop k = lexeme ++ u) (inside : n ≤ lexeme.length) :
    trackerAt t₀ text (k + n) = (trackerAt t₀ text k).steps (lexeme.take n) := by
  have split : text.drop k = lexeme.take n ++ (lexeme.drop n ++ u) := by
    rw [here, ← List.append_assoc, List.take_append_drop]
  rw [← List.length_take_of_le inside, trackerAt_append split, List.length_take_of_le inside]

theorem contains_point (lexeme : Bytes) (c : UInt8) :
    (lexeme ++ [c]).contains dot = (lexeme.contains dot || c == dot) := by
  simp [beq_eq_decide, eq_comm]

/-- One more byte of a number, and still at most one point. -/
theorem onePoint_append {lexeme : Bytes} {c : UInt8} (onePoint : lexeme.count dot ≤ 1)
    (first : (c == dot && lexeme.contains dot) = false) : (lexeme ++ [c]).count dot ≤ 1 := by
  rw [List.count_append, List.count_singleton]
  split
  · next isDot =>
    rw [isDot, Bool.true_and] at first
    have none := List.count_eq_zero.mpr fun mem => by
      rw [List.contains_iff_mem.mpr mem] at first
      cases first
    omega
  · exact onePoint

/-- A digit, or a `-` and a digit, is a number of its own. -/
theorem number_first (neg : Bool) {digit : UInt8} (isDigit : isdigit digit = true) :
    NumberAt (sign neg ++ [digit]) [] ∧ ((sign neg ++ [digit]).head? == some minus) = neg ∧
      (sign neg ++ [digit]).contains dot = false := by
  obtain ⟨-, -, noMinus, noPoint⟩ := digit_facts isDigit
  have without : dot ∉ sign neg ++ [digit] := by
    have signed : dot ≠ minus := by decide
    cases neg <;> simp [sign, signed, noPoint.symm]
  refine ⟨⟨⟨neg, digit, [], rfl, isDigit, by simp⟩, ?_, by simp, by simp⟩, ?_, ?_⟩
  · rw [List.count_eq_zero.mpr without]
    exact Nat.zero_le 1
  · cases neg <;> simp [sign, noMinus]
  · rw [← Bool.not_eq_true, List.contains_iff_mem]
    exact without

/-- A number goes on with a digit, or with its first point. -/
theorem number_longer {lexeme : Bytes} {c : UInt8} (number : NumberAt lexeme [])
    (inside : (isdigit c || c == dot) = true)
    (first : (c == dot && lexeme.contains dot) = false) : NumberAt (lexeme ++ [c]) [] := by
  obtain ⟨neg, digit, digits, rfl, isDigit, shape⟩ := number.shape
  refine ⟨⟨neg, digit, digits ++ [c], by simp, isDigit, ?_⟩, ?_, by simp, by simp⟩
  · refine List.forall_mem_append.mpr ⟨shape, List.forall_mem_singleton.mpr ?_⟩
    simpa using inside
  · exact onePoint_append number.onePoint first

section Tokens
variable {ns : Bytes} {s : Scan} {t : Tracker} {c : UInt8}

theorem feed_digits (start : Location) (neg : Bool) {lexeme digits : Bytes}
    (shape : ∀ c ∈ digits, isdigit c = true ∨ c = dot)
    (onePoint : (lexeme ++ digits).count dot ≤ 1) :
    (scanner ns).feed (s.reading t (.number start lexeme neg (lexeme.contains dot))) digits =
      .ok (s.reading (t.steps digits)
        (.number start (lexeme ++ digits) neg ((lexeme ++ digits).contains dot))) := by
  induction digits generalizing lexeme t with
  | nil => rw [List.append_nil]; rfl
  | cons c digits ih =>
    have inside : (isdigit c || c == dot) = true := by
      simpa using shape c List.mem_cons_self
    have second : (c == dot && lexeme.contains dot) = false := by
      by_contra both
      rw [Bool.not_eq_false, Bool.and_eq_true, beq_iff_eq, List.contains_iff_mem] at both
      have more := List.count_pos_iff.mpr both.2
      rw [both.1, List.count_append, List.count_cons_self] at onePoint
      omega
    have stepped := @step_digit ns s c t lexeme start neg _ inside second
    rw [← contains_point] at stepped
    rw [feed_step stepped, ih (fun d hd => shape d (List.mem_cons_of_mem c hd))
      (by simpa using onePoint), List.append_assoc]
    rfl

/-- The first byte of a number, or the first two, make a number of the token. -/
theorem feed_first (neg : Bool) {digit : UInt8} (isDigit : isdigit digit = true) :
    (scanner ns).feed (s.reading t .between) (sign neg ++ [digit]) =
      .ok (s.reading (t.steps (sign neg ++ [digit]))
        (.number (t.steps (sign neg ++ [digit])).location (sign neg ++ [digit]) neg false)) := by
  have digitStep : ∀ lexeme : Bytes, lexeme = [minus] →
      (s.reading (t.step minus) (.symbol lexeme)).step ns digit =
        .ok (s.reading ((t.step minus).step digit)
          (.number ((t.step minus).step digit).location (lexeme ++ [digit]) true false)) := by
    intro lexeme dash
    simp only [Scan.step, Scan.reading, dash, isDigit, and_self, if_true]
  cases neg with
  | false =>
    have first : (s.reading t .between).step ns digit = .ok (s.reading (t.step digit)
        (.number (t.step digit).location [digit] false false)) := start_digit isDigit
    exact feed_step first []
  | true =>
    have dash : (s.reading t .between).step ns minus =
        .ok (s.reading (t.step minus) (.symbol [minus])) := start_ident (c := minus) rfl rfl
    exact (feed_step dash [digit]).trans (feed_step (digitStep [minus] rfl) [])

/-- A number is read from its first byte to the end of its lexeme. -/
theorem feed_number {lexeme rest : Bytes} (token : NumberAt lexeme rest) :
    ∃ neg, neg = (lexeme.head? == some minus) ∧ 1 + neg.toNat ≤ lexeme.length ∧
      (scanner ns).feed (s.reading t .between) lexeme = .ok (s.reading (t.steps lexeme)
        (.number (t.steps (lexeme.take (1 + neg.toNat))).location lexeme neg
          (lexeme.contains dot))) := by
  obtain ⟨neg, digit, digits, rfl, isDigit, shape⟩ := token.shape
  obtain ⟨-, -, noMinus, noDot⟩ := digit_facts isDigit
  have split : sign neg ++ digit :: digits = (sign neg ++ [digit]) ++ digits := by simp
  have noPoint : (sign neg ++ [digit]).contains dot = false := by
    have signed : dot ≠ minus := by decide
    cases neg <;> simp [sign, noDot.symm, signed]
  have onePoint := token.onePoint
  rw [split] at onePoint
  have first : (sign neg ++ digit :: digits).take (1 + neg.toNat) = sign neg ++ [digit] := by
    cases neg <;> rfl
  refine ⟨neg, by cases neg <;> simp [sign, noMinus], ?_, ?_⟩
  · cases neg <;> simp [sign]
  · have rest := @feed_digits ns s (t.steps (sign neg ++ [digit]))
      (t.steps (sign neg ++ [digit])).location neg _ _ shape onePoint
    rw [noPoint, ← Tracker.steps_append] at rest
    rw [first, split, (scanner ns).feed_append_ok (feed_first neg isDigit), rest]

theorem feed_ident {lexeme cs : Bytes} (ident : ∀ c ∈ cs, isValidForIdentifier c = true)
    (noNumber : ∀ d ∈ cs.head?, ¬ (lexeme = [minus] ∧ isdigit d = true)) (some : lexeme ≠ []) :
    (scanner ns).feed (s.reading t (.symbol lexeme)) cs =
      .ok (s.reading (t.steps cs) (.symbol (lexeme ++ cs))) := by
  induction cs generalizing lexeme t with
  | nil => rw [List.append_nil]; rfl
  | cons c cs ih =>
    rw [feed_step (step_ident (noNumber c rfl) (ident c List.mem_cons_self)),
      ih (fun d hd => ident d (List.mem_cons_of_mem c hd)) ?_ (by simp), List.append_assoc]
    · rfl
    · rintro d - ⟨short, -⟩
      have length := congrArg List.length short
      have nonempty := List.length_pos_of_ne_nil some
      rw [List.length_append, List.length_singleton, List.length_singleton] at length
      omega

theorem feed_symbol {lexeme rest : Bytes} (token : SymbolAt lexeme rest) :
    (scanner ns).feed (s.reading t .between) lexeme =
      .ok (s.reading (t.steps lexeme) (.symbol lexeme)) := by
  obtain ⟨c, cs, rfl⟩ := List.exists_cons_of_ne_nil token.nonempty
  have noDigit : isdigit c = false := by
    cases digit : isdigit c with
    | false => rfl
    | true => exact absurd (Or.inl digit) token.noNumber
  have first : (s.reading t .between).step ns c =
      .ok (s.reading (t.step c) (.symbol [c])) :=
    start_ident (token.ident c List.mem_cons_self) noDigit
  refine (feed_step first cs).trans ?_
  refine feed_ident (fun d hd => token.ident d (List.mem_cons_of_mem c hd)) ?_ (by simp)
  rintro d hd ⟨dash, digit⟩
  refine token.noNumber (Or.inr ⟨List.head_eq_of_cons_eq dash, d, ?_, digit⟩)
  change (cs ++ rest).head? = some d
  rw [List.head?_append, Option.mem_def.mp hd]
  rfl

end Tokens

section Acceptance
variable {ns text : Bytes} {t₀ : Tracker}

theorem number_free {lexeme rest : Bytes} (token : NumberAt lexeme rest) {s : Scan} {t : Tracker}
    {start : Location} {neg floatNum : Bool} :
    ∀ c ∈ rest.head?, ¬ Takes (s.reading t (.number start lexeme neg floatNum)) c := by
  intro c hc
  obtain ⟨noDigit, noDot⟩ := token.maximal c hc
  simp [Takes, Scan.reading, noDigit, noDot, token.noLetter c hc]

theorem symbol_free {lexeme rest : Bytes} (token : SymbolAt lexeme rest) {s : Scan} {t : Tracker} :
    ∀ c ∈ rest.head?, ¬ Takes (s.reading t (.symbol lexeme)) c := by
  intro c hc
  simp [Takes, Scan.reading, token.maximal c hc]

/-- Between tokens at byte `k`, in some sequence. -/
def atByte (t₀ : Tracker) (text : Bytes) (s : Scan) (k : Nat) (items : Ast) : Scan :=
  ⟨trackerAt t₀ text k, s.opened, items, .between⟩

theorem run_space {k : Nat} {c : UInt8} {u : Bytes} (here : text.drop k = c :: u)
    (space : isspace c = true) (s : Scan) (items : Ast) :
    (scanner ns).run (atByte t₀ text s k items) (c :: u) =
      (scanner ns).run (atByte t₀ text s (k + 1) items) u := by
  refine run_step ?_ u
  rw [atByte, atByte, trackerAt_succ here]
  exact start_space space

theorem run_number {k : Nat} {lexeme u : Bytes} (here : text.drop k = lexeme ++ u)
    (token : NumberAt lexeme u) (s : Scan) (items : Ast) :
    (scanner ns).run (atByte t₀ text s k items) (lexeme ++ u) =
      (scanner ns).run (atByte t₀ text s (k + lexeme.length)
        (items ++ [asRead t₀ text (numberNode (k, k + lexeme.length) lexeme)])) u := by
  obtain ⟨neg, isNeg, first, fed⟩ := @feed_number ns (atByte t₀ text s k items)
    (trackerAt t₀ text k) lexeme u token
  refine ((scanner ns).run_append_ok fed u).trans ((run_flush (number_free token)).trans ?_)
  rw [← trackerAt_append here, ← trackerAt_take here first, isNeg, ← Nat.add_assoc]
  rfl

theorem run_symbol {k : Nat} {lexeme u : Bytes} (here : text.drop k = lexeme ++ u)
    (token : SymbolAt lexeme u) (s : Scan) (items : Ast) :
    (scanner ns).run (atByte t₀ text s k items) (lexeme ++ u) =
      (scanner ns).run (atByte t₀ text s (k + lexeme.length)
        (items ++ [asRead t₀ text (symbolNode ns (k, k + lexeme.length) lexeme)])) u := by
  have fed := @feed_symbol ns (atByte t₀ text s k items) (trackerAt t₀ text k) lexeme u token
  refine ((scanner ns).run_append_ok fed u).trans ((run_flush (symbol_free token)).trans ?_)
  rw [← trackerAt_append here, asRead, symbolNode, Node.map_make]
  rfl

/-- Inside a list that begins at byte `k`. -/
def within (t₀ : Tracker) (text : Bytes) (s : Scan) (k : Nat) (items : Ast) : Scan :=
  ⟨s.tracker, ((trackerAt t₀ text k).location, items) :: s.opened, s.items, s.mode⟩

theorem run_open {k : Nat} {u : Bytes} (here : text.drop k = lparen :: u) (s : Scan) (items : Ast) :
    (scanner ns).run (atByte t₀ text s k items) (lparen :: u) =
      (scanner ns).run (atByte t₀ text (within t₀ text s k items) (k + 1) []) u := by
  refine run_step ?_ u
  rw [atByte, atByte, trackerAt_succ here]
  rfl

theorem run_close {k j : Nat} {v : Bytes} (there : text.drop j = rparen :: v) (s : Scan)
    (items : Ast) (elements : List (Node Span)) :
    (scanner ns).run (atByte t₀ text (within t₀ text s k items) j
        (elements.map (asRead t₀ text))) (rparen :: v) =
      (scanner ns).run (atByte t₀ text s (j + 1)
        (items ++ [asRead t₀ text (.list (k, j + 1) elements)])) v := by
  refine run_step ?_ v
  rw [atByte, atByte, trackerAt_succ there, asRead, Node.map_list, recorded, trackerAt_succ there]
  rfl

/-- Reading what the grammar allows leaves the nodes in the sequence being read. -/
theorem run_exprs (t₀ : Tracker) {k m : Nat} {u w : Bytes} {tree : List (Node Span)}
    (parsed : Exprs ns k u tree m w) (here : text.drop k = u) (s : Scan) (items : Ast) :
    (scanner ns).run (atByte t₀ text s k items) u =
        (scanner ns).run (atByte t₀ text s m (items ++ tree.map (asRead t₀ text))) w ∧
      text.drop m = w := by
  induction parsed generalizing s items with
  | nil => exact ⟨by rw [List.map_nil, List.append_nil], here⟩
  | space space next ih =>
    rw [run_space here space]
    exact ih (drop_succ here) s items
  | number token next ih =>
    obtain ⟨ran, there⟩ := ih (drop_append here) s _
    exact ⟨by rw [run_number here token, ran, List.append_assoc]; rfl, there⟩
  | symbol token next ih =>
    obtain ⟨ran, there⟩ := ih (drop_append here) s _
    exact ⟨by rw [run_symbol here token, ran, List.append_assoc]; rfl, there⟩
  | list inside next ihInside ihNext =>
    obtain ⟨ran, there⟩ := ihInside (drop_succ here) _ []
    obtain ⟨ran', there'⟩ := ihNext (drop_succ there) s _
    refine ⟨?_, there'⟩
    rw [run_open here, ran, List.nil_append, run_close there, ran', List.append_assoc]
    rfl

end Acceptance

section Soundness
variable {ns text : Bytes} {t₀ : Tracker}

/-- A number that the scanner gets over ends as the grammar says. -/
theorem number_of_run {s : Scan} {t : Tracker} {start : Location} {neg : Bool}
    {lexeme u : Bytes} {ast : Ast} (onePoint : lexeme.count dot ≤ 1)
    (ran : (scanner ns).run (s.reading t (.number start lexeme neg (lexeme.contains dot))) u =
      .ok ast) :
    ∃ v w, u = v ++ w ∧ (∀ c ∈ v, isdigit c = true ∨ c = dot) ∧ (lexeme ++ v).count dot ≤ 1 ∧
      (∀ c ∈ w.head?, isdigit c = false ∧ c ≠ dot) ∧ ∀ c ∈ w.head?, isalpha c = false := by
  induction u generalizing lexeme t with
  | nil => exact ⟨[], [], rfl, by simp, by rwa [List.append_nil], by simp, by simp⟩
  | cons c u ih =>
    cases inside : (isdigit c || c == dot) with
    | false =>
      have outside : isdigit c = false ∧ c ≠ dot := by simpa using inside
      refine ⟨[], c :: u, rfl, by simp, by rwa [List.append_nil], ?_, ?_⟩
      · intro d hd
        rwa [← Option.some.inj hd]
      · intro d hd
        rw [← Option.some.inj hd]
        cases letter : isalpha c with
        | false => rfl
        | true => cases ran.symm.trans (run_fail (step_letter inside letter) u)
    | true =>
      cases second : (c == dot && lexeme.contains dot) with
      | true => cases ran.symm.trans (run_fail (step_point second) u)
      | false =>
        rw [run_step (step_digit inside second), ← contains_point] at ran
        obtain ⟨v, w, rfl, shape, count, maximal, noLetter⟩ :=
          ih (onePoint_append onePoint second) ran
        refine ⟨c :: v, w, rfl, fun d hd => ?_, by rwa [List.append_cons], maximal, noLetter⟩
        rcases List.mem_cons.mp hd with rfl | hd
        · simpa using inside
        · exact shape d hd

/-- A text that goes on from between tokens with a token has all of it. -/
theorem token_of_run {s : Scan} {t : Tracker} {c : UInt8} {u : Bytes} {ast : Ast}
    (ran : (scanner ns).run (s.reading t .between) (c :: u) = .ok ast)
    (noSpace : isspace c = false) (noOpen : c ≠ lparen) (noClose : c ≠ rparen) :
    ∃ lexeme w, c :: u = lexeme ++ w ∧ (NumberAt lexeme w ∨ SymbolAt lexeme w) ∧ lexeme ≠ [] := by
  have number : ∀ (neg : Bool) (digit : UInt8) (rest : Bytes), isdigit digit = true →
      c :: u = sign neg ++ digit :: rest →
      ∃ lexeme w, c :: u = lexeme ++ w ∧ (NumberAt lexeme w ∨ SymbolAt lexeme w) ∧ lexeme ≠ [] := by
    intro neg digit rest isDigit split
    have noPoint : (sign neg ++ [digit]).count dot = 0 := by
      have noDot := (digit_facts isDigit).2.2.2
      have signed : minus ≠ dot := by decide
      cases neg <;> simp [sign, noDot, signed]
    have contains : (sign neg ++ [digit]).contains dot = false := by
      rw [← Bool.not_eq_true, List.contains_iff_mem, ← List.count_eq_zero, noPoint]
    rw [split, List.append_cons, (scanner ns).run_append_ok (feed_first neg isDigit),
      ← contains] at ran
    obtain ⟨v, w, rfl, shape, count, maximal, noLetter⟩ := number_of_run (by omega) ran
    refine ⟨sign neg ++ digit :: v, w, by rw [split, List.append_assoc]; rfl, Or.inl ?_, by simp⟩
    exact ⟨⟨neg, digit, v, rfl, isDigit, shape⟩, by rwa [List.append_cons], maximal, noLetter⟩
  cases digit : isdigit c with
  | true => exact number false c u digit rfl
  | false =>
    cases ident : isValidForIdentifier c with
    | false =>
      have failed : (s.reading t .between).step ns c = .error _ :=
        start_invalid noSpace ident noOpen noClose
      cases ran.symm.trans (run_fail failed u)
    | true =>
      by_cases numeric : c = minus ∧ ∃ d ∈ u.head?, isdigit d = true
      · obtain ⟨rfl, d, hd, isDigit⟩ := numeric
        cases u with
        | nil => cases hd
        | cons e u =>
          obtain rfl : e = d := Option.some.inj hd
          exact number true e u isDigit rfl
      · obtain ⟨v, w, rfl, run, maximal⟩ := exists_run isValidForIdentifier u
        refine ⟨c :: v, w, rfl, Or.inr ⟨List.cons_ne_nil c v, ?_, ?_, maximal⟩,
          List.cons_ne_nil c v⟩
        · exact List.forall_mem_cons.mpr ⟨ident, run⟩
        · rintro (isDigit | isMinus)
          · rw [digit] at isDigit
            cases isDigit
          · exact numeric isMinus

/-- What the scanner gets over is a sequence of expressions, up to the end of the text or
of the list around it. -/
theorem exprs_of_run {n : Nat} : ∀ {u : Bytes} {k : Nat} {s : Scan} {items ast : Ast},
    u.length ≤ n → text.drop k = u →
    (scanner ns).run (atByte t₀ text s k items) u = .ok ast →
    ∃ tree m w, Exprs ns k u tree m w ∧ (w = [] ∨ ∃ v, w = rparen :: v) := by
  induction n with
  | zero =>
    intro u k s items ast short _ _
    rw [List.eq_nil_of_length_eq_zero (Nat.le_zero.mp short)]
    exact ⟨[], k, [], .nil, Or.inl rfl⟩
  | succ n ih =>
    intro u k s items ast short here ran
    cases u with
    | nil => exact ⟨[], k, [], .nil, Or.inl rfl⟩
    | cons c u =>
      rw [List.length_cons] at short
      cases space : isspace c with
      | true =>
        rw [run_space here space] at ran
        obtain ⟨tree, m, w, parsed, stop⟩ := ih (by omega) (drop_succ here) ran
        exact ⟨tree, m, w, .space space parsed, stop⟩
      | false =>
        by_cases opening : c = lparen
        · subst opening
          rw [run_open here] at ran
          obtain ⟨elements, j, w, inside, stop⟩ :=
            ih (by omega) (drop_succ here) ran
          obtain ⟨same, there⟩ := run_exprs t₀ inside (drop_succ here)
            (within t₀ text s k items) []
          rw [same, List.nil_append] at ran
          rcases stop with rfl | ⟨v, rfl⟩
          · cases ran
          · rw [run_close there] at ran
            obtain ⟨inner, rfl, -, -⟩ := exprs_spell inside
            rw [List.length_append, List.length_cons] at short
            obtain ⟨tree, m, w, next, stop⟩ :=
              ih (by omega) (drop_succ there) ran
            exact ⟨_, m, w, .list inside next, stop⟩
        · by_cases closing : c = rparen
          · exact ⟨[], k, c :: u, .nil, Or.inr ⟨u, by rw [closing]⟩⟩
          · obtain ⟨lexeme, w, split, token, nonempty⟩ :=
              @token_of_run ns (atByte t₀ text s k items) _ c u ast ran space opening closing
            have length := List.length_pos_of_ne_nil nonempty
            have same := congrArg List.length split
            rw [List.length_cons, List.length_append] at same
            rw [split] at here ran ⊢
            rcases token with number | symbol
            · rw [run_number here number] at ran
              obtain ⟨tree, m, w, parsed, stop⟩ := ih (by omega) (drop_append here) ran
              exact ⟨_, m, w, .number number parsed, stop⟩
            · rw [run_symbol here symbol] at ran
              obtain ⟨tree, m, w, parsed, stop⟩ := ih (by omega) (drop_append here) ran
              exact ⟨_, m, w, .symbol symbol parsed, stop⟩

/-- The texts that the scanner accepts, with what it reads from them. -/
theorem run_iff_parses (ns text : Bytes) (filename : Option Bytes) (ast : Ast) :
    (scanner ns).run (initial ns filename) text = .ok ast ↔
      ∃ tree, Parses ns text tree ∧ ast = tree.map (asRead (origin ns filename) text) := by
  have start : initial ns filename =
      atByte (origin ns filename) text (initial ns filename) 0 [] := rfl
  constructor
  · intro ran
    rw [start] at ran
    obtain ⟨tree, m, w, parsed, stop⟩ := exprs_of_run (Nat.le_refl _) List.drop_zero ran
    obtain ⟨same, there⟩ := run_exprs (origin ns filename) parsed List.drop_zero
      (initial ns filename) []
    rw [same, List.nil_append] at ran
    rcases stop with rfl | ⟨v, rfl⟩
    · obtain ⟨v, split, rfl, -⟩ := exprs_spell parsed
      rw [List.append_nil] at split
      subst split
      rw [Nat.zero_add] at parsed
      exact ⟨tree, parsed, (Except.ok.inj ran).symm⟩
    · cases ran
  · rintro ⟨tree, parsed, rfl⟩
    rw [start, (run_exprs _ parsed rfl (initial ns filename) []).1]
    rfl

end Soundness

end ScannerGrammar
