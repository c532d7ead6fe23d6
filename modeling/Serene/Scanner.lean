import Serene.AstNodes
import Serene.Incremental
import Mathlib.Data.List.TakeWhile

/-!
# The scanner: reading as an incremental machine

What the reader is for, stated without a cursor, a lookahead or a recursion:
one byte at a time, with the open lists on a stack and the token being read in
the mode. A lone `-` stays a symbol until a digit follows it. The locations
recorded are those of the code.
-/

namespace Scanner

open ByteClasses Locations AstNodes Incremental

inductive Mode where
  | between
  | symbol (lexeme : Bytes)
  | number (start : Location) (lexeme : Bytes) (neg floatNum : Bool)

/-- `items` is the sequence being read. An open list is kept with its recorded
start and with the items of the sequence around it, innermost list first. -/
structure Scan where
  tracker : Tracker
  opened : List (Location × Ast)
  items : Ast
  mode : Mode

namespace Scan

/-- In the same sequence, at another place in the text. -/
def reading (s : Scan) (t : Tracker) (mode : Mode) : Scan := ⟨t, s.opened, s.items, mode⟩

/-- The node is complete: it goes to the end of the current sequence. -/
def put (s : Scan) (t : Tracker) (node : Node LocationRange) : Scan :=
  ⟨t, s.opened, s.items ++ [node], .between⟩

/-- End the token being read. -/
def flush (ns : Bytes) (s : Scan) : Scan :=
  match s.mode with
  | .between => s
  | .symbol lexeme =>
    s.put s.tracker (.symbol (Symbol.make ⟨{}, s.tracker.location⟩ lexeme ns))
  | .number start lexeme neg floatNum =>
    s.put s.tracker (.number ⟨⟨start, s.tracker.location⟩, lexeme, neg, floatNum⟩)

def failure (type : ErrorType) (loc : LocationRange) (msg : Bytes) : Except Error Scan :=
  .error ⟨type, loc, msg⟩

def close (s : Scan) (t : Tracker) : Except Error Scan :=
  match s.opened with
  | [] =>
    failure .invalidCharacterForSymbol (.ofStart t.location) (text "An extra ')' is detected.")
  | (start, outer) :: opened =>
    .ok ⟨t, opened, outer ++ [.list ⟨start, t.location⟩ s.items], .between⟩

/-- A byte between tokens. -/
def start (s : Scan) (c : UInt8) : Except Error Scan :=
  let t := s.tracker.step c
  if isspace c then .ok (s.reading t .between)
  else if c = lparen then .ok ⟨t, (s.tracker.location, s.items) :: s.opened, [], .between⟩
  else if c = rparen then s.close t
  else if isdigit c then .ok (s.reading t (.number t.location [c] false false))
  else if isValidForIdentifier c then .ok (s.reading t (.symbol [c]))
  else failure .invalidCharacterForSymbol (.ofStart t.location) []

def step (ns : Bytes) (s : Scan) (c : UInt8) : Except Error Scan :=
  let t := s.tracker.step c
  match s.mode with
  | .between => s.start c
  | .symbol lexeme =>
    if lexeme = [minus] ∧ isdigit c = true then
      .ok (s.reading t (.number t.location (lexeme ++ [c]) true false))
    else if isValidForIdentifier c then .ok (s.reading t (.symbol (lexeme ++ [c])))
    else (s.flush ns).start c
  | .number start lexeme neg floatNum =>
    if isdigit c || c == dot then
      if c == dot && floatNum then failure .twoFloatPoints (.ofStart s.tracker.location) []
      else .ok (s.reading t (.number start (lexeme ++ [c]) neg (floatNum || c == dot)))
    else if isalpha c then failure .invalidDigitForNumber ⟨t.location, start⟩ []
    else (s.flush ns).start c

/-- The input has ended; an open list is reported up to the byte after it. -/
def finish (ns : Bytes) (s : Scan) : Except Error Ast :=
  match s.opened with
  | [] => .ok (s.flush ns).items
  | (start, _) :: _ =>
    .error ⟨.eofWhileScaningAList, ⟨start, (s.tracker.step nul).location⟩, []⟩

end Scan

def scanner (ns : Bytes) : Machine Scan UInt8 Error Ast := ⟨Scan.step ns, Scan.finish ns⟩

def initial (ns : Bytes) (filename : Option Bytes) : Scan := ⟨origin ns filename, [], [], .between⟩

/-- The part of a buffer before the first byte that the reader takes for the end. -/
def body (buf : Bytes) : Bytes := buf.takeWhile fun c => !isEndByte c

theorem body_plain (buf : Bytes) : ∀ c ∈ body buf, isEndByte c = false := by
  intro c hc
  simpa using List.mem_takeWhile_imp hc

theorem body_length_le (buf : Bytes) : (body buf).length ≤ buf.length :=
  (List.takeWhile_prefix _).length_le

theorem body_eq_self {text : Bytes} (plain : ∀ c ∈ text, isEndByte c = false) :
    body text = text := by
  rw [body, List.takeWhile_eq_self_iff]
  intro c hc
  rw [plain c hc]
  rfl

theorem body_append (text more : Bytes) : ∃ v, body (text ++ more) = body text ++ v := by
  rw [body, body, List.takeWhile_append]
  split
  · next whole => exact ⟨body more, by rw [(List.takeWhile_prefix _).eq_of_length whole]; rfl⟩
  · exact ⟨[], (List.append_nil _).symm⟩

variable {ns : Bytes} {s : Scan} {c : UInt8}

@[simp] theorem flush_opened (ns : Bytes) (s : Scan) : (s.flush ns).opened = s.opened := by
  simp only [Scan.flush]
  split <;> rfl

@[simp] theorem flush_tracker (ns : Bytes) (s : Scan) :
    (s.flush ns).tracker = s.tracker := by
  simp only [Scan.flush]
  split <;> rfl

@[simp] theorem flush_mode (ns : Bytes) (s : Scan) : (s.flush ns).mode = .between := by
  simp only [Scan.flush]
  split
  · assumption
  · rfl
  · rfl

theorem flush_between (between : s.mode = .between) : s.flush ns = s := by
  simp only [Scan.flush, between]

theorem step_between (between : s.mode = .between) : s.step ns c = s.start c := by
  simp only [Scan.step, between]

theorem feed_step {s' : Scan} (stepped : s.step ns c = .ok s') (u : Bytes) :
    (scanner ns).feed s (c :: u) = (scanner ns).feed s' u := (scanner ns).feed_cons_ok stepped u

theorem run_fail {e : Error} (failed : s.step ns c = .error e) (u : Bytes) :
    (scanner ns).run s (c :: u) = .error e := (scanner ns).run_cons_error failed u

theorem run_step {s' : Scan} (stepped : s.step ns c = .ok s') (u : Bytes) :
    (scanner ns).run s (c :: u) = (scanner ns).run s' u := (scanner ns).run_cons_ok stepped u

/-- The byte goes on with the token being read. -/
def Takes (s : Scan) (c : UInt8) : Prop :=
  match s.mode with
  | .between => False
  | .symbol _ => isValidForIdentifier c = true
  | .number .. => isdigit c = true ∨ c = dot ∨ isalpha c = true

theorem takes_ident (takes : Takes s c) : isValidForIdentifier c = true := by
  simp only [Takes] at takes
  split at takes
  · cases takes
  · exact takes
  · rcases takes with digit | rfl | letter
    · exact (digit_facts digit).1
    · rfl
    · exact (alpha_facts letter).1

/-- A byte that does not go on with the token ends it first. -/
theorem step_flush (free : ¬ Takes s c) : s.step ns c = (s.flush ns).step ns c := by
  rw [step_between (flush_mode ns s)]
  cases mode : s.mode with
  | between => rw [step_between mode, flush_between mode]
  | symbol lexeme =>
    have noIdent : isValidForIdentifier c = false := by simpa [Takes, mode] using free
    have noDigit : isdigit c = false := by
      cases digit : isdigit c with
      | false => rfl
      | true => rw [(digit_facts digit).1] at noIdent; cases noIdent
    simp [Scan.step, mode, noDigit, noIdent]
  | number start lexeme neg floatNum =>
    have plain : isdigit c = false ∧ c ≠ dot ∧ isalpha c = false := by
      simpa [Takes, mode, not_or] using free
    simp [Scan.step, mode, plain.1, plain.2.1, plain.2.2]

theorem finish_flush (ns : Bytes) (s : Scan) : s.finish ns = (s.flush ns).finish ns := by
  simp only [Scan.finish, flush_opened, flush_tracker, flush_between (flush_mode ns s)]

theorem finish_fails {e : Error} (failed : s.finish ns = .error e) :
    e.type = .eofWhileScaningAList ∧ s.opened ≠ [] := by
  simp only [Scan.finish] at failed
  split at failed
  · cases failed
  · next opened =>
    cases failed
    exact ⟨rfl, by simp [opened]⟩

/-- Where the next byte does not go on with the token, the token may be ended now. -/
theorem run_flush {u : Bytes} (free : ∀ c ∈ u.head?, ¬ Takes s c) :
    (scanner ns).run s u = (scanner ns).run (s.flush ns) u := by
  cases u with
  | nil => exact finish_flush ns s
  | cons c u => exact (scanner ns).run_cons_congr (step_flush (free c rfl)) u

theorem start_space (space : isspace c = true) :
    s.start c = .ok (s.reading (s.tracker.step c) .between) := by
  simp [Scan.start, space]

theorem start_lparen : s.start lparen =
    .ok ⟨s.tracker.step lparen, (s.tracker.location, s.items) :: s.opened, [], .between⟩ := rfl

theorem start_rparen : s.start rparen = s.close (s.tracker.step rparen) := rfl

theorem start_digit (digit : isdigit c = true) : s.start c =
    .ok (s.reading (s.tracker.step c)
      (.number (s.tracker.step c).location [c] false false)) := by
  obtain ⟨noSpace, -, noOpen, noClose⟩ := ident_facts (digit_facts digit).1
  simp [Scan.start, noSpace, noOpen, noClose, digit]

theorem start_ident (ident : isValidForIdentifier c = true) (digit : isdigit c = false) :
    s.start c = .ok (s.reading (s.tracker.step c) (.symbol [c])) := by
  obtain ⟨noSpace, -, noOpen, noClose⟩ := ident_facts ident
  simp [Scan.start, noSpace, noOpen, noClose, digit, ident]

theorem start_invalid (space : isspace c = false) (ident : isValidForIdentifier c = false)
    (noOpen : c ≠ lparen) (noClose : c ≠ rparen) : s.start c =
    .error ⟨.invalidCharacterForSymbol, .ofStart (s.tracker.step c).location, []⟩ := by
  have noDigit : isdigit c = false := by
    cases digit : isdigit c with
    | false => rfl
    | true => rw [(digit_facts digit).1] at ident; cases ident
  simp [Scan.start, Scan.failure, space, ident, noOpen, noClose, noDigit]

section Token
variable {t : Tracker} {lexeme : Bytes} {start : Location} {neg floatNum : Bool}

theorem step_ident (noNumber : ¬ (lexeme = [minus] ∧ isdigit c = true))
    (ident : isValidForIdentifier c = true) : (s.reading t (.symbol lexeme)).step ns c =
    .ok (s.reading (t.step c) (.symbol (lexeme ++ [c]))) := by
  simp only [Scan.step, Scan.reading, noNumber, if_false, ident, if_true]

theorem step_digit (inside : (isdigit c || c == dot) = true)
    (first : (c == dot && floatNum) = false) :
    (s.reading t (.number start lexeme neg floatNum)).step ns c =
      .ok (s.reading (t.step c) (.number start (lexeme ++ [c]) neg (floatNum || c == dot))) := by
  simp only [Scan.step, Scan.reading, inside, first, if_true, Bool.false_eq_true, if_false]

theorem step_point (second : (c == dot && floatNum) = true) :
    (s.reading t (.number start lexeme neg floatNum)).step ns c =
      .error ⟨.twoFloatPoints, .ofStart t.location, []⟩ := by
  have inside : (isdigit c || c == dot) = true := by
    rw [(Bool.and_eq_true_iff.mp second).1, Bool.or_true]
  simp only [Scan.step, Scan.failure, Scan.reading, inside, second, if_true]

theorem step_letter (outside : (isdigit c || c == dot) = false) (letter : isalpha c = true) :
    (s.reading t (.number start lexeme neg floatNum)).step ns c =
      .error ⟨.invalidDigitForNumber, ⟨(t.step c).location, start⟩, []⟩ := by
  simp only [Scan.step, Scan.failure, Scan.reading, outside, letter, if_true, Bool.false_eq_true,
    if_false]

end Token

theorem feed_spaces (s : Scan) (t : Tracker) {ws : Bytes} (spaces : ∀ c ∈ ws, isspace c = true) :
    (scanner ns).feed (s.reading t .between) ws = .ok (s.reading (t.steps ws) .between) := by
  induction ws generalizing t with
  | nil => rfl
  | cons c ws ih =>
    have step : (scanner ns).step (s.reading t .between) c =
        .ok (s.reading (t.step c) .between) := start_space (spaces c List.mem_cons_self)
    rw [(scanner ns).feed_cons_ok step]
    exact ih (t.step c) fun d hd => spaces d (List.mem_cons_of_mem c hd)

end Scanner
