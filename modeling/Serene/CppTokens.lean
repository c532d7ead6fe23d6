import Mathlib.Data.List.Basic

/-!
# Tokens of C++ code

The tokens of a text by the rules of C++: line breaks and spliced lines first,
then words, single punctuation bytes, comments, and ordinary string literals
with their escapes. Character literals and literals with a prefix are not read.
-/

namespace CppTokens

abbrev quote : UInt8 := 34
abbrev apostrophe : UInt8 := 39
abbrev star : UInt8 := 42
abbrev slash : UInt8 := 47
abbrev backslash : UInt8 := 92
abbrev newline : UInt8 := 10
abbrev carriageReturn : UInt8 := 13

/-- Each `a` followed by a `b`, from the left, is replaced. -/
def replacePairs (a b : UInt8) (r : List UInt8) : List UInt8 → List UInt8
  | x :: y :: rest =>
    if x = a ∧ y = b then r ++ replacePairs a b r rest
    else x :: replacePairs a b r (y :: rest)
  | bytes => bytes

/-- Every line break is made a newline. -/
def lineBreaks (bytes : List UInt8) : List UInt8 :=
  (replacePairs carriageReturn newline [newline] bytes).map fun b =>
    if b = carriageReturn then newline else b

/-- The bytes after the second phase of translation, with spliced lines joined. -/
def logicalLines (bytes : List UInt8) : List UInt8 :=
  replacePairs backslash newline [] (lineBreaks bytes)

inductive Token where
  | word (bytes : List UInt8)
  | punct (byte : UInt8)
  | string (content : List UInt8)
deriving DecidableEq

/-- Where the lexer is. A literal has the bytes decoded so far, an escape in it the value of its
digits and how many may or must follow. -/
inductive Mode where
  | code
  | word (bytes : List UInt8)
  | slash
  | lineComment
  | blockComment
  | blockStar
  | literal (s : List UInt8)
  | escape (s : List UInt8)
  | octal (s : List UInt8) (value left : Nat)
  | hex (s : List UInt8) (value : Option Nat)
  | universal (s : List UInt8) (value left : Nat)

structure Lexer where
  tokens : List Token
  mode : Mode

def isBlank (b : UInt8) : Bool := b == 32 || (9 ≤ b && b ≤ 12)

def isDigit (b : UInt8) : Bool := 48 ≤ b && b ≤ 57

/-- Letters, digits, the underscore, and what is not ASCII. -/
def isWord (b : UInt8) : Bool :=
  isDigit b || (65 ≤ b && b ≤ 90) || (97 ≤ b && b ≤ 122) || b == 95 || 128 ≤ b

def octalDigit (b : UInt8) : Option Nat :=
  if 48 ≤ b ∧ b ≤ 55 then some (b.toNat - 48) else none

def hexDigit (b : UInt8) : Option Nat :=
  if isDigit b then some (b.toNat - 48)
  else if 65 ≤ b ∧ b ≤ 70 then some (b.toNat - 55)
  else if 97 ≤ b ∧ b ≤ 102 then some (b.toNat - 87)
  else none

/-- What a byte means after a backslash, where it is one byte. -/
def simpleEscape (b : UInt8) : Option UInt8 :=
  List.lookup b [(39, 39), (34, 34), (63, 63), (92, 92), (97, 7), (98, 8), (102, 12), (110, 10),
    (114, 13), (116, 9), (118, 11)]

def utf8 (value : Nat) : Option (List UInt8) :=
  if value.isValidChar then some (String.utf8EncodeChar (Char.ofNat value)) else none

def codeStep (tokens : List Token) (b : UInt8) : Option Lexer :=
  if isBlank b then some ⟨tokens, .code⟩
  else if isWord b then some ⟨tokens, .word [b]⟩
  else if b = quote then some ⟨tokens, .literal []⟩
  else if b = apostrophe then none
  else if b = slash then some ⟨tokens, .slash⟩
  else some ⟨tokens ++ [.punct b], .code⟩

def literalStep (tokens : List Token) (s : List UInt8) (b : UInt8) : Option Lexer :=
  if b = quote then some ⟨tokens ++ [.string s], .code⟩
  else if b = backslash then some ⟨tokens, .escape s⟩
  else if b = newline then none
  else some ⟨tokens, .literal (s ++ [b])⟩

def escapeStep (tokens : List Token) (s : List UInt8) (b : UInt8) : Option Lexer :=
  if b = 120 then some ⟨tokens, .hex s none⟩
  else if b = 117 then some ⟨tokens, .universal s 0 4⟩
  else if b = 85 then some ⟨tokens, .universal s 0 8⟩
  else match octalDigit b with
    | some digit => some ⟨tokens, .octal s digit 2⟩
    | none => (simpleEscape b).map fun c => ⟨tokens, .literal (s ++ [c])⟩

/-- The byte after the digits of an escape, whose value must be one byte. -/
def afterDigits (tokens : List Token) (s : List UInt8) (value : Nat) (b : UInt8) : Option Lexer :=
  if value < 256 then literalStep tokens (s ++ [value.toUInt8]) b else none

def step (l : Lexer) (b : UInt8) : Option Lexer :=
  match l.mode with
  | .code => codeStep l.tokens b
  | .word bytes =>
    if isWord b then some ⟨l.tokens, .word (bytes ++ [b])⟩
    -- A prefix: no ordinary literal starts here.
    else if b = quote then none
    else codeStep (l.tokens ++ [.word bytes]) b
  | .slash =>
    if b = slash then some ⟨l.tokens, .lineComment⟩
    else if b = star then some ⟨l.tokens, .blockComment⟩
    else codeStep (l.tokens ++ [.punct slash]) b
  | .lineComment => some ⟨l.tokens, if b = newline then .code else .lineComment⟩
  | .blockComment => some ⟨l.tokens, if b = star then .blockStar else .blockComment⟩
  | .blockStar =>
    some ⟨l.tokens,
      if b = slash then .code else if b = star then .blockStar else .blockComment⟩
  | .literal s => literalStep l.tokens s b
  | .escape s => escapeStep l.tokens s b
  | .octal s value left =>
    match octalDigit b, left with
    | some digit, left + 1 => some ⟨l.tokens, .octal s (8 * value + digit) left⟩
    | _, _ => afterDigits l.tokens s value b
  | .hex s value =>
    match hexDigit b, value with
    | some digit, value => some ⟨l.tokens, .hex s (some (16 * value.getD 0 + digit))⟩
    | none, some value => afterDigits l.tokens s value b
    | none, none => none
  | .universal s value left =>
    match hexDigit b with
    | none => none
    | some digit =>
      if 1 < left then some ⟨l.tokens, .universal s (16 * value + digit) (left - 1)⟩
      else (utf8 (16 * value + digit)).map fun c => ⟨l.tokens, .literal (s ++ c)⟩

/-- The tokens at the end of the text, where that is not inside a literal or a comment. -/
def finish (l : Lexer) : Option (List Token) :=
  match l.mode with
  | .code => some l.tokens
  | .word bytes => some (l.tokens ++ [.word bytes])
  | .slash => some (l.tokens ++ [.punct slash])
  | .lineComment => some l.tokens
  | _ => none

def run (l : Lexer) (bytes : List UInt8) : Option Lexer := bytes.foldlM step l

def tokens (bytes : List UInt8) : Option (List Token) :=
  (run ⟨[], .code⟩ (logicalLines bytes)).bind finish

/-- Adjacent literals, which are one string. -/
def Literals (ts : List Token) (value : List UInt8) : Prop :=
  ∃ literals, literals ≠ [] ∧ ts = literals.map Token.string ∧ literals.flatten = value

section Lines
variable {a b x : UInt8} {r f l : List UInt8}

theorem replacePairs_cons (other : x ≠ a) (b : UInt8) (r l : List UInt8) :
    replacePairs a b r (x :: l) = x :: replacePairs a b r l := by
  cases l with
  | nil => simp [replacePairs]
  | cons y l => simp [replacePairs, other]

theorem replacePairs_append (other : x ≠ b) (a : UInt8) (r f l : List UInt8) :
    replacePairs a b r (f ++ x :: l) = replacePairs a b r f ++ replacePairs a b r (x :: l) := by
  fun_induction replacePairs a b r f with
  | case1 y z rest pair ih => simp [replacePairs, pair, ih]
  | case2 y z rest pair ih => simpa [replacePairs, pair] using ih
  | case3 f short =>
    match f, short with
    | [], _ => rfl
    | [y], _ => simp [replacePairs, other]
    | y :: z :: rest, short => exact absurd rfl (short y z rest)

theorem replacePairs_length_le (short : r.length ≤ 1) (a b : UInt8) (l : List UInt8) :
    (replacePairs a b r l).length ≤ l.length := by
  fun_induction replacePairs a b r l with
  | case1 y z rest pair ih => simp only [List.length_append, List.length_cons]; omega
  | case2 y z rest pair ih => simpa using ih
  | case3 l _ => exact Nat.le_refl _

theorem replacePairs_eq_self (short : r.length ≤ 1)
    (same : (replacePairs a b r l).length = l.length) : replacePairs a b r l = l := by
  fun_induction replacePairs a b r l with
  | case1 y z rest pair ih =>
    have shorter := replacePairs_length_le short a b rest
    simp only [List.length_append, List.length_cons] at same
    omega
  | case2 y z rest pair ih => rw [ih (by simpa using same)]
  | case3 l _ => rfl

theorem lineBreaks_cons (other : x ≠ carriageReturn) (l : List UInt8) :
    lineBreaks (x :: l) = x :: lineBreaks l := by
  rw [lineBreaks, replacePairs_cons other, List.map_cons, if_neg other, lineBreaks]

theorem logicalLines_cons (other : x ≠ carriageReturn) (other' : x ≠ backslash) (l : List UInt8) :
    logicalLines (x :: l) = x :: logicalLines l := by
  rw [logicalLines, lineBreaks_cons other, replacePairs_cons other', logicalLines]

/-- A byte that neither breaks nor splices lines by itself. -/
def stays (b : UInt8) : Bool := b != carriageReturn && b != backslash

theorem logicalLines_fixed (fixed : f.all stays) (l : List UInt8) :
    logicalLines (f ++ l) = f ++ logicalLines l := by
  induction f with
  | nil => rfl
  | cons b f ih =>
    simp only [List.all_cons, Bool.and_eq_true, stays, bne_iff_ne] at fixed
    obtain ⟨⟨unreturned, unescaped⟩, rest⟩ := fixed
    rw [List.cons_append, logicalLines_cons unreturned unescaped, ih rest, List.cons_append]

/-- No line break or spliced line goes past a quote. -/
theorem logicalLines_quote (f l : List UInt8) :
    logicalLines (f ++ quote :: l) = logicalLines f ++ quote :: logicalLines l := by
  have breaks : lineBreaks (f ++ quote :: l) = lineBreaks f ++ quote :: lineBreaks l := by
    rw [lineBreaks, replacePairs_append (by decide), replacePairs_cons (by decide),
      List.map_append]
    rfl
  rw [logicalLines, breaks, replacePairs_append (by decide), replacePairs_cons (by decide)]
  rfl

theorem lineBreaks_length_le (f : List UInt8) : (lineBreaks f).length ≤ f.length := by
  rw [lineBreaks, List.length_map]
  exact replacePairs_length_le (by simp) _ _ f

theorem logicalLines_length_le_lineBreaks (f : List UInt8) :
    (logicalLines f).length ≤ (lineBreaks f).length := by
  rw [logicalLines]
  exact replacePairs_length_le (by simp) _ _ _

theorem logicalLines_length_le (f : List UInt8) : (logicalLines f).length ≤ f.length :=
  Nat.le_trans (logicalLines_length_le_lineBreaks f) (lineBreaks_length_le f)

/-- A byte that ends, escapes or breaks an ordinary literal. -/
def Marks (b : UInt8) : Prop := b = quote ∨ b = backslash ∨ b = newline

/-- A string that stands for itself in an ordinary literal. -/
def Plain (f : List UInt8) : Prop := ∀ b ∈ f, ¬ Marks b ∧ b ≠ carriageReturn

instance : DecidablePred Marks :=
  fun b => inferInstanceAs (Decidable (b = quote ∨ b = backslash ∨ b = newline))

instance : DecidablePred Plain :=
  fun f => List.decidableBAll (fun b => ¬ Marks b ∧ b ≠ carriageReturn) f

theorem plain_fixed (plain : Plain f) : logicalLines f = f := by
  have fixed : f.all stays := by
    rw [List.all_eq_true]
    intro b mem
    obtain ⟨unmarked, unreturned⟩ := plain b mem
    simp only [Marks, not_or] at unmarked
    simp [stays, unreturned, unmarked]
  simpa [logicalLines, lineBreaks, replacePairs] using logicalLines_fixed fixed []

/-- What is as long as before and without marks was so before. -/
theorem plain_of_logicalLines (same : (logicalLines f).length = f.length)
    (unmarked : ∀ b ∈ logicalLines f, ¬ Marks b) : Plain f := by
  have breaks : (lineBreaks f).length = f.length := by
    have shorter := lineBreaks_length_le f
    have shorter' := logicalLines_length_le_lineBreaks f
    omega
  have unspliced : logicalLines f = lineBreaks f :=
    replacePairs_eq_self (by simp) (same.trans breaks.symm)
  have unbroken : lineBreaks f = f.map fun b => if b = carriageReturn then newline else b := by
    rw [lineBreaks, List.length_map] at breaks
    rw [lineBreaks, replacePairs_eq_self (by simp) breaks]
  rw [unspliced, unbroken] at unmarked
  intro b mem
  have image := unmarked _ (List.mem_map_of_mem mem)
  by_cases returns : b = carriageReturn
  · rw [if_pos returns] at image
    exact absurd (Or.inr (Or.inr rfl)) image
  · rw [if_neg returns] at image
    exact ⟨image, returns⟩

end Lines

end CppTokens
