import Mathlib.Data.List.Basic

/-!
# Bytes and their C-locale classes

The reader asks `<cctype>` questions about single bytes. In the C locale no
byte from 0x80 on is a space, a digit or a letter. The class facts below are
what the scanning proofs use; each is checked on all 256 bytes.
-/

namespace ByteClasses

abbrev Bytes := List UInt8

/-- The bytes of an ASCII string literal of the source. -/
def text (s : String) : Bytes := s.toList.map Char.toUInt8

abbrev nul : UInt8 := 0
abbrev newline : UInt8 := '\n'.toUInt8
abbrev lparen : UInt8 := '('.toUInt8
abbrev rparen : UInt8 := ')'.toUInt8
abbrev minus : UInt8 := '-'.toUInt8
abbrev dot : UInt8 := '.'.toUInt8
abbrev slash : UInt8 := '/'.toUInt8

def isspace (c : UInt8) : Bool := c == ' '.toUInt8 || (9 ≤ c && c ≤ 13)

def isdigit (c : UInt8) : Bool := '0'.toUInt8 ≤ c && c ≤ '9'.toUInt8

def isalpha (c : UInt8) : Bool :=
  ('a'.toUInt8 ≤ c && c ≤ 'z'.toUInt8) || ('A'.toUInt8 ≤ c && c ≤ 'Z'.toUInt8)

def isalnum (c : UInt8) : Bool := isalpha c || isdigit c

/-- `EOF` of `<cstdio>`. -/
def EOF : Int := -1

def isValidForIdentifier (c : UInt8) : Bool :=
  (text "!$%&*+-.~/:<=>?@^_").contains c || isalnum c

/-- The two byte tests of `isEndOfBuffer`; `char` is signed, so 0xFF reads as `EOF`. -/
def isEndByte (c : UInt8) : Bool := c == nul || c.toInt8.toInt == EOF

theorem forall_byte {p : UInt8 → Prop} (all : ∀ n : Fin 256, p (UInt8.ofNat n))
    (c : UInt8) : p c := by
  have h := all ⟨c.toNat, c.toNat_lt⟩
  simpa using h

/-- The class of an identifier byte excludes everything that ends a token. -/
theorem ident_facts {c : UInt8} (h : isValidForIdentifier c = true) :
    isspace c = false ∧ isEndByte c = false ∧ c ≠ lparen ∧ c ≠ rparen := by
  revert c
  apply forall_byte
  decide +kernel

theorem digit_facts {c : UInt8} (h : isdigit c = true) :
    isValidForIdentifier c = true ∧ isalpha c = false ∧ c ≠ minus ∧ c ≠ dot := by
  revert c
  apply forall_byte
  decide +kernel

theorem alpha_facts {c : UInt8} (h : isalpha c = true) :
    isValidForIdentifier c = true ∧ isdigit c = false ∧ c ≠ dot := by
  revert c
  apply forall_byte
  decide +kernel

theorem space_facts {c : UInt8} (h : isspace c = true) :
    isValidForIdentifier c = false ∧ isdigit c = false ∧ isalpha c = false ∧
      isEndByte c = false ∧ c ≠ dot ∧ c ≠ lparen ∧ c ≠ rparen := by
  revert c
  apply forall_byte
  decide +kernel

theorem end_facts {c : UInt8} (h : isEndByte c = true) :
    isValidForIdentifier c = false ∧ isspace c = false ∧ isdigit c = false ∧
      isalpha c = false ∧ c ≠ dot ∧ c ≠ newline := by
  revert c
  apply forall_byte
  decide +kernel

end ByteClasses
