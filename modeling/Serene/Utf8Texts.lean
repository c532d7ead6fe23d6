import Mathlib.Data.List.TakeWhile

/-!
# Texts of UTF-8 characters

A coded character is a lead byte that announces how many bytes it takes and as
many continuation bytes. This is the shape of UTF-8 only: overlong forms and
surrogates have it too. A text is a list of coded characters and `flat` gives
its bytes; a byte that continues nothing is always where a character begins.
-/

namespace Utf8Texts

def isContinuation (b : UInt8) : Bool := 0x80 ≤ b && b < 0xC0

/-- How many bytes a character with this lead byte takes; 0 where none begins so. -/
def announced (lead : UInt8) : Nat :=
  if lead < 0x80 then 1
  else if lead < 0xC0 then 0
  else if lead < 0xE0 then 2
  else if lead < 0xF0 then 3
  else if lead < 0xF8 then 4
  else 0

structure CodedChar where
  lead : UInt8
  tails : List UInt8
  announces : announced lead = tails.length + 1
  continues : tails.all isContinuation = true
  deriving DecidableEq

namespace CodedChar

def bytes (c : CodedChar) : List UInt8 := c.lead :: c.tails

def size (c : CodedChar) : Nat := announced c.lead

/-- The bits of the lead byte that belong to the code point. -/
def payload (lead : UInt8) : Nat :=
  lead.toNat % (if lead < 0x80 then 128 else if lead < 0xE0 then 32
    else if lead < 0xF0 then 16 else 8)

/-- The code point: six bits from each continuation byte after those of the lead byte. -/
def code (c : CodedChar) : Nat :=
  c.tails.foldl (fun n b => n * 64 + b.toNat % 64) (payload c.lead)

variable (c : CodedChar)

@[simp] theorem length_bytes : c.bytes.length = c.size := by
  simp [bytes, size, c.announces]

theorem size_pos : 0 < c.size := by
  rw [size, c.announces]
  omega

theorem announced_le (lead : UInt8) : announced lead ≤ 4 := by
  unfold announced
  split_ifs <;> omega

theorem size_le : c.size ≤ 4 := announced_le c.lead

/-- No character begins with a continuation byte. -/
theorem lead_not_continuation : isContinuation c.lead = false := by
  have starts : announced c.lead ≠ 0 := by rw [c.announces]; omega
  unfold announced at starts
  unfold isContinuation
  by_cases low : c.lead < 0x80
  · simp [UInt8.not_le.mpr low]
  · rw [if_neg low] at starts
    by_cases mid : c.lead < 0xC0
    · rw [if_pos mid] at starts
      exact absurd rfl starts
    · simp [mid]

theorem mem_tails {b : UInt8} (mem : b ∈ c.tails) : isContinuation b = true :=
  List.all_eq_true.mp c.continues b mem

/-- A byte below 0x80 stands alone. -/
theorem tails_of_lead_lt (low : c.lead < 0x80) : c.tails = [] := by
  have one := c.announces
  rw [announced, if_pos low] at one
  exact List.length_eq_zero_iff.mp (by omega)

theorem size_eq_one : c.size = 1 ↔ c.tails = [] := by
  rw [size, c.announces, ← List.length_eq_zero_iff]
  omega

/-- An ASCII byte occurs in a character only as the whole of it. -/
theorem bytes_eq_of_mem {b : UInt8} (ascii : b < 0x80) (mem : b ∈ c.bytes) : c.bytes = [b] := by
  rcases List.mem_cons.mp mem with here | later
  · rw [bytes, c.tails_of_lead_lt (here ▸ ascii), here]
  · have cont := c.mem_tails later
    simp only [isContinuation, Bool.and_eq_true, decide_eq_true_eq] at cont
    exact absurd ascii (UInt8.not_lt.mpr cont.1)

theorem ext_bytes {c d : CodedChar} (same : c.bytes = d.bytes) : c = d := by
  cases c
  cases d
  simp only [bytes, List.cons.injEq] at same
  simp [same]

/-- The character a byte below 0x80 is. -/
def ascii (b : UInt8) (low : b < 0x80) : CodedChar where
  lead := b
  tails := []
  announces := by simp [announced, low]
  continues := rfl

@[simp] theorem bytes_ascii (b : UInt8) (low : b < 0x80) : (ascii b low).bytes = [b] := rfl

end CodedChar

abbrev Text := List CodedChar

def flat (t : Text) : List UInt8 := t.flatMap CodedChar.bytes

variable {t u : Text} {c : CodedChar} {x y : List UInt8} {b : UInt8}

@[simp] theorem flat_nil : flat [] = [] := rfl

@[simp] theorem flat_cons (c : CodedChar) (t : Text) : flat (c :: t) = c.bytes ++ flat t := rfl

@[simp] theorem flat_append (t u : Text) : flat (t ++ u) = flat t ++ flat u :=
  List.flatMap_append

theorem flat_eq_nil : flat t = [] ↔ t = [] := by
  cases t with
  | nil => simp
  | cons c t => simp [CodedChar.bytes]

/-- Where a byte of a text is not a continuation byte a character begins. -/
theorem boundary (cut : flat t = x ++ b :: y) (starts : isContinuation b = false) :
    ∃ before after, t = before ++ after ∧ flat before = x ∧ flat after = b :: y := by
  induction t generalizing x with
  | nil => simp at cut
  | cons c t ih =>
    cases x with
    | nil => exact ⟨[], c :: t, rfl, rfl, cut⟩
    | cons a x =>
      rw [flat_cons, CodedChar.bytes, List.cons_append, List.cons_append] at cut
      obtain ⟨same, rest⟩ := List.cons.inj cut
      -- the byte lies behind the tails, which are all continuation bytes
      rcases List.append_eq_append_iff.mp rest with ⟨more, split, later⟩ | ⟨more, split, later⟩
      · obtain ⟨before, after, parts, first, second⟩ := ih later
        refine ⟨c :: before, after, by rw [parts, List.cons_append], ?_, second⟩
        rw [flat_cons, CodedChar.bytes, first, split, same, List.cons_append]
      · cases more with
        | nil =>
          refine ⟨[c], t, rfl, ?_, by simpa using later.symm⟩
          simpa [CodedChar.bytes, same] using split
        | cons d more =>
          obtain ⟨rfl, -⟩ := List.cons.inj later
          have := c.mem_tails (split ▸ List.mem_append_right x List.mem_cons_self)
          rw [starts] at this
          cases this

/-- An ASCII byte of a text is a character of it. -/
theorem boundary_ascii (cut : flat t = x ++ b :: y) (ascii : b < 0x80) :
    ∃ before c after, t = before ++ c :: after ∧ flat before = x ∧ c.bytes = [b] ∧
      flat after = y := by
  have starts : isContinuation b = false := by simp [isContinuation, UInt8.not_le.mpr ascii]
  obtain ⟨before, after, parts, first, second⟩ := boundary cut starts
  cases after with
  | nil => simp at second
  | cons c after =>
    have lead : c.lead = b := (List.cons.inj second).1
    have alone := c.tails_of_lead_lt (lead ▸ ascii)
    refine ⟨before, c, after, parts, first, by simp [CodedChar.bytes, lead, alone], ?_⟩
    simpa [CodedChar.bytes, lead, alone] using second

/-- A text whose bytes begin with those of another one begins with it. -/
theorem flat_split (same : flat t = flat u ++ x) : ∃ v, t = u ++ v ∧ flat v = x := by
  induction u generalizing t with
  | nil => exact ⟨t, rfl, same⟩
  | cons c u ih =>
    cases t with
    | nil => simp [CodedChar.bytes] at same
    | cons d t =>
      rw [flat_cons, flat_cons, List.append_assoc] at same
      have leads : d.lead = c.lead := by
        simp only [CodedChar.bytes, List.cons_append] at same
        exact (List.cons.inj same).1
      have sizes : d.bytes.length = c.bytes.length := by
        rw [CodedChar.length_bytes, CodedChar.length_bytes, CodedChar.size, CodedChar.size, leads]
      obtain ⟨first, rest⟩ := List.append_inj same sizes
      obtain ⟨v, parts, bytes⟩ := ih rest
      exact ⟨v, by rw [CodedChar.ext_bytes first, parts, List.cons_append], bytes⟩

/-- The bytes determine the characters. -/
theorem flat_injective : Function.Injective flat := by
  intro t u same
  rw [← List.append_nil (flat u)] at same
  obtain ⟨v, parts, none⟩ := flat_split same
  rw [parts, flat_eq_nil.mp none, List.append_nil]

/-- What stands in front of an ASCII byte is found on the bytes or on the characters. -/
theorem takeWhile_flat (ascii : b < 0x80) (t : Text) :
    (flat t).takeWhile (fun a => a != b) = flat (t.takeWhile fun c => c.lead != b) := by
  induction t with
  | nil => rfl
  | cons c t ih =>
    by_cases here : c.lead = b
    · simp [CodedChar.bytes, here]
    · have none : ∀ a ∈ c.bytes, (a != b) = true := by
        intro a mem
        apply bne_iff_ne.mpr
        rintro rfl
        exact here (List.cons.inj (c.bytes_eq_of_mem ascii mem)).1
      rw [flat_cons, List.takeWhile_append_of_pos none, ih, List.takeWhile_cons_of_pos (by simpa),
        flat_cons]

theorem continuation_ofNat (n : Nat) : isContinuation (UInt8.ofNat (n % 64 + 128)) = true := by
  have := Nat.mod_lt n (show 0 < 64 by omega)
  simp only [isContinuation, Bool.and_eq_true, decide_eq_true_eq, UInt8.le_iff_toNat_le,
    UInt8.lt_iff_toNat_lt, UInt8.toNat_ofNat']
  constructor <;> simp <;> omega

/-- The lead bytes of two, three and four byte characters, by what they carry. -/
theorem announced_ofNat (n : Nat) :
    (n ≤ 127 → announced (UInt8.ofNat n) = 1) ∧
    announced (UInt8.ofNat (n % 32 + 192)) = 2 ∧
    announced (UInt8.ofNat (n % 16 + 224)) = 3 ∧
    announced (UInt8.ofNat (n % 8 + 240)) = 4 := by
  have := Nat.mod_lt n (show 0 < 32 by omega)
  have := Nat.mod_lt n (show 0 < 16 by omega)
  have := Nat.mod_lt n (show 0 < 8 by omega)
  simp only [announced, UInt8.lt_iff_toNat_lt, UInt8.toNat_ofNat', UInt8.reduceToNat]
  refine ⟨?_, ?_, ?_, ?_⟩
  · intro low
    rw [if_pos (by omega)]
  · rw [if_neg (by omega), if_neg (by omega), if_pos (by omega)]
  · rw [if_neg (by omega), if_neg (by omega), if_neg (by omega), if_pos (by omega)]
  · rw [if_neg (by omega), if_neg (by omega), if_neg (by omega), if_neg (by omega),
      if_pos (by omega)]

/-- The encoding has the shape of a coded character. -/
theorem encoded (c : Char) : ∃ d : CodedChar, d.bytes = String.utf8EncodeChar c := by
  have leads := announced_ofNat
  have cont := continuation_ofNat
  fun_cases String.utf8EncodeChar c with
  | case1 v one => exact ⟨⟨_, [], (leads v).1 one, rfl⟩, rfl⟩
  | case2 v one two =>
    exact ⟨⟨_, [_], (leads (v / 64)).2.1,
      by simp only [List.all_cons, List.all_nil, cont, Bool.and_true]⟩, rfl⟩
  | case3 v one two three =>
    exact ⟨⟨_, [_, _], (leads (v / 4096)).2.2.1,
      by simp only [List.all_cons, List.all_nil, cont, Bool.and_true]⟩, rfl⟩
  | case4 v one two three =>
    exact ⟨⟨_, [_, _, _], (leads (v / 262144)).2.2.2,
      by simp only [List.all_cons, List.all_nil, cont, Bool.and_true]⟩, rfl⟩

/-- The code point of an encoded character is the character's. -/
theorem code_encoded {c : Char} {d : CodedChar} (encodes : d.bytes = String.utf8EncodeChar c) :
    d.code = c.toNat := by
  have small : c.val.toNat < 1114112 := by
    have := c.valid
    simp only [UInt32.isValidChar, Nat.isValidChar] at this
    omega
  change d.code = c.val.toNat
  revert encodes
  fun_cases String.utf8EncodeChar c with
  | case1 v one =>
    intro encodes
    obtain ⟨lead, tails⟩ := List.cons.inj encodes
    simp only [CodedChar.code, CodedChar.payload, lead, tails, List.foldl, UInt8.lt_iff_toNat_lt,
      UInt8.toNat_ofNat', UInt8.reduceToNat]
    rw [if_pos (by omega)]
    omega
  | case2 v one two =>
    intro encodes
    obtain ⟨lead, tails⟩ := List.cons.inj encodes
    simp only [CodedChar.code, CodedChar.payload, lead, tails, List.foldl, UInt8.lt_iff_toNat_lt,
      UInt8.toNat_ofNat', UInt8.reduceToNat]
    rw [if_neg (by omega), if_pos (by omega)]
    omega
  | case3 v one two three =>
    intro encodes
    obtain ⟨lead, tails⟩ := List.cons.inj encodes
    simp only [CodedChar.code, CodedChar.payload, lead, tails, List.foldl, UInt8.lt_iff_toNat_lt,
      UInt8.toNat_ofNat', UInt8.reduceToNat]
    rw [if_neg (by omega), if_neg (by omega), if_pos (by omega)]
    omega
  | case4 v one two three =>
    intro encodes
    obtain ⟨lead, tails⟩ := List.cons.inj encodes
    simp only [CodedChar.code, CodedChar.payload, lead, tails, List.foldl, UInt8.lt_iff_toNat_lt,
      UInt8.toNat_ofNat', UInt8.reduceToNat]
    rw [if_neg (by omega), if_neg (by omega), if_neg (by omega)]
    omega

end Utf8Texts
