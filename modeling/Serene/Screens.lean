import Serene.LineDrawing
import Serene.WrappingTerminals

/-!
# What the editor's output shows

The bytes that are written to a terminal as the terminal takes them: the control
characters and sequences the editor uses, and characters for everything else.
-/

namespace Screens

open ByteClasses Utf8Texts LineDrawing WrappingTerminals

/-- The digits at the front of a control sequence, behind those that give `n`. -/
def number (n : Nat) : Bytes → Nat × Bytes
  | [] => (n, [])
  | b :: rest => if isdigit b then number (n * 10 + (b.toNat - 48)) rest else (n, b :: rest)

theorem number_length (n : Nat) (bytes : Bytes) : (number n bytes).2.length ≤ bytes.length := by
  induction bytes generalizing n with
  | nil => exact Nat.le_refl 0
  | cons b rest ih =>
    rw [number]
    split
    · exact (ih _).trans (Nat.le_succ _)
    · exact Nat.le_refl _

/-- The control sequences the editor writes; others do nothing. A move by no cells is one by one
cell. -/
def control (n : Nat) (final : UInt8) : List (Command CodedChar) :=
  if final = 'A'.toUInt8 then [.up (max n 1)]
  else if final = 'B'.toUInt8 then [.down (max n 1)]
  else if final = 'C'.toUInt8 then [.right (max n 1)]
  else if final = 'H'.toUInt8 then [.home]
  else if final = 'J'.toUInt8 then if n = 2 then [.clearAll] else []
  else if final = 'K'.toUInt8 then if n = 0 then [.clearRight] else []
  else []

/-- The character at the front of the bytes, and what is behind it. -/
def character : Bytes → Option (CodedChar × Bytes)
  | [] => none
  | b :: rest =>
    let tails := rest.take (announced b - 1)
    if whole : announced b = tails.length + 1 ∧ tails.all isContinuation = true then
      some (⟨b, tails, whole.1, whole.2⟩, rest.drop tails.length)
    else none

theorem character_length {bytes rest : Bytes} {c : CodedChar}
    (read : character bytes = some (c, rest)) : rest.length < bytes.length := by
  unfold character at read
  split at read
  next => cases read
  next b more =>
    simp only at read
    split at read
    · cases read
      simp only [List.length_drop, List.length_cons]
      omega
    · cases read

/-- A terminal that does not know a byte drops it. -/
def commands (bytes : Bytes) : List (Command CodedChar) :=
  match bytes with
  | [] => []
  | b :: rest =>
    if b = 13 then .cr :: commands rest
    else if b = 10 then .lf :: commands rest
    else if _opens : b = 27 ∧ rest.head? = some 91 then
      match _number : number 0 rest.tail with
      | (_, []) => []
      | (n, final :: more) => control n final ++ commands more
    else
      match _read : character (b :: rest) with
      | none => commands rest
      | some (c, more) => .put c :: commands more
termination_by bytes.length
decreasing_by
  · exact Nat.lt_succ_self _
  · exact Nat.lt_succ_self _
  · have shorter := number_length 0 rest.tail
    rw [_number] at shorter
    simp only [List.length_cons, List.length_tail] at shorter ⊢
    omega
  · exact Nat.lt_succ_self _
  · exact character_length _read

theorem number_digits {digits : Bytes} (all : ∀ b ∈ digits, isdigit b = true) (n : Nat)
    (rest : Bytes) :
    number n (digits ++ rest) =
      number (digits.foldl (fun n b => n * 10 + (b.toNat - 48)) n) rest := by
  induction digits generalizing n with
  | nil => rfl
  | cons b digits ih =>
    rw [List.cons_append, number, if_pos (all b List.mem_cons_self)]
    exact ih (fun b mem => all b (List.mem_cons_of_mem _ mem)) _

theorem digit_byte {n : Nat} (digit : n < 10) :
    isdigit (Nat.digitChar n).toUInt8 = true ∧ (Nat.digitChar n).toUInt8.toNat - 48 = n := by
  have all : ∀ n : Fin 10, isdigit (Nat.digitChar n).toUInt8 = true ∧
      (Nat.digitChar n).toUInt8.toNat - 48 = n := by decide
  exact all ⟨n, digit⟩

/-- The numeral of `n` is read back as `n`. -/
theorem repr_digits (n : Nat) : (∀ b ∈ text n.repr, isdigit b = true) ∧
    (text n.repr).foldl (fun n b => n * 10 + (b.toNat - 48)) 0 = n := by
  induction n using Nat.strongRecOn with
  | ind n ih =>
    by_cases digit : n < 10
    · have one : text n.repr = [(Nat.digitChar n).toUInt8] := by
        simp [text, Nat.repr_of_lt digit]
      rw [one]
      simpa using digit_byte digit
    · obtain ⟨all, value⟩ := ih (n / 10) (Nat.div_lt_self (by omega) (by omega))
      have last := digit_byte (Nat.mod_lt n (show 10 > 0 by decide))
      have split : text n.repr = text (n / 10).repr ++ [(Nat.digitChar (n % 10)).toUInt8] := by
        rw [Nat.repr_of_ge (by omega)]
        simp [text]
      rw [split]
      constructor
      · intro b mem
        rcases List.mem_append.mp mem with front | here
        · exact all b front
        · exact List.mem_singleton.mp here ▸ last.1
      · rw [List.foldl_append, value]
        simp only [List.foldl_cons, List.foldl_nil, last.2]
        omega

theorem number_repr (n : Nat) {final : UInt8} (other : isdigit final = false) (rest : Bytes) :
    number 0 (text (toString (n : Int)) ++ final :: rest) = (n, final :: rest) := by
  have same : toString (n : Int) = n.repr := rfl
  obtain ⟨all, value⟩ := repr_digits n
  rw [same, number_digits all, value, number, other]
  rfl

/-- The bytes are these commands, whatever follows. -/
def Sends (bytes : Bytes) (sent : List (Command CodedChar)) : Prop :=
  ∀ rest, commands (bytes ++ rest) = sent ++ commands rest

theorem Sends.commands_eq {bytes : Bytes} {sent : List (Command CodedChar)}
    (sends : Sends bytes sent) : commands bytes = sent := by
  have all := sends []
  rw [List.append_nil] at all
  rw [all, commands, List.append_nil]

theorem Sends.append {x y : Bytes} {first second : List (Command CodedChar)}
    (front : Sends x first) (back : Sends y second) : Sends (x ++ y) (first ++ second) := by
  intro rest
  rw [List.append_assoc, front, back, List.append_assoc]

theorem sends_nil : Sends [] [] := fun _ => rfl

theorem sends_cr : Sends (text "\r") [.cr] := by
  intro rest
  change commands (13 :: rest) = _
  rw [commands, if_pos rfl]
  rfl

theorem sends_newline : Sends (text "\n\r") [.lf, .cr] := by
  intro rest
  change commands (10 :: 13 :: rest) = _
  rw [commands, if_neg (by decide), if_pos rfl, commands, if_pos rfl]
  rfl

theorem commands_control {bytes more : Bytes} {n : Nat} {final : UInt8}
    (read : number 0 bytes = (n, final :: more)) :
    commands (27 :: 91 :: bytes) = control n final ++ commands more := by
  rw [commands, if_neg (by decide), if_neg (by decide), dif_pos ⟨rfl, rfl⟩]
  split
  next found =>
    cases read.symm.trans found
  next found =>
    cases read.symm.trans found
    rfl

theorem sends_csi (n : Nat) {final : UInt8} (other : isdigit final = false) :
    Sends (csi n final) (control n final) := by
  intro rest
  have bytes : csi n final ++ rest = 27 :: 91 :: (text (toString (n : Int)) ++ final :: rest) := by
    simp only [csi, List.append_assoc]
    rfl
  rw [bytes]
  exact commands_control (number_repr n other rest)

theorem sends_clearing : Sends (text "\x1b[H\x1b[2J") [.home, .clearAll] := by
  intro rest
  change commands (27 :: 91 :: 72 :: 27 :: 91 :: 50 :: 74 :: rest) = _
  have home : number 0 (72 :: 27 :: 91 :: 50 :: 74 :: rest) =
      (0, 72 :: 27 :: 91 :: 50 :: 74 :: rest) := rfl
  have all : number 0 (50 :: 74 :: rest) = (2, 74 :: rest) := rfl
  rw [commands_control home, commands_control all]
  rfl

/-- A move by the difference of two numbers, where it is one. -/
theorem sends_steps {final : UInt8} {command : Nat → Command CodedChar}
    (other : isdigit final = false) (moves : ∀ n, control n final = [command (max n 1)])
    (a b : Nat) :
    Sends (if a < b then csi ((b : Int) - a) final else [])
      (if a < b then [command (b - a)] else []) := by
  by_cases less : a < b
  · rw [if_pos less, if_pos less]
    have sends := sends_csi (b - a) other
    rw [moves, Nat.max_eq_left (by omega)] at sends
    rw [← Int.ofNat_sub (Nat.le_of_lt less)]
    exact sends
  · rw [if_neg less, if_neg less]
    exact sends_nil

theorem sends_column (col : Nat) :
    Sends (if col ≠ 0 then text "\r" ++ csi col 'C'.toUInt8 else text "\r")
      (if col ≠ 0 then [.cr, .right col] else [.cr]) := by
  by_cases some : col ≠ 0
  · rw [if_pos some, if_pos some]
    have right : Sends (csi col 'C'.toUInt8) [.right (max col 1)] := sends_csi col (by decide)
    rw [Nat.max_eq_left (Nat.one_le_iff_ne_zero.mpr some)] at right
    exact sends_cr.append right
  · rw [if_neg some, if_neg some]
    exact sends_cr

theorem sends_clearRows (n : Nat) :
    Sends (clearRows n ++ (text "\r" ++ eraseToRight)) (clears n) := by
  have erase : Sends eraseToRight [.clearRight] := sends_csi 0 (by decide)
  have up : Sends (csi 1 'A'.toUInt8) [.up 1] := sends_csi 1 (by decide)
  induction n with
  | zero => exact sends_cr.append erase
  | succ n ih =>
    have row := ((sends_cr.append erase).append up).append ih
    simp only [clearRows, List.append_assoc] at row ⊢
    exact row

theorem character_bytes (c : CodedChar) (rest : Bytes) :
    character (c.bytes ++ rest) = some (c, rest) := by
  obtain ⟨lead, tails, announces, continues⟩ := c
  have count : announced lead - 1 = tails.length := by omega
  simp only [CodedChar.bytes, List.cons_append, character, count, List.take_left, List.drop_left]
  rw [dif_pos ⟨announces, continues⟩]

/-- A character that a terminal shows, and no control character. -/
def printable (c : CodedChar) : Prop := 32 ≤ c.code ∧ (c.code < 127 ∨ 160 ≤ c.code)

theorem printable_lead {c : CodedChar} (shown : printable c) : 32 ≤ c.lead.toNat := by
  by_cases low : c.lead < 0x80
  · have alone := c.tails_of_lead_lt low
    have code : c.code = c.lead.toNat := by
      have small : c.lead.toNat < 128 := UInt8.lt_iff_toNat_lt.mp low
      rw [CodedChar.code, alone, CodedChar.payload, if_pos low]
      exact Nat.mod_eq_of_lt small
    exact code ▸ shown.1
  · have high : 128 ≤ c.lead.toNat := UInt8.le_iff_toNat_le.mp (UInt8.not_lt.mp low)
    omega

theorem sends_flat {t : Text} (shown : ∀ c ∈ t, printable c) : Sends (flat t) (t.map .put) := by
  intro rest
  induction t with
  | nil => rfl
  | cons c t ih =>
    have first := printable_lead (shown c List.mem_cons_self)
    have read := character_bytes c (flat t ++ rest)
    have other : ∀ b : UInt8, b.toNat < 32 → c.lead ≠ b := by
      intro b small same
      rw [same] at first
      omega
    have whole : flat (c :: t) ++ rest = c.lead :: (c.tails ++ (flat t ++ rest)) := by
      simp [CodedChar.bytes]
    have split : c.bytes ++ (flat t ++ rest) = c.lead :: (c.tails ++ (flat t ++ rest)) := rfl
    rw [split] at read
    rw [whole, commands, if_neg (other 13 (by decide)), if_neg (other 10 (by decide)),
      dif_neg fun opens => other 27 (by decide) opens.1]
    split
    next none => cases read.symm.trans none
    next found =>
      cases read.symm.trans found
      rw [ih fun c mem => shown c (List.mem_cons_of_mem _ mem)]
      rfl

end Screens
