import Mathlib.Data.List.Basic
import Mathlib.Data.List.Count
import Mathlib.Data.List.Infix
import Mathlib.Data.Prod.Lex

/-!
# Lines of a text

A text is a list of symbols, one of which ends lines. The symbols before a place
determine its line (how many line ends came before) and its column (how many
symbols after the last of them), and the offsets of the line ends lead back from
the line to where it starts. A line end belongs to the line it ends.
-/

namespace Lines

universe u
variable {α : Type u} [DecidableEq α] (eol : α)

/-- The number of line ends passed. -/
def line (before : List α) : Nat := before.count eol

/-- The symbols passed since the last line end. -/
def current (before : List α) : List α :=
  before.foldl (fun passed c => if c = eol then [] else passed ++ [c]) []

def column (before : List α) : Nat := (current eol before).length

/-- The offsets of the line ends of a text that begins at offset `k`. -/
def offsetsFrom : Nat → List α → List Nat
  | _, [] => []
  | k, c :: text => if c = eol then k :: offsetsFrom (k + 1) text else offsetsFrom (k + 1) text

/-- Where line `n` begins, counted from 0. -/
def lineStart (text : List α) : Nat → Option Nat
  | 0 => some 0
  | n + 1 => ((offsetsFrom eol 0 text)[n]?).map (· + 1)

theorem line_eol (w : List α) : line eol (w ++ [eol]) = line eol w + 1 := by
  simp [line]

theorem line_other (w : List α) {c : α} (other : c ≠ eol) : line eol (w ++ [c]) = line eol w := by
  simp [line, other]

theorem column_eol (w : List α) : column eol (w ++ [eol]) = 0 := by
  simp [column, current]

theorem column_other (w : List α) {c : α} (other : c ≠ eol) :
    column eol (w ++ [c]) = column eol w + 1 := by
  simp [column, current, other]

/-- The current line is the end of what was passed, and no line ends in it. -/
theorem current_spec (w : List α) : current eol w <:+ w ∧ eol ∉ current eol w := by
  induction w using List.reverseRecOn with
  | nil => simp [current]
  | append_singleton w c ih =>
    obtain ⟨⟨head, split⟩, none⟩ := ih
    by_cases ends : c = eol
    · simp [current, ends]
    · have step : current eol (w ++ [c]) = current eol w ++ [c] := by simp [current, ends]
      rw [step]
      constructor
      · exact ⟨head, by rw [← List.append_assoc, split]⟩
      · intro mem
        rcases List.mem_append.mp mem with mem | mem
        · exact none mem
        · exact ends (List.mem_singleton.mp mem).symm

theorem column_le (w : List α) : column eol w ≤ w.length := (current_spec eol w).1.length_le

/-- On the first line everything passed is on it. -/
theorem column_first {w : List α} (first : eol ∉ w) : column eol w = w.length := by
  induction w using List.reverseRecOn with
  | nil => rfl
  | append_singleton w c ih =>
    rw [List.mem_append, not_or, List.mem_singleton] at first
    rw [column_other eol w (Ne.symm first.2), ih first.1, List.length_append]
    rfl

theorem line_eq_zero {w : List α} : line eol w = 0 ↔ eol ∉ w := List.count_eq_zero

/-- Line and column, in the order in which the places of a text come. -/
def place (before : List α) : Nat ×ₗ Nat := toLex (line eol before, column eol before)

theorem place_step (w : List α) (c : α) : place eol w < place eol (w ++ [c]) := by
  rw [place, place, Prod.Lex.lt_iff]
  by_cases ends : c = eol
  · subst ends
    left
    change line c w < line c (w ++ [c])
    rw [line_eol]
    omega
  · right
    constructor
    · exact (line_other eol w ends).symm
    · change column eol w < column eol (w ++ [c])
      rw [column_other eol w ends]
      omega

/-- Places are passed in the lexicographic order of line and column. -/
theorem place_lt (w v : List α) (some : v ≠ []) : place eol w < place eol (w ++ v) := by
  induction v using List.reverseRecOn with
  | nil => exact absurd rfl some
  | append_singleton v c ih =>
    have last := place_step eol (w ++ v) c
    rw [← List.append_assoc]
    by_cases empty : v = []
    · rw [empty, List.append_nil] at last ⊢
      exact last
    · exact (ih empty).trans last

theorem offsetsFrom_append (k : Nat) (w v : List α) :
    offsetsFrom eol k (w ++ v) = offsetsFrom eol k w ++ offsetsFrom eol (k + w.length) v := by
  induction w generalizing k with
  | nil => rfl
  | cons c w ih =>
    have shift : k + 1 + w.length = k + (c :: w).length := by
      rw [List.length_cons]
      omega
    by_cases ends : c = eol
    · simp [offsetsFrom, ends, ih, shift]
    · simp [offsetsFrom, ends, ih, shift]

theorem offsetsFrom_length (k : Nat) (w : List α) :
    (offsetsFrom eol k w).length = line eol w := by
  induction w generalizing k with
  | nil => rfl
  | cons c w ih =>
    by_cases ends : c = eol
    · simpa [offsetsFrom, ends, line] using ih (k + 1)
    · simpa [offsetsFrom, ends, line] using ih (k + 1)

/-- The line of a place begins as many symbols back as its column says. -/
theorem lineStart_line (w v : List α) :
    lineStart eol (w ++ v) (line eol w) = some (w.length - column eol w) := by
  induction w using List.reverseRecOn generalizing v with
  | nil => rfl
  | append_singleton w c ih =>
    by_cases ends : c = eol
    · subst ends
      have here : (offsetsFrom c 0 (w ++ [c] ++ v))[line c w]? = some w.length := by
        rw [List.append_assoc, offsetsFrom_append, List.getElem?_append_right
          (by rw [offsetsFrom_length]), offsetsFrom_length]
        simp [offsetsFrom]
      rw [line_eol, lineStart, here, column_eol]
      simp
    · rw [line_other _ _ ends, column_other _ _ ends, List.append_assoc, ih]
      simp

theorem lineStart_past {text : List α} {n : Nat} (past : line eol text < n) :
    lineStart eol text n = none := by
  cases n with
  | zero => cases past
  | succ n =>
    rw [lineStart, List.getElem?_eq_none (by rw [offsetsFrom_length]; omega)]
    rfl

/-- A text with more than `n` line ends splits at the one that ends line `n`. -/
theorem exists_line_end {text : List α} {n : Nat} (inside : n < line eol text) :
    ∃ v w, text = v ++ eol :: w ∧ line eol v = n := by
  induction text generalizing n with
  | nil => cases inside
  | cons c text ih =>
    by_cases ends : c = eol
    · subst ends
      cases n with
      | zero => exact ⟨[], text, rfl, rfl⟩
      | succ n =>
        rw [line, List.count_cons_self] at inside
        obtain ⟨v, w, rfl, before⟩ := ih (Nat.lt_of_succ_lt_succ inside)
        refine ⟨c :: v, w, rfl, ?_⟩
        rw [line, List.count_cons_self]
        exact congrArg (· + 1) before
    · rw [line, List.count_cons_of_ne ends] at inside
      obtain ⟨v, w, rfl, before⟩ := ih inside
      refine ⟨c :: v, w, rfl, ?_⟩
      rw [line, List.count_cons_of_ne ends]
      exact before

theorem mem_offsetsFrom {k n : Nat} {text : List α} :
    n ∈ offsetsFrom eol k text ↔ k ≤ n ∧ text[n - k]? = some eol := by
  induction text generalizing k with
  | nil => simp [offsetsFrom]
  | cons c text ih =>
    rcases Nat.lt_trichotomy n k with before | rfl | after
    · by_cases ends : c = eol <;> simp [offsetsFrom, ends, ih] <;> omega
    · by_cases ends : c = eol <;> simp [offsetsFrom, ends, ih]
    · have later : (c :: text)[n - k]? = text[n - (k + 1)]? := by
        have shift : n - k = (n - (k + 1)) + 1 := by omega
        rw [shift, List.getElem?_cons_succ]
      have le : k ≤ n := Nat.le_of_succ_le after
      have ne : n ≠ k := Nat.ne_of_gt after
      rw [later]
      by_cases ends : c = eol <;> simp [offsetsFrom, ends, ih, Nat.succ_le_of_lt after, le, ne]

theorem offsetsFrom_sorted (k : Nat) (text : List α) :
    (offsetsFrom eol k text).Pairwise (· < ·) := by
  induction text generalizing k with
  | nil => exact List.Pairwise.nil
  | cons c text ih =>
    by_cases ends : c = eol
    · rw [offsetsFrom, if_pos ends, List.pairwise_cons]
      constructor
      · intro n later
        exact ((mem_offsetsFrom eol).mp later).1
      · exact ih (k + 1)
    · rw [offsetsFrom, if_neg ends]
      exact ih (k + 1)

end Lines
