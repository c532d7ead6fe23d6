import Mathlib.Data.List.Induction
import Mathlib.Tactic.Ring

/-!
# Terminals that wrap

A terminal with a fixed number of columns and no last row. A character that does
not fit in its row goes to the next one, and a cursor behind the last column
stays there until the next character comes. Cells are counted along the rows, so
that a place is one number.
-/

namespace WrappingTerminals

universe u
variable {γ : Type u}

/-- The cells, and the cursor; column `cols` is that of a cursor about to wrap. -/
@[ext]
structure Screen (γ : Type u) where
  cell : Nat → Nat → Option γ
  row : Nat
  col : Nat

inductive Command (γ : Type u)
  | put (c : γ)
  | cr
  | lf
  | up (n : Nat)
  | down (n : Nat)
  | right (n : Nat)
  | clearRight
  | clearAll
  | home
  deriving DecidableEq

section Run
variable (cols : Nat) (width : γ → Nat)

namespace Screen

/-- A character takes as many cells as it is wide. -/
def put (s : Screen γ) (c : γ) : Screen γ :=
  let row := if cols < s.col + width c then s.row + 1 else s.row
  let col := if cols < s.col + width c then 0 else s.col
  { cell := fun r k => if r = row ∧ col ≤ k ∧ k < col + width c then some c else s.cell r k
    row
    col := col + width c }

def step (s : Screen γ) : Command γ → Screen γ
  | .put c => s.put cols width c
  | .cr => { s with col := 0 }
  | .lf => { s with row := s.row + 1 }
  | .up n => { s with row := s.row - n }
  | .down n => { s with row := s.row + n }
  | .right n => { s with col := min (cols - 1) (s.col + n) }
  -- a cursor about to wrap is still on the last cell
  | .clearRight =>
    { s with cell := fun r k => if r = s.row ∧ min (cols - 1) s.col ≤ k then none else s.cell r k }
  | .clearAll => { s with cell := fun _ _ => none }
  | .home => { s with row := 0, col := 0 }

def run (s : Screen γ) (commands : List (Command γ)) : Screen γ :=
  commands.foldl (step cols width) s

def print (s : Screen γ) (t : List γ) : Screen γ := t.foldl (put cols width) s

/-- The number of cells before the cursor. -/
def place (s : Screen γ) : Nat := s.row * cols + s.col

/-- Only the rows above `base` are kept, and the cursor is in the corner below them. -/
def cleared (cell : Nat → Nat → Option γ) (base : Nat) : Screen γ :=
  ⟨fun r k => if r < base then cell r k else none, base, 0⟩

end Screen

/-- The cell a character of width `w` takes that comes at `p`. -/
def fit (p w : Nat) : Nat := if cols < p % cols + w then p + (cols - p % cols) else p

/-- The place behind a text that begins at `p`. -/
def behind (p : Nat) (t : List γ) : Nat :=
  t.foldl (fun p c => fit cols p (width c) + width c) p

end Run

open Screen

variable {cols : Nat} {width : γ → Nat} {s : Screen γ} {c : γ} {t u : List γ} {n p w : Nat}

@[simp] theorem run_nil (s : Screen γ) : s.run cols width [] = s := rfl

@[simp] theorem run_cons (s : Screen γ) (command : Command γ) (rest : List (Command γ)) :
    s.run cols width (command :: rest) = (s.step cols width command).run cols width rest := rfl

theorem run_append (s : Screen γ) (first rest : List (Command γ)) :
    s.run cols width (first ++ rest) = (s.run cols width first).run cols width rest :=
  List.foldl_append

theorem run_puts (s : Screen γ) (t : List γ) :
    s.run cols width (t.map .put) = s.print cols width t := by
  rw [Screen.run, List.foldl_map]
  rfl

@[simp] theorem behind_nil : behind cols width p [] = p := rfl

@[simp] theorem behind_cons :
    behind cols width p (c :: t) = behind cols width (fit cols p (width c) + width c) t := rfl

theorem behind_append :
    behind cols width p (t ++ u) = behind cols width (behind cols width p t) u :=
  List.foldl_append

@[simp] theorem cleared_zero (cell : Nat → Nat → Option γ) :
    cleared cell 0 = ⟨fun _ _ => none, 0, 0⟩ := by
  simp [cleared]

theorem le_fit : p ≤ fit cols p w := by
  unfold fit
  split <;> omega

theorem le_behind (p : Nat) (t : List γ) : p ≤ behind cols width p t := by
  induction t generalizing p with
  | nil => exact Nat.le_refl p
  | cons c t ih =>
    have skipped : p ≤ fit cols p (width c) := le_fit
    exact (skipped.trans (Nat.le_add_right _ _)).trans (ih _)

theorem fit_shift (b p w : Nat) : fit cols (b * cols + p) w = b * cols + fit cols p w := by
  unfold fit
  rw [Nat.mul_comm, Nat.mul_add_mod]
  split <;> omega

/-- Whole rows in front of a text change nothing in it. -/
theorem behind_shift (b p : Nat) (t : List γ) :
    behind cols width (b * cols + p) t = b * cols + behind cols width p t := by
  induction t generalizing p with
  | nil => rfl
  | cons c t ih => rw [behind_cons, fit_shift, Nat.add_assoc, ih, behind_cons]

/-- A text that fits in the row takes as many cells as it is wide. -/
theorem behind_narrow (narrow : p + (t.map width).sum < cols) :
    behind cols width p t = p + (t.map width).sum := by
  induction t generalizing p with
  | nil => rfl
  | cons c t ih =>
    rw [List.map_cons, List.sum_cons] at narrow ⊢
    have here : fit cols p (width c) = p := by
      unfold fit
      rw [Nat.mod_eq_of_lt (by omega), if_neg (by omega)]
    rw [behind_cons, here, ih (by omega), Nat.add_assoc]

/-- Columns in a row, with the last cell of a row counted to it. -/
theorem place_mod (inside : s.col ≤ cols) :
    s.place cols % cols = if s.col = cols then 0 else s.col := by
  unfold place
  split
  next edge => rw [edge, Nat.add_mod_right, Nat.mul_mod_left]
  next =>
    rw [Nat.add_comm, Nat.add_mul_mod_self_right]
    exact Nat.mod_eq_of_lt (by omega)

theorem place_put (inside : s.col ≤ cols) (narrow : width c ≤ cols) :
    (s.put cols width c).place cols = fit cols (s.place cols) (width c) + width c := by
  have column := place_mod inside
  unfold fit
  rw [column]
  unfold put place
  by_cases edge : s.col = cols
  · rw [if_pos edge]
    by_cases some : width c = 0
    · simp [edge, some]
    · simp only [edge]
      rw [if_pos (by omega), if_pos (by omega), if_neg (by omega)]
      ring
  · rw [if_neg edge]
    by_cases wraps : cols < s.col + width c
    · simp only [if_pos wraps]
      rw [Nat.add_mul]
      omega
    · simp only [if_neg wraps]
      omega

theorem put_col_le (narrow : width c ≤ cols) :
    (s.put cols width c).col ≤ cols := by
  unfold put
  simp only
  split <;> omega

theorem put_row_le : s.row ≤ (s.put cols width c).row := by
  unfold put
  simp only
  split <;> omega

theorem put_cell {r : Nat} (other : r < s.row ∨ (s.put cols width c).row < r) (k : Nat) :
    (s.put cols width c).cell r k = s.cell r k := by
  have down : s.row ≤ (s.put cols width c).row := put_row_le
  unfold put at other down ⊢
  simp only at other down ⊢
  rw [if_neg]
  rintro ⟨rfl, -⟩
  omega

/-- What printing a text does: the cursor goes where it is counted to, and no row outside of those
it passed is touched. -/
structure Printed (cols : Nat) (width : γ → Nat) (s : Screen γ) (t : List γ) : Prop where
  place : (s.print cols width t).place cols = behind cols width (s.place cols) t
  inside : (s.print cols width t).col ≤ cols
  down : s.row ≤ (s.print cols width t).row
  cell : ∀ r k, r < s.row ∨ (s.print cols width t).row < r →
    (s.print cols width t).cell r k = s.cell r k

theorem print_spec (inside : s.col ≤ cols)
    (narrow : ∀ c ∈ t, width c ≤ cols) : Printed cols width s t := by
  induction t generalizing s with
  | nil => exact ⟨rfl, inside, Nat.le_refl _, fun _ _ _ => rfl⟩
  | cons c t ih =>
    have first := narrow c List.mem_cons_self
    have later : Printed cols width (s.put cols width c) t :=
      ih (put_col_le first) fun c mem => narrow c (List.mem_cons_of_mem _ mem)
    have down : s.row ≤ (s.put cols width c).row := put_row_le
    have further : (s.put cols width c).row ≤ (s.print cols width (c :: t)).row := later.down
    refine ⟨?_, later.inside, down.trans further, ?_⟩
    · rw [behind_cons, ← place_put inside first]
      exact later.place
    · intro r k other
      have same : (s.print cols width (c :: t)).cell r k = (s.put cols width c).cell r k := by
        refine later.cell r k ?_
        rcases other with above | below
        · exact Or.inl (by omega)
        · exact Or.inr below
      rw [same]
      refine put_cell ?_ k
      rcases other with above | below
      · exact Or.inl above
      · exact Or.inr (by omega)

theorem print_col_pos (visible : ∀ c ∈ t, 0 < width c) (some : t ≠ []) :
    0 < (s.print cols width t).col := by
  cases t using List.reverseRecOn with
  | nil => exact absurd rfl some
  | append_singleton t c =>
    have positive := visible c (List.mem_append_right _ List.mem_cons_self)
    rw [Screen.print, List.foldl_append]
    exact Nat.lt_of_lt_of_le positive (Nat.le_add_left _ _)

/-- The cells a text takes in a row. -/
def cells (width : γ → Nat) (t : List γ) : List γ := t.flatMap fun c => List.replicate (width c) c

theorem cells_append (t u : List γ) : cells width (t ++ u) = cells width t ++ cells width u :=
  List.flatMap_append

theorem cells_length (width : γ → Nat) (t : List γ) :
    (cells width t).length = (t.map width).sum := by
  simp [cells, List.length_flatMap]

/-- A text that fits in the rest of the row. -/
theorem print_row (fits : s.col + (t.map width).sum ≤ cols) :
    s.print cols width t =
      ⟨fun r k => if r = s.row ∧ s.col ≤ k ∧ k < s.col + (t.map width).sum then
          (cells width t)[k - s.col]? else s.cell r k,
        s.row, s.col + (t.map width).sum⟩ := by
  induction t generalizing s with
  | nil =>
    rw [Screen.print, List.foldl_nil]
    ext
    · simp only [List.map_nil, List.sum_nil, Nat.add_zero]
      rw [if_neg (by omega)]
    · rfl
    · rfl
  | cons c t ih =>
    rw [List.map_cons, List.sum_cons] at fits ⊢
    have stays : ¬cols < s.col + width c := by omega
    have first : s.put cols width c =
        ⟨fun r k => if r = s.row ∧ s.col ≤ k ∧ k < s.col + width c then some c else s.cell r k,
          s.row, s.col + width c⟩ := by
      simp only [put, if_neg stays]
    rw [Screen.print, List.foldl_cons, first]
    refine (ih (by simp only; omega)).trans ?_
    rw [Screen.mk.injEq]
    refine ⟨?_, rfl, Nat.add_assoc _ _ _⟩
    funext r k
    simp only [cells, List.flatMap_cons]
    by_cases here : r = s.row ∧ s.col ≤ k ∧ k < s.col + width c
    · rw [if_neg (by omega), if_pos here, if_pos (by omega),
        List.getElem?_append_left (by simp; omega), List.getElem?_replicate, if_pos (by omega)]
    · rw [if_neg here]
      by_cases later : r = s.row ∧ s.col + width c ≤ k ∧
          k < s.col + width c + (t.map width).sum
      · rw [if_pos later, if_pos (by omega), List.getElem?_append_right (by simp; omega),
          List.length_replicate, Nat.sub_sub]
      · rw [if_neg later, if_neg (by omega)]

def clears : Nat → List (Command γ)
  | 0 => [.cr, .clearRight]
  | n + 1 => .cr :: .clearRight :: .up 1 :: clears n

/-- The cursor goes up `n` rows, or to the first, and every row it was in is blank. -/
theorem run_clears (n : Nat) (s : Screen γ) :
    s.run cols width (clears n) =
      ⟨fun r k => if s.row - n ≤ r ∧ r ≤ s.row then none else s.cell r k, s.row - n, 0⟩ := by
  induction n generalizing s with
  | zero =>
    simp only [clears, run_cons, run_nil, step, Screen.mk.injEq, Nat.sub_zero, and_self, and_true]
    funext r k
    have same : (r = s.row ∧ min (cols - 1) 0 ≤ k) ↔ (s.row ≤ r ∧ r ≤ s.row) := by omega
    simp only [same]
  | succ n ih =>
    rw [clears, run_cons, run_cons, run_cons]
    change run cols width
      ⟨fun r k => if r = s.row ∧ min (cols - 1) 0 ≤ k then none else s.cell r k,
        s.row - 1, 0⟩ (clears n) = _
    rw [ih, Screen.mk.injEq]
    refine ⟨?_, ?_, rfl⟩
    · funext r k
      change (if s.row - 1 - n ≤ r ∧ r ≤ s.row - 1 then none
        else if r = s.row ∧ min (cols - 1) 0 ≤ k then none else s.cell r k) = _
      by_cases above : s.row - (n + 1) ≤ r ∧ r ≤ s.row
      · rw [if_pos above]
        by_cases last : r = s.row
        · simp [last]
        · rw [if_pos (by omega)]
      · rw [if_neg above, if_neg (by omega), if_neg (by omega)]
    · change s.row - 1 - n = s.row - (n + 1)
      omega

/-- An area whose rows are blank from some row on is cleared from its last row up. -/
theorem run_clears_area {base : Nat} (last : s.row = base + n)
    (blank : ∀ r k, base + n < r → s.cell r k = none) :
    s.run cols width (clears n) = cleared s.cell base := by
  rw [run_clears, cleared, Screen.mk.injEq]
  refine ⟨?_, by omega, rfl⟩
  funext r k
  by_cases above : r < base
  · rw [if_neg (by omega), if_pos above]
  · rw [if_neg above]
    by_cases within : r ≤ base + n
    · rw [if_pos (by omega)]
    · rw [if_neg (by omega), blank r k (by omega)]

end WrappingTerminals
