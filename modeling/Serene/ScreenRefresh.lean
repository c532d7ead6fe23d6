import Serene.LineColumns
import Serene.Screens

/-!
# What a refresh of several rows shows

The column arithmetic of the multi-line mode counts the cells of a terminal that
wraps, where the prompt is narrower than the terminal and that has three columns
or more. So `refreshMultiLine` finds the rows it has used, clears them, and
leaves the prompt and the line on the screen and the cursor at its place in them.
-/

namespace ScreenRefresh

open ByteClasses Utf8Texts Zippers TerminalText MemoryBlocks LineDrawing LineColumns
open UnicodeTables WrappingTerminals WrappingTerminals.Screen Screens

variable {cols : Nat} {t u before after : Text} {c : CodedChar} {p : Nat}

/-- The place of a cursor in front of a text. -/
def stop (cols p : Nat) : Text → Nat
  | [] => p
  | c :: _ => fit cols p (width c)

/-- The branches of the loop: the empty cell in front of a wide character is counted, and the column
is that behind the character. -/
theorem row_step (wide : 2 < cols) {w : Nat} (narrow : w ≤ 2) (ini ret : Nat) :
    (if cols < (ini + ret) % cols + w then (ret + ((ini + ret) % cols + w - cols), w)
      else if (ini + ret) % cols + w = cols then (ret, 0) else (ret, (ini + ret) % cols + w)) =
      (fit cols (ini + ret) w - ini, (fit cols (ini + ret) w + w) % cols) := by
  have column : (ini + ret) % cols < cols := Nat.mod_lt _ (by omega)
  have whole := Nat.div_add_mod (ini + ret) cols
  unfold fit
  generalize (ini + ret) % cols = col at column whole ⊢
  by_cases wraps : cols < col + w
  · have skipped : ini + ret + (cols - col) = cols * ((ini + ret) / cols) + cols := by omega
    rw [if_pos wraps, if_pos wraps, skipped, ← Nat.mul_succ, Nat.mul_add_mod,
      Nat.mod_eq_of_lt (by omega), Nat.mul_succ]
    congr 1
    omega
  · rw [if_neg wraps, if_neg wraps]
    have behind : (ini + ret + w) % cols = (col + w) % cols := by
      rw [← whole, Nat.add_assoc, Nat.mul_add_mod]
    rw [behind, Nat.add_sub_cancel_left]
    by_cases edge : col + w = cols
    · rw [if_pos edge, edge, Nat.mod_self]
    · rw [if_neg edge, Nat.mod_eq_of_lt (by omega)]

/-- One turn of the loop. -/
theorem columnPosLoop_char (wide : 2 < cols) (x : Bytes) (c : CodedChar) (t : Text)
    (pos ini ret : Nat) :
    columnPosLoop (x ++ flat (c :: t)) pos cols x.length ret ((ini + ret) % cols) =
      if pos ≤ x.length then some (fit cols (ini + ret) (width c) - ini)
      else columnPosLoop ((x ++ c.bytes) ++ flat t) pos cols (x ++ c.bytes).length
        (fit cols (ini + ret) (width c) - ini + width c)
        ((fit cols (ini + ret) (width c) + width c) % cols) := by
  have positive := c.size_pos
  have enough : c.size ≤ (x ++ flat (c :: t)).length - x.length := by simp
  have code := unicodeUTF8CharToCodePoint_spec c (flat t) enough
  have inside : x.length < (x ++ flat (c :: t)).length := by
    simp only [flat_cons, List.length_append, CodedChar.length_bytes]
    omega
  rw [columnPosLoop, dif_pos inside, List.drop_left, flat_cons]
  rw [flat_cons] at code
  rw [code]
  have next := row_step wide (width_le c) ini ret
  have wid : charWidth c.code = width c := rfl
  simp only [wid, next, dif_pos positive, List.append_assoc, List.length_append,
    CodedChar.length_bytes]

theorem columnPosLoop_spec (wide : 2 < cols) (x : Bytes) (before after : Text) (ini ret : Nat) :
    ∃ n, columnPosLoop (x ++ flat (before ++ after)) (x.length + (flat before).length) cols
        x.length ret ((ini + ret) % cols) = some n ∧
      ini + n = stop cols (behind cols width (ini + ret) before) after := by
  have first : ∀ c ret, ini ≤ fit cols (ini + ret) (width c) := fun c ret =>
    (Nat.le_add_right ini ret).trans le_fit
  induction before generalizing x ret with
  | nil =>
    cases after with
    | nil => exact ⟨ret, by rw [columnPosLoop, dif_neg (by simp)], rfl⟩
    | cons c after =>
      refine ⟨_, (columnPosLoop_char wide x c after _ ini ret).trans (if_pos (Nat.le_refl _)), ?_⟩
      exact Nat.add_sub_cancel' (first c ret)
  | cons c before ih =>
    have positive := c.size_pos
    have further : ¬x.length + (flat (c :: before)).length ≤ x.length := by
      simp only [flat_cons, List.length_append, CodedChar.length_bytes]
      omega
    have moved : (x ++ c.bytes).length + (flat before).length =
        x.length + (flat (c :: before)).length := by
      simp [Nat.add_assoc]
    have counted : ini + (fit cols (ini + ret) (width c) - ini + width c) =
        fit cols (ini + ret) (width c) + width c := by
      have := first c ret
      omega
    obtain ⟨n, ran, value⟩ := ih (x ++ c.bytes) (fit cols (ini + ret) (width c) - ini + width c)
    rw [counted, moved] at ran
    rw [counted] at value
    refine ⟨n, ?_, value⟩
    rw [List.cons_append, columnPosLoop_char wide, if_neg further]
    exact ran

theorem columns_printable (shown : ∀ c ∈ t, printable c) : columns t = (t.map width).sum := by
  induction t with
  | nil => exact columns_nil
  | cons c t ih =>
    have lead := printable_lead (shown c List.mem_cons_self)
    have plain : isAnsiEscape (flat (c :: t)) = none := by
      unfold isAnsiEscape
      split
      next opens =>
        rw [flat_cons, CodedChar.bytes] at opens
        rw [(List.cons.inj opens).1] at lead
        exact absurd lead (by decide)
      next => rfl
    have rest := ih fun c mem => shown c (List.mem_cons_of_mem _ mem)
    rw [columns, unicodeColumnPos_cons plain, unicodeColumnPos_flat, rest]
    rfl

section Draw
variable (cols : Nat) (prompt : Text) (w : Zipper CodedChar)

/-- The cells in front of the cursor. -/
def cursor : Nat := stop cols (behind cols width (columns prompt) w.before.reverse) w.after

/-- The line ends with its row, and the cursor is behind it. -/
def AtEdge : Prop := w.before ≠ [] ∧ w.after = [] ∧ cursor cols prompt w % cols = 0

instance : Decidable (AtEdge cols prompt w) := inferInstanceAs (Decidable (_ ∧ _ ∧ _))

def rowsUsed : Nat :=
  (behind cols width (columns prompt) w.contents + cols - 1) / cols +
    if AtEdge cols prompt w then 1 else 0

/-- The commands behind the clearing. -/
def redraw : List (Command CodedChar) :=
  (prompt ++ w.contents).map .put ++ (if AtEdge cols prompt w then [.lf, .cr] else []) ++
    (if cursor cols prompt w / cols + 1 < rowsUsed cols prompt w then
      [.up (rowsUsed cols prompt w - (cursor cols prompt w / cols + 1))] else []) ++
    (if cursor cols prompt w % cols ≠ 0 then [.cr, .right (cursor cols prompt w % cols)]
      else [.cr])

/-- The commands that go to the last row used before. -/
def descend (oldcolpos maxrows : Nat) : List (Command CodedChar) :=
  if (columns prompt + oldcolpos) / cols + 1 < maxrows then
    [.down (maxrows - ((columns prompt + oldcolpos) / cols + 1))] else []

end Draw

variable {w : Zipper CodedChar} {l : LinenoiseState} {prompt : Text}

theorem refreshMultiLine_sends (represents : Represents w l) (prompt_eq : l.prompt = flat prompt)
    (wide : 2 < l.cols) (narrow : columns prompt < l.cols)
    (shown : ∀ c ∈ prompt ++ w.contents, printable c) :
    ∃ bytes, refreshMultiLine l = some { l with
        maxrows := max (rowsUsed l.cols prompt w) l.maxrows
        oldcolpos := cursor l.cols prompt w - columns prompt
        out := l.out ++ bytes } ∧
      Sends bytes (descend l.cols prompt l.oldcolpos l.maxrows ++ clears (l.maxrows - 1) ++
        redraw l.cols prompt w) := by
  obtain ⟨rest, held⟩ := represents.held
  have cols_ne : l.cols ≠ 0 := by omega
  have loaded : load l.buf 0 l.len = some (flat w.contents) := by
    rw [held, represents.len_eq, load_front]
  have start : (columns prompt + 0) % l.cols = columns prompt := Nat.mod_eq_of_lt narrow
  obtain ⟨all, whole, total⟩ := columnPosLoop_spec wide [] w.contents [] (columns prompt) 0
  obtain ⟨part, here, place⟩ :=
    columnPosLoop_spec wide [] w.before.reverse w.after (columns prompt) 0
  rw [start] at whole here
  simp only [List.append_nil, List.nil_append, List.length_nil, Nat.zero_add, Nat.add_zero]
    at whole here total place
  rw [← represents.len_eq] at whole
  rw [← represents.pos_eq] at here
  change columnPosLoop (flat w.contents) l.pos l.cols 0 0 (columns prompt) = some part at here
  change columns prompt + part = cursor l.cols prompt w at place
  have edge : (l.pos ≠ 0 ∧ l.pos = l.len ∧ (part + columns prompt) % l.cols = 0) =
      AtEdge l.cols prompt w := by
    have first : l.pos ≠ 0 ↔ w.before ≠ [] := by
      rw [represents.pos_eq, ne_eq, List.length_eq_zero_iff, flat_eq_nil, List.reverse_eq_nil_iff]
    have last : l.pos = l.len ↔ w.after = [] := by
      rw [represents.pos_eq, represents.len_eq, Zipper.contents, flat_append, List.length_append,
        Nat.left_eq_add, List.length_eq_zero_iff, flat_eq_nil]
    rw [first, last, Nat.add_comm, place]
    rfl
  have rpos (n : Nat) : (n + l.cols) / l.cols = n / l.cols + 1 := Nat.add_div_right n (by omega)
  have down := sends_steps (show isdigit 'B'.toUInt8 = false by decide)
    (fun n => (rfl : control n 'B'.toUInt8 = [.down (max n 1)]))
    ((columns prompt + l.oldcolpos) / l.cols + 1) l.maxrows
  have up := sends_steps (show isdigit 'A'.toUInt8 = false by decide)
    (fun n => (rfl : control n 'A'.toUInt8 = [.up (max n 1)]))
    (cursor l.cols prompt w / l.cols + 1) (rowsUsed l.cols prompt w)
  have newline : Sends (if AtEdge l.cols prompt w then text "\n\r" else [])
      (if AtEdge l.cols prompt w then [.lf, .cr] else []) := by
    split
    · exact sends_newline
    · exact sends_nil
  have sent := (down.append (sends_clearRows (l.maxrows - 1))).append
    ((((sends_flat shown).append newline).append up).append
      (sends_column (cursor l.cols prompt w % l.cols)))
  refine ⟨_, ?_, sent⟩
  · unfold refreshMultiLine unicodeColumnPosForMultiLine
    rw [prompt_eq, unicodeColumnPos_flat, loaded]
    simp only [Option.bind_eq_bind, Option.bind_some, whole, here, if_neg cols_ne, edge, place,
      total, rpos, stop]
    have later : part = cursor l.cols prompt w - columns prompt := by omega
    by_cases atEdge : AtEdge l.cols prompt w
    · simp only [rowsUsed, if_pos atEdge, flat_append, List.append_assoc, later]
      rw [← Nat.max_assoc, Nat.max_eq_left (Nat.le_succ _)]
      rfl
    · simp only [rowsUsed, if_neg atEdge, flat_append, List.append_assoc, later, Nat.add_zero,
        List.nil_append]
      rfl

/-- A character with cells of its own. -/
def Visible (c : CodedChar) : Prop := printable c ∧ joins c = false

theorem Visible.positive (visible : Visible c) : 0 < width c := by
  have alone : unicodeIsCombiningChar c.code = false := visible.2
  unfold width charWidth
  rw [alone]
  split_ifs <;> simp_all

/-- The screen shows the prompt and the line on `t`, whose cursor is in the corner of the area used,
and the numbers the editor has kept are those of the area and the cursor. -/
structure Shows (cols : Nat) (prompt : Text) (w : Zipper CodedChar) (t : Screen CodedChar)
    (maxrows oldcolpos : Nat) (s : Screen CodedChar) : Prop where
  cell : s.cell = (t.print cols width (prompt ++ w.contents)).cell
  row : s.row = t.row + cursor cols prompt w / cols
  col : s.col = cursor cols prompt w % cols
  counted : columns prompt + oldcolpos = cursor cols prompt w
  within : cursor cols prompt w / cols < max maxrows 1
  below : ∀ r k, t.row + max maxrows 1 ≤ r → s.cell r k = none

theorem cursor_total (cols : Nat) (prompt : Text) (visible : ∀ c ∈ w.contents, Visible c) :
    w.after = [] ∧ cursor cols prompt w = behind cols width (columns prompt) w.contents ∨
      cursor cols prompt w < behind cols width (columns prompt) w.contents := by
  unfold cursor
  rw [Zipper.contents, behind_append]
  cases found : w.after with
  | nil => exact Or.inl ⟨rfl, rfl⟩
  | cons c after =>
    right
    have positive : 0 < width c := by
      refine (visible c ?_).positive
      rw [Zipper.contents, found]
      exact List.mem_append_right _ List.mem_cons_self
    rw [behind_cons, stop]
    exact Nat.lt_of_lt_of_le (Nat.lt_add_of_pos_right positive) (le_behind _ _)

theorem behind_prompt (narrow : columns prompt < cols) (shown : ∀ c ∈ prompt, printable c) :
    behind cols width 0 prompt = columns prompt := by
  have wide := columns_printable shown
  rw [behind_narrow (by rw [Nat.zero_add, ← wide]; exact narrow), Nat.zero_add, wide]

/-- Where printing the prompt and the line leaves the cursor. -/
theorem print_total (above : Nat → Nat → Option CodedChar) (base : Nat) (line : Text)
    (wide : 2 < cols) (narrow : columns prompt < cols) (shown : ∀ c ∈ prompt, printable c) :
    ∃ rows, ((cleared above base).print cols width (prompt ++ line)).row = base + rows ∧
      rows * cols + ((cleared above base).print cols width (prompt ++ line)).col =
        behind cols width (columns prompt) line ∧
      ((cleared above base).print cols width (prompt ++ line)).col ≤ cols ∧
      ∀ r k, base + rows < r →
        ((cleared above base).print cols width (prompt ++ line)).cell r k = none := by
  have printed : Printed cols width (cleared above base) (prompt ++ line) :=
    print_spec (Nat.zero_le _) fun c _ => (width_le c).trans (by omega)
  have start : (cleared above base).place cols = base * cols + 0 := rfl
  have place := printed.place
  rw [start, behind_shift, behind_append, behind_prompt narrow shown] at place
  obtain ⟨rows, down⟩ := Nat.exists_eq_add_of_le printed.down
  change _ = base + rows at down
  refine ⟨rows, down, ?_, printed.inside, ?_⟩
  · rw [Screen.place, down, Nat.add_mul] at place
    omega
  · intro r k below
    rw [printed.cell r k (Or.inr (down ▸ below))]
    exact if_neg (by omega)

theorem rows_spec {rows col total : Nat} (place : rows * cols + col = total) (inside : col ≤ cols)
    (positive : 0 < col) : (total + cols - 1) / cols = rows + 1 := by
  have split : total + cols - 1 = cols * (rows + 1) + (col - 1) := by
    rw [← place, Nat.mul_add, Nat.mul_comm cols rows]
    omega
  rw [split, Nat.mul_add_div (by omega), Nat.div_eq_of_lt (by omega)]

theorem columns_le_cursor : columns prompt ≤ cursor cols prompt w := by
  have front : columns prompt ≤ behind cols width (columns prompt) w.before.reverse :=
    le_behind _ _
  unfold cursor stop
  split
  · exact front
  · exact front.trans le_fit

/-- The last row printed or begun, counted from the first, is the last row used, and the cursor is
not below it. -/
theorem rows_facts {rows col : Nat} (wide : 2 < cols) (narrow : columns prompt < cols)
    (visible : ∀ c ∈ w.contents, Visible c) (inside : col ≤ cols)
    (place : rows * cols + col = behind cols width (columns prompt) w.contents)
    (none : col = 0 → w.contents = [] ∧ columns prompt = 0) :
    rows + (if AtEdge cols prompt w then 1 else 0) + 1 = max (rowsUsed cols prompt w) 1 ∧
      cursor cols prompt w / cols ≤ rows + (if AtEdge cols prompt w then 1 else 0) := by
  have positive : 0 < cols := by omega
  by_cases empty : col = 0
  · obtain ⟨nothing, zero⟩ := none empty
    have before : w.before = [] := by
      have := List.append_eq_nil_iff.mp nothing
      simpa using this.1
    have after : w.after = [] := (List.append_eq_nil_iff.mp nothing).2
    have first : ¬AtEdge cols prompt w := fun edge => edge.1 before
    have corner : cursor cols prompt w = 0 := by
      simp [cursor, before, after, stop, zero]
    rw [nothing, behind_nil, zero, empty] at place
    have top : rows = 0 := by
      rcases Nat.mul_eq_zero.mp (show rows * cols = 0 from place) with top | thin
      · exact top
      · omega
    have used : rowsUsed cols prompt w = 0 := by
      rw [rowsUsed, nothing, behind_nil, zero, if_neg first]
      exact Nat.div_eq_of_lt (by omega)
    rw [if_neg first, used, corner, top]
    simp
  · have lines := rows_spec place inside (Nat.pos_of_ne_zero empty)
    have total := cursor_total cols prompt visible
    have used : rowsUsed cols prompt w =
        rows + 1 + (if AtEdge cols prompt w then 1 else 0) := by rw [rowsUsed, lines]
    rw [← place] at total
    constructor
    · rw [used]
      omega
    · by_cases edge : AtEdge cols prompt w
      · rw [if_pos edge]
        have most : cursor cols prompt w ≤ cols * (rows + 1) := by
          rw [Nat.mul_comm, Nat.add_mul]
          omega
        exact Nat.div_le_of_le_mul most
      · rw [if_neg edge, Nat.add_zero]
        apply Nat.le_of_lt_succ
        apply (Nat.div_lt_iff_lt_mul positive).mpr
        rw [Nat.succ_mul]
        rcases total with ⟨last, same⟩ | less
        · have short : col ≠ cols := by
            rintro rfl
            by_cases before : w.before = []
            · have nothing : w.contents = [] := by simp [Zipper.contents, before, last]
              rw [nothing, behind_nil] at place
              omega
            · refine edge ⟨before, last, ?_⟩
              rw [same, Nat.add_mod_right, Nat.mul_mod_left]
          omega
        · omega

/-- On a cleared area, the commands of a refresh show the prompt and the line. -/
theorem redraw_shows (wide : 2 < cols) (narrow : columns prompt < cols)
    (visible : ∀ c ∈ prompt ++ w.contents, Visible c) (above : Nat → Nat → Option CodedChar)
    (base maxrows : Nat) :
    Shows cols prompt w (cleared above base) (max (rowsUsed cols prompt w) maxrows)
      (cursor cols prompt w - columns prompt)
      ((cleared above base).run cols width (redraw cols prompt w)) := by
  have shown : ∀ c ∈ prompt, printable c := fun c mem => (visible c (List.mem_append_left _ mem)).1
  have line : ∀ c ∈ w.contents, Visible c := fun c mem => visible c (List.mem_append_right _ mem)
  obtain ⟨rows, row, place, inside, below⟩ :=
    print_total above base w.contents wide narrow shown
  have none : ((cleared above base).print cols width (prompt ++ w.contents)).col = 0 →
      w.contents = [] ∧ columns prompt = 0 := by
    intro still
    by_contra some
    refine absurd still (Nat.pos_iff_ne_zero.mp (print_col_pos (fun c mem =>
      (visible c mem).positive) fun empty => some ?_))
    obtain ⟨first, last⟩ := List.append_eq_nil_iff.mp empty
    exact ⟨last, by rw [first, columns_nil]⟩
  obtain ⟨used, inner⟩ := rows_facts wide narrow line inside place none
  have ran : (cleared above base).run cols width (redraw cols prompt w) =
      ⟨((cleared above base).print cols width (prompt ++ w.contents)).cell,
        base + cursor cols prompt w / cols, cursor cols prompt w % cols⟩ := by
    have column : cursor cols prompt w % cols < cols := Nat.mod_lt _ (by omega)
    rw [redraw, run_append, run_append, run_append, run_puts]
    generalize (cleared above base).print cols width (prompt ++ w.contents) = s at row ⊢
    obtain ⟨col, fed⟩ : ∃ col, s.run cols width
        (if AtEdge cols prompt w then [.lf, .cr] else []) =
          ⟨s.cell, base + (rows + if AtEdge cols prompt w then 1 else 0), col⟩ := by
      split
      · exact ⟨0, by rw [run_cons, run_cons, run_nil, step, step, row, Nat.add_assoc]⟩
      · exact ⟨s.col, by rw [run_nil, Nat.add_zero, ← row]⟩
    have lifted : (Screen.mk s.cell (base + (rows + if AtEdge cols prompt w then 1 else 0))
        col).run cols width (if cursor cols prompt w / cols + 1 < rowsUsed cols prompt w then
          [.up (rowsUsed cols prompt w - (cursor cols prompt w / cols + 1))] else []) =
        ⟨s.cell, base + cursor cols prompt w / cols, col⟩ := by
      generalize (if AtEdge cols prompt w then 1 else 0) = extra at used inner
      generalize cursor cols prompt w / cols = q at inner
      by_cases less : q + 1 < rowsUsed cols prompt w
      · rw [if_pos less, run_cons, run_nil, step, Screen.mk.injEq]
        refine ⟨rfl, ?_, rfl⟩
        simp only
        omega
      · rw [if_neg less, run_nil, Screen.mk.injEq]
        exact ⟨rfl, by omega, rfl⟩
    rw [fed, lifted]
    split
    · rw [run_cons, run_cons, run_nil, step, step, Screen.mk.injEq]
      refine ⟨rfl, rfl, ?_⟩
      simp only
      omega
    · rw [run_cons, run_nil, step, Screen.mk.injEq]
      exact ⟨rfl, rfl, by omega⟩
  rw [ran]
  refine ⟨rfl, rfl, rfl, Nat.add_sub_cancel' columns_le_cursor, by omega, ?_⟩
  intro r k under
  exact below r k (by change base + _ ≤ r at under; omega)

variable {above : Nat → Nat → Option CodedChar} {base maxrows oldcolpos : Nat}
variable {s : Screen CodedChar} {w' : Zipper CodedChar}

/-- Rows above the area stay as they are. -/
theorem Shows.untouched (shows : Shows cols prompt w (cleared above base) maxrows oldcolpos s)
    (wide : 2 < cols) {r k : Nat} (inside : r < base) : s.cell r k = above r k := by
  have printed : Printed cols width (cleared above base) (prompt ++ w.contents) :=
    print_spec (Nat.zero_le _) fun c _ => (width_le c).trans (by omega)
  rw [shows.cell, printed.cell r k (Or.inl inside)]
  exact if_pos inside

theorem Shows.kept (shows : Shows cols prompt w (cleared above base) maxrows oldcolpos s)
    (wide : 2 < cols) : cleared s.cell base = cleared above base := by
  unfold cleared
  congr 1
  funext r k
  split
  next inside => exact shows.untouched wide inside
  next => rfl

theorem run_descend (cols : Nat) (prompt : Text) (oldcolpos maxrows : Nat) (s : Screen CodedChar) :
    s.run cols width (descend cols prompt oldcolpos maxrows) =
      ⟨s.cell, s.row + (maxrows - ((columns prompt + oldcolpos) / cols + 1)), s.col⟩ := by
  unfold descend
  by_cases less : (columns prompt + oldcolpos) / cols + 1 < maxrows
  · rw [if_pos less]
    rfl
  · rw [if_neg less, run_nil, Nat.sub_eq_zero_of_le (by omega)]
    rfl

/-- A refresh finds the rows used and shows the line there. -/
theorem Shows.refreshed (shows : Shows cols prompt w (cleared above base) maxrows oldcolpos s)
    (wide : 2 < cols) (narrow : columns prompt < cols)
    (visible : ∀ c ∈ prompt ++ w'.contents, Visible c) :
    Shows cols prompt w' (cleared above base) (max (rowsUsed cols prompt w') maxrows)
      (cursor cols prompt w' - columns prompt)
      (s.run cols width (descend cols prompt oldcolpos maxrows ++ clears (maxrows - 1) ++
        redraw cols prompt w')) := by
  have within := shows.within
  have place := shows.row
  change s.row = base + _ at place
  have below : ∀ r k, base + (maxrows - 1) < r → s.cell r k = none := by
    intro r k under
    exact shows.below r k (by change base + _ ≤ r; omega)
  have last : s.row + (maxrows - (cursor cols prompt w / cols + 1)) = base + (maxrows - 1) := by
    generalize cursor cols prompt w / cols = q at within place
    omega
  have area : (Screen.mk s.cell (s.row + (maxrows - (cursor cols prompt w / cols + 1)))
      s.col).run cols width (clears (maxrows - 1)) = cleared s.cell base :=
    run_clears_area last below
  rw [run_append, run_append, run_descend, shows.counted, area, shows.kept wide]
  exact redraw_shows wide narrow visible above base maxrows

/-- A refresh behind the clearing of the screen shows the line in its first rows. -/
theorem clearing_shows (wide : 2 < cols) (narrow : columns prompt < cols)
    (visible : ∀ c ∈ prompt ++ w'.contents, Visible c) (above : Nat → Nat → Option CodedChar)
    (oldcolpos maxrows : Nat) (s : Screen CodedChar) :
    Shows cols prompt w' (cleared above 0) (max (rowsUsed cols prompt w') maxrows)
      (cursor cols prompt w' - columns prompt)
      (s.run cols width (.home :: .clearAll :: (descend cols prompt oldcolpos maxrows ++
        clears (maxrows - 1) ++ redraw cols prompt w'))) := by
  have blank : ((s.step cols width .home).step cols width .clearAll) =
      ⟨fun _ _ => none, 0, 0⟩ := rfl
  rw [run_cons, run_cons, run_append, run_append, run_descend, blank, run_clears]
  have shown := redraw_shows (w := w') wide narrow visible above 0 maxrows
  rw [cleared_zero] at shown ⊢
  simp only [ite_self, Nat.zero_add]
  have first : maxrows - ((columns prompt + oldcolpos) / cols + 1) - (maxrows - 1) = 0 := by
    generalize (columns prompt + oldcolpos) / cols = q
    omega
  rw [first]
  exact shown

end ScreenRefresh
