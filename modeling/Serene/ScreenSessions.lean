import Serene.DrawnEdits
import Serene.ScreenRefresh

/-!
# What the screen shows during a session

In the multi-line mode the screen shows at each key the line being edited, and
its cursor is where the line's is.
-/

namespace ScreenSessions

open ByteClasses Utf8Texts Zippers TerminalText MemoryBlocks LineDrawing LineColumns
open BoundedLogs InputHistory LineEditor LineEdits EditSessions EditSafety DrawnEdits
open WrappingTerminals WrappingTerminals.Screen Screens ScreenRefresh

variable {l l' : LinenoiseState} {prompt : Text} {e : Editing} {w w' : Zipper CodedChar}
variable {above : Nat → Nat → Option CodedChar} {base cols : Nat}

/-- The bytes written so far show the line from the row `top` on, and the rows above it are as they
were. -/
structure Seen (cols : Nat) (prompt : Text) (above : Nat → Nat → Option CodedChar) (base top : Nat)
    (w : Zipper CodedChar) (l : LinenoiseState) : Prop where
  columns_eq : l.cols = cols
  sends : Sends l.out (commands l.out)
  shows : Shows cols prompt w (cleared above top) l.maxrows l.oldcolpos
    ((cleared above base).run cols width (commands l.out))

theorem seen_kept (wide : 2 < cols) (narrow : columns prompt < cols)
    (visible : ∀ c ∈ prompt, Visible c) :
    Kept true prompt Visible (Seen cols prompt above base) := by
  intro w w' l l' clears top good good' line redraws seen
  obtain ⟨rfl, sends, shows⟩ := seen
  have all : ∀ c ∈ prompt ++ w'.contents, Visible c := by
    intro c mem
    exact (List.mem_append.mp mem).elim (visible c) (line c)
  have shown : ∀ c ∈ prompt ++ w'.contents, printable c := fun c mem => (all c mem).1
  cases redraws with
  | stays same =>
    subst same
    have one := represents_unique good.represents good'.represents
    exact ⟨rfl, sends, one ▸ shows⟩
  | written cbuf mid buf single => cases single
  | drawn buf pos len history_index ran =>
    have represents := refreshLine_represents ran good'.represents
    obtain ⟨bytes, drawn, sent⟩ := refreshMultiLine_sends represents
      good.drawable.prompt_eq wide narrow shown
    have whole := sends.append sent
    have final := drawn.symm.trans ran
    cases final
    refine ⟨rfl, whole.commands_eq ▸ whole, ?_⟩
    simp only [whole.commands_eq]
    rw [run_append]
    exact shows.refreshed wide narrow all
  | cleared ran =>
    have represents := refreshLine_represents ran good'.represents
    obtain ⟨bytes, drawn, sent⟩ := refreshMultiLine_sends represents
      good.drawable.prompt_eq wide narrow shown
    have whole := (sends.append sends_clearing).append sent
    have final := drawn.symm.trans ran
    cases final
    refine ⟨rfl, whole.commands_eq ▸ whole, ?_⟩
    simp only [whole.commands_eq]
    rw [List.append_assoc, run_append]
    exact clearing_shows wide narrow all above _ _ _

/-- At the start the prompt is on the screen, and the cursor behind it. -/
theorem seen_start (wide : 2 < cols) (narrow : columns prompt < cols)
    (visible : ∀ c ∈ prompt, Visible c) (fresh : Fresh prompt cols l) :
    Seen cols prompt above base base (.atEnd []) l := by
  have shown : ∀ c ∈ prompt, printable c := fun c mem => (visible c mem).1
  have sends : Sends l.out (prompt.map .put) := fresh.out ▸ sends_flat shown
  have here : cursor cols prompt (.atEnd []) = columns prompt := rfl
  obtain ⟨rows, row, place, -, below⟩ :=
    print_total above base [] wide narrow shown
  rw [List.append_nil] at row place below
  rw [behind_nil] at place
  have top : rows = 0 := by
    rcases Nat.eq_zero_or_pos rows with zero | positive
    · exact zero
    · have := Nat.le_mul_of_pos_left cols positive
      omega
  subst top
  refine ⟨fresh.cols, sends.commands_eq ▸ sends, ?_⟩
  rw [sends.commands_eq, run_puts, fresh.maxrows, fresh.oldcolpos]
  refine ⟨?_, ?_, ?_, rfl, ?_, ?_⟩
  · rw [Zipper.contents_atEnd, List.append_nil]
  · rw [row, here, Nat.div_eq_of_lt narrow]
    rfl
  · rw [here, Nat.mod_eq_of_lt narrow]
    omega
  · rw [here, Nat.div_eq_of_lt narrow]
    decide
  · intro r k under
    exact below r k (by change base + 1 ≤ r at under; omega)

variable {h : History} {past : List Text} {mem : Bytes}

/-- After any keys, with no control character and none that joins another in the prompt, the
history and the line: what has been written shows the prompt and the line from the row the
session began in, or from the first one if the screen was cleared, nothing below, and the cursor
of the screen at that of the line. The rows above are as they were. -/
theorem linenoiseEdit_seen (offered : Offered h past mem) (memory : 0 < mem.length)
    (wide : 2 < cols) (narrow : columns prompt < cols) (visible : ∀ c ∈ prompt, Visible c)
    (past_visible : ∀ t ∈ past, ∀ c ∈ t, Visible c) (keys : List Key)
    (are : ∀ key ∈ keys, Key.Only Visible key)
    (admits : (Editing.opened h.history_max_len past).AdmitsAll true (mem.length - 1) keys)
    (goesOn : pressed true (mem.length - 1) (Editing.opened h.history_max_len past) keys =
      some e) (above : Nat → Nat → Option CodedChar) (base : Nat) :
    ∃ m, linenoiseEdit true h cols mem (flat prompt) (keys.flatMap Key.bytes) =
        some (some e.size, m, []) ∧
      ((cleared above base).run cols width (commands m.state.out)).cell =
        ((cleared above (firstRow base keys)).print cols width (prompt ++ e.line.contents)).cell ∧
      ((cleared above base).run cols width (commands m.state.out)).row =
        firstRow base keys + cursor cols prompt e.line / cols ∧
      ((cleared above base).run cols width (commands m.state.out)).col =
        cursor cols prompt e.line % cols ∧
      ∀ r k, r < firstRow base keys →
        ((cleared above base).run cols width (commands m.state.out)).cell r k = above r k := by
  have kept : Kept true prompt Visible (Seen cols prompt above base) :=
    seen_kept wide narrow visible
  obtain ⟨m, ran, -, -, shows⟩ := linenoiseEdit_keeps kept
    (seen_start wide narrow visible) offered memory (by omega) (by simp) past_visible keys are
    admits goesOn
  exact ⟨m, ran, shows.cell, shows.row, shows.col, fun r k => shows.untouched wide⟩

/-- On a terminal of three columns `def` fills the row, and the cursor goes to the next one. The
rows above are full of `d`s. -/
def fullRow : List Key :=
  [.char (.ascii 100 (by decide)) (by decide), .char (.ascii 101 (by decide)) (by decide),
    .char (.ascii 102 (by decide)) (by decide)]

def letters : Text := [.ascii 100 (by decide), .ascii 101 (by decide), .ascii 102 (by decide)]

def earlier : Nat → Nat → Option CodedChar := fun _ _ => letters.head?

theorem linenoiseEdit_seen_fullRow :
    ∃ m, linenoiseEdit true ⟨4, []⟩ 3 (List.replicate 8 0) (flat []) (fullRow.flatMap Key.bytes) =
        some (some 3, m, []) ∧
      ((cleared earlier 2).run 3 width (commands m.state.out)).cell =
        ((cleared earlier 2).print 3 width letters).cell ∧
      ((cleared earlier 2).run 3 width (commands m.state.out)).row = 3 ∧
      ((cleared earlier 2).run 3 width (commands m.state.out)).col = 0 ∧
      ∀ r k, r < 2 → ((cleared earlier 2).run 3 width (commands m.state.out)).cell r k =
        letters.head? := by
  have offered : Offered ⟨4, []⟩ [] (List.replicate 8 0) := ⟨by decide, rfl, by simp⟩
  have admits : (Editing.opened 4 []).AdmitsAll true 7 fullRow :=
    ⟨⟨fun _ _ => by decide, fun swap => absurd swap (by decide)⟩,
      ⟨fun _ _ => by decide, fun swap => absurd swap (by decide)⟩,
      ⟨fun _ _ => by decide, fun swap => absurd swap (by decide)⟩, trivial⟩
  have are : ∀ key ∈ fullRow, Key.Only Visible key := by
    have typed : Visible (.ascii 100 (by decide)) ∧ Visible (.ascii 101 (by decide)) ∧
        Visible (.ascii 102 (by decide)) := by
      unfold Visible printable
      decide +kernel
    intro key mem
    simp only [fullRow, List.mem_cons, List.not_mem_nil, or_false] at mem
    rcases mem with rfl | rfl | rfl
    · exact fun _ => typed.1
    · exact fun _ => typed.2.1
    · exact fun _ => typed.2.2
  have here : cursor 3 [] (Editing.line ⟨.atEnd letters, [[]], 0⟩) = 3 := by
    rw [cursor, columns_nil]
    decide +kernel
  have seen := linenoiseEdit_seen offered (by decide) (by decide)
    (show columns [] < 3 by rw [columns_nil]; decide) (by simp) (by simp) fullRow are admits
    (e := ⟨.atEnd letters, [[]], 0⟩) rfl earlier 2
  obtain ⟨m, ran, cell, row, col, above⟩ := seen
  have size : Editing.size ⟨.atEnd letters, [[]], 0⟩ = 3 := rfl
  have top : firstRow 2 fullRow = 2 := by decide
  rw [size] at ran
  rw [top] at cell row above
  rw [here] at row col
  exact ⟨m, ran, cell, row, col, above⟩

end ScreenSessions
