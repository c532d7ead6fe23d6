import Serene.DrawnEdits
import Serene.ScreenRefresh

/-!
# What the screen shows in the single line mode

The row of the cursor holds the prompt and what fits of the line around the
cursor. Of a full row the last cell is left out: the clearing behind the text
takes it away again, as the cursor is still on it. Without a prompt the move to
column 0 would go one cell too far.
-/

namespace ScreenWindows

open ByteClasses Utf8Texts Zippers TerminalText MemoryBlocks LineDrawing LineColumns
open BoundedLogs InputHistory LineEditor LineEdits EditSessions EditSafety DrawnEdits
open WrappingTerminals WrappingTerminals.Screen Screens ScreenRefresh

variable {prompt left right u : Text} {cols n : Nat} {w w' : Zipper CodedChar}
variable {l l' : LinenoiseState} {t s : Screen CodedChar}

/-- What is hidden of the line in front of the cursor and behind it: no more than has to be. The
cursor is in the row, and one character more before it would take it out; the text is in the
row, and one character more behind it would not be. -/
structure Cut (cols : Nat) (prompt : Text) (w : Zipper CodedChar)
    (hidden left right hidden' : Text) : Prop where
  before : w.before.reverse = hidden ++ left
  after : w.after = right ++ hidden'
  whole : columns prompt + columns w.contents < cols → hidden = [] ∧ hidden' = []
  cursor : columns prompt + columns left < cols
  narrow : columns prompt + columns (left ++ right) ≤ cols
  front : ∀ init c, hidden = init ++ [c] → cols ≤ columns prompt + columns (c :: left)
  back : ∀ c rest, hidden' = c :: rest → cols < columns prompt + columns (left ++ right ++ [c])

/-- The row of `t` shows the prompt and the line but for what is hidden, and the rest of the screen
is that of `t`. -/
structure Window (cols : Nat) (prompt : Text) (w : Zipper CodedChar)
    (hidden left right hidden' : Text) (t s : Screen CodedChar) : Prop where
  cut : Cut cols prompt w hidden left right hidden'
  row : s.row = t.row
  col : s.col = columns prompt + columns left
  cell : ∀ k, k + 1 < cols → s.cell t.row k = (cells width (prompt ++ left ++ right))[k]?
  other : ∀ r k, r ≠ t.row → s.cell r k = t.cell r k

theorem columns_both (shown : ∀ c ∈ left ++ right, printable c) :
    columns (left ++ right) = columns left + columns right := by
  have first : ∀ c ∈ left, printable c := fun c mem => shown c (List.mem_append_left _ mem)
  have second : ∀ c ∈ right, printable c := fun c mem => shown c (List.mem_append_right _ mem)
  rw [columns_printable shown, columns_printable first, columns_printable second, List.map_append,
    List.sum_append]

theorem columns_pos (visible : ∀ c ∈ prompt, Visible c) (prompted : prompt ≠ []) :
    0 < columns prompt := by
  rw [columns_printable fun c mem => (visible c mem).1]
  cases prompt with
  | nil => exact absurd rfl prompted
  | cons c rest =>
    have positive := (visible c List.mem_cons_self).positive
    rw [List.map_cons, List.sum_cons]
    omega

/-- The commands of a refresh. -/
def window (prompt left right : Text) : List (Command CodedChar) :=
  .cr :: ((prompt ++ left ++ right).map .put ++
    [.clearRight, .cr, .right (columns prompt + columns left)])

/-- Characters with cells of their own ride on no other. -/
theorem no_ride {ride : Text} (visible : ∀ d ∈ ride, Visible d)
    (joining : ∀ d ∈ ride, joins d = true) : ride = [] := by
  apply List.eq_nil_iff_forall_not_mem.mpr
  intro d mem
  have alone := (visible d mem).2
  rw [joining d mem] at alone
  cases alone

theorem refreshSingleLine_sends (represents : Represents w l) (prompt_eq : l.prompt = flat prompt)
    (room : columns prompt + 2 < l.cols) (positive : 0 < columns prompt)
    (visible : ∀ c ∈ prompt ++ w.contents, Visible c) :
    ∃ hidden left right hidden' bytes, Cut l.cols prompt w hidden left right hidden' ∧
      (∀ c ∈ prompt ++ left ++ right, printable c) ∧
      refreshSingleLine l = some { l with out := l.out ++ bytes } ∧
      Sends bytes (window prompt left right) := by
  obtain ⟨hidden, left, right, hidden', before, after, front, least, back, least', cursor, narrow,
    ran⟩ := refreshSingleLine_spec represents prompt_eq room
  have line : ∀ c ∈ w.contents, Visible c := fun c mem => visible c (List.mem_append_right _ mem)
  have front_visible : ∀ c ∈ hidden ++ left, Visible c := by
    intro c mem
    exact line c (List.mem_append_left _ (before ▸ mem))
  have back_visible : ∀ c ∈ right ++ hidden', Visible c := by
    intro c mem
    exact line c (List.mem_append_right _ (after ▸ mem))
  have all : ∀ c ∈ prompt ++ left ++ right, printable c := by
    intro c mem
    rcases List.mem_append.mp mem with front | behind
    · rcases List.mem_append.mp front with first | last
      · exact (visible c (List.mem_append_left _ first)).1
      · exact (front_visible c (List.mem_append_right _ last)).1
    · exact (back_visible c (List.mem_append_left _ behind)).1
  refine ⟨hidden, left, right, hidden', _, ⟨before, after, ?_, cursor, narrow, ?_, ?_⟩, all, ran,
    ?_⟩
  · intro fits
    have shown : ∀ c ∈ w.contents, printable c := fun c mem => (line c mem).1
    rw [Zipper.contents] at fits shown
    rw [columns_both shown] at fits
    have none := front (by omega)
    rw [before, none, List.nil_append] at shown fits
    rw [columns_both shown] at back
    exact ⟨none, back (by omega)⟩
  · rintro init c rfl
    rcases least with none | ⟨init', d, ride, last, joining, wide⟩
    · simp at none
    · have alone : ride = [] := by
        refine no_ride (fun x mem => front_visible x ?_) joining
        rw [last]
        exact List.mem_append_left _ (List.mem_append_right _ (List.mem_cons_of_mem d mem))
      subst alone
      cases (List.append_inj' last rfl).2
      exact wide
  · rintro c rest rfl
    rcases least' with none | ⟨d, ride, more, first, joining, wide⟩
    · cases none
    · have alone : ride = [] := by
        refine no_ride (fun x mem => back_visible x ?_) joining
        rw [first]
        exact List.mem_append_right _ (List.mem_append_left _ (List.mem_cons_of_mem d mem))
      subst alone
      cases first
      exact wide
  · have erase : Sends eraseToRight [.clearRight] := sends_csi 0 (by decide)
    have move : Sends (csi (columns left + columns prompt : Nat) 'C'.toUInt8)
        [.right (max (columns left + columns prompt) 1)] := sends_csi _ (by decide)
    rw [Nat.max_eq_left (by omega), Nat.add_comm] at move
    have sent := ((sends_cr.append (sends_flat all)).append erase).append (sends_cr.append move)
    rw [prompt_eq, Nat.add_comm, window]
    simp only [flat_append, List.append_assoc] at sent ⊢
    exact sent

/-- A refresh in the row shows the window. -/
theorem run_window (row : s.row = t.row) (other : ∀ r k, r ≠ t.row → s.cell r k = t.cell r k)
    (shown : ∀ c ∈ prompt ++ left ++ right, printable c)
    (cursor : columns prompt + columns left < cols)
    (narrow : columns prompt + columns (left ++ right) ≤ cols) :
    (s.run cols width (window prompt left right)).row = t.row ∧
      (s.run cols width (window prompt left right)).col = columns prompt + columns left ∧
      (∀ k, k + 1 < cols → (s.run cols width (window prompt left right)).cell t.row k =
        (cells width (prompt ++ left ++ right))[k]?) ∧
      ∀ r k, r ≠ t.row →
        (s.run cols width (window prompt left right)).cell r k = t.cell r k := by
  have total : ((prompt ++ left ++ right).map width).sum =
      columns prompt + columns (left ++ right) := by
    rw [← columns_printable shown, List.append_assoc, columns_both]
    simpa using shown
  have printed := @print_row _ cols width (s.step cols width .cr)
    (prompt ++ left ++ right) (by rw [total]; exact (Nat.zero_add _).trans_le narrow)
  have long := cells_length width (prompt ++ left ++ right)
  rw [window, run_cons, run_append, run_puts, printed]
  rw [total] at long ⊢
  simp only [run_cons, run_nil, step, row]
  refine ⟨trivial, by omega, ?_, ?_⟩
  · intro k inside
    simp only [true_and, Nat.zero_le, Nat.zero_add, Nat.sub_zero]
    by_cases behind : columns prompt + columns (left ++ right) ≤ k
    · rw [if_pos (by omega), List.getElem?_eq_none (by omega)]
    · rw [if_neg (by omega), if_pos (by omega)]
  · intro r k away
    rw [if_neg (by omega), if_neg (by omega)]
    exact other r k away

variable {above : Nat → Nat → Option CodedChar} {base : Nat} {e : Editing}

/-- Characters typed behind the line, which all of it is shown. -/
theorem Window.typed (window : Window cols prompt w [] w.contents [] [] t s)
    (before : w'.before.reverse = w.contents ++ u) (after : w'.after = [])
    (shown : ∀ c ∈ prompt ++ w'.contents, printable c)
    (narrow : columns prompt + columns w'.contents < cols) :
    Window cols prompt w' [] w'.contents [] [] t (s.run cols width (u.map .put)) := by
  have line : w'.contents = w.contents ++ u := by
    rw [Zipper.contents, before, after, List.append_nil]
  have visible : ∀ c ∈ w.contents ++ u, printable c := by
    intro c mem
    exact shown c (List.mem_append_right _ (line ▸ mem))
  have added : columns w'.contents = columns w.contents + columns u := by
    rw [line, columns_both visible]
  have typed : columns u = (u.map width).sum :=
    columns_printable fun c mem => visible c (List.mem_append_right _ mem)
  have front : ∀ c ∈ prompt ++ w.contents, printable c := by
    intro c mem
    apply shown c
    rw [line, ← List.append_assoc]
    exact List.mem_append_left _ mem
  have long : (cells width (prompt ++ w.contents)).length =
      columns prompt + columns w.contents := by
    rw [cells_length, ← columns_printable front, columns_both front]
  have printed := @print_row _ cols width s u (by rw [window.col, ← typed]; omega)
  rw [run_puts, printed]
  refine ⟨⟨?_, after, fun _ => ⟨rfl, rfl⟩, narrow, ?_, by simp, by simp⟩, window.row, ?_, ?_, ?_⟩
  · rw [before, line, List.nil_append]
  · rw [List.append_nil]
    exact narrow.le
  · simp only [window.col, ← typed, added, Nat.add_assoc]
  · intro k inside
    have old := window.cell k inside
    have whole : prompt ++ w'.contents ++ [] = (prompt ++ w.contents) ++ u := by
      rw [List.append_nil, line, List.append_assoc]
    rw [List.append_nil] at old
    simp only [window.row, window.col, ← typed, true_and]
    rw [whole, cells_append, List.getElem?_append, long]
    by_cases old_cell : k < columns prompt + columns w.contents
    · rw [if_neg (by omega), if_pos old_cell, old]
    · rw [if_neg old_cell]
      split
      next => rfl
      next behind =>
        have far := cells_length width u
        rw [← typed] at far
        rw [old, List.getElem?_eq_none (by omega), List.getElem?_eq_none (by omega)]
  · intro r k away
    have row := window.row
    simp only
    rw [if_neg (by omega)]
    exact window.other r k away

/-- The bytes written so far show the line in the row `top`. -/
structure Seen (cols : Nat) (prompt : Text) (above : Nat → Nat → Option CodedChar) (base top : Nat)
    (w : Zipper CodedChar) (l : LinenoiseState) : Prop where
  columns_eq : l.cols = cols
  sends : Sends l.out (commands l.out)
  shows : ∃ hidden left right hidden', Window cols prompt w hidden left right hidden'
    (cleared above top) ((cleared above base).run cols width (commands l.out))

/-- What is put behind the line is in the line drawn next. -/
theorem written_line (represents : Represents w l) (represents' : Represents w' l')
    {cbuf mid : Bytes} (atEnd : l.len = l.pos) (put : store l.buf l.pos cbuf = some mid)
    (sealed : store mid (l.len + cbuf.length) [nul] = some l'.buf)
    (pos : l'.pos = l.pos + cbuf.length) (len : l'.len = l.len + cbuf.length) :
    ∃ u, flat u = cbuf ∧ w.after = [] ∧ w'.before.reverse = w.contents ++ u ∧ w'.after = [] := by
  have last {w : Zipper CodedChar} {l : LinenoiseState} (represents : Represents w l)
      (atEnd : l.len = l.pos) : w.after = [] := by
    have len_eq := represents.len_eq
    have pos_eq := represents.pos_eq
    rw [length_contents] at len_eq
    exact flat_eq_nil.mp (List.length_eq_zero_iff.mp (by omega))
  obtain ⟨rest, held⟩ := represents.held
  obtain ⟨rest', held'⟩ := represents'.held
  have long := represents.len_eq
  have long' := represents'.len_eq
  have front : l.buf.take l.pos = flat w.contents := by
    rw [← atEnd, held, long, List.take_left]
  have there : mid.take (l.len + cbuf.length) = flat w.contents ++ cbuf := by
    unfold store at put
    split at put
    · cases put
      rw [front, ← List.append_assoc, long, ← List.length_append, List.take_left]
    · cases put
  have bytes : flat w'.contents = flat w.contents ++ cbuf := by
    unfold store at sealed
    split at sealed
    · have same := Option.some.inj sealed
      rw [there, held'] at same
      refine (List.append_inj same ?_).1.symm
      rw [List.length_append, ← long, ← long', len]
    · cases sealed
  obtain ⟨u, parts, typed⟩ := flat_split bytes
  have after' := last represents' (by omega)
  refine ⟨u, typed, last represents atEnd, ?_, after'⟩
  rw [← parts, Zipper.contents, after', List.append_nil]

/-- A refresh in the row of a screen that is as it was in all others. -/
theorem seen_refreshed {row : Nat} (ran : refreshSingleLine l = some l')
    (represents : Represents w' l') (prompt_eq : l.prompt = flat prompt)
    (room : columns prompt + 2 < l.cols) (positive : 0 < columns prompt)
    (visible : ∀ c ∈ prompt ++ w'.contents, Visible c) (sent : Sends l.out (commands l.out))
    (inside : ((cleared above base).run l.cols width (commands l.out)).row = row)
    (other : ∀ r k, r ≠ row → ((cleared above base).run l.cols width (commands l.out)).cell r k =
      (cleared above row).cell r k) :
    Seen l.cols prompt above base row w' l' := by
  have single : refreshLine false l = some l' := ran
  obtain ⟨hidden, left, right, hidden', bytes, cut, all, drawn, more⟩ := refreshSingleLine_sends
    (refreshLine_represents single represents) prompt_eq room positive visible
  have final := drawn.symm.trans ran
  cases final
  have both := sent.append more
  obtain ⟨row_eq, col, cell, rest⟩ :=
    run_window (t := cleared above row) inside other all cut.cursor cut.narrow
  refine ⟨rfl, both.commands_eq ▸ both, hidden, left, right, hidden', ?_⟩
  simp only [both.commands_eq]
  rw [run_append]
  exact ⟨cut, row_eq, col, cell, rest⟩

/-- Bytes written where the line ends and has room. -/
theorem seen_written {top : Nat} (seen : Seen cols prompt above base top w l)
    (good : Good false prompt w l)
    (represents : Represents w' l') (shown : ∀ c ∈ prompt ++ w'.contents, printable c)
    {cbuf mid buf : Bytes} (atEnd : l.len = l.pos) (put : store l.buf l.pos cbuf = some mid)
    (sealed : store mid (l.len + cbuf.length) [nul] = some buf)
    (narrow : ∃ pcolwid width, unicodeColumnPos l.prompt = some pcolwid ∧
      (load buf 0 (l.len + cbuf.length)).bind unicodeColumnPos = some width ∧
      pcolwid + width < l.cols)
    (same : l' = { l with
      buf, pos := l.pos + cbuf.length, len := l.len + cbuf.length, out := l.out ++ cbuf }) :
    Seen cols prompt above base top w' l' := by
  subst same
  obtain ⟨rfl, sends, hidden, left, right, hidden', old⟩ := seen
  obtain ⟨u, typed, after, before', after'⟩ :=
    written_line good.represents represents atEnd put sealed rfl rfl
  have contents : w'.contents = w.contents ++ u := by
    rw [Zipper.contents, before', after', List.append_nil]
  have line : ∀ c ∈ w.contents ++ u, printable c := by
    intro c mem
    exact shown c (List.mem_append_right _ (contents ▸ mem))
  have added : columns w'.contents = columns w.contents + columns u := by
    rw [contents, columns_both line]
  have fits : columns prompt + columns w'.contents < l.cols := by
    obtain ⟨pcolwid, shownWidth, prompt_width, line_width, narrow⟩ := narrow
    obtain ⟨rest, held⟩ := represents.held
    have len := represents.len_eq
    simp only at held len
    rw [good.drawable.prompt_eq, unicodeColumnPos_flat] at prompt_width
    rw [held, len, load_front, Option.bind_some, unicodeColumnPos_flat] at line_width
    cases prompt_width
    cases line_width
    exact narrow
  -- the line without the new characters is shown whole
  obtain ⟨rfl, rfl⟩ := old.cut.whole (by omega)
  have left_eq : left = w.contents := by
    rw [Zipper.contents, old.cut.before, after, List.append_nil, List.nil_append]
  have right_eq : right = [] := by simpa [after] using old.cut.after.symm
  subst left_eq right_eq
  have fresh : ∀ c ∈ u, printable c := fun c mem => line c (List.mem_append_right _ mem)
  have sent := sends.append (typed ▸ sends_flat fresh)
  refine ⟨rfl, sent.commands_eq ▸ sent, [], w'.contents, [], [], ?_⟩
  simp only [sent.commands_eq]
  rw [run_append]
  exact old.typed before' after' shown fits

theorem seen_kept (room : columns prompt + 2 < cols) (prompted : prompt ≠ [])
    (visible : ∀ c ∈ prompt, Visible c) :
    Kept false prompt Visible (Seen cols prompt above base) := by
  intro w w' l l' clears top good good' line redraws seen
  have positive := columns_pos visible prompted
  have prompt_eq := good.drawable.prompt_eq
  have all : ∀ c ∈ prompt ++ w'.contents, Visible c := by
    intro c mem
    exact (List.mem_append.mp mem).elim (visible c) (line c)
  have shown : ∀ c ∈ prompt ++ w'.contents, printable c := fun c mem => (all c mem).1
  cases redraws with
  | stays same =>
    subst same
    exact represents_unique good.represents good'.represents ▸ seen
  | written cbuf mid buf single atEnd put sealed narrow same =>
    exact seen_written seen good good'.represents shown atEnd put sealed narrow same
  | drawn buf pos len history_index ran =>
    obtain ⟨rfl, sends, hidden, left, right, hidden', old⟩ := seen
    have seen' := seen_refreshed ran good'.represents prompt_eq room positive all sends old.row
      old.other
    exact seen'
  | cleared ran =>
    obtain ⟨rfl, sends, -⟩ := seen
    have sent := sends.append sends_clearing
    have blank : (cleared above base).run l.cols width (commands (l.out ++ text "\x1b[H\x1b[2J")) =
        ⟨fun _ _ => none, 0, 0⟩ := by
      rw [sent.commands_eq, run_append]
      rfl
    have seen' := seen_refreshed ran good'.represents prompt_eq room positive all
      (sent.commands_eq ▸ sent) (congrArg Screen.row blank) (fun r k away => ?_)
    · exact seen'
    · rw [blank, cleared_zero]

theorem seen_start (room : columns prompt + 2 < cols) (visible : ∀ c ∈ prompt, Visible c)
    (fresh : Fresh prompt cols l) : Seen cols prompt above base base (.atEnd []) l := by
  have shown : ∀ c ∈ prompt, printable c := fun c mem => (visible c mem).1
  have sends : Sends l.out (prompt.map .put) := fresh.out ▸ sends_flat shown
  have total := columns_printable shown
  have long := cells_length width prompt
  have printed := @print_row _ cols width (cleared above base) prompt
    (by rw [← total]; exact (Nat.zero_add _).trans_le (by omega))
  have narrow : columns prompt + columns [] < cols := by
    rw [columns_nil]
    omega
  refine ⟨fresh.cols, sends.commands_eq ▸ sends, [], [], [], [], ?_⟩
  rw [sends.commands_eq, run_puts, printed]
  refine ⟨⟨rfl, rfl, fun _ => ⟨rfl, rfl⟩, narrow, narrow.le, by simp, by simp⟩, rfl, ?_, ?_, ?_⟩
  · rw [columns_nil, total]
    exact Nat.zero_add _
  · intro k inside
    simp only [cleared, List.append_nil, true_and, Nat.zero_le, Nat.zero_add, Nat.sub_zero]
    rw [← total] at long ⊢
    split
    next => rfl
    next behind =>
      rw [if_neg (Nat.lt_irrefl base), List.getElem?_eq_none (by omega)]
  · intro r k away
    exact if_neg fun here => away here.1

variable {h : History} {past : List Text} {mem : Bytes}

/-- After any keys, with no control character and none that joins another in the prompt, the
history and the line: the row the session began in, or the first one if the screen was cleared,
shows the prompt and as much of the line around the cursor as fits, all of it where it does, and
the cursor of the screen is at that of the line. -/
theorem linenoiseEdit_window (offered : Offered h past mem) (memory : 0 < mem.length)
    (room : columns prompt + 2 < cols) (prompted : prompt ≠ [])
    (visible : ∀ c ∈ prompt, Visible c) (past_visible : ∀ t ∈ past, ∀ c ∈ t, Visible c)
    (keys : List Key) (are : ∀ key ∈ keys, Key.Only Visible key)
    (admits : (Editing.opened h.history_max_len past).AdmitsAll false (mem.length - 1) keys)
    (goesOn : pressed false (mem.length - 1) (Editing.opened h.history_max_len past) keys =
      some e) (above : Nat → Nat → Option CodedChar) (base : Nat) :
    ∃ m, linenoiseEdit false h cols mem (flat prompt) (keys.flatMap Key.bytes) =
        some (some e.size, m, []) ∧
      ∃ hidden left right hidden', Window cols prompt e.line hidden left right hidden'
        (cleared above (firstRow base keys))
        ((cleared above base).run cols width (commands m.state.out)) := by
  have kept : Kept false prompt Visible (Seen cols prompt above base) :=
    seen_kept room prompted visible
  obtain ⟨m, ran, seen⟩ := linenoiseEdit_keeps kept (seen_start room visible) offered memory
    (by omega) (fun _ => room) past_visible keys are admits goesOn
  exact ⟨m, ran, seen.shows⟩

/-- On a terminal of four columns `pqr` does not fit behind a prompt of one. -/
def scrolled : List Key :=
  [.char (.ascii 112 (by decide)) (by decide), .char (.ascii 113 (by decide)) (by decide),
    .char (.ascii 114 (by decide)) (by decide)]

def narrowPrompt : Text := [.ascii 62 (by decide)]

def scrolledLine : Zipper CodedChar :=
  .atEnd [.ascii 112 (by decide), .ascii 113 (by decide), .ascii 114 (by decide)]

theorem linenoiseEdit_window_scrolled :
    ∃ m, linenoiseEdit false ⟨4, []⟩ 4 (List.replicate 8 0) (flat narrowPrompt)
        (scrolled.flatMap Key.bytes) = some (some 3, m, []) ∧
      ∃ hidden left right hidden', Window 4 narrowPrompt scrolledLine hidden left right hidden'
        (cleared (fun _ _ => narrowPrompt.head?) 5)
        ((cleared (fun _ _ => narrowPrompt.head?) 5).run 4 width (commands m.state.out)) := by
  have offered : Offered ⟨4, []⟩ [] (List.replicate 8 0) := ⟨by decide, rfl, by simp⟩
  have admits : (Editing.opened 4 []).AdmitsAll false 7 scrolled :=
    ⟨⟨fun _ _ => by decide, fun swap => absurd swap (by decide)⟩,
      ⟨fun _ _ => by decide, fun swap => absurd swap (by decide)⟩,
      ⟨fun _ _ => by decide, fun swap => absurd swap (by decide)⟩, trivial⟩
  have prompt : ∀ c ∈ narrowPrompt, Visible c := by
    unfold Visible printable
    decide +kernel
  have typed : ∀ c ∈ scrolledLine.contents, Visible c := by
    unfold Visible printable
    decide +kernel
  have are : ∀ key ∈ scrolled, Key.Only Visible key := by
    intro key mem
    simp only [scrolled, List.mem_cons, List.not_mem_nil, or_false] at mem
    rcases mem with rfl | rfl | rfl <;> exact fun _ => typed _ (by decide)
  have room : columns narrowPrompt + 2 < 4 := by
    rw [columns_printable fun c mem => (prompt c mem).1]
    decide +kernel
  exact linenoiseEdit_window offered (by decide) room (by decide) prompt (by simp) scrolled are
    admits (e := ⟨scrolledLine, [[]], 0⟩) rfl (fun _ _ => narrowPrompt.head?) 5

end ScreenWindows
