import Serene.LineEdits

/-!
# Sessions of the line editor

A session as its user sees it: a line with a cursor, the entries of the history,
and the keys pressed. The byte machine of `linenoiseEdit` does on its memory
what the keys do on the line, for every sequence of keys of which no inserted
character is too long for the rest of the memory and no `CTRL_T` falls on a
character of several bytes.
-/

namespace EditSessions

open ByteClasses Utf8Texts Zippers TerminalText MemoryBlocks LineDrawing LineColumns
open BoundedLogs InputHistory LineEditor LineEdits

/-- A line with a cursor, and the history; the entry edited is `index` places before the last. -/
structure Editing where
  line : Zipper CodedChar
  past : List Text
  index : Nat
  deriving DecidableEq

/-- A text as a C string. -/
def cut (t : Text) : Text := t.takeWhile fun c => c.lead != nul

namespace Editing

def onLine (f : Zipper CodedChar → Zipper CodedChar) (e : Editing) : Editing :=
  { e with line := f e.line }

/-- The line is put back in its place in the history. -/
def saved (e : Editing) : Editing :=
  { e with past := e.past.set (e.past.length - 1 - e.index) (cut e.line.contents) }

def showing (e : Editing) (index : Nat) : Editing :=
  { e with line := .atEnd ((e.past[e.past.length - 1 - index]?).getD []), index }

def browse (e : Editing) : Direction → Editing
  | .next =>
    if e.past.length ≤ 1 then e
    else if e.index = 0 then e.saved
    else e.saved.showing (e.index - 1)
  | .prev =>
    if e.past.length ≤ 1 then e
    else if e.past.length ≤ e.index + 1 then e.saved
    else e.saved.showing (e.index + 1)

def popped (e : Editing) : Editing := { e with past := e.past.dropLast }

end Editing

/-- A character, or ESC with the bytes of its sequence. -/
inductive Key
  | char (c : CodedChar) (plain : c.code ≠ 27)
  | escape (c : CodedChar) (esc : c.code = 27) (a b : UInt8)
      (short : ¬(a = '['.toUInt8 ∧ isdigit b = true))
  | extended (c : CodedChar) (esc : c.code = 27) (b d : UInt8) (digit : isdigit b = true)

/-- What the terminal sends for a key. -/
def Key.bytes : Key → Bytes
  | .char c _ => c.bytes
  | .escape c _ a b _ => c.bytes ++ [a, b]
  | .extended c _ b d _ => c.bytes ++ ['['.toUInt8, b, d]

/-- A key leaves a line being edited, or ends the session: with the line, or without one. -/
inductive Outcome
  | goesOn (e : Editing)
  | returns (accepted : Bool) (e : Editing)

/-- The code points the editor takes as commands. -/
def commands : List Nat := [13, 3, 127, 8, 4, 20, 2, 6, 16, 14, 27, 21, 11, 1, 5, 12, 23]

/-- The bytes of the line. -/
def Editing.size (e : Editing) : Nat := (flat e.line.contents).length

section Keys
variable (mlmode : Bool) (cap : Nat)

def Editing.insert (e : Editing) (c : CodedChar) : Editing :=
  if e.size < cap then e.onLine (Zipper.insert c) else e

def Editing.sequence (e : Editing) (a b : UInt8) : Editing :=
  if a = '['.toUInt8 then
    if b = 'A'.toUInt8 then e.browse .prev
    else if b = 'B'.toUInt8 then e.browse .next
    else if b = 'C'.toUInt8 then e.onLine (Zipper.moveOn joins)
    else if b = 'D'.toUInt8 then e.onLine (Zipper.moveBack joins)
    else if b = 'H'.toUInt8 then e.onLine Zipper.home
    else if b = 'F'.toUInt8 then e.onLine Zipper.toEnd
    else e
  else if a = 'O'.toUInt8 then
    if b = 'H'.toUInt8 then e.onLine Zipper.home
    else if b = 'F'.toUInt8 then e.onLine Zipper.toEnd
    else e
  else e

/-- What the character `c` with the code point given does. -/
def Editing.command (e : Editing) (c : CodedChar) : Nat → Outcome
  | 13 => .returns true (e.popped.onLine (if mlmode then Zipper.toEnd else id))
  | 3 => .returns false e
  | 127 | 8 => .goesOn (e.onLine (Zipper.eraseBack joins))
  | 4 =>
    if e.line.contents = [] then .returns false e.popped
    else .goesOn (e.onLine (Zipper.eraseOn joins))
  | 20 => .goesOn (e.onLine Zipper.transpose)
  | 2 => .goesOn (e.onLine (Zipper.moveBack joins))
  | 6 => .goesOn (e.onLine (Zipper.moveOn joins))
  | 16 => .goesOn (e.browse .prev)
  | 14 => .goesOn (e.browse .next)
  | 21 => .goesOn (e.onLine fun _ => .atEnd [])
  | 11 => .goesOn (e.onLine Zipper.cutAfter)
  | 1 => .goesOn (e.onLine Zipper.home)
  | 5 => .goesOn (e.onLine Zipper.toEnd)
  | 12 => .goesOn e
  | 23 => .goesOn (e.onLine (Zipper.eraseWord blank))
  | _ => .goesOn (e.insert cap c)

def Editing.press (e : Editing) : Key → Outcome
  | .char c _ => e.command mlmode cap c c.code
  | .escape _ _ a b _ => .goesOn (e.sequence a b)
  | .extended _ _ b d _ =>
    if d = '~'.toUInt8 ∧ b = '3'.toUInt8 then .goesOn (e.onLine (Zipper.eraseOn joins))
    else .goesOn e

/-- A character that is inserted fits, and `CTRL_T` exchanges characters of one byte. -/
def Editing.Admits (e : Editing) : Key → Prop
  | .char c _ =>
    (c.code ∉ commands → e.size < cap → e.size + c.size ≤ cap) ∧
    (c.code = 20 →
      ∀ a ∈ e.line.before.head?, ∀ b ∈ e.line.after.head?, a.size = 1 ∧ b.size = 1)
  | _ => True

end Keys

/-- The machine holds the line and the history. -/
structure Stands (mlmode : Bool) (prompt : Text) (e : Editing) (m : Editor) : Prop where
  good : Good mlmode prompt e.line m.state
  history : m.history = e.past.map flat

/-- The session can go on. -/
structure Live (mlmode : Bool) (prompt : Text) (cap : Nat) (e : Editing) (m : Editor) : Prop
    extends Stands mlmode prompt e m where
  buflen : m.state.buflen = cap
  index : m.state.history_index = e.index
  inside : e.index < e.past.length
  entries : ∀ t ∈ e.past, (flat t).length ≤ cap ∧ ∀ c ∈ t, c.lead ≠ nul

variable {mlmode : Bool} {prompt : Text} {cap : Nat} {e : Editing} {m : Editor}

theorem Live.size_le (live : Live mlmode prompt cap e m) : e.size ≤ cap := by
  have buflen := live.buflen
  have size := live.good.represents.size
  obtain ⟨rest, held⟩ := live.good.represents.held
  have lengths := congrArg List.length held
  simp only [List.length_append, List.length_cons] at lengths
  unfold Editing.size
  omega

/-- An edit of the line is an edit of the session. -/
theorem Live.edited (live : Live mlmode prompt cap e m) {f : Zipper CodedChar → Zipper CodedChar}
    {g : Bool → LinenoiseState → Option LinenoiseState}
    (leaves : Leaves mlmode prompt (f e.line) m.state (g mlmode m.state)) :
    ∃ m', m.edit mlmode g = some m' ∧ Live mlmode prompt cap (e.onLine f) m' := by
  obtain ⟨l, ran, good, buflen, index⟩ := leaves
  refine ⟨{ m with state := l }, by rw [Editor.edit, ran]; rfl, ?_⟩
  exact ⟨⟨good, live.history⟩, buflen.trans live.buflen, index.trans live.index, live.inside,
    live.entries⟩

theorem cStr_flat (t : Text) : cStr (flat t) = flat (cut t) := takeWhile_flat (by decide) t

/-- The C string in the memory is the line up to its first NUL. -/
theorem cString_line (good : Good mlmode prompt e.line m.state) :
    cString m.state.buf = some (flat (cut e.line.contents)) := by
  obtain ⟨rest, held⟩ := good.represents.held
  have terminated : nul ∈ m.state.buf := by
    rw [held]
    simp
  unfold cString
  rw [if_pos terminated, held, ← cStr_flat]
  unfold cStr
  rw [List.takeWhile_append]
  split
  next all =>
    have whole := (List.takeWhile_prefix _).eq_of_length all
    simpa using whole.symm
  next => rfl

theorem cut_plain (t : Text) : ∀ c ∈ cut t, c.lead ≠ nul := by
  intro c mem
  simpa using List.mem_takeWhile_imp mem

theorem cut_self {t : Text} (plain : ∀ c ∈ t, c.lead ≠ nul) : cut t = t := by
  apply List.takeWhile_eq_self_iff.mpr
  intro c mem
  simpa using plain c mem

theorem cut_length_le (t : Text) : (flat (cut t)).length ≤ (flat t).length := by
  have whole := List.takeWhile_append_dropWhile (p := fun c : CodedChar => c.lead != nul) (l := t)
  have := congrArg (fun t => (flat t).length) whole
  simp only [flat_append, List.length_append] at this
  unfold cut
  omega

theorem Live.saved (live : Live mlmode prompt cap e m) :
    Live mlmode prompt cap e.saved ⟨m.state,
      m.history.set (m.history.length - 1 - m.state.history_index)
        (flat (cut e.line.contents))⟩ := by
  have same : m.history.length = e.past.length := by rw [live.history, List.length_map]
  refine ⟨⟨live.good, ?_⟩, live.buflen, live.index, ?_, ?_⟩
  · rw [live.history, live.index, List.length_map]
    exact List.map_set.symm
  · simpa [Editing.saved] using live.inside
  · intro t mem
    rcases List.mem_or_eq_of_mem_set mem with old | rfl
    · exact live.entries t old
    · exact ⟨(cut_length_le _).trans live.size_le, cut_plain _⟩

/-- An entry of the history is shown in the line. -/
theorem Live.showing (live : Live mlmode prompt cap e m) (index : Nat)
    (inside : index < e.past.length) :
    ∃ m', showEntry mlmode m index = some m' ∧
      Live mlmode prompt cap (e.showing index) m' := by
  have size := live.good.represents.size
  have place : e.past.length - 1 - index < e.past.length := by omega
  obtain ⟨t, there⟩ : ∃ t, e.past[e.past.length - 1 - index]? = some t :=
    ⟨_, List.getElem?_eq_getElem place⟩
  obtain ⟨fits, plain⟩ := live.entries t (List.mem_of_getElem? there)
  have entry : m.history[m.history.length - 1 - index]? = some (flat t) := by
    rw [live.history, List.length_map, List.getElem?_map, there]
    rfl
  have string : cStr (flat t) = flat t := by rw [cStr_flat, cut_self plain]
  obtain ⟨buf, cleared⟩ : ∃ buf, store m.state.buf 0 (List.replicate m.state.buflen 0) =
      some buf := by
    cases cleared : store m.state.buf 0 (List.replicate m.state.buflen 0) with
    | some buf => exact ⟨buf, rfl⟩
    | none =>
      rw [store_eq_none, List.length_replicate] at cleared
      omega
  have buflen := live.buflen
  have kept := store_length cleared
  have copied := store_at [] buf (flat t ++ [nul])
    (by rw [List.length_append, List.length_singleton]; omega)
  rw [List.nil_append, List.length_nil, List.nil_append] at copied
  have good : Good mlmode prompt e.line { m.state with history_index := index } :=
    ⟨⟨live.good.represents.held, size, live.good.represents.pos_eq, live.good.represents.len_eq⟩,
      ⟨live.good.drawable.prompt_eq, live.good.drawable.some_columns, live.good.drawable.room⟩⟩
  obtain ⟨l, drawn, good', buflen', index'⟩ := good.edited (.atEnd t)
    ⟨buf.drop (flat t ++ [nul]).length, by simp⟩ ((store_length copied).trans kept)
    (show (flat t).length = _ by simp [Zipper.atEnd]) (show (flat t).length = _ by simp)
  have shown : (e.showing index).line = .atEnd t := by
    rw [Editing.showing, there]
    rfl
  refine ⟨{ m with state := l }, ?_, ⟨shown ▸ good', live.history⟩, buflen'.trans buflen, index',
    inside, live.entries⟩
  unfold showEntry
  simp only [Option.bind_eq_bind, cleared, entry, string, copied, Option.bind_some]
  rw [drawn]
  rfl

theorem Live.browse (live : Live mlmode prompt cap e m) (dir : Direction) :
    ∃ m', linenoiseEditHistoryNext mlmode m dir = some m' ∧
      Live mlmode prompt cap (e.browse dir) m' := by
  have same : m.history.length = e.past.length := by rw [live.history, List.length_map]
  have kept : e.saved.past.length = e.past.length := by simp [Editing.saved]
  have inside := live.inside
  have index := live.index
  have string := cString_line live.good
  have saved := live.saved
  rw [index] at saved
  unfold linenoiseEditHistoryNext
  by_cases one : e.past.length ≤ 1
  · refine ⟨m, by rw [if_neg (by omega)], ?_⟩
    cases dir <;> simpa only [Editing.browse, if_pos one] using live
  · simp only [string, Option.bind_eq_bind, Option.bind_some, index]
    rw [if_pos (by omega), if_neg (by omega)]
    cases dir with
    | next =>
      simp only [Editing.browse, if_neg one]
      by_cases last : e.index = 0
      · rw [if_pos last, if_pos (by omega)]
        exact ⟨_, rfl, saved⟩
      · rw [if_neg last, if_neg (by omega)]
        exact saved.showing (e.index - 1) (by omega)
    | prev =>
      simp only [Editing.browse, if_neg one, List.length_set]
      by_cases first : e.past.length ≤ e.index + 1
      · rw [if_pos first, if_pos (by omega)]
        exact ⟨_, rfl, saved⟩
      · rw [if_neg first, if_neg (by omega)]
        exact saved.showing (e.index + 1) (by omega)

/-- The machine's turn does what the key does. -/
def Matches (mlmode : Bool) (prompt : Text) (cap : Nat) (input : Bytes) : Outcome → Turn → Prop
  | .goesOn e, .goesOn m rest => Live mlmode prompt cap e m ∧ rest = input
  | .returns accepted e, .returns result m rest =>
    Stands mlmode prompt e m ∧ result = (if accepted then some e.size else none) ∧ rest = input
  | _, _ => False

variable {input : Bytes} {c : CodedChar}

theorem goesOn_edit (live : Live mlmode prompt cap e m) {f : Zipper CodedChar → Zipper CodedChar}
    {g : Bool → LinenoiseState → Option LinenoiseState}
    (leaves : Leaves mlmode prompt (f e.line) m.state (g mlmode m.state)) :
    ∃ turn, ((m.edit mlmode g).map fun m => Turn.goesOn m input) = some turn ∧
      Matches mlmode prompt cap input (.goesOn (e.onLine f)) turn := by
  obtain ⟨m', ran, live'⟩ := live.edited leaves
  exact ⟨.goesOn m' input, by rw [ran]; rfl, live', rfl⟩

theorem goesOn_browse (live : Live mlmode prompt cap e m) (dir : Direction) :
    ∃ turn, ((linenoiseEditHistoryNext mlmode m dir).map fun m => Turn.goesOn m input) =
        some turn ∧ Matches mlmode prompt cap input (.goesOn (e.browse dir)) turn := by
  obtain ⟨m', ran, live'⟩ := live.browse dir
  exact ⟨.goesOn m' input, by rw [ran]; rfl, live', rfl⟩

theorem handleKey_insert {n : Nat} (other : n ∉ commands) (cbuf : Bytes) :
    handleKey mlmode m cbuf n input =
      (m.edit mlmode fun mlmode l => linenoiseEditInsert mlmode l cbuf).map
        fun m => Turn.goesOn m input := by
  unfold handleKey
  split <;> first | rfl | exact absurd (by decide) other

theorem command_insert {n : Nat} (other : n ∉ commands) (c : CodedChar) :
    e.command mlmode cap c n = .goesOn (e.insert cap c) := by
  unfold Editing.command
  split <;> first | rfl | exact absurd (by decide) other

theorem Live.popped (live : Live mlmode prompt cap e m) :
    m.history.dropLast = e.popped.past.map flat := by
  rw [live.history]
  exact List.map_dropLast.symm

theorem enter_spec (live : Live mlmode prompt cap e m) (cbuf : Bytes) :
    ∃ turn, handleKey mlmode m cbuf 13 input = some turn ∧
      Matches mlmode prompt cap input
        (.returns true (e.popped.onLine (if mlmode then Zipper.toEnd else id))) turn := by
  have good := live.good
  have history := live.popped
  cases mlmode with
  | true =>
    obtain ⟨l, ran, good', -⟩ := moveEnd_spec good
    refine ⟨.returns (some l.len) ⟨l, m.history.dropLast⟩ input, ?_, ⟨good', history⟩, ?_, rfl⟩
    · simp [handleKey, Editor.edit, ran]
    · exact congrArg some good'.represents.len_eq
  | false =>
    refine ⟨.returns (some m.state.len) ⟨m.state, m.history.dropLast⟩ input, rfl,
      ⟨good, history⟩, ?_, rfl⟩
    exact congrArg some good.represents.len_eq

theorem eof_spec (live : Live mlmode prompt cap e m) (cbuf : Bytes) :
    ∃ turn, handleKey mlmode m cbuf 4 input = some turn ∧
      Matches mlmode prompt cap input
        (if e.line.contents = [] then .returns false e.popped
          else .goesOn (e.onLine (Zipper.eraseOn joins))) turn := by
  have good := live.good
  have len_eq := good.represents.len_eq
  by_cases empty : e.line.contents = []
  · have history := live.popped
    have inside := live.inside
    have filled : m.history ≠ [] := by
      rw [live.history]
      intro none
      rw [List.map_eq_nil_iff.mp none] at inside
      exact absurd inside (Nat.not_lt_zero _)
    rw [empty] at len_eq
    refine ⟨.returns none { m with history := m.history.dropLast } input, ?_, ?_⟩
    · simp [handleKey, len_eq, filled]
    · rw [if_pos empty]
      exact ⟨⟨good, history⟩, rfl, rfl⟩
  · have positive : 0 < m.state.len := by
      rw [len_eq]
      exact List.length_pos_of_ne_nil fun none => empty (flat_eq_nil.mp none)
    have deletes : handleKey mlmode m cbuf 4 input =
        (m.edit mlmode linenoiseEditDelete).map fun m => .goesOn m input := by
      simp [handleKey, positive]
    rw [deletes, if_neg empty]
    exact goesOn_edit live (delete_spec good)

/-- The `switch` on a code point does to the machine what the command does to the session. -/
theorem handleKey_spec (live : Live mlmode prompt cap e m) {n : Nat} (plain : n ≠ 27)
    (fits : n ∉ commands → e.size < cap → e.size + c.size ≤ cap)
    (single : n = 20 →
      ∀ a ∈ e.line.before.head?, ∀ b ∈ e.line.after.head?, a.size = 1 ∧ b.size = 1) :
    ∃ turn, handleKey mlmode m c.bytes n input = some turn ∧
      Matches mlmode prompt cap input (e.command mlmode cap c n) turn := by
  have good := live.good
  by_cases command : n ∈ commands
  · simp only [commands, List.mem_cons, List.not_mem_nil, or_false] at command
    rcases command with rfl | rfl | rfl | rfl | rfl | rfl | rfl | rfl | rfl | rfl | rfl | rfl |
      rfl | rfl | rfl | rfl | rfl
    · exact enter_spec live c.bytes
    · exact ⟨_, rfl, live.toStands, rfl, rfl⟩
    · exact goesOn_edit live (backspace_spec good)
    · exact goesOn_edit live (backspace_spec good)
    · exact eof_spec live c.bytes
    · exact goesOn_edit live (transposeChars_spec good (single rfl))
    · exact goesOn_edit live (moveLeft_spec good)
    · exact goesOn_edit live (moveRight_spec good)
    · exact goesOn_browse live .prev
    · exact goesOn_browse live .next
    · exact absurd rfl plain
    · exact goesOn_edit (f := fun _ => .atEnd []) live (deleteLine_spec good)
    · exact goesOn_edit live (deleteToEnd_spec good)
    · exact goesOn_edit live (moveHome_spec good)
    · exact goesOn_edit live (moveEnd_spec good)
    · exact goesOn_edit (f := id) live (clearScreen_spec good)
    · exact goesOn_edit live (deletePrevWord_spec good)
  · rw [handleKey_insert command, command_insert command]
    have len_eq : m.state.len = e.size := good.represents.len_eq
    have buflen := live.buflen
    unfold Editing.insert
    by_cases room : e.size < cap
    · rw [if_pos room]
      have within := fits command room
      exact goesOn_edit (g := fun mlmode l => linenoiseEditInsert mlmode l c.bytes) live
        (insert_spec good (by omega))
    · rw [if_neg room]
      exact goesOn_edit (f := id) (g := fun mlmode l => linenoiseEditInsert mlmode l c.bytes) live
        (insert_full good c.bytes (by omega))

theorem unicodeReadUTF8Char_spec (c : CodedChar) (rest : Bytes) :
    unicodeReadUTF8Char (c.bytes ++ rest) = some (some (c.bytes, c.code, rest)) := by
  have code := unicodeUTF8CharToCodePoint_spec c [] (show c.size ≤ 4 from c.size_le)
  rw [List.append_nil] at code
  obtain ⟨one, two, three, four⟩ := lead_masks c.lead
  have most := CodedChar.announced_le c.lead
  have announces := c.announces
  -- the number of bytes read after the first is that of the continuation bytes
  have more : (if c.lead &&& 0x80 = 0 then some 0
      else if c.lead &&& 0xE0 = 0xC0 then some 1
      else if c.lead &&& 0xF0 = 0xE0 then some 2
      else if c.lead &&& 0xF8 = 0xF0 then some 3
      else none) = some c.tails.length := by
    have range : announced c.lead = 1 ∨ announced c.lead = 2 ∨ announced c.lead = 3 ∨
        announced c.lead = 4 := by omega
    rcases range with is | is | is | is
    · rw [if_pos (one is).1]
      congr 1
      omega
    · rw [if_neg (two is).1, if_pos (two is).2.1]
      congr 1
      omega
    · rw [if_neg (three is).1, if_neg (three is).2.1, if_pos (three is).2.2.1]
      congr 1
      omega
    · rw [if_neg (four is).1, if_neg (four is).2.1, if_neg (four is).2.2.1,
        if_pos (four is).2.2.2.1]
      congr 1
      omega
  have readable : ¬(c.tails.length ≠ 0 ∧ c.tails ++ rest = []) := by
    rintro ⟨long, none⟩
    exact long (by simp [(List.append_eq_nil_iff.mp none).1])
  have enough : ¬(c.tails ++ rest).length < c.tails.length := by
    rw [List.length_append]
    omega
  rw [CodedChar.bytes, List.cons_append, unicodeReadUTF8Char]
  simp only [more, if_neg readable, if_neg enough, List.take_left, List.drop_left]
  rw [CodedChar.bytes] at code
  rw [code]
  rfl

theorem edit_goesOn (input : Bytes) (live : Live mlmode prompt cap e m)
    {f : Zipper CodedChar → Zipper CodedChar}
    {g : Bool → LinenoiseState → Option LinenoiseState}
    (leaves : Leaves mlmode prompt (f e.line) m.state (g mlmode m.state)) :
    ∃ m', ((m.edit mlmode g).map fun m => (m, input)) = some (m', input) ∧
      Live mlmode prompt cap (e.onLine f) m' := by
  obtain ⟨m', ran, live'⟩ := live.edited leaves
  exact ⟨m', by rw [ran]; rfl, live'⟩

theorem sequence_spec (input : Bytes) (live : Live mlmode prompt cap e m) {a b : UInt8}
    (short : ¬(a = '['.toUInt8 ∧ isdigit b = true)) :
    ∃ m', escapeSequence mlmode m (a :: b :: input) = some (m', input) ∧
      Live mlmode prompt cap (e.sequence a b) m' := by
  have good := live.good
  have browse (dir : Direction) : ∃ m', ((linenoiseEditHistoryNext mlmode m dir).map
      fun m => (m, input)) = some (m', input) ∧ Live mlmode prompt cap (e.browse dir) m' := by
    obtain ⟨m', ran, live'⟩ := live.browse dir
    exact ⟨m', by rw [ran]; rfl, live'⟩
  unfold escapeSequence Editing.sequence
  by_cases bracket : a = '['.toUInt8
  · have digit : ¬isdigit b = true := fun is => short ⟨bracket, is⟩
    simp only [if_pos bracket, if_neg digit]
    split_ifs
    · exact browse .prev
    · exact browse .next
    · exact edit_goesOn input live (moveRight_spec good)
    · exact edit_goesOn input live (moveLeft_spec good)
    · exact edit_goesOn input live (moveHome_spec good)
    · exact edit_goesOn input live (moveEnd_spec good)
    · exact ⟨m, rfl, live⟩
  · simp only [if_neg bracket]
    split_ifs
    · exact edit_goesOn input live (moveHome_spec good)
    · exact edit_goesOn input live (moveEnd_spec good)
    · exact ⟨m, rfl, live⟩
    · exact ⟨m, rfl, live⟩

theorem turn_spec (live : Live mlmode prompt cap e m) (key : Key) (admits : e.Admits cap key)
    (rest : Bytes) :
    ∃ turn, LineEditor.turn mlmode m (key.bytes ++ rest) = some turn ∧
      Matches mlmode prompt cap rest (e.press mlmode cap key) turn := by
  unfold LineEditor.turn
  cases key with
  | char c plain =>
    simp only [Key.bytes, unicodeReadUTF8Char_spec, Option.bind_some]
    exact handleKey_spec live plain admits.1 admits.2
  | escape c esc a b short =>
    obtain ⟨m', ran, live'⟩ := sequence_spec rest live short
    simp only [Key.bytes, List.append_assoc, unicodeReadUTF8Char_spec, Option.bind_some, esc]
    refine ⟨.goesOn m' rest, ?_, live', rfl⟩
    change (escapeSequence mlmode m (a :: b :: rest)).map _ = _
    rw [ran]
    rfl
  | extended c esc b d digit =>
    simp only [Key.bytes, List.append_assoc, unicodeReadUTF8Char_spec, Option.bind_some, esc]
    change ∃ turn, (escapeSequence mlmode m ('['.toUInt8 :: b :: d :: rest)).map _ = _ ∧ _
    simp only [escapeSequence, if_true, if_pos digit, Editing.press]
    by_cases delete : d = '~'.toUInt8 ∧ b = '3'.toUInt8
    · obtain ⟨m', ran, live'⟩ := edit_goesOn rest live (delete_spec live.good)
      rw [if_pos delete, if_pos delete, ran]
      exact ⟨.goesOn m' rest, rfl, live', rfl⟩
    · rw [if_neg delete, if_neg delete]
      exact ⟨.goesOn m rest, rfl, live, rfl⟩

/-- Press the keys until the session ends, as it does with the input: whether a line is accepted,
the session as it is left, and the keys not read. -/
def Editing.session (mlmode : Bool) (cap : Nat) : Editing → List Key → Bool × Editing × List Key
  | e, [] => (true, e, [])
  | e, key :: keys =>
    match e.press mlmode cap key with
    | .goesOn e => e.session mlmode cap keys
    | .returns accepted e => (accepted, e, keys)

/-- Every key is admitted where it is pressed. -/
def Editing.AdmitsAll (mlmode : Bool) (cap : Nat) : Editing → List Key → Prop
  | _, [] => True
  | e, key :: keys =>
    e.Admits cap key ∧
      match e.press mlmode cap key with
      | .goesOn e => e.AdmitsAll mlmode cap keys
      | .returns _ _ => True

theorem Key.bytes_pos (key : Key) : 0 < key.bytes.length := by
  cases key <;> simp [Key.bytes, CodedChar.bytes]

theorem editLoop_spec (keys : List Key) {fuel : Nat} (live : Live mlmode prompt cap e m)
    (admits : e.AdmitsAll mlmode cap keys) (enough : (keys.flatMap Key.bytes).length < fuel) :
    ∃ m', Stands mlmode prompt (e.session mlmode cap keys).2.1 m' ∧
      editLoop mlmode fuel m (keys.flatMap Key.bytes) =
        some (if (e.session mlmode cap keys).1 then some (e.session mlmode cap keys).2.1.size
          else none, m', (e.session mlmode cap keys).2.2.flatMap Key.bytes) := by
  induction keys generalizing e m fuel with
  | nil =>
    obtain ⟨fuel, rfl⟩ : ∃ n, fuel = n + 1 := ⟨fuel - 1, by omega⟩
    refine ⟨m, live.toStands, ?_⟩
    have count : m.state.len = e.size := live.good.represents.len_eq
    simp [editLoop, LineEditor.turn, unicodeReadUTF8Char, Editing.session, count]
  | cons key keys ih =>
    have positive := key.bytes_pos
    rw [List.flatMap_cons, List.length_append] at enough
    obtain ⟨fuel, rfl⟩ : ∃ n, fuel = n + 1 := ⟨fuel - 1, by omega⟩
    obtain ⟨first, later⟩ := admits
    obtain ⟨turn, ran, fits⟩ := turn_spec live key first (keys.flatMap Key.bytes)
    rw [List.flatMap_cons, editLoop, ran, Option.bind_some, Editing.session]
    cases pressed : e.press mlmode cap key with
    | goesOn e' =>
      rw [pressed] at fits later
      cases turn with
      | returns result m' rest => exact False.elim fits
      | goesOn m' rest =>
        obtain ⟨live', rfl⟩ := fits
        exact ih live' later (by omega)
    | returns accepted e' =>
      rw [pressed] at fits
      cases turn with
      | goesOn m' rest => exact False.elim fits
      | returns result m' rest =>
        obtain ⟨stands, rfl, rfl⟩ := fits
        exact ⟨m', stands, rfl⟩

/-- A new prompt: an empty line, which is the last entry of the history. -/
def Editing.opened (max : Nat) (past : List Text) : Editing := ⟨.atEnd [], push max past [], 0⟩

theorem push_nonempty {max : Nat} {past : List Text} {t : Text} : 0 < (push max past t).length := by
  unfold push
  split
  next last => cases past <;> simp at last ⊢
  next => simp

variable {h : History} {past : List Text} {mem : Bytes} {cols : Nat}

/-- The history given to a prompt: its entries are texts that fit the buffer, without NUL. -/
structure Offered (h : History) (past : List Text) (mem : Bytes) : Prop where
  positive : 0 < h.history_max_len
  history : h.history = past.map flat
  entries : ∀ t ∈ past, (flat t).length < mem.length ∧ ∀ c ∈ t, c.lead ≠ nul

/-- The editor has drawn the prompt and nothing else. -/
structure Fresh (prompt : Text) (cols : Nat) (l : LinenoiseState) : Prop where
  oldcolpos : l.oldcolpos = 0
  maxrows : l.maxrows = 0
  cols : l.cols = cols
  out : l.out = flat prompt

/-- The state a session begins in, in the memory `buf`. -/
def openState (cols buflen : Nat) (prompt buf : Bytes) : LinenoiseState where
  buf
  buflen
  prompt
  pos := 0
  oldcolpos := 0
  len := 0
  cols
  maxrows := 0
  history_index := 0
  out := prompt

theorem live_opened (offered : Offered h past mem) (memory : 0 < mem.length)
    (some_columns : 0 < cols) (room : mlmode = false → columns prompt + 2 < cols) :
    ∃ buf, store mem 0 [nul] = some buf ∧
      Live mlmode prompt (mem.length - 1) (Editing.opened h.history_max_len past)
        ⟨openState cols (mem.length - 1) (flat prompt) buf, (addHistory h []).2.history⟩ := by
  have stored := store_nul [] (y := mem) memory
  rw [List.nil_append, List.length_nil, List.nil_append] at stored
  refine ⟨_, stored, ⟨⟨⟨⟨⟨_, rfl⟩, ?_, rfl, rfl⟩, ⟨rfl, some_columns, room⟩⟩, ?_⟩, rfl, rfl,
    push_nonempty, ?_⟩⟩
  · change (nul :: mem.tail).length = mem.length - 1 + 1
    have kept := store_length stored
    omega
  · change (addHistory h []).2.history = _
    rw [addHistory_eq offered.positive, offered.history]
    exact (push_map flat_injective h.history_max_len past []).symm
  · intro t there
    rcases mem_push there with old | rfl
    · obtain ⟨fits, plain⟩ := offered.entries t old
      exact ⟨by omega, plain⟩
    · exact ⟨Nat.zero_le _, by simp⟩

theorem linenoiseEdit_start (offered : Offered h past mem) (memory : 0 < mem.length)
    (some_columns : 0 < cols) (room : mlmode = false → columns prompt + 2 < cols) (input : Bytes) :
    ∃ m, linenoiseEdit mlmode h cols mem (flat prompt) input =
        editLoop mlmode (input.length + 1) m input ∧
      Live mlmode prompt (mem.length - 1) (Editing.opened h.history_max_len past) m ∧
      Fresh prompt cols m.state := by
  obtain ⟨buf, stored, live⟩ := live_opened offered memory some_columns room
  unfold linenoiseEdit
  rw [stored]
  exact ⟨_, rfl, live, rfl, rfl, rfl, rfl⟩

/-- What `linenoiseRaw` gives back is what the keys do: the line, the history, and the keys
pressed after the end of the session. -/
theorem linenoiseRaw_keys (offered : Offered h past mem) (memory : 0 < mem.length)
    (some_columns : 0 < cols) (room : mlmode = false → columns prompt + 2 < cols)
    {keys : List Key} {e : Editing} {accepted : Bool} {left : List Key}
    (admits : (Editing.opened h.history_max_len past).AdmitsAll mlmode (mem.length - 1) keys)
    (session : (Editing.opened h.history_max_len past).session mlmode (mem.length - 1) keys =
      (accepted, e, left)) :
    linenoiseRaw mlmode h cols mem (flat prompt) (keys.flatMap Key.bytes) =
      some (if accepted then some (flat e.line.contents) else none,
        { h with history := e.past.map flat }, left.flatMap Key.bytes) := by
  obtain ⟨m, started, live, -⟩ :=
    linenoiseEdit_start offered memory some_columns room (keys.flatMap Key.bytes)
  obtain ⟨m', stands, ran⟩ := editLoop_spec keys live admits (Nat.lt_succ_self _)
  rw [session] at stands ran
  obtain ⟨rest, held⟩ := stands.good.represents.held
  have loaded : load m'.state.buf 0 e.size = some (flat e.line.contents) := by
    rw [held, Editing.size, load_front]
  unfold linenoiseRaw
  rw [started, ran]
  cases accepted with
  | true => simp [loaded, stands.history]
  | false => simp [stands.history]

end EditSessions
