import Serene.ReplSession

/-!
# Completion

What `TAB` does where a completion callback is set. The callback is a parameter:
it is given the line as a C string and returns the completions. While they are
shown one after the other, the line stays what it was; the key that ends this
takes over the one shown, unless it is ESC, and is handled as every other key.
-/

namespace Completions

open ByteClasses Utf8Texts Zippers TerminalText MemoryBlocks LineDrawing LineColumns
open BoundedLogs InputHistory LineEditor LineEdits EditSessions ReplSession

section Editor
variable (mlmode : Bool)

/-- A completion is drawn in the place of the line. -/
def showCompletion (l : LinenoiseState) (s : Bytes) : Option LinenoiseState :=
  (refreshLine mlmode { l with buf := s ++ [nul], len := s.length, pos := s.length }).map
    fun shown => { shown with buf := l.buf, len := l.len, pos := l.pos }

/-- `snprintf(ls->buf, ls->buflen, "%s", s)`; the length returned is that of the whole string. -/
def takeCompletion (l : LinenoiseState) (s : Bytes) : Option LinenoiseState := do
  let buf ← if l.buflen = 0 then some l.buf
    else store l.buf 0 ((cStr s).take (l.buflen - 1) ++ [nul])
  return { l with buf, len := (cStr s).length, pos := (cStr s).length }

/-- The completion `i` on the screen, or the line itself. -/
def showChoice (lc : List Bytes) (l : LinenoiseState) (i : Nat) : Option LinenoiseState :=
  match lc[i]? with
  | some s => showCompletion mlmode l s
  | none => refreshLine mlmode l

/-- The completion `i` in the line, or the line as it is. -/
def takeChoice (lc : List Bytes) (l : LinenoiseState) (i : Nat) : Option LinenoiseState :=
  match lc[i]? with
  | some s => takeCompletion l s
  | none => some l

/-- The loop of `completeLine`. The key that ends it is returned with its bytes, and no key at the
end of the input. -/
def completeLoop (lc : List Bytes) :
    Nat → LinenoiseState → Nat → Bytes → Option (LinenoiseState × Option (Bytes × Nat) × Bytes)
  | 0, _, _, _ => none
  | fuel + 1, l, i, input => do
    let l ← showChoice mlmode lc l i
    match ← unicodeReadUTF8Char input with
    | none => return (l, none, input)
    | some (cbuf, c, input) =>
      if c = 9 then completeLoop lc fuel l ((i + 1) % (lc.length + 1)) input
      else
        let ended :=
          if c = 27 then
            -- the line is shown again
            if i < lc.length then refreshLine mlmode l else some l
          else takeChoice lc l i
        return (← ended, some (cbuf, c), input)

/-- What the loop of `linenoiseEdit` does with the key that `completeLine` returns. -/
def afterCompletion (e : Editor) :
    LinenoiseState × Option (Bytes × Nat) × Bytes → Option Turn
  | (l, none, input) => some (.returns (some l.len) { e with state := l } input)
  | (l, some (cbuf, c), input) =>
    if c = 0 then some (.goesOn { e with state := l } input)
    else handleKey mlmode { e with state := l } cbuf c input

/-- One turn of the loop, with the completion callback that is set. -/
def completingTurn (callback : Option (Bytes → List Bytes)) (e : Editor) (input : Bytes) :
    Option Turn := do
  match ← unicodeReadUTF8Char input with
  | none => return .returns (some e.state.len) e input
  | some (cbuf, c, input) =>
    match callback with
    | none => handleKey mlmode e cbuf c input
    | some completions =>
      if c = 9 then
        let line ← cString e.state.buf
        -- without completions the terminal beeps
        if completions line = [] then return .goesOn e input
        else
          let ended ← completeLoop mlmode (completions line) (input.length + 1) e.state 0 input
          afterCompletion mlmode e ended
      else handleKey mlmode e cbuf c input

def completingLoop (callback : Option (Bytes → List Bytes)) :
    Nat → Editor → Bytes → Option (Option Nat × Editor × Bytes)
  | 0, _, _ => none
  | fuel + 1, e, input =>
    (completingTurn mlmode callback e input).bind fun
      | .returns result e input => some (result, e, input)
      | .goesOn e input => completingLoop callback fuel e input

end Editor

/-- `linenoiseRaw` with a completion callback, or with none. -/
def completingRaw (callback : Option (Bytes → List Bytes)) (mlmode : Bool) (h : History)
    (cols : Nat) (mem prompt input : Bytes) : Option (Option Bytes × History × Bytes) := do
  let buf ← store mem 0 [nul]
  let state := openState cols (mem.length - 1) prompt buf
  let (count, e, rest) ←
    completingLoop mlmode callback (input.length + 1) ⟨state, (addHistory h []).2.history⟩ input
  let h := { h with history := e.history }
  match count with
  | none => return (none, h, rest)
  | some count => return (some (← load e.state.buf 0 count), h, rest)

theorem completingTurn_none (mlmode : Bool) (e : Editor) (input : Bytes) :
    completingTurn mlmode none e input = turn mlmode e input := by
  unfold completingTurn turn
  rfl

theorem completingLoop_none (mlmode : Bool) (fuel : Nat) (e : Editor) (input : Bytes) :
    completingLoop mlmode none fuel e input = editLoop mlmode fuel e input := by
  induction fuel generalizing e input with
  | zero => rfl
  | succ fuel ih =>
    rw [completingLoop, editLoop, completingTurn_none]
    congr 1
    funext turn
    cases turn with
    | goesOn e input => exact ih e input
    | returns result e input => rfl

/-- The REPL sets no callback, and its editor is the one without completion. -/
theorem completingRaw_none (mlmode : Bool) (h : History) (cols : Nat) (mem prompt input : Bytes) :
    completingRaw none mlmode h cols mem prompt input =
      linenoiseRaw mlmode h cols mem prompt input := by
  unfold completingRaw linenoiseRaw linenoiseEdit
  simp only [completingLoop_none, Option.bind_eq_bind, Option.bind_assoc]
  rfl

/-- A line is edited, or completions of it are shown, of which `index` is the one on the screen. -/
inductive Mode
  | editing (e : Editing)
  | choosing (e : Editing) (completions : List Text) (index : Nat)

/-- The line with the completion shown, where one is. -/
def chosen (e : Editing) (completions : List Text) (index : Nat) : Editing :=
  match completions[index]? with
  | some t => e.onLine fun _ => .atEnd t
  | none => e

/-- The character that a key begins with, and the bytes behind it. -/
def first : Key → CodedChar
  | .char c _ | .escape c _ _ _ _ | .extended c _ _ _ _ => c

def behind : Key → Bytes
  | .char _ _ => []
  | .escape _ _ a b _ => [a, b]
  | .extended _ _ b d _ => ['['.toUInt8, b, d]

inductive Step
  | goesOn (mode : Mode)
  | returns (accepted : Bool) (e : Editing)

def Step.of : Outcome → Step
  | .goesOn e => .goesOn (.editing e)
  | .returns accepted e => .returns accepted e

section Session
variable (suggest : Text → List Text) (mlmode : Bool) (cap : Nat)

/-- The point at which a key is handled as every other, if it is. -/
def Mode.handles (mode : Mode) (key : Key) : Option Editing :=
  match mode with
  | .editing e => if (first key).code = 9 then none else some e
  | .choosing e completions index =>
    if (first key).code = 9 ∨ (first key).code = 0 then none
    else if (first key).code = 27 then some e
    else some (chosen e completions index)

/-- What becomes of the mode at `TAB`, and at a NUL that ends the choice. -/
def Mode.passed (mode : Mode) (key : Key) : Mode :=
  match mode with
  | .editing e =>
    if suggest (cut e.line.contents) = [] then .editing e
    else .choosing e (suggest (cut e.line.contents)) 0
  | .choosing e completions index =>
    if (first key).code = 9 then .choosing e completions ((index + 1) % (completions.length + 1))
    else .editing (chosen e completions index)

def Mode.press (mode : Mode) (key : Key) : Step :=
  match mode.handles key with
  | some e => .of (e.press mlmode cap key)
  | none => .goesOn (mode.passed suggest key)

def Mode.line : Mode → Editing
  | .editing e => e
  | .choosing e _ _ => e

def Mode.session : Mode → List Key → Bool × Editing × List Key
  | mode, [] => (true, mode.line, [])
  | mode, key :: keys =>
    match mode.press suggest mlmode cap key with
    | .goesOn mode => mode.session keys
    | .returns accepted e => (accepted, e, keys)

/-- Every key is admitted where it is handled. -/
def Mode.AdmitsAll : Mode → List Key → Prop
  | _, [] => True
  | mode, key :: keys =>
    (∀ e, mode.handles key = some e → e.Admits cap key) ∧
      match mode.press suggest mlmode cap key with
      | .goesOn mode => mode.AdmitsAll keys
      | .returns _ _ => True

/-- The callback suggests texts, which fit the buffer with a byte to spare and have no NUL. -/
structure Suggests (callback : Bytes → List Bytes) : Prop where
  same : ∀ t, callback (flat t) = (suggest t).map flat
  fits : ∀ t, ∀ s ∈ suggest t, (flat s).length < cap ∧ ∀ c ∈ s, c.lead ≠ nul

end Session

variable {suggest : Text → List Text} {callback : Bytes → List Bytes} {mlmode : Bool}
variable {prompt : Text} {cap index : Nat} {e : Editing} {m : Editor} {completions : List Text}
variable {w : Zipper CodedChar} {l : LinenoiseState}

theorem refreshLine_buflen (mlmode : Bool) (l : LinenoiseState) (buflen : Nat) :
    refreshLine mlmode { l with buflen } =
      (refreshLine mlmode l).map fun l' => { l' with buflen } := by
  cases mlmode with
  | true =>
    unfold refreshLine refreshMultiLine
    simp only [if_true, Option.bind_eq_bind]
    rcases unicodeColumnPos l.prompt with _ | pcolwid
    · rfl
    rcases load l.buf 0 l.len with _ | line
    · rfl
    simp only [Option.bind_some]
    rcases unicodeColumnPosForMultiLine line l.len l.cols pcolwid with _ | colpos
    · rfl
    simp only [Option.bind_some]
    split
    · rfl
    · rcases unicodeColumnPosForMultiLine line l.pos l.cols pcolwid with _ | colpos2 <;> rfl
  | false =>
    unfold refreshLine refreshSingleLine
    simp only [Bool.false_eq_true, if_false, Option.bind_eq_bind, Option.map_bind,
      Function.comp_def]
    rfl

theorem key_bytes (key : Key) : key.bytes = (first key).bytes ++ behind key := by
  cases key <;> simp [Key.bytes, first, behind]

theorem behind_plain {key : Key} (plain : (first key).code ≠ 27) : behind key = [] := by
  cases key with
  | char c _ => rfl
  | escape c esc _ _ _ => exact absurd esc plain
  | extended c esc _ _ _ => exact absurd esc plain

theorem showCompletion_spec (good : Good mlmode prompt w l) (t : Text) :
    Leaves mlmode prompt w l (showCompletion mlmode l (flat t)) := by
  -- drawn as if the memory held nothing but the completion
  obtain ⟨l', ran, drawn⟩ := @refreshLine_total (.atEnd t)
    { l with
      buf := flat t ++ [nul], len := (flat t).length, pos := (flat t).length
      buflen := (flat t).length } mlmode prompt
    ⟨⟨[], by simp⟩, by simp, by simp [Zipper.atEnd], by simp⟩
    ⟨good.drawable.prompt_eq, good.drawable.some_columns, good.drawable.room⟩
  have shown := refreshLine_buflen mlmode
    { l with
      buf := flat t ++ [nul], len := (flat t).length, pos := (flat t).length
      buflen := (flat t).length } l.buflen
  rw [ran] at shown
  unfold showCompletion
  refine ⟨_, by rw [shown]; rfl, ?_⟩
  unfold Redrawn at drawn
  rw [drawn]
  exact ⟨⟨good.represents.redrawn rfl, good.drawable.redrawn rfl⟩, rfl, rfl⟩

theorem takeCompletion_spec (good : Good mlmode prompt w l) {t : Text}
    (fits : (flat t).length < l.buflen) (plain : ∀ c ∈ t, c.lead ≠ nul) :
    Leaves mlmode prompt (.atEnd t) l (takeCompletion l (flat t)) := by
  have size := good.represents.size
  have string : cStr (flat t) = flat t := by rw [cStr_flat, cut_self plain]
  have whole : (flat t).take (l.buflen - 1) = flat t := List.take_of_length_le (by omega)
  have copied := store_at [] l.buf (flat t ++ [nul])
    (by rw [List.length_append, List.length_singleton]; omega)
  rw [List.nil_append, List.length_nil, List.nil_append] at copied
  unfold takeCompletion
  rw [if_neg (by omega), string, whole, copied]
  refine ⟨_, rfl, ?_, rfl, rfl⟩
  refine good.relined (.atEnd t) ⟨l.buf.drop (flat t ++ [nul]).length, by simp⟩
    (store_length copied) ?_ ?_
  · simp [Zipper.atEnd]
  · simp

theorem Live.leaves (live : Live mlmode prompt cap e m) {f : Zipper CodedChar → Zipper CodedChar}
    {edited : Option LinenoiseState} (leaves : Leaves mlmode prompt (f e.line) m.state edited) :
    ∃ l', edited = some l' ∧ Live mlmode prompt cap (e.onLine f) { m with state := l' } := by
  obtain ⟨l', ran, good, buflen, index⟩ := leaves
  exact ⟨l', ran, ⟨good, live.history⟩, buflen.trans live.buflen, index.trans live.index,
    live.inside, live.entries⟩

theorem Live.redrawn (live : Live mlmode prompt cap e m) :
    ∃ l', refreshLine mlmode m.state = some l' ∧
      Live mlmode prompt cap e { m with state := l' } :=
  Live.leaves (f := id) live
    (leaves_refreshLine live.good.represents live.good.drawable ⟨rfl, rfl⟩)

/-- What is on the screen while completions are shown leaves the line alone. -/
theorem showChoice_spec (live : Live mlmode prompt cap e m) (completions : List Text)
    (index : Nat) :
    ∃ l', showChoice mlmode (completions.map flat) m.state index = some l' ∧
      Live mlmode prompt cap e { m with state := l' } := by
  rw [showChoice, List.getElem?_map]
  cases completions[index]? with
  | some t => exact Live.leaves (f := id) live (showCompletion_spec live.good t)
  | none => exact Live.redrawn live

theorem takeChoice_spec (live : Live mlmode prompt cap e m)
    (fits : ∀ t ∈ completions, (flat t).length < cap ∧ ∀ c ∈ t, c.lead ≠ nul) (index : Nat) :
    ∃ l', takeChoice (completions.map flat) m.state index = some l' ∧
      Live mlmode prompt cap (chosen e completions index) { m with state := l' } := by
  rw [takeChoice, List.getElem?_map, chosen]
  cases there : completions[index]? with
  | some t =>
    obtain ⟨short, plain⟩ := fits t (List.mem_of_getElem? there)
    exact Live.leaves (f := fun _ => .atEnd t) live
      (takeCompletion_spec live.good (by rw [live.buflen]; exact short) plain)
  | none => exact ⟨m.state, rfl, live⟩

/-- The loop after a turn. -/
def resume (mlmode : Bool) (callback : Bytes → List Bytes) (fuel : Nat) :
    Turn → Option (Option Nat × Editor × Bytes)
  | .returns result e input => some (result, e, input)
  | .goesOn e input => completingLoop mlmode (some callback) fuel e input

/-- The run ends as the session does. -/
def Ends (prompt : Text) (mlmode : Bool) (run : Option (Option Nat × Editor × Bytes))
    (session : Bool × Editing × List Key) : Prop :=
  ∃ m, Stands mlmode prompt session.2.1 m ∧
    run = some (if session.1 then some session.2.1.size else none, m,
      session.2.2.flatMap Key.bytes)

/-- From every point of a line edited, the loop ends as the session does. -/
def Edits (suggest : Text → List Text) (callback : Bytes → List Bytes) (mlmode : Bool)
    (prompt : Text) (cap : Nat) (keys : List Key) : Prop :=
  ∀ {e : Editing} {m : Editor} {fuel : Nat}, Live mlmode prompt cap e m →
    (Mode.editing e).AdmitsAll suggest mlmode cap keys →
    (keys.flatMap Key.bytes).length < fuel →
      Ends prompt mlmode
        (completingLoop mlmode (some callback) fuel m (keys.flatMap Key.bytes))
        ((Mode.editing e).session suggest mlmode cap keys)

/-- The same while completions are shown. -/
def Chooses (suggest : Text → List Text) (callback : Bytes → List Bytes) (mlmode : Bool)
    (prompt : Text) (cap : Nat) (keys : List Key) : Prop :=
  ∀ {e : Editing} {m : Editor} {completions : List Text} {index inner fuel : Nat},
    Live mlmode prompt cap e m →
    (∀ t ∈ completions, (flat t).length < cap ∧ ∀ c ∈ t, c.lead ≠ nul) →
    (Mode.choosing e completions index).AdmitsAll suggest mlmode cap keys →
    (keys.flatMap Key.bytes).length < fuel → (keys.flatMap Key.bytes).length < inner →
      Ends prompt mlmode
        (((completeLoop mlmode (completions.map flat) inner m.state index
          (keys.flatMap Key.bytes)).bind (afterCompletion mlmode m)).bind
            (resume mlmode callback fuel))
        ((Mode.choosing e completions index).session suggest mlmode cap keys)

variable {keys : List Key} {key : Key} {fuel : Nat}

theorem handleKey_handled (live : Live mlmode prompt cap e m) (admits : e.Admits cap key)
    (rest : Bytes) :
    ∃ turn, handleKey mlmode m (first key).bytes (first key).code (behind key ++ rest) =
        some turn ∧ Matches mlmode prompt cap rest (e.press mlmode cap key) turn := by
  obtain ⟨turn, ran, fits⟩ := turn_spec live key admits rest
  rw [LineEditor.turn, key_bytes, List.append_assoc, unicodeReadUTF8Char_spec,
    Option.bind_some] at ran
  exact ⟨turn, ran, fits⟩

/-- A key that is handled as every other, and what follows it. -/
theorem handled_ends (edits : Edits suggest callback mlmode prompt cap keys)
    (live : Live mlmode prompt cap e m) (admits : e.Admits cap key)
    (later : match Step.of (e.press mlmode cap key) with
      | .goesOn mode => mode.AdmitsAll suggest mlmode cap keys
      | .returns _ _ => True)
    (enough : (keys.flatMap Key.bytes).length < fuel) :
    Ends prompt mlmode
      ((handleKey mlmode m (first key).bytes (first key).code
        (behind key ++ keys.flatMap Key.bytes)).bind (resume mlmode callback fuel))
      (match Step.of (e.press mlmode cap key) with
        | .goesOn mode => mode.session suggest mlmode cap keys
        | .returns accepted e => (accepted, e, keys)) := by
  obtain ⟨turn, ran, fits⟩ := handleKey_handled live admits (keys.flatMap Key.bytes)
  rw [ran, Option.bind_some]
  cases pressed : e.press mlmode cap key with
  | goesOn e' =>
    rw [pressed] at fits later
    cases turn with
    | returns result m' rest => exact False.elim fits
    | goesOn m' rest =>
      obtain ⟨live', rfl⟩ := fits
      exact edits live' later enough
  | returns accepted e' =>
    rw [pressed] at fits
    cases turn with
    | goesOn m' rest => exact False.elim fits
    | returns result m' rest =>
      obtain ⟨stands, rfl, rfl⟩ := fits
      exact ⟨m', stands, rfl⟩

theorem chooses_nil : Chooses suggest callback mlmode prompt cap [] := by
  intro e m completions index inner fuel live fits admits enough more
  obtain ⟨inner, rfl⟩ : ∃ n, inner = n + 1 := ⟨inner - 1, by omega⟩
  obtain ⟨l, shown, live'⟩ := showChoice_spec live completions index
  have len_eq : l.len = e.size := live'.good.represents.len_eq
  refine ⟨{ m with state := l }, live'.toStands, ?_⟩
  simp only [List.flatMap_nil, completeLoop, Option.bind_eq_bind, shown, Option.bind_some,
    unicodeReadUTF8Char, Mode.session, Mode.line, if_true, ← len_eq]
  rfl

theorem chooses_cons (edits : Edits suggest callback mlmode prompt cap keys)
    (chooses : Chooses suggest callback mlmode prompt cap keys) :
    Chooses suggest callback mlmode prompt cap (key :: keys) := by
  intro e m completions index inner fuel live fits admits enough more
  obtain ⟨inner, rfl⟩ : ∃ n, inner = n + 1 := ⟨inner - 1, by omega⟩
  have positive := key.bytes_pos
  rw [List.flatMap_cons, List.length_append] at enough more
  obtain ⟨here, later⟩ := admits
  obtain ⟨l, shown, live'⟩ := showChoice_spec live completions index
  simp only [List.flatMap_cons, key_bytes, List.append_assoc, completeLoop, Option.bind_eq_bind,
    shown, Option.bind_some, unicodeReadUTF8Char_spec]
  rw [Mode.session]
  simp only [Mode.press, Mode.handles] at here later ⊢
  by_cases tab : (first key).code = 9
  · rw [if_pos tab]
    simp only [tab, true_or, if_true, Mode.passed] at later ⊢
    rw [behind_plain (by omega), List.nil_append, List.length_map]
    exact chooses live' fits later (by omega) (by omega)
  · rw [if_neg tab]
    by_cases esc : (first key).code = 27
    · obtain ⟨l₂, redrawn, live₂⟩ : ∃ l₂, (if index < (completions.map flat).length then
          refreshLine mlmode l else some l) = some l₂ ∧
          Live mlmode prompt cap e { m with state := l₂ } := by
        split
        · exact Live.redrawn live'
        · exact ⟨l, rfl, live'⟩
      have other : ¬((first key).code = 9 ∨ (first key).code = 0) := by omega
      simp only [if_neg other, if_pos esc] at here later ⊢
      rw [redrawn, Option.bind_some, Option.pure_def, Option.bind_some, afterCompletion,
        if_neg (by omega)]
      exact handled_ends edits live₂ (here e rfl) later (by omega)
    · obtain ⟨l₂, taken, live₂⟩ := takeChoice_spec live' fits index
      rw [if_neg esc, taken, Option.bind_some, Option.pure_def, Option.bind_some, afterCompletion]
      by_cases null : (first key).code = 0
      · simp only [null, or_true, if_true, Mode.passed, if_neg (show ¬(0 = 9) by omega)] at later ⊢
        rw [behind_plain esc, List.nil_append, Option.bind_some]
        exact edits live₂ later (by omega)
      · have other : ¬((first key).code = 9 ∨ (first key).code = 0) := by omega
        simp only [if_neg other, if_neg esc, if_neg null] at here later ⊢
        exact handled_ends edits live₂ (here _ rfl) later (by omega)

theorem edits_nil : Edits suggest callback mlmode prompt cap [] := by
  intro e m fuel live admits enough
  obtain ⟨fuel, rfl⟩ : ∃ n, fuel = n + 1 := ⟨fuel - 1, by omega⟩
  have len_eq : m.state.len = e.size := live.good.represents.len_eq
  refine ⟨m, live.toStands, ?_⟩
  simp only [List.flatMap_nil, completingLoop, completingTurn, unicodeReadUTF8Char, Mode.session,
    Mode.line, if_true, ← len_eq]
  rfl

theorem edits_cons (suggests : Suggests suggest cap callback)
    (edits : Edits suggest callback mlmode prompt cap keys)
    (chooses : Chooses suggest callback mlmode prompt cap keys) :
    Edits suggest callback mlmode prompt cap (key :: keys) := by
  intro e m fuel live admits enough
  obtain ⟨fuel, rfl⟩ : ∃ n, fuel = n + 1 := ⟨fuel - 1, by omega⟩
  have positive := key.bytes_pos
  rw [List.flatMap_cons, List.length_append] at enough
  obtain ⟨here, later⟩ := admits
  have string := cString_line live.good
  have made := suggests.same (cut e.line.contents)
  rw [Mode.session]
  simp only [List.flatMap_cons, key_bytes, List.append_assoc, completingLoop, completingTurn,
    Option.bind_eq_bind, Option.bind_some, unicodeReadUTF8Char_spec]
  simp only [Mode.press, Mode.handles] at here later ⊢
  by_cases tab : (first key).code = 9
  · simp only [if_pos tab, Mode.passed, string, Option.bind_some, made, List.map_eq_nil_iff]
      at later ⊢
    rw [behind_plain (by omega), List.nil_append]
    by_cases none : suggest (cut e.line.contents) = []
    · simp only [if_pos none] at later ⊢
      exact edits live later (by omega)
    · simp only [if_neg none] at later ⊢
      exact chooses live (suggests.fits _) later (by omega) (by omega)
  · simp only [if_neg tab] at here later ⊢
    exact handled_ends edits live (here e rfl) later (by omega)

/-- The loop of the editor is the session with completions, whatever the keys. -/
theorem runs_end (suggests : Suggests suggest cap callback) (keys : List Key) :
    Edits suggest callback mlmode prompt cap keys ∧
      Chooses suggest callback mlmode prompt cap keys := by
  induction keys with
  | nil => exact ⟨edits_nil, chooses_nil⟩
  | cons key keys ih =>
    obtain ⟨edits, chooses⟩ := ih
    exact ⟨edits_cons suggests edits chooses, chooses_cons edits chooses⟩

variable {h : History} {past : List Text} {mem : Bytes} {cols : Nat} {accepted : Bool}
  {left : List Key}

/-- With a callback that suggests texts, what is returned is what the keys do, those that choose
a completion and those that edit. -/
theorem completingRaw_keys (suggests : Suggests suggest (mem.length - 1) callback)
    (offered : Offered h past mem) (memory : 0 < mem.length) (some_columns : 0 < cols)
    (room : mlmode = false → columns prompt + 2 < cols)
    (admits : (Mode.editing (Editing.opened h.history_max_len past)).AdmitsAll suggest mlmode
      (mem.length - 1) keys)
    (session : (Mode.editing (Editing.opened h.history_max_len past)).session suggest mlmode
      (mem.length - 1) keys = (accepted, e, left)) :
    completingRaw (some callback) mlmode h cols mem (flat prompt) (keys.flatMap Key.bytes) =
      some (if accepted then some (flat e.line.contents) else none,
        { h with history := e.past.map flat }, left.flatMap Key.bytes) := by
  obtain ⟨buf, stored, live⟩ := live_opened offered memory some_columns room
  obtain ⟨m, stands, ran⟩ := (runs_end suggests keys).1 live admits (Nat.lt_succ_self _)
  rw [session] at stands ran
  obtain ⟨rest, held⟩ := stands.good.represents.held
  have loaded : load m.state.buf 0 e.size = some (flat e.line.contents) := by
    rw [held, Editing.size, load_front]
  unfold completingRaw
  simp only [stored, ran, Option.bind_eq_bind, Option.bind_some]
  cases accepted with
  | true => simp [loaded, stands.history]
  | false => simp [stands.history]

def tabKey : Key := .char (.ascii 9 (by decide)) (by decide)

/-- Two completions, whatever the line. -/
def twoTexts (_ : Text) : List Text := [[.ascii 109 (by decide)], [.ascii 110 (by decide)]]

theorem completingRaw_keys_second :
    completingRaw (some fun _ => [[109], [110]]) true ⟨1, []⟩ 80 (List.replicate 8 0) (flat [])
        ([tabKey, tabKey, enterKey].flatMap Key.bytes) =
      some (some [110], ⟨1, []⟩, []) := by
  have fits : ∀ t ∈ twoTexts [], (flat t).length < 7 ∧ ∀ c ∈ t, c.lead ≠ nul := by decide
  have suggests : Suggests twoTexts 7 fun _ => [[109], [110]] := ⟨fun _ => rfl, fun _ => fits⟩
  have offered : Offered ⟨1, []⟩ [] (List.replicate 8 0) := ⟨by decide, rfl, by simp⟩
  have memory : 0 < (List.replicate 8 (0 : UInt8)).length := by decide
  have room : true = false → columns ([] : Text) + 2 < 80 := nofun
  refine completingRaw_keys suggests offered memory (Nat.succ_pos 79) room ?_ rfl
  refine ⟨fun e handled => ?_, fun e handled => ?_, fun e handled => ?_, trivial⟩
  · cases handled
  · cases handled
  · exact admits_command _ _ (by decide) (by decide)

end Completions
