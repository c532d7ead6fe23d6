import Serene.EditSafety

/-!
# The REPL and its history file

The loop of the REPL's `main`: a prompt, the evaluation of the line, and the
line added to the history where evaluation gave no error. `evaluate` stands for
reading and evaluating a line in a context, and `activeNS` for the name of the
context's namespace. Every prompt edits in a new buffer, with whatever it holds.
-/

namespace ReplSession

open ByteClasses Utf8Texts Zippers TerminalText MemoryBlocks LineDrawing LineColumns
open BoundedLogs InputHistory LineEditor LineEdits EditSessions EditSafety

/-- `LINENOISE_MAX_LINE`. -/
def maxLine : Nat := 4096

section Loop
variable {Ctx : Type} (activeNS : Ctx → Bytes) (evaluate : Ctx → Bytes → Ctx × Bool)

/-- The terminal's columns and the contents of the buffer, prompt by prompt. -/
abbrev Surroundings := Nat → Nat × Bytes

/-- The prompt as a C string. -/
def promptOf (name : Bytes) : Bytes := cStr (name ++ ['>'.toUInt8, ' '.toUInt8])

/-- At most `fuel` turns of the loop, with the prompts counted from `turn` on. -/
def replLoop (around : Surroundings) : Nat → Nat → Ctx → History → Bytes →
    Option (Ctx × History × Bytes)
  | 0, _, _, _, _ => none
  | fuel + 1, turn, ctx, h, input => do
    let (cols, mem) := around turn
    let (line, h, input) ← linenoiseRaw true h cols mem (promptOf (activeNS ctx)) input
    match line with
    | none => return (ctx, h, input)
    | some line =>
      let (ctx, ok) := evaluate ctx line
      replLoop around fuel (turn + 1) ctx (if ok then (addHistory h line).2 else h) input

/-- The history file after the run, from what it holds before. -/
def replMain (around : Surroundings) (fuel : Nat) (ctx : Ctx) (file input : Bytes) :
    Option Bytes := do
  let h := loadHistory (setHistoryMaxLen .initial 4).2 file
  let (_, h, _) ← replLoop activeNS evaluate around fuel 0 ctx h input
  return saveHistory h

/-- The lines that evaluate without an error, when all are evaluated in turn. -/
def evaluated (ctx : Ctx) : List Bytes → List Bytes
  | [] => []
  | line :: lines =>
    let (ctx, ok) := evaluate ctx line
    if ok then line :: evaluated ctx lines else evaluated ctx lines

end Loop

/-- The key does not go to another entry of the history. -/
def Quiet : Key → Prop
  | .char c _ => c.code ≠ 16 ∧ c.code ≠ 14
  | .escape _ _ a b _ => ¬(a = '['.toUInt8 ∧ (b = 'A'.toUInt8 ∨ b = 'B'.toUInt8))
  | .extended .. => True

/-- The same line with another history. -/
def moved (e : Editing) (past : List Text) (index : Nat) : Editing := { e with past, index }

variable {mlmode : Bool} {cap : Nat} {e e' : Editing} {past : List Text} {index : Nat}

theorem insert_past (cap : Nat) (e : Editing) (c : CodedChar) :
    (e.insert cap c).past = e.past ∧ (e.insert cap c).index = e.index := by
  unfold Editing.insert
  split <;> exact ⟨rfl, rfl⟩

theorem insert_moved (e : Editing) (c : CodedChar) :
    (moved e past index).insert cap c = moved (e.insert cap c) past index := by
  unfold Editing.insert
  change (if e.size < cap then _ else _) = _
  split <;> rfl

/-- Nothing but the keys for the history looks at it. -/
theorem command_moved {n : Nat} (quiet : n ≠ 16 ∧ n ≠ 14) {c : CodedChar}
    (goesOn : e.command mlmode cap c n = .goesOn e') :
    e'.past = e.past ∧ e'.index = e.index ∧
      (moved e past index).command mlmode cap c n = .goesOn (moved e' past index) := by
  unfold Editing.command at goesOn ⊢
  split at goesOn
  case h_1 => cases goesOn
  case h_2 => cases goesOn
  case h_5 =>
    simp only [moved]
    split at goesOn
    next => cases goesOn
    next filled =>
      cases goesOn
      exact ⟨rfl, rfl, if_neg filled⟩
  case h_9 => exact absurd rfl quiet.1
  case h_10 => exact absurd rfl quiet.2
  case h_17 =>
    cases goesOn
    obtain ⟨past_eq, index_eq⟩ := insert_past cap e c
    exact ⟨past_eq, index_eq, by rw [← insert_moved]⟩
  all_goals
    cases goesOn
    exact ⟨rfl, rfl, rfl⟩

theorem sequence_moved {a b : UInt8}
    (quiet : ¬(a = '['.toUInt8 ∧ (b = 'A'.toUInt8 ∨ b = 'B'.toUInt8))) :
    (e.sequence a b).past = e.past ∧ (e.sequence a b).index = e.index ∧
      (moved e past index).sequence a b = moved (e.sequence a b) past index := by
  unfold Editing.sequence
  split_ifs with bracket up down
  · exact absurd ⟨bracket, Or.inl up⟩ quiet
  · exact absurd ⟨bracket, Or.inr down⟩ quiet
  all_goals exact ⟨rfl, rfl, rfl⟩

theorem press_moved (past : List Text) (index : Nat) {key : Key} (quiet : Quiet key)
    (goesOn : e.press mlmode cap key = .goesOn e') :
    e'.past = e.past ∧ e'.index = e.index ∧
      (moved e past index).press mlmode cap key = .goesOn (moved e' past index) := by
  cases key with
  | char c plain => exact command_moved quiet goesOn
  | escape c esc a b short =>
    cases goesOn
    obtain ⟨past_eq, index_eq, same⟩ := sequence_moved quiet
    exact ⟨past_eq, index_eq, congrArg Outcome.goesOn same⟩
  | extended c esc b d digit =>
    unfold Editing.press at goesOn ⊢
    simp only at goesOn ⊢
    split at goesOn <;> cases goesOn <;> rename_i deletes
    · exact ⟨rfl, rfl, if_pos deletes⟩
    · exact ⟨rfl, rfl, if_neg deletes⟩

theorem admits_moved {key : Key} (admits : e.Admits cap key) :
    (moved e past index).Admits cap key := by
  cases key <;> exact admits

theorem pressed_moved (past : List Text) (index : Nat) (keys : List Key)
    (quiet : ∀ key ∈ keys, Quiet key)
    (admits : e.AdmitsAll mlmode cap keys) (reached : pressed mlmode cap e keys = some e') :
    (moved e past index).AdmitsAll mlmode cap keys ∧
      pressed mlmode cap (moved e past index) keys = some (moved e' past index) := by
  induction keys generalizing e with
  | nil =>
    cases reached
    exact ⟨trivial, rfl⟩
  | cons key keys ih =>
    obtain ⟨first, later⟩ := admits
    rw [pressed] at reached
    cases step : e.press mlmode cap key with
    | returns accepted e₁ => rw [step] at reached; cases reached
    | goesOn e₁ =>
      rw [step] at later reached
      obtain ⟨-, -, same⟩ := press_moved past index
        (quiet key List.mem_cons_self) step
      obtain ⟨admits', reached'⟩ :=
        ih (fun key mem => quiet key (List.mem_cons_of_mem _ mem)) later reached
      constructor
      · refine ⟨admits_moved first, ?_⟩
        rw [same]
        exact admits'
      · rw [pressed, same]
        exact reached'

def enterKey : Key := .char (.ascii 13 (by decide)) (by decide)

def eofKey : Key := .char (.ascii 4 (by decide)) (by decide)

def interruptKey : Key := .char (.ascii 3 (by decide)) (by decide)

def blankLine : Editing := ⟨.atEnd [], [], 0⟩

/-- The keys type the line, without a look at the history. -/
structure Typed (cap : Nat) (keys : List Key) (line : Text) : Prop where
  quiet : ∀ key ∈ keys, Quiet key
  admits : blankLine.AdmitsAll true cap keys
  line : ∃ e, pressed true cap blankLine keys = some e ∧ e.line.contents = line

theorem session_end (more : List Key) {keys : List Key} {last : Key} {accepted : Bool}
    {e'' : Editing}
    (admits : e.AdmitsAll mlmode cap keys) (reached : pressed mlmode cap e keys = some e')
    (here : e'.Admits cap last) (ends : e'.press mlmode cap last = .returns accepted e'') :
    e.AdmitsAll mlmode cap (keys ++ last :: more) ∧
      e.session mlmode cap (keys ++ last :: more) = (accepted, e'', more) := by
  constructor
  · refine admitsAll_append admits reached ⟨here, ?_⟩
    rw [ends]
    trivial
  · rw [session_append reached, Editing.session, ends]

variable {h : History} {mem : Bytes} {cols : Nat} {prompt line : Text} {keys more : List Key}

theorem reopened_map (n : Nat) (past : List Text) :
    (reopened n [] past).map flat = reopened n [] (past.map flat) := by
  rw [reopened, List.map_dropLast, push_map flat_injective]
  rfl

theorem admits_command (c : CodedChar) (plain : c.code ≠ 27) (command : c.code ∈ commands)
    (other : c.code ≠ 20) : e.Admits cap (.char c plain) :=
  ⟨fun none => absurd command none, fun swap => absurd swap other⟩

/-- A prompt at which a line is typed, and then a key that ends the session. -/
theorem linenoiseRaw_last (offered : Offered h past mem) (memory : 0 < mem.length)
    (some_columns : 0 < cols) (typed : Typed (mem.length - 1) keys line) (key : Key)
    (accepted : Bool) (past' : List Text)
    (ends : ∀ e : Editing, e.line.contents = line → e.past = push h.history_max_len past [] →
      e.Admits (mem.length - 1) key ∧ ∃ e', e.press true (mem.length - 1) key =
        .returns accepted e' ∧ e'.line.contents = line ∧ e'.past = past') :
    linenoiseRaw true h cols mem (flat prompt) ((keys ++ key :: more).flatMap Key.bytes) =
      some (if accepted then some (flat line) else none,
        { h with history := past'.map flat }, more.flatMap Key.bytes) := by
  obtain ⟨e, reached, same⟩ := typed.line
  obtain ⟨admits, reached'⟩ := pressed_moved (push h.history_max_len past []) 0 keys
    typed.quiet typed.admits reached
  obtain ⟨here, e', ended, line_eq, past_eq⟩ := ends (moved e _ 0) same rfl
  obtain ⟨admits', session⟩ := session_end more admits reached' here ended
  rw [linenoiseRaw_keys offered memory some_columns (by simp) admits' session, line_eq, past_eq]

/-- `ENTER` gives the line typed, and takes the entry of the prompt off the history again. -/
theorem linenoiseRaw_enter (prompt : Text) (more : List Key) (offered : Offered h past mem)
    (memory : 0 < mem.length) (some_columns : 0 < cols) (typed : Typed (mem.length - 1) keys line) :
    linenoiseRaw true h cols mem (flat prompt) ((keys ++ enterKey :: more).flatMap Key.bytes) =
      some (some (flat line), { h with history := reopened h.history_max_len [] h.history },
        more.flatMap Key.bytes) := by
  rw [offered.history, ← reopened_map]
  refine linenoiseRaw_last offered memory some_columns typed enterKey true _
    fun e same open_eq => ⟨admits_command _ _ (by decide) (by decide), _, rfl, ?_, ?_⟩
  · simpa [Editing.onLine, Editing.popped] using same
  · rw [reopened, ← open_eq]
    rfl

/-- `CTRL_D` on an empty line quits, with the same history. -/
theorem linenoiseRaw_eof (prompt : Text) (more : List Key) (offered : Offered h past mem)
    (memory : 0 < mem.length) (some_columns : 0 < cols) (typed : Typed (mem.length - 1) keys []) :
    linenoiseRaw true h cols mem (flat prompt) ((keys ++ eofKey :: more).flatMap Key.bytes) =
      some (none, { h with history := reopened h.history_max_len [] h.history },
        more.flatMap Key.bytes) := by
  rw [offered.history, ← reopened_map]
  refine linenoiseRaw_last offered memory some_columns typed eofKey false _
    fun e same open_eq => ⟨admits_command _ _ (by decide) (by decide), _, if_pos same, same, ?_⟩
  rw [reopened, ← open_eq]
  rfl

/-- `CTRL_C` quits on any line, and the entry of the prompt stays. -/
theorem linenoiseRaw_interrupt (prompt : Text) (more : List Key) (offered : Offered h past mem)
    (memory : 0 < mem.length) (some_columns : 0 < cols) (typed : Typed (mem.length - 1) keys line) :
    linenoiseRaw true h cols mem (flat prompt) ((keys ++ interruptKey :: more).flatMap Key.bytes) =
      some (none,
        { h with history := reopened h.history_max_len [] h.history ++ [[]] },
        more.flatMap Key.bytes) := by
  have pushed : (push h.history_max_len past []).map flat =
      push h.history_max_len (past.map flat) [] :=
    push_map flat_injective h.history_max_len past []
  rw [offered.history, ← push_eq_reopened, ← pushed]
  exact linenoiseRaw_last offered memory some_columns typed interruptKey false _
    fun e same open_eq => ⟨admits_command _ _ (by decide) (by decide), e, rfl, same, open_eq⟩

/-- The entry can be shown in the line editor. -/
def Showable (entry : Bytes) : Prop :=
  ∃ t : Text, flat t = entry ∧ entry.length < maxLine ∧ ∀ c ∈ t, c.lead ≠ nul

theorem exists_texts {log : List Bytes} (showable : ∀ entry ∈ log, Showable entry) :
    ∃ past : List Text, log = past.map flat ∧
      ∀ t ∈ past, (flat t).length < maxLine ∧ ∀ c ∈ t, c.lead ≠ nul := by
  induction log with
  | nil => exact ⟨[], rfl, by simp⟩
  | cons entry log ih =>
    obtain ⟨t, same, fits, plain⟩ := showable entry List.mem_cons_self
    obtain ⟨past, rest, all⟩ := ih fun entry mem => showable entry (List.mem_cons_of_mem _ mem)
    refine ⟨t :: past, by rw [List.map_cons, same, rest], ?_⟩
    intro u mem
    rcases List.mem_cons.mp mem with rfl | later
    · exact ⟨same ▸ fits, plain⟩
    · exact all u later

theorem showable_cStr {t : Text} (fits : (flat t).length < maxLine) :
    Showable (cStr (flat t)) := by
  rw [cStr_flat]
  exact ⟨cut t, rfl, Nat.lt_of_le_of_lt (cut_length_le t) fits, cut_plain t⟩

/-- At a prompt the history will lose what a log shorter by one has lost already. -/
structure Remembers (n : Nat) (entries : List Bytes) (h : History) : Prop where
  positive : 0 < n
  max : h.history_max_len = n
  showable : ∀ entry ∈ h.history, Showable entry
  reopened : reopened n [] h.history = recent (n - 1) entries
  words : ∀ entry ∈ entries, entry ≠ []

variable {n : Nat} {entries : List Bytes}

/-- The lines that are kept: not empty, and without what follows a NUL. -/
def kept (lines : List Bytes) : List Bytes := (lines.map cStr).filter (· ≠ [])

theorem Remembers.offered (remembers : Remembers n entries h) (size : mem.length = maxLine) :
    ∃ past, Offered h past mem := by
  obtain ⟨past, same, all⟩ := exists_texts remembers.showable
  exact ⟨past, remembers.max ▸ remembers.positive, same, size ▸ all⟩

theorem Remembers.prompted (remembers : Remembers n entries h) :
    Remembers n entries ⟨n, recent (n - 1) entries⟩ := by
  refine ⟨remembers.positive, rfl, ?_, reopened_shorter remembers.positive remembers.words,
    remembers.words⟩
  intro entry mem
  rw [← remembers.reopened] at mem
  rcases mem_push (List.dropLast_subset _ mem) with old | rfl
  · exact remembers.showable entry old
  · exact ⟨[], rfl, by decide, by simp⟩

theorem Remembers.added (remembers : Remembers n entries h) {t : Text}
    (fits : (flat t).length < maxLine) :
    Remembers n (entries ++ kept [flat t])
      (addHistory ⟨n, recent (n - 1) entries⟩ (flat t)).2 := by
  have prompted := remembers.prompted
  have positive := remembers.positive
  rw [addHistory_eq positive]
  refine ⟨positive, rfl, ?_, ?_, ?_⟩
  · intro entry mem
    rcases mem_push mem with old | rfl
    · exact prompted.showable entry old
    · exact showable_cStr fits
  · by_cases empty : cStr (flat t) = []
    · simp only [kept, List.map_cons, List.map_nil, empty]
      simpa using reopened_push_blank positive remembers.words
    · simp only [kept, List.map_cons, List.map_nil]
      simpa [empty] using reopened_push positive remembers.words empty
  · intro entry mem
    rcases List.mem_append.mp mem with old | new
    · exact remembers.words entry old
    · simpa using (List.mem_filter.mp new).2

theorem kept_append (lines lines' : List Bytes) :
    kept (lines ++ lines') = kept lines ++ kept lines' := by
  simp [kept]

theorem typed_fits {cap : Nat} (typed : Typed cap keys line) : (flat line).length ≤ cap := by
  obtain ⟨e, reached, same⟩ := typed.line
  -- any history and any terminal will do
  have offered : Offered ⟨1, []⟩ [] (List.replicate (cap + 1) nul) :=
    ⟨by decide, rfl, by simp⟩
  have size : (List.replicate (cap + 1) nul).length - 1 = cap := by simp
  obtain ⟨admits, reached'⟩ := pressed_moved (push 1 [] []) 0 keys typed.quiet typed.admits reached
  obtain ⟨m, -, live, -⟩ := linenoiseEdit_start offered (by simp) Nat.one_pos
    (show true = false → columns [] + 2 < 1 by simp) []
  rw [size] at live
  obtain ⟨m', -, live', -⟩ := editLoop_pressed keys [] live admits reached' (Nat.lt_succ_self _)
  rw [← same]
  exact live'.size_le

section Loop
variable {Ctx : Type} {activeNS : Ctx → Bytes} (evaluate : Ctx → Bytes → Ctx × Bool)
variable {around : Surroundings}

/-- What the user does in one run: the lines entered, and one that is not. -/
structure Run where
  prompts : List (List Key × Text)
  quit : List Key × Text
  interrupted : Bool

namespace Run

def input (run : Run) : List Key :=
  run.prompts.flatMap (fun p => p.1 ++ [enterKey]) ++
    (run.quit.1 ++ [if run.interrupted then interruptKey else eofKey])

def lines (run : Run) : List Bytes := run.prompts.map fun p => flat p.2

/-- The entry of the last prompt, which only `CTRL_D` takes off the history. -/
def left (run : Run) : List Bytes := if run.interrupted then [[]] else []

structure Sound (run : Run) : Prop where
  prompts : ∀ p ∈ run.prompts, Typed (maxLine - 1) p.1 p.2
  quit : Typed (maxLine - 1) run.quit.1 run.quit.2
  empty : run.interrupted = false → run.quit.2 = []

end Run

theorem promptOf_text {name : Bytes} (text : ∃ t, name = flat t) : ∃ t, promptOf name = flat t := by
  obtain ⟨t, rfl⟩ := text
  refine ⟨cut (t ++ [.ascii '>'.toUInt8 (by decide), .ascii ' '.toUInt8 (by decide)]), ?_⟩
  rw [← cStr_flat, flat_append]
  rfl

theorem replLoop_spec (terminal : ∀ i, 0 < (around i).1 ∧ (around i).2.length = maxLine)
    (names : ∀ ctx, ∃ t, activeNS ctx = flat t) (run : Run) (sound : run.Sound)
    {fuel : Nat} (enough : run.prompts.length < fuel) (turn : Nat) (ctx : Ctx)
    (remembers : Remembers n entries h) :
    ∃ ctx', replLoop activeNS evaluate around fuel turn ctx h (run.input.flatMap Key.bytes) =
      some (ctx', ⟨n, recent (n - 1) (entries ++ kept (evaluated evaluate ctx run.lines)) ++
        run.left⟩, []) := by
  obtain ⟨prompts, quit, interrupted⟩ := run
  induction prompts generalizing fuel turn ctx h entries with
  | nil =>
    obtain ⟨fuel, rfl⟩ : ∃ n, fuel = n + 1 := ⟨fuel - 1, by omega⟩
    obtain ⟨some_columns, size⟩ := terminal turn
    obtain ⟨prompt, prompt_eq⟩ := promptOf_text (names ctx)
    obtain ⟨past, offered⟩ := remembers.offered size
    have positive : 0 < (around turn).2.length := by rw [size]; decide
    have typed := sound.quit
    rw [← size] at typed
    refine ⟨ctx, ?_⟩
    rw [replLoop, prompt_eq]
    cases interrupted with
    | true =>
      have ended := linenoiseRaw_interrupt prompt [] offered positive
        some_columns typed
      simp only [Run.input, List.flatMap_nil, List.nil_append, if_true, Option.bind_eq_bind]
      rw [ended, remembers.max, remembers.reopened]
      simp [Run.lines, Run.left, evaluated, kept]
    | false =>
      rw [sound.empty rfl] at typed
      have ended := linenoiseRaw_eof prompt [] offered positive
        some_columns typed
      simp only [Run.input, List.flatMap_nil, List.nil_append, Bool.false_eq_true, if_false,
        Option.bind_eq_bind]
      rw [ended, remembers.max, remembers.reopened]
      simp [Run.lines, Run.left, evaluated, kept]
  | cons p prompts ih =>
    obtain ⟨fuel, rfl⟩ : ∃ n, fuel = n + 1 := ⟨fuel - 1, by omega⟩
    obtain ⟨some_columns, size⟩ := terminal turn
    obtain ⟨prompt, prompt_eq⟩ := promptOf_text (names ctx)
    obtain ⟨past, offered⟩ := remembers.offered size
    have positive : 0 < (around turn).2.length := by rw [size]; decide
    have first := sound.prompts p List.mem_cons_self
    have small : (flat p.2).length < maxLine :=
      Nat.lt_of_le_of_lt (typed_fits first) (by decide)
    rw [← size] at first
    have entered := linenoiseRaw_enter prompt (Run.input ⟨prompts, quit, interrupted⟩)
      offered positive some_columns first
    have input_eq : Run.input ⟨p :: prompts, quit, interrupted⟩ =
        p.1 ++ enterKey :: Run.input ⟨prompts, quit, interrupted⟩ := by
      simp [Run.input]
    have shorter : prompts.length < fuel := Nat.lt_of_succ_lt_succ enough
    have later : Run.Sound ⟨prompts, quit, interrupted⟩ :=
      ⟨fun p mem => sound.prompts p (List.mem_cons_of_mem _ mem), sound.quit, sound.empty⟩
    rw [replLoop]
    simp only [input_eq, prompt_eq, Option.bind_eq_bind, entered, Option.bind_some, remembers.max,
      remembers.reopened, Run.lines, List.map_cons, evaluated]
    generalize evaluate ctx (flat p.2) = result
    obtain ⟨ctx', ok⟩ := result
    cases ok with
    | true =>
      obtain ⟨ctx'', ran⟩ := ih (turn + 1) ctx' (remembers.added small) later shorter
      refine ⟨ctx'', ?_⟩
      simp only [if_true]
      rw [ran, List.append_assoc entries, ← kept_append, List.singleton_append]
      rfl
    | false => exact ih (turn + 1) ctx' remembers.prompted later shorter

theorem replMain_spec (terminal : ∀ i, 0 < (around i).1 ∧ (around i).2.length = maxLine)
    (names : ∀ ctx, ∃ t, activeNS ctx = flat t) (run : Run) (sound : run.Sound)
    {fuel : Nat} (enough : run.prompts.length < fuel) (ctx : Ctx) {file : Bytes}
    (remembers : Remembers 4 entries (loadHistory ⟨4, []⟩ file)) :
    replMain activeNS evaluate around fuel ctx file (run.input.flatMap Key.bytes) =
      some (saveHistory ⟨4, recent 3 (entries ++ kept (evaluated evaluate ctx run.lines)) ++
        run.left⟩) := by
  obtain ⟨ctx', ran⟩ := replLoop_spec evaluate terminal names run sound enough 0 ctx remembers
  have limited : (setHistoryMaxLen .initial 4).2 = ⟨4, []⟩ := rfl
  rw [replMain, limited]
  simp only [ran, Option.bind_eq_bind, Option.bind_some]
  rfl

/-- An entry that is saved in a line of its own. -/
structure Word (entry : Bytes) : Prop where
  filled : entry ≠ []
  showable : Showable entry
  string : nul ∉ entry
  one : newline ∉ entry

/-- A file with a word in every line. -/
theorem remembers_loaded {file : Bytes} (words : ∀ line ∈ getlines [] file, Word (cStr line)) :
    Remembers 4 ((getlines [] file).map cStr) (loadHistory ⟨4, []⟩ file) := by
  have blank : History.Sound ⟨4, []⟩ := ⟨by decide, by decide, List.IsChain.nil, by simp⟩
  have loaded := addHistory_run blank (getlines [] file)
  rw [List.nil_append] at loaded
  have word : ∀ entry ∈ (getlines [] file).map cStr, Word entry := by
    intro entry mem
    obtain ⟨line, there, rfl⟩ := List.mem_map.mp mem
    exact words line there
  rw [loadHistory, loaded]
  exact ⟨by decide, rfl, fun entry mem => (word entry (mem_recent mem)).showable,
    reopened_recent (by decide) fun entry mem => (word entry mem).filled,
    fun entry mem => (word entry mem).filled⟩

/-- A file that a run has written, with a blank line at its end where the run was interrupted. -/
theorem remembers_written (words : ∀ entry ∈ entries, Word entry) (run : Run) :
    Remembers 4 entries (loadHistory ⟨4, []⟩ (saveHistory ⟨4, recent 3 entries ++ run.left⟩)) := by
  have old : ∀ entry ∈ recent 3 entries, Word entry := fun entry mem => words entry (mem_recent mem)
  have size := recent_length_le 3 entries
  have blank : ∀ entry ∈ run.left, entry = [] := by
    unfold Run.left
    split <;> simp
  have parts : ∀ entry ∈ recent 3 entries ++ run.left, Word entry ∨ entry = [] := by
    intro entry mem
    exact (List.mem_append.mp mem).imp (old entry) (blank entry)
  have fits : (recent 3 entries ++ run.left).length ≤ 4 := by
    unfold Run.left
    split <;> simp <;> omega
  have distinct : (recent 3 entries ++ run.left).IsChain (· ≠ ·) := by
    refine (recent_distinct 3 entries).append ?_ ?_
    · unfold Run.left
      split <;> simp
    · intro entry last b first same
      rw [blank b (List.mem_of_mem_head? first)] at same
      exact (old entry (List.mem_of_getLast? last)).filled same
  have sound : History.Sound ⟨4, recent 3 entries ++ run.left⟩ := by
    refine ⟨Nat.succ_pos 3, fits, distinct, fun entry mem => ?_⟩
    rcases parts entry mem with word | rfl
    · exact word.string
    · simp
  have loaded := loadHistory_saveHistory (n := 4) sound (by decide) fun entry mem => by
    rcases parts entry mem with word | rfl
    · exact word.one
    · simp
  rw [loaded, List.rtake, Nat.sub_eq_zero_of_le fits, List.drop_zero]
  refine ⟨by decide, rfl, fun entry mem => ?_, ?_, fun entry mem => (words entry mem).filled⟩
  · rcases parts entry mem with word | rfl
    · exact word.showable
    · exact ⟨[], rfl, by decide, by simp⟩
  · unfold Run.left
    split
    next => exact reopened_concat _ _ _
    next =>
      rw [List.append_nil]
      exact reopened_shorter (n := 4) (by decide) fun entry mem => (words entry mem).filled

theorem evaluated_subset (ctx : Ctx) (lines : List Bytes) :
    ∀ line ∈ evaluated evaluate ctx lines, line ∈ lines := by
  induction lines generalizing ctx with
  | nil => simp [evaluated]
  | cons line lines ih =>
    intro line' mem
    simp only [evaluated] at mem
    split at mem
    · rcases List.mem_cons.mp mem with rfl | later
      · exact List.mem_cons_self
      · exact List.mem_cons_of_mem _ (ih _ line' later)
    · exact List.mem_cons_of_mem _ (ih _ line' mem)

theorem kept_words (run : Run) (sound : run.Sound) (ctx : Ctx)
    (one : ∀ line ∈ run.lines, newline ∉ line) :
    ∀ entry ∈ kept (evaluated evaluate ctx run.lines), Word entry := by
  intro entry mem
  obtain ⟨there, filled⟩ := List.mem_filter.mp mem
  obtain ⟨line, said, rfl⟩ := List.mem_map.mp there
  have entered := evaluated_subset evaluate ctx run.lines line said
  obtain ⟨p, prompt, rfl⟩ := List.mem_map.mp entered
  refine ⟨by simpa using filled, ?_, nul_notMem_cStr _, ?_⟩
  · exact showable_cStr (Nat.lt_of_le_of_lt (typed_fits (sound.prompts p prompt)) (by decide))
  · intro broken
    exact one _ entered ((List.takeWhile_subset _) broken)

/-- Runs with a terminal and a context each; the file goes from one to the next. -/
def replRuns (activeNS : Ctx → Bytes) (evaluate : Ctx → Bytes → Ctx × Bool) (fuel : Nat) :
    List (Surroundings × Ctx × Run) → Bytes → Option Bytes
  | [], file => some file
  | (around, ctx, run) :: runs, file => do
    let file ← replMain activeNS evaluate around fuel ctx file (run.input.flatMap Key.bytes)
    replRuns activeNS evaluate fuel runs file

def saidIn (evaluate : Ctx → Bytes → Ctx × Bool) (r : Surroundings × Ctx × Run) : List Bytes :=
  kept (evaluated evaluate r.2.1 r.2.2.lines)

structure Fits (fuel : Nat) (r : Surroundings × Ctx × Run) : Prop where
  terminal : ∀ i, 0 < (r.1 i).1 ∧ (r.1 i).2.length = maxLine
  sound : r.2.2.Sound
  enough : r.2.2.prompts.length < fuel
  one : ∀ line ∈ r.2.2.lines, newline ∉ line

theorem replRuns_spec (names : ∀ ctx, ∃ t, activeNS ctx = flat t) {fuel : Nat}
    (runs : List (Surroundings × Ctx × Run)) (last : Surroundings × Ctx × Run)
    (fits : ∀ r ∈ runs ++ [last], Fits fuel r) (words : ∀ entry ∈ entries, Word entry)
    {file : Bytes} (remembers : Remembers 4 entries (loadHistory ⟨4, []⟩ file)) :
    replRuns activeNS evaluate fuel (runs ++ [last]) file =
      some (saveHistory ⟨4, recent 3 (entries ++ (runs ++ [last]).flatMap (saidIn evaluate)) ++
        last.2.2.left⟩) := by
  induction runs generalizing entries file with
  | nil =>
    obtain ⟨around, ctx, run⟩ := last
    have now := fits _ List.mem_cons_self
    have ran := replMain_spec evaluate now.terminal names run now.sound now.enough ctx remembers
    rw [List.nil_append, replRuns, ran]
    simp [replRuns, saidIn]
  | cons r runs ih =>
    obtain ⟨around, ctx, run⟩ := r
    have now := fits _ List.mem_cons_self
    have ran := replMain_spec evaluate now.terminal names run now.sound now.enough ctx remembers
    have words' : ∀ entry ∈ entries ++ kept (evaluated evaluate ctx run.lines), Word entry := by
      intro entry mem
      rcases List.mem_append.mp mem with old | new
      · exact words entry old
      · exact kept_words evaluate run now.sound ctx now.one entry new
    rw [List.cons_append, replRuns, ran, List.flatMap_cons, ← List.append_assoc]
    exact ih (fun r mem => fits r (List.mem_cons_of_mem _ mem)) words'
      (remembers_written words' run)

/-- However many runs there were, the file holds of what it held before and of all the lines they
said the last three, of which equal neighbours count once, though the bound is four. -/
theorem replRuns_file (names : ∀ ctx, ∃ t, activeNS ctx = flat t) {fuel : Nat}
    (runs : List (Surroundings × Ctx × Run)) (last : Surroundings × Ctx × Run)
    (fits : ∀ r ∈ runs ++ [last], Fits fuel r) {file : Bytes}
    (words : ∀ line ∈ getlines [] file, cStr line ≠ [] ∧ Showable (cStr line)) :
    replRuns activeNS evaluate fuel (runs ++ [last]) file =
      some (saveHistory ⟨4, recent 3 ((getlines [] file).map cStr ++
        (runs ++ [last]).flatMap (saidIn evaluate)) ++ last.2.2.left⟩) := by
  have word : ∀ line ∈ getlines [] file, Word (cStr line) := by
    intro line mem
    have one := getlines_one (by simp) file line mem
    exact ⟨(words line mem).1, (words line mem).2, nul_notMem_cStr line,
      fun broken => one (List.takeWhile_subset _ broken)⟩
  refine replRuns_spec evaluate names runs last fits ?_ (remembers_loaded word)
  intro entry mem
  obtain ⟨line, there, rfl⟩ := List.mem_map.mp mem
  exact word line there

end Loop

def letter : CodedChar := .ascii 97 (by decide)

def letterKey : Key := .char letter (by decide)

/-- `a` is entered, and the next prompt interrupted. -/
def shortRun : Run := ⟨[([letterKey], [letter])], ([], []), true⟩

/-- `a` and `aa` are entered, and the input ends. -/
def secondRun : Run :=
  ⟨[([letterKey], [letter]), ([letterKey, letterKey], [letter, letter])], ([], []), false⟩

theorem typed_letter : Typed (maxLine - 1) [letterKey] [letter] := by
  refine ⟨?_, ⟨⟨fun _ _ => by decide, fun swap => absurd swap (by decide)⟩, trivial⟩, _, rfl, rfl⟩
  intro key mem
  cases List.mem_singleton.mp mem
  exact ⟨by decide, by decide⟩

theorem typed_nothing : Typed (maxLine - 1) [] [] := ⟨by simp, trivial, blankLine, rfl, rfl⟩

theorem shortRun_sound : shortRun.Sound where
  prompts p mem := by
    cases List.mem_singleton.mp mem
    exact typed_letter
  quit := typed_nothing
  empty interrupted := rfl

theorem secondRun_sound : secondRun.Sound where
  prompts p mem := by
    rw [secondRun, List.mem_cons, List.mem_singleton] at mem
    rcases mem with rfl | rfl
    · exact typed_letter
    · refine ⟨?_, ⟨⟨fun _ _ => by decide, fun swap => absurd swap (by decide)⟩,
        ⟨fun _ _ => by decide, fun swap => absurd swap (by decide)⟩, trivial⟩, _, rfl, rfl⟩
      intro key mem
      have same : key = letterKey := by simpa using mem
      subst same
      exact ⟨by decide, by decide⟩
  quit := typed_nothing
  empty interrupted := rfl

theorem replRuns_file_twice :
    replRuns (fun _ => [117]) (fun _ _ => ((), true)) 3
        ([(fun _ => (80, List.replicate maxLine 0), (), shortRun)] ++
          [(fun _ => (80, List.replicate maxLine 0), (), secondRun)]) [120, 10, 121, 10] =
      some [121, 10, 97, 10, 97, 97, 10] := by
  refine (replRuns_file (fun _ _ => ((), true)) (fun _ => ⟨[.ascii 117 (by decide)], rfl⟩)
    [(fun _ => (80, List.replicate maxLine 0), (), shortRun)]
    (fun _ => (80, List.replicate maxLine 0), (), secondRun) ?_ ?_).trans (by decide)
  · have terminal : ∀ i : Nat, 0 < 80 ∧ (List.replicate maxLine (0 : UInt8)).length = maxLine :=
      fun _ => ⟨Nat.succ_pos 79, List.length_replicate⟩
    intro r mem
    rw [List.singleton_append, List.mem_cons, List.mem_singleton] at mem
    rcases mem with rfl | rfl
    · exact ⟨terminal, shortRun_sound, by decide, by decide⟩
    · exact ⟨terminal, secondRun_sound, by decide, by decide⟩
  · intro line mem
    have lines : getlines [] [120, 10, 121, 10] = [[120], [121]] := by decide
    rw [lines, List.mem_cons, List.mem_singleton] at mem
    rcases mem with rfl | rfl
    · exact ⟨by decide, [.ascii 120 (by decide)], by decide, by decide, by decide⟩
    · exact ⟨by decide, [.ascii 121 (by decide)], by decide, by decide, by decide⟩
end ReplSession
