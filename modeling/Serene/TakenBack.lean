import Serene.ReplSession

/-!
# Keys taken back

A session knows its line, its history and nothing else: the display mode makes no
difference to it, and keys that lead from one point of it to another can be
replaced by others that do. A text typed is taken back by the erasures of its
characters, and steps to one side by as many to the other, where the cursor does
not stand inside a cluster.
-/

namespace TakenBack

open ByteClasses Utf8Texts Zippers TerminalText LineColumns InputHistory LineEditor LineEdits
open EditSessions EditSafety ReplSession

/-- A character that is put in the line. -/
abbrev Inserted := { c : CodedChar // c.code ∉ commands }

def Inserted.key (c : Inserted) : Key := .char c.val fun esc => c.property (esc ▸ by decide)

def chars (t : List Inserted) : Text := t.map Subtype.val

def backspaceKey : Key := .char (.ascii 127 (by decide)) (by decide)

theorem escape_low : (27 : UInt8) < 0x80 := by decide
theorem escape_code : (CodedChar.ascii 27 escape_low).code = 27 := by decide

def arrow (b : UInt8) (letter : isdigit b = false) : Key :=
  .escape (.ascii 27 escape_low) escape_code '['.toUInt8 b (by simp [letter])

def rightKey : Key := arrow 'C'.toUInt8 (by decide)
def leftKey : Key := arrow 'D'.toUInt8 (by decide)

variable {mlmode : Bool} {cap : Nat} {e e' e'' : Editing} {keys more : List Key} {key : Key}

/-- The keys are admitted and lead from one point of a session to another. -/
structure Leads (mlmode : Bool) (cap : Nat) (e : Editing) (keys : List Key) (e' : Editing) :
    Prop where
  admits : e.AdmitsAll mlmode cap keys
  reached : pressed mlmode cap e keys = some e'

theorem Leads.nil (mlmode : Bool) (cap : Nat) (e : Editing) : Leads mlmode cap e [] e :=
  ⟨trivial, rfl⟩

theorem Leads.append (first : Leads mlmode cap e keys e') (second : Leads mlmode cap e' more e'') :
    Leads mlmode cap e (keys ++ more) e'' := by
  refine ⟨admitsAll_append first.admits first.reached second.admits, ?_⟩
  rw [pressed_append, first.reached]
  exact second.reached

theorem Leads.one (admits : e.Admits cap key) (step : e.press mlmode cap key = .goesOn e') :
    Leads mlmode cap e [key] e' := by
  refine ⟨admitsAll_one admits, ?_⟩
  rw [pressed, step]
  rfl

/-- A key that does the same edit of the line wherever it is pressed. -/
theorem Leads.replicate {f : Zipper CodedChar → Zipper CodedChar}
    (admits : ∀ e : Editing, e.Admits cap key)
    (step : ∀ e : Editing, e.press mlmode cap key = .goesOn (e.onLine f)) (n : Nat)
    (e : Editing) : Leads mlmode cap e (List.replicate n key) (e.onLine f^[n]) := by
  induction n generalizing e with
  | zero => exact .nil mlmode cap e
  | succ n ih => exact (Leads.one (admits e) (step e)).append (ih (e.onLine f))

theorem leads_erased (n : Nat) (e : Editing) :
    Leads mlmode cap e (List.replicate n backspaceKey) (e.onLine (Zipper.eraseBack joins)^[n]) :=
  .replicate (fun _ => admits_command _ _ (by decide) (by decide)) (fun _ => rfl) n e

theorem leads_right (n : Nat) (e : Editing) :
    Leads mlmode cap e (List.replicate n rightKey) (e.onLine (Zipper.moveOn joins)^[n]) := by
  have admits (e : Editing) : e.Admits cap rightKey := trivial
  exact .replicate admits (fun _ => rfl) n e

theorem leads_left (n : Nat) (e : Editing) :
    Leads mlmode cap e (List.replicate n leftKey) (e.onLine (Zipper.moveBack joins)^[n]) := by
  have admits (e : Editing) : e.Admits cap leftKey := trivial
  exact .replicate admits (fun _ => rfl) n e

theorem size_insert (e : Editing) (c : CodedChar) :
    (e.onLine (Zipper.insert c)).size = e.size + c.size := by
  rw [Editing.size, Editing.onLine, Zipper.contents_insert, Editing.size, Zipper.contents,
    flat_append, flat_append, flat_cons, List.length_append, List.length_append,
    List.length_append, CodedChar.length_bytes]
  omega

theorem leads_typed (t : List Inserted) (fits : e.size + (flat (chars t)).length ≤ cap) :
    Leads mlmode cap e (t.map Inserted.key) (e.onLine (Zipper.insertAll (chars t))) := by
  induction t generalizing e with
  | nil => exact .nil mlmode cap e
  | cons c t ih =>
    have size : (flat (chars (c :: t))).length = c.val.size + (flat (chars t)).length := by
      rw [chars, List.map_cons, flat_cons, List.length_append, CodedChar.length_bytes]
      rfl
    have positive : 0 < c.val.size := c.val.size_pos
    have inserted : e.press mlmode cap c.key = .goesOn (e.onLine (Zipper.insert c.val)) := by
      have goes : e.command mlmode cap c.val c.val.code = .goesOn (e.insert cap c.val) :=
        command_insert c.property c.val
      rw [Editing.insert, if_pos (by omega)] at goes
      exact goes
    have admits : e.Admits cap c.key := by
      refine ⟨fun _ _ => by omega, ?_⟩
      intro swap
      exact absurd (swap ▸ by decide) c.property
    have rest := ih (e := e.onLine (Zipper.insert c.val)) (by rw [size_insert]; omega)
    have whole := (Leads.one admits inserted).append rest
    have same : e.onLine (Zipper.insertAll (chars (c :: t))) =
        (e.onLine (Zipper.insert c.val)).onLine (Zipper.insertAll (chars t)) := by
      simp only [Editing.onLine, chars, List.map_cons, Zipper.insertAll_cons]
    rw [same]
    exact whole

/-- Outcomes that differ in the place of the cursor, at most, once the session has ended. -/
inductive Agree : Outcome → Outcome → Prop
  | goesOn (e : Editing) : Agree (.goesOn e) (.goesOn e)
  | returns (accepted : Bool) {e e' : Editing} (line : e.line.contents = e'.line.contents)
      (past : e.past = e'.past) : Agree (.returns accepted e) (.returns accepted e')

theorem Agree.refl (outcome : Outcome) : Agree outcome outcome := by
  cases outcome with
  | goesOn e => exact .goesOn e
  | returns accepted e => exact .returns accepted rfl rfl

theorem press_modes (cap : Nat) (e : Editing) (key : Key) :
    Agree (e.press true cap key) (e.press false cap key) := by
  cases key with
  | char c plain =>
    unfold Editing.press Editing.command
    simp only
    split
    case h_1 => exact .returns true (by simp [Editing.onLine]) rfl
    all_goals exact .refl _
  | escape c esc a b short => exact .refl _
  | extended c esc b d digit => exact .refl _

theorem admitsAll_modes (keys : List Key) (admits : e.AdmitsAll true cap keys) :
    e.AdmitsAll false cap keys := by
  induction keys generalizing e with
  | nil => trivial
  | cons key keys ih =>
    obtain ⟨here, later⟩ := admits
    refine ⟨here, ?_⟩
    have agree := press_modes cap e key
    revert later agree
    cases e.press true cap key <;> cases e.press false cap key <;> intro later agree
    · cases agree
      exact ih later
    · cases agree
    · cases agree
    · trivial

theorem session_modes (cap : Nat) (e : Editing) (keys : List Key) :
    ∃ accepted e₁ e₂ left, e.session true cap keys = (accepted, e₁, left) ∧
      e.session false cap keys = (accepted, e₂, left) ∧
      e₁.line.contents = e₂.line.contents ∧ e₁.past = e₂.past := by
  induction keys generalizing e with
  | nil => exact ⟨true, e, e, [], rfl, rfl, rfl, rfl⟩
  | cons key keys ih =>
    have agree := press_modes cap e key
    rw [Editing.session, Editing.session]
    revert agree
    cases e.press true cap key <;> cases e.press false cap key <;> intro agree
    · cases agree
      exact ih _
    · cases agree
    · cases agree
    · cases agree with
      | returns _ line past => exact ⟨_, _, _, keys, rfl, rfl, line, past⟩

variable {h : History} {past : List Text} {mem : Bytes} {cols : Nat} {prompt : Text}

/-- Keys that lead to the same point can be replaced by each other. -/
theorem linenoiseRaw_replaced (offered : Offered h past mem) (memory : 0 < mem.length)
    (some_columns : 0 < cols) (room : mlmode = false → columns prompt + 2 < cols)
    {keys' : List Key}
    (first : Leads mlmode (mem.length - 1) (Editing.opened h.history_max_len past) keys e)
    (second : Leads mlmode (mem.length - 1) (Editing.opened h.history_max_len past) keys' e)
    (rest : List Key) (admits : e.AdmitsAll mlmode (mem.length - 1) rest) :
    linenoiseRaw mlmode h cols mem (flat prompt) ((keys ++ rest).flatMap Key.bytes) =
      linenoiseRaw mlmode h cols mem (flat prompt) ((keys' ++ rest).flatMap Key.bytes) := by
  have one := linenoiseRaw_keys offered memory some_columns room
    (admitsAll_append first.admits first.reached admits) (session_append first.reached rest)
  have other := linenoiseRaw_keys offered memory some_columns room
    (admitsAll_append second.admits second.reached admits) (session_append second.reached rest)
  rw [one, other]

/-- The keys of a string of Unicode scalars, none of which is a command. -/
theorem exists_inserted (s : List Char) (plain : ∀ c ∈ s, c.toNat ∉ commands) :
    ∃ t : List Inserted, flat (chars t) = s.flatMap String.utf8EncodeChar ∧
      (t.map Inserted.key).flatMap Key.bytes = s.flatMap String.utf8EncodeChar := by
  induction s with
  | nil => exact ⟨[], rfl, rfl⟩
  | cons c s ih =>
    obtain ⟨t, line, bytes⟩ := ih fun c mem => plain c (List.mem_cons_of_mem _ mem)
    obtain ⟨d, encodes⟩ := encoded c
    have code := code_encoded encodes
    have inserted : d.code ∉ commands := code ▸ plain c List.mem_cons_self
    refine ⟨⟨d, inserted⟩ :: t, ?_, ?_⟩
    · rw [chars, List.map_cons, flat_cons, List.flatMap_cons, encodes, ← line]
      rfl
    · rw [List.map_cons, List.flatMap_cons, List.flatMap_cons, bytes, ← encodes]
      rfl

theorem unicodeReadUTF8Char_encoded (c : Char) (rest : Bytes) :
    unicodeReadUTF8Char (String.utf8EncodeChar c ++ rest) =
      some (some (String.utf8EncodeChar c, c.toNat, rest)) := by
  obtain ⟨d, encodes⟩ := encoded c
  rw [← encodes, unicodeReadUTF8Char_spec, code_encoded encodes]

section Point
variable (offered : Offered h past mem) (memory : 0 < mem.length) (some_columns : 0 < cols)
  (room : mlmode = false → columns prompt + 2 < cols)
  (leads : Leads mlmode (mem.length - 1) (Editing.opened h.history_max_len past) keys e)
include offered memory some_columns room leads

/-- ENTER returns the line as it stands and takes it from the history. -/
theorem linenoiseRaw_entered :
    linenoiseRaw mlmode h cols mem (flat prompt) ((keys ++ [enterKey]).flatMap Key.bytes) =
      some (some (flat e.line.contents),
        { h with history := e.past.dropLast.map flat }, []) := by
  have accepts : e.AdmitsAll mlmode (mem.length - 1) [enterKey] :=
    admitsAll_one (admits_command _ _ (by decide) (by decide))
  have accepted : e.session mlmode (mem.length - 1) [enterKey] =
      (true, e.popped.onLine (if mlmode then Zipper.toEnd else id), []) := rfl
  rw [linenoiseRaw_keys offered memory some_columns room
    (admitsAll_append leads.admits leads.reached accepts)
    ((session_append leads.reached [enterKey]).trans accepted)]
  cases mlmode <;> simp [Editing.onLine, Editing.popped]

/-- A text typed anywhere is part of the line that is returned, and as many erasures as it has
characters that join nothing take it back. -/
theorem typed_text (t : List Inserted)
    (fits : e.size + (flat (chars t)).length ≤ mem.length - 1) :
    linenoiseRaw mlmode h cols mem (flat prompt)
        ((keys ++ t.map Inserted.key ++ [enterKey]).flatMap Key.bytes) =
      some (some (flat (e.line.before.reverse ++ chars t ++ e.line.after)),
        { h with history := e.past.dropLast.map flat }, []) ∧
    ((∀ c ∈ (chars t).head?, joins c = false) →
      ∀ rest, e.AdmitsAll mlmode (mem.length - 1) rest →
        linenoiseRaw mlmode h cols mem (flat prompt)
            ((keys ++ t.map Inserted.key ++
              List.replicate (Zipper.stops joins (chars t)) backspaceKey ++ rest).flatMap
                Key.bytes) =
          linenoiseRaw mlmode h cols mem (flat prompt) ((keys ++ rest).flatMap Key.bytes)) := by
  have typed := leads.append (leads_typed t fits)
  constructor
  · rw [linenoiseRaw_entered offered memory some_columns room typed]
    simp only [Editing.onLine, Zipper.contents_insertAll]
  · intro alone rest admits
    have erased := typed.append (leads_erased (Zipper.stops joins (chars t)) _)
    have back : (e.onLine (Zipper.insertAll (chars t))).onLine
        (Zipper.eraseBack joins)^[Zipper.stops joins (chars t)] = e := by
      rw [Editing.onLine, Editing.onLine, Zipper.eraseBack_insertAll _ alone]
    rw [back] at erased
    exact linenoiseRaw_replaced offered memory some_columns room erased leads rest admits

/-- A string of Unicode scalars is read character by character and returned as it was encoded. -/
theorem typed_string (s : List Char) (ordinary : ∀ c ∈ s, c.toNat ∉ commands)
    (fits : e.size + (s.flatMap String.utf8EncodeChar).length ≤ mem.length - 1) :
    (∀ c ∈ s, ∀ rest, unicodeReadUTF8Char (String.utf8EncodeChar c ++ rest) =
      some (some (String.utf8EncodeChar c, c.toNat, rest))) ∧
    linenoiseRaw mlmode h cols mem (flat prompt)
        (keys.flatMap Key.bytes ++ s.flatMap String.utf8EncodeChar ++ enterKey.bytes) =
      some (some (flat e.line.before.reverse ++ s.flatMap String.utf8EncodeChar ++
        flat e.line.after), { h with history := e.past.dropLast.map flat }, []) := by
  refine ⟨fun c _ rest => unicodeReadUTF8Char_encoded c rest, ?_⟩
  obtain ⟨t, line, bytes⟩ := exists_inserted s ordinary
  rw [← line] at fits
  have typed := leads.append (leads_typed t fits)
  have entered := linenoiseRaw_entered offered memory some_columns room typed
  rw [List.flatMap_append, List.flatMap_append, bytes, List.flatMap_singleton] at entered
  rw [entered]
  simp only [Editing.onLine, Zipper.contents_insertAll, flat_append, line]

/-- Steps to one side are taken back by as many to the other, as long as there is a character to
step over and the one behind the cursor joins nothing. -/
theorem walked_back (alone : ∀ c ∈ e.line.after.head?, joins c = false) (rest : List Key)
    (admits : e.AdmitsAll mlmode (mem.length - 1) rest) (n : Nat) :
    (n ≤ Zipper.stops joins e.line.after →
      linenoiseRaw mlmode h cols mem (flat prompt)
          ((keys ++ List.replicate n rightKey ++ List.replicate n leftKey ++ rest).flatMap
            Key.bytes) =
        linenoiseRaw mlmode h cols mem (flat prompt) ((keys ++ rest).flatMap Key.bytes)) ∧
    (n ≤ Zipper.stops joins e.line.before →
      linenoiseRaw mlmode h cols mem (flat prompt)
          ((keys ++ List.replicate n leftKey ++ List.replicate n rightKey ++ rest).flatMap
            Key.bytes) =
        linenoiseRaw mlmode h cols mem (flat prompt) ((keys ++ rest).flatMap Key.bytes)) := by
  constructor
  · intro steps
    have walked := (leads.append (leads_right n e)).append (leads_left n _)
    have back : (e.onLine (Zipper.moveOn joins)^[n]).onLine (Zipper.moveBack joins)^[n] = e := by
      rw [Editing.onLine, Editing.onLine, Zipper.moveBack_iterate alone steps]
    rw [back] at walked
    exact linenoiseRaw_replaced offered memory some_columns room walked leads rest admits
  · intro steps
    have walked := (leads.append (leads_left n e)).append (leads_right n _)
    have back : (e.onLine (Zipper.moveBack joins)^[n]).onLine (Zipper.moveOn joins)^[n] = e := by
      rw [Editing.onLine, Editing.onLine, Zipper.moveOn_iterate alone steps]
    rw [back] at walked
    exact linenoiseRaw_replaced offered memory some_columns room walked leads rest admits

end Point

/-- The display mode makes no difference to what is returned, to the history and to the keys
left. -/
theorem modes_agree (offered : Offered h past mem) (memory : 0 < mem.length)
    (room : columns prompt + 2 < cols)
    (admits : (Editing.opened h.history_max_len past).AdmitsAll true (mem.length - 1) keys) :
    linenoiseRaw true h cols mem (flat prompt) (keys.flatMap Key.bytes) =
      linenoiseRaw false h cols mem (flat prompt) (keys.flatMap Key.bytes) := by
  obtain ⟨accepted, e₁, e₂, left, multi, single, line, past⟩ :=
    session_modes (mem.length - 1) (Editing.opened h.history_max_len past) keys
  have admits' := admitsAll_modes keys admits
  rw [linenoiseRaw_keys offered memory (by omega) (fun _ => room) admits multi,
    linenoiseRaw_keys offered memory (by omega) (fun _ => room) admits' single, line, past]

/-- A letter with an accent of its own. -/
def accented : List Inserted :=
  [⟨.ascii 107 (by decide), by decide⟩, ⟨⟨0xCC, [0x81], by decide, by decide⟩, by decide⟩]

theorem offered_nothing (n : Nat) : Offered ⟨1, []⟩ [] (List.replicate n 0) :=
  ⟨by decide, rfl, by simp⟩

/-- The letter and its accent are returned, and one erasure takes back both. -/
theorem typed_text_accent :
    linenoiseRaw true ⟨1, []⟩ 80 (List.replicate 8 0) (flat [])
        ((accented.map Inserted.key ++ [enterKey]).flatMap Key.bytes) =
      some (some [107, 0xCC, 0x81], ⟨1, []⟩, []) ∧
    linenoiseRaw true ⟨1, []⟩ 80 (List.replicate 8 0) (flat [])
        ((accented.map Inserted.key ++ List.replicate 1 backspaceKey ++ [enterKey]).flatMap
          Key.bytes) =
      linenoiseRaw true ⟨1, []⟩ 80 (List.replicate 8 0) (flat [])
        ([enterKey].flatMap Key.bytes) := by
  have one : Zipper.stops joins (chars accented) = 1 := by decide +kernel
  have memory : 0 < (List.replicate 8 (0 : UInt8)).length := by decide
  have room : true = false → columns ([] : Text) + 2 < 80 := nofun
  obtain ⟨returned, erased⟩ := typed_text (offered_nothing 8) memory (Nat.succ_pos 79) room
    (Leads.nil true 7 (Editing.opened 1 [])) accented (by decide)
  rw [one] at erased
  refine ⟨returned, erased ?_ [enterKey] ?_⟩
  · have first : joins (.ascii 107 (by decide)) = false := by decide +kernel
    simpa [accented, chars] using first
  · exact admitsAll_one (admits_command _ _ (by decide) (by decide))

/-- One step to the left over both and one to the right. -/
theorem walked_back_accent :
    linenoiseRaw true ⟨1, []⟩ 80 (List.replicate 8 0) (flat [])
        ((accented.map Inserted.key ++ List.replicate 1 leftKey ++ List.replicate 1 rightKey ++
          [enterKey]).flatMap Key.bytes) =
      linenoiseRaw true ⟨1, []⟩ 80 (List.replicate 8 0) (flat [])
        ((accented.map Inserted.key ++ [enterKey]).flatMap Key.bytes) := by
  have typed : Leads true 7 (Editing.opened 1 []) (accented.map Inserted.key)
      ((Editing.opened 1 []).onLine (Zipper.insertAll (chars accented))) :=
    leads_typed accented (by decide)
  have memory : 0 < (List.replicate 8 (0 : UInt8)).length := by decide
  have room : true = false → columns ([] : Text) + 2 < 80 := nofun
  have walked := walked_back (offered_nothing 8) memory (Nat.succ_pos 79) room typed
    (fun c none => by cases none) [enterKey]
    (admitsAll_one (admits_command _ _ (by decide) (by decide))) 1
  exact walked.2 (by decide +kernel)

/-- A Greek letter, and a sign of four bytes. -/
theorem typed_string_long :
    linenoiseRaw true ⟨1, []⟩ 80 (List.replicate 8 0) (flat [])
        ([Char.ofNat 955, Char.ofNat 119070].flatMap String.utf8EncodeChar ++ enterKey.bytes) =
      some (some [0xCE, 0xBB, 0xF0, 0x9D, 0x84, 0x9E], ⟨1, []⟩, []) := by
  have memory : 0 < (List.replicate 8 (0 : UInt8)).length := by decide
  have room : true = false → columns ([] : Text) + 2 < 80 := nofun
  have ordinary : ∀ c ∈ [Char.ofNat 955, Char.ofNat 119070], c.toNat ∉ commands := by
    intro c mem
    rcases List.mem_pair.mp mem with rfl | rfl <;> decide
  exact (typed_string (offered_nothing 8) memory (Nat.succ_pos 79) room
    (Leads.nil true 7 (Editing.opened 1 [])) _ ordinary (by decide +kernel)).2

theorem modes_agree_accent :
    linenoiseRaw true ⟨1, []⟩ 80 (List.replicate 8 0) (flat [])
        ((accented.map Inserted.key).flatMap Key.bytes) =
      linenoiseRaw false ⟨1, []⟩ 80 (List.replicate 8 0) (flat [])
        ((accented.map Inserted.key).flatMap Key.bytes) := by
  have memory : 0 < (List.replicate 8 (0 : UInt8)).length := by decide
  have typed : Leads true 7 (Editing.opened 1 []) (accented.map Inserted.key)
      ((Editing.opened 1 []).onLine (Zipper.insertAll (chars accented))) :=
    leads_typed accented (by decide)
  have room : columns ([] : Text) + 2 < 80 := by
    rw [columns_nil]
    decide
  exact modes_agree (offered_nothing 8) memory room typed.admits

end TakenBack
