import Serene.EditSafety

/-!
# What a key draws

Every editing function leaves the state as it is or ends with a refresh, but for
the characters typed at the end of a line with room in its row, which are written
as they are. So what one refresh shows, the screen shows at each key.
-/

namespace DrawnEdits

open ByteClasses Utf8Texts Zippers TerminalText MemoryBlocks LineDrawing LineColumns
open BoundedLogs InputHistory LineEditor LineEdits EditSessions EditSafety

/-- The state is left as it is, or drawn with another line or, where the key clears the screen, on
an empty one. In the single line mode bytes put at the end are written as they are where the line
has room. -/
inductive Redraws (mlmode : Bool) (l l' : LinenoiseState) : (clears : Bool) → Prop
  | stays (same : l' = l) : Redraws mlmode l l' false
  | written (cbuf mid buf : Bytes) (single : mlmode = false) (atEnd : l.len = l.pos)
      (put : store l.buf l.pos cbuf = some mid)
      (sealed : store mid (l.len + cbuf.length) [nul] = some buf)
      (narrow : ∃ pcolwid width, unicodeColumnPos l.prompt = some pcolwid ∧
        (load buf 0 (l.len + cbuf.length)).bind unicodeColumnPos = some width ∧
        pcolwid + width < l.cols)
      (same : l' = { l with
        buf, pos := l.pos + cbuf.length, len := l.len + cbuf.length, out := l.out ++ cbuf }) :
      Redraws mlmode l l' false
  | drawn (buf : Bytes) (pos len history_index : Nat)
      (ran : refreshLine mlmode { l with buf, pos, len, history_index } = some l') :
      Redraws mlmode l l' false
  | cleared
      (ran : refreshLine mlmode { l with out := l.out ++ text "\x1b[H\x1b[2J" } = some l') :
      Redraws mlmode l l' true

variable {mlmode : Bool} {l l' : LinenoiseState}

theorem refreshLine_redraws {buf : Bytes} {pos len history_index : Nat}
    (ran : refreshLine mlmode { l with buf, pos, len, history_index } = some l') :
    Redraws mlmode l l' false :=
  .drawn buf pos len history_index ran

theorem stays_redraws (ran : some l = some l') : Redraws mlmode l l' false :=
  .stays (Option.some.inj ran).symm

theorem insert_redraws {cbuf : Bytes} (ran : linenoiseEditInsert mlmode l cbuf = some l') :
    Redraws mlmode l l' false := by
  unfold linenoiseEditInsert at ran
  simp only [Option.bind_eq_bind] at ran
  split at ran
  · split at ran
    next atEnd =>
      obtain ⟨mid, put, ran⟩ := Option.bind_eq_some_iff.mp ran
      obtain ⟨buf, sealed, ran⟩ := Option.bind_eq_some_iff.mp ran
      split at ran
      next => exact refreshLine_redraws ran
      next single =>
        obtain ⟨pcolwid, prompt, ran⟩ := Option.bind_eq_some_iff.mp ran
        obtain ⟨width, line, ran⟩ := Option.bind_eq_some_iff.mp ran
        split at ran
        next narrow =>
          exact .written cbuf mid buf (Bool.not_eq_true _ ▸ single) atEnd put sealed
            ⟨pcolwid, width, prompt, line, narrow⟩ (Option.some.inj ran).symm
        next => exact refreshLine_redraws ran
    · obtain ⟨buf, -, ran⟩ := Option.bind_eq_some_iff.mp ran
      obtain ⟨buf', -, ran⟩ := Option.bind_eq_some_iff.mp ran
      obtain ⟨buf'', -, ran⟩ := Option.bind_eq_some_iff.mp ran
      exact refreshLine_redraws ran
  · exact stays_redraws ran

theorem moveLeft_redraws (ran : linenoiseEditMoveLeft mlmode l = some l') :
    Redraws mlmode l l' false := by
  unfold linenoiseEditMoveLeft at ran
  split at ran
  · obtain ⟨glen, -, ran⟩ := Option.bind_eq_some_iff.mp ran
    exact refreshLine_redraws ran
  · exact stays_redraws ran

theorem moveRight_redraws (ran : linenoiseEditMoveRight mlmode l = some l') :
    Redraws mlmode l l' false := by
  unfold linenoiseEditMoveRight at ran
  split at ran
  · obtain ⟨glen, -, ran⟩ := Option.bind_eq_some_iff.mp ran
    exact refreshLine_redraws ran
  · exact stays_redraws ran

theorem moveHome_redraws (ran : linenoiseEditMoveHome mlmode l = some l') :
    Redraws mlmode l l' false := by
  unfold linenoiseEditMoveHome at ran
  split at ran
  · exact refreshLine_redraws ran
  · exact stays_redraws ran

theorem moveEnd_redraws (ran : linenoiseEditMoveEnd mlmode l = some l') :
    Redraws mlmode l l' false := by
  unfold linenoiseEditMoveEnd at ran
  split at ran
  · exact refreshLine_redraws ran
  · exact stays_redraws ran

theorem delete_redraws (ran : linenoiseEditDelete mlmode l = some l') :
    Redraws mlmode l l' false := by
  unfold linenoiseEditDelete at ran
  simp only [Option.bind_eq_bind] at ran
  split at ran
  · obtain ⟨glen, -, ran⟩ := Option.bind_eq_some_iff.mp ran
    split at ran
    · cases ran
    · obtain ⟨buf, -, ran⟩ := Option.bind_eq_some_iff.mp ran
      obtain ⟨buf', -, ran⟩ := Option.bind_eq_some_iff.mp ran
      exact refreshLine_redraws ran
  · exact stays_redraws ran

theorem backspace_redraws (ran : linenoiseEditBackspace mlmode l = some l') :
    Redraws mlmode l l' false := by
  unfold linenoiseEditBackspace at ran
  split at ran
  · obtain ⟨glen, -, ran⟩ := Option.bind_eq_some_iff.mp ran
    obtain ⟨buf, -, ran⟩ := Option.bind_eq_some_iff.mp ran
    obtain ⟨buf', -, ran⟩ := Option.bind_eq_some_iff.mp ran
    exact refreshLine_redraws ran
  · exact stays_redraws ran

theorem deletePrevWord_redraws (ran : linenoiseEditDeletePrevWord mlmode l = some l') :
    Redraws mlmode l l' false := by
  obtain ⟨pos, -, ran⟩ := Option.bind_eq_some_iff.mp ran
  obtain ⟨pos', -, ran⟩ := Option.bind_eq_some_iff.mp ran
  obtain ⟨buf, -, ran⟩ := Option.bind_eq_some_iff.mp ran
  exact refreshLine_redraws ran

theorem transposeChars_redraws (ran : transposeChars mlmode l = some l') :
    Redraws mlmode l l' false := by
  unfold transposeChars at ran
  split at ran
  · obtain ⟨aux, -, ran⟩ := Option.bind_eq_some_iff.mp ran
    obtain ⟨here, -, ran⟩ := Option.bind_eq_some_iff.mp ran
    obtain ⟨buf, -, ran⟩ := Option.bind_eq_some_iff.mp ran
    obtain ⟨buf', -, ran⟩ := Option.bind_eq_some_iff.mp ran
    exact refreshLine_redraws ran
  · exact stays_redraws ran

theorem deleteLine_redraws (ran : deleteLine mlmode l = some l') : Redraws mlmode l l' false := by
  obtain ⟨buf, -, ran⟩ := Option.bind_eq_some_iff.mp ran
  exact refreshLine_redraws ran

theorem deleteToEnd_redraws (ran : deleteToEnd mlmode l = some l') : Redraws mlmode l l' false := by
  obtain ⟨buf, -, ran⟩ := Option.bind_eq_some_iff.mp ran
  exact refreshLine_redraws ran

theorem clearScreen_redraws (ran : clearScreen mlmode l = some l') : Redraws mlmode l l' true :=
  .cleared ran

variable {m m' : Editor} {input rest : Bytes}

theorem edit_redraws {f : Bool → LinenoiseState → Option LinenoiseState} {clears : Bool}
    (all : ∀ {l l'}, f mlmode l = some l' → Redraws mlmode l l' clears)
    (ran : m.edit mlmode f = some m') : Redraws mlmode m.state m'.state clears := by
  obtain ⟨l, edited, rfl⟩ := Option.map_eq_some_iff.mp ran
  exact all edited

theorem showEntry_redraws {index : Nat} (ran : showEntry mlmode m index = some m') :
    Redraws mlmode m.state m'.state false := by
  obtain ⟨buf, -, ran⟩ := Option.bind_eq_some_iff.mp ran
  obtain ⟨entry, -, ran⟩ := Option.bind_eq_some_iff.mp ran
  obtain ⟨buf', -, ran⟩ := Option.bind_eq_some_iff.mp ran
  obtain ⟨l, drawn, ran⟩ := Option.bind_eq_some_iff.mp ran
  cases ran
  exact refreshLine_redraws drawn

theorem historyNext_redraws {dir : Direction}
    (ran : linenoiseEditHistoryNext mlmode m dir = some m') :
    Redraws mlmode m.state m'.state false := by
  unfold linenoiseEditHistoryNext at ran
  simp only [Option.bind_eq_bind] at ran
  split at ran
  · obtain ⟨line, -, ran⟩ := Option.bind_eq_some_iff.mp ran
    split at ran
    · cases ran
    · cases dir with
      | next =>
        simp only at ran
        split at ran
        · cases ran
          exact .stays rfl
        · have drawn := showEntry_redraws ran
          exact drawn
      | prev =>
        simp only at ran
        split at ran
        · cases ran
          exact .stays rfl
        · have drawn := showEntry_redraws ran
          exact drawn
  · cases ran
    exact .stays rfl

theorem escapeSequence_redraws (ran : escapeSequence mlmode m input = some (m', rest)) :
    Redraws mlmode m.state m'.state false := by
  have edited {f : Bool → LinenoiseState → Option LinenoiseState} {left : Bytes}
      (all : ∀ {l l'}, f mlmode l = some l' → Redraws mlmode l l' false)
      (ran : ((m.edit mlmode f).map fun m => (m, left)) = some (m', rest)) :
      Redraws mlmode m.state m'.state false := by
    obtain ⟨n, done, same⟩ := Option.map_eq_some_iff.mp ran
    cases same
    exact edit_redraws all done
  have browsed {dir : Direction} {left : Bytes}
      (ran : ((linenoiseEditHistoryNext mlmode m dir).map fun m => (m, left)) = some (m', rest)) :
      Redraws mlmode m.state m'.state false := by
    obtain ⟨n, done, same⟩ := Option.map_eq_some_iff.mp ran
    cases same
    exact historyNext_redraws done
  have kept {left : Bytes} (ran : some (m, left) = some (m', rest)) :
      Redraws mlmode m.state m'.state false := by
    cases ran
    exact .stays rfl
  unfold escapeSequence at ran
  split at ran
  case h_2 => cases ran
  case h_1 a b more =>
    simp only at ran
    split_ifs at ran
    · split at ran
      · cases ran
      · split_ifs at ran
        · exact edited delete_redraws ran
        · exact kept ran
    · exact browsed ran
    · exact browsed ran
    · exact edited moveRight_redraws ran
    · exact edited moveLeft_redraws ran
    · exact edited moveHome_redraws ran
    · exact edited moveEnd_redraws ran
    · exact kept ran
    · exact edited moveHome_redraws ran
    · exact edited moveEnd_redraws ran
    · exact kept ran
    · exact kept ran

theorem handleKey_redraws {cbuf : Bytes} {c : Nat}
    (ran : handleKey mlmode m cbuf c input = some (.goesOn m' rest)) :
    Redraws mlmode m.state m'.state (c == 12) := by
  have edited {f : Bool → LinenoiseState → Option LinenoiseState} {clears : Bool}
      (all : ∀ {l l'}, f mlmode l = some l' → Redraws mlmode l l' clears)
      (ran : ((m.edit mlmode f).map fun m => Turn.goesOn m input) = some (.goesOn m' rest)) :
      Redraws mlmode m.state m'.state clears := by
    obtain ⟨n, done, same⟩ := Option.map_eq_some_iff.mp ran
    cases same
    exact edit_redraws all done
  have browsed {dir : Direction}
      (ran : ((linenoiseEditHistoryNext mlmode m dir).map fun m => Turn.goesOn m input) =
        some (.goesOn m' rest)) : Redraws mlmode m.state m'.state false := by
    obtain ⟨n, done, same⟩ := Option.map_eq_some_iff.mp ran
    cases same
    exact historyNext_redraws done
  unfold handleKey at ran
  split at ran
  · cases mlmode with
    | true =>
      obtain ⟨n, -, ran⟩ := Option.bind_eq_some_iff.mp ran
      cases ran
    | false => cases ran
  · cases ran
  · exact edited backspace_redraws ran
  · exact edited backspace_redraws ran
  · split_ifs at ran
    · exact edited delete_redraws ran
    · cases ran
  · exact edited transposeChars_redraws ran
  · exact edited moveLeft_redraws ran
  · exact edited moveRight_redraws ran
  · exact browsed ran
  · exact browsed ran
  · obtain ⟨⟨n, left⟩, done, same⟩ := Option.map_eq_some_iff.mp ran
    cases same
    exact escapeSequence_redraws done
  · exact edited deleteLine_redraws ran
  · exact edited deleteToEnd_redraws ran
  · exact edited moveHome_redraws ran
  · exact edited moveEnd_redraws ran
  · exact edited clearScreen_redraws ran
  · exact edited deletePrevWord_redraws ran
  · rw [beq_eq_false_iff_ne.mpr (by assumption)]
    exact edited insert_redraws ran

/-- `CTRL_L` is the only key that clears the screen. -/
def Key.clears : Key → Bool
  | .char c _ => c.code == 12
  | _ => false

theorem turn_redraws {key : Key} {left : Bytes}
    (ran : turn mlmode m (key.bytes ++ rest) = some (.goesOn m' left)) :
    Redraws mlmode m.state m'.state (Key.clears key) := by
  unfold LineEditor.turn at ran
  cases key with
  | char c plain =>
    rw [Key.bytes, unicodeReadUTF8Char_spec, Option.bind_some] at ran
    exact handleKey_redraws ran
  | escape c esc a b short =>
    rw [Key.bytes, List.append_assoc, unicodeReadUTF8Char_spec, Option.bind_some, esc] at ran
    exact handleKey_redraws ran
  | extended c esc b d digit =>
    rw [Key.bytes, List.append_assoc, unicodeReadUTF8Char_spec, Option.bind_some, esc] at ran
    exact handleKey_redraws ran

/-- The row the prompt is in after the keys: the one it began in, until the screen is cleared. -/
def firstRow (base : Nat) (keys : List Key) : Nat := if keys.any Key.clears then 0 else base

theorem firstRow_cons (base : Nat) (key : Key) (keys : List Key) :
    firstRow base (key :: keys) = firstRow (if Key.clears key then 0 else base) keys := by
  unfold firstRow
  rw [List.any_cons]
  cases Key.clears key with
  | true => simp
  | false => simp

variable {prompt : Text} {cap cols : Nat} {e e' : Editing} {P : CodedChar → Prop}
variable {Seen : Nat → Zipper CodedChar → LinenoiseState → Prop}

theorem represents_unique {w w' : Zipper CodedChar} (first : Represents w l)
    (second : Represents w' l) : w = w' := by
  obtain ⟨rest, split⟩ := first.split
  obtain ⟨rest', split'⟩ := second.split
  have front : flat w.before.reverse = flat w'.before.reverse := by
    have lengths := first.pos_eq.symm.trans second.pos_eq
    rw [split'] at split
    exact (List.append_inj split lengths.symm).1.symm
  have all : flat w.contents = flat w'.contents := by
    obtain ⟨rest, held⟩ := first.held
    obtain ⟨rest', held'⟩ := second.held
    have lengths := first.len_eq.symm.trans second.len_eq
    rw [held'] at held
    exact (List.append_inj held lengths.symm).1.symm
  have same : w.before = w'.before := List.reverse_injective (flat_injective front)
  have line := flat_injective all
  rw [Zipper.contents, Zipper.contents, same, List.append_cancel_left_eq] at line
  cases w
  cases w'
  simp_all

theorem refreshLine_represents {w : Zipper CodedChar} (ran : refreshLine mlmode l = some l')
    (represents : Represents w l') : Represents w l := by
  have drawn : Redrawn l l' := by
    cases mlmode with
    | true =>
      change refreshMultiLine l = some l' at ran
      unfold refreshMultiLine at ran
      obtain ⟨pcolwid, -, ran⟩ := Option.bind_eq_some_iff.mp ran
      obtain ⟨line, -, ran⟩ := Option.bind_eq_some_iff.mp ran
      obtain ⟨colpos, -, ran⟩ := Option.bind_eq_some_iff.mp ran
      split at ran
      · cases ran
      · obtain ⟨colpos2, -, ran⟩ := Option.bind_eq_some_iff.mp ran
        cases ran
        rfl
    | false =>
      obtain ⟨pcolwid, -, ran⟩ := Option.bind_eq_some_iff.mp ran
      obtain ⟨first, -, ran⟩ := Option.bind_eq_some_iff.mp ran
      obtain ⟨len, -, ran⟩ := Option.bind_eq_some_iff.mp ran
      obtain ⟨shown, -, ran⟩ := Option.bind_eq_some_iff.mp ran
      obtain ⟨before, -, ran⟩ := Option.bind_eq_some_iff.mp ran
      cases ran
      rfl
  unfold Redrawn at drawn
  rw [drawn] at represents
  exact ⟨represents.held, represents.size, represents.pos_eq, represents.len_eq⟩

/-- What a key keeps of what is drawn from the row `top` on, between states that can be drawn and as
long as all characters are of a kind. -/
def Kept (mlmode : Bool) (prompt : Text) (P : CodedChar → Prop)
    (Seen : Nat → Zipper CodedChar → LinenoiseState → Prop) : Prop :=
  ∀ {w w' : Zipper CodedChar} {l l' : LinenoiseState} {clears : Bool} {top : Nat},
    Good mlmode prompt w l → Good mlmode prompt w' l' → (∀ c ∈ w'.contents, P c) →
    Redraws mlmode l l' clears → Seen top w l → Seen (if clears then 0 else top) w' l'

/-- What is drawn in the middle of a session, with `keys` still to come, which leave it in the row
`last`. -/
structure Drawing (P : CodedChar → Prop) (Seen : Nat → Zipper CodedChar → LinenoiseState → Prop)
    (last : Nat) (keys : List Key) (e : Editing) (m : Editor) : Prop where
  seen : ∃ top, firstRow top keys = last ∧ Seen top e.line m.state
  only : Only P e
  are : ∀ key ∈ keys, Key.Only P key

theorem Drawing.turn {last : Nat} {key : Key} {keys : List Key}
    (kept : Kept mlmode prompt P Seen) (live : Live mlmode prompt cap e m)
    (live' : Live mlmode prompt cap e' m') (step : e.press mlmode cap key = .goesOn e')
    (ran : LineEditor.turn mlmode m (key.bytes ++ rest) = some (.goesOn m' rest))
    (drawing : Drawing P Seen last (key :: keys) e m) : Drawing P Seen last keys e' m' := by
  obtain ⟨⟨top, rfl, seen⟩, only, are⟩ := drawing
  have only' := only.press (are key List.mem_cons_self) step
  have seen' := kept live.good live'.good only'.line (turn_redraws ran) seen
  exact ⟨⟨_, (firstRow_cons top key keys).symm, seen'⟩, only',
    fun key mem => are key (List.mem_cons_of_mem _ mem)⟩

variable {h : History} {past : List Text} {mem : Bytes}

theorem linenoiseEdit_keeps (kept : Kept mlmode prompt P Seen)
    {base : Nat} (start : ∀ {l : LinenoiseState}, Fresh prompt cols l → Seen base (.atEnd []) l)
    (offered : Offered h past mem) (memory : 0 < mem.length) (some_columns : 0 < cols)
    (room : mlmode = false → columns prompt + 2 < cols) (past_are : ∀ t ∈ past, ∀ c ∈ t, P c)
    (keys : List Key) (are : ∀ key ∈ keys, Key.Only P key)
    (admits : (Editing.opened h.history_max_len past).AdmitsAll mlmode (mem.length - 1) keys)
    (goesOn : pressed mlmode (mem.length - 1) (Editing.opened h.history_max_len past) keys =
      some e) :
    ∃ m, linenoiseEdit mlmode h cols mem (flat prompt) (keys.flatMap Key.bytes) =
        some (some e.size, m, []) ∧ Seen (firstRow base keys) e.line m.state := by
  obtain ⟨m, started, live, fresh⟩ :=
    linenoiseEdit_start offered memory some_columns room (keys.flatMap Key.bytes)
  have opened : Drawing P Seen (firstRow base keys) keys
      (Editing.opened h.history_max_len past) m :=
    ⟨⟨base, rfl, start fresh⟩, only_opened past_are _, are⟩
  obtain ⟨m', fuel, live', drawing, enough, ran⟩ :=
    editLoop_invariant (Drawing.turn kept) keys [] live opened admits goesOn
      (by rw [List.append_nil]; exact Nat.lt_succ_self _)
  obtain ⟨top, same, seen⟩ := drawing.seen
  have top_eq : top = firstRow base keys := same
  subst top_eq
  obtain ⟨fuel, rfl⟩ : ∃ n, fuel = n + 1 := ⟨fuel - 1, by omega⟩
  have count : m'.state.len = e.size := live'.good.represents.len_eq
  refine ⟨m', ?_, seen⟩
  rw [List.append_nil] at ran
  rw [started, ran]
  simp [editLoop, LineEditor.turn, unicodeReadUTF8Char, count]

end DrawnEdits
