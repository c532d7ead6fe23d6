import Serene.EditSessions

/-!
# What keys can do to the editor

The guard of an insertion asks whether the line is shorter than the buffer, not
whether the character fits. A session of single byte characters never leaves
the buffer; in any other, the insertion that writes behind it is known exactly.
-/

namespace EditSafety

open ByteClasses Utf8Texts Zippers TerminalText MemoryBlocks LineDrawing LineColumns
open BoundedLogs InputHistory LineEditor LineEdits EditSessions

variable {mlmode : Bool} {prompt : Text} {cap : Nat} {e e' : Editing} {m : Editor}
variable {P : CodedChar → Prop}

/-- All characters of the line and of the history are of a kind. -/
structure Only (P : CodedChar → Prop) (e : Editing) : Prop where
  line : ∀ c ∈ e.line.contents, P c
  past : ∀ t ∈ e.past, ∀ c ∈ t, P c

theorem Only.onLine (only : Only P e) {f : Zipper CodedChar → Zipper CodedChar}
    (subset : (f e.line).contents ⊆ e.line.contents) : Only P (e.onLine f) :=
  ⟨fun c mem => only.line c (subset mem), only.past⟩

theorem Only.saved (only : Only P e) : Only P e.saved := by
  refine ⟨only.line, ?_⟩
  intro t there c mem
  rcases List.mem_or_eq_of_mem_set there with old | rfl
  · exact only.past t old c mem
  · exact only.line c (List.takeWhile_subset _ mem)

theorem Only.showing (only : Only P e) (index : Nat) : Only P (e.showing index) := by
  refine ⟨?_, only.past⟩
  intro c mem
  rw [Editing.showing, Zipper.contents_atEnd] at mem
  cases entry : e.past[e.past.length - 1 - index]? with
  | none => simp [entry] at mem
  | some t =>
    rw [entry] at mem
    exact only.past t (List.mem_of_getElem? entry) c mem

theorem Only.browse (only : Only P e) (dir : Direction) : Only P (e.browse dir) := by
  cases dir <;> unfold Editing.browse <;> split_ifs <;>
    first
    | exact only
    | exact only.saved
    | exact only.saved.showing _

theorem Only.insert (only : Only P e) {c : CodedChar} (is : P c) : Only P (e.insert cap c) := by
  unfold Editing.insert
  split
  next =>
    refine ⟨?_, only.past⟩
    intro d mem
    rcases Zipper.mem_contents.mp mem with before | after
    · rcases List.mem_cons.mp before with rfl | old
      · exact is
      · exact only.line d (Zipper.mem_contents.mpr (Or.inl old))
    · exact only.line d (Zipper.mem_contents.mpr (Or.inr after))
  next => exact only

theorem Only.sequence (only : Only P e) (a b : UInt8) : Only P (e.sequence a b) := by
  unfold Editing.sequence
  split_ifs
  · exact only.browse .prev
  · exact only.browse .next
  · exact only.onLine (by simp)
  · exact only.onLine (by simp)
  · exact only.onLine (by simp)
  · exact only.onLine (by simp)
  · exact only
  · exact only.onLine (by simp)
  · exact only.onLine (by simp)
  · exact only
  · exact only

/-- What a key puts in the line is of the kind. -/
def Key.Only (P : CodedChar → Prop) : Key → Prop
  | .char c _ => c.code ∉ commands → P c
  | _ => True

theorem Only.command (only : Only P e) {c : CodedChar} {n : Nat} (plain : n ≠ 27)
    (is : n ∉ commands → P c) (pressed : e.command mlmode cap c n = .goesOn e') : Only P e' := by
  unfold Editing.command at pressed
  split at pressed
  · cases pressed
  · cases pressed
  · cases pressed
    exact only.onLine Zipper.eraseBack_subset
  · cases pressed
    exact only.onLine Zipper.eraseBack_subset
  · split at pressed
    · cases pressed
    · cases pressed
      exact only.onLine Zipper.eraseOn_subset
  · cases pressed
    exact only.onLine Zipper.transpose_subset
  · cases pressed
    exact only.onLine (by simp)
  · cases pressed
    exact only.onLine (by simp)
  · cases pressed
    exact only.browse .prev
  · cases pressed
    exact only.browse .next
  · cases pressed
    exact only.onLine (by simp)
  · cases pressed
    exact only.onLine Zipper.cutAfter_subset
  · cases pressed
    exact only.onLine (by simp)
  · cases pressed
    exact only.onLine (by simp)
  · cases pressed
    exact only
  · cases pressed
    exact only.onLine Zipper.eraseWord_subset
  · cases pressed
    refine only.insert (is fun known => ?_)
    simp_all [commands]

theorem Only.press (only : Only P e) {key : Key} (is : Key.Only P key)
    (pressed : e.press mlmode cap key = .goesOn e') : Only P e' := by
  cases key with
  | char c plain => exact only.command plain is pressed
  | escape c esc a b short =>
    cases pressed
    exact only.sequence a b
  | extended c esc b d digit =>
    unfold Editing.press at pressed
    simp only at pressed
    split at pressed
    next =>
      cases pressed
      exact only.onLine Zipper.eraseOn_subset
    next =>
      cases pressed
      exact only

theorem only_opened {past : List Text} (are : ∀ t ∈ past, ∀ c ∈ t, P c) (max : Nat) :
    Only P (Editing.opened max past) := by
  refine ⟨by simp [Editing.opened], ?_⟩
  intro t there c mem
  rcases mem_push there with old | rfl
  · exact are t old c mem
  · simp at mem

/-- What follows the keys, where none of them ends the session. -/
def pressed (mlmode : Bool) (cap : Nat) : Editing → List Key → Option Editing
  | e, [] => some e
  | e, key :: keys =>
    match e.press mlmode cap key with
    | .goesOn e => pressed mlmode cap e keys
    | .returns _ _ => none

/-- What each turn keeps, the keys keep; `Inv` is about the keys that are still to come. -/
theorem editLoop_invariant {Inv : List Key → Editing → Editor → Prop}
    (kept : ∀ {key : Key} {keys : List Key} {e e' : Editing} {m m' : Editor} {rest : Bytes},
      Live mlmode prompt cap e m → Live mlmode prompt cap e' m' →
      e.press mlmode cap key = .goesOn e' →
      LineEditor.turn mlmode m (key.bytes ++ rest) = some (.goesOn m' rest) →
      Inv (key :: keys) e m → Inv keys e' m')
    (keys : List Key) {fuel : Nat} (rest : Bytes) (live : Live mlmode prompt cap e m)
    (inv : Inv keys e m) (admits : e.AdmitsAll mlmode cap keys)
    (goesOn : pressed mlmode cap e keys = some e')
    (enough : (keys.flatMap Key.bytes ++ rest).length < fuel) :
    ∃ m' fuel', Live mlmode prompt cap e' m' ∧ Inv [] e' m' ∧ rest.length < fuel' ∧
      editLoop mlmode fuel m (keys.flatMap Key.bytes ++ rest) =
        editLoop mlmode fuel' m' rest := by
  induction keys generalizing e m fuel with
  | nil =>
    cases goesOn
    exact ⟨m, fuel, live, inv, enough, rfl⟩
  | cons key keys ih =>
    have positive := key.bytes_pos
    rw [List.flatMap_cons, List.append_assoc, List.length_append] at enough
    obtain ⟨fuel, rfl⟩ : ∃ n, fuel = n + 1 := ⟨fuel - 1, by omega⟩
    obtain ⟨first, later⟩ := admits
    obtain ⟨turn, ran, fits⟩ := turn_spec live key first (keys.flatMap Key.bytes ++ rest)
    rw [List.flatMap_cons, List.append_assoc, editLoop, ran, Option.bind_some]
    rw [pressed] at goesOn
    cases step : e.press mlmode cap key with
    | returns accepted e₁ => rw [step] at goesOn; cases goesOn
    | goesOn e₁ =>
      rw [step] at fits later goesOn
      cases turn with
      | returns result m₁ rest₁ => exact False.elim fits
      | goesOn m₁ rest₁ =>
        obtain ⟨live', rfl⟩ := fits
        exact ih live' (kept live live' step ran inv) later goesOn (by omega)

theorem editLoop_pressed (keys : List Key) {fuel : Nat} (rest : Bytes)
    (live : Live mlmode prompt cap e m) (admits : e.AdmitsAll mlmode cap keys)
    (goesOn : pressed mlmode cap e keys = some e')
    (enough : (keys.flatMap Key.bytes ++ rest).length < fuel) :
    ∃ m' fuel', Live mlmode prompt cap e' m' ∧ rest.length < fuel' ∧
      editLoop mlmode fuel m (keys.flatMap Key.bytes ++ rest) =
        editLoop mlmode fuel' m' rest := by
  obtain ⟨m', fuel', live', -, enough', ran⟩ :=
    editLoop_invariant (fun _ _ _ _ _ => trivial) keys rest live trivial admits goesOn enough
  exact ⟨m', fuel', live', enough', ran⟩

theorem insert_overflow (cbuf : Bytes) {w : Zipper CodedChar} {l : LinenoiseState}
    (good : Good mlmode prompt w l) (room : l.len < l.buflen)
    (long : l.buflen < l.len + cbuf.length) : linenoiseEditInsert mlmode l cbuf = none := by
  have size := good.represents.size
  -- the terminator would be written behind the buffer
  have behind {buf : Bytes} (kept : buf.length = l.buf.length) :
      store buf (l.len + cbuf.length) [nul] = none := by
    rw [store_eq_none, List.length_singleton]
    omega
  unfold linenoiseEditInsert
  simp only [if_pos room, Option.bind_eq_bind]
  split
  next =>
    cases typed : store l.buf l.pos cbuf with
    | none => rfl
    | some buf => rw [Option.bind_some, behind (store_length typed), Option.bind_none]
  next =>
    cases moved : move l.buf (l.pos + cbuf.length) l.pos (l.len - l.pos) with
    | none => rfl
    | some mid =>
      rw [Option.bind_some]
      cases typed : store mid l.pos cbuf with
      | none => rfl
      | some buf =>
        rw [Option.bind_some, behind ((store_length typed).trans (move_length moved)),
          Option.bind_none]

theorem pressed_append (keys more : List Key) :
    pressed mlmode cap e (keys ++ more) =
      (pressed mlmode cap e keys).bind fun e => pressed mlmode cap e more := by
  induction keys generalizing e with
  | nil => rfl
  | cons key keys ih =>
    rw [List.cons_append, pressed, pressed]
    cases e.press mlmode cap key with
    | goesOn e₁ => exact ih
    | returns accepted e₁ => rfl

theorem session_append {keys : List Key} (reached : pressed mlmode cap e keys = some e')
    (more : List Key) : e.session mlmode cap (keys ++ more) = e'.session mlmode cap more := by
  induction keys generalizing e with
  | nil =>
    cases reached
    rfl
  | cons key keys ih =>
    rw [pressed] at reached
    rw [List.cons_append, Editing.session]
    cases step : e.press mlmode cap key with
    | returns accepted e₁ => rw [step] at reached; cases reached
    | goesOn e₁ =>
      rw [step] at reached
      exact ih reached

theorem admitsAll_append {keys more : List Key} (admits : e.AdmitsAll mlmode cap keys)
    (reached : pressed mlmode cap e keys = some e') (later : e'.AdmitsAll mlmode cap more) :
    e.AdmitsAll mlmode cap (keys ++ more) := by
  induction keys generalizing e with
  | nil =>
    cases reached
    exact later
  | cons first keys ih =>
    obtain ⟨here, admits⟩ := admits
    refine ⟨here, ?_⟩
    rw [pressed] at reached
    cases step : e.press mlmode cap first with
    | returns accepted e₁ => trivial
    | goesOn e₁ =>
      rw [step] at admits reached
      exact ih admits reached

theorem admitsAll_one {key : Key} (admits : e.Admits cap key) :
    e.AdmitsAll mlmode cap [key] := by
  refine ⟨admits, ?_⟩
  split <;> trivial

variable {h : History} {past : List Text} {mem : Bytes} {cols : Nat} {c : CodedChar}

/-- After any keys, the insertion of a character leaves the buffer exactly where the line is
shorter than the buffer but the character does not fit. -/
theorem overflow_iff (offered : Offered h past mem) (memory : 0 < mem.length)
    (some_columns : 0 < cols) (room : mlmode = false → columns prompt + 2 < cols)
    {keys : List Key}
    (admits : (Editing.opened h.history_max_len past).AdmitsAll mlmode (mem.length - 1) keys)
    (reached : pressed mlmode (mem.length - 1) (Editing.opened h.history_max_len past) keys =
      some e)
    (inserted : c.code ∉ commands) (plain : c.code ≠ 27) :
    linenoiseRaw mlmode h cols mem (flat prompt)
        ((keys ++ [Key.char c plain]).flatMap Key.bytes) = none ↔
      e.size < mem.length - 1 ∧ mem.length - 1 < e.size + c.size := by
  constructor
  · intro undefined
    by_contra within
    have last : e.Admits (mem.length - 1) (.char c plain) := by
      refine ⟨fun _ _ => by omega, ?_⟩
      intro swap
      rw [swap] at inserted
      exact absurd (by decide) inserted
    have defined := linenoiseRaw_keys offered memory some_columns room
      (admitsAll_append admits reached (admitsAll_one last)) rfl
    rw [undefined] at defined
    cases defined
  · rintro ⟨shorter, long⟩
    obtain ⟨m, started, live, -⟩ := linenoiseEdit_start offered memory some_columns room
      ((keys ++ [Key.char c plain]).flatMap Key.bytes)
    have input : (keys ++ [Key.char c plain]).flatMap Key.bytes =
        keys.flatMap Key.bytes ++ c.bytes := by simp [Key.bytes]
    rw [input] at started
    obtain ⟨m', fuel, live', enough, ran⟩ := editLoop_pressed keys c.bytes live admits reached
      (Nat.lt_succ_self _)
    obtain ⟨fuel, rfl⟩ : ∃ n, fuel = n + 1 := ⟨fuel - 1, by omega⟩
    have len_eq : m'.state.len = e.size := live'.good.represents.len_eq
    have read := unicodeReadUTF8Char_spec c []
    rw [List.append_nil] at read
    have behind := insert_overflow c.bytes live'.good
      (by rw [live'.buflen, len_eq]; exact shorter)
      (by rw [live'.buflen, len_eq, c.length_bytes]; exact long)
    unfold linenoiseRaw
    rw [input, started, ran, editLoop, LineEditor.turn, read]
    simp only [Option.bind_some, handleKey_insert inserted, Editor.edit, behind, Option.map_none,
      Option.bind_none]
    rfl

/-- A buffer of three bytes, in which `a` and a character of two bytes do not fit. -/
theorem overflow_iff_short :
    linenoiseRaw true ⟨1, []⟩ 80 [0, 0, 0] (flat [])
      (([Key.char (.ascii 97 (by decide)) (by decide)] ++
        [Key.char ⟨0xC3, [0xA9], by decide, by decide⟩ (by decide)]).flatMap Key.bytes) = none := by
  have offered : Offered ⟨1, []⟩ [] [0, 0, 0] := ⟨by decide, rfl, by simp⟩
  refine (overflow_iff offered (by decide) (by decide) (by decide) ?_ rfl (by decide)
    (by decide)).mpr ⟨by decide, by decide⟩
  exact ⟨⟨fun _ _ => by decide, fun swap => absurd swap (by decide)⟩, trivial⟩

end EditSafety
