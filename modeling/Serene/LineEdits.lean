import Serene.LineColumns
import Serene.LineEditor

/-!
# The editing functions on lines

Each editing function, on a state that represents a line with a cursor, leaves a
state that represents the edited line. What an insertion needs is that the
character fits, and what `CTRL_T` needs is that the bytes it exchanges are
characters.
-/

namespace LineEdits

open ByteClasses Utf8Texts Zippers TerminalText MemoryBlocks LineDrawing LineColumns
open InputHistory LineEditor

/-- The state represents the line, and it can be drawn. -/
structure Good (mlmode : Bool) (prompt : Text) (w : Zipper CodedChar) (l : LinenoiseState) :
    Prop where
  represents : Represents w l
  drawable : Drawable mlmode prompt l

/-- The states agree on the memory's size and on the place in the history. -/
def SamePlace (l l' : LinenoiseState) : Prop :=
  l'.buflen = l.buflen ∧ l'.history_index = l.history_index

/-- The edit ends, and leaves the line `w`. -/
def Leaves (mlmode : Bool) (prompt : Text) (w : Zipper CodedChar) (l : LinenoiseState)
    (edited : Option LinenoiseState) : Prop :=
  ∃ l', edited = some l' ∧ Good mlmode prompt w l' ∧ SamePlace l l'

variable {mlmode : Bool} {prompt : Text} {w w' : Zipper CodedChar} {l m : LinenoiseState}

theorem Good.leaves (good : Good mlmode prompt w l) : Leaves mlmode prompt w l (some l) :=
  ⟨l, rfl, good, rfl, rfl⟩

/-- Every edit ends with drawing the line it made. -/
theorem leaves_refreshLine (represents : Represents w m) (drawable : Drawable mlmode prompt m)
    (same : SamePlace l m) : Leaves mlmode prompt w l (refreshLine mlmode m) := by
  obtain ⟨l', ran, drawn⟩ := refreshLine_total represents drawable
  refine ⟨l', ran, ⟨represents.redrawn drawn, drawable.redrawn drawn⟩, ?_⟩
  unfold Redrawn at drawn
  rw [drawn]
  exact same

theorem moveBack_split (w : Zipper CodedChar) :
    w.before.reverse = (w.moveBack joins).before.reverse ++ clusterBefore w.before := by
  have whole := List.takeWhile_append_dropWhile (p := joins) (l := w.before)
  unfold Zipper.moveBack clusterBefore
  cases found : w.before.dropWhile joins with
  | nil => simp
  | cons head rest =>
    rw [found] at whole
    have back := congrArg List.reverse whole
    simpa using back.symm

theorem moveOn_split (w : Zipper CodedChar) :
    (w.moveOn joins).before.reverse = w.before.reverse ++ cluster w.after ∧
      w.after = cluster w.after ++ (w.moveOn joins).after := by
  obtain ⟨before, after⟩ := w
  cases after with
  | nil => simp [Zipper.moveOn, cluster]
  | cons c t => simp [Zipper.moveOn, cluster, List.takeWhile_append_dropWhile]

/-- Moving the cursor in the line. -/
theorem Good.moved (good : Good mlmode prompt w l) (same : w'.contents = w.contents) {pos : Nat}
    (there : pos = (flat w'.before.reverse).length) :
    Leaves mlmode prompt w' l (refreshLine mlmode { l with pos }) := by
  obtain ⟨represents, drawable⟩ := good
  apply leaves_refreshLine
  · exact ⟨same ▸ represents.held, represents.size, there, same ▸ represents.len_eq⟩
  · exact ⟨drawable.prompt_eq, drawable.some_columns, drawable.room⟩
  · exact ⟨rfl, rfl⟩

theorem moveLeft_spec (good : Good mlmode prompt w l) :
    Leaves mlmode prompt (w.moveBack joins) l (linenoiseEditMoveLeft mlmode l) := by
  have pos_eq := good.represents.pos_eq
  unfold linenoiseEditMoveLeft
  by_cases some : 0 < l.pos
  · obtain ⟨rest, split⟩ := good.represents.split
    have glen := unicodePrevGraphemeLen_spec w.before (flat w.after ++ nul :: rest)
    rw [← split, ← pos_eq] at glen
    rw [if_pos some, glen]
    apply good.moved (Zipper.contents_moveBack joins w)
    rw [pos_eq, moveBack_split w, flat_append, List.length_append, Nat.add_sub_cancel]
  · have none : w.before = [] := by
      have : (flat w.before.reverse).length = 0 := by omega
      simpa [flat_eq_nil] using List.length_eq_zero_iff.mp this
    have stays : w.moveBack joins = w := by simp [Zipper.moveBack, none]
    rw [if_neg some, stays]
    exact good.leaves

theorem length_contents (w : Zipper CodedChar) :
    (flat w.contents).length = (flat w.before.reverse).length + (flat w.after).length := by
  rw [Zipper.contents, flat_append, List.length_append]

theorem moveRight_spec (good : Good mlmode prompt w l) :
    Leaves mlmode prompt (w.moveOn joins) l (linenoiseEditMoveRight mlmode l) := by
  have pos_eq := good.represents.pos_eq
  have len_eq := good.represents.len_eq
  rw [length_contents] at len_eq
  unfold linenoiseEditMoveRight
  by_cases inside : l.pos ≠ l.len
  · obtain ⟨rest, split⟩ := good.represents.split
    have glen := unicodeGraphemeLen_spec (flat w.before.reverse) (nul :: rest) w.after
    rw [← split, ← len_eq, ← pos_eq] at glen
    rw [if_pos inside, glen]
    apply good.moved (Zipper.contents_moveOn joins w)
    rw [pos_eq, (moveOn_split w).1, flat_append, List.length_append]
  · have none : w.after = [] := by
      have : (flat w.after).length = 0 := by omega
      exact flat_eq_nil.mp (List.length_eq_zero_iff.mp this)
    have stays : w.moveOn joins = w := by simp [Zipper.moveOn, none]
    rw [if_neg inside, stays]
    exact good.leaves

theorem moveHome_spec (good : Good mlmode prompt w l) :
    Leaves mlmode prompt w.home l (linenoiseEditMoveHome mlmode l) := by
  have pos_eq := good.represents.pos_eq
  unfold linenoiseEditMoveHome
  by_cases some : l.pos ≠ 0
  · rw [if_pos some]
    exact good.moved Zipper.contents_home rfl
  · have none : w.before = [] := by
      have : (flat w.before.reverse).length = 0 := by omega
      simpa [flat_eq_nil] using List.length_eq_zero_iff.mp this
    have stays : w.home = w := by
      cases w
      simp_all [Zipper.home, Zipper.contents]
    rw [if_neg some, stays]
    exact good.leaves

theorem moveEnd_spec (good : Good mlmode prompt w l) :
    Leaves mlmode prompt w.toEnd l (linenoiseEditMoveEnd mlmode l) := by
  have pos_eq := good.represents.pos_eq
  have len_eq := good.represents.len_eq
  unfold linenoiseEditMoveEnd
  by_cases inside : l.pos ≠ l.len
  · rw [if_pos inside]
    apply good.moved Zipper.contents_toEnd
    rw [len_eq, Zipper.toEnd, Zipper.atEnd, List.reverse_reverse]
  · rw [length_contents] at len_eq
    have none : w.after = [] := by
      have : (flat w.after).length = 0 := by omega
      exact flat_eq_nil.mp (List.length_eq_zero_iff.mp this)
    have stays : w.toEnd = w := by
      cases w
      simp_all [Zipper.toEnd, Zipper.atEnd, Zipper.contents]
    rw [if_neg inside, stays]
    exact good.leaves

/-- Another line in the memory. -/
theorem Good.relined (good : Good mlmode prompt w l) (w' : Zipper CodedChar) {buf : Bytes}
    {pos len : Nat}
    (held : ∃ rest, buf = flat w'.contents ++ nul :: rest) (size : buf.length = l.buf.length)
    (there : pos = (flat w'.before.reverse).length) (long : len = (flat w'.contents).length) :
    Good mlmode prompt w' { l with buf, pos, len } := by
  obtain ⟨represents, drawable⟩ := good
  constructor
  · exact ⟨held, size.trans represents.size, there, long⟩
  · exact ⟨drawable.prompt_eq, drawable.some_columns, drawable.room⟩

theorem Good.edited (good : Good mlmode prompt w l) (w' : Zipper CodedChar) {buf : Bytes}
    {pos len : Nat}
    (held : ∃ rest, buf = flat w'.contents ++ nul :: rest) (size : buf.length = l.buf.length)
    (there : pos = (flat w'.before.reverse).length) (long : len = (flat w'.contents).length) :
    Leaves mlmode prompt w' l (refreshLine mlmode { l with buf, pos, len }) := by
  obtain ⟨represents, drawable⟩ := good.relined w' held size there long
  exact leaves_refreshLine represents drawable ⟨rfl, rfl⟩

theorem store_nul (x : Bytes) {y : Bytes} (room : 0 < y.length) :
    store (x ++ y) x.length [nul] = some (x ++ nul :: y.tail) := by
  rw [store_at x y [nul] room]
  simp

/-- The bytes `d` taken out of the line, and a new terminator behind it. -/
theorem cut_out (a d b rest : Bytes) :
    ∃ buf, move (a ++ (d ++ (b ++ nul :: rest))) a.length (a.length + d.length) b.length =
        some buf ∧
      ∃ rest', store buf (a.length + b.length) [nul] = some (a ++ (b ++ nul :: rest')) := by
  have stored := store_nul (a ++ b) (y := (d ++ (b ++ nul :: rest)).drop b.length)
    (by simp only [List.length_drop, List.length_append, List.length_cons]; omega)
  rw [List.length_append, List.append_assoc, List.append_assoc] at stored
  exact ⟨_, close_gap a d b (nul :: rest), _, stored⟩

theorem delete_spec (good : Good mlmode prompt w l) :
    Leaves mlmode prompt (w.eraseOn joins) l (linenoiseEditDelete mlmode l) := by
  have pos_eq := good.represents.pos_eq
  have len_eq := good.represents.len_eq
  rw [length_contents] at len_eq
  unfold linenoiseEditDelete
  by_cases inside : 0 < l.len ∧ l.pos < l.len
  · obtain ⟨rest, split⟩ := good.represents.split
    have glen := unicodeGraphemeLen_spec (flat w.before.reverse) (nul :: rest) w.after
    rw [← split, ← len_eq, ← pos_eq] at glen
    have after := (moveOn_split w).2
    have lengths := congrArg (fun t => (flat t).length) after
    simp only [flat_append, List.length_append] at lengths
    have cut : l.buf = flat w.before.reverse ++ (flat (cluster w.after) ++
        (flat (w.moveOn joins).after ++ nul :: rest)) := by
      rw [split, ← List.append_assoc (flat (cluster w.after)), ← flat_append, ← after]
    obtain ⟨buf, moved, rest', stored⟩ := cut_out (flat w.before.reverse)
      (flat (cluster w.after)) (flat (w.moveOn joins).after) rest
    have count : l.len - l.pos - (flat (cluster w.after)).length =
        (flat (w.moveOn joins).after).length := by omega
    have stop : l.len - (flat (cluster w.after)).length =
        (flat w.before.reverse).length + (flat (w.moveOn joins).after).length := by omega
    rw [← cut, ← pos_eq] at moved
    rw [if_pos inside, glen]
    simp only [Option.bind_eq_bind, Option.bind_some]
    rw [if_neg (by omega), count, moved, stop, Option.bind_some, stored, Option.bind_some]
    rw [Zipper.eraseOn_eq]
    apply good.edited
    · exact ⟨rest', by simp [Zipper.contents]⟩
    · rw [store_length stored, move_length moved]
    · exact pos_eq
    · simp [Zipper.contents]
  · have none : w.after = [] := by
      have : (flat w.after).length = 0 := by omega
      exact flat_eq_nil.mp (List.length_eq_zero_iff.mp this)
    have stays : w.eraseOn joins = w := by simp [Zipper.eraseOn, none]
    rw [if_neg inside, stays]
    exact good.leaves

theorem backspace_spec (good : Good mlmode prompt w l) :
    Leaves mlmode prompt (w.eraseBack joins) l (linenoiseEditBackspace mlmode l) := by
  have pos_eq := good.represents.pos_eq
  have len_eq := good.represents.len_eq
  rw [length_contents] at len_eq
  unfold linenoiseEditBackspace
  by_cases inside : 0 < l.pos ∧ 0 < l.len
  · obtain ⟨rest, split⟩ := good.represents.split
    have glen := unicodePrevGraphemeLen_spec w.before (flat w.after ++ nul :: rest)
    rw [← split, ← pos_eq] at glen
    have before := moveBack_split w
    have lengths := congrArg (fun t => (flat t).length) before
    simp only [flat_append, List.length_append] at lengths
    have cut : l.buf = flat (w.moveBack joins).before.reverse ++ (flat (clusterBefore w.before) ++
        (flat w.after ++ nul :: rest)) := by
      have bytes := congrArg flat before
      rw [flat_append] at bytes
      rw [split, bytes, List.append_assoc]
    obtain ⟨buf, moved, rest', stored⟩ := cut_out (flat (w.moveBack joins).before.reverse)
      (flat (clusterBefore w.before)) (flat w.after) rest
    have place : l.pos - (flat (clusterBefore w.before)).length =
        (flat (w.moveBack joins).before.reverse).length := by omega
    have count : l.len - l.pos = (flat w.after).length := by omega
    have stop : l.len - (flat (clusterBefore w.before)).length =
        (flat (w.moveBack joins).before.reverse).length + (flat w.after).length := by omega
    rw [← cut, ← lengths, ← pos_eq] at moved
    rw [if_pos inside, glen]
    simp only [Option.bind_eq_bind, Option.bind_some]
    rw [place, count, moved, stop, Option.bind_some, stored, Option.bind_some]
    rw [Zipper.eraseBack_eq]
    apply good.edited
    · exact ⟨rest', by simp [Zipper.contents]⟩
    · rw [store_length stored, move_length moved]
    · rfl
    · simp [Zipper.contents]
  · have none : w.before = [] := by
      have : (flat w.before.reverse).length = 0 := by omega
      simpa [flat_eq_nil] using List.length_eq_zero_iff.mp this
    have stays : w.eraseBack joins = w := by simp [Zipper.eraseBack, none]
    rw [if_neg inside, stays]
    exact good.leaves

theorem put_at_end (a c rest : Bytes) (room : c.length ≤ rest.length) :
    ∃ buf, store (a ++ nul :: rest) a.length c = some buf ∧
      ∃ rest', store buf (a.length + c.length) [nul] = some (a ++ (c ++ nul :: rest')) := by
  have typed := store_at a (nul :: rest) c
    (by rw [List.length_cons]; omega)
  have stored := store_nul (a ++ c) (y := (nul :: rest).drop c.length)
    (by rw [List.length_drop, List.length_cons]; omega)
  rw [List.length_append, List.append_assoc, List.append_assoc] at stored
  exact ⟨_, typed, _, stored⟩

theorem put_between (a b c rest : Bytes) (room : c.length ≤ rest.length) :
    ∃ mid buf, move (a ++ (b ++ nul :: rest)) (a.length + c.length) a.length b.length = some mid ∧
      store mid a.length c = some buf ∧
      ∃ rest', store buf (a.length + b.length + c.length) [nul] =
        some (a ++ (c ++ (b ++ nul :: rest'))) := by
  have opened := open_gap a b (nul :: rest) c
    (by rw [List.length_cons]; omega)
  have stored := store_nul (a ++ (c ++ b)) (y := (nul :: rest).drop c.length)
    (by rw [List.length_drop, List.length_cons]; omega)
  simp only [List.length_append, List.append_assoc] at stored
  cases moved : move (a ++ (b ++ nul :: rest)) (a.length + c.length) a.length b.length with
  | none => rw [moved] at opened; cases opened
  | some mid =>
    rw [moved, Option.bind_some] at opened
    have place : a.length + b.length + c.length = a.length + (c.length + b.length) := by omega
    exact ⟨mid, _, rfl, opened, _, place ▸ stored⟩

/-- A character that fits is inserted. -/
theorem insert_spec (good : Good mlmode prompt w l) {c : CodedChar}
    (fits : l.len + c.size ≤ l.buflen) :
    Leaves mlmode prompt (w.insert c) l (linenoiseEditInsert mlmode l c.bytes) := by
  have positive := c.size_pos
  have pos_eq := good.represents.pos_eq
  have len_eq := good.represents.len_eq
  have size := good.represents.size
  rw [length_contents] at len_eq
  obtain ⟨rest, split⟩ := good.represents.split
  have lengths := congrArg List.length split
  simp only [List.length_append, List.length_cons] at lengths
  have room : c.bytes.length ≤ rest.length := by
    rw [CodedChar.length_bytes]
    omega
  have there : l.pos + c.size = (flat (w.insert c).before.reverse).length := by
    simp [Zipper.insert, pos_eq]
  have long : l.len + c.size = (flat (w.insert c).contents).length := by
    rw [Zipper.contents_insert, flat_append, flat_cons]
    simp only [List.length_append, CodedChar.length_bytes]
    omega
  unfold linenoiseEditInsert
  simp only [CodedChar.length_bytes]
  rw [if_pos (by omega)]
  by_cases atEnd : l.len = l.pos
  · have none : w.after = [] := by
      have : (flat w.after).length = 0 := by omega
      exact flat_eq_nil.mp (List.length_eq_zero_iff.mp this)
    obtain ⟨buf, typed, rest', sealed⟩ := put_at_end (flat w.before.reverse) c.bytes rest room
    rw [none, flat_nil, List.nil_append] at split
    rw [← split, ← pos_eq] at typed
    rw [← pos_eq, c.length_bytes, ← atEnd] at sealed
    have good' := good.relined (w.insert c)
      ⟨rest', by simp [Zipper.contents_insert, none]⟩
      ((store_length sealed).trans (store_length typed)) there long
    rw [if_pos atEnd, typed]
    simp only [Option.bind_eq_bind, Option.bind_some, sealed]
    cases mlmode with
    | true => exact leaves_refreshLine good'.represents good'.drawable ⟨rfl, rfl⟩
    | false =>
      have line : flat w.before.reverse ++ (c.bytes ++ nul :: rest') =
          flat (w.insert c).contents ++ nul :: rest' := by simp [Zipper.contents_insert, none]
      have loaded : load (flat w.before.reverse ++ (c.bytes ++ nul :: rest')) 0 (l.len + c.size) =
          some (flat (w.insert c).contents) := by rw [line, long, load_front]
      have pcolwid : unicodeColumnPos l.prompt = some (columns prompt) := by
        rw [good.drawable.prompt_eq, unicodeColumnPos_flat]
      simp only [pcolwid, unicodeColumnPos_flat, Option.bind_some, loaded, Bool.false_eq_true,
        if_false]
      -- the trivial case writes the character only
      split
      next =>
        exact ⟨_, rfl, ⟨good'.represents.redrawn rfl, good'.drawable.redrawn rfl⟩, rfl, rfl⟩
      next => exact leaves_refreshLine good'.represents good'.drawable ⟨rfl, rfl⟩
  · obtain ⟨mid, buf, moved, typed, rest', sealed⟩ :=
      put_between (flat w.before.reverse) (flat w.after) c.bytes rest room
    have count : l.len - l.pos = (flat w.after).length := by omega
    rw [← split, ← pos_eq, c.length_bytes] at moved
    rw [← pos_eq] at typed
    rw [← len_eq, c.length_bytes] at sealed
    rw [if_neg atEnd, count, moved]
    simp only [Option.bind_eq_bind, Option.bind_some, typed, sealed]
    apply good.edited
    · exact ⟨rest', by simp [Zipper.contents_insert]⟩
    · rw [store_length sealed, store_length typed, move_length moved]
    · exact there
    · exact long

/-- A full line takes nothing more. -/
theorem insert_full (good : Good mlmode prompt w l) (c : Bytes) (full : l.buflen ≤ l.len) :
    Leaves mlmode prompt w l (linenoiseEditInsert mlmode l c) := by
  unfold linenoiseEditInsert
  rw [if_neg (by omega)]
  exact good.leaves

/-- The character is a space. -/
def blank (c : CodedChar) : Bool := c.lead == ' '.toUInt8

theorem blank_bytes {c : CodedChar} (is : blank c = true) : c.bytes = [' '.toUInt8] := by
  have lead : c.lead = ' '.toUInt8 := by simpa [blank] using is
  have alone := c.tails_of_lead_lt (by rw [lead]; decide)
  rw [CodedChar.bytes, lead, alone]

theorem nonblank_bytes {c : CodedChar} (not : blank c = false) :
    ∀ b ∈ c.bytes, b ≠ ' '.toUInt8 := by
  intro b mem same
  have whole := c.bytes_eq_of_mem (by rw [same]; decide) mem
  have lead : c.lead = b := (List.cons.inj whole).1
  simp [blank, lead, same] at not

/-- The characters in front of the cursor, cut where those of a kind begin. -/
theorem reverse_split (kind : CodedChar → Bool) (t : Text) :
    t.reverse = (t.dropWhile kind).reverse ++ (t.takeWhile kind).reverse := by
  rw [← List.reverse_append, List.takeWhile_append_dropWhile]

/-- Back over characters of a kind, found by their bytes. -/
theorem backOver_chars (skips : UInt8 → Bool) (kind : CodedChar → Bool) {t : Text} {z : Bytes}
    (same : ∀ c ∈ t, kind c = true → ∀ b ∈ c.bytes, skips b = true)
    (other : ∀ c ∈ t, kind c = false → ∀ b ∈ c.bytes, skips b = false) :
    backOver skips (flat t.reverse ++ z) (flat t.reverse).length =
      some (flat (t.dropWhile kind).reverse).length := by
  rw [reverse_split kind t, flat_append, List.append_assoc, List.length_append]
  apply backOver_run
  · intro b mem
    obtain ⟨c, member, inside⟩ := List.mem_flatMap.mp mem
    have member := List.mem_reverse.mp member
    exact same c (List.takeWhile_subset _ member) (List.mem_takeWhile_imp member) b inside
  · intro b last
    cases found : t.dropWhile kind with
    | nil => simp [found] at last
    | cons c rest =>
      have mem : c ∈ t := List.dropWhile_subset _ (found ▸ List.mem_cons_self)
      have stop : kind c = false := by
        have := List.head_dropWhile_not kind (l := t) (by simp [found])
        simpa [found] using this
      refine other c mem stop b ?_
      rw [found, List.reverse_cons, flat_append] at last
      have some : flat [c] ≠ [] := by simp [CodedChar.bytes]
      rw [List.getLast?_append_of_ne_nil _ some] at last
      simpa using List.mem_of_getLast? last

theorem deletePrevWord_spec (good : Good mlmode prompt w l) :
    Leaves mlmode prompt (w.eraseWord blank) l (linenoiseEditDeletePrevWord mlmode l) := by
  have pos_eq := good.represents.pos_eq
  have len_eq := good.represents.len_eq
  rw [length_contents] at len_eq
  obtain ⟨rest, split⟩ := good.represents.split
  have parts := reverse_split blank w.before
  have parts' := reverse_split (fun c => !blank c) (w.before.dropWhile blank)
  have spaces := backOver_chars (fun b => b == ' '.toUInt8) blank
    (t := w.before) (z := flat w.after ++ nul :: rest)
    (fun c _ is b mem => by simpa [blank_bytes is] using mem)
    (fun c _ not b mem => by simpa using nonblank_bytes not b mem)
  have word := backOver_chars (fun b => b != ' '.toUInt8) (fun c => !blank c)
    (t := w.before.dropWhile blank)
    (z := flat (w.before.takeWhile blank).reverse ++ (flat w.after ++ nul :: rest))
    (fun c _ not b mem => by simpa using nonblank_bytes (by simpa using not) b mem)
    (fun c _ is b mem => by
      have here : b = ' '.toUInt8 := by simpa [blank_bytes (by simpa using is)] using mem
      simp [here])
  rw [← List.append_assoc, ← flat_append, ← parts, ← split] at word
  rw [← split, ← pos_eq] at spaces
  -- what goes are the spaces and the word in front of them
  generalize passed_eq : ((w.before.dropWhile blank).takeWhile fun c => !blank c).reverse ++
    (w.before.takeWhile blank).reverse = passed
  have kept : w.before.reverse = (w.eraseWord blank).before.reverse ++ passed := by
    rw [parts, parts', ← passed_eq, List.append_assoc]
    rfl
  have bytes := congrArg flat kept
  rw [flat_append] at bytes
  have lengths := congrArg List.length bytes
  rw [List.length_append, ← pos_eq] at lengths
  have closed := close_gap (flat (w.eraseWord blank).before.reverse) (flat passed)
    (flat w.after ++ [nul]) rest
  have cut : flat (w.eraseWord blank).before.reverse ++
      (flat passed ++ (flat w.after ++ [nul] ++ rest)) = l.buf := by
    rw [split, bytes]
    simp
  have count : (flat w.after ++ [nul]).length = l.len - l.pos + 1 := by
    rw [List.length_append, List.length_singleton]
    omega
  rw [cut, ← lengths, count] at closed
  unfold linenoiseEditDeletePrevWord
  rw [spaces]
  simp only [Option.bind_eq_bind, Option.bind_some]
  rw [word, Option.bind_some]
  change Leaves _ _ _ _ ((move l.buf (flat (w.eraseWord blank).before.reverse).length l.pos
    (l.len - l.pos + 1)).bind _)
  rw [closed, Option.bind_some]
  apply good.edited
  · refine ⟨(flat passed ++ (flat w.after ++ [nul] ++ rest)).drop (l.len - l.pos + 1), ?_⟩
    simp [Zipper.contents, Zipper.eraseWord]
  · rw [move_length closed]
  · rfl
  · rw [length_contents]
    change l.len - (l.pos - (flat (w.eraseWord blank).before.reverse).length) =
      (flat (w.eraseWord blank).before.reverse).length + (flat w.after).length
    omega

theorem deleteLine_spec (good : Good mlmode prompt w l) :
    Leaves mlmode prompt (Zipper.atEnd []) l (deleteLine mlmode l) := by
  have size := good.represents.size
  have stored := store_nul [] (y := l.buf) (by omega)
  unfold deleteLine
  rw [List.nil_append, List.length_nil] at stored
  rw [stored]
  apply good.edited
  · exact ⟨_, rfl⟩
  · exact store_length stored
  · rfl
  · rfl

theorem deleteToEnd_spec (good : Good mlmode prompt w l) :
    Leaves mlmode prompt w.cutAfter l (deleteToEnd mlmode l) := by
  have pos_eq := good.represents.pos_eq
  obtain ⟨rest, split⟩ := good.represents.split
  have stored := store_nul (flat w.before.reverse) (y := flat w.after ++ nul :: rest)
    (by simp only [List.length_append, List.length_cons]; omega)
  rw [← split, ← pos_eq] at stored
  unfold deleteToEnd
  rw [stored]
  apply good.edited
  · refine ⟨(flat w.after ++ nul :: rest).tail, ?_⟩
    simp [Zipper.contents, Zipper.cutAfter]
  · exact store_length stored
  · exact pos_eq
  · simp [Zipper.contents, Zipper.cutAfter, pos_eq]

theorem clearScreen_spec (good : Good mlmode prompt w l) :
    Leaves mlmode prompt w l (clearScreen mlmode l) :=
  leaves_refreshLine (good.represents.redrawn rfl) (good.drawable.redrawn rfl) ⟨rfl, rfl⟩

/-- `CTRL_T` exchanges bytes; these are characters where both characters are ASCII. -/
theorem transposeChars_spec (good : Good mlmode prompt w l)
    (single : ∀ a ∈ w.before.head?, ∀ b ∈ w.after.head?, a.size = 1 ∧ b.size = 1) :
    Leaves mlmode prompt w.transpose l (transposeChars mlmode l) := by
  have pos_eq := good.represents.pos_eq
  have len_eq := good.represents.len_eq
  rw [length_contents] at len_eq
  obtain ⟨rest, split⟩ := good.represents.split
  obtain ⟨before, after⟩ := w
  unfold transposeChars
  match before, after with
  | [], after =>
    rw [if_neg (by simp [pos_eq])]
    exact good.leaves
  | a :: left, [] =>
    rw [if_neg (by simp [pos_eq, len_eq])]
    exact good.leaves
  | a :: left, b :: right =>
    change l.pos = (flat (a :: left).reverse).length at pos_eq
    change l.len = (flat (a :: left).reverse).length + (flat (b :: right)).length at len_eq
    obtain ⟨one, one'⟩ := single a rfl b rfl
    have bytes_a : a.bytes = [a.lead] := by
      rw [CodedChar.bytes, a.size_eq_one.mp one]
    have bytes_b : b.bytes = [b.lead] := by
      rw [CodedChar.bytes, b.size_eq_one.mp one']
    have place : l.pos = (flat left.reverse ++ [a.lead]).length := by
      rw [pos_eq, List.reverse_cons, flat_append, flat_cons, bytes_a]
      rfl
    have cut : l.buf = flat left.reverse ++ a.lead :: b.lead :: (flat right ++ nul :: rest) := by
      rw [split]
      simp [bytes_a, bytes_b]
    have back : l.pos - 1 = (flat left.reverse).length := by
      rw [place, List.length_append, List.length_singleton, Nat.add_sub_cancel]
    have aux := load_mid (flat left.reverse) [a.lead] ([b.lead] ++ (flat right ++ nul :: rest))
    have here := load_mid (flat left.reverse ++ [a.lead]) [b.lead] (flat right ++ nul :: rest)
    have first := store_at (flat left.reverse)
      ([a.lead] ++ ([b.lead] ++ (flat right ++ nul :: rest))) [b.lead] (by simp)
    have second := store_at (flat left.reverse ++ [b.lead])
      ([b.lead] ++ (flat right ++ nul :: rest)) [a.lead] (by simp)
    have far : (flat left.reverse ++ [b.lead]).length = (flat left.reverse ++ [a.lead]).length := by
      simp
    rw [far, List.append_assoc] at second
    rw [List.append_assoc] at here
    simp only [List.length_singleton, ← back, ← place, List.singleton_append,
      List.drop_succ_cons, List.drop_zero, List.append_assoc] at aux here first second
    rw [← cut] at aux here first
    have total : l.len = l.pos + 1 + (flat right).length := by
      rw [len_eq, ← pos_eq, flat_cons, bytes_b, List.length_append, List.length_singleton,
        Nat.add_assoc]
    have inside : 0 < l.pos ∧ l.pos < l.len := by
      have : l.pos = (flat left.reverse).length + 1 := by
        rw [place, List.length_append, List.length_singleton]
      omega
    have line : flat left.reverse ++ b.lead :: a.lead :: (flat right ++ nul :: rest) =
        flat (left.reverse ++ b :: a :: right) ++ nul :: rest := by
      simp [bytes_a, bytes_b]
    rw [if_pos inside]
    simp only [Option.bind_eq_bind, aux, here, first, second, Option.bind_some]
    -- either way the line is `left.reverse ++ b :: a :: right`
    cases right with
    | nil =>
      have last : l.pos = l.len - 1 := by
        simp only [flat_nil, List.length_nil] at total
        omega
      rw [if_neg (by omega)]
      apply good.edited
      · exact ⟨rest, by rw [line]; simp [Zipper.transpose, Zipper.contents]⟩
      · exact (store_length second).trans (store_length first)
      · simp [Zipper.transpose, place, bytes_b]
      · rw [len_eq]
        simp [Zipper.transpose, Zipper.contents, bytes_a, bytes_b]
    | cons d right =>
      have more := d.size_pos
      have past : l.pos ≠ l.len - 1 := by
        simp only [flat_cons, List.length_append, CodedChar.length_bytes] at total
        omega
      rw [if_pos past]
      apply good.edited
      · exact ⟨rest, by rw [line]; simp [Zipper.transpose, Zipper.contents]⟩
      · exact (store_length second).trans (store_length first)
      · simp [Zipper.transpose, place, bytes_a, bytes_b]
      · rw [len_eq]
        simp [Zipper.transpose, Zipper.contents, bytes_a, bytes_b]
        omega

end LineEdits
