import Serene.LineDrawing

/-!
# What the drawing functions draw

On texts in the shape of UTF-8 the loops of the drawing functions end. In the
single line mode, with a prompt that leaves more than two columns, what is shown
is the prompt and a piece of the line around the cursor that fits the terminal.
-/

namespace LineColumns

open ByteClasses UnicodeTables Utf8Texts TerminalText MemoryBlocks LineDrawing Zippers

variable {t u : Text} {c : CodedChar} {x y z : Bytes} {len : Nat}

def width (c : CodedChar) : Nat := charWidth c.code

theorem width_le (c : CodedChar) : width c ≤ 2 := by
  unfold width charWidth
  split_ifs <;> omega

theorem width_joining (rides : joins c = true) : width c = 0 := if_pos rides

theorem ansi_facts (b : UInt8) : 0x80 ≤ b → b ≠ 27 ∧ b ≠ 91 ∧ ansiFinal b = false := by
  revert b
  apply forall_byte
  decide +kernel

theorem final_ascii (b : UInt8) : ansiFinal b = true → b < 0x80 := by
  revert b
  apply forall_byte
  decide +kernel

theorem isAnsiEscape_other {a b : UInt8} (rest : Bytes) (other : ¬(a = 27 ∧ b = 91)) :
    isAnsiEscape (a :: b :: rest) = none := by
  unfold isAnsiEscape
  split
  next same =>
    simp only [List.cons.injEq] at same
    exact absurd ⟨same.1, same.2.1⟩ other
  next => rfl

/-- Bytes outside ASCII neither begin nor end an escape sequence. -/
theorem isAnsiEscape_append (plain : ∀ b ∈ y, 0x80 ≤ b) :
    isAnsiEscape (x ++ y) = isAnsiEscape x := by
  have other (b : UInt8) (mem : b ∈ y) := ansi_facts b (plain b mem)
  match x with
  | [] =>
    cases y with
    | nil => rfl
    | cons b y => simp [isAnsiEscape, (other b (by simp)).1]
  | [a] =>
    cases y with
    | nil => rfl
    | cons b y => simp [isAnsiEscape, (other b (by simp)).2.1]
  | a :: b :: rest =>
    have none : y.findIdx? ansiFinal = none := by
      apply List.findIdx?_eq_none_iff.mpr
      intro b mem
      exact (other b mem).2.2
    rw [List.cons_append, List.cons_append]
    by_cases opens : a = 27 ∧ b = 91
    · obtain ⟨rfl, rfl⟩ := opens
      simp [isAnsiEscape, List.findIdx?_append, none]
    · rw [isAnsiEscape_other _ opens, isAnsiEscape_other _ opens]

/-- An escape sequence at the front of a text is a piece of the text. -/
theorem escape_text (found : isAnsiEscape (flat t) = some len) :
    ∃ e rest, t = e ++ rest ∧ (flat e).length = len ∧ e ≠ [] := by
  unfold isAnsiEscape at found
  split at found
  next more whole =>
    obtain ⟨i, first, rfl⟩ := Option.map_eq_some_iff.mp found
    obtain ⟨inside, final⟩ := List.findIdx?_eq_some_iff_getElem.mp first
    have ascii : more[i] < 0x80 := final_ascii _ final.1
    have cut : flat t = (27 :: 91 :: more.take i) ++ more[i] :: more.drop (i + 1) := by
      rw [whole]
      simp
    obtain ⟨before, c, after, parts, front, last, -⟩ := boundary_ascii cut ascii
    refine ⟨before ++ [c], after, by simp [parts], ?_, by simp⟩
    simp only [flat_append, front, flat_cons, last, flat_nil, List.length_append,
      List.length_cons, List.length_take, List.length_nil]
    omega
  next => cases found

/-- A text is read an escape sequence or a character at a time. -/
theorem text_induction {P : Text → Prop} (nil : P [])
    (escape : ∀ e rest, e ≠ [] → isAnsiEscape (flat (e ++ rest)) = some (flat e).length →
      P rest → P (e ++ rest))
    (char : ∀ c rest, isAnsiEscape (flat (c :: rest)) = none → P rest → P (c :: rest))
    (t : Text) : P t := by
  induction length : t.length using Nat.strongRecOn generalizing t with
  | ind n ih =>
    cases t with
    | nil => exact nil
    | cons c rest =>
      cases found : isAnsiEscape (flat (c :: rest)) with
      | none => exact char c rest found (ih rest.length (by simp [← length]) rest rfl)
      | some len =>
        obtain ⟨e, more, parts, size, some⟩ := escape_text found
        have shorter : more.length < n := by
          have := List.length_pos_of_ne_nil some
          rw [parts, List.length_append] at length
          omega
        rw [parts, ← size] at found
        rw [parts]
        exact escape e more some found (ih more.length shorter more rfl)

@[simp] theorem unicodeColumnPos_nil : unicodeColumnPos [] = some 0 := by
  rw [unicodeColumnPos, dif_neg (by simp)]

theorem unicodeColumnPos_escape {e rest : Text}
    (found : isAnsiEscape (flat (e ++ rest)) = some (flat e).length) :
    unicodeColumnPos (flat (e ++ rest)) = unicodeColumnPos (flat rest) := by
  rw [unicodeColumnPos, dif_pos (isAnsiEscape_pos found).2]
  split
  next len other =>
    cases found.symm.trans other
    rw [flat_append, List.drop_left]
  next other => rw [found] at other; cases other

theorem unicodeColumnPos_cons (plain : isAnsiEscape (flat (c :: t)) = none) :
    unicodeColumnPos (flat (c :: t)) = (unicodeColumnPos (flat t)).map (width c + ·) := by
  have positive := c.size_pos
  have enough : c.size ≤ (flat (c :: t)).length := by simp
  have code := unicodeUTF8CharToCodePoint_spec c (flat t) enough
  obtain ⟨n, size⟩ : ∃ n, c.size = n + 1 := ⟨c.size - 1, by omega⟩
  have rest : (flat (c :: t)).drop (n + 1) = flat t := by
    rw [flat_cons, ← size, ← c.length_bytes, List.drop_left]
  rw [unicodeColumnPos, dif_pos (by omega)]
  split
  next len other => rw [plain] at other; cases other
  next =>
    change unicodeUTF8CharToCodePoint (flat (c :: t)) _ = _ at code
    rw [code, size]
    simp only [rest]
    rfl

/-- The loop ends, with at most two columns for each character. -/
theorem unicodeColumnPos_total (t : Text) :
    ∃ w, unicodeColumnPos (flat t) = some w ∧ w ≤ 2 * t.length := by
  induction t using text_induction with
  | nil => exact ⟨0, unicodeColumnPos_nil, Nat.zero_le _⟩
  | escape e rest some found ih =>
    obtain ⟨w, ran, le⟩ := ih
    refine ⟨w, (unicodeColumnPos_escape found).trans ran, ?_⟩
    rw [List.length_append]
    omega
  | char c rest plain ih =>
    obtain ⟨w, ran, le⟩ := ih
    refine ⟨width c + w, by rw [unicodeColumnPos_cons plain, ran]; rfl, ?_⟩
    have := width_le c
    rw [List.length_cons]
    omega

theorem joining_high (rides : joins c = true) : ∀ b ∈ c.bytes, 0x80 ≤ b := by
  intro b mem
  by_cases low : c.lead < 0x80
  · -- an ASCII byte is its own code point, below the combining ones
    have code : c.code < 0x300 := by
      have := c.lead.toNat_lt
      simp only [CodedChar.code, c.tails_of_lead_lt low, List.foldl_nil, CodedChar.payload,
        if_pos low]
      omega
    rw [joins, not_combining_below code] at rides
    cases rides
  · rcases List.mem_cons.mp mem with rfl | later
    · exact UInt8.not_lt.mp low
    · have cont := c.mem_tails later
      simp only [isContinuation, Bool.and_eq_true, decide_eq_true_eq] at cont
      exact cont.1

theorem joining_flat_high (ride : ∀ c ∈ u, joins c = true) : ∀ b ∈ flat u, 0x80 ≤ b := by
  intro b mem
  obtain ⟨c, member, inside⟩ := List.mem_flatMap.mp mem
  exact joining_high (ride c member) b inside

/-- Combining characters at the end of a text take no columns. -/
theorem unicodeColumnPos_append (t : Text) (ride : ∀ c ∈ u, joins c = true) :
    unicodeColumnPos (flat (t ++ u)) = unicodeColumnPos (flat t) := by
  have same (s : Text) : isAnsiEscape (flat (s ++ u)) = isAnsiEscape (flat s) := by
    rw [flat_append]
    exact isAnsiEscape_append (joining_flat_high ride)
  induction t using text_induction with
  | nil =>
    clear same
    induction u with
    | nil => rfl
    | cons c u ih =>
      have plain : isAnsiEscape (flat (c :: u)) = none := by
        exact (isAnsiEscape_append (x := []) (joining_flat_high ride)).trans rfl
      have rest := ih fun d mem => ride d (List.mem_cons_of_mem c mem)
      rw [List.nil_append] at rest ⊢
      rw [unicodeColumnPos_cons plain, rest, flat_nil, unicodeColumnPos_nil,
        width_joining (ride c List.mem_cons_self)]
      rfl
  | escape e rest some found ih =>
    have found' := (same (e ++ rest)).trans found
    rw [List.append_assoc] at found' ⊢
    rw [unicodeColumnPos_escape found', unicodeColumnPos_escape found, ih]
  | char c rest plain ih =>
    have plain' := (same (c :: rest)).trans plain
    rw [List.cons_append] at plain' ⊢
    rw [unicodeColumnPos_cons plain', unicodeColumnPos_cons plain, ih]

def columns (t : Text) : Nat := (unicodeColumnPos (flat t)).getD 0

theorem unicodeColumnPos_flat (t : Text) : unicodeColumnPos (flat t) = some (columns t) := by
  obtain ⟨w, ran, -⟩ := unicodeColumnPos_total t
  rw [columns, ran]
  rfl

@[simp] theorem columns_nil : columns [] = 0 := by simp [columns]

theorem columns_append (t : Text) (ride : ∀ c ∈ u, joins c = true) :
    columns (t ++ u) = columns t := by
  rw [columns, unicodeColumnPos_append t ride, columns]

theorem columns_cluster (c : CodedChar) (ride : ∀ d ∈ u, joins d = true) :
    columns (c :: u) ≤ 2 := by
  obtain ⟨w, ran, le⟩ := unicodeColumnPos_total [c]
  rw [← List.singleton_append, columns_append [c] ride, columns, ran]
  exact le

/-- The end of a text that is left when its front is dropped, and no cluster more than that. -/
theorem dropLeft_spec {pcolwid cols : Nat} (room : pcolwid + 2 < cols) (before after : Text)
    (rest : Bytes) :
    ∃ hidden shown, before = hidden ++ shown ∧
      (pcolwid + columns before < cols → hidden = []) ∧
      (hidden = [] ∨ ∃ init c ride, hidden = init ++ c :: ride ∧ (∀ d ∈ ride, joins d = true) ∧
        cols ≤ pcolwid + columns (c :: ride ++ shown)) ∧
      pcolwid + columns shown < cols ∧
      dropLeft pcolwid cols (flat before ++ (flat after ++ rest))
        (flat (before ++ after)).length (flat before).length =
      some (flat shown ++ (flat after ++ rest), (flat (shown ++ after)).length,
        (flat shown).length) := by
  induction size : before.length using Nat.strongRecOn generalizing before with
  | ind n ih =>
    rw [dropLeft, load_front]
    simp only [Option.bind_eq_bind, Option.bind_some, unicodeColumnPos_flat]
    by_cases tooWide : cols ≤ pcolwid + columns before
    · rw [if_pos tooWide]
      cases before with
      | nil =>
        rw [columns_nil] at tooWide
        omega
      | cons c more =>
        -- a cluster is at most two columns wide, so more than the first is before the cursor
        have next : more.dropWhile joins ≠ [] := by
          intro none
          have := columns_cluster c (List.dropWhile_eq_nil_iff.mp none)
          omega
        have joined : cluster (c :: more ++ after) = c :: more.takeWhile joins := by
          obtain ⟨head, tail, some⟩ := List.exists_cons_of_ne_nil next
          have stop := List.head_dropWhile_not joins next
          simp only [some, List.head_cons] at stop
          rw [List.cons_append, cluster,
            ← List.takeWhile_append_dropWhile (p := joins) (l := more), some, List.append_assoc,
            List.takeWhile_append_of_pos (fun _ => List.mem_takeWhile_imp),
            List.takeWhile_append_of_pos (fun _ => List.mem_takeWhile_imp)]
          simp [stop]
        have whole := List.takeWhile_append_dropWhile (p := joins) (l := more)
        have len := unicodeGraphemeLen_spec [] rest (c :: more ++ after)
        rw [joined] at len
        have cut : c :: more = (c :: more.takeWhile joins) ++ more.dropWhile joins := by
          rw [List.cons_append, whole]
        have shorter : (more.dropWhile joins).length < n := by
          have := congrArg List.length whole
          rw [List.length_append] at this
          rw [List.length_cons] at size
          omega
        obtain ⟨hidden, shown, parts, -, least, fits, ran⟩ :=
          ih _ shorter (more.dropWhile joins) rfl
        refine ⟨c :: more.takeWhile joins ++ hidden, shown, ?_,
          fun narrow => absurd narrow (by omega), Or.inr ?_, fits, ?_⟩
        · rw [List.append_assoc, ← parts]
          exact cut
        · rcases least with rfl | ⟨init, d, ride, rfl, joining, wide⟩
          · refine ⟨[], c, more.takeWhile joins, by simp, fun _ => List.mem_takeWhile_imp, ?_⟩
            rw [List.nil_append] at parts
            rw [← parts, ← cut]
            exact tooWide
          · exact ⟨c :: more.takeWhile joins ++ init, d, ride, by simp, joining, wide⟩
        · have positive : 0 < (flat (c :: more.takeWhile joins)).length := by
            simp [CodedChar.bytes]
          generalize c :: more.takeWhile joins = first at *
          generalize more.dropWhile joins = others at *
          have buf : flat (c :: more) ++ (flat after ++ rest) =
              flat first ++ (flat others ++ (flat after ++ rest)) := by
            rw [cut, flat_append, List.append_assoc]
          have total : (flat (c :: more ++ after)).length =
              (flat first).length + (flat (others ++ after)).length := by
            rw [cut, List.append_assoc, flat_append, List.length_append]
          have place : (flat (c :: more)).length = (flat first).length + (flat others).length := by
            rw [cut, flat_append, List.length_append]
          have len' : unicodeGraphemeLen (flat (c :: more) ++ (flat after ++ rest))
              (flat (c :: more ++ after)).length 0 = some (flat first).length := by
            simpa using len
          rw [len', Option.bind_some, dif_pos ⟨positive, by omega⟩, buf, List.drop_left, total,
            place, Nat.add_sub_cancel_left, Nat.add_sub_cancel_left]
          exact ran
    · rw [if_neg tooWide]
      exact ⟨[], before, rfl, fun _ => rfl, Or.inl rfl, by omega, rfl⟩

/-- The front of a text that is left when its end is dropped, and no cluster more than that. -/
theorem dropRight_spec {pcolwid cols : Nat} {before : Text}
    (fits : pcolwid + columns before < cols) (after : Text) (rest : Bytes) :
    ∃ shown hidden, after = shown ++ hidden ∧
      (pcolwid + columns (before ++ after) ≤ cols → hidden = []) ∧
      (hidden = [] ∨ ∃ c ride more, hidden = c :: ride ++ more ∧ (∀ d ∈ ride, joins d = true) ∧
        cols < pcolwid + columns (before ++ shown ++ c :: ride)) ∧
      pcolwid + columns (before ++ shown) ≤ cols ∧
      dropRight pcolwid cols (flat (before ++ after) ++ rest) (flat (before ++ after)).length =
        some (flat (before ++ shown)).length := by
  induction size : after.length using Nat.strongRecOn generalizing after rest with
  | ind n ih =>
    rw [dropRight, load_front]
    simp only [Option.bind_eq_bind, Option.bind_some, unicodeColumnPos_flat]
    by_cases tooWide : cols < pcolwid + columns (before ++ after)
    · rw [if_pos tooWide]
      -- combining characters take no columns, so what is behind the cursor has another one
      have whole := List.takeWhile_append_dropWhile (p := joins) (l := after.reverse)
      cases found : after.reverse.dropWhile joins with
      | nil =>
        have all : ∀ c ∈ after, joins c = true := by
          intro c mem
          exact List.dropWhile_eq_nil_iff.mp found c (List.mem_reverse.mpr mem)
        rw [columns_append before all] at tooWide
        omega
      | cons head more =>
        rw [found] at whole
        have cut : after = more.reverse ++ head :: (after.reverse.takeWhile joins).reverse := by
          have back := congrArg List.reverse whole
          simpa using back.symm
        have last : clusterBefore (before ++ after).reverse =
            head :: (after.reverse.takeWhile joins).reverse := by
          have stop : joins head = false := by
            have := List.head_dropWhile_not joins (l := after.reverse) (by simp [found])
            simpa [found] using this
          have ride : ∀ c ∈ after.reverse.takeWhile joins, joins c = true :=
            fun _ => List.mem_takeWhile_imp
          unfold clusterBefore
          rw [List.reverse_append, ← whole, List.append_assoc, List.dropWhile_append_of_pos ride,
            List.takeWhile_append_of_pos ride, List.cons_append, List.dropWhile_cons_of_neg]
          · simp [stop, whole]
          · simp [stop]
        have len := unicodePrevGraphemeLen_spec (before ++ after).reverse rest
        rw [last, List.reverse_reverse] at len
        have positive : 0 < (flat (head :: (after.reverse.takeWhile joins).reverse)).length := by
          simp [CodedChar.bytes]
        have shorter : more.reverse.length < n := by
          rw [← size, cut, List.length_append, List.length_cons]
          omega
        have ride : ∀ c ∈ (after.reverse.takeWhile joins).reverse, joins c = true := by
          intro c mem
          exact List.mem_takeWhile_imp (List.mem_reverse.mp mem)
        clear last found whole
        generalize (after.reverse.takeWhile joins).reverse = riding at *
        obtain ⟨shown, hidden, parts, -, least, narrow, ran⟩ :=
          ih _ shorter more.reverse (flat (head :: riding) ++ rest) rfl
        have least' : ∃ c ride more, hidden ++ head :: riding = c :: ride ++ more ∧
            (∀ d ∈ ride, joins d = true) ∧
            cols < pcolwid + columns (before ++ shown ++ c :: ride) := by
          rcases least with rfl | ⟨d, ride', others, rfl, joining, wide⟩
          · refine ⟨head, riding, [], by simp, ride, ?_⟩
            rw [List.append_nil] at parts
            rw [← parts, List.append_assoc, ← cut]
            exact tooWide
          · exact ⟨d, ride', others ++ head :: riding, by simp, joining, wide⟩
        generalize head :: riding = cluster at *
        have buf : flat (before ++ after) ++ rest =
            flat (before ++ more.reverse) ++ (flat cluster ++ rest) := by
          rw [cut, ← List.append_assoc, flat_append, List.append_assoc]
        have total : (flat (before ++ after)).length =
            (flat (before ++ more.reverse)).length + (flat cluster).length := by
          rw [cut, ← List.append_assoc, flat_append, List.length_append]
        refine ⟨shown, hidden ++ cluster, ?_, fun fits => absurd fits (by omega), Or.inr least',
          narrow, ?_⟩
        · rw [cut, parts, List.append_assoc]
        · rw [len, Option.bind_some, dif_pos ⟨positive, by omega⟩, buf, total, Nat.add_sub_cancel]
          exact ran
    · rw [if_neg tooWide]
      exact ⟨after, [], by simp, fun _ => rfl, Or.inl rfl, by omega, rfl⟩

/-- The memory holds the line and the terminator behind it, and the cursor is at the end of a
character. -/
structure Represents (z : Zipper CodedChar) (l : LinenoiseState) : Prop where
  held : ∃ rest, l.buf = flat z.contents ++ nul :: rest
  size : l.buf.length = l.buflen + 1
  pos_eq : l.pos = (flat z.before.reverse).length
  len_eq : l.len = (flat z.contents).length

/-- The prompt is a text, and in the single line mode it leaves more than two columns. -/
structure Drawable (mlmode : Bool) (prompt : Text) (l : LinenoiseState) : Prop where
  prompt_eq : l.prompt = flat prompt
  some_columns : 0 < l.cols
  room : mlmode = false → columns prompt + 2 < l.cols

/-- The states differ in what drawing changes. -/
def Redrawn (l l' : LinenoiseState) : Prop :=
  l' = { l with oldcolpos := l'.oldcolpos, maxrows := l'.maxrows, out := l'.out }

variable {w : Zipper CodedChar} {l l' : LinenoiseState} {mlmode : Bool} {prompt : Text}

theorem Represents.redrawn (represents : Represents w l) (drawn : Redrawn l l') :
    Represents w l' := by
  unfold Redrawn at drawn
  rw [drawn]
  exact ⟨represents.held, represents.size, represents.pos_eq, represents.len_eq⟩

theorem Drawable.redrawn (drawable : Drawable mlmode prompt l) (drawn : Redrawn l l') :
    Drawable mlmode prompt l' := by
  unfold Redrawn at drawn
  rw [drawn]
  exact ⟨drawable.prompt_eq, drawable.some_columns, drawable.room⟩

/-- The memory, cut at the cursor and behind the line. -/
theorem Represents.split (represents : Represents w l) :
    ∃ rest, l.buf = flat w.before.reverse ++ (flat w.after ++ nul :: rest) := by
  obtain ⟨rest, held⟩ := represents.held
  refine ⟨rest, ?_⟩
  rw [held, Zipper.contents, flat_append, List.append_assoc]

theorem refreshSingleLine_spec (represents : Represents w l) (prompt_eq : l.prompt = flat prompt)
    (room : columns prompt + 2 < l.cols) :
    ∃ hidden left right hidden', w.before.reverse = hidden ++ left ∧ w.after = right ++ hidden' ∧
      (columns prompt + columns w.before.reverse < l.cols → hidden = []) ∧
      (hidden = [] ∨ ∃ init c ride, hidden = init ++ c :: ride ∧ (∀ d ∈ ride, joins d = true) ∧
        l.cols ≤ columns prompt + columns (c :: ride ++ left)) ∧
      (columns prompt + columns (left ++ w.after) ≤ l.cols → hidden' = []) ∧
      (hidden' = [] ∨ ∃ c ride more, hidden' = c :: ride ++ more ∧ (∀ d ∈ ride, joins d = true) ∧
        l.cols < columns prompt + columns (left ++ right ++ c :: ride)) ∧
      columns prompt + columns left < l.cols ∧
      columns prompt + columns (left ++ right) ≤ l.cols ∧
      refreshSingleLine l = some { l with
        out := l.out ++ (text "\r" ++ l.prompt ++ flat (left ++ right) ++ eraseToRight ++
          (text "\r" ++ csi (columns left + columns prompt : Nat) 'C'.toUInt8)) } := by
  obtain ⟨rest, split⟩ := represents.split
  obtain ⟨hidden, left, parts, front, least, fits, ran⟩ :=
    dropLeft_spec room w.before.reverse w.after (nul :: rest)
  obtain ⟨right, hidden', parts', back, least', narrow, ran'⟩ :=
    dropRight_spec fits w.after (nul :: rest)
  refine ⟨hidden, left, right, hidden', parts, parts', front, least, back, least', fits, narrow,
    ?_⟩
  have buf : flat left ++ (flat w.after ++ nul :: rest) =
      flat (left ++ right) ++ (flat hidden' ++ nul :: rest) := by
    rw [parts', flat_append, flat_append, List.append_assoc, List.append_assoc]
  have len : l.len = (flat (w.before.reverse ++ w.after)).length := represents.len_eq
  have same : flat (left ++ w.after) ++ nul :: rest =
      flat left ++ (flat w.after ++ nul :: rest) := by
    rw [flat_append, List.append_assoc]
  rw [same] at ran'
  unfold refreshSingleLine
  rw [prompt_eq, unicodeColumnPos_flat, split, len, represents.pos_eq]
  simp only [Option.bind_eq_bind, Option.bind_some, ran, ran']
  rw [load_front, Option.bind_some, buf, load_front]
  simp only [Option.bind_some, unicodeColumnPos_flat]
  rfl

theorem columnPosLoop_total (x : Bytes) (t : Text) (pos cols ret colwid : Nat) :
    ∃ n, columnPosLoop (x ++ flat t) pos cols x.length ret colwid = some n := by
  induction t generalizing x ret colwid with
  | nil => exact ⟨ret, by rw [columnPosLoop, dif_neg (by simp)]⟩
  | cons c t ih =>
    have positive := c.size_pos
    have enough : c.size ≤ (x ++ flat (c :: t)).length - x.length := by simp
    have code := unicodeUTF8CharToCodePoint_spec c (flat t) enough
    have inside : x.length < (x ++ flat (c :: t)).length := by
      simp only [flat_cons, List.length_append, CodedChar.length_bytes]
      omega
    rw [columnPosLoop, dif_pos inside, List.drop_left, flat_cons]
    rw [flat_cons] at code
    rw [code]
    simp only
    generalize charWidth c.code = wid
    generalize (if cols < colwid + wid then _ else _ : Nat × Nat) = next
    obtain ⟨ret', colwid'⟩ := next
    by_cases past : pos ≤ x.length
    · exact ⟨ret', if_pos past⟩
    · obtain ⟨n, ran⟩ := ih (x ++ c.bytes) (ret' + wid) colwid'
      refine ⟨n, ?_⟩
      rw [if_neg past, dif_pos positive]
      simpa using ran

theorem refreshMultiLine_total (represents : Represents w l) (prompt_eq : l.prompt = flat prompt)
    (some_columns : 0 < l.cols) : ∃ l', refreshMultiLine l = some l' ∧ Redrawn l l' := by
  obtain ⟨rest, held⟩ := represents.held
  have loaded : load l.buf 0 l.len = some (flat w.contents) := by
    rw [held, represents.len_eq, load_front]
  obtain ⟨all, whole⟩ := columnPosLoop_total [] w.contents l.len l.cols 0 (columns prompt)
  obtain ⟨part, here⟩ := columnPosLoop_total [] w.contents l.pos l.cols 0 (columns prompt)
  unfold refreshMultiLine unicodeColumnPosForMultiLine
  rw [prompt_eq, unicodeColumnPos_flat, loaded]
  simp only [List.nil_append, List.length_nil] at whole here
  simp only [Option.bind_eq_bind, Option.bind_some, whole, here,
    if_neg (Nat.pos_iff_ne_zero.mp some_columns)]
  exact ⟨_, rfl, by rw [Redrawn, ← prompt_eq]⟩

/-- Drawing ends and leaves the line alone. -/
theorem refreshLine_total (represents : Represents w l) (drawable : Drawable mlmode prompt l) :
    ∃ l', refreshLine mlmode l = some l' ∧ Redrawn l l' := by
  cases mlmode with
  | true => exact refreshMultiLine_total represents drawable.prompt_eq drawable.some_columns
  | false =>
    obtain ⟨_, _, _, _, _, _, _, _, _, _, _, _, drawn⟩ :=
      refreshSingleLine_spec represents drawable.prompt_eq (drawable.room rfl)
    exact ⟨_, drawn, rfl⟩

end LineColumns
