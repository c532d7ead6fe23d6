import Serene.ReaderRefinement

/-!
# Reading in pieces

Between tokens at the top level the scanner is a fresh one that has some nodes
already. What it does from there is what a fresh scanner does, up to locations
and with those nodes in front: a simulation.
-/

namespace ReadingInPieces

open ByteClasses Locations AstNodes Incremental ReaderModel Scanner ReaderRefinement

/-- A mode without the location it recorded. -/
def bareMode : Mode → Mode
  | .between => .between
  | .symbol lexeme => .symbol lexeme
  | .number _ lexeme neg floatNum => .number {} lexeme neg floatNum

/-- The sequences being read agree up to locations, the outermost with `base` in front. -/
inductive Behind (base : List (Node Unit)) :
    List (Location × Ast) → Ast → List (Location × Ast) → Ast → Prop where
  | top {items items' : Ast} (same : bareAll items' = base ++ bareAll items) :
      Behind base [] items [] items'
  | inside {start start' : Location} {outer outer' items items' : Ast}
      {opened opened' : List (Location × Ast)} (same : bareAll items' = bareAll items)
      (around : Behind base opened outer opened' outer') :
      Behind base ((start, outer) :: opened) items ((start', outer') :: opened') items'

structure Alike (base : List (Node Unit)) (s t : Scan) : Prop where
  mode : bareMode s.mode = bareMode t.mode
  sequences : Behind base s.opened s.items t.opened t.items

def SameType (e e' : Error) : Prop := e'.type = e.type

variable {ns : Bytes} {base : List (Node Unit)} {s t : Scan} {c : UInt8}

theorem behind_put {opened opened' : List (Location × Ast)} {items items' : Ast}
    {node node' : Node LocationRange} (same : node'.bare = node.bare)
    (behind : Behind base opened items opened' items') :
    Behind base opened (items ++ [node]) opened' (items' ++ [node']) := by
  cases behind with
  | top agree =>
    refine .top ?_
    simp only [bareAll, List.map_append] at agree ⊢
    simp [agree, same]
  | inside agree around =>
    refine .inside ?_ around
    simp only [bareAll, List.map_append] at agree ⊢
    simp [agree, same]

theorem bare_list (loc : LocationRange) (elements : Ast) :
    (Node.list loc elements).bare = .list () (bareAll elements) := by
  rw [Node.bare, Node.map_list]
  rfl

theorem flush_alike (ns : Bytes) (alike : Alike base s t) :
    Alike base (s.flush ns) (t.flush ns) := by
  obtain ⟨mode, sequences⟩ := alike
  refine ⟨by rw [flush_mode, flush_mode], ?_⟩
  cases left : s.mode <;> cases right : t.mode <;> rw [left, right] at mode <;> cases mode
  · rwa [flush_between left, flush_between right]
  · simp only [Scan.flush, left, right]
    refine behind_put ?_ sequences
    rw [Node.bare, Node.map_make, Node.map_make]
  · simp only [Scan.flush, left, right]
    exact behind_put rfl sequences

/-- The end of a list, or the error where none is open. -/
theorem close_alike (tracker tracker' : Tracker)
    (sequences : Behind base s.opened s.items t.opened t.items) :
    Related SameType (Alike base) (s.close tracker) (t.close tracker') := by
  obtain ⟨_, opened, items, _⟩ := s
  obtain ⟨_, opened', items', _⟩ := t
  cases sequences with
  | top _ => exact .error rfl
  | inside same around =>
    refine .ok ⟨rfl, behind_put ?_ around⟩
    rw [bare_list, bare_list, same]

theorem start_alike (sequences : Behind base s.opened s.items t.opened t.items) (c : UInt8) :
    Related SameType (Alike base) (s.start c) (t.start c) := by
  simp only [Scan.start]
  split
  · exact .ok ⟨rfl, sequences⟩
  · split
    · exact .ok ⟨rfl, .inside rfl sequences⟩
    · split
      · exact close_alike _ _ sequences
      · split
        · exact .ok ⟨rfl, sequences⟩
        · split
          · exact .ok ⟨rfl, sequences⟩
          · exact .error rfl

theorem step_alike (alike : Alike base s t) (c : UInt8) :
    Related SameType (Alike base) (s.step ns c) (t.step ns c) := by
  have flushed := flush_alike ns alike
  obtain ⟨mode, sequences⟩ := alike
  cases left : s.mode <;> cases right : t.mode <;> rw [left, right] at mode <;> cases mode
  · rw [step_between left, step_between right]
    exact start_alike sequences c
  · simp only [Scan.step, left, right]
    split
    · exact .ok ⟨rfl, sequences⟩
    · split
      · exact .ok ⟨rfl, sequences⟩
      · exact start_alike flushed.sequences c
  · simp only [Scan.step, left, right]
    split
    · split
      · exact .error rfl
      · exact .ok ⟨rfl, sequences⟩
    · split
      · exact .error rfl
      · exact start_alike flushed.sequences c

/-- A successful answer has the nodes of `base` and then the others. -/
def Appended (base : List (Node Unit)) (ast ast' : Ast) : Prop :=
  bareAll ast' = base ++ bareAll ast

theorem finish_alike (alike : Alike base s t) :
    Related SameType (Appended base) (s.finish ns) (t.finish ns) := by
  obtain ⟨-, sequences⟩ := flush_alike ns alike
  rw [flush_opened, flush_opened] at sequences
  simp only [Scan.finish]
  generalize s.opened = opened at sequences ⊢
  generalize t.opened = opened' at sequences ⊢
  cases sequences with
  | top same => exact .ok same
  | inside _ _ => exact .error rfl

/-- The scanner with nodes in front simulates the scanner without. -/
def shifted (ns : Bytes) (base : List (Node Unit)) : Simulation (scanner ns) (scanner ns) where
  states := Alike base
  faults := SameType
  answers := Appended base
  step := step_alike
  finish := finish_alike

theorem run_shifted (items : Ast) (filename : Option Bytes) (tracker : Tracker) (u : Bytes) :
    Related SameType (Appended (bareAll items)) ((scanner ns).run (initial ns filename) u)
      ((scanner ns).run ⟨tracker, [], items, .between⟩ u) := by
  have alike : Alike (bareAll items) (initial ns filename) ⟨tracker, [], items, .between⟩ :=
    ⟨rfl, .top (List.append_nil _).symm⟩
  exact (shifted ns (bareAll items)).run alike u

theorem run_shifted_ok (items : Ast) {filename : Option Bytes} {ast : Ast} {u : Bytes}
    (reads : (scanner ns).run (initial ns filename) u = .ok ast) (tracker : Tracker) :
    ∃ ast', (scanner ns).run ⟨tracker, [], items, .between⟩ u = .ok ast' ∧
      bareAll ast' = bareAll items ++ bareAll ast := by
  have related := @run_shifted ns items filename tracker u
  rw [reads] at related
  generalize (scanner ns).run ⟨tracker, [], items, .between⟩ u = result at related ⊢
  cases related with
  | ok appended => exact ⟨_, rfl, appended⟩

theorem run_shifted_error (items : Ast) {filename : Option Bytes} {e : Error} {u : Bytes}
    (fails : (scanner ns).run (initial ns filename) u = .error e) (tracker : Tracker) :
    ∃ e', (scanner ns).run ⟨tracker, [], items, .between⟩ u = .error e' ∧ e'.type = e.type := by
  have related := @run_shifted ns items filename tracker u
  rw [fails] at related
  generalize (scanner ns).run ⟨tracker, [], items, .between⟩ u = result at related ⊢
  cases related with
  | error same => exact ⟨_, rfl, same⟩

theorem body_joined {s₁ w s₂ : Bytes} (plain₁ : ∀ c ∈ s₁, isEndByte c = false)
    (spaces : ∀ c ∈ w, isspace c = true) (plain₂ : ∀ c ∈ s₂, isEndByte c = false) :
    body (s₁ ++ w ++ s₂) = s₁ ++ w ++ s₂ := by
  refine body_eq_self (List.forall_mem_append.mpr ⟨?_, plain₂⟩)
  exact List.forall_mem_append.mpr ⟨plain₁, fun c hc => (space_facts (spaces c hc)).2.2.2.1⟩

/-- A text that reads, and spaces, leave the scanner between tokens at the top level. -/
theorem run_after_text {filename : Option Bytes} {s₁ w : Bytes} {ast : Ast} (gap : w ≠ [])
    (spaces : ∀ c ∈ w, isspace c = true)
    (reads : (scanner ns).run (initial ns filename) s₁ = .ok ast) (u : Bytes) :
    ∃ tracker, (scanner ns).run (initial ns filename) (s₁ ++ w ++ u) =
      (scanner ns).run ⟨tracker, [], ast, .between⟩ u := by
  cases fed : (scanner ns).feed (initial ns filename) s₁ with
  | error e =>
    rw [Machine.run, fed] at reads
    cases reads
  | ok s' =>
    rw [Machine.run_of_feed _ fed] at reads
    cases top : s'.opened with
    | cons outer opened =>
      simp only [scanner, Scan.finish, top] at reads
      cases reads
    | nil =>
      simp only [scanner, Scan.finish, top, Except.ok.injEq] at reads
      have free : ∀ c ∈ (w ++ u).head?, ¬ Takes s' c := by
        intro c hc takes
        obtain ⟨d, w', rfl⟩ := List.exists_cons_of_ne_nil gap
        obtain rfl : d = c := Option.some.inj hc
        have noIdent := (space_facts (spaces d List.mem_cons_self)).1
        rw [takes_ident takes] at noIdent
        cases noIdent
      have between : s'.flush ns = (s'.flush ns).reading s'.tracker .between := by
        have mode := flush_mode ns s'
        have tracker := flush_tracker ns s'
        generalize s'.flush ns = flushed at mode tracker ⊢
        obtain ⟨_, _, _, _⟩ := flushed
        cases mode
        cases tracker
        rfl
      refine ⟨s'.tracker.steps w, ?_⟩
      rw [List.append_assoc, Machine.run_append_ok _ fed, run_flush free, between,
        Machine.run_append_ok _ (feed_spaces _ _ spaces), Scan.reading, flush_opened, top, reads]

section Pieces
variable {filename₁ filename₂ : Option Bytes} {s₁ w s₂ : Bytes} {ast₁ : Ast}

/-- Up to locations it does not matter from which file a text is read. -/
theorem reads_elsewhere (filename : Option Bytes) (plain₁ : ∀ c ∈ s₁, isEndByte c = false)
    (reads₁ : ReadsAs s₁ ns filename₁ ast₁) :
    ∃ ast, ReadsAs s₁ ns filename ast ∧ bareAll ast = bareAll ast₁ := by
  rw [readsAs_run, body_eq_self plain₁] at reads₁
  obtain ⟨ast, here, same⟩ := run_shifted_ok [] reads₁ (initial ns filename).tracker
  exact ⟨ast, by rw [readsAs_run, body_eq_self plain₁]; exact here, same⟩

/-- Reading two texts at once: the second is read by a scanner with the nodes of the first. -/
theorem run_joined (filename : Option Bytes) (plain₁ : ∀ c ∈ s₁, isEndByte c = false) (gap : w ≠ [])
    (spaces : ∀ c ∈ w, isspace c = true) (plain₂ : ∀ c ∈ s₂, isEndByte c = false)
    (reads₁ : ReadsAs s₁ ns filename₁ ast₁) :
    ∃ tracker items, bareAll items = bareAll ast₁ ∧
      (scanner ns).run (initial ns filename) (body (s₁ ++ w ++ s₂)) =
        (scanner ns).run ⟨tracker, [], items, .between⟩ s₂ := by
  obtain ⟨items, here, same⟩ := reads_elsewhere filename plain₁ reads₁
  rw [readsAs_run, body_eq_self plain₁] at here
  obtain ⟨tracker, joined⟩ := run_after_text gap spaces here s₂
  exact ⟨tracker, items, same, by rw [body_joined plain₁ spaces plain₂, joined]⟩

theorem reads_joined (filename : Option Bytes) {ast₂ : Ast}
    (plain₁ : ∀ c ∈ s₁, isEndByte c = false) (gap : w ≠ []) (spaces : ∀ c ∈ w, isspace c = true)
    (plain₂ : ∀ c ∈ s₂, isEndByte c = false) (reads₁ : ReadsAs s₁ ns filename₁ ast₁)
    (reads₂ : ReadsAs s₂ ns filename₂ ast₂) :
    ∃ ast, ReadsAs (s₁ ++ w ++ s₂) ns filename ast ∧
      bareAll ast = bareAll ast₁ ++ bareAll ast₂ := by
  obtain ⟨tracker, items, same, joined⟩ := run_joined filename plain₁ gap spaces plain₂ reads₁
  rw [readsAs_run, body_eq_self plain₂] at reads₂
  obtain ⟨ast, here, appended⟩ := run_shifted_ok items reads₂ tracker
  exact ⟨ast, readsAs_run.mpr (joined.trans here), by rw [appended, same]⟩

theorem fails_joined (filename : Option Bytes) {e : Error} (plain₁ : ∀ c ∈ s₁, isEndByte c = false)
    (gap : w ≠ []) (spaces : ∀ c ∈ w, isspace c = true) (plain₂ : ∀ c ∈ s₂, isEndByte c = false)
    (reads₁ : ReadsAs s₁ ns filename₁ ast₁) (fails₂ : FailsWith s₂ ns filename₂ e) :
    ∃ e', FailsWith (s₁ ++ w ++ s₂) ns filename e' ∧ e'.type = e.type := by
  obtain ⟨tracker, items, -, joined⟩ := run_joined filename plain₁ gap spaces plain₂ reads₁
  rw [failsWith_run, body_eq_self plain₂] at fails₂
  obtain ⟨e', here, same⟩ := run_shifted_error items fails₂ tracker
  exact ⟨e', failsWith_run.mpr (joined.trans here), same⟩

end Pieces

end ReadingInPieces
