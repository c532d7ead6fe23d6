import Serene.ReaderRefinement

/-!
# Slices of a larger memory

A `StringRef` need not be terminated, and the reader looks at the bytes behind
it: the number loop, the lookahead after a `-` and the skipping of whitespace
never compare the cursor with the size. Where the slice ends in none of these,
what is read depends on the slice alone.
-/

namespace Slices

open ByteClasses Locations AstNodes Incremental ReaderModel Scanner SealedText ReaderRefinement

/-- The slice `s` in a memory that goes on with `rest`. -/
def slice (s rest : Bytes) : StringRef := ⟨s ++ rest, s.length, by simp⟩

/-- The slice has no end byte, and reading it leaves a list open, a number unfinished, or a
`-` that a digit would make a number. -/
def Leaks (ns : Bytes) (filename : Option Bytes) (s : Bytes) : Prop :=
  (∀ c ∈ s, isEndByte c = false) ∧
    ∃ last, (scanner ns).feed (initial ns filename) s = .ok last ∧ ¬ Safe last

variable {ns s : Bytes} {filename : Option Bytes}

/-- What follows an end byte is not looked at. -/
theorem read_ended {rest : Bytes} (ended : ∃ c ∈ s, isEndByte c = true) :
    outcome (read (slice s rest) ns filename) =
      some ((scanner ns).run (initial ns filename) (body s)) := by
  have split : s ++ rest = body s ++ ((s.dropWhile fun c => !isEndByte c) ++ rest) := by
    rw [← List.append_assoc, body, List.takeWhile_append_dropWhile]
  refine read_sealed ⟨slice s rest, ns, filename⟩ split
    ⟨body_plain s, inBounds_of_le ?_, Or.inl ?_⟩
  · rw [Nat.zero_add]
    exact body_length_le s
  · obtain ⟨c, mem, isEnd⟩ := ended
    have some : s.dropWhile (fun c => !isEndByte c) ≠ [] := by
      intro none
      have all := List.dropWhile_eq_nil_iff.mp none c mem
      rw [isEnd] at all
      cases all
    obtain ⟨e, more, first⟩ := List.exists_cons_of_ne_nil some
    refine ⟨e, more ++ rest, by rw [first]; rfl, ?_⟩
    have stop := List.head?_dropWhile_not (fun c => !isEndByte c) s
    rw [first] at stop
    simpa using stop

/-- A slice that ends safely is read alone. -/
theorem read_safe {rest : Bytes} (plain : ∀ c ∈ s, isEndByte c = false)
    (safe : ∀ last, (scanner ns).feed (initial ns filename) s = .ok last → Safe last)
    (hasNul : nul ∈ rest) :
    outcome (read (slice s rest) ns filename) =
      some ((scanner ns).run (initial ns filename) s) := by
  refine read_sealed ⟨slice s rest, ns, filename⟩ rfl ⟨plain, inBounds_of_le ?_, Or.inr ?_⟩
  · exact (Nat.zero_add _).le
  · exact ⟨Nat.zero_add _, hasNul, safe⟩

/-- Bytes behind the slice are read with it where the reader does not ask for the size. -/
theorem read_past {v : Bytes} (plain : ∀ c ∈ s, isEndByte c = false)
    (plainPast : ∀ c ∈ v, isEndByte c = false)
    (past : ∀ last, (scanner ns).feed (initial ns filename) s = .ok last →
      InBounds ns s.length s.length last v) :
    outcome (read (slice s (v ++ [nul])) ns filename) =
      some ((scanner ns).run (initial ns filename) (s ++ v)) := by
  refine read_sealed ⟨slice s (v ++ [nul]), ns, filename⟩ (List.append_assoc s v [nul]).symm
    ⟨List.forall_mem_append.mpr ⟨plain, plainPast⟩, inBounds_append ?_ ?_,
      Or.inl ⟨nul, [], rfl, rfl⟩⟩
  · exact (Nat.zero_add _).le
  · intro last fed
    rw [Nat.zero_add]
    exact past last fed

theorem read_alone (plain : ∀ c ∈ s, isEndByte c = false) :
    outcome (read (slice s [nul]) ns filename) =
      some ((scanner ns).run (initial ns filename) s) := by
  have alone := @read_past ns s filename [] plain (by simp) fun _ _ => trivial
  rwa [List.append_nil] at alone

section Leaks
variable {last : Scan}

/-- In a number, or after a lone `-`. -/
def Unfinished (last : Scan) : Prop :=
  match last.mode with
  | .between => False
  | .symbol lexeme => lexeme = [minus]
  | .number .. => True

theorem not_safe (leaking : ¬ Safe last) : Unfinished last ∨ last.opened ≠ [] := by
  simp only [Safe] at leaking
  simp only [Unfinished]
  by_cases top : last.opened = []
  · left
    cases mode : last.mode with
    | between => exact absurd ⟨top, by rw [mode]; trivial⟩ leaking
    | symbol lexeme =>
      by_contra other
      exact leaking ⟨top, by rw [mode]; exact other⟩
    | number start lexeme neg floatNum => trivial
  · exact Or.inr top

/-- A digit goes on with the token. -/
theorem step_unfinished {digit : UInt8} (unfinished : Unfinished last)
    (isDigit : isdigit digit = true) :
    Continues last digit ∧ ∃ start lexeme neg floatNum,
      last.step ns digit = .ok (last.reading (last.tracker.step digit)
        (.number start lexeme neg floatNum)) := by
  have noDot := (digit_facts isDigit).2.2.2
  simp only [Unfinished] at unfinished
  simp only [Continues, Scan.step]
  cases mode : last.mode with
  | between => simp [mode] at unfinished
  | symbol lexeme =>
    simp only [mode] at unfinished
    simp only [unfinished, isDigit, and_self, if_true, true_and]
    exact ⟨_, _, _, _, rfl⟩
  | number start lexeme neg floatNum =>
    simp only [isDigit, Bool.true_or, if_true, true_or, true_and, beq_iff_eq, noDot,
      Bool.and_eq_true, false_and, if_false]
    exact ⟨_, _, _, _, rfl⟩

/-- The bytes `5a` behind an unfinished number make an error of it. -/
theorem unfinished_leaks (plain : ∀ c ∈ s, isEndByte c = false)
    (fed : (scanner ns).feed (initial ns filename) s = .ok last) (unfinished : Unfinished last) :
    ∃ e, outcome (read (slice s ([53, 97] ++ [nul])) ns filename) = some (.error e) ∧
      e.type = .invalidDigitForNumber := by
  have digit : isdigit 53 = true := rfl
  have letter : isalpha 97 = true := rfl
  obtain ⟨goesOn, start, lexeme, neg, floatNum, stepped⟩ :=
    @step_unfinished ns last 53 unfinished digit
  have failed := @step_letter ns last 97 (last.tracker.step 53) lexeme start neg floatNum rfl letter
  have past : InBounds ns s.length s.length last [53, 97] := by
    refine ⟨Or.inr (Or.inl goesOn), fun s' stepped' => ?_⟩
    obtain rfl := Except.ok.inj (stepped.symm.trans stepped')
    refine ⟨Or.inr (Or.inl (Or.inr (Or.inr letter))), fun s'' stepped'' => ?_⟩
    cases failed.symm.trans stepped''
  have plainPast : ∀ c ∈ [(53 : UInt8), 97], isEndByte c = false :=
    List.forall_mem_cons.mpr ⟨rfl, List.forall_mem_singleton.mpr rfl⟩
  have read := @read_past ns s filename [53, 97] plain plainPast
    (fun last' fed' => by rwa [Except.ok.inj (fed'.symm.trans fed)])
  have ran := (run_step stepped [97]).trans (run_fail failed [])
  exact ⟨_, read.trans (congrArg some ((Machine.run_append_ok _ fed _).trans ran)), rfl⟩

theorem finish_open {start : Location} {outer : Ast} {opened : List (Location × Ast)}
    (inList : last.opened = (start, outer) :: opened) : last.finish ns =
    .error ⟨.eofWhileScaningAList, ⟨start, (last.tracker.step nul).location⟩, []⟩ := by
  simp only [Scan.finish, inList]

theorem step_space (s : Scan) : s.step ns 32 =
    .ok ((s.flush ns).reading (s.tracker.step 32) .between) := by
  have free : ¬ Takes s 32 := by
    intro takes
    cases takes_ident takes
  rw [step_flush free, step_between (flush_mode ns s), start_space rfl, flush_tracker]

/-- A space behind an open list is counted into the location of the error. -/
theorem open_leaks (plain : ∀ c ∈ s, isEndByte c = false)
    (fed : (scanner ns).feed (initial ns filename) s = .ok last) (inList : last.opened ≠ []) :
    outcome (read (slice s [nul]) ns filename) ≠
      outcome (read (slice s ([32] ++ [nul])) ns filename) := by
  obtain ⟨⟨start, outer⟩, opened, inList⟩ := List.exists_cons_of_ne_nil inList
  have spaced : outcome (read (slice s ([32] ++ [nul])) ns filename) =
      some ((scanner ns).run (initial ns filename) (s ++ [32])) := by
    refine read_past plain (List.forall_mem_singleton.mpr rfl) fun last' fed' => ?_
    exact ⟨Or.inr (Or.inr (List.forall_mem_singleton.mpr rfl)), fun s' _ => trivial⟩
  have inList' : ((last.flush ns).reading (last.tracker.step 32) .between).opened =
      (start, outer) :: opened := (flush_opened ns last).trans inList
  intro same
  have runs := (read_alone plain).symm.trans (same.trans spaced)
  rw [Machine.run_of_feed _ fed, Machine.run_append_ok _ fed] at runs
  have ran : (scanner ns).run last [32] = _ :=
    (run_step (step_space last) []).trans (finish_open inList')
  rw [ran] at runs
  have locations := (finish_open inList).symm.trans (Option.some.inj runs)
  injection locations with locations
  injection locations with _ locations _
  injection locations with _ locations
  exact Tracker.step_ne (last.tracker.step 32) nul locations.symm

end Leaks

/-- What `read` makes of a slice is the same in every memory exactly when the slice has an end
byte, or fails to read on one of its own bytes, or ends with no list open, no number unfinished
and no lone `-`. -/
theorem slice_alone_iff (s ns : Bytes) (filename : Option Bytes) :
    (∀ rest₁ rest₂, nul ∈ rest₁ → nul ∈ rest₂ →
      outcome (read (slice s rest₁) ns filename) = outcome (read (slice s rest₂) ns filename)) ↔
    ¬ Leaks ns filename s := by
  constructor
  · rintro same ⟨plain, last, fed, leaking⟩
    rcases not_safe leaking with unfinished | inList
    · obtain ⟨e, read, type⟩ := unfinished_leaks plain fed unfinished
      have runs := (read_alone plain).symm.trans ((same _ _ (by simp) (by simp)).trans read)
      rw [Machine.run_of_feed _ fed] at runs
      obtain ⟨early, -⟩ := finish_fails (Option.some.inj runs)
      rw [type] at early
      cases early
    · exact open_leaks plain fed inList (same _ _ (by simp) (by simp))
  · intro tight rest₁ rest₂ nul₁ nul₂
    by_cases ended : ∃ c ∈ s, isEndByte c = true
    · rw [read_ended ended, read_ended ended]
    · have plain : ∀ c ∈ s, isEndByte c = false := by
        intro c mem
        cases isEnd : isEndByte c with
        | false => rfl
        | true => exact absurd ⟨c, mem, isEnd⟩ ended
      have safe : ∀ last, (scanner ns).feed (initial ns filename) s = .ok last → Safe last := by
        intro last fed
        by_contra leaking
        exact tight ⟨plain, last, fed, leaking⟩
      rw [read_safe plain safe nul₁, read_safe plain safe nul₂]

/-- The slice `1` is the number 12 where a 2 follows it in memory. -/
theorem digit_behind_slice : outcome (read (slice [49] [0]) [] none) ≠
    outcome (read (slice [49] [50, 0]) [] none) := by
  intro same
  have one : outcome (read (slice [49] [0]) [] none) =
      some (.ok [.number ⟨.ofStart (lineCol 1 2), [49], false, false⟩]) := rfl
  have twelve : outcome (read (slice [49] [50, 0]) [] none) =
      some (.ok [.number ⟨⟨lineCol 1 2, lineCol 1 3⟩, [49, 50], false, false⟩]) := rfl
  rw [one, twelve] at same
  cases same

end Slices
