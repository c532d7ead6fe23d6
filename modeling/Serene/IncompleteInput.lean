import Serene.ReaderRefinement
import Serene.ScannerTurns

/-!
# Incomplete input and wrong input

A failing step stays where it is whatever follows, since the scanner takes the
text in order. Only the end of the text makes the other error, and it does so as
long as a list is open: the open lists are counted by the parentheses.
-/

namespace IncompleteInput

open ByteClasses Locations AstNodes Incremental ReaderModel Scanner ScannerTurns ReaderRefinement

variable {ns : Bytes} {s s' : Scan} {c : UInt8} {e : Error} {u : Bytes}

/-- The errors about a byte of the text. -/
def Wrong (e : Error) : Prop :=
  e.type = .invalidDigitForNumber ∨ e.type = .twoFloatPoints ∨
    e.type = .invalidCharacterForSymbol

theorem Wrong.not_early (wrong : Wrong e) : e.type ≠ .eofWhileScaningAList := by
  intro early
  rcases wrong with type | type | type <;> (rw [early] at type; cases type)

theorem step_fails_wrong (failed : s.step ns c = .error e) : Wrong e := by
  cases step_rejects failed with
  | secondPoint => exact Or.inr (Or.inl rfl)
  | letter => exact Or.inl rfl
  | illegal => exact Or.inr (Or.inr rfl)
  | extra => exact Or.inr (Or.inr rfl)

theorem feed_fails_wrong (failed : (scanner ns).feed s u = .error e) : Wrong e := by
  obtain ⟨_, c, _, t, -, -, stepped⟩ := Machine.split_of_feed_error _ failed
  exact step_fails_wrong stepped

/-- A run that fails fails on a byte, or at the end with a list open. -/
theorem run_fails (failed : (scanner ns).run s u = .error e) :
    ((scanner ns).feed s u = .error e ∧ Wrong e) ∨
      (∃ s', (scanner ns).feed s u = .ok s' ∧ s'.opened ≠ [] ∧
        e.type = .eofWhileScaningAList) := by
  cases fed : (scanner ns).feed s u with
  | error e' =>
    rw [Machine.run, fed] at failed
    cases failed
    exact Or.inl ⟨rfl, feed_fails_wrong fed⟩
  | ok s' =>
    rw [Machine.run_of_feed _ fed] at failed
    obtain ⟨type, opened⟩ := finish_fails failed
    exact Or.inr ⟨s', rfl, opened, type⟩

theorem step_depth (stepped : s.step ns c = .ok s') :
    s'.opened.length + [c].count rparen = s.opened.length + [c].count lparen := by
  rcases turn_opened (step_turn stepped) with ⟨noOpen, noClose, same⟩ | ⟨rfl, items, opens⟩ |
    ⟨rfl, start, outer, closes⟩
  · simp only [same, List.count_singleton, beq_iff_eq, noOpen, noClose]
  · rw [opens]
    rfl
  · rw [closes]
    rfl

theorem feed_depth (fed : (scanner ns).feed s u = .ok s') :
    s'.opened.length + u.count rparen = s.opened.length + u.count lparen := by
  induction u generalizing s with
  | nil => rw [Except.ok.inj fed]; rfl
  | cons c u ih =>
    cases stepped : s.step ns c with
    | error e => cases ((scanner ns).feed_cons_error stepped u).symm.trans fed
    | ok t =>
      rw [feed_step stepped] at fed
      have first := step_depth stepped
      have rest := ih fed
      rw [← List.singleton_append, List.count_append, List.count_append]
      omega

theorem rparen_free : ¬ Takes s rparen := by
  intro takes
  cases takes_ident takes

theorem step_rparen_open (ns : Bytes) {start : Location} {outer : Ast}
    {opened : List (Location × Ast)} (inList : s.opened = (start, outer) :: opened) :
    ∃ s', s.step ns rparen = .ok s' ∧ s'.opened = opened := by
  have inList' := (flush_opened ns s).trans inList
  rw [step_flush rparen_free, step_between (flush_mode ns s), start_rparen, Scan.close, inList']
  exact ⟨_, rfl, rfl⟩

theorem step_rparen_top (ns : Bytes) (top : s.opened = []) :
    ∃ e, s.step ns rparen = .error e ∧ e.type = .invalidCharacterForSymbol := by
  have top' := (flush_opened ns s).trans top
  rw [step_flush rparen_free, step_between (flush_mode ns s), start_rparen, Scan.close, top']
  exact ⟨_, rfl, rfl⟩

theorem feed_rparens (ns : Bytes) {k : Nat} (enough : k ≤ s.opened.length) :
    ∃ s', (scanner ns).feed s (List.replicate k rparen) = .ok s' ∧
      s'.opened.length = s.opened.length - k := by
  induction k generalizing s with
  | zero => exact ⟨s, rfl, rfl⟩
  | succ k ih =>
    cases inList : s.opened with
    | nil =>
      rw [inList] at enough
      cases enough
    | cons outer opened =>
      obtain ⟨t, stepped, popped⟩ := step_rparen_open ns inList
      rw [inList, List.length_cons] at enough
      obtain ⟨s', fed, length⟩ := ih (s := t) (by rw [popped]; omega)
      refine ⟨s', ?_, ?_⟩
      · rw [List.replicate_succ, feed_step stepped, fed]
      · rw [length, popped, List.length_cons]
        omega

/-- Closing parentheses end the open lists from the inside, and one more is an error. -/
theorem run_rparens (ns : Bytes) (s : Scan) (k : Nat) :
    (k < s.opened.length → ∃ e, (scanner ns).run s (List.replicate k rparen) = .error e ∧
      e.type = .eofWhileScaningAList) ∧
    (k = s.opened.length → ∃ ast, (scanner ns).run s (List.replicate k rparen) = .ok ast) ∧
    (s.opened.length < k → ∃ e, (scanner ns).run s (List.replicate k rparen) = .error e ∧
      e.type = .invalidCharacterForSymbol) := by
  refine ⟨?_, ?_, ?_⟩
  · intro few
    obtain ⟨s', fed, length⟩ := feed_rparens ns few.le
    obtain ⟨outer, opened, inList⟩ : ∃ outer opened, s'.opened = outer :: opened :=
      List.exists_cons_of_length_pos (by omega)
    rw [Machine.run_of_feed _ fed]
    simp only [scanner, Scan.finish, inList]
    exact ⟨_, rfl, rfl⟩
  · intro exactly
    obtain ⟨s', fed, length⟩ := feed_rparens ns exactly.le
    have top : s'.opened = [] := List.eq_nil_of_length_eq_zero (by omega)
    rw [Machine.run_of_feed _ fed]
    simp only [scanner, Scan.finish, top]
    exact ⟨_, rfl⟩
  · intro many
    obtain ⟨s', fed, length⟩ := feed_rparens ns (Nat.le_refl s.opened.length)
    have top : s'.opened = [] := List.eq_nil_of_length_eq_zero (by omega)
    obtain ⟨e, failed, type⟩ := step_rparen_top ns top
    have split : List.replicate k rparen =
        List.replicate s.opened.length rparen ++ rparen ::
          List.replicate (k - s.opened.length - 1) rparen := by
      rw [← List.replicate_succ, List.replicate_append_replicate]
      congr 1
      omega
    rw [split, Machine.run_append_ok _ fed]
    exact ⟨e, run_fail failed _, type⟩

/-- An error that is not about the end of the text stays the error of every continuation. If
the text ended too early, then as many closing parentheses as are missing complete it, fewer
do not, and more are too many. -/
theorem incomplete_or_wrong (s ns : Bytes) (filename : Option Bytes) :
    (∀ e t, FailsWith s ns filename e → e.type ≠ .eofWhileScaningAList →
      FailsWith (s ++ t) ns filename e) ∧
    (∀ e, (∀ c ∈ s, isEndByte c = false) → FailsWith s ns filename e →
      e.type = .eofWhileScaningAList →
      s.count rparen < s.count lparen ∧
      (∃ ast, ReadsAs (s ++ List.replicate (s.count lparen - s.count rparen) rparen) ns filename
        ast) ∧
      (∀ k < s.count lparen - s.count rparen,
        ∃ e', FailsWith (s ++ List.replicate k rparen) ns filename e' ∧
          e'.type = .eofWhileScaningAList) ∧
      (∀ k > s.count lparen - s.count rparen,
        ∃ e', FailsWith (s ++ List.replicate k rparen) ns filename e' ∧
          e'.type = .invalidCharacterForSymbol)) := by
  constructor
  · intro e t failed wrong
    rw [failsWith_run] at *
    obtain ⟨v, longer⟩ := body_append s t
    rcases run_fails failed with ⟨fed, -⟩ | ⟨-, -, -, type⟩
    · rw [longer, Machine.run_append_error _ fed]
    · exact absurd type wrong
  · intro e plain failed type
    rw [failsWith_run, body_eq_self plain] at failed
    obtain ⟨s', fed, inList, -⟩ : ∃ s', (scanner ns).feed (initial ns filename) s = .ok s' ∧
        s'.opened ≠ [] ∧ e.type = .eofWhileScaningAList := by
      rcases run_fails failed with ⟨-, wrong⟩ | early
      · exact absurd type wrong.not_early
      · exact early
    have depth : s'.opened.length + s.count rparen = 0 + s.count lparen := feed_depth fed
    have positive := List.length_pos_of_ne_nil inList
    have runs : ∀ k, (scanner ns).run (initial ns filename)
        (body (s ++ List.replicate k rparen)) = (scanner ns).run s' (List.replicate k rparen) := by
      intro k
      rw [body_eq_self, Machine.run_append_ok _ fed]
      intro c hc
      rcases List.mem_append.mp hc with hc | hc
      · exact plain c hc
      · rw [(List.mem_replicate.mp hc).2]
        rfl
    refine ⟨by omega, ?_, ?_, ?_⟩
    · obtain ⟨ast, read⟩ := (run_rparens ns s' (s.count lparen - s.count rparen)).2.1 (by omega)
      exact ⟨ast, readsAs_run.mpr ((runs _).trans read)⟩
    · intro k few
      obtain ⟨e', failed', type'⟩ := (run_rparens ns s' k).1 (by omega)
      exact ⟨e', failsWith_run.mpr ((runs k).trans failed'), type'⟩
    · intro k many
      obtain ⟨e', failed', type'⟩ := (run_rparens ns s' k).2.2 (by omega)
      exact ⟨e', failsWith_run.mpr ((runs k).trans failed'), type'⟩

end IncompleteInput
