import Serene.ReaderSteps

/-!
# What advancing keeps, every method keeps

The methods of the reader change it through `advanceByOne` alone, except that
`read` appends to the tree. So what `advanceByOne` preserves is preserved by all
of them. One statement for each method, in the order of the source.
-/

namespace MethodInvariants

open ByteClasses Locations AstNodes ReaderModel ReaderSteps StatefulRuns

/-- The program changes the reader through `advanceByOne` alone. -/
def OnlyAdvances {α : Type} (src : Source) (m : ReaderM α) : Prop :=
  ∀ (I : Reader → Prop) (regular : Stop → Prop),
    Keeps I regular (advanceByOne src) → Keeps I regular m

namespace OnlyAdvances
variable {α β : Type} {src : Source} {m n : ReaderM α} {f : α → ReaderM β}

theorem pure (a : α) : OnlyAdvances src (Pure.pure a) := fun _ _ _ => Keeps.pure a

theorem throw (stop : Stop) : OnlyAdvances src (MonadExcept.throw stop : ReaderM α) :=
  fun _ _ _ => Keeps.throw stop

theorem get : OnlyAdvances src (MonadState.get : ReaderM Reader) := fun _ _ _ => Keeps.get

theorem bind (first : OnlyAdvances src m) (rest : ∀ a, OnlyAdvances src (f a)) :
    OnlyAdvances src (m >>= f) :=
  fun I regular moves => (first I regular moves).bind fun a => rest a I regular moves

theorem ite {p : Prop} [Decidable p] (yes : OnlyAdvances src m) (no : OnlyAdvances src n) :
    OnlyAdvances src (if p then m else n) :=
  fun I regular moves => Keeps.ite (yes I regular moves) (no I regular moves)

theorem of_looks (looks : Looks m) : OnlyAdvances src m := fun I regular _ => looks I regular

end OnlyAdvances

section Methods
variable {src : Source}

theorem deref_looks (c : Nat) : Looks (deref src c) := by
  intro I regular
  simp only [deref]
  split
  · exact Keeps.pure _
  · exact Keeps.throw _

theorem nextChar_looks (skipWhitespace : Bool) (count : Nat) :
    Looks (nextChar src skipWhitespace count) := by
  intro I regular
  have spaces (turns : Nat) : ∀ c, Keeps I regular (skipSpaces src turns c) := by
    induction turns with
    | zero => exact fun c => Keeps.throw _
    | succ turns ih =>
      intro c
      exact (deref_looks c I regular).bind fun byte => Keeps.ite (ih _) (Keeps.pure _)
  exact Keeps.get.bind fun r => Keeps.ite (spaces _ _) (Keeps.pure _)

theorem isEndOfBuffer_looks (c : Nat) : Looks (isEndOfBuffer src c) :=
  fun I regular => (deref_looks c I regular).bind fun _ => Keeps.get.bind fun _ => Keeps.pure _

theorem getCurrentLocation_looks : Looks getCurrentLocation :=
  fun _ _ => Keeps.get.bind fun _ => Keeps.pure _

theorem deref_advances (c : Nat) : OnlyAdvances src (deref src c) := .of_looks (deref_looks c)

theorem nextChar_advances (skipWhitespace : Bool) (count : Nat) :
    OnlyAdvances src (nextChar src skipWhitespace count) := .of_looks (nextChar_looks _ _)

theorem isEndOfBuffer_advances (c : Nat) : OnlyAdvances src (isEndOfBuffer src c) :=
  .of_looks (isEndOfBuffer_looks c)

theorem getCurrentLocation_advances : OnlyAdvances src getCurrentLocation :=
  .of_looks getCurrentLocation_looks

theorem fail_advances {α : Type} (exit : Exit) (type : ErrorType) (loc : LocationRange)
    (msg : Bytes) : OnlyAdvances src (fail exit type loc msg : ReaderM α) := .throw _

theorem advanceByOne_advances : OnlyAdvances src (advanceByOne src) := fun _ _ moves => moves

theorem advance_advances (skipWhitespace : Bool) :
    OnlyAdvances src (advance src skipWhitespace) := by
  have spaces (turns : Nat) : OnlyAdvances src (advanceSpaces src turns) := by
    induction turns with
    | zero => exact .throw _
    | succ turns ih =>
      refine .bind .get fun r => (deref_advances _).bind fun next => .ite ?_ (.pure _)
      exact advanceByOne_advances.bind fun _ => ih
  exact .ite (spaces _) advanceByOne_advances

theorem readNumberLoop_advances (turns : Nat) : ∀ number c floatNum,
    OnlyAdvances src (readNumberLoop src turns number c floatNum) := by
  induction turns with
  | zero => exact fun number c floatNum => .throw _
  | succ turns ih =>
    intro number c floatNum
    refine (deref_advances c).bind fun byte => (nextChar_advances _ _).bind fun c =>
      (deref_advances c).bind fun next => .ite (.ite ?_ ?_) (.pure _)
    · exact getCurrentLocation_advances.bind fun loc => fail_advances _ _ _ _
    · exact (advance_advances _).bind fun _ => ih _ _ _

/-- `readNumber` starts with a move. -/
theorem readNumber_split (neg : Bool) : ∃ rest : Nat → ReaderM (Node LocationRange),
    readNumber src neg = (do let c ← nextChar src false 1; advance src false; rest c) ∧
    ∀ c, OnlyAdvances src (rest c) := by
  refine ⟨_, rfl, fun c => ?_⟩
  refine getCurrentLocation_advances.bind fun start => (deref_advances c).bind fun byte =>
    .ite (fail_advances _ _ _ _) ?_
  refine (readNumberLoop_advances _ _ _ _).bind fun ⟨number, c, floatNum⟩ =>
    (deref_advances c).bind fun byte => .ite ?_ ?_
  · exact (advance_advances _).bind fun _ => getCurrentLocation_advances.bind fun loc =>
      fail_advances _ _ _ _
  · exact getCurrentLocation_advances.bind fun stop => .pure _

theorem readNumber_advances (neg : Bool) : OnlyAdvances src (readNumber src neg) := by
  obtain ⟨rest, split, advances⟩ := readNumber_split neg
  rw [split]
  exact (nextChar_advances _ _).bind fun c => (advance_advances _).bind fun _ => advances c

theorem readSymbolLoop_advances (turns : Nat) : ∀ sym c,
    OnlyAdvances src (readSymbolLoop src turns sym c) := by
  induction turns with
  | zero => exact fun sym c => .throw _
  | succ turns ih =>
    intro sym c
    refine (deref_advances c).bind fun byte => (nextChar_advances _ _).bind fun c =>
      (isEndOfBuffer_advances c).bind fun atEnd => (deref_advances c).bind fun next =>
        .ite ?_ (.pure _)
    exact (advance_advances _).bind fun _ => ih _ _

theorem readSymbolName_split (c : Nat) : ∃ rest : ReaderM (Node LocationRange),
    readSymbolName src c = (do advance src false; rest) ∧ OnlyAdvances src rest :=
  ⟨_, rfl, (readSymbolLoop_advances _ _ _).bind fun _ =>
    getCurrentLocation_advances.bind fun _ => .pure _⟩

theorem readSymbolName_advances (c : Nat) : OnlyAdvances src (readSymbolName src c) := by
  obtain ⟨rest, split, advances⟩ := readSymbolName_split c
  rw [split]
  exact (advance_advances _).bind fun _ => advances

theorem readSymbol_advances : OnlyAdvances src (readSymbol src) := by
  refine (nextChar_advances _ _).bind fun c => (deref_advances c).bind fun byte =>
    (isEndOfBuffer_advances c).bind fun atEnd => .ite ?_ (.ite ?_ (.ite ?_ ?_))
  · exact (advance_advances _).bind fun _ => getCurrentLocation_advances.bind fun loc =>
      fail_advances _ _ _ _
  · refine (nextChar_advances _ _).bind fun next => (deref_advances next).bind fun second =>
      .ite ?_ (readSymbolName_advances c)
    exact (advance_advances _).bind fun _ => readNumber_advances true
  · exact readNumber_advances false
  · exact readSymbolName_advances c

section Lists
variable {expr : ReaderM (Node LocationRange)} (inner : OnlyAdvances src expr)
include inner

theorem readListBody_advances (loc : LocationRange) (elements : Ast) :
    OnlyAdvances src (readListBody src expr loc elements) := by
  refine (nextChar_advances _ _).bind fun ch => (isEndOfBuffer_advances ch).bind fun atEnd =>
    .ite ?_ ((deref_advances ch).bind fun byte => .ite ?_ ?_)
  · exact (advance_advances _).bind fun _ => (advance_advances _).bind fun _ =>
      getCurrentLocation_advances.bind fun stop => fail_advances _ _ _ _
  · exact (advance_advances _).bind fun _ => (advance_advances _).bind fun _ =>
      getCurrentLocation_advances.bind fun stop => .pure _
  · exact (advance_advances _).bind fun _ => inner.bind fun _ => .pure _

theorem readListLoop_advances (turns : Nat) : ∀ loc elements,
    OnlyAdvances src (readListLoop src expr turns loc elements) := by
  induction turns with
  | zero => exact fun loc elements => .throw _
  | succ turns ih =>
    intro loc elements
    refine (readListBody_advances inner loc elements).bind fun ⟨loc, elements, terminated⟩ => ?_
    exact .ite (.pure _) (ih loc elements)

theorem readList_split : ∃ rest : Nat → Location → ReaderM (Node LocationRange),
    readList src expr = (do
      let c ← nextChar src false 1
      let loc ← getCurrentLocation
      advance src false
      rest c loc) ∧
    ∀ c loc, OnlyAdvances src (rest c loc) :=
  ⟨_, rfl, fun c _ => (deref_advances c).bind fun _ =>
    .ite (readListLoop_advances inner _ _ _) (.throw _)⟩

theorem readList_advances : OnlyAdvances src (readList src expr) := by
  obtain ⟨rest, split, advances⟩ := readList_split inner
  rw [split]
  exact (nextChar_advances _ _).bind fun c => getCurrentLocation_advances.bind fun loc =>
    (advance_advances _).bind fun _ => advances c loc

end Lists

theorem readExprBody_advances {list : ReaderM (Node LocationRange)}
    (inner : OnlyAdvances src list) : OnlyAdvances src (readExprBody src list) := by
  refine (nextChar_advances _ _).bind fun c => (isEndOfBuffer_advances c).bind fun atEnd =>
    .ite (.pure _) ((deref_advances c).bind fun byte => (advance_advances _).bind fun _ => ?_)
  exact .ite inner readSymbol_advances

theorem readExpr_advances (depth : Nat) : OnlyAdvances src (readExpr src depth) := by
  induction depth with
  | zero => exact readExprBody_advances (.throw _)
  | succ depth ih => exact readExprBody_advances (readList_advances ih)

end Methods

/-- Nothing is appended to the tree while an expression is read. -/
theorem OnlyAdvances.ast_eq {α : Type} {src : Source} {m : ReaderM α} {r s : Reader} {a : α}
    (advances : OnlyAdvances src m) (ran : m r = .ok a s) : s.ast = r.ast := by
  have moves : Keeps (fun r' => r'.ast = r.ast) (fun _ => False) (advanceByOne src) := by
    intro r₁ same
    cases moved : advanceByOne src r₁ with
    | ok _ r₂ =>
      obtain ⟨c, rest, -, rfl⟩ := advanceByOne_cases moved
      exact same
    | error e r₂ => exact False.elim
  have kept := advances _ _ moves r rfl
  rwa [ran] at kept

section Loop
variable {src : Source} {I : Reader → Prop} {regular : Stop → Prop}
  (moves : Keeps I regular (advanceByOne src))
  (appends : ∀ (r : Reader) (node : Node LocationRange), I r → I { r with ast := r.ast ++ [node] })
include moves appends

theorem readLoop_keeps (depth turns : Nat) : Keeps I regular (readLoop src depth turns) := by
  induction turns with
  | zero => exact Keeps.throw _
  | succ turns ih =>
    refine Keeps.ite ?_ (Keeps.pure _)
    refine (nextChar_advances _ _ I regular moves).bind fun c =>
      (isEndOfBuffer_advances c I regular moves).bind fun atEnd => Keeps.ite (Keeps.pure _) ?_
    refine (advance_advances _ I regular moves).bind fun _ =>
      (readExpr_advances depth I regular moves).bind fun tmp => ?_
    have kept (node : Node LocationRange) : Keeps I regular (do
        modify fun r : Reader => { r with ast := r.ast ++ [node] }
        readLoop src depth turns) :=
      Keeps.bind (Keeps.modify fun r => appends r node) fun _ => ih
    cases tmp with
    | null => exact Keeps.pure _
    | symbol s => exact kept (.symbol s)
    | number n => exact kept (.number n)
    | list loc elements => exact kept (.list loc elements)

theorem read_keeps (depth turns : Nat) : Keeps I regular (Reader.read src depth turns) :=
  (readLoop_keeps moves appends depth turns).bind fun _ => Keeps.get.bind fun _ => Keeps.pure _

end Loop

section Forward
variable {src : Source} {α : Type}

theorem advanceByOne_increasing : Increasing Reader.currentChar (advanceByOne src) := by
  intro r _ r' moved
  obtain ⟨c, rest, -, rfl⟩ := advanceByOne_cases moved
  exact Nat.lt_succ_self _

theorem OnlyAdvances.nondecreasing {m : ReaderM α} (advances : OnlyAdvances src m) :
    Nondecreasing Reader.currentChar m :=
  fun k => advances _ _ (advanceByOne_increasing.nondecreasing k)

theorem readNumber_increasing (neg : Bool) :
    Increasing Reader.currentChar (readNumber src neg) := by
  obtain ⟨rest, split, advances⟩ := @readNumber_split src neg
  rw [split]
  refine .bind_right (nextChar_advances _ _).nondecreasing fun c => ?_
  exact .bind_left advanceByOne_increasing fun _ => (advances c).nondecreasing

theorem readSymbolName_increasing (c : Nat) :
    Increasing Reader.currentChar (readSymbolName src c) := by
  obtain ⟨rest, split, advances⟩ := @readSymbolName_split src c
  rw [split]
  exact .bind_left advanceByOne_increasing fun _ => advances.nondecreasing

theorem readSymbol_increasing : Increasing Reader.currentChar (readSymbol src) := by
  refine .bind_right (nextChar_advances _ _).nondecreasing fun c =>
    .bind_right (deref_advances c).nondecreasing fun byte =>
      .bind_right (isEndOfBuffer_advances c).nondecreasing fun atEnd =>
        .ite ?_ (.ite ?_ (.ite ?_ ?_))
  · refine .bind_left advanceByOne_increasing fun _ => @OnlyAdvances.nondecreasing src _ _ ?_
    exact getCurrentLocation_advances.bind fun loc => fail_advances _ _ _ _
  · refine .bind_right (nextChar_advances _ _).nondecreasing fun next =>
      .bind_right (deref_advances next).nondecreasing fun second =>
        .ite ?_ (readSymbolName_increasing c)
    exact .bind_left advanceByOne_increasing fun _ => (readNumber_advances true).nondecreasing
  · exact readNumber_increasing false
  · exact readSymbolName_increasing c

theorem readList_increasing {expr : ReaderM (Node LocationRange)}
    (inner : OnlyAdvances src expr) : Increasing Reader.currentChar (readList src expr) := by
  obtain ⟨rest, split, advances⟩ := readList_split inner
  rw [split]
  refine .bind_right (nextChar_advances _ _).nondecreasing fun c =>
    .bind_right (@getCurrentLocation_advances src).nondecreasing fun loc => ?_
  exact .bind_left advanceByOne_increasing fun _ => (advances c loc).nondecreasing

end Forward

end MethodInvariants
