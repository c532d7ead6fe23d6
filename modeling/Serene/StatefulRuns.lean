/-!
# Runs of stateful programs with an exceptional exit

Evaluation rules for `EStateM`: a program applied to a state either returns
with a new state or leaves through the exception, also with a state. Proofs
about programs run them step by step with these rules.
-/

namespace StatefulRuns

universe u
variable {ε σ α β : Type u}

@[simp] theorem pure_run (a : α) (s : σ) : (pure a : EStateM ε σ α) s = .ok a s := rfl

@[simp] theorem get_bind (f : σ → EStateM ε σ β) (s : σ) : (get >>= f) s = f s s := rfl

@[simp] theorem modify_bind (g : σ → σ) (f : PUnit → EStateM ε σ β) (s : σ) :
    (modify g >>= f) s = f ⟨⟩ (g s) := rfl

@[simp] theorem modify_run (g : σ → σ) (s : σ) :
    (modify g : EStateM ε σ PUnit) s = .ok ⟨⟩ (g s) := rfl

theorem bind_ok {x : EStateM ε σ α} {s t : σ} {a : α} (ran : x s = .ok a t)
    (f : α → EStateM ε σ β) : (x >>= f) s = f a t := by
  change (match x s with | .ok a s => f a s | .error e s => .error e s) = f a t
  rw [ran]

theorem bind_error {x : EStateM ε σ α} {s t : σ} {e : ε} (ran : x s = .error e t)
    (f : α → EStateM ε σ β) : (x >>= f) s = .error e t := by
  change (match x s with | .ok a s => f a s | .error e s => .error e s) = .error e t
  rw [ran]

theorem bind_congr {x y : EStateM ε σ α} {s t : σ} (same : x s = y t)
    (f : α → EStateM ε σ β) : (x >>= f) s = (y >>= f) t := by
  change (match x s with | .ok a s => f a s | .error e s => .error e s) = _
  rw [same]
  rfl

/-- A sequence that returned went through a return of its first program. -/
theorem of_bind_ok {x : EStateM ε σ α} {f : α → EStateM ε σ β} {s t : σ} {b : β}
    (ran : (x >>= f) s = .ok b t) : ∃ a u, x s = .ok a u ∧ f a u = .ok b t := by
  cases first : x s with
  | ok a u => exact ⟨a, u, rfl, (bind_ok first f).symm.trans ran⟩
  | error e u => rw [bind_error first] at ran; cases ran

/-- Started where `I` holds, the program leaves `I` behind: when it returns, and when it
fails with a regular fault. -/
def Keeps (I : σ → Prop) (regular : ε → Prop) (m : EStateM ε σ α) : Prop :=
  ∀ s, I s → match m s with
    | .ok _ s' => I s'
    | .error e s' => regular e → I s'

namespace Keeps
variable {I : σ → Prop} {regular : ε → Prop} {m n : EStateM ε σ α} {f : α → EStateM ε σ β}

theorem pure (a : α) : Keeps I regular (Pure.pure a : EStateM ε σ α) := by
  intro s before
  exact before

theorem get : Keeps I regular (MonadState.get : EStateM ε σ σ) := by
  intro s before
  exact before

theorem throw (e : ε) : Keeps I regular (MonadExcept.throw e : EStateM ε σ α) := by
  intro s before regular
  exact before

theorem modify {g : σ → σ} (keeps : ∀ s, I s → I (g s)) :
    Keeps I regular (modify g : EStateM ε σ PUnit) := keeps

theorem bind (first : Keeps I regular m) (rest : ∀ a, Keeps I regular (f a)) :
    Keeps I regular (m >>= f) := by
  intro s before
  have kept := first s before
  cases ran : m s with
  | ok a t =>
    rw [ran] at kept
    rw [bind_ok ran]
    exact rest a t kept
  | error e t =>
    rw [ran] at kept
    rw [bind_error ran]
    exact kept

theorem ite {p : Prop} [Decidable p] (yes : Keeps I regular m) (no : Keeps I regular n) :
    Keeps I regular (if p then m else n) := by
  by_cases h : p
  · rw [if_pos h]
    exact yes
  · rw [if_neg h]
    exact no

end Keeps

/-- A program that changes no state. -/
def Looks (m : EStateM ε σ α) : Prop := ∀ I regular, Keeps I regular m

theorem Looks.same {m : EStateM ε σ α} {s t : σ} {a : α} (looks : Looks m)
    (ran : m s = .ok a t) : t = s := by
  have kept := looks (· = s) (fun _ => False) s rfl
  rwa [ran] at kept

/-- Whatever the program returns has the property. -/
def Returns (Q : α → Prop) (m : EStateM ε σ α) : Prop := ∀ s a t, m s = .ok a t → Q a

namespace Returns
variable {P : α → Prop} {Q : β → Prop} {m : EStateM ε σ α} {f : α → EStateM ε σ β}

theorem pure {b : β} (holds : Q b) : Returns Q (Pure.pure b : EStateM ε σ β) := by
  intro s b' t ran
  rw [← (EStateM.Result.ok.inj ran).1]
  exact holds

theorem throw (e : ε) : Returns Q (MonadExcept.throw e : EStateM ε σ β) := by
  intro s b t ran
  cases ran

theorem bind (first : Returns P m) (rest : ∀ a, P a → Returns Q (f a)) :
    Returns Q (m >>= f) := by
  intro s b t ran
  obtain ⟨a, u, ran, ran'⟩ := of_bind_ok ran
  exact rest a (first s a u ran) u b t ran'

theorem skip (rest : ∀ a, Returns Q (f a)) : Returns Q (m >>= f) :=
  bind (P := fun _ => True) (fun _ _ _ _ => trivial) fun a _ => rest a

theorem ite {p : Prop} [Decidable p] {m n : EStateM ε σ β} (yes : p → Returns Q m)
    (no : ¬ p → Returns Q n) : Returns Q (if p then m else n) := by
  by_cases h : p
  · rw [if_pos h]
    exact yes h
  · rw [if_neg h]
    exact no h

end Returns

section Measures
variable {μ : σ → Nat} {m n : EStateM ε σ α} {f : α → EStateM ε σ β}

/-- A program that returns in no state of a smaller measure. -/
def Nondecreasing (μ : σ → Nat) (m : EStateM ε σ α) : Prop :=
  ∀ k, Keeps (fun s => k ≤ μ s) (fun _ => False) m

/-- A program that returns only in states of a larger measure. -/
def Increasing (μ : σ → Nat) (m : EStateM ε σ α) : Prop :=
  ∀ s a t, m s = .ok a t → μ s < μ t

theorem Nondecreasing.le {s t : σ} {a : α} (nondecreasing : Nondecreasing μ m)
    (ran : m s = .ok a t) : μ s ≤ μ t := by
  have kept := nondecreasing (μ s) s (Nat.le_refl _)
  rwa [ran] at kept

theorem Increasing.nondecreasing (increasing : Increasing μ m) : Nondecreasing μ m := by
  intro k s before
  cases ran : m s with
  | ok a t => exact Nat.le_of_lt (Nat.lt_of_le_of_lt before (increasing s a t ran))
  | error e t => exact False.elim

theorem Increasing.throw (e : ε) :
    Increasing μ (MonadExcept.throw e : EStateM ε σ α) := by
  intro s a t ran
  cases ran

theorem Increasing.bind_left (first : Increasing μ m) (rest : ∀ a, Nondecreasing μ (f a)) :
    Increasing μ (m >>= f) := by
  intro s b t ran
  obtain ⟨a, u, ran, then_⟩ := of_bind_ok ran
  exact Nat.lt_of_lt_of_le (first s a u ran) ((rest a).le then_)

theorem Increasing.bind_right (first : Nondecreasing μ m) (rest : ∀ a, Increasing μ (f a)) :
    Increasing μ (m >>= f) := by
  intro s b t ran
  obtain ⟨a, u, ran, then_⟩ := of_bind_ok ran
  exact Nat.lt_of_le_of_lt (first.le ran) (rest a u b t then_)

theorem Increasing.ite {p : Prop} [Decidable p] (yes : Increasing μ m) (no : Increasing μ n) :
    Increasing μ (if p then m else n) := by
  by_cases h : p
  · rw [if_pos h]
    exact yes
  · rw [if_neg h]
    exact no

end Measures

end StatefulRuns
