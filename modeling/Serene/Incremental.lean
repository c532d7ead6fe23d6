import Mathlib.Data.List.Basic

/-!
# Incremental machines

A machine takes its input one symbol at a time, may fail on a symbol, and is
asked for an answer when the input ends. Feeding is a fold, so a failure is
final and a run over a concatenation splits at the seam. Nothing here knows
what the states, the symbols or the answers are.
-/

namespace Incremental

universe u v

/-- A deterministic machine: one step for a symbol, one answer at the end. -/
structure Machine (State : Type u) (Input : Type v) (Fault Answer : Type u) where
  step : State → Input → Except Fault State
  finish : State → Except Fault Answer

namespace Machine
variable {State Fault Answer : Type u} {Input : Type v}
variable (M : Machine State Input Fault Answer)

def feed (s : State) : List Input → Except Fault State
  | [] => .ok s
  | x :: xs => (M.step s x).bind fun s' => feed s' xs

def run (s : State) (xs : List Input) : Except Fault Answer :=
  (M.feed s xs).bind M.finish

theorem feed_cons_ok {s s' : State} {x : Input} (step : M.step s x = .ok s')
    (xs : List Input) : M.feed s (x :: xs) = M.feed s' xs := by
  simp only [feed, step, Except.bind]

theorem feed_cons_error {s : State} {x : Input} {e : Fault} (step : M.step s x = .error e)
    (xs : List Input) : M.feed s (x :: xs) = .error e := by
  simp only [feed, step, Except.bind]

theorem run_cons_ok {s s' : State} {x : Input} (step : M.step s x = .ok s')
    (xs : List Input) : M.run s (x :: xs) = M.run s' xs := by
  simp only [run, M.feed_cons_ok step]

theorem run_cons_error {s : State} {x : Input} {e : Fault} (step : M.step s x = .error e)
    (xs : List Input) : M.run s (x :: xs) = .error e := by
  simp only [run, M.feed_cons_error step, Except.bind]

theorem run_cons_congr {s t : State} {x : Input} (same : M.step s x = M.step t x)
    (xs : List Input) : M.run s (x :: xs) = M.run t (x :: xs) := by
  simp only [run, feed, same]

theorem feed_append (s : State) (xs ys : List Input) :
    M.feed s (xs ++ ys) = (M.feed s xs).bind fun s' => M.feed s' ys := by
  induction xs generalizing s with
  | nil => rfl
  | cons x xs ih =>
    cases step : M.step s x with
    | error e => rw [List.cons_append, M.feed_cons_error step, M.feed_cons_error step]; rfl
    | ok s' => rw [List.cons_append, M.feed_cons_ok step, M.feed_cons_ok step, ih]

theorem feed_append_ok {s s' : State} {xs : List Input} (fed : M.feed s xs = .ok s')
    (ys : List Input) : M.feed s (xs ++ ys) = M.feed s' ys := by
  simp only [feed_append, fed, Except.bind]

/-- A failure inside the input is the failure of every longer input. -/
theorem feed_append_error {s : State} {xs : List Input} {e : Fault}
    (fed : M.feed s xs = .error e) (ys : List Input) : M.feed s (xs ++ ys) = .error e := by
  simp only [feed_append, fed, Except.bind]

theorem run_append_ok {s s' : State} {xs : List Input} (fed : M.feed s xs = .ok s')
    (ys : List Input) : M.run s (xs ++ ys) = M.run s' ys := by
  simp only [run, M.feed_append_ok fed]

theorem run_append_error {s : State} {xs : List Input} {e : Fault}
    (fed : M.feed s xs = .error e) (ys : List Input) : M.run s (xs ++ ys) = .error e := by
  simp only [run, M.feed_append_error fed, Except.bind]

theorem run_of_feed {s s' : State} {xs : List Input} (fed : M.feed s xs = .ok s') :
    M.run s xs = M.finish s' := by
  simp only [run, fed, Except.bind]

/-- A failure of a feed is the failure of one of its steps, the ones before it went well. -/
theorem split_of_feed_error {s : State} {xs : List Input} {e : Fault}
    (failed : M.feed s xs = .error e) :
    ∃ ys x zs t, xs = ys ++ x :: zs ∧ M.feed s ys = .ok t ∧ M.step t x = .error e := by
  induction xs generalizing s with
  | nil => cases failed
  | cons x xs ih =>
    cases step : M.step s x with
    | error e' =>
      rw [M.feed_cons_error step] at failed
      cases failed
      exact ⟨[], x, xs, s, rfl, rfl, step⟩
    | ok t =>
      rw [M.feed_cons_ok step] at failed
      obtain ⟨ys, y, zs, t', rfl, fed, stepped⟩ := ih failed
      exact ⟨x :: ys, y, zs, t', rfl, (M.feed_cons_ok step ys).trans fed, stepped⟩

end Machine

/-- Two outcomes that agree on success, with related answers or related faults. -/
inductive Related {F A F' A' : Type u} (faults : F → F' → Prop) (answers : A → A' → Prop) :
    Except F A → Except F' A' → Prop where
  | ok {a : A} {a' : A'} (alike : answers a a') : Related faults answers (.ok a) (.ok a')
  | error {e : F} {e' : F'} (alike : faults e e') : Related faults answers (.error e) (.error e')

/-- A relation of states that two machines keep, and answer alike from. -/
structure Simulation {S F A S' F' A' : Type u} {Input : Type v}
    (M : Machine S Input F A) (N : Machine S' Input F' A') where
  states : S → S' → Prop
  faults : F → F' → Prop
  answers : A → A' → Prop
  step : ∀ {s t}, states s t → ∀ x, Related faults states (M.step s x) (N.step t x)
  finish : ∀ {s t}, states s t → Related faults answers (M.finish s) (N.finish t)

namespace Simulation
variable {S F A S' F' A' : Type u} {Input : Type v}
variable {M : Machine S Input F A} {N : Machine S' Input F' A'} (sim : Simulation M N)

theorem run {s : S} {t : S'} (alike : sim.states s t) (xs : List Input) :
    Related sim.faults sim.answers (M.run s xs) (N.run t xs) := by
  induction xs generalizing s t with
  | nil => exact sim.finish alike
  | cons x xs ih =>
    have stepped := sim.step alike x
    generalize left : M.step s x = result at stepped
    generalize right : N.step t x = result' at stepped
    cases stepped with
    | ok alike' =>
      rw [M.run_cons_ok left, N.run_cons_ok right]
      exact ih alike'
    | error faulty =>
      rw [M.run_cons_error left, N.run_cons_error right]
      exact .error faulty

end Simulation

end Incremental
