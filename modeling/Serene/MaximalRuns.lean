import Mathlib.Data.List.TakeWhile

/-!
# Maximal runs

A list begins with all the elements of a kind that there are, in one way.
-/

namespace MaximalRuns

variable {α : Type} {p : α → Bool} {v v' r r' : List α}

/-- The list is empty or begins with an element of another kind. -/
def Stops (p : α → Bool) (r : List α) : Prop := ∀ c ∈ r.head?, p c = false

theorem stops_nil : Stops p [] := by
  intro c mem
  cases mem

theorem stops_cons {c : α} (other : p c = false) (r : List α) : Stops p (c :: r) := by
  intro d mem
  rwa [← Option.some.inj mem]

theorem exists_run (p : α → Bool) (u : List α) :
    ∃ v r, u = v ++ r ∧ (∀ c ∈ v, p c = true) ∧ Stops p r := by
  refine ⟨u.takeWhile p, u.dropWhile p, List.takeWhile_append_dropWhile.symm,
    fun c mem => List.mem_takeWhile_imp mem, ?_⟩
  intro c first
  have stop := List.head?_dropWhile_not p u
  rw [Option.mem_def.mp first] at stop
  simpa using stop

theorem run_unique (all : ∀ c ∈ v, p c = true) (all' : ∀ c ∈ v', p c = true) (stops : Stops p r)
    (stops' : Stops p r') (same : v ++ r = v' ++ r') : v = v' ∧ r = r' := by
  have outside {w u : List α} {c : α} (stops : Stops p u) (all : ∀ d ∈ c :: w, p d = true) :
      u ≠ c :: (w ++ r) ∧ u ≠ c :: (w ++ r') := by
    have inside := all c List.mem_cons_self
    constructor <;> rintro rfl <;> cases inside.symm.trans (stops c rfl)
  induction v generalizing v' with
  | nil =>
    cases v' with
    | nil => exact ⟨rfl, same⟩
    | cons c v' => exact absurd same (outside stops all').2
  | cons c v ih =>
    cases v' with
    | nil => exact absurd same.symm (outside stops' all).1
    | cons d v' =>
      obtain ⟨rfl, rest⟩ := List.cons.inj same
      obtain ⟨rfl, rfl⟩ := ih (fun e mem => all e (List.mem_cons_of_mem c mem))
        (fun e mem => all' e (List.mem_cons_of_mem c mem)) rest
      exact ⟨rfl, rfl⟩

end MaximalRuns
