import Mathlib.Data.List.AList
import Mathlib.Data.List.Basic

/-!
# A table in front of a function

Values are kept under a key of the argument and given out again for every
argument with that key. So the first argument with a key decides for all of
them, and the table goes unnoticed exactly where the key determines the value.
-/

namespace KeyedMemo

universe u v w
variable {A : Type u} {K : Type v} {V : Type w} [DecidableEq K] (key : A → K) (f : A → V)

def call (table : K → Option V) (a : A) : V × (K → Option V) :=
  match table (key a) with
  | some v => (v, table)
  | none => (f a, fun k => if k = key a then some (f a) else table k)

/-- The values given out, one call after the other. -/
def run (table : K → Option V) : List A → List V
  | [] => []
  | a :: rest => (call key f table a).1 :: run (call key f table a).2 rest

/-- The first argument with the key of `a`. -/
def leader (args : List A) (a : A) : A := (args.find? fun b => key b = key a).getD a

/-- The table holds the value of the first argument with each key. -/
def Recorded (table : K → Option V) (seen : List A) : Prop :=
  ∀ k, table k = (seen.find? fun b => key b = k).map f

variable {key f} {table : K → Option V} {seen : List A}

theorem recorded_empty : Recorded key f (fun _ => none) [] := by
  intro k
  rfl

theorem call_recorded (recorded : Recorded key f table seen) (a : A) :
    (call key f table a).1 = f (leader key (seen ++ [a]) a) ∧
      Recorded key f (call key f table a).2 (seen ++ [a]) := by
  have own := recorded (key a)
  cases first : seen.find? fun b => key b = key a with
  | some b =>
    rw [first, Option.map_some] at own
    constructor
    · simp [call, own, leader, first]
    · intro k
      simp only [call, own, recorded k, List.find?_append]
      by_cases same : key a = k
      · subst same
        rw [first]
        rfl
      · simp [same]
  | none =>
    rw [first, Option.map_none] at own
    constructor
    · simp [call, own, leader, first]
    · intro k
      simp only [call, own, List.find?_append]
      by_cases same : k = key a
      · subst same
        simp [first]
      · simp [same, recorded k, Ne.symm same]

theorem leader_now (rest : List A) (a : A) :
    leader key (seen ++ a :: rest) a = leader key (seen ++ [a]) a := by
  simp [leader, List.find?_append]

theorem run_recorded (recorded : Recorded key f table seen) (args : List A) :
    run key f table args = args.map fun a => f (leader key (seen ++ args) a) := by
  induction args generalizing table seen with
  | nil => rfl
  | cons a rest ih =>
    obtain ⟨value, recorded'⟩ := call_recorded recorded a
    rw [run, ih recorded', value, List.map_cons, leader_now rest a, List.append_assoc]
    rfl

/-- From the empty table, every argument gets the value of the first with its key. -/
theorem run_eq (args : List A) :
    run key f (fun _ => none) args = args.map fun a => f (leader key args a) :=
  run_recorded recorded_empty args

theorem leader_spec {args : List A} {a : A} (mem : a ∈ args) :
    leader key args a ∈ args ∧ key (leader key args a) = key a := by
  cases first : args.find? fun b => key b = key a with
  | none =>
    have differs := List.find?_eq_none.mp first a mem
    exact absurd (decide_eq_true rfl) differs
  | some b =>
    rw [leader, first]
    exact ⟨List.mem_of_find?_eq_some first, by simpa using List.find?_some first⟩

theorem leader_congr {args : List A} {a b : A} (mem : a ∈ args) (same : key a = key b) :
    leader key args a = leader key args b := by
  obtain ⟨c, first⟩ : ∃ c, (args.find? fun d => key d = key b) = some c := by
    rw [← Option.isSome_iff_exists, List.find?_isSome]
    exact ⟨a, mem, by simpa using same⟩
  simp only [leader, same, first, Option.getD_some]

/-- Nothing is noticed of the table where arguments with one key have one value. -/
theorem transparent_iff (args : List A) :
    run key f (fun _ => none) args = args.map f ↔
      ∀ a ∈ args, ∀ b ∈ args, key a = key b → f a = f b := by
  rw [run_eq, List.map_inj_left]
  constructor
  · intro leads a memA b memB same
    calc f a = f (leader key args a) := (leads a memA).symm
      _ = f (leader key args b) := by rw [leader_congr memA same]
      _ = f b := leads b memB
  · intro determined a mem
    obtain ⟨first, same⟩ := @leader_spec _ _ _ key _ _ mem
    exact determined _ first a mem same

section Entries
variable {entries : AList fun _ : K => V} {a : A} {rest : List A}

theorem mem_recorded (recorded : Recorded key f (fun k => entries.lookup k) seen) (k : K) :
    k ∈ entries ↔ ∃ a ∈ seen, key a = k := by
  have own := congrArg Option.isSome (recorded k)
  rw [← AList.lookup_isSome]
  simp only at own
  simp [own]

/-- One key gives one entry, with the value of the first argument. -/
theorem recorded_single (recorded : Recorded key f (fun k => entries.lookup k) (a :: rest))
    (same : ∀ b ∈ rest, key b = key a) : entries.entries = [⟨key a, f a⟩] := by
  have keys : ∀ k ∈ entries.keys, k = key a := by
    intro k mem
    obtain ⟨b, there, rfl⟩ := (mem_recorded recorded k).mp mem
    rcases List.mem_cons.mp there with rfl | later
    · rfl
    · exact same b later
  have value : entries.lookup (key a) = some (f a) := by
    have first := recorded (key a)
    simpa using first
  have distinct := entries.keys_nodup
  obtain ⟨list, nodup⟩ := entries
  match list, nodup with
  | [], _ => simp [AList.lookup] at value
  | [⟨k, v⟩], _ =>
    obtain rfl : k = key a := keys k (by simp [AList.keys])
    have : v = f a := by simpa [AList.lookup] using value
    rw [this]
  | ⟨k, v⟩ :: ⟨k', v'⟩ :: list, _ =>
    have one := keys k (by simp [AList.keys])
    have other := keys k' (by simp [AList.keys])
    simp [AList.keys, one, other] at distinct

theorem recorded_of_single {entry : Sigma fun _ : K => V}
    (recorded : Recorded key f (fun k => entries.lookup k) (a :: rest))
    (single : entries.entries = [entry]) : ∀ b ∈ rest, key b = key a := by
  have alone : ∀ b ∈ a :: rest, key b = entry.1 := by
    intro b mem
    have there := (mem_recorded recorded (key b)).mpr ⟨b, mem, rfl⟩
    rw [AList.mem_keys, AList.keys, single] at there
    simpa using there
  intro b mem
  rw [alone b (List.mem_cons_of_mem a mem), alone a List.mem_cons_self]

end Entries

end KeyedMemo
