import Mathlib.Data.List.Destutter
import Mathlib.Data.List.DropRight

/-!
# Bounded logs without repetitions

A log of at most `n` entries: an entry that equals the last one is not added,
and the oldest makes room for a new one. What a log holds is the end of what was
pushed, with adjacent repetitions left out.
-/

namespace BoundedLogs

universe u
variable {α : Type u} [DecidableEq α]

def push (n : Nat) (log : List α) (a : α) : List α :=
  if log.getLast? = some a then log
  else (if log.length = n then log.tail else log) ++ [a]

/-- The last `n` of the entries, of which equal neighbours count once. -/
def recent (n : Nat) (entries : List α) : List α := (entries.destutter (· ≠ ·)).rtake n

variable {n : Nat} {log entries : List α} {a : α}

theorem destutter'_concat (b a : α) (l : List α) :
    (l ++ [a]).destutter' (· ≠ ·) b =
      if (l.destutter' (· ≠ ·) b).getLast? = some a then l.destutter' (· ≠ ·) b
      else l.destutter' (· ≠ ·) b ++ [a] := by
  induction l generalizing b with
  | nil =>
    by_cases same : b = a <;> simp [same]
  | cons d l ih =>
    by_cases same : b = d
    · rw [List.cons_append, List.destutter'_cons_neg _ (by simpa using same),
        List.destutter'_cons_neg _ (by simpa using same), ih]
    · rw [List.cons_append, List.destutter'_cons_pos _ same, List.destutter'_cons_pos _ same, ih]
      have more := List.destutter'_ne_nil (R := (· ≠ ·)) (a := d) (l := l)
      rw [List.getLast?_cons_of_ne_nil more]
      split <;> rfl

theorem destutter_concat (l : List α) (a : α) :
    (l ++ [a]).destutter (· ≠ ·) =
      if (l.destutter (· ≠ ·)).getLast? = some a then l.destutter (· ≠ ·)
      else l.destutter (· ≠ ·) ++ [a] := by
  cases l with
  | nil => simp
  | cons b l => exact destutter'_concat b a l

omit [DecidableEq α] in
theorem getLast?_rtake (positive : 0 < n) (l : List α) : (l.rtake n).getLast? = l.getLast? := by
  cases l using List.reverseRecOn with
  | nil => simp
  | append_singleton l a =>
    obtain ⟨m, rfl⟩ : ∃ m, n = m + 1 := ⟨n - 1, by omega⟩
    simp [List.rtake_concat_succ]

/-- One push is one more entry. -/
theorem push_recent (positive : 0 < n) (entries : List α) (a : α) :
    push n (recent n entries) a = recent n (entries ++ [a]) := by
  unfold push recent
  rw [getLast?_rtake positive, destutter_concat]
  split
  next => rfl
  next =>
    obtain ⟨m, rfl⟩ : ∃ m, n = m + 1 := ⟨n - 1, by omega⟩
    rw [List.rtake_concat_succ]
    congr 1
    generalize entries.destutter (· ≠ ·) = l
    rw [List.rtake, List.rtake, List.length_drop]
    split
    next full => rw [List.tail_drop]; congr 1; omega
    next room => congr 1; omega

theorem foldl_push (positive : 0 < n) (entries : List α) :
    entries.foldl (push n) [] = recent n entries := by
  induction entries using List.reverseRecOn with
  | nil => simp [recent]
  | append_singleton entries a ih =>
    rw [List.foldl_append, ih]
    exact push_recent positive entries a

/-- A log within its bound and without repetitions is what pushing its entries gives. -/
theorem recent_self (fits : log.length ≤ n) (distinct : log.IsChain (· ≠ ·)) :
    recent n log = log := by
  rw [recent, List.destutter_of_isChain _ _ distinct, List.rtake, Nat.sub_eq_zero_of_le fits,
    List.drop_zero]

theorem foldl_push_of_log (positive : 0 < n) (fits : log.length ≤ n)
    (distinct : log.IsChain (· ≠ ·)) (entries : List α) :
    entries.foldl (push n) log = recent n (log ++ entries) := by
  rw [← foldl_push positive, List.foldl_append, foldl_push positive,
    recent_self fits distinct]

theorem recent_length_le (n : Nat) (entries : List α) : (recent n entries).length ≤ n := by
  rw [recent, List.rtake, List.length_drop]
  omega

theorem recent_distinct (n : Nat) (entries : List α) : (recent n entries).IsChain (· ≠ ·) := by
  rw [recent, List.rtake]
  exact (List.isChain_destutter _ entries).drop _

theorem push_map {β : Type u} [DecidableEq β] {f : α → β} (injective : Function.Injective f)
    (n : Nat) (log : List α) (a : α) : (push n log a).map f = push n (log.map f) (f a) := by
  have last : (log.map f).getLast? = some (f a) ↔ log.getLast? = some a := by
    rw [List.getLast?_map, Option.map_eq_some_iff]
    constructor
    · rintro ⟨b, there, same⟩
      rw [there, injective same]
    · intro there
      exact ⟨a, there, rfl⟩
  unfold push
  simp only [last, List.length_map]
  split
  next => rfl
  next => split <;> simp

theorem mem_push {b : α} (mem : b ∈ push n log a) : b ∈ log ∨ b = a := by
  unfold push at mem
  split at mem
  next => exact Or.inl mem
  next =>
    rcases List.mem_append.mp mem with old | new
    · split at old
      next => exact Or.inl (List.mem_of_mem_tail old)
      next => exact Or.inl old
    · exact Or.inr (List.mem_singleton.mp new)

theorem mem_recent (mem : a ∈ recent n entries) : a ∈ entries :=
  (List.destutter_sublist _ entries).subset (List.mem_of_mem_drop mem)

/-- What a log has dropped is not missed when more is pushed. -/
theorem recent_append (n : Nat) (old entries : List α) :
    recent n (recent n old ++ entries) = recent n (old ++ entries) := by
  cases n with
  | zero => simp [recent, List.rtake]
  | succ n =>
    have fits := recent_length_le (n + 1) old
    rw [← foldl_push_of_log n.succ_pos fits (recent_distinct _ _), ← foldl_push n.succ_pos,
      ← foldl_push n.succ_pos, ← List.foldl_append]

/-- A blank entry is pushed and the last entry taken off again. -/
def reopened (n : Nat) (b : α) (log : List α) : List α := (push n log b).dropLast

variable {b : α}

theorem last_recent_ne (words : ∀ a ∈ entries, a ≠ b) : (recent n entries).getLast? ≠ some b := by
  intro last
  exact words b (mem_recent (List.mem_of_getLast? last)) rfl

/-- Room is made for the blank entry, so a full log loses its oldest one. -/
theorem reopened_recent (positive : 0 < n) (words : ∀ a ∈ entries, a ≠ b) :
    reopened n b (recent n entries) = recent (n - 1) entries := by
  obtain ⟨m, rfl⟩ : ∃ m, n = m + 1 := ⟨n - 1, by omega⟩
  have last : (entries.destutter (· ≠ ·)).getLast? ≠ some b := by
    rw [← getLast?_rtake positive]
    exact last_recent_ne words
  rw [reopened, push_recent positive, recent, destutter_concat, if_neg last,
    List.rtake_concat_succ, List.dropLast_concat]
  rfl

/-- A log that has lost its oldest entry loses no other. -/
theorem reopened_shorter (positive : 0 < n) (words : ∀ a ∈ entries, a ≠ b) :
    reopened n b (recent (n - 1) entries) = recent (n - 1) entries := by
  have shorter := recent_length_le (n - 1) entries
  have self := recent_self (n := n) (by omega) (recent_distinct (n - 1) entries)
  have same : reopened n b (recent n (recent (n - 1) entries)) =
      recent (n - 1) (recent (n - 1) entries) :=
    reopened_recent positive fun a mem => words a (mem_recent mem)
  rw [self] at same
  rw [same, recent_self shorter (recent_distinct _ _)]

/-- An entry pushed in between is kept as if the log were shorter by one. -/
theorem reopened_push (positive : 0 < n) (words : ∀ a ∈ entries, a ≠ b) (new : a ≠ b) :
    reopened n b (push n (recent (n - 1) entries) a) = recent (n - 1) (entries ++ [a]) := by
  have shorter := recent_length_le (n - 1) entries
  have self := recent_self (n := n) (by omega) (recent_distinct (n - 1) entries)
  rw [← self, push_recent positive, reopened_recent positive, recent_append]
  intro d mem
  rcases List.mem_append.mp mem with old | last
  · exact words d (mem_recent old)
  · exact List.mem_singleton.mp last ▸ new

theorem reopened_concat (n : Nat) (log : List α) (b : α) : reopened n b (log ++ [b]) = log := by
  rw [reopened, push, if_pos (by simp), List.dropLast_concat]

theorem push_eq_reopened (n : Nat) (log : List α) (b : α) :
    push n log b = reopened n b log ++ [b] := by
  unfold reopened push
  split
  next last => exact (List.dropLast_append_getLast? b last).symm
  next => rw [List.dropLast_concat]

/-- A blank entry pushed in between is the one taken off. -/
theorem reopened_push_blank (positive : 0 < n) (words : ∀ a ∈ entries, a ≠ b) :
    reopened n b (push n (recent (n - 1) entries) b) = recent (n - 1) entries := by
  rw [push_eq_reopened, reopened_shorter positive words, reopened_concat]

end BoundedLogs
