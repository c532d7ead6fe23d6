import Mathlib.Data.List.Induction
import Mathlib.Data.List.TakeWhile
import Mathlib.Logic.Function.Iterate
import Mathlib.Tactic.Tauto

/-!
# A line with a cursor

The elements before the cursor, nearest first, and those after it. A predicate
`joins` says which elements belong to the element before them, so that the
cursor moves over an element and all that join it at once, and a predicate
`blank` separates words.
-/

namespace Zippers

universe u
variable {α : Type u}

structure Zipper (α : Type u) where
  before : List α
  after : List α
  deriving DecidableEq

namespace Zipper

def contents (z : Zipper α) : List α := z.before.reverse ++ z.after

def atEnd (line : List α) : Zipper α := ⟨line.reverse, []⟩

def insert (a : α) (z : Zipper α) : Zipper α := ⟨a :: z.before, z.after⟩

def home (z : Zipper α) : Zipper α := ⟨[], z.contents⟩

def toEnd (z : Zipper α) : Zipper α := atEnd z.contents

/-- Drop what is after the cursor. -/
def cutAfter (z : Zipper α) : Zipper α := ⟨z.before, []⟩

section Clusters
variable (joins : α → Bool)

/-- Over the nearest element that joins nothing and those that join it. -/
def moveBack (z : Zipper α) : Zipper α :=
  match z.before.dropWhile joins with
  | [] => z
  | head :: rest => ⟨rest, head :: ((z.before.takeWhile joins).reverse ++ z.after)⟩

def eraseBack (z : Zipper α) : Zipper α :=
  match z.before.dropWhile joins with
  | [] => z
  | _ :: rest => ⟨rest, z.after⟩

/-- Over one element, whatever it is, and those that join it. -/
def moveOn (z : Zipper α) : Zipper α :=
  match z.after with
  | [] => z
  | a :: rest => ⟨(rest.takeWhile joins).reverse ++ a :: z.before, rest.dropWhile joins⟩

def eraseOn (z : Zipper α) : Zipper α :=
  match z.after with
  | [] => z
  | _ :: rest => ⟨z.before, rest.dropWhile joins⟩

end Clusters

/-- Drop the blanks before the cursor and the word before them. -/
def eraseWord (blank : α → Bool) (z : Zipper α) : Zipper α :=
  ⟨(z.before.dropWhile blank).dropWhile fun a => !blank a, z.after⟩

/-- Exchange the elements on the two sides of the cursor, which moves on unless that was the
last one. -/
def transpose (z : Zipper α) : Zipper α :=
  match z.before, z.after with
  | a :: l, [b] => ⟨b :: l, [a]⟩
  | a :: l, b :: r => ⟨a :: b :: l, r⟩
  | _, _ => z

@[simp] theorem mem_contents {z : Zipper α} {a : α} :
    a ∈ z.contents ↔ a ∈ z.before ∨ a ∈ z.after := by
  simp [contents]

variable {joins blank : α → Bool} {z : Zipper α} {a : α}

@[simp] theorem contents_atEnd (line : List α) : (atEnd line).contents = line := by
  simp [atEnd, contents]

@[simp] theorem contents_home : z.home.contents = z.contents := by simp [home, contents]

@[simp] theorem contents_toEnd : z.toEnd.contents = z.contents := contents_atEnd _

theorem contents_insert : (z.insert a).contents = z.before.reverse ++ a :: z.after := by
  simp [insert, contents]

@[simp] theorem contents_moveBack (joins : α → Bool) (z : Zipper α) :
    (z.moveBack joins).contents = z.contents := by
  unfold moveBack
  split
  next => rfl
  next head rest found =>
    have whole := List.takeWhile_append_dropWhile (p := joins) (l := z.before)
    rw [found] at whole
    have back := congrArg List.reverse whole
    simp only [List.reverse_append, List.reverse_cons] at back
    simp [contents, ← back]

@[simp] theorem contents_moveOn (joins : α → Bool) (z : Zipper α) :
    (z.moveOn joins).contents = z.contents := by
  unfold moveOn
  split
  next => rfl
  next a rest found =>
    simp [contents, found]

/-- Erasing forwards is moving forwards and dropping what was passed. -/
theorem eraseOn_eq : z.eraseOn joins = ⟨z.before, (z.moveOn joins).after⟩ := by
  unfold eraseOn moveOn
  split <;> rfl

/-- Erasing backwards is moving backwards and dropping what was passed. -/
theorem eraseBack_eq : z.eraseBack joins = ⟨(z.moveBack joins).before, z.after⟩ := by
  unfold eraseBack moveBack
  split <;> rfl

/-- An element typed in front of something that joins nothing is taken away again by one
erasure. -/
theorem eraseBack_insert (alone : joins a = false) : (z.insert a).eraseBack joins = z := by
  simp [insert, eraseBack, alone]

theorem eraseBack_insert_joining (rides : joins a = true) (some : z.before.dropWhile joins ≠ []) :
    (z.insert a).eraseBack joins = z.eraseBack joins := by
  obtain ⟨head, rest, found⟩ := List.exists_cons_of_ne_nil some
  simp [insert, eraseBack, rides, found]

theorem moveBack_moveOn {head : α} {rest : List α} (first : z.after = head :: rest)
    (alone : joins head = false) : (z.moveOn joins).moveBack joins = z := by
  have keep : ∀ a ∈ (rest.takeWhile joins).reverse, joins a = true := by
    intro a mem
    exact List.mem_takeWhile_imp (List.mem_reverse.mp mem)
  have split : (rest.takeWhile joins).reverse ++ head :: z.before =
      (rest.takeWhile joins).reverse ++ ([head] ++ z.before) := rfl
  simp only [moveOn, first, moveBack]
  rw [List.dropWhile_append_of_pos keep, List.takeWhile_append_of_pos keep]
  simp [alone, List.takeWhile_append_dropWhile, ← first]

theorem moveOn_moveBack {head : α} {rest : List α} (found : z.before.dropWhile joins = head :: rest)
    (alone : ∀ a ∈ z.after.head?, joins a = false) : (z.moveBack joins).moveOn joins = z := by
  have keep : ∀ a ∈ (z.before.takeWhile joins).reverse, joins a = true := by
    intro a mem
    exact List.mem_takeWhile_imp (List.mem_reverse.mp mem)
  have behind : z.after.takeWhile joins = [] ∧ z.after.dropWhile joins = z.after := by
    cases after : z.after with
    | nil => exact ⟨rfl, rfl⟩
    | cons b after =>
      have stops : joins b = false := alone b (by simp [after])
      simp [stops]
  have whole := List.takeWhile_append_dropWhile (p := joins) (l := z.before)
  rw [found] at whole
  simp only [moveBack, found, moveOn]
  rw [List.takeWhile_append_of_pos keep, List.dropWhile_append_of_pos keep, behind.1, behind.2,
    List.append_nil, List.reverse_reverse, whole]

/-- The elements the cursor stops at. -/
def stops (joins : α → Bool) (line : List α) : Nat := line.countP fun a => !joins a

/-- A text is put in before the cursor. -/
def insertAll (line : List α) (z : Zipper α) : Zipper α := ⟨line.reverse ++ z.before, z.after⟩

theorem contents_insertAll (line : List α) (z : Zipper α) :
    (z.insertAll line).contents = z.before.reverse ++ line ++ z.after := by
  simp [insertAll, contents]

theorem stops_cons (joins : α → Bool) (a : α) (line : List α) :
    stops joins (a :: line) = stops joins line + if joins a = true then 0 else 1 := by
  unfold stops
  rw [List.countP_cons]
  cases joins a <;> simp

theorem stops_dropWhile (joins : α → Bool) (line : List α) :
    stops joins (line.dropWhile joins) = stops joins line := by
  induction line with
  | nil => rfl
  | cons a line ih =>
    cases rides : joins a with
    | true => rw [List.dropWhile_cons_of_pos rides, ih, stops_cons, if_pos rides]; rfl
    | false => rw [List.dropWhile_cons_of_neg (by simp [rides])]

theorem insertAll_append (line more : List α) (z : Zipper α) :
    z.insertAll (line ++ more) = (z.insertAll line).insertAll more := by
  simp [insertAll]

theorem insertAll_cons (a : α) (line : List α) (z : Zipper α) :
    z.insertAll (a :: line) = (z.insert a).insertAll line :=
  insertAll_append [a] line z

/-- A text is erased by as many erasures as it has stops. -/
theorem eraseBack_insertAll (line : List α) (alone : ∀ a ∈ line.head?, joins a = false) :
    (eraseBack joins)^[stops joins line] (z.insertAll line) = z := by
  induction line using List.reverseRecOn with
  | nil => rfl
  | append_singleton line a ih =>
    have last : z.insertAll (line ++ [a]) = (z.insertAll line).insert a := insertAll_append _ _ _
    have count : stops joins (line ++ [a]) = stops joins line + stops joins [a] :=
      List.countP_append
    cases line with
    | nil =>
      have single : joins a = false := alone a rfl
      simp only [stops, List.nil_append, List.countP_singleton, single]
      exact eraseBack_insert single
    | cons b line =>
      have first : joins b = false := alone b rfl
      have before := ih alone
      cases rides : joins a with
      | false =>
        have one : stops joins [a] = 1 := by simp [stops, rides]
        rw [count, one, Function.iterate_succ_apply, last, eraseBack_insert rides, before]
      | true =>
        have one : stops joins [a] = 0 := by simp [stops, rides]
        obtain ⟨n, more⟩ : ∃ n, stops joins (b :: line) = n + 1 :=
          ⟨stops joins line, by rw [stops_cons, first]; rfl⟩
        -- the last erasure but one has something to erase, the first of the text
        have some : (z.insertAll (b :: line)).before.dropWhile joins ≠ [] := by
          intro all
          have every := List.dropWhile_eq_nil_iff.mp all b (by simp [insertAll])
          rw [first] at every
          cases every
        rw [count, one, Nat.add_zero]
        rw [more, Function.iterate_succ_apply] at before ⊢
        rw [last, eraseBack_insert_joining rides some, before]

theorem head_dropWhile {l : List α} (mem : a ∈ (l.dropWhile joins).head?) : joins a = false := by
  have stop := List.head?_dropWhile_not joins l
  rw [Option.mem_def.mp mem] at stop
  exact stop

/-- Steps there and the same number back, each of which undoes one. -/
theorem iterate_back {f g : Zipper α → Zipper α} (P : Nat → Zipper α → Prop)
    (one : ∀ {n z}, P (n + 1) z → g (f z) = z ∧ P n (f z)) :
    ∀ {n z}, P n z → g^[n] (f^[n] z) = z
  | 0, _, _ => rfl
  | n + 1, z, holds => by
    obtain ⟨back, next⟩ := one holds
    rw [Function.iterate_succ_apply', Function.iterate_succ_apply, iterate_back P one next, back]

theorem moveBack_iterate {n : Nat} (alone : ∀ a ∈ z.after.head?, joins a = false)
    (room : n ≤ stops joins z.after) : (moveBack joins)^[n] ((moveOn joins)^[n] z) = z := by
  refine iterate_back (fun n z => (∀ a ∈ z.after.head?, joins a = false) ∧
    n ≤ stops joins z.after) ?_ ⟨alone, room⟩
  rintro n ⟨before, after⟩ ⟨alone, room⟩
  cases after with
  | nil => exact absurd room (by simp [stops])
  | cons head rest =>
    have first : joins head = false := alone head rfl
    rw [stops_cons, first] at room
    refine ⟨moveBack_moveOn rfl first, ?_, ?_⟩
    · intro a mem
      exact head_dropWhile mem
    · change n ≤ stops joins (rest.dropWhile joins)
      rw [stops_dropWhile]
      simpa using room

theorem moveOn_iterate {n : Nat} (alone : ∀ a ∈ z.after.head?, joins a = false)
    (room : n ≤ stops joins z.before) : (moveOn joins)^[n] ((moveBack joins)^[n] z) = z := by
  refine iterate_back (fun n z => (∀ a ∈ z.after.head?, joins a = false) ∧
    n ≤ stops joins z.before) ?_ ⟨alone, room⟩
  rintro n z ⟨alone, room⟩
  rw [← stops_dropWhile] at room
  cases found : z.before.dropWhile joins with
  | nil => exact absurd room (by simp [found, stops])
  | cons head rest =>
    have first : joins head = false := head_dropWhile (l := z.before) (by rw [found]; rfl)
    rw [found, stops_cons, first] at room
    refine ⟨moveOn_moveBack found alone, ?_, ?_⟩
    · simpa [moveBack, found] using first
    · simpa [moveBack, found] using room

/-- No edit makes up an element. -/
theorem eraseBack_subset : (z.eraseBack joins).contents ⊆ z.contents := by
  intro a mem
  rw [eraseBack_eq, mem_contents] at mem
  rcases mem with before | after
  · rw [← contents_moveBack joins]
    exact mem_contents.mpr (Or.inl before)
  · exact mem_contents.mpr (Or.inr after)

theorem eraseOn_subset : (z.eraseOn joins).contents ⊆ z.contents := by
  intro a mem
  rw [eraseOn_eq, mem_contents] at mem
  rcases mem with before | after
  · exact mem_contents.mpr (Or.inl before)
  · rw [← contents_moveOn joins]
    exact mem_contents.mpr (Or.inr after)

theorem eraseWord_subset : (z.eraseWord blank).contents ⊆ z.contents := by
  intro a mem
  rcases mem_contents.mp mem with before | after
  · exact mem_contents.mpr
      (Or.inl (List.dropWhile_subset _ (List.dropWhile_subset _ before)))
  · exact mem_contents.mpr (Or.inr after)

theorem transpose_subset : z.transpose.contents ⊆ z.contents := by
  obtain ⟨before, after⟩ := z
  intro a mem
  match before, after with
  | [], _ => exact mem
  | _ :: _, [] => exact mem
  | c :: left, [b] =>
    simp only [transpose, mem_contents, List.mem_cons, List.not_mem_nil, or_false] at mem ⊢
    tauto
  | c :: left, b :: d :: right =>
    simp only [transpose, mem_contents, List.mem_cons] at mem ⊢
    tauto

theorem cutAfter_subset : z.cutAfter.contents ⊆ z.contents := by
  intro a mem
  simp only [cutAfter, mem_contents, List.not_mem_nil, or_false] at mem
  exact mem_contents.mpr (Or.inl mem)

end Zipper

end Zippers
