import Mathlib.Data.List.TakeDrop

/-!
# A block of memory

A block is the list of its cells. Loads and stores name cells by their index;
one that leaves the block has no meaning and is `none`. The rules are stated on
a block cut where the access begins.
-/

namespace MemoryBlocks

universe u
variable {α : Type u}

/-- The `n` cells from `i` on. -/
def load (mem : List α) (i n : Nat) : Option (List α) :=
  if i + n ≤ mem.length then some ((mem.drop i).take n) else none

/-- The block with `vs` in the cells from `i` on. -/
def store (mem : List α) (i : Nat) (vs : List α) : Option (List α) :=
  if i + vs.length ≤ mem.length then
    some (mem.take i ++ (vs ++ mem.drop (i + vs.length)))
  else none

/-- Copy `n` cells within the block; the two places may overlap. -/
def move (mem : List α) (dst src n : Nat) : Option (List α) :=
  (load mem src n).bind (store mem dst)

variable {x y z vs mem mem' : List α} {i n : Nat}

theorem load_mid (x y z : List α) : load (x ++ (y ++ z)) x.length y.length = some y := by
  unfold load
  rw [if_pos (by simp [List.length_append])]
  simp

theorem load_front (y z : List α) : load (y ++ z) 0 y.length = some y := load_mid [] y z

theorem store_at (x y vs : List α) (fits : vs.length ≤ y.length) :
    store (x ++ y) x.length vs = some (x ++ (vs ++ y.drop vs.length)) := by
  unfold store
  rw [if_pos (by simpa [List.length_append] using fits)]
  simp [List.drop_append]

theorem store_length (stored : store mem i vs = some mem') : mem'.length = mem.length := by
  unfold store at stored
  split at stored
  next fits =>
    cases stored
    simp only [List.length_append, List.length_take, List.length_drop]
    omega
  next => cases stored

theorem store_eq_none : store mem i vs = none ↔ mem.length < i + vs.length := by
  unfold store
  split <;> simp <;> omega

theorem move_length {dst src : Nat} (moved : move mem dst src n = some mem') :
    mem'.length = mem.length := by
  unfold move at moved
  cases loaded : load mem src n with
  | none => rw [loaded] at moved; cases moved
  | some vs => rw [loaded] at moved; exact store_length moved

/-- Cells `y` shifted up by the length of `vs`, and `vs` put in the gap. -/
theorem open_gap (x y z vs : List α) (fits : vs.length ≤ z.length) :
    ((move (x ++ (y ++ z)) (x.length + vs.length) x.length y.length).bind fun mem =>
      store mem x.length vs) = some (x ++ (vs ++ (y ++ z.drop vs.length))) := by
  -- `w` are the cells the gap will take, `r` those behind them
  obtain ⟨w, r, split, width⟩ : ∃ w r, y ++ z = w ++ r ∧ w.length = vs.length :=
    ⟨(y ++ z).take vs.length, (y ++ z).drop vs.length, (List.take_append_drop _ _).symm,
      by simp only [List.length_take, List.length_append]; omega⟩
  have behind : r.drop y.length = z.drop vs.length := by
    have : r = (y ++ z).drop vs.length := by rw [split, ← width, List.drop_left]
    rw [this, List.drop_drop, Nat.add_comm, ← List.drop_drop, List.drop_left]
  have room : y.length ≤ r.length := by
    have := congrArg List.length split
    simp only [List.length_append] at this
    omega
  have shifted : store (x ++ (y ++ z)) (x.length + vs.length) y =
      some (x ++ (w ++ (y ++ z.drop vs.length))) := by
    have here := store_at (x ++ w) r y room
    rw [behind, List.append_assoc, ← split, List.length_append, width] at here
    rw [here, List.append_assoc]
  unfold move
  rw [load_mid, Option.bind_some, shifted, Option.bind_some, store_at, ← width, List.drop_left]
  simp only [List.length_append]
  omega

/-- Cells `y` shifted down over `d`. -/
theorem close_gap (x d y z : List α) :
    move (x ++ (d ++ (y ++ z))) x.length (x.length + d.length) y.length =
      some (x ++ (y ++ (d ++ (y ++ z)).drop y.length)) := by
  have loaded : load (x ++ (d ++ (y ++ z))) (x.length + d.length) y.length = some y := by
    have mid := load_mid (x ++ d) y z
    rwa [List.append_assoc, List.length_append] at mid
  unfold move
  rw [loaded, Option.bind_some]
  exact store_at _ _ _ (by simp only [List.length_append]; omega)

end MemoryBlocks
