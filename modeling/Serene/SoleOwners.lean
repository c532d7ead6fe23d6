import Mathlib.Logic.Equiv.Basic

/-!
# Sole owners

Resources are made in a place, are handed from place to place and are released
where they are held. If a resource is only ever in one place, and is only
released there, then it is released once, and once no place holds it any more it
has been.
-/

namespace SoleOwners

universe u v

/-- What the places hold, and how often a resource that was made has been released. -/
structure Holdings (Place : Type u) (Resource : Type v) where
  holds : Place → Option Resource
  releases : Resource → Option Nat

/-- A resource is in one place at most. As long as it is in one it has not been released, and
after that it has been, once. -/
structure Sole {Place : Type u} {Resource : Type v} (h : Holdings Place Resource) : Prop where
  unique : ∀ {p q r}, h.holds p = some r → h.holds q = some r → p = q
  kept : ∀ {p r}, h.holds p = some r → h.releases r = some 0
  gone : ∀ {r n}, h.releases r = some n → (∃ p, h.holds p = some r) ∨ n = 1

section Released
variable {Place : Type u} {Resource : Type v} {h : Holdings Place Resource} {r : Resource}

/-- At no time has a resource been released more than once. -/
theorem Sole.once (sole : Sole h) {n : Nat} (made : h.releases r = some n) : n ≤ 1 := by
  rcases sole.gone made with ⟨p, held⟩ | rfl
  · rw [sole.kept held] at made
    cases made
    exact Nat.zero_le 1
  · exact Nat.le_refl 1

/-- When the places are empty, every resource has been released exactly once. -/
theorem Sole.all_released (sole : Sole h) (empty : ∀ p, h.holds p = none) {n : Nat}
    (made : h.releases r = some n) : n = 1 := by
  refine (sole.gone made).resolve_left ?_
  rintro ⟨p, held⟩
  rw [empty p] at held
  cases held

end Released

section Steps
variable {Place : Type u} {Resource : Type v} [DecidableEq Place] [DecidableEq Resource]

namespace Holdings
variable (h : Holdings Place Resource)

/-- A new resource, held in a place. -/
def acquire (p : Place) (r : Resource) : Holdings Place Resource where
  holds := Function.update h.holds p (some r)
  releases := Function.update h.releases r (some 0)

def transfer (p source : Place) : Holdings Place Resource where
  holds := Function.update (Function.update h.holds p (h.holds source)) source none
  releases := h.releases

/-- What a place holds is released, if it holds anything. -/
def release (p : Place) : Holdings Place Resource where
  holds := Function.update h.holds p none
  releases := fun r => (h.releases r).map fun n => if h.holds p = some r then n + 1 else n

end Holdings

variable {h : Holdings Place Resource} {p q source : Place} {r s : Resource}

theorem acquire_holds (empty : h.holds p = none) :
    (h.acquire p r).holds q = some s ↔ (q = p ∧ s = r) ∨ h.holds q = some s := by
  simp only [Holdings.acquire, Function.update_apply]
  split
  · next same => simp [same, empty, eq_comm]
  · next other => simp [other]

theorem acquire_releases :
    (h.acquire p r).releases s = if s = r then some 0 else h.releases s :=
  Function.update_apply h.releases r (some 0) s

omit [DecidableEq Resource] in
/-- To hand a resource to an empty place is to rename the places. -/
theorem transfer_holds (empty : h.holds p = none) :
    (h.transfer p source).holds q = h.holds (Equiv.swap p source q) := by
  simp only [Holdings.transfer, Function.update_apply, Equiv.swap_apply_def]
  split
  · next same =>
    split
    · next loop => rw [← same, loop, empty]
    · exact empty.symm
  · split <;> rfl

theorem release_holds : (h.release p).holds q = some s ↔ q ≠ p ∧ h.holds q = some s := by
  simp only [Holdings.release, Function.update_apply]
  split
  · next same => simp [same]
  · next other => simp [other]

theorem acquire_sole (sole : Sole h) (empty : h.holds p = none) (new : h.releases r = none) :
    Sole (h.acquire p r) := by
  have nowhere (q : Place) : h.holds q ≠ some r := by
    intro held
    rw [sole.kept held] at new
    cases new
  constructor
  · intro a b s heldA heldB
    rw [acquire_holds empty] at heldA heldB
    rcases heldA with ⟨rfl, rfl⟩ | heldA
    · exact (heldB.resolve_right (nowhere b)).1.symm
    · rcases heldB with ⟨rfl, rfl⟩ | heldB
      · exact absurd heldA (nowhere a)
      · exact sole.unique heldA heldB
  · intro a s held
    rw [acquire_releases]
    split
    · rfl
    · next other =>
      rw [acquire_holds empty] at held
      exact sole.kept (held.resolve_left fun new => other new.2)
  · intro s n made
    rw [acquire_releases] at made
    split at made
    · next same => exact Or.inl ⟨p, (acquire_holds empty).mpr (Or.inl ⟨rfl, same⟩)⟩
    · refine (sole.gone made).imp_left ?_
      rintro ⟨a, held⟩
      exact ⟨a, (acquire_holds empty).mpr (Or.inr held)⟩

omit [DecidableEq Resource] in
theorem transfer_sole (sole : Sole h) (empty : h.holds p = none) : Sole (h.transfer p source) := by
  constructor
  · intro a b s heldA heldB
    rw [transfer_holds empty] at heldA heldB
    exact (Equiv.swap p source).injective (sole.unique heldA heldB)
  · intro a s held
    rw [transfer_holds empty] at held
    exact sole.kept held
  · intro s n made
    refine (sole.gone made).imp_left ?_
    rintro ⟨a, held⟩
    refine ⟨Equiv.swap p source a, ?_⟩
    rw [transfer_holds empty, Equiv.swap_apply_self]
    exact held

theorem release_sole (sole : Sole h) : Sole (h.release p) := by
  constructor
  · intro a b s heldA heldB
    exact sole.unique (release_holds.mp heldA).2 (release_holds.mp heldB).2
  · intro a s held
    obtain ⟨other, held⟩ := release_holds.mp held
    have elsewhere : h.holds p ≠ some s := fun here => other (sole.unique held here)
    simp only [Holdings.release, sole.kept held, Option.map_some, if_neg elsewhere]
  · intro s n made
    obtain ⟨k, before, rfl⟩ := Option.map_eq_some_iff.mp made
    split
    · next here =>
      rw [sole.kept here] at before
      cases before
      exact Or.inr rfl
    · next elsewhere =>
      refine (sole.gone before).imp_left ?_
      rintro ⟨a, held⟩
      refine ⟨a, release_holds.mpr ⟨?_, held⟩⟩
      rintro rfl
      exact elsewhere held

end Steps

end SoleOwners
