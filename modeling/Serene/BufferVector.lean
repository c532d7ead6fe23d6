import Mathlib.Data.List.Nodup
import Serene.CacheOwnership

/-!
# The buffers of a source manager

`AddNewSourceBuffer` makes a local object, moves it to the end of the vector and
leaves the moved-from object to its destructor. Where the vector grows, every
element moves to a new place. All this is a list of actions on objects, and each
of them makes sense where it stands.
-/

namespace BufferVector

open Locations SoleOwners CacheOwnership
open SourceBuffers (MemoryBuffer widthFor)

/-- A `std::vector<SrcBuffer>` by the addresses of its elements; from `free` on no address has
been used. -/
structure Buffers where
  elements : List Nat := []
  free : Nat := 0

/-- What happens to the elements there are when one is pushed back. A vector may grow when it
likes, and it may destroy each element that it has moved at once, or all of them afterwards. -/
inductive Growth where
  | inPlace
  | oneByOne
  | together

namespace Buffers

/-- The elements with their new places. -/
def moved (v : Buffers) : List (Nat × Nat) := v.elements.zipIdx v.free

def moveActions (moved : List (Nat × Nat)) : List Action :=
  moved.map fun (p, q) => .moveConstruct q p

def relocateActions (moved : List (Nat × Nat)) : List Action :=
  moved.flatMap fun (p, q) => [.moveConstruct q p, .destroy p]

/-- `buffers.push_back(std::move(nb))`. -/
def pushBack (v : Buffers) (nb : Nat) : Growth → List Action × Buffers
  | .inPlace => ([.moveConstruct v.free nb], ⟨v.elements ++ [v.free], v.free + 1⟩)
  | .oneByOne =>
    let last := v.free + v.elements.length
    (.moveConstruct last nb :: relocateActions v.moved, ⟨v.moved.map Prod.snd ++ [last], last + 1⟩)
  | .together =>
    let last := v.free + v.elements.length
    (.moveConstruct last nb :: (moveActions v.moved ++ v.elements.map .destroy),
      ⟨v.moved.map Prod.snd ++ [last], last + 1⟩)

/-- `nb` is the local object, and its destructor is the last thing that happens. -/
def addNewSourceBuffer (v : Buffers) (f : MemoryBuffer) (includeLoc : LocationRange)
    (growth : Growth) : List Action × Buffers :=
  let nb := v.free
  let (pushed, v') := pushBack { v with free := nb + 1 } nb growth
  (.construct nb :: .assign nb f includeLoc :: (pushed ++ [.destroy nb]), v')

/-- A line of the buffer at an index; the assertion keeps other indexes out. -/
def getPointerForLineNumber (v : Buffers) (i : Nat) (lineNo : UInt32) : List Action :=
  match v.elements[i]? with
  | none => []
  | some p => [.getPointerForLineNumber p lineNo]

end Buffers

inductive Call where
  | addNewSourceBuffer (f : MemoryBuffer) (includeLoc : LocationRange) (growth : Growth)
  | getPointerForLineNumber (i : Nat) (lineNo : UInt32)

def Buffers.call (v : Buffers) : Call → List Action × Buffers
  | .addNewSourceBuffer f includeLoc growth => v.addNewSourceBuffer f includeLoc growth
  | .getPointerForLineNumber i lineNo => (v.getPointerForLineNumber i lineNo, v)

/-- The elements of the vector are destroyed in their order, or backwards. -/
def Buffers.destroy (v : Buffers) (backwards : Bool) : List Action :=
  (if backwards then v.elements.reverse else v.elements).map .destroy

/-- What the calls do to the objects, up to the end of the destructor. -/
def Buffers.lifetime (v : Buffers) (backwards : Bool) : List Call → List Action
  | [] => v.destroy backwards
  | call :: calls => (v.call call).1 ++ (v.call call).2.lifetime backwards calls

/-- From these places to those, by actions that are allowed. -/
inductive Path : (Nat → Place) → List Action → (Nat → Place) → Prop where
  | nil {a : Nat → Place} : Path a [] a
  | cons {a b : Nat → Place} {action : Action} {actions : List Action}
      (allowed : Allowed a action) (rest : Path (effect a action) actions b) :
      Path a (action :: actions) b

/-- The same thing at all these addresses. -/
def fill (ps : List Nat) (place : Place) (a : Nat → Place) : Nat → Place :=
  fun p => if p ∈ ps then place else a p

section Paths
variable {a b c : Nat → Place} {actions more : List Action} {ps : List Nat} {p q : Nat}
  {place : Place}

theorem Path.append (first : Path a actions b) (second : Path b more c) :
    Path a (actions ++ more) c := by
  induction first with
  | nil => exact second
  | cons allowed _ ih => exact .cons allowed (ih second)

theorem Path.front (path : Path a (actions ++ more) c) : ∃ b, Path a actions b := by
  induction actions generalizing a with
  | nil => exact ⟨a, .nil⟩
  | cons action actions ih =>
    cases path with
    | cons allowed rest =>
      obtain ⟨b, front⟩ := ih rest
      exact ⟨b, .cons allowed front⟩

/-- Along a path nothing goes wrong. -/
theorem run_goes {m : Memory} (sound : Sound m) (path : Path (places m) actions b) :
    Goes b (m.run actions) := by
  induction actions generalizing m with
  | nil =>
    cases path
    exact ⟨m, rfl, sound, rfl⟩
  | cons action actions ih =>
    cases path with
    | cons allowed rest =>
      obtain ⟨m', done, sound', same⟩ := exec_goes sound allowed
      rw [← same] at rest
      rw [Memory.run, done]
      exact ih sound' rest

theorem fill_cons (p : Nat) (ps : List Nat) (place : Place) (a : Nat → Place) :
    fill (p :: ps) place a = fill ps place (Function.update a p place) := by
  funext x
  simp only [fill, List.mem_cons, Function.update_apply]
  by_cases inside : x ∈ ps
  · simp [inside]
  · simp [inside]

theorem fill_update (other : q ∉ ps) (new : Place) :
    fill ps place (Function.update a q new) = Function.update (fill ps place a) q new := by
  funext x
  simp only [fill, Function.update_apply]
  by_cases same : x = q
  · subst same
    simp [other]
  · simp [same]

/-- Objects at different addresses are destroyed. -/
theorem destroy_path (distinct : ps.Nodup) (present : ∀ p ∈ ps, a p ≠ .absent) :
    Path a (ps.map .destroy) (fill ps .absent a) := by
  induction ps generalizing a with
  | nil => exact .nil
  | cons p ps ih =>
    obtain ⟨fresh, distinct⟩ := List.nodup_cons.mp distinct
    rw [fill_cons]
    refine .cons (present p List.mem_cons_self) (ih distinct ?_)
    intro q mem
    have other : q ≠ p := ne_of_mem_of_not_mem mem fresh
    rw [effect, Function.update_of_ne other]
    exact present q (List.mem_cons_of_mem p mem)

end Paths

/-- Elements at different addresses, each with a new place of its own. -/
structure Movable (a : Nat → Place) (moved : List (Nat × Nat)) : Prop where
  distinct : (moved.map Prod.fst).Nodup
  apart : (moved.map Prod.snd).Nodup
  loaded : ∀ p ∈ moved.map Prod.fst, a p = .loaded
  absent : ∀ q ∈ moved.map Prod.snd, a q = .absent

/-- The elements are at their new places, and there is this left at the old ones. -/
def arrived (moved : List (Nat × Nat)) (left : Place) (a : Nat → Place) : Nat → Place :=
  fill (moved.map Prod.snd) .loaded (fill (moved.map Prod.fst) left a)

section Moving
variable {a : Nat → Place} {moved : List (Nat × Nat)} {p q : Nat} {left : Place}

theorem ne_of_places (old : a p = .loaded) (new : a q = .absent) : p ≠ q := by
  rintro rfl
  rw [old] at new
  cases new

theorem Movable.rest (movable : Movable a ((p, q) :: moved)) :
    Movable (Function.update (Function.update a q .loaded) p left) moved := by
  obtain ⟨freshOld, distinct⟩ := List.nodup_cons.mp movable.distinct
  obtain ⟨freshNew, apart⟩ := List.nodup_cons.mp movable.apart
  obtain ⟨old, olds⟩ := List.forall_mem_cons.mp movable.loaded
  obtain ⟨new, news⟩ := List.forall_mem_cons.mp movable.absent
  refine ⟨distinct, apart, ?_, ?_⟩
  · intro r mem
    have other : r ≠ p := ne_of_mem_of_not_mem mem freshOld
    have place : r ≠ q := ne_of_places (olds r mem) new
    rw [Function.update_of_ne other, Function.update_of_ne place, olds r mem]
  · intro r mem
    have other : r ≠ p := (ne_of_places old (news r mem)).symm
    have place : r ≠ q := ne_of_mem_of_not_mem mem freshNew
    rw [Function.update_of_ne other, Function.update_of_ne place, news r mem]

theorem arrived_cons (movable : Movable a ((p, q) :: moved)) :
    arrived ((p, q) :: moved) left a =
      arrived moved left (Function.update (Function.update a q .loaded) p left) := by
  obtain ⟨old, olds⟩ := List.forall_mem_cons.mp movable.loaded
  have new : a q = .absent := movable.absent q List.mem_cons_self
  have other : q ≠ p := (ne_of_places old new).symm
  have outside : q ∉ moved.map Prod.fst := fun mem => ne_of_places (olds q mem) new rfl
  rw [arrived, arrived, List.map_cons, List.map_cons, fill_cons, fill_cons,
    Function.update_comm other, fill_update outside]

/-- An element may be moved to its new place, which changes no other place. -/
theorem Movable.move (movable : Movable a ((p, q) :: moved)) :
    Allowed a (.moveConstruct q p) ∧ effect a (.moveConstruct q p) =
      Function.update (Function.update a q .loaded) p .hollow := by
  have old : a p = .loaded := movable.loaded p List.mem_cons_self
  have present : a p ≠ .absent := by
    rw [old]
    simp
  exact ⟨⟨movable.absent q List.mem_cons_self, present⟩, by rw [effect, old]⟩

theorem moveActions_path (movable : Movable a moved) :
    Path a (Buffers.moveActions moved) (arrived moved .hollow a) := by
  induction moved generalizing a with
  | nil => exact .nil
  | cons pq moved ih =>
    obtain ⟨allowed, same⟩ := movable.move
    rw [arrived_cons movable, ← same]
    refine .cons allowed (ih ?_)
    rw [same]
    exact movable.rest

theorem relocateActions_path (movable : Movable a moved) :
    Path a (Buffers.relocateActions moved) (arrived moved .absent a) := by
  induction moved generalizing a with
  | nil => exact .nil
  | cons pq moved ih =>
    obtain ⟨p, q⟩ := pq
    obtain ⟨allowed, same⟩ := movable.move
    have hollow : effect a (.moveConstruct q p) p ≠ .absent := by
      rw [same, Function.update_self]
      simp
    have both : effect (effect a (.moveConstruct q p)) (.destroy p) =
        Function.update (Function.update a q .loaded) p .absent := by
      rw [same, effect, Function.update_idem]
    rw [arrived_cons movable]
    refine .cons allowed (.cons hollow ?_)
    rw [both]
    exact ih movable.rest

/-- It makes no difference when the old places are destroyed. -/
theorem fill_arrived (movable : Movable a moved) :
    fill (moved.map Prod.fst) .absent (arrived moved .hollow a) = arrived moved .absent a := by
  funext p
  simp only [arrived, fill]
  by_cases old : p ∈ moved.map Prod.fst
  · have notNew : p ∉ moved.map Prod.snd := fun new =>
      ne_of_places (movable.loaded p old) (movable.absent p new) rfl
    simp only [old, notNew, if_true, if_false]
  · simp only [old, if_false]

/-- The elements are carried over, and there is nothing at their old places. -/
theorem carried_path (movable : Movable a moved) :
    Path a (Buffers.moveActions moved ++ (moved.map Prod.fst).map .destroy)
      (arrived moved .absent a) := by
  rw [← fill_arrived movable]
  refine (moveActions_path movable).append (destroy_path movable.distinct ?_)
  intro p mem
  simp only [arrived, fill, mem, if_true]
  split <;> simp

end Moving

/-- The elements of the vector are the objects there are, and every one has a buffer. -/
structure Filled (v : Buffers) (a : Nat → Place) : Prop where
  distinct : v.elements.Nodup
  used : ∀ p ∈ v.elements, p < v.free
  there : a = fill v.elements .loaded fun _ => .absent

section Calls
variable {v : Buffers} {a : Nat → Place} {p nb : Nat}

theorem Filled.loaded (filled : Filled v a) (mem : p ∈ v.elements) : a p = .loaded := by
  rw [filled.there, fill, if_pos mem]

theorem Filled.absent (filled : Filled v a) (missing : p ∉ v.elements) : a p = .absent := by
  rw [filled.there, fill, if_neg missing]

theorem Filled.fresh (filled : Filled v a) : v.free ∉ v.elements :=
  fun mem => Nat.lt_irrefl _ (filled.used _ mem)

theorem moved_fst (v : Buffers) : v.moved.map Prod.fst = v.elements := List.zipIdx_map_fst _ _

theorem moved_snd (v : Buffers) :
    v.moved.map Prod.snd = List.range' v.free v.elements.length := List.zipIdx_map_snd _ _

theorem Filled.free (filled : Filled v a) (unused : v.free ≤ p) : a p = .absent := by
  apply filled.absent
  intro mem
  exact Nat.not_lt.mpr unused (filled.used p mem)

/-- The places when the local object, at the first free address, has been moved. -/
def pushed (v : Buffers) (a : Nat → Place) (last : Nat) : Nat → Place :=
  Function.update (Function.update a last .loaded) v.free .hollow

/-- The local object is moved to its place in the vector before anything else moves. -/
theorem pushed_path {last : Nat} {rest : List Action} {c : Nat → Place} (filled : Filled v a)
    (later : v.free < last) (path : Path (pushed v a last) rest c) :
    Path (Function.update a v.free .loaded) (.moveConstruct last v.free :: rest) c := by
  have absent : Function.update a v.free .loaded last = .absent := by
    rw [Function.update_of_ne later.ne']
    exact filled.free later.le
  have present : Function.update a v.free .loaded v.free ≠ .absent := by
    rw [Function.update_self]
    simp
  have same : effect (Function.update a v.free .loaded) (.moveConstruct last v.free) =
      pushed v a last := by
    rw [effect, Function.update_self, Function.update_comm later.ne, Function.update_idem]
    rfl
  refine .cons ⟨absent, present⟩ ?_
  rw [same]
  exact path

theorem in_place (filled : Filled v a) :
    Filled ⟨v.elements ++ [v.free + 1], v.free + 2⟩
      (Function.update (pushed v a (v.free + 1)) v.free .absent) := by
  have unused : ∀ p ∈ v.elements, p < v.free := filled.used
  refine ⟨?_, ?_, ?_⟩
  · refine List.nodup_append.mpr ⟨filled.distinct, List.nodup_singleton _, ?_⟩
    intro p mem q last
    have below := unused p mem
    rw [List.mem_singleton.mp last]
    omega
  · intro p mem
    rcases List.mem_append.mp mem with mem | mem
    · have below := unused p mem
      change p < v.free + 2
      omega
    · rw [List.mem_singleton.mp mem]
      exact Nat.lt_succ_self _
  · funext p
    rw [filled.there]
    simp only [pushed, fill, Function.update_apply, List.mem_append, List.mem_singleton]
    by_cases first : p = v.free
    · simp [first, filled.fresh]
    · by_cases mem : p ∈ v.elements
      · simp [first, mem]
      · simp [first, mem]

/-- The elements move behind the local object, and the new one is at the end of them. -/
theorem movable_pushed (filled : Filled v a) :
    Movable (pushed v a (v.free + 1 + v.elements.length))
      (Buffers.moved ⟨v.elements, v.free + 1⟩) := by
  have unused : ∀ p ∈ v.elements, p < v.free := filled.used
  have places {p : Nat} (other : p ≠ v.free) (inner : p ≠ v.free + 1 + v.elements.length) :
      pushed v a (v.free + 1 + v.elements.length) p = a p := by
    rw [pushed, Function.update_of_ne other, Function.update_of_ne inner]
  refine ⟨?_, ?_, ?_, ?_⟩
  · rw [moved_fst]
    exact filled.distinct
  · rw [moved_snd]
    exact List.nodup_range'
  · intro p old
    rw [moved_fst] at old
    have below := unused p old
    rw [places (by omega) (by omega)]
    exact filled.loaded old
  · intro q new
    rw [moved_snd] at new
    obtain ⟨low, high⟩ := List.mem_range'_1.mp new
    change v.free + 1 ≤ q at low
    change q < v.free + 1 + v.elements.length at high
    rw [places (by omega) (by omega)]
    exact filled.free (by omega)

theorem grown (filled : Filled v a) :
    Filled ⟨(Buffers.moved ⟨v.elements, v.free + 1⟩).map Prod.snd ++
        [v.free + 1 + v.elements.length], v.free + 1 + v.elements.length + 1⟩
      (Function.update (arrived (Buffers.moved ⟨v.elements, v.free + 1⟩) .absent
        (pushed v a (v.free + 1 + v.elements.length))) v.free .absent) := by
  have unused : ∀ p ∈ v.elements, p < v.free := filled.used
  have news : (Buffers.moved ⟨v.elements, v.free + 1⟩).map Prod.snd =
      List.range' (v.free + 1) v.elements.length := moved_snd _
  rw [arrived, news, moved_fst]
  refine ⟨?_, ?_, ?_⟩
  · refine List.nodup_append.mpr ⟨List.nodup_range', List.nodup_singleton _, ?_⟩
    intro p mem q last
    have inside := List.mem_range'_1.mp mem
    rw [List.mem_singleton.mp last]
    omega
  · intro p mem
    change p < v.free + 1 + v.elements.length + 1
    rcases List.mem_append.mp mem with mem | mem
    · have inside := List.mem_range'_1.mp mem
      omega
    · rw [List.mem_singleton.mp mem]
      exact Nat.lt_succ_self _
  · funext p
    rw [filled.there]
    simp only [pushed, fill, Function.update_apply, List.mem_append, List.mem_singleton,
      List.mem_range'_1]
    have below := unused p
    grind

theorem pushBack_path (filled : Filled v a) (growth : Growth) :
    ∃ c, Path (Function.update a v.free .loaded)
        (Buffers.pushBack ⟨v.elements, v.free + 1⟩ v.free growth).1 c ∧
      c v.free ≠ .absent ∧
      Filled (Buffers.pushBack ⟨v.elements, v.free + 1⟩ v.free growth).2
        (Function.update c v.free .absent) := by
  have movable := movable_pushed filled
  have hollow {last : Nat} : pushed v a last v.free ≠ .absent := by
    rw [pushed, Function.update_self]
    simp
  have left : arrived (Buffers.moved ⟨v.elements, v.free + 1⟩) .absent
      (pushed v a (v.free + 1 + v.elements.length)) v.free ≠ .absent := by
    have below : v.free ∉ List.range' (v.free + 1) v.elements.length := by
      rw [List.mem_range'_1]
      omega
    rw [arrived, fill, moved_snd, if_neg below, fill, moved_fst, if_neg filled.fresh]
    exact hollow
  cases growth with
  | inPlace =>
    exact ⟨_, pushed_path filled (Nat.lt_succ_self _) .nil, hollow, in_place filled⟩
  | oneByOne =>
    have path := pushed_path filled (by omega) (relocateActions_path movable)
    exact ⟨_, path, left, grown filled⟩
  | together =>
    have carried := carried_path movable
    rw [moved_fst] at carried
    have path := pushed_path filled (by omega) carried
    exact ⟨_, path, left, grown filled⟩

theorem addNewSourceBuffer_path (filled : Filled v a) (f : MemoryBuffer)
    (includeLoc : LocationRange) (growth : Growth) :
    ∃ b, Path a (v.addNewSourceBuffer f includeLoc growth).1 b ∧
      Filled (v.addNewSourceBuffer f includeLoc growth).2 b := by
  obtain ⟨c, path, left, filled'⟩ := pushBack_path filled growth
  refine ⟨_, ?_, filled'⟩
  have fresh : a v.free = .absent := filled.free (Nat.le_refl _)
  have made : effect a (.construct v.free) v.free = .hollow := Function.update_self ..
  have assigned : effect (effect a (.construct v.free)) (.assign v.free f includeLoc) =
      Function.update a v.free .loaded := Function.update_idem ..
  refine .cons fresh (.cons made ?_)
  rw [assigned]
  exact path.append (.cons left .nil)

theorem call_path (filled : Filled v a) (call : Call) :
    ∃ b, Path a (v.call call).1 b ∧ Filled (v.call call).2 b := by
  cases call with
  | addNewSourceBuffer f includeLoc growth =>
    exact addNewSourceBuffer_path filled f includeLoc growth
  | getPointerForLineNumber i lineNo =>
    simp only [Buffers.call, Buffers.getPointerForLineNumber]
    cases found : v.elements[i]? with
    | none => exact ⟨a, .nil, filled⟩
    | some p => exact ⟨a, .cons (filled.loaded (List.mem_of_getElem? found)) .nil, filled⟩

theorem destroyed_path (filled : Filled v a) {order : List Nat} (perm : order.Perm v.elements) :
    Path a (order.map .destroy) fun _ => .absent := by
  have gone : fill order .absent a = fun _ => .absent := by
    funext p
    rw [fill]
    split
    · rfl
    · next missing => exact filled.absent fun mem => missing (perm.mem_iff.mpr mem)
  rw [← gone]
  apply destroy_path (perm.nodup_iff.mpr filled.distinct)
  intro p mem
  rw [filled.loaded (perm.mem_iff.mp mem)]
  simp

/-- From between two calls to the end, when no object is left. -/
theorem lifetime_path (filled : Filled v a) (backwards : Bool) (calls : List Call) :
    Path a (v.lifetime backwards calls) fun _ => .absent := by
  induction calls generalizing v a with
  | nil =>
    cases backwards with
    | false => exact destroyed_path filled (List.Perm.refl _)
    | true => exact destroyed_path filled (List.reverse_perm _)
  | cons call calls ih =>
    obtain ⟨b, path, filled'⟩ := call_path filled call
    exact path.append (ih filled')

end Calls

/-- In the memory no cache has two owners, every one has the width that the size of its owner's
buffer selects, and none has been deleted more than once. -/
structure Owned (m : Memory) : Prop where
  owner : ∀ p q o o' cache, m.objects p = some o → m.objects q = some o' →
    o.offsetCache = some cache → o'.offsetCache = some cache → p = q
  width : ∀ p o cache, m.objects p = some o → o.offsetCache = some cache →
    ∃ buffer cell, o.buffer = some buffer ∧ m.cells[cache]? = some cell ∧
      cell.vector.width = widthFor buffer.size
  deletions : ∀ cell ∈ m.cells, cell.deletions ≤ 1

theorem owned_of_sound {m : Memory} (sound : Sound m) : Owned m := by
  constructor
  · intro p q o o' cache there there' held held'
    exact sound.sole.unique ((holds_some there).trans held) ((holds_some there').trans held')
  · intro p o cache there held
    obtain ⟨buffer, cell, full, made, own⟩ := sound.typed p o cache there held
    exact ⟨buffer, cell, full, made, by rw [own]; rfl⟩
  · intro cell mem
    obtain ⟨cache, made⟩ := List.getElem?_of_mem mem
    exact sound.sole.once (releases_some made)

/-- Every run of adding buffers and looking up lines, with the vector growing whenever it likes,
goes without a fault up to the end of the destructor: every cache is used and deleted at the
width it was made with, by its one owner. In the end each has been deleted exactly once. -/
theorem caches_owned (calls : List Call) (backwards : Bool) :
    (∀ done rest, Buffers.lifetime {} backwards calls = done ++ rest →
      ∃ m, Memory.run {} done = .ok m ∧ Owned m) ∧
    ∃ m, Memory.run {} (Buffers.lifetime {} backwards calls) = .ok m ∧
      (∀ p, m.objects p = none) ∧ ∀ cell ∈ m.cells, cell.deletions = 1 := by
  have filled : Filled {} (places {}) := ⟨List.nodup_nil, by simp, rfl⟩
  have path := lifetime_path filled backwards calls
  constructor
  · intro done rest split
    rw [split] at path
    obtain ⟨b, front⟩ := path.front
    obtain ⟨m, ran, sound, -⟩ := run_goes empty_sound front
    exact ⟨m, ran, owned_of_sound sound⟩
  · obtain ⟨m, ran, sound, gone⟩ := run_goes empty_sound path
    have empty (p : Nat) : m.objects p = none := absent_iff.mp (congrFun gone p)
    refine ⟨m, ran, empty, ?_⟩
    intro cell mem
    obtain ⟨cache, made⟩ := List.getElem?_of_mem mem
    exact sound.sole.all_released (fun p => holds_none (empty p)) (releases_some made)

end BufferVector
