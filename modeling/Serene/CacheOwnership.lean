import Serene.SoleOwners
import Serene.SourceBuffers

/-!
# Who owns an offset cache

A `SrcBuffer` keeps its cache behind a `void *`: its type is chosen again from
the size of the buffer on every lookup, and once more, on a ladder of its own,
in the destructor. The objects move whenever their vector grows. The model has
the objects and the caches in a memory, where a wrong use is a fault.
-/

namespace CacheOwnership

open ByteClasses Locations Lines SourceBuffers SoleOwners

/-- `SrcBuffer` as an object in memory: one that was moved from has no buffer, and the cache is
an address. -/
structure Object where
  buffer : Option MemoryBuffer := none
  offsetCache : Option Nat := none
  importLoc : LocationRange := {}

/-- A vector made by `new`, and how often it has been deleted. -/
structure Cell where
  vector : OffsetCache
  deletions : Nat := 0

structure Memory where
  objects : Nat → Option Object := fun _ => none
  cells : List Cell := []

inductive Fault where
  | noObject
  | occupied
  | nullBuffer
  | noCache
  | deletedCache
  | wrongWidth
  | assertionFailed

namespace Memory

def set (m : Memory) (p : Nat) (o : Option Object) : Memory :=
  { m with objects := Function.update m.objects p o }

/-- The object at an address. -/
def get (m : Memory) (p : Nat) : Except Fault Object := (m.objects p).elim (.error .noObject) .ok

/-- A use of the cache as a `std::vector<T>`. -/
def cast (T : Width) (m : Memory) (offsetCache : Nat) : Except Fault Cell :=
  match m.cells[offsetCache]? with
  | none => .error .noCache
  | some cell =>
    if cell.deletions ≠ 0 then .error .deletedCache
    else if cell.vector.width = T then .ok cell
    else .error .wrongWidth

def deleteCache (T : Width) (m : Memory) (offsetCache : Nat) : Except Fault Memory := do
  let cell ← cast T m offsetCache
  .ok { m with cells := m.cells.set offsetCache { cell with deletions := cell.deletions + 1 } }

/-- `SrcBuffer() = default`. -/
def construct (m : Memory) (p : Nat) : Except Fault Memory :=
  if (m.objects p).isSome then .error .occupied else .ok (m.set p (some {}))

/-- `nb.buffer = std::move(f); nb.importLoc = includeLoc;`. -/
def assign (m : Memory) (p : Nat) (f : MemoryBuffer) (includeLoc : LocationRange) :
    Except Fault Memory := do
  let nb ← m.get p
  .ok (m.set p (some { nb with buffer := some f, importLoc := includeLoc }))

/-- `SrcBuffer(SrcBuffer &&other)`. -/
def moveConstruct (m : Memory) (p other : Nat) : Except Fault Memory := do
  let o ← m.get other
  if (m.objects p).isSome then .error .occupied
  else .ok ((m.set p (some ⟨o.buffer, o.offsetCache, o.importLoc⟩)).set other
    (some { o with buffer := none, offsetCache := none }))

/-- The ladder of the destructor. -/
def deleteSized (m : Memory) (sz offsetCache : Nat) : Except Fault Memory :=
  if sz ≤ Width.uint8.max then deleteCache .uint8 m offsetCache
  else if sz ≤ Width.uint16.max then deleteCache .uint16 m offsetCache
  else if sz ≤ Width.uint32.max then deleteCache .uint32 m offsetCache
  else deleteCache .uint64 m offsetCache

/-- `~SrcBuffer()`. -/
def destroy (m : Memory) (p : Nat) : Except Fault Memory := do
  let o ← m.get p
  match o.offsetCache with
  | none => .ok (m.set p none)
  | some offsetCache =>
    match o.buffer with
    | none => .error .nullBuffer
    | some buffer => do
      let m ← m.deleteSized buffer.size offsetCache
      .ok (m.set p none)

/-- The offsets, and the memory with the cache; `p` is the address of `o`. -/
def getOrCreateOffsetCache (T : Width) (m : Memory) (p : Nat) (o : Object)
    (buffer : MemoryBuffer) : Except Fault (List Nat × Memory) :=
  match o.offsetCache with
  | some offsetCache => do
    let cell ← cast T m offsetCache
    .ok (cell.vector.offsets, m)
  | none =>
    if buffer.size ≤ T.max then
      let offsets := offsetsLoop T 0 buffer.data
      let cells := m.cells ++ [⟨⟨T, offsets⟩, 0⟩]
      .ok (offsets, { m with cells := cells }.set p
        (some { o with offsetCache := some m.cells.length }))
    else .error .assertionFailed

def getPointerForLineNumberSpecialized (T : Width) (m : Memory) (p : Nat) (o : Object)
    (buffer : MemoryBuffer) (lineNo : UInt32) : Except Fault (Option Nat × Memory) := do
  let (offsets, m) ← getOrCreateOffsetCache T m p o buffer
  let lineNo := if lineNo ≠ 0 then lineNo - 1 else lineNo
  if lineNo = 0 then .ok (some 0, m)
  else if lineNo.toNat > offsets.length then .ok (none, m)
  else .ok (some (offsets.getD (lineNo.toNat - 1) 0 + 1), m)

def getPointerForLineNumber (m : Memory) (p : Nat) (lineNo : UInt32) :
    Except Fault (Option Nat × Memory) := do
  let o ← m.get p
  match o.buffer with
  | none => .error .nullBuffer
  | some buffer =>
    getPointerForLineNumberSpecialized (widthFor buffer.size) m p o buffer lineNo

end Memory

/-- What is done to the objects, one after the other. -/
inductive Action where
  | construct (p : Nat)
  | assign (p : Nat) (f : MemoryBuffer) (includeLoc : LocationRange)
  | moveConstruct (p other : Nat)
  | getPointerForLineNumber (p : Nat) (lineNo : UInt32)
  | destroy (p : Nat)

def Memory.exec (m : Memory) : Action → Except Fault Memory
  | .construct p => m.construct p
  | .assign p f includeLoc => m.assign p f includeLoc
  | .moveConstruct p other => m.moveConstruct p other
  | .getPointerForLineNumber p lineNo => (m.getPointerForLineNumber p lineNo).map Prod.snd
  | .destroy p => m.destroy p

def Memory.run (m : Memory) : List Action → Except Fault Memory
  | [] => .ok m
  | action :: rest => (m.exec action).bind fun m => Memory.run m rest

/-- What there is at an address. -/
inductive Place where
  | absent
  | hollow
  | loaded
deriving DecidableEq

def placeOf : Option Object → Place
  | none => .absent
  | some o => if o.buffer.isSome then .loaded else .hollow

def places (m : Memory) (p : Nat) : Place := placeOf (m.objects p)

/-- The caches as resources of the objects. -/
def holdings (m : Memory) : Holdings Nat Nat where
  holds := fun p => (m.objects p).bind Object.offsetCache
  releases := fun cache => (m.cells[cache]?).map Cell.deletions

/-- The cache of a buffer, at the width of its size. -/
def ownCache (buffer : MemoryBuffer) : OffsetCache :=
  ⟨widthFor buffer.size, offsetsFrom newline 0 buffer.data⟩

/-- Every cache has one owner, which has the buffer that the cache was made for. -/
structure Sound (m : Memory) : Prop where
  sole : Sole (holdings m)
  typed : ∀ p o cache, m.objects p = some o → o.offsetCache = some cache →
    ∃ buffer cell, o.buffer = some buffer ∧ m.cells[cache]? = some cell ∧
      cell.vector = ownCache buffer

/-- The actions that make sense where the objects are as they are. -/
def Allowed (a : Nat → Place) : Action → Prop
  | .construct p => a p = .absent
  | .assign p _ _ => a p = .hollow
  | .moveConstruct p other => a p = .absent ∧ a other ≠ .absent
  | .getPointerForLineNumber p _ => a p = .loaded
  | .destroy p => a p ≠ .absent

def effect (a : Nat → Place) : Action → Nat → Place
  | .construct p => Function.update a p .hollow
  | .assign p _ _ => Function.update a p .loaded
  | .moveConstruct p other => Function.update (Function.update a p (a other)) other .hollow
  | .getPointerForLineNumber _ _ => a
  | .destroy p => Function.update a p .absent

theorem empty_sound : Sound {} := by
  constructor
  · constructor
    · rintro p q r ⟨⟩
    · rintro p r ⟨⟩
    · rintro r n ⟨⟩
  · rintro p o cache ⟨⟩

section Actions
variable {m : Memory} {p other : Nat} {o : Object} {buffer : MemoryBuffer}

theorem places_set (m : Memory) (p : Nat) (o : Option Object) :
    places (m.set p o) = Function.update (places m) p (placeOf o) := by
  funext q
  simp only [places, Memory.set, Function.update_apply]
  split <;> rfl

theorem holdings_set (m : Memory) (p : Nat) (o : Option Object) :
    holdings (m.set p o) = ⟨Function.update (holdings m).holds p (o.bind Object.offsetCache),
      (holdings m).releases⟩ := by
  have holds : (holdings (m.set p o)).holds =
      Function.update (holdings m).holds p (o.bind Object.offsetCache) := by
    funext q
    simp only [holdings, Memory.set, Function.update_apply]
    split <;> rfl
  rw [← holds]
  rfl

theorem holds_some (there : m.objects p = some o) : (holdings m).holds p = o.offsetCache := by
  simp only [holdings, there, Option.bind_some]

theorem holds_none (free : m.objects p = none) : (holdings m).holds p = none := by
  simp only [holdings, free, Option.bind_none]

theorem releases_some {cache : Nat} {cell : Cell} (made : m.cells[cache]? = some cell) :
    (holdings m).releases cache = some cell.deletions := by
  simp only [holdings, made, Option.map_some]

theorem absent_iff : places m p = .absent ↔ m.objects p = none := by
  rw [places]
  cases m.objects p with
  | none => exact iff_of_true rfl rfl
  | some o =>
    simp only [placeOf]
    split <;> simp

theorem loaded_iff : places m p = .loaded ↔ ∃ o buffer, m.objects p = some o ∧
    o.buffer = some buffer := by
  rw [places]
  cases m.objects p with
  | none => simp [placeOf]
  | some o => simp [placeOf, Option.isSome_iff_exists]

theorem hollow_iff : places m p = .hollow ↔ ∃ o, m.objects p = some o ∧ o.buffer = none := by
  rw [places]
  cases m.objects p with
  | none => simp [placeOf]
  | some o => simp [placeOf]

theorem get_some (there : m.objects p = some o) : m.get p = .ok o := by
  rw [Memory.get, there]
  rfl

/-- What is put at an address holds what was held there. -/
theorem sound_set {new : Option Object} (sound : Sound m)
    (same : (m.objects p).bind Object.offsetCache = new.bind Object.offsetCache)
    (typed : ∀ o cache, new = some o → o.offsetCache = some cache →
      ∃ buffer cell, o.buffer = some buffer ∧ m.cells[cache]? = some cell ∧
        cell.vector = ownCache buffer) :
    Sound (m.set p new) := by
  constructor
  · have unchanged : Function.update (holdings m).holds p (new.bind Object.offsetCache) =
        (holdings m).holds := Function.update_eq_self_iff.mpr same.symm
    rw [holdings_set, unchanged]
    exact sound.sole
  · intro q o cache there held
    simp only [Memory.set, Function.update_apply] at there
    split at there
    · exact typed o cache there held
    · exact sound.typed q o cache there held

/-- The outcome of an action that makes sense. -/
def Goes (a : Nat → Place) (result : Except Fault Memory) : Prop :=
  ∃ m', result = .ok m' ∧ Sound m' ∧ places m' = a

theorem construct_goes (sound : Sound m) (absent : places m p = .absent) :
    Goes (Function.update (places m) p .hollow) (m.construct p) := by
  have free := absent_iff.mp absent
  refine ⟨m.set p (some {}), ?_, sound_set sound ?_ ?_, places_set m p _⟩
  · simp [Memory.construct, free]
  · rw [free]
    rfl
  · rintro o cache ⟨rfl⟩ held
    cases held

theorem assign_goes (sound : Sound m) (hollow : places m p = .hollow) (f : MemoryBuffer)
    (includeLoc : LocationRange) :
    Goes (Function.update (places m) p .loaded) (m.assign p f includeLoc) := by
  obtain ⟨nb, there, empty⟩ := hollow_iff.mp hollow
  refine ⟨m.set p (some ⟨some f, nb.offsetCache, includeLoc⟩), ?_, sound_set sound ?_ ?_,
    places_set m p _⟩
  · rw [Memory.assign, get_some there]
    rfl
  · rw [there]
    rfl
  · rintro o cache ⟨rfl⟩ held
    obtain ⟨buffer, cell, full, -⟩ := sound.typed p nb cache there held
    rw [empty] at full
    cases full

theorem moveConstruct_goes (sound : Sound m) (absent : places m p = .absent)
    (present : places m other ≠ .absent) :
    Goes (Function.update (Function.update (places m) p (places m other)) other .hollow)
      (m.moveConstruct p other) := by
  have free := absent_iff.mp absent
  cases there : m.objects other with
  | none => exact absurd (absent_iff.mpr there) present
  | some o =>
    have ran : m.moveConstruct p other =
        .ok ((m.set p (some ⟨o.buffer, o.offsetCache, o.importLoc⟩)).set other
          (some { o with buffer := none, offsetCache := none })) := by
      simp only [Memory.moveConstruct, get_some there, free]
      rfl
    refine ⟨_, ran, ⟨?_, ?_⟩, ?_⟩
    · have handed := @transfer_sole _ _ _ (holdings m) p other sound.sole (holds_none free)
      rw [Holdings.transfer, holds_some there] at handed
      rw [holdings_set, holdings_set]
      exact handed
    · intro q o' cache found held
      simp only [Memory.set, Function.update_apply] at found
      split at found
      · cases found
        cases held
      · split at found
        · cases found
          exact sound.typed other o cache there held
        · exact sound.typed q o' cache found held
    · rw [places_set, places_set]
      have kept : placeOf (some ⟨o.buffer, o.offsetCache, o.importLoc⟩) = places m other := by
        rw [places, there]
      rw [kept]
      rfl

/-- A cache is read at the width it was made with. -/
theorem cast_owned (sound : Sound m) (there : m.objects p = some o) (full : o.buffer = some buffer)
    {cache : Nat} (held : o.offsetCache = some cache) :
    Memory.cast (widthFor buffer.size) m cache = .ok ⟨ownCache buffer, 0⟩ ∧
      m.cells[cache]? = some ⟨ownCache buffer, 0⟩ := by
  obtain ⟨buffer', cell, full', made, own⟩ := sound.typed p o cache there held
  obtain rfl := Option.some.inj (full.symm.trans full')
  have kept := sound.sole.kept ((holds_some there).trans held)
  rw [releases_some made] at kept
  have whole : cell = ⟨ownCache buffer, 0⟩ := by
    cases cell
    cases own
    cases kept
    rfl
  subst whole
  simp [Memory.cast, made, ownCache]

theorem deleteSized_eq (m : Memory) (sz cache : Nat) :
    m.deleteSized sz cache = Memory.deleteCache (widthFor sz) m cache := by
  simp only [Memory.deleteSized, widthFor]
  split
  · rfl
  · split
    · rfl
    · split <;> rfl

/-- A cache that is deleted was held at the address, and no other object loses it. -/
theorem delete_sound (sound : Sound m) (there : m.objects p = some o)
    (full : o.buffer = some buffer) {cache : Nat} (held : o.offsetCache = some cache) :
    ∃ m', m.deleteSized buffer.size cache = .ok m' ∧ m'.objects = m.objects ∧
      Sound (m'.set p none) := by
  obtain ⟨used, made⟩ := cast_owned sound there full held
  have here : (holdings m).holds p = some cache := (holds_some there).trans held
  refine ⟨{ m with cells := m.cells.set cache ⟨ownCache buffer, 1⟩ }, ?_, rfl, ?_, ?_⟩
  · rw [deleteSized_eq, Memory.deleteCache, used]
    rfl
  · have releases : (holdings { m with cells := m.cells.set cache ⟨ownCache buffer, 1⟩ }).releases =
        ((holdings m).release p).releases := by
      funext r
      change ((m.cells.set cache _)[r]?).map Cell.deletions =
        ((m.cells[r]?).map Cell.deletions).map _
      by_cases same : cache = r
      · obtain ⟨inside, -⟩ := List.getElem?_eq_some_iff.mp made
        rw [← same, List.getElem?_set_self inside, made, Option.map_some, Option.map_some,
          Option.map_some, if_pos here]
      · have other : (holdings m).holds p ≠ some r := by
          rw [here]
          exact fun found => same (Option.some.inj found)
        simp only [List.getElem?_set_ne same, other, if_false, Option.map_id']
    rw [holdings_set, releases]
    exact release_sole sound.sole
  · intro q o' cache' found held'
    simp only [Memory.set, Function.update_apply] at found
    split at found
    · cases found
    · next elsewhere =>
      obtain ⟨buffer', cell, full', made', own⟩ := sound.typed q o' cache' found held'
      have other : cache ≠ cache' := by
        rintro rfl
        exact elsewhere (sound.sole.unique ((holds_some found).trans held') here)
      exact ⟨buffer', cell, full', (List.getElem?_set_ne other).trans made', own⟩

theorem destroy_goes (sound : Sound m) (present : places m p ≠ .absent) :
    Goes (Function.update (places m) p .absent) (m.destroy p) := by
  cases there : m.objects p with
  | none => exact absurd (absent_iff.mpr there) present
  | some o =>
    cases held : o.offsetCache with
    | none =>
      refine ⟨m.set p none, ?_, sound_set sound ?_ ?_, places_set m p none⟩
      · simp only [Memory.destroy, get_some there, bind, Except.bind, held]
      · rw [there, Option.bind_some, held]
        rfl
      · intro o cache new
        cases new
    | some cache =>
      obtain ⟨buffer, -, full, -⟩ := sound.typed p o cache there held
      obtain ⟨m', deleted, objects, sound'⟩ := delete_sound sound there full held
      refine ⟨m'.set p none, ?_, sound', ?_⟩
      · simp only [Memory.destroy, get_some there, bind, Except.bind, held, full, deleted]
      · have kept : places m' = places m := by
          funext q
          rw [places, places, objects]
        rw [places_set, kept]
        rfl

/-- A new cache is held by the object that it was made for. -/
theorem create_sound (sound : Sound m) (there : m.objects p = some o)
    (full : o.buffer = some buffer) (empty : o.offsetCache = none) :
    Sound ({ m with cells := m.cells ++ [Cell.mk (ownCache buffer) 0] }.set p
      (some { o with offsetCache := some m.cells.length })) := by
  constructor
  · have vacant : (holdings m).holds p = none := (holds_some there).trans empty
    have new : (holdings m).releases m.cells.length = none := by
      simp only [holdings, List.getElem?_eq_none (Nat.le_refl _)]
      rfl
    have releases :
        (holdings { m with cells := m.cells ++ [Cell.mk (ownCache buffer) 0] }).releases =
          ((holdings m).acquire p m.cells.length).releases := by
      funext r
      rw [acquire_releases]
      simp only [holdings]
      rcases Nat.lt_trichotomy r m.cells.length with before | rfl | after
      · rw [List.getElem?_append_left before, if_neg before.ne]
      · rw [List.getElem?_concat_length, if_pos rfl]
        rfl
      · have outside : (m.cells ++ [Cell.mk (ownCache buffer) 0]).length ≤ r := by
          rw [List.length_append]
          exact after
        rw [List.getElem?_eq_none outside, if_neg after.ne', List.getElem?_eq_none after.le]
    rw [holdings_set, releases]
    exact acquire_sole sound.sole vacant new
  · intro q o' cache found held
    simp only [Memory.set, Function.update_apply] at found
    split at found
    · cases found
      cases held
      exact ⟨buffer, _, full, List.getElem?_concat_length, rfl⟩
    · obtain ⟨buffer', cell, full', made, own⟩ := sound.typed q o' cache found held
      obtain ⟨inside, -⟩ := List.getElem?_eq_some_iff.mp made
      exact ⟨buffer', cell, full', (List.getElem?_append_left inside).trans made, own⟩

theorem getOrCreate_goes (sound : Sound m) (there : m.objects p = some o)
    (full : o.buffer = some buffer) :
    ∃ m', Memory.getOrCreateOffsetCache (widthFor buffer.size) m p o buffer =
        .ok (offsetsFrom newline 0 buffer.data, m') ∧ Sound m' ∧ places m' = places m := by
  cases held : o.offsetCache with
  | some cache =>
    obtain ⟨used, -⟩ := cast_owned sound there full held
    refine ⟨m, ?_, sound, rfl⟩
    simp only [Memory.getOrCreateOffsetCache, held, used]
    rfl
  | none =>
    have fits := size_le_width buffer
    have moved : placeOf (some { o with offsetCache := some m.cells.length }) = places m p := by
      rw [places, there]
      rfl
    have filled := offsetsLoop_eq (T := widthFor buffer.size) (n := 0) (s := buffer.data)
      (by rw [Nat.zero_add]; exact fits)
    refine ⟨_, ?_, create_sound sound there full held, ?_⟩
    · simp only [Memory.getOrCreateOffsetCache, held, fits, if_true, filled]
      rfl
    · rw [places_set, moved]
      exact Function.update_eq_self p (places m)

/-- A lookup gives the start of the line, as it does for a buffer that never moves. -/
theorem getPointer_goes (sound : Sound m) (there : m.objects p = some o)
    (full : o.buffer = some buffer) (lineNo : UInt32) :
    ∃ m', m.getPointerForLineNumber p lineNo =
        .ok (lineStart newline buffer.data (lineNo.toNat - 1), m') ∧
      Sound m' ∧ places m' = places m := by
  obtain ⟨m', offsets, sound', kept⟩ := getOrCreate_goes sound there full
  refine ⟨m', ?_, sound', kept⟩
  simp only [Memory.getPointerForLineNumber, get_some there, bind, Except.bind, full,
    Memory.getPointerForLineNumberSpecialized, offsets]
  exact pointer_lineStart buffer.data lineNo m'

/-- An action that makes sense goes without a fault, and leaves every cache its one owner. -/
theorem exec_goes (sound : Sound m) {action : Action} (allowed : Allowed (places m) action) :
    Goes (effect (places m) action) (m.exec action) := by
  cases action with
  | construct p => exact construct_goes sound allowed
  | assign p f includeLoc => exact assign_goes sound allowed f includeLoc
  | moveConstruct p other => exact moveConstruct_goes sound allowed.1 allowed.2
  | getPointerForLineNumber p lineNo =>
    obtain ⟨o, buffer, there, full⟩ := loaded_iff.mp allowed
    obtain ⟨m', found, sound', kept⟩ := getPointer_goes sound there full lineNo
    exact ⟨m', by rw [Memory.exec, found]; rfl, sound', kept⟩
  | destroy p => exact destroy_goes sound allowed

end Actions

end CacheOwnership
