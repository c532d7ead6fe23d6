import Mathlib.Algebra.Group.Nat.Defs
import Serene.Locations
import Serene.Lines

/-!
# Source buffers and their line index

A `SrcBuffer` keeps the offsets of its newlines behind a `void *`, in a vector
whose element type is chosen from the size of the buffer. The model keeps the
width the vector was created with, so that a use at another width is seen.
Addresses are offsets from the start of the buffer.
-/

namespace SourceBuffers

open ByteClasses Locations Lines

/-- `llvm::MemoryBuffer`; its size is a `size_t`. -/
structure MemoryBuffer where
  data : Bytes
  size_lt : data.length < 2 ^ 64

def MemoryBuffer.size (buffer : MemoryBuffer) : Nat := buffer.data.length

/-- The element types of the offset vector. -/
inductive Width where
  | uint8
  | uint16
  | uint32
  | uint64
deriving DecidableEq

def Width.bits : Width → Nat
  | .uint8 => 8
  | .uint16 => 16
  | .uint32 => 32
  | .uint64 => 64

/-- `std::numeric_limits<T>::max()`. -/
def Width.max (T : Width) : Nat := 2 ^ T.bits - 1

structure OffsetCache where
  width : Width
  offsets : List Nat
deriving DecidableEq

structure SrcBuffer where
  buffer : MemoryBuffer
  offsetCache : Option OffsetCache := none
  importLoc : LocationRange := {}

inductive Misuse where
  | wrongWidth
  | assertionFailed

/-- The loop that fills the cache, from the byte at offset `n` on. -/
def offsetsLoop (T : Width) : Nat → Bytes → List Nat
  | _, [] => []
  | n, c :: s =>
    if c = newline then n % 2 ^ T.bits :: offsetsLoop T (n + 1) s else offsetsLoop T (n + 1) s

def getOrCreateOffsetCache (T : Width) (b : SrcBuffer) : Except Misuse (List Nat × SrcBuffer) :=
  match b.offsetCache with
  | some cache => if cache.width = T then .ok (cache.offsets, b) else .error .wrongWidth
  | none =>
    if b.buffer.size ≤ T.max then
      let offsets := offsetsLoop T 0 b.buffer.data
      .ok (offsets, { b with offsetCache := some ⟨T, offsets⟩ })
    else .error .assertionFailed

def getPointerForLineNumberSpecialized (T : Width) (b : SrcBuffer) (lineNo : UInt32) :
    Except Misuse (Option Nat × SrcBuffer) := do
  let (offsets, b) ← getOrCreateOffsetCache T b
  let lineNo := if lineNo ≠ 0 then lineNo - 1 else lineNo
  if lineNo = 0 then .ok (some 0, b)
  else if lineNo.toNat > offsets.length then .ok (none, b)
  else .ok (some (offsets.getD (lineNo.toNat - 1) 0 + 1), b)

/-- The element type that a lookup selects. -/
def widthFor (sz : Nat) : Width :=
  if sz ≤ Width.uint8.max then .uint8
  else if sz ≤ Width.uint16.max then .uint16
  else if sz ≤ Width.uint32.max then .uint32
  else .uint64

def getPointerForLineNumber (b : SrcBuffer) (lineNo : UInt32) :
    Except Misuse (Option Nat × SrcBuffer) :=
  getPointerForLineNumberSpecialized (widthFor b.buffer.size) b lineNo

/-- The buffer after some lookups. -/
def lookups (b : SrcBuffer) : List UInt32 → Except Misuse SrcBuffer
  | [] => .ok b
  | lineNo :: rest => do
    let (_, b) ← getPointerForLineNumber b lineNo
    lookups b rest

/-- A cache that is there has the width and lists every newline. -/
def SoundAt (T : Width) (b : SrcBuffer) : Prop :=
  ∀ cache ∈ b.offsetCache, cache = ⟨T, offsetsFrom newline 0 b.buffer.data⟩

/-- A cache that is there has the width the size selects and lists every newline. -/
def Sound (b : SrcBuffer) : Prop :=
  ∀ cache ∈ b.offsetCache,
    cache = ⟨widthFor b.buffer.size, offsetsFrom newline 0 b.buffer.data⟩

theorem size_le_width (buffer : MemoryBuffer) : buffer.size ≤ (widthFor buffer.size).max := by
  have bound := buffer.size_lt
  simp only [widthFor]
  split
  · assumption
  · split
    · assumption
    · split
      · assumption
      · exact Nat.le_sub_one_of_lt bound

/-- No offset is cut down where the size fits the width. -/
theorem offsetsLoop_eq {T : Width} {n : Nat} {s : Bytes} (fits : n + s.length ≤ T.max) :
    offsetsLoop T n s = offsetsFrom newline n s := by
  induction s generalizing n with
  | nil => rfl
  | cons c s ih =>
    rw [List.length_cons] at fits
    have small : n % 2 ^ T.bits = n := by
      apply Nat.mod_eq_of_lt
      have bound : T.max < 2 ^ T.bits := Nat.sub_one_lt (Nat.two_pow_pos _).ne'
      omega
    simp only [offsetsLoop, offsetsFrom, small, ih (n := n + 1) (by omega)]

/-- What the vector holds once it is there, whichever fitting width it has. -/
theorem getOrCreate_sound {T : Width} {b : SrcBuffer} (fits : b.buffer.size ≤ T.max)
    (sound : SoundAt T b) :
    getOrCreateOffsetCache T b = .ok (offsetsFrom newline 0 b.buffer.data,
      { b with offsetCache := some ⟨T, offsetsFrom newline 0 b.buffer.data⟩ }) := by
  cases cached : b.offsetCache with
  | some cache =>
    have own := sound cache cached
    rw [own] at cached
    have whole : { b with offsetCache := some ⟨T, offsetsFrom newline 0 b.buffer.data⟩ } = b := by
      rw [← cached]
    rw [whole]
    simp [getOrCreateOffsetCache, cached]
  | none =>
    have filled := offsetsLoop_eq (T := T) (n := 0) (s := b.buffer.data)
      (by rw [Nat.zero_add]; exact fits)
    simp [getOrCreateOffsetCache, cached, fits, filled]

theorem previous_toNat (lineNo : UInt32) :
    (if lineNo ≠ 0 then lineNo - 1 else lineNo).toNat = lineNo.toNat - 1 := by
  by_cases zero : lineNo = 0
  · subst zero
    rfl
  · have positive : 1 ≤ lineNo := by
      rw [UInt32.le_iff_toNat_le]
      have nonzero : lineNo.toNat ≠ 0 := fun same => zero (UInt32.toNat_inj.mp same)
      exact Nat.one_le_iff_ne_zero.mpr nonzero
    rw [if_pos zero, UInt32.toNat_sub_of_le _ _ positive]
    rfl

/-- The address that a lookup makes of the offsets. -/
theorem pointer_lineStart {E B : Type} (data : Bytes) (lineNo : UInt32) (b : B) :
    (let previous := if lineNo ≠ 0 then lineNo - 1 else lineNo
     if previous = 0 then (.ok (some 0, b) : Except E (Option Nat × B))
     else if previous.toNat > (offsetsFrom newline 0 data).length then .ok (none, b)
     else .ok (some ((offsetsFrom newline 0 data).getD (previous.toNat - 1) 0 + 1), b)) =
      .ok (lineStart newline data (lineNo.toNat - 1), b) := by
  have index := previous_toNat lineNo
  generalize (if lineNo ≠ 0 then lineNo - 1 else lineNo) = previous at index
  rw [← index]
  cases number : previous.toNat with
  | zero =>
    have first : previous = 0 := UInt32.toNat_inj.mp number
    simp only [first, if_true]
    rfl
  | succ k =>
    have later : previous ≠ 0 := by
      intro zero
      rw [zero] at number
      cases number
    simp only [later, if_false, lineStart, number]
    by_cases past : k + 1 > (offsetsFrom newline 0 data).length
    · rw [if_pos past, List.getElem?_eq_none (by omega)]
      rfl
    · have inside : k < (offsetsFrom newline 0 data).length := by omega
      rw [if_neg past, Nat.add_sub_cancel, List.getD, List.getElem?_eq_getElem inside]
      rfl

/-- A lookup gives the start of the line, counted from 1, and leaves the vector filled. -/
theorem specialized_sound {T : Width} {b : SrcBuffer} (fits : b.buffer.size ≤ T.max)
    (sound : SoundAt T b) (lineNo : UInt32) :
    getPointerForLineNumberSpecialized T b lineNo =
      .ok (lineStart newline b.buffer.data (lineNo.toNat - 1),
        { b with offsetCache := some ⟨T, offsetsFrom newline 0 b.buffer.data⟩ }) := by
  rw [getPointerForLineNumberSpecialized, getOrCreate_sound fits sound]
  exact pointer_lineStart b.buffer.data lineNo _

theorem getPointer_sound {b : SrcBuffer} (sound : Sound b) (lineNo : UInt32) :
    ∃ b', getPointerForLineNumber b lineNo =
        .ok (lineStart newline b.buffer.data (lineNo.toNat - 1), b') ∧
      b'.buffer = b.buffer ∧ Sound b' := by
  refine ⟨_, specialized_sound (size_le_width b.buffer) sound lineNo, rfl, ?_⟩
  intro cache cached
  exact (Option.some.inj cached).symm

/-- Lookups of any lines, in any order, succeed and leave a sound cache. -/
theorem lookups_sound {b : SrcBuffer} (sound : Sound b) (lines : List UInt32) :
    ∃ b', lookups b lines = .ok b' ∧ b'.buffer = b.buffer ∧ Sound b' := by
  induction lines generalizing b with
  | nil => exact ⟨b, rfl, rfl, sound⟩
  | cons lineNo lines ih =>
    obtain ⟨b₁, found, same, sound₁⟩ := getPointer_sound sound lineNo
    obtain ⟨b₂, rest, same₂, sound₂⟩ := ih sound₁
    refine ⟨b₂, ?_, same₂.trans same, sound₂⟩
    rw [lookups, found]
    exact rest

/-- A buffer as it is added, with no cache yet. -/
def fresh (buffer : MemoryBuffer) (importLoc : LocationRange) : SrcBuffer :=
  { buffer := buffer, importLoc := importLoc }

theorem fresh_sound (buffer : MemoryBuffer) (importLoc : LocationRange) :
    Sound (fresh buffer importLoc) := by
  intro cache cached
  cases cached

end SourceBuffers
