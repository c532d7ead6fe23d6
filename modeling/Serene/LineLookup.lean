import Serene.SourceBuffers

/-!
# Looking a line up

`getPointerForLineNumber` against the buffer itself: where line `n` begins is
right after the newline that ends line `n - 1`, however the offsets are stored
and whatever was looked up before. Lines are counted from 1, and 0 is taken for 1.
-/

namespace LineLookup

open ByteClasses Locations Lines SourceBuffers

/-- The address right after the `n`-th newline of the data. -/
def AfterNewline (data : Bytes) (n pointer : Nat) : Prop :=
  ∃ v w, data = v ++ newline :: w ∧ v.count newline + 1 = n ∧ pointer = v.length + 1

theorem afterNewline_of_lines {data : Bytes} {n : Nat} (enough : n < line newline data) :
    ∃ pointer, lineStart newline data (n + 1) = some pointer ∧
      AfterNewline data (n + 1) pointer := by
  obtain ⟨v, w, rfl, before⟩ := exists_line_end newline enough
  have start := lineStart_line newline (v ++ [newline]) w
  rw [line_eol, before, column_eol, List.append_assoc, List.length_append] at start
  exact ⟨_, start, v, w, rfl, congrArg (· + 1) before, rfl⟩

/-- What every line number is answered with. -/
structure Exact (data : Bytes) (lineNo : UInt32) (answer : Option Nat) : Prop where
  first : lineNo.toNat ≤ 1 → answer = some 0
  inside : 1 < lineNo.toNat → lineNo.toNat - 1 ≤ data.count newline →
    ∃ pointer, answer = some pointer ∧ AfterNewline data (lineNo.toNat - 1) pointer
  past : data.count newline < lineNo.toNat - 1 → answer = none

theorem lineStart_exact (data : Bytes) (lineNo : UInt32) :
    Exact data lineNo (lineStart newline data (lineNo.toNat - 1)) := by
  constructor
  · intro first
    have zero : lineNo.toNat - 1 = 0 := by omega
    rw [zero]
    rfl
  · intro later enough
    obtain ⟨n, next⟩ : ∃ n, lineNo.toNat - 1 = n + 1 := ⟨lineNo.toNat - 2, by omega⟩
    rw [next] at enough ⊢
    exact afterNewline_of_lines enough
  · intro past
    exact lineStart_past newline past

/-- The vector lists the newlines in their order, with no offset cut down. -/
structure Lists (data : Bytes) (cache : OffsetCache) : Prop where
  increasing : cache.offsets.Pairwise (· < ·)
  exact : ∀ n, n ∈ cache.offsets ↔ data[n]? = some newline
  whole : ∀ n ∈ cache.offsets, n ≤ cache.width.max

theorem offsets_list {data : Bytes} {T : Width} (fits : data.length ≤ T.max) :
    Lists data ⟨T, offsetsFrom newline 0 data⟩ := by
  have exact (n : Nat) : n ∈ offsetsFrom newline 0 data ↔ data[n]? = some newline := by
    rw [mem_offsetsFrom, Nat.sub_zero, and_iff_right (Nat.zero_le n)]
  constructor
  · exact offsetsFrom_sorted newline 0 data
  · exact exact
  · intro n mem
    obtain ⟨bound, -⟩ := List.getElem?_eq_some_iff.mp ((exact n).mp mem)
    exact (Nat.le_of_lt bound).trans fits

/-- Line lookup is exact for every buffer and every line number, after any lookups made before,
and every width that holds the size of the buffer gives the same answer. -/
theorem lookup_exact (buffer : MemoryBuffer) (importLoc : LocationRange) (earlier : List UInt32)
    (lineNo : UInt32) :
    ∃ b b' answer cache, lookups (fresh buffer importLoc) earlier = .ok b ∧
      getPointerForLineNumber b lineNo = .ok (answer, b') ∧
      Exact buffer.data lineNo answer ∧
      b'.offsetCache = some cache ∧ cache.width = widthFor buffer.size ∧
      Lists buffer.data cache ∧
      ∀ T : Width, buffer.size ≤ T.max → ∃ other offsets,
        getPointerForLineNumberSpecialized T (fresh buffer importLoc) lineNo =
          .ok (answer, other) ∧
        other.offsetCache = some ⟨T, offsets⟩ ∧ Lists buffer.data ⟨T, offsets⟩ := by
  obtain ⟨b, looked, same, sound⟩ := lookups_sound (fresh_sound buffer importLoc) earlier
  have found : getPointerForLineNumber b lineNo =
      .ok (lineStart newline buffer.data (lineNo.toNat - 1), { b with
        offsetCache := some ⟨widthFor buffer.size, offsetsFrom newline 0 buffer.data⟩ }) := by
    rw [getPointerForLineNumber, specialized_sound (size_le_width b.buffer) sound lineNo, same]
    rfl
  refine ⟨b, _, _, _, looked, found, lineStart_exact buffer.data lineNo, rfl, rfl,
    offsets_list (size_le_width buffer), ?_⟩
  intro T fits
  have none : SoundAt T (fresh buffer importLoc) := by
    intro cache cached
    cases cached
  exact ⟨_, _, specialized_sound fits none lineNo, rfl, offsets_list fits⟩

end LineLookup
