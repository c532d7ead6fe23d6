import Mathlib.Data.List.Induction
import Mathlib.Tactic.SplitIfs
import Serene.ByteClasses
import Serene.UnicodeTables
import Serene.Utf8Texts

/-!
# UTF-8 in the line editor

The editor's helpers walk over bytes: to the next or the previous character, and
from there over whole clusters of a character and the combining ones behind it.
`none` is a read outside the memory, or a loop that never ends. They check no
continuation byte, so what they return is stated on texts in the shape of UTF-8.
-/

namespace TerminalText

open ByteClasses UnicodeTables Utf8Texts

/-- `while (pos > 0 && skips(buf[pos - 1])) pos--`. -/
def backOver (skips : UInt8 → Bool) (buf : Bytes) : Nat → Option Nat
  | 0 => some 0
  | pos + 1 =>
    match buf[pos]? with
    | none => none
    | some b => if skips b then backOver skips buf pos else some (pos + 1)

/-- The loop of the source ends on the byte before the first continuation byte, which may be at
index -1. -/
def unicodePrevUTF8CharLen (buf : Bytes) (pos : Nat) : Option Nat :=
  (backOver (fun b => b &&& 0xC0 == 0x80) buf pos).map fun first => pos + 1 - first

def unicodeUTF8CharLen (buf : Bytes) (buf_len pos : Nat) : Option Nat :=
  if pos = buf_len then some 0
  else buf[pos]?.map fun ch =>
    if ch < 0x80 then 1 else if ch < 0xE0 then 2 else if ch < 0xF0 then 3 else 4

/-- The length and the code point of the character at the front of `buf`; the length is 0, and
the code point its callers' 0, where the lead byte or `len` does not do. -/
def unicodeUTF8CharToCodePoint (buf : Bytes) (len : Nat) : Option (Nat × Nat) :=
  let bits (i : Nat) (mask : UInt8) (shift : Nat) : Option Nat :=
    buf[i]?.map fun b => (b &&& mask).toNat <<< shift
  if len = 0 then some (0, 0)
  else do
    let byte ← buf[0]?
    if byte &&& 0x80 = 0 then
      return (1, byte.toNat)
    else if byte &&& 0xE0 = 0xC0 then
      if 2 ≤ len then
        return (2, (← bits 0 0x1F 6) ||| (← bits 1 0x3F 0))
      else return (0, 0)
    else if byte &&& 0xF0 = 0xE0 then
      if 3 ≤ len then
        return (3, (← bits 0 0x0F 12) ||| (← bits 1 0x3F 6) ||| (← bits 2 0x3F 0))
      else return (0, 0)
    else if byte &&& 0xF8 = 0xF0 then
      if 4 ≤ len then
        return (4, (← bits 0 0x07 18) ||| (← bits 1 0x3F 12) ||| (← bits 2 0x3F 6) |||
          (← bits 3 0x3F 0))
      else return (0, 0)
    else return (0, 0)

theorem unicodeUTF8CharLen_pos {buf : Bytes} {buf_len pos len : Nat} (inside : pos < buf_len)
    (found : unicodeUTF8CharLen buf buf_len pos = some len) : 0 < len := by
  unfold unicodeUTF8CharLen at found
  rw [if_neg (by omega)] at found
  obtain ⟨ch, -, rfl⟩ := Option.map_eq_some_iff.mp found
  split_ifs <;> omega

/-- The end of the cluster whose characters up to `pos` have been passed. -/
def graphemeEnd (buf : Bytes) (buf_len pos : Nat) : Option Nat :=
  if _inside : pos < buf_len then
    match _found : unicodeUTF8CharLen buf buf_len pos with
    | none => none
    | some len =>
      match unicodeUTF8CharToCodePoint (buf.drop pos) len with
      | none => none
      | some (_, cp) =>
        if unicodeIsCombiningChar cp then graphemeEnd buf buf_len (pos + len) else some pos
  else some pos
termination_by buf_len - pos
decreasing_by
  have := unicodeUTF8CharLen_pos _inside _found
  omega

def unicodeGraphemeLen (buf : Bytes) (buf_len pos : Nat) : Option Nat :=
  if pos = buf_len then some 0
  else do
    let len ← unicodeUTF8CharLen buf buf_len pos
    let stop ← graphemeEnd buf buf_len (pos + len)
    return stop - pos

theorem backOver_le {skips : UInt8 → Bool} {buf : Bytes} {pos first : Nat}
    (went : backOver skips buf pos = some first) : first ≤ pos := by
  induction pos with
  | zero => cases went; exact Nat.le_refl 0
  | succ pos ih =>
    unfold backOver at went
    split at went
    next => cases went
    next b read =>
      split at went
      next => exact Nat.le_succ_of_le (ih went)
      next => cases went; exact Nat.le_refl _

theorem unicodePrevUTF8CharLen_pos {buf : Bytes} {pos len : Nat}
    (found : unicodePrevUTF8CharLen buf pos = some len) : 0 < len := by
  obtain ⟨first, went, rfl⟩ := Option.map_eq_some_iff.mp found
  have := backOver_le went
  omega

/-- The beginning of the cluster that ends at `pos`, and nothing where no character before `pos`
stands alone. -/
def graphemeBegin (buf : Bytes) (pos : Nat) : Option (Option Nat) :=
  if _inside : 0 < pos then
    match _found : unicodePrevUTF8CharLen buf pos with
    | none => none
    | some len =>
      -- in front of the memory there is nothing to decode
      if pos < len then none
      else
        match unicodeUTF8CharToCodePoint (buf.drop (pos - len)) len with
        | none => none
        | some (_, cp) =>
          if unicodeIsCombiningChar cp then graphemeBegin buf (pos - len)
          else some (some (pos - len))
  else some none
termination_by pos
decreasing_by
  have := unicodePrevUTF8CharLen_pos _found
  omega

def unicodePrevGraphemeLen (buf : Bytes) (pos : Nat) : Option Nat :=
  (graphemeBegin buf pos).map fun start => (start.map fun first => pos - first).getD 0

theorem continuation_mask (b : UInt8) : (b &&& 0xC0 == 0x80) = isContinuation b := by
  revert b
  apply forall_byte
  decide +kernel

theorem tail_mask (b : UInt8) : (b &&& 0x3F).toNat = b.toNat % 64 := by
  revert b
  apply forall_byte
  decide +kernel

/-- What the masks of the source say about a lead byte. -/
theorem lead_masks (b : UInt8) :
    (announced b = 1 → b &&& 0x80 = 0 ∧ CodedChar.payload b = b.toNat) ∧
    (announced b = 2 → b &&& 0x80 ≠ 0 ∧ b &&& 0xE0 = 0xC0 ∧
      CodedChar.payload b = (b &&& 0x1F).toNat) ∧
    (announced b = 3 → b &&& 0x80 ≠ 0 ∧ b &&& 0xE0 ≠ 0xC0 ∧ b &&& 0xF0 = 0xE0 ∧
      CodedChar.payload b = (b &&& 0x0F).toNat) ∧
    (announced b = 4 → b &&& 0x80 ≠ 0 ∧ b &&& 0xE0 ≠ 0xC0 ∧ b &&& 0xF0 ≠ 0xE0 ∧
      b &&& 0xF8 = 0xF0 ∧ CodedChar.payload b = (b &&& 0x07).toNat) := by
  revert b
  apply forall_byte
  decide +kernel

theorem or_six_bits {a t : Nat} (small : t < 64) : a <<< 6 ||| t = a * 64 + t := by
  rw [← Nat.shiftLeft_add_eq_or_of_lt (by omega), Nat.shiftLeft_eq]

variable {x y z buf : Bytes} {c : CodedChar} {t u : Text}

theorem backOver_run {skips : UInt8 → Bool} (all : ∀ b ∈ y, skips b = true)
    (stops : ∀ b ∈ x.getLast?, skips b = false) :
    backOver skips (x ++ (y ++ z)) (x.length + y.length) = some x.length := by
  induction y using List.reverseRecOn generalizing z with
  | nil =>
    cases x using List.reverseRecOn with
    | nil => rfl
    | append_singleton x b =>
      have stop := stops b (by simp)
      rw [List.length_append, List.length_singleton, List.length_nil, Nat.add_zero, backOver]
      simp [stop]
  | append_singleton y b ih =>
    have here : (x ++ (y ++ [b] ++ z))[x.length + y.length]? = some b := by simp
    rw [List.length_append, List.length_singleton, ← Nat.add_assoc, backOver, here]
    have skip := all b (by simp)
    simp only [skip, if_true]
    have before : ∀ b ∈ y, skips b = true := fun b mem => all b (List.mem_append_left _ mem)
    simpa using ih (z := b :: z) before

theorem unicodePrevUTF8CharLen_spec (x z : Bytes) (c : CodedChar) :
    unicodePrevUTF8CharLen (x ++ (c.bytes ++ z)) (x.length + c.size) = some c.size := by
  have cut : x ++ (c.bytes ++ z) = (x ++ [c.lead]) ++ (c.tails ++ z) := by simp [CodedChar.bytes]
  have size : x.length + c.size = (x ++ [c.lead]).length + c.tails.length := by
    have := c.announces
    simp only [CodedChar.size, List.length_append, List.length_singleton]
    omega
  have back : backOver (fun b => b &&& 0xC0 == 0x80) (x ++ (c.bytes ++ z)) (x.length + c.size) =
      some (x ++ [c.lead]).length := by
    rw [cut, size]
    apply backOver_run
    · intro b mem
      rw [continuation_mask]
      exact c.mem_tails mem
    · intro b mem
      rw [continuation_mask]
      have last : c.lead = b := by simpa using mem
      exact last ▸ c.lead_not_continuation
  unfold unicodePrevUTF8CharLen
  rw [back, Option.map_some, List.length_append, List.length_singleton]
  congr 1
  omega

theorem unicodeUTF8CharLen_spec {n : Nat} (x z : Bytes) (c : CodedChar) (inside : x.length < n) :
    unicodeUTF8CharLen (x ++ (c.bytes ++ z)) n x.length = some c.size := by
  unfold unicodeUTF8CharLen
  rw [if_neg (by omega), List.getElem?_append_right (Nat.le_refl _), Nat.sub_self]
  have starts : announced c.lead ≠ 0 := by rw [c.announces]; omega
  simp only [CodedChar.bytes, List.cons_append, List.getElem?_cons_zero, Option.map_some,
    CodedChar.size]
  unfold announced at starts ⊢
  congr 1
  split_ifs at starts ⊢ <;> first | rfl | omega

theorem unicodeUTF8CharToCodePoint_spec {len : Nat} (c : CodedChar) (z : Bytes)
    (enough : c.size ≤ len) :
    unicodeUTF8CharToCodePoint (c.bytes ++ z) len = some (c.size, c.code) := by
  obtain ⟨lead, tails, announces, continues⟩ := c
  obtain ⟨one, two, three, four⟩ := lead_masks lead
  have most := CodedChar.announced_le lead
  have mask : ∀ b : UInt8, b.toNat % 64 < 64 := fun b => Nat.mod_lt _ (by omega)
  have size : CodedChar.size ⟨lead, tails, announces, continues⟩ = tails.length + 1 := announces
  rw [size] at enough ⊢
  unfold unicodeUTF8CharToCodePoint
  rw [if_neg (by omega)]
  match tails, announces with
  | [], announces =>
    obtain ⟨low, load⟩ := one announces
    simp [CodedChar.bytes, CodedChar.code, low, load]
  | [b], announces =>
    obtain ⟨high, marks, load⟩ := two announces
    have long : 2 ≤ len := enough
    simp [-UInt8.toNat_and, CodedChar.bytes, CodedChar.code, high, marks, load, long, tail_mask,
      or_six_bits, mask]
  | [b, d], announces =>
    obtain ⟨high, more, marks, load⟩ := three announces
    have long : 3 ≤ len := enough
    have lift : ∀ n : Nat, n <<< 12 = n <<< 6 <<< 6 := fun n => Nat.shiftLeft_add n 6 6
    simp [-UInt8.toNat_and, CodedChar.bytes, CodedChar.code, high, more, marks, load, long,
      tail_mask, lift, ← Nat.shiftLeft_or_distrib, or_six_bits, mask]
  | [b, d, e], announces =>
    obtain ⟨high, more, most, marks, load⟩ := four announces
    have long : 4 ≤ len := enough
    have lift : ∀ n : Nat, n <<< 12 = n <<< 6 <<< 6 := fun n => Nat.shiftLeft_add n 6 6
    have lift' : ∀ n : Nat, n <<< 18 = n <<< 6 <<< 6 <<< 6 := by
      intro n
      rw [← Nat.shiftLeft_add, ← Nat.shiftLeft_add]
    simp [-UInt8.toNat_and, CodedChar.bytes, CodedChar.code, high, more, most, marks, load, long,
      tail_mask, lift, lift', ← Nat.shiftLeft_or_distrib, or_six_bits, mask]
  | _ :: _ :: _ :: _ :: _, announces =>
    simp only [List.length_cons] at announces
    omega

/-- The character belongs to the one before it. -/
def joins (c : CodedChar) : Bool := unicodeIsCombiningChar c.code

/-- A character and the combining ones behind it. -/
def cluster : Text → Text
  | [] => []
  | c :: t => c :: t.takeWhile joins

theorem graphemeEnd_spec (x z : Bytes) (t : Text) :
    graphemeEnd (x ++ (flat t ++ z)) (x.length + (flat t).length) x.length =
      some (x.length + (flat (t.takeWhile joins)).length) := by
  induction t generalizing x with
  | nil =>
    rw [graphemeEnd, dif_neg (by simp)]
    simp
  | cons c t ih =>
    have positive := c.size_pos
    have inside : x.length < x.length + (flat (c :: t)).length := by
      simp only [flat_cons, List.length_append, CodedChar.length_bytes]
      omega
    have width := unicodeUTF8CharLen_spec x (flat t ++ z) c inside
    have code := unicodeUTF8CharToCodePoint_spec c (flat t ++ z) (Nat.le_refl c.size)
    rw [flat_cons, List.append_assoc] at *
    rw [graphemeEnd, dif_pos inside]
    split
    next none => rw [width] at none; cases none
    next len found =>
      cases width.symm.trans found
      rw [List.drop_left, code]
      by_cases rides : joins c = true
      · have more := ih (x ++ c.bytes)
        simp only [List.length_append, CodedChar.length_bytes, List.append_assoc] at more ⊢
        rw [List.takeWhile_cons_of_pos rides, flat_cons, List.length_append,
          CodedChar.length_bytes, ← Nat.add_assoc, ← Nat.add_assoc]
        exact (if_pos rides).trans more
      · rw [List.takeWhile_cons_of_neg rides]
        exact if_neg rides

theorem unicodeGraphemeLen_spec (x z : Bytes) (t : Text) :
    unicodeGraphemeLen (x ++ (flat t ++ z)) (x.length + (flat t).length) x.length =
      some (flat (cluster t)).length := by
  unfold unicodeGraphemeLen
  cases t with
  | nil => simp [cluster]
  | cons c t =>
    have positive := c.size_pos
    have inside : x.length < x.length + (flat (c :: t)).length := by
      simp only [flat_cons, List.length_append, CodedChar.length_bytes]
      omega
    have width := unicodeUTF8CharLen_spec x (flat t ++ z) c inside
    have stop := graphemeEnd_spec (x ++ c.bytes) z t
    simp only [List.length_append, CodedChar.length_bytes, List.append_assoc] at stop
    rw [if_neg (by omega), flat_cons, List.append_assoc, ← flat_cons, width]
    simp only [flat_cons, List.length_append, CodedChar.length_bytes, cluster, ← Nat.add_assoc]
    simp only [Option.bind_eq_bind, Option.bind_some, stop]
    simp only [Option.pure_def, Option.some.injEq]
    omega

theorem graphemeBegin_spec (t : Text) (z : Bytes) :
    graphemeBegin (flat t.reverse ++ z) (flat t.reverse).length =
      some ((t.dropWhile joins).tail?.map fun rest => (flat rest.reverse).length) := by
  induction t generalizing z with
  | nil => rw [graphemeBegin, dif_neg (by simp)]; rfl
  | cons c t ih =>
    have positive := c.size_pos
    have back := unicodePrevUTF8CharLen_spec (flat t.reverse) z c
    have code := unicodeUTF8CharToCodePoint_spec c z (Nat.le_refl c.size)
    have cut : flat (c :: t).reverse = flat t.reverse ++ c.bytes := by simp
    rw [cut, List.append_assoc, List.length_append, CodedChar.length_bytes, graphemeBegin,
      dif_pos (by omega)]
    split
    next none => rw [back] at none; cases none
    next len found =>
      cases back.symm.trans found
      rw [if_neg (by omega), Nat.add_sub_cancel, List.drop_left, code]
      by_cases rides : joins c = true
      · rw [List.dropWhile_cons_of_pos rides]
        exact (if_pos rides).trans (ih (c.bytes ++ z))
      · rw [List.dropWhile_cons_of_neg rides]
        exact if_neg rides

/-- The cluster behind the cursor, of the characters before it, nearest first. -/
def clusterBefore (t : Text) : Text :=
  match t.dropWhile joins with
  | [] => []
  | head :: _ => head :: (t.takeWhile joins).reverse

theorem clusterBefore_length (t : Text) :
    (((t.dropWhile joins).tail?.map fun rest => (flat rest.reverse).length).map
      fun first => (flat t.reverse).length - first).getD 0 = (flat (clusterBefore t)).length := by
  unfold clusterBefore
  have whole := List.takeWhile_append_dropWhile (p := joins) (l := t)
  cases found : t.dropWhile joins with
  | nil => rfl
  | cons head rest =>
    rw [found] at whole
    have length := congrArg (fun t => (flat t.reverse).length) whole
    simp only [List.reverse_append, List.reverse_cons, flat_append, List.length_append,
      flat_cons, flat_nil, List.append_nil] at length
    simp only [List.tail?_cons, Option.map_some, Option.getD_some, flat_cons, List.length_append]
    omega

theorem unicodePrevGraphemeLen_spec (t : Text) (z : Bytes) :
    unicodePrevGraphemeLen (flat t.reverse ++ z) (flat t.reverse).length =
      some (flat (clusterBefore t)).length := by
  unfold unicodePrevGraphemeLen
  rw [graphemeBegin_spec, Option.map_some, clusterBefore_length]

end TerminalText
