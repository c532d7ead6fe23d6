import Serene.ReaderSteps
import Serene.Scanner

/-!
# Text that the reader does not look past

The text `u` in front of the cursor is followed in memory by `tail`. Either the
tail starts with an end byte, or the text ends where the buffer does and the
scanner is then at a point where the reader looks no further. Sealing is kept by
what the scanner takes of the text, and it is what the reader's peeks rest on.
-/

namespace SealedText

open ByteClasses Locations AstNodes ReaderModel ReaderSteps Incremental Scanner

/-- The reader takes the byte without asking whether the buffer has ended. -/
def Continues (s : Scan) (c : UInt8) : Prop :=
  match s.mode with
  | .between => False
  | .symbol lexeme => lexeme = [minus] ∧ isdigit c = true
  | .number .. => isdigit c = true ∨ c = dot ∨ isalpha c = true

theorem Continues.takes {s : Scan} {c : UInt8} (goesOn : Continues s c) : Takes s c := by
  cases mode : s.mode with
  | between => simp [Continues, mode] at goesOn
  | symbol lexeme =>
    simp only [Continues, mode] at goesOn
    simp only [Takes, mode]
    exact (digit_facts goesOn.2).1
  | number start lexeme neg floatNum => simpa [Continues, Takes, mode] using goesOn

/-- Wherever the reader compares its position with the size, from position `p`
on, the position is below the size or nothing but spaces is left. -/
def InBounds (ns : Bytes) (size : Nat) : Nat → Scan → Bytes → Prop
  | _, _, [] => True
  | p, s, c :: u =>
    (p < size ∨ Continues s c ∨ ∀ d ∈ c :: u, isspace d = true) ∧
      ∀ s', s.step ns c = .ok s' → InBounds ns size (p + 1) s' u

theorem inBounds_of_le {ns : Bytes} {size p : Nat} {s : Scan} {u : Bytes}
    (fits : p + u.length ≤ size) : InBounds ns size p s u := by
  induction u generalizing p s with
  | nil => trivial
  | cons c u ih =>
    rw [List.length_cons] at fits
    exact ⟨Or.inl (by omega), fun s' _ => ih (by omega)⟩

/-- Below the size nothing is asked; what comes after it is asked for itself. -/
theorem inBounds_append {ns : Bytes} {size p : Nat} {s : Scan} {u v : Bytes}
    (fits : p + u.length ≤ size)
    (past : ∀ s', (scanner ns).feed s u = .ok s' → InBounds ns size (p + u.length) s' v) :
    InBounds ns size p s (u ++ v) := by
  induction u generalizing p s with
  | nil => exact past s rfl
  | cons c u ih =>
    rw [List.length_cons] at fits past
    refine ⟨Or.inl (by omega), fun s' stepped => ih (by omega) fun last fed => ?_⟩
    have there := past last ((feed_step stepped u).trans fed)
    rwa [Nat.add_comm u.length 1, ← Nat.add_assoc] at there

/-- What the reader does at the end of the text depends on the text alone. -/
def Safe (s : Scan) : Prop :=
  s.opened = [] ∧ match s.mode with
    | .between => True
    | .symbol lexeme => lexeme ≠ [minus]
    | .number .. => False

structure Sealed (src : Source) (p : Nat) (s : Scan) (u tail : Bytes) : Prop where
  plain : ∀ c ∈ u, isEndByte c = false
  inBounds : InBounds src.ns src.buf.size p s u
  ends : (∃ e rest, tail = e :: rest ∧ isEndByte e = true) ∨
    (p + u.length = src.buf.size ∧ nul ∈ tail ∧
      ∀ s', (scanner src.ns).feed s u = .ok s' → Safe s')

namespace Sealed
variable {src : Source} {p : Nat} {s s' : Scan} {c : UInt8} {u v tail : Bytes}

theorem step (sealed : Sealed src p s (c :: u) tail) (stepped : s.step src.ns c = .ok s') :
    Sealed src (p + 1) s' u tail where
  plain := fun d hd => sealed.plain d (List.mem_cons_of_mem c hd)
  inBounds := sealed.inBounds.2 s' stepped
  ends := by
    rcases sealed.ends with terminated | ⟨size, hasNul, safe⟩
    · exact Or.inl terminated
    · refine Or.inr ⟨by rw [List.length_cons] at size; omega, hasNul, fun t fed => ?_⟩
      exact safe t (((scanner src.ns).feed_cons_ok stepped u).trans fed)

theorem feed (sealed : Sealed src p s (v ++ u) tail)
    (fed : (scanner src.ns).feed s v = .ok s') : Sealed src (p + v.length) s' u tail := by
  induction v generalizing p s with
  | nil => exact Except.ok.inj fed ▸ sealed
  | cons c v ih =>
    cases stepped : (scanner src.ns).step s c with
    | error e => rw [(scanner src.ns).feed_cons_error stepped] at fed; cases fed
    | ok t =>
      rw [(scanner src.ns).feed_cons_ok stepped] at fed
      have rest := ih (sealed.step stepped) fed
      rwa [List.length_cons, Nat.add_comm v.length 1, ← Nat.add_assoc]

/-- Between tokens the reader asks for the end, so the position is inside. -/
theorem lt_size (sealed : Sealed src p s (v ++ c :: u) tail) (between : s.mode = .between)
    (noSpace : isspace c = false) : p < src.buf.size := by
  have bound : ∀ d w, v ++ c :: u = d :: w → p < src.buf.size := by
    intro d w split
    have inside := sealed.inBounds
    rw [split] at inside
    rcases inside.1 with lt | goesOn | spaces
    · exact lt
    · simp [Continues, between] at goesOn
    · have space := spaces c (split ▸ by simp)
      rw [noSpace] at space
      cases space
  cases v with
  | nil => exact bound c u rfl
  | cons d v => exact bound d (v ++ c :: u) rfl

theorem flush (sealed : Sealed src p s u tail) (free : ∀ c ∈ u.head?, ¬ Takes s c) :
    Sealed src p (s.flush src.ns) u tail where
  plain := sealed.plain
  inBounds := by
    cases u with
    | nil => trivial
    | cons c u =>
      have takes := free c rfl
      refine ⟨?_, fun t stepped => sealed.inBounds.2 t ((step_flush takes).trans stepped)⟩
      rcases sealed.inBounds.1 with lt | goesOn | spaces
      · exact Or.inl lt
      · exact absurd goesOn.takes takes
      · exact Or.inr (Or.inr spaces)
  ends := by
    rcases sealed.ends with terminated | ⟨size, hasNul, safe⟩
    · exact Or.inl terminated
    · refine Or.inr ⟨size, hasNul, fun t fed => ?_⟩
      cases u with
      | nil =>
        have open_ := (safe s rfl).1
        rw [← Except.ok.inj fed]
        exact ⟨by simpa using open_, by simp⟩
      | cons c u =>
        apply safe t
        rw [← fed]
        simp only [Machine.feed, scanner, step_flush (free c rfl)]

end Sealed

section Peeks
variable {src : Source} {tail : Bytes} {b s : Scan} {r : Reader} {c : UInt8} {u : Bytes}

/-- The text is followed by a byte that is not a space. -/
theorem Sealed.stop {p : Nat} (sealed : Sealed src p s u tail) :
    ∃ ws e rest, tail = ws ++ e :: rest ∧ (∀ c ∈ ws, isspace c = true) ∧ isspace e = false := by
  have stopped : ∃ e ∈ tail, isspace e = false := by
    rcases sealed.ends with ⟨e, rest, rfl, isEnd⟩ | ⟨-, hasNul, -⟩
    · exact ⟨e, List.mem_cons_self, (end_facts isEnd).2.1⟩
    · exact ⟨nul, hasNul, rfl⟩
  clear sealed
  induction tail with
  | nil => obtain ⟨e, he, -⟩ := stopped; cases he
  | cons e tail ih =>
    cases space : isspace e with
    | false => exact ⟨[], e, tail, rfl, by simp, space⟩
    | true =>
      obtain ⟨d, hd, noSpace⟩ := stopped
      have later : d ∈ tail := by
        rcases List.mem_cons.mp hd with rfl | hd
        · rw [space] at noSpace; cases noSpace
        · exact hd
      obtain ⟨ws, x, rest, split, spaces, stop⟩ := ih ⟨d, later, noSpace⟩
      refine ⟨e :: ws, x, rest, by rw [split]; rfl, ?_, stop⟩
      intro y hy
      rcases List.mem_cons.mp hy with rfl | hy
      · exact space
      · exact spaces y hy

theorem feed_steps (src : Source) (b : Scan) (r : Reader) {ws : Bytes}
    (spaces : ∀ c ∈ ws, isspace c = true) :
    (scanner src.ns).feed (b.reading (tracker r) .between) ws =
      .ok (b.reading (tracker (steps r ws)) .between) := by
  rw [steps_tracker]
  exact feed_spaces b (tracker r) spaces

/-- In front of a token the buffer has not ended, and what begins there is sealed. -/
theorem Sealed.atToken {ws : Bytes}
    (sealed : Sealed src r.currentChar (b.reading (tracker r) .between) (ws ++ c :: u) tail)
    (spaces : ∀ d ∈ ws, isspace d = true) (noSpace : isspace c = false) :
    r.currentChar < src.buf.size ∧ atEnd src r c = false ∧
      Sealed src (steps r ws).currentChar (b.reading (tracker (steps r ws)) .between) (c :: u)
        tail := by
  have inside := sealed.lt_size rfl noSpace
  have plain : isEndByte c = false := sealed.plain c (by simp)
  refine ⟨inside, not_atEnd plain inside, ?_⟩
  rw [steps_currentChar]
  exact sealed.feed (feed_steps src b r spaces)

/-- At the end of the text the reader finds the buffer ended. -/
theorem Sealed.ended (sealed : Sealed src r.currentChar s [] tail) :
    ∃ e rest, tail = e :: rest ∧ atEnd src r e = true := by
  rcases sealed.ends with ⟨e, rest, rfl, isEnd⟩ | ⟨size, hasNul, -⟩
  · exact ⟨e, rest, rfl, atEnd_of_end isEnd⟩
  · obtain ⟨e, rest, rfl⟩ := List.exists_cons_of_ne_nil (List.ne_nil_of_mem hasNul)
    have ended : src.buf.size ≤ r.currentChar := size.symm.le
    exact ⟨e, rest, rfl, by simp [atEnd, ended]⟩

end Peeks

/-- The bytes from the first end byte of a terminated buffer on. -/
def remainder (buf : Bytes) : Bytes := (buf.dropWhile fun c => !isEndByte c) ++ [nul]

theorem body_append_remainder (buf : Bytes) : body buf ++ remainder buf = buf ++ [nul] := by
  rw [body, remainder, ← List.append_assoc, List.takeWhile_append_dropWhile]

theorem remainder_ends (buf : Bytes) :
    ∃ e rest, remainder buf = e :: rest ∧ isEndByte e = true := by
  cases rest : buf.dropWhile fun c => !isEndByte c with
  | nil => exact ⟨nul, [], by rw [remainder, rest]; rfl, rfl⟩
  | cons e rest' =>
    refine ⟨e, rest' ++ [nul], by rw [remainder, rest]; rfl, ?_⟩
    have stop := List.head?_dropWhile_not (fun c => !isEndByte c) buf
    simpa [rest] using stop

theorem sealed_nulTerminated (buf ns : Bytes) (filename : Option Bytes) (s : Scan) :
    Sealed ⟨.nulTerminated buf, ns, filename⟩ 0 s (body buf) (remainder buf) where
  plain := body_plain buf
  inBounds := inBounds_of_le (by rw [Nat.zero_add]; exact body_length_le buf)
  ends := Or.inl (remainder_ends buf)

end SealedText
