import Mathlib.Tactic.IntervalCases
import Serene.ErrorTables
import Serene.QuotedLiterals

/-!
# The entries of the table, read as C++

An entry quotes the name, the description and the lines of the help text without
escaping them, and the literal of the last line is followed by a `;`. So an entry
is a call with these strings exactly where there is no help text, and nothing to
escape in the other two.
-/

namespace ErrorEntries

open ByteClasses ErrorsBackend ErrorTables CppTokens

/-- What `llvm::line_iterator` gives when it does not skip blanks: the lines in their order without
their newlines. The last one may have none. -/
structure LineIterator (lines : Bytes → List Bytes) : Prop where
  unbroken : ∀ help, ∀ line ∈ lines help, ByteClasses.newline ∉ line
  joined : ∀ help, (lines help).flatMap (· ++ [ByteClasses.newline]) = help ∨
    (lines help).flatMap (· ++ [ByteClasses.newline]) = help ++ [ByteClasses.newline]

def opening (id : Nat) : List Token :=
  [.word (text "ErrorVariant"), .punct 58, .punct 58, .word (text "make"), .punct 40,
    .word (decimal id), .punct 44]

/-- The tokens of `ErrorVariant::make(id, name, desc, help),`. -/
def IsCall (id : Nat) (defRec : Record) (ts : List Token) : Prop :=
  ∃ name desc help, Literals name defRec.name ∧ Literals desc defRec.desc ∧
    Literals help defRec.help ∧
    ts = opening id ++ name ++ [.punct 44] ++ desc ++ [.punct 44] ++ help ++ [.punct 41, .punct 44]

/-- The text is read as one complete call with the strings of the record. -/
def ReadsAsCall (id : Nat) (defRec : Record) (entry : Bytes) : Prop :=
  ∃ ts, tokens entry = some ts ∧ IsCall id defRec ts

theorem literals_weight {ts : List Token} {value : Bytes} (denotes : Literals ts value) :
    weight ts = value.length := by
  obtain ⟨literals, -, rfl, rfl⟩ := denotes
  simp [weight, Token.weight, List.length_flatten, Function.comp_def]

theorem literals_no_punct {ts : List Token} {value : Bytes} (denotes : Literals ts value)
    (b : UInt8) : .punct b ∉ ts := by
  obtain ⟨literals, -, rfl, -⟩ := denotes
  simp

theorem isCall_weight {id : Nat} {defRec : Record} {ts : List Token}
    (call : IsCall id defRec ts) :
    weight ts = defRec.name.length + defRec.desc.length + defRec.help.length := by
  obtain ⟨name, desc, help, named, described, helped, rfl⟩ := call
  have fixed : weight (opening id) = 0 := rfl
  simp [fixed, Token.weight, literals_weight named, literals_weight described,
    literals_weight helped, Nat.add_assoc]

/-- No semicolon stands in a call. -/
theorem isCall_no_semicolon {id : Nat} {defRec : Record} {ts : List Token}
    (call : IsCall id defRec ts) : .punct 59 ∉ ts := by
  obtain ⟨name, desc, help, named, described, helped, rfl⟩ := call
  simp [opening, literals_no_punct named, literals_no_punct described, literals_no_punct helped]

def lead (i : Nat) : Bytes := text "  ErrorVariant::make(" ++ decimal i ++ text ", \n  "

def helpPieces : List Bytes → List Piece
  | [] => []
  | [line] => [⟨line, text ";\n),\n", by decide, by decide⟩]
  | line :: lines => ⟨line, text "\n\t", by decide, by decide⟩ :: helpPieces lines

def pieces (lines : Bytes → List Bytes) (defRec : Record) : List Piece :=
  ⟨defRec.name, text ",\n  ", by decide, by decide⟩ ::
    if defRec.help.isEmpty then
      [⟨defRec.desc, text ",\n  ", by decide, by decide⟩, ⟨[], text "),\n", by decide, by decide⟩]
    else ⟨defRec.desc, text ",\n", by decide, by decide⟩ :: helpPieces (lines defRec.help)

theorem helpLoop_pieces {k : Nat} (started : 0 < k) (line : Bytes) (lines : List Bytes) :
    helpLoop k (line :: lines) ++ text "),\n" =
      (if k != 1 then text "\t" else []) ++ (helpPieces (line :: lines)).flatMap Piece.text := by
  have quoted : text "\"" = [quote] := rfl
  induction lines generalizing k line with
  | nil =>
    have closing : text ";\n),\n" = text ";\n" ++ text "),\n" := rfl
    simp [helpLoop, helpPieces, Piece.text, quoted, closing]
  | cons next lines ih =>
    have between : text "\n\t" = text "\n" ++ text "\t" := rfl
    have rest := ih (Nat.succ_pos k) next
    rw [if_pos (by simp; omega)] at rest
    rw [helpLoop, List.append_assoc, rest]
    simp [helpPieces, Piece.text, quoted, between]

theorem entry_pieces {lines : Bytes → List Bytes} {defRec : Record} (i : Nat)
    (lined : defRec.help ≠ [] → lines defRec.help ≠ []) :
    (entry lines i defRec).os = lead i ++ (pieces lines defRec).flatMap Piece.text := by
  have unwritten (message : Bytes) :
      (if defRec.desc = [] then printError message else write []).os = [] := by
    split_ifs <;> rfl
  have quoted : text "  \"" = text "  " ++ [quote] := rfl
  have quoted' : text "\",\n" = quote :: text ",\n" := rfl
  have spaced : text ",\n  " = text ",\n" ++ text "  " := rfl
  have spaced' : text ", \n  " = text ", \n" ++ text "  " := rfl
  by_cases empty : defRec.help = []
  · have blank : text "  \"\"" = text "  " ++ [quote, quote] := rfl
    simp [entry, lead, pieces, unwritten, empty, quoted, quoted', spaced, spaced', blank,
      Piece.text]
  · obtain ⟨line, rest, some⟩ := List.exists_cons_of_ne_nil (lined empty)
    have help := helpLoop_pieces Nat.one_pos line rest
    simp [entry, lead, pieces, unwritten, empty, quoted, quoted', spaced, spaced', some,
      Piece.text, help]

theorem digit_word {c : Char} (digit : c.isDigit = true) : isWord c.toUInt8 = true := by
  have bounds : 48 ≤ c.toNat ∧ c.toNat ≤ 57 := by
    simpa [Char.isDigit, UInt32.le_iff_toNat_le] using digit
  have same : c.toUInt8 = UInt8.ofNat c.toNat := rfl
  obtain ⟨low, high⟩ := bounds
  rw [same]
  generalize c.toNat = n at low high
  interval_cases n <;> rfl

theorem decimal_word (n : Nat) : ∀ b ∈ decimal n, isWord b = true := by
  intro b mem
  obtain ⟨c, inside, rfl⟩ := List.mem_map.mp mem
  exact digit_word (Nat.isDigit_of_mem_toDigits (by decide) (by decide) inside)

theorem run_lead (i : Nat) : CppTokens.run ⟨[], .code⟩ (lead i) = some ⟨opening i, .code⟩ := by
  have make : CppTokens.run ⟨[], .code⟩ (text "  ErrorVariant::make(") =
    some ⟨[.word (text "ErrorVariant"), .punct 58, .punct 58, .word (text "make"), .punct 40],
      .code⟩ := rfl
  have number := @run_word [.word (text "ErrorVariant"), .punct 58, .punct 58, .word (text "make"),
    .punct 40] (text ", \n  ") _ (decimal_word i) (by simp [decimal, Nat.toDigits_ne_nil])
    (by decide) (by decide)
  rw [lead, List.append_assoc, run_append, make, Option.bind_some, number]
  rfl

theorem lead_fixed (i : Nat) : (lead i).all stays := by
  have number : (decimal i).all stays := by
    rw [List.all_eq_true]
    exact fun b mem => (word_facts (decimal_word i b mem)).2
  rw [lead, List.all_append, List.all_append, number]
  rfl

theorem size_helpPieces (lines : List Bytes) :
    size (helpPieces lines) = (lines.map List.length).sum := by
  fun_induction helpPieces lines with
  | case1 => rfl
  | case2 line => rfl
  | case3 line lines _ ih => simpa [size] using ih

/-- The last line of a help text is followed by a semicolon. -/
theorem helpPieces_semicolon {lines : List Bytes} (some : lines ≠ []) :
    ∃ p ∈ helpPieces lines, .punct 59 ∈ p.tokens := by
  have last : .punct 59 ∈ puncts (text ";\n),\n") := by decide
  fun_induction helpPieces lines with
  | case1 => exact absurd rfl some
  | case2 line => exact ⟨_, List.mem_singleton_self _, List.mem_cons_of_mem _ last⟩
  | case3 line lines more ih =>
    obtain ⟨p, mem, semicolon⟩ := ih more
    exact ⟨p, List.mem_cons_of_mem _ mem, semicolon⟩

theorem length_joined (lines : List Bytes) :
    (lines.flatMap (· ++ [ByteClasses.newline])).length =
      (lines.map List.length).sum + lines.length := by
  induction lines with
  | nil => rfl
  | cons line lines ih =>
    rw [List.flatMap_cons, List.length_append, ih]
    simp only [List.length_append, List.length_cons, List.length_nil, List.map_cons, List.sum_cons]
    omega

theorem lines_length_le {lines : Bytes → List Bytes} (iterates : LineIterator lines) {help : Bytes}
    (some : help ≠ []) :
    lines help ≠ [] ∧ ((lines help).map List.length).sum ≤ help.length := by
  have positive := List.length_pos_of_ne_nil some
  have bound : ((lines help).flatMap (· ++ [ByteClasses.newline])).length = help.length ∨
      ((lines help).flatMap (· ++ [ByteClasses.newline])).length = help.length + 1 := by
    rcases iterates.joined help with joined | joined
    · exact Or.inl (congrArg List.length joined)
    · exact Or.inr (by rw [joined, List.length_append, List.length_singleton])
  rw [length_joined] at bound
  have lined : lines help ≠ [] := by
    intro none
    rw [none] at bound
    simp only [List.map_nil, List.sum_nil, List.length_nil] at bound
    omega
  have positive' := List.length_pos_of_ne_nil lined
  exact ⟨lined, by omega⟩

theorem size_pieces_le {lines : Bytes → List Bytes} (iterates : LineIterator lines)
    (defRec : Record) : size (pieces lines defRec) ≤
      defRec.name.length + defRec.desc.length + defRec.help.length := by
  by_cases empty : defRec.help = []
  · simp [pieces, empty, size]
  · have bound := (lines_length_le iterates empty).2
    rw [← size_helpPieces] at bound
    simp only [pieces, List.isEmpty_iff, empty, if_false, size, List.map_cons, List.sum_cons]
    rw [size] at bound
    omega

/-- An entry is read back exactly where there is no help text and nothing in the name and the
description has a meaning of its own. -/
theorem entry_reads_iff {lines : Bytes → List Bytes} (iterates : LineIterator lines) (i : Nat)
    (defRec : Record) : ReadsAsCall i defRec (entry lines i defRec).os ↔
      defRec.help = [] ∧ Plain defRec.name ∧ Plain defRec.desc := by
  have lined (some : defRec.help ≠ []) := (lines_length_le iterates some).1
  rw [entry_pieces i lined]
  constructor
  · rintro ⟨ts, read, call⟩
    have full : weight (opening i) + size (pieces lines defRec) ≤ weight ts := by
      rw [isCall_weight call]
      have none : weight (opening i) = 0 := rfl
      rw [none, Nat.zero_add]
      exact size_pieces_le iterates defRec
    have plain := plain_of_tokens (lead_fixed i) (run_lead i) read full
    have written := tokens_plain (lead_fixed i) (run_lead i) plain
    obtain rfl := Option.some.inj (read.symm.trans written)
    by_cases empty : defRec.help = []
    · rw [pieces, if_pos (List.isEmpty_iff.mpr empty)] at plain
      exact ⟨empty, plain _ List.mem_cons_self,
        plain _ (List.mem_cons_of_mem _ List.mem_cons_self)⟩
    · obtain ⟨p, mem, semicolon⟩ := helpPieces_semicolon (lined empty)
      refine absurd (List.mem_append_right _ (List.mem_flatMap.mpr ⟨p, ?_, semicolon⟩))
        (isCall_no_semicolon call)
      rw [pieces, if_neg (by simpa using empty)]
      exact List.mem_cons_of_mem _ (List.mem_cons_of_mem _ mem)
  · rintro ⟨empty, named, described⟩
    have plain : ∀ p ∈ pieces lines defRec, Plain p.content := by
      rw [pieces, if_pos (List.isEmpty_iff.mpr empty)]
      simp only [List.forall_mem_cons]
      exact ⟨named, described, by simp [Plain], by simp⟩
    refine ⟨_, tokens_plain (lead_fixed i) (run_lead i) plain, [.string defRec.name],
      [.string defRec.desc], [.string []], ⟨[defRec.name], by simp⟩, ⟨[defRec.desc], by simp⟩,
      ⟨[[]], by simp [empty]⟩, ?_⟩
    rw [pieces, if_pos (List.isEmpty_iff.mpr empty)]
    rfl

/-- In the table of every list, exactly the entries without a help text and with nothing to escape
are read back as complete calls with the strings of their records. -/
theorem entries_read_iff {lines : Bytes → List Bytes} (iterates : LineIterator lines)
    (emitSourceFileHeader : Bytes → Bytes) (records : List Record) :
    (ErrorsBackend.run lines emitSourceFileHeader (.list records)).os =
      emitSourceFileHeader (text "Serene's Errors collection") ++ includes ++
        (table records).render lines ∧
    ∀ v ∈ (table records).variants,
      (ReadsAsCall v.id v.record (entry lines v.id v.record).os ↔
        v.record.help = [] ∧ Plain v.record.name ∧ Plain v.record.desc) :=
  ⟨run_renders lines emitSourceFileHeader records,
    fun v _ => entry_reads_iff iterates v.id v.record⟩

def splitLines : Bytes → List Bytes
  | [] => []
  | b :: rest =>
    if b = ByteClasses.newline then [] :: splitLines rest
    else match splitLines rest with
      | [] => [[b]]
      | line :: lines => (b :: line) :: lines

theorem splitLines_iterates : LineIterator splitLines := by
  constructor
  · intro help
    fun_induction splitLines help with
    | case1 => simp
    | case2 rest ih => exact List.forall_mem_cons.mpr ⟨List.not_mem_nil, ih⟩
    | case3 b rest other none _ => simp [Ne.symm other]
    | case4 b rest other line lines more ih =>
      rw [more] at ih
      obtain ⟨first, later⟩ := List.forall_mem_cons.mp ih
      refine List.forall_mem_cons.mpr ⟨?_, later⟩
      rw [List.mem_cons, not_or]
      exact ⟨Ne.symm other, first⟩
  · intro help
    fun_induction splitLines help with
    | case1 => exact Or.inl rfl
    | case2 rest ih => exact ih.imp (congrArg (_ :: ·)) (congrArg (_ :: ·))
    | case3 b rest other none ih =>
      obtain rfl : rest = [] := by simpa [none] using ih
      exact Or.inr rfl
    | case4 b rest other line lines more ih =>
      rw [more] at ih
      exact ih.imp (congrArg (b :: ·)) (congrArg (b :: ·))

def short : Record := ⟨text "Missing", [text "Error"], text "It is missing", []⟩

def helped : Record := ⟨text "Broken", [text "Error"], text "It is broken", text "Fix it"⟩

def escaped : Record := ⟨text "Lost", [text "Error"], text "\\tmp is lost", []⟩

theorem short_read : ReadsAsCall 0 short (entry splitLines 0 short).os := by
  have read := (entries_read_iff splitLines_iterates (fun _ => []) [short]).2
  exact (read ⟨0, 0, short⟩ List.mem_cons_self).mpr (by decide)

/-- The literal of the help text is followed by a semicolon, and a backslash makes a tab. -/
theorem entries_broken :
    tokens (entry splitLines 1 helped).os = some (opening 1 ++ [.string helped.name, .punct 44,
      .string helped.desc, .punct 44, .string helped.help, .punct 59, .punct 41, .punct 44]) ∧
    tokens (entry splitLines 2 escaped).os = some (opening 2 ++ [.string escaped.name, .punct 44,
      .string (text "\tmp is lost"), .punct 44, .string [], .punct 41, .punct 44]) ∧
    ¬ ReadsAsCall 1 helped (entry splitLines 1 helped).os ∧
    ¬ ReadsAsCall 2 escaped (entry splitLines 2 escaped).os := by
  refine ⟨rfl, rfl, ?_, ?_⟩
  · rw [entry_reads_iff splitLines_iterates]
    decide
  · rw [entry_reads_iff splitLines_iterates]
    decide

end ErrorEntries
