import Serene.CursorPlaces
import Serene.LocationLookup
import Serene.ReaderGrammar

/-!
# What the 16-bit counters tell apart

The reader counts lines and columns modulo 2^16 and never looks at how far they
have come. So the recorded places of a text come in order as long as no line and
no column needs more than 16 bits, and no longer.
-/

namespace CounterLimits

open ByteClasses Locations AstNodes ReaderModel Lines ReaderPlaces CursorPlaces LocationLookup
  Scanner Grammar ScannerGrammar ReaderGrammar

/-- The cursor of a reader of this buffer has the location on byte `i`. -/
def CursorAt (buf ns : Bytes) (filename : Option Bytes) (i : Nat) (loc : Location) : Prop :=
  ∃ r, advances (.ofText buf ns filename) (i + 1)
      (Source.reader (.ofText buf ns filename)) = .ok () r ∧ r.index = i ∧ r.currentLocation = loc

/-- A run of `read` ended in a return statement and left the reader so. -/
def Ended (buf ns : Bytes) (filename : Option Bytes) (r : Reader) : Prop :=
  (∃ ast, read (.nulTerminated buf) ns filename = .ok ast r) ∨
    ∃ e exit, read (.nulTerminated buf) ns filename = .error (.failed e exit) r

/-- The places of the first bytes, up to byte `n`, come in the order of the bytes. -/
def Ordered (buf ns : Bytes) (filename : Option Bytes) (n : Nat) : Prop :=
  ∀ i j, i < j → j ≤ n → ∀ at_i at_j, CursorAt buf ns filename i at_i →
    CursorAt buf ns filename j at_j → key at_i < key at_j

/-- No line and no column of the first bytes, up to byte `n`, exceeds 16 bits. -/
def Counted (buf : Bytes) (n : Nat) : Prop :=
  ∀ i ≤ n, readerLine (buf.take i) < 65536 ∧ readerCol (buf.take i) < 65536

/-- The location the reader has on the byte after `w`. -/
def locationAfter (ns : Bytes) (filename : Option Bytes) (w : Bytes) : Location where
  ns := ns
  filename := filename
  line := .ofNat (readerLine w)
  col := .ofNat (readerCol w)

/-- The recorded numbers are the true ones, reduced. -/
theorem key_locationAfter (ns : Bytes) (filename : Option Bytes) (w : Bytes) :
    key (locationAfter ns filename w) = toLex (readerLine w % 65536, readerCol w % 65536) := by
  simp only [key, locationAfter, UInt16.toNat_ofNat']

/-- A number that has just become too large comes out as 0, and that is not later. -/
theorem counted_step {w : Bytes} {c : UInt8} (line : readerLine w < 65536)
    (col : readerCol w < 65536)
    (later : toLex (readerLine w % 65536, readerCol w % 65536) <
      toLex (readerLine (w ++ [c]) % 65536, readerCol (w ++ [c]) % 65536)) :
    readerLine (w ++ [c]) < 65536 ∧ readerCol (w ++ [c]) < 65536 := by
  rw [Prod.Lex.lt_iff] at later
  simp only [ofLex_toLex, Nat.mod_eq_of_lt line, Nat.mod_eq_of_lt col] at later
  by_cases ends : c = newline
  · subst ends
    rw [readerLine_newline, readerCol_newline] at later ⊢
    omega
  · rw [readerLine_other w ends, readerCol_other w ends, Nat.mod_eq_of_lt line] at later
    rw [readerLine_other w ends, readerCol_other w ends]
    omega

section Places
variable {buf ns : Bytes} {filename : Option Bytes} {i n : Nat} {loc : Location}

theorem cursorAt_iff (inside : i ≤ buf.length) :
    CursorAt buf ns filename i loc ↔ loc = locationAfter ns filename (buf.take i) := by
  obtain ⟨r, c, ran, index, location⟩ := advances_to ns filename inside
  rw [origin_steps] at location
  constructor
  · rintro ⟨r', ran', -, rfl⟩
    rw [ran] at ran'
    injection ran' with _ same
    rw [← same]
    exact location
  · rintro rfl
    exact ⟨r, ran, index, location⟩

/-- Counted places follow each other as the bytes do. -/
theorem ordered_of_counted (inside : n ≤ buf.length) (counted : Counted buf n) :
    Ordered buf ns filename n := by
  intro i j before reached at_i at_j cursor cursor'
  obtain ⟨line, col⟩ := counted i (by omega)
  obtain ⟨line', col'⟩ := counted j reached
  obtain ⟨v, split⟩ : buf.take i <+: buf.take j := List.take_prefix_take_left (by omega)
  have later : v ≠ [] := by
    rintro rfl
    have lengths := congrArg List.length split
    rw [List.append_nil, List.length_take_of_le (by omega), List.length_take_of_le (by omega)]
      at lengths
    omega
  have places := readerPlace_lt (buf.take i) v later
  rw [split] at places
  rw [(cursorAt_iff (by omega)).mp cursor, (cursorAt_iff (by omega)).mp cursor',
    key_locationAfter, key_locationAfter, Nat.mod_eq_of_lt line, Nat.mod_eq_of_lt col,
    Nat.mod_eq_of_lt line', Nat.mod_eq_of_lt col']
  exact places

theorem counted_of_ordered (inside : n ≤ buf.length) (ordered : Ordered buf ns filename n) :
    Counted buf n := by
  intro i reached
  induction i with
  | zero =>
    rw [List.take_zero]
    exact ⟨by decide, by decide⟩
  | succ i ih =>
    obtain ⟨line, col⟩ := ih (by omega)
    have later := ordered i (i + 1) (by omega) reached _ _
      ((cursorAt_iff (by omega)).mpr rfl) ((cursorAt_iff (by omega)).mpr rfl)
    rw [key_locationAfter, key_locationAfter, List.take_succ_eq_append_getElem (by omega)] at later
    rw [List.take_succ_eq_append_getElem (by omega)]
    exact counted_step line col later

/-- The cursor that a run leaves behind has the location of its byte. -/
theorem placed_cursorAt {r : Reader} (placed : Placed (.ofText buf ns filename) r)
    (index : r.index = n) (inside : n ≤ buf.length) :
    CursorAt buf ns filename n r.currentLocation := by
  rw [cursorAt_iff inside]
  have next : r.currentChar = n + 1 := by
    rw [Reader.index] at index
    omega
  have memory : n < (buf ++ [nul]).length := by
    rw [List.length_append]
    exact Nat.lt_succ_of_le inside
  have passed : (buf ++ [nul]).take (n + 1) = buf.take n ++ [(buf ++ [nul])[n]] := by
    rw [List.take_succ_eq_append_getElem memory, List.take_append_of_le_length inside]
  rw [Placed, next] at placed
  have location := congrArg Tracker.location placed
  change r.currentLocation =
    ((origin ns filename).steps ((buf ++ [nul]).take (n + 1))).location at location
  rw [location, passed, origin_steps]
  rfl

theorem ended_placed {r : Reader} (ended : Ended buf ns filename r) :
    Placed (.ofText buf ns filename) r := by
  have kept := @read_follows (.ofText buf ns filename) (Source.turns (.ofText buf ns filename))
    (Source.turns (.ofText buf ns filename)) _ (reader_placed _)
  rcases ended with ⟨ast, ran⟩ | ⟨e, exit, ran⟩
  · change Reader.read _ _ _ _ = _ at ran
    rw [ran] at kept
    exact kept
  · change Reader.read _ _ _ _ = _ at ran
    rw [ran] at kept
    exact kept (by simp [Regular])

theorem ended_inside {r : Reader} (ended : Ended buf ns filename r) : r.index ≤ buf.length := by
  have inside := (ReaderSafety.read_stays_inside buf ns filename).2.2.2
  rcases ended with ⟨ast, ran⟩ | ⟨e, exit, ran⟩
  · rw [ran] at inside
    exact inside
  · rw [ran] at inside
    exact inside.2

end Places

/-- The reader accepts by the grammar alone, however far its counters have come. On every byte
its cursor has the true line and column modulo 2^16, also where a run of `read` ends. These
places are in the order of the bytes as long as no line and no column exceeds 65535, and
no longer. -/
theorem counters_modulo (buf ns : Bytes) (filename : Option Bytes) :
    ((∃ ast, ReadsAs buf ns filename ast) ↔ ∃ tree, Parses ns (body buf) tree) ∧
    (∀ i ≤ buf.length, ∃ loc, CursorAt buf ns filename i loc ∧
      loc.line.toNat = readerLine (buf.take i) % 2 ^ 16 ∧
      loc.col.toNat = readerCol (buf.take i) % 2 ^ 16) ∧
    (∀ r, Ended buf ns filename r → r.index ≤ buf.length ∧
      ∀ n : Nat, r.index = n → CursorAt buf ns filename n r.currentLocation) ∧
    ∀ n ≤ buf.length, Ordered buf ns filename n ↔ Counted buf n := by
  refine ⟨?_, ?_, ?_, ?_⟩
  · constructor
    · rintro ⟨ast, reads⟩
      obtain ⟨tree, parsed, -⟩ := (readsAs_iff buf ns filename ast).mp reads
      exact ⟨tree, parsed⟩
    · rintro ⟨tree, parsed⟩
      exact ⟨_, (readsAs_iff buf ns filename _).mpr ⟨tree, parsed, rfl⟩⟩
  · intro i inside
    refine ⟨_, (cursorAt_iff inside).mpr rfl, ?_, ?_⟩
    · exact UInt16.toNat_ofNat'
    · exact UInt16.toNat_ofNat'
  · intro r ended
    have inside := ended_inside ended
    refine ⟨inside, ?_⟩
    intro n index
    exact placed_cursorAt (ended_placed ended) index (by omega)
  · intro n inside
    exact ⟨counted_of_ordered inside, ordered_of_counted inside⟩

/-- Empty lines, and then an `a`. -/
def afterLines (n : Nat) : Bytes := List.replicate n newline ++ [97]

theorem readerLine_replicate (n : Nat) : readerLine (List.replicate n newline) = n + 1 := by
  rw [readerLine, line, List.count_replicate_self]

theorem readerCol_replicate (n : Nat) : readerCol (List.replicate (n + 1) newline) = 1 := by
  rw [List.replicate_succ', readerCol_newline]

theorem exprs_newlines {ns u w : Bytes} {k m : Nat} {tree : List (Node Span)} (n : Nat)
    (next : Exprs ns (k + n) u tree m w) :
    Exprs ns k (List.replicate n newline ++ u) tree m w := by
  induction n generalizing k with
  | zero => exact next
  | succ n ih =>
    refine .space (c := newline) rfl (ih ?_)
    rwa [Nat.add_assoc, Nat.add_comm 1 n]

theorem afterLines_parses (n : Nat) :
    Parses [] (afterLines n) [symbolNode [] (n, n + 1) [97]] := by
  have length : (afterLines n).length = n + 1 := by simp [afterLines]
  have token : SymbolAt [97] [] := by
    constructor
    · simp
    · intro c mem
      rw [List.mem_singleton.mp mem]
      rfl
    · rintro (digit | ⟨dash, -⟩)
      · cases digit
      · cases dash
    · simp
  rw [Parses, length]
  refine exprs_newlines n ?_
  rw [Nat.zero_add]
  exact @Exprs.symbol [] n (n + 1) [97] [] [] [] token .nil

theorem afterLines_reads (n : Nat) : ReadsAs (afterLines n) [] none
    [.symbol ⟨⟨{}, locationAfter [] none (List.replicate n newline)⟩, [97], []⟩] := by
  have plain : ∀ c ∈ afterLines n, isEndByte c = false := by
    intro c mem
    rcases List.mem_append.mp mem with mem | mem
    · rw [List.eq_of_mem_replicate mem]
      rfl
    · rw [List.mem_singleton.mp mem]
      rfl
  have stop : (trackerAt (origin [] none) (afterLines n) (n + 1)).location =
      locationAfter [] none (List.replicate n newline) := by
    rw [trackerAt, List.take_of_length_le (by simp [afterLines]), afterLines, origin_steps]
    rfl
  refine (readsAs_iff _ _ _ _).mpr ⟨_, by rw [body_eq_self plain]; exact afterLines_parses n, ?_⟩
  rw [body_eq_self plain, ← stop]
  rfl

/-- Byte 65536 is read on line 1, before the place of byte 0. -/
theorem line_wraps :
    ReadsAs (afterLines 65536) [] none [.symbol ⟨⟨{}, lineCol 1 1⟩, [97], []⟩] ∧
    CursorAt (afterLines 65536) [] none 0 (lineCol 1 2) ∧
    CursorAt (afterLines 65536) [] none 65536 (lineCol 1 1) ∧
    ¬ Ordered (afterLines 65536) [] none 65536 := by
  have wrapped : locationAfter [] none (List.replicate 65536 newline) = lineCol 1 1 := by
    rw [locationAfter, readerLine_replicate, readerCol_replicate 65535]
    rfl
  have inside : 65536 ≤ (afterLines 65536).length := by
    rw [afterLines, List.length_append, List.length_replicate]
    omega
  have first : CursorAt (afterLines 65536) [] none 0 (lineCol 1 2) :=
    (cursorAt_iff (Nat.zero_le _)).mpr rfl
  have last : CursorAt (afterLines 65536) [] none 65536 (lineCol 1 1) := by
    have before : (afterLines 65536).take 65536 = List.replicate 65536 newline :=
      List.take_left' List.length_replicate
    rw [cursorAt_iff inside, before, wrapped]
  refine ⟨?_, first, last, ?_⟩
  · have reads := afterLines_reads 65536
    rwa [wrapped] at reads
  · intro ordered
    have lt := ordered 0 65536 (by omega) (Nat.le_refl _) _ _ first last
    exact absurd lt (by decide)

end CounterLimits
