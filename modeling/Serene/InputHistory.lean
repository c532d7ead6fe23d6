import Serene.BoundedLogs
import Serene.ByteClasses

/-!
# The history of the line editor

The two globals of the history and the functions on them. A line comes in as a C
string: what follows a NUL byte is not part of it. The file of `SaveHistory` and
`LoadHistory` is the list of its bytes; opening it succeeds here.
-/

namespace InputHistory

open ByteClasses BoundedLogs

structure History where
  history_max_len : Nat
  history : List Bytes
  deriving DecidableEq

/-- The globals as the program starts, with `LINENOISE_DEFAULT_HISTORY_MAX_LEN`. -/
def History.initial : History := ⟨100, []⟩

/-- The bytes of a string up to its first NUL. -/
def cStr (s : Bytes) : Bytes := s.takeWhile fun b => b != nul

def addHistory (h : History) (line : Bytes) : Bool × History :=
  if h.history_max_len = 0 then (false, h)
  else if h.history.getLast? = some (cStr line) then (false, h)
  else
    let history := if h.history.length = h.history_max_len then h.history.tail else h.history
    (true, { h with history := history ++ [cStr line] })

/-- `vector::resize` keeps the entries at the front. -/
def setHistoryMaxLen (h : History) (len : Nat) : Bool × History :=
  if len < 1 then (false, h)
  else (true, ⟨len, if len < h.history.length then h.history.take len else h.history⟩)

def saveHistory (h : History) : Bytes := h.history.flatMap fun entry => entry ++ [newline]

/-- What `std::getline` returns one after the other, with `line` read of the current one; a last
line needs no newline. -/
def getlines (line : Bytes) : Bytes → List Bytes
  | [] => if line = [] then [] else [line]
  | b :: file => if b = newline then line :: getlines [] file else getlines (line ++ [b]) file

def loadHistory (h : History) (file : Bytes) : History :=
  (getlines [] file).foldl (fun h line => (addHistory h line).2) h

/-- What the functions above keep. -/
structure History.Sound (h : History) : Prop where
  positive : 0 < h.history_max_len
  fits : h.history.length ≤ h.history_max_len
  distinct : h.history.IsChain (· ≠ ·)
  strings : ∀ entry ∈ h.history, nul ∉ entry

variable {h : History} {n : Nat}

theorem nul_notMem_cStr (s : Bytes) : nul ∉ cStr s := by
  intro mem
  have := List.mem_takeWhile_imp mem
  simp at this

theorem cStr_of_notMem {s : Bytes} (none : nul ∉ s) : cStr s = s := by
  apply List.takeWhile_eq_self_iff.mpr
  intro b mem
  simp only [bne_iff_ne, ne_eq]
  rintro rfl
  exact none mem

theorem addHistory_eq (positive : 0 < h.history_max_len) (line : Bytes) :
    (addHistory h line).2 = { h with history := push h.history_max_len h.history (cStr line) } := by
  unfold addHistory push
  rw [if_neg (by omega)]
  split <;> rfl

theorem foldl_addHistory (positive : 0 < h.history_max_len) (lines : List Bytes) :
    lines.foldl (fun h line => (addHistory h line).2) h =
      { h with history := (lines.map cStr).foldl (push h.history_max_len) h.history } := by
  induction lines generalizing h with
  | nil => rfl
  | cons line lines ih =>
    rw [List.foldl_cons, addHistory_eq positive]
    exact ih positive

/-- The lines added leave what was said last, each once in a row. -/
theorem addHistory_run (sound : h.Sound) (lines : List Bytes) :
    lines.foldl (fun h line => (addHistory h line).2) h =
      ⟨h.history_max_len, recent h.history_max_len (h.history ++ lines.map cStr)⟩ := by
  rw [foldl_addHistory sound.positive, foldl_push_of_log sound.positive sound.fits sound.distinct]

theorem History.Sound.addHistory (sound : h.Sound) (line : Bytes) :
    (InputHistory.addHistory h line).2.Sound := by
  have run := addHistory_run sound [line]
  simp only [List.foldl_cons, List.foldl_nil] at run
  rw [run]
  refine ⟨sound.positive, recent_length_le _ _, recent_distinct _ _, ?_⟩
  intro entry mem
  rcases List.mem_append.mp (mem_recent mem) with old | new
  · exact sound.strings entry old
  · obtain ⟨line, -, rfl⟩ := List.mem_map.mp new
    exact nul_notMem_cStr line

theorem History.Sound.setHistoryMaxLen (sound : h.Sound) (len : Nat) :
    (setHistoryMaxLen h len).2.Sound := by
  unfold InputHistory.setHistoryMaxLen
  split
  next => exact sound
  next some =>
    have positive : 0 < len := by omega
    split
    next smaller =>
      refine ⟨positive, List.length_take_le _ _, sound.distinct.take _, ?_⟩
      intro entry mem
      exact sound.strings entry (List.mem_of_mem_take mem)
    next room => exact ⟨positive, Nat.le_of_not_lt room, sound.distinct, sound.strings⟩

theorem History.empty_sound (positive : 0 < n) : History.Sound ⟨n, []⟩ :=
  ⟨positive, Nat.zero_le n, List.IsChain.nil, by simp⟩

theorem History.initial_sound : History.initial.Sound := empty_sound (by decide)

/-- An entry is read back as its lines. -/
theorem getlines_entry {line : Bytes} (one : newline ∉ line) (entry file : Bytes) :
    getlines line (entry ++ newline :: file) =
      (line ++ entry).splitOn newline ++ getlines [] file := by
  induction entry generalizing line with
  | nil =>
    rw [List.append_nil, List.splitOn_eq_singleton one]
    simp [getlines]
  | cons b entry ih =>
    rw [List.cons_append, getlines]
    split
    next same =>
      subst same
      rw [ih (by simp), List.splitOn_append_cons_self_of_not_mem one]
      rfl
    next other =>
      rw [ih (by simpa [one] using Ne.symm other), List.append_assoc]
      rfl

theorem getlines_subset (line file : Bytes) :
    ∀ entry ∈ getlines line file, ∀ b ∈ entry, b ∈ line ++ file := by
  induction file generalizing line with
  | nil =>
    intro entry mem b inside
    unfold getlines at mem
    split at mem
    · cases mem
    · rw [List.append_nil]
      exact List.mem_singleton.mp mem ▸ inside
  | cons d file ih =>
    intro entry mem b inside
    unfold getlines at mem
    split at mem
    · rcases List.mem_cons.mp mem with rfl | later
      · exact List.mem_append_left _ inside
      · have there := ih [] entry later b inside
        exact List.mem_append_right _ (List.mem_cons_of_mem d there)
    · have there := ih (line ++ [d]) entry mem b inside
      rwa [List.append_assoc] at there

theorem getlines_one {line : Bytes} (one : newline ∉ line) (file : Bytes) :
    ∀ entry ∈ getlines line file, newline ∉ entry := by
  induction file generalizing line with
  | nil =>
    intro entry mem
    unfold getlines at mem
    split at mem
    · cases mem
    · exact List.mem_singleton.mp mem ▸ one
  | cons b file ih =>
    unfold getlines
    split
    next =>
      intro entry mem
      rcases List.mem_cons.mp mem with rfl | later
      · exact one
      · exact ih (by simp) entry later
    next other =>
      refine ih fun mem => ?_
      rcases List.mem_append.mp mem with old | new
      · exact one old
      · exact other (List.mem_singleton.mp new).symm

theorem getlines_saveHistory (h : History) :
    getlines [] (saveHistory h) = h.history.flatMap fun entry => entry.splitOn newline := by
  obtain ⟨max, history⟩ := h
  simp only [saveHistory]
  induction history with
  | nil => rfl
  | cons entry history ih =>
    rw [List.flatMap_cons, List.append_assoc, List.singleton_append, getlines_entry (by simp), ih]
    rfl

theorem getlines_lines (lines : ∀ entry ∈ h.history, newline ∉ entry) :
    getlines [] (saveHistory h) = h.history := by
  have single : ∀ entry ∈ h.history, entry.splitOn newline = [entry] := fun entry mem =>
    List.splitOn_eq_singleton (lines entry mem)
  rw [getlines_saveHistory, List.flatMap_congr single]
  simp

/-- A history of entries of one line each is loaded back from the file it is saved in, as far as
the bound in force then allows, which drops the oldest ones. -/
theorem loadHistory_saveHistory (sound : h.Sound) (positive : 0 < n)
    (lines : ∀ entry ∈ h.history, newline ∉ entry) :
    loadHistory ⟨n, []⟩ (saveHistory h) = ⟨n, h.history.rtake n⟩ := by
  have empty := History.empty_sound positive
  have same : h.history.map cStr = h.history := by
    conv_rhs => rw [← List.map_id h.history]
    exact List.map_congr_left fun entry mem => cStr_of_notMem (sound.strings entry mem)
  unfold loadHistory
  rw [getlines_lines lines, addHistory_run empty, same, List.nil_append, recent,
    List.destutter_of_isChain _ _ sound.distinct]

/-- A call to one of the functions; a file that does not open is `none`. -/
inductive Call
  | add (line : Bytes)
  | limit (len : Nat)
  | load (file : Option Bytes)

def Call.run (h : History) : Call → History
  | .add line => (addHistory h line).2
  | .limit len => (setHistoryMaxLen h len).2
  | .load none => h
  | .load (some file) => loadHistory h file

def History.after (h : History) (calls : List Call) : History := calls.foldl Call.run h

theorem History.Sound.foldl_addHistory (sound : h.Sound) (lines : List Bytes) :
    (lines.foldl (fun h line => (InputHistory.addHistory h line).2) h).Sound := by
  induction lines generalizing h with
  | nil => exact sound
  | cons line lines ih => exact ih (sound.addHistory line)

theorem History.Sound.run (sound : h.Sound) (call : Call) : (call.run h).Sound := by
  cases call with
  | add line => exact sound.addHistory line
  | limit len => exact sound.setHistoryMaxLen len
  | load file =>
    cases file with
    | none => exact sound
    | some file => exact sound.foldl_addHistory (getlines [] file)

theorem History.Sound.after (sound : h.Sound) (calls : List Call) : (h.after calls).Sound := by
  induction calls generalizing h with
  | nil => exact sound
  | cons call calls ih => exact ih (sound.run call)

theorem History.Sound.notMem_file (sound : h.Sound) : nul ∉ saveHistory h := by
  intro mem
  obtain ⟨entry, there, inside⟩ := List.mem_flatMap.mp mem
  rcases List.mem_append.mp inside with old | last
  · exact sound.strings entry there old
  · exact absurd (List.mem_singleton.mp last) (by decide)

/-- After any calls the history is within its bound, without repetitions and NUL bytes. Its file,
loaded on top of what any other calls have left, adds the lines of its entries; and the history
comes back from its file exactly when no entry has a newline in it. -/
theorem saved_loads (calls calls' : List Call) :
    (History.initial.after calls).Sound ∧
    loadHistory (History.initial.after calls') (saveHistory (History.initial.after calls)) =
      ⟨(History.initial.after calls').history_max_len,
        recent (History.initial.after calls').history_max_len
          ((History.initial.after calls').history ++
            (History.initial.after calls).history.flatMap fun entry => entry.splitOn newline)⟩ ∧
    (loadHistory ⟨(History.initial.after calls).history_max_len, []⟩
        (saveHistory (History.initial.after calls)) = History.initial.after calls ↔
      ∀ entry ∈ (History.initial.after calls).history, newline ∉ entry) := by
  have sound := History.initial_sound.after calls
  have sound' := History.initial_sound.after calls'
  generalize History.initial.after calls = h at sound ⊢
  generalize History.initial.after calls' = h' at sound' ⊢
  refine ⟨sound, ?_, ?_, fun lines => ?_⟩
  · have strings : ∀ line ∈ getlines [] (saveHistory h), cStr line = id line := by
      intro line mem
      refine cStr_of_notMem fun inside => sound.notMem_file ?_
      have there := getlines_subset [] (saveHistory h) line mem nul inside
      rwa [List.nil_append] at there
    rw [loadHistory, addHistory_run sound', List.map_congr_left strings, List.map_id,
      getlines_saveHistory]
  · intro same entry mem
    rw [← same, loadHistory, addHistory_run (History.empty_sound sound.positive),
      List.nil_append] at mem
    obtain ⟨line, there, rfl⟩ := List.mem_map.mp (mem_recent mem)
    intro broken
    exact getlines_one (by simp) _ line there (List.takeWhile_subset _ broken)
  · rw [loadHistory_saveHistory sound sound.positive lines]
    have fits : h.history.length - h.history_max_len = 0 := by
      have := sound.fits
      omega
    rw [List.rtake, fits]
    rfl

end InputHistory
