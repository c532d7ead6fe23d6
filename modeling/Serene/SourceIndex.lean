import Serene.SourceManager

/-!
# The index over a history of calls

Buffers are only appended, so an id designates its buffer for good, and the entry
of a name is the id of the file found by the last load that found one. This
holds as long as the ids do not run out. What a load finds is said of the load
paths themselves: the first one under which the file opens.
-/

namespace SourceIndex

open ByteClasses Locations AstNodes SourceBuffers SourceManager

/-- A public call that may change the manager; every load has its own files. -/
inductive Call : Type 1 where
  | setLoadPaths (dirs : List Bytes)
  | addNewSourceBuffer (f : MemoryBuffer) (includeLoc : LocationRange)
  | readNamespace {ε : Type} (host : Host ε) (name : Bytes) (importLoc : LocationRange)

def step (sm : SourceMgr) : Call → SourceMgr
  | .setLoadPaths dirs => sm.setLoadPaths dirs
  | .addNewSourceBuffer f includeLoc => (sm.addNewSourceBuffer f includeLoc).2
  | .readNamespace host name importLoc => (sm.readNamespace host name importLoc).2

/-- The manager after these calls. -/
def run (calls : List Call) : SourceMgr := calls.foldl step {}

/-- The id that the call gets for the buffer it adds. -/
def returned (sm : SourceMgr) : Call → Option (UInt32 × MemoryBuffer)
  | .setLoadPaths _ => none
  | .addNewSourceBuffer f includeLoc => some ((sm.addNewSourceBuffer f includeLoc).1, f)
  | .readNamespace host name importLoc =>
    (sm.findFileInLoadPath host name).1.map fun f => ((sm.addNewSourceBuffer f importLoc).1, f)

structure FoundFile where
  content : MemoryBuffer
  importedFile : Bytes

section Search
variable {ε : Type} (host : Host ε)

/-- The path of a namespace's file under a load path. -/
def candidate (name loadPath : Bytes) : Bytes :=
  loadPath ++ host.separator ++ SourceMgr.convertNamespaceToPath host name ++ text "." ++
    SourceMgr.DEFAULT_SUFFIX

/-- The file under the first load path where the candidate opens. -/
def FirstOpening (name : Bytes) (loadPaths : List Bytes) (found : FoundFile) : Prop :=
  ∃ before loadPath after, loadPaths = before ++ loadPath :: after ∧
    (∀ p ∈ before, host.getFile (candidate host name p) = none) ∧
    found.importedFile = candidate host name loadPath ∧
    host.getFile found.importedFile = some found.content

variable {host}

theorem findFileLoop_iff {name : Bytes} {loadPaths : List Bytes} {content : MemoryBuffer}
    {file importedFile : Bytes} :
    SourceMgr.findFileLoop host (SourceMgr.convertNamespaceToPath host name) loadPaths file =
        (some content, importedFile) ↔
      FirstOpening host name loadPaths ⟨content, importedFile⟩ := by
  induction loadPaths generalizing file with
  | nil =>
    constructor
    · intro found
      cases found
    · rintro ⟨before, p, after, split, -⟩
      cases before <;> cases split
  | cons loadPath loadPaths ih =>
    rw [SourceMgr.findFileLoop, ← candidate]
    cases opened : host.getFile (candidate host name loadPath) with
    | none =>
      rw [ih]
      constructor
      · rintro ⟨before, p, after, rfl, closed, rest⟩
        exact ⟨loadPath :: before, p, after, rfl, List.forall_mem_cons.mpr ⟨opened, closed⟩, rest⟩
      · rintro ⟨before, p, after, split, closed, named, content⟩
        cases before with
        | nil =>
          cases split
          rw [named, opened] at content
          cases content
        | cons q before =>
          cases split
          exact ⟨before, p, after, rfl, (List.forall_mem_cons.mp closed).2, named, content⟩
    | some newBuf =>
      constructor
      · intro found
        cases found
        exact ⟨[], loadPath, loadPaths, rfl, by simp, rfl, opened⟩
      · rintro ⟨before, p, after, split, closed, named, content⟩
        cases before with
        | nil =>
          cases split
          rw [named, opened] at content
          cases content
          exact congrArg (Prod.mk (some content)) named.symm
        | cons q before =>
          cases split
          rw [(List.forall_mem_cons.mp closed).1] at opened
          cases opened

end Search

/-- The call loads this name and finds this file. -/
def Finds (sm : SourceMgr) (name : Bytes) (found : FoundFile) : Call → Prop
  | .setLoadPaths _ => False
  | .addNewSourceBuffer _ _ => False
  | .readNamespace host loaded _ => loaded = name ∧ FirstOpening host loaded sm.loadPaths found

/-- The file found by the most recent load of the name that found one. -/
inductive LastFound (name : Bytes) (found : FoundFile) : List Call → Prop where
  | now {calls : List Call} {call : Call} (finds : Finds (run calls) name found call) :
      LastFound name found (calls ++ [call])
  | before {calls : List Call} {call : Call} (earlier : LastFound name found calls)
      (none : ∀ other, ¬ Finds (run calls) name other call) :
      LastFound name found (calls ++ [call])

/-- The state keeps its buffers and its entries, adds a buffer, or adds the buffer of a file
found by a load and enters it. -/
inductive Does (sm : SourceMgr) (call : Call) : Prop where
  | nothing (buffers : (step sm call).buffers = sm.buffers)
      (nsTable : (step sm call).nsTable = sm.nsTable) (none : returned sm call = none)
      (finds : ∀ name found, ¬ Finds sm name found call)
  | adds (f : MemoryBuffer) (importLoc : LocationRange)
      (buffers : (step sm call).buffers = sm.buffers ++ [fresh f importLoc])
      (nsTable : (step sm call).nsTable = sm.nsTable)
      (id : returned sm call = some (.ofNat (sm.buffers.length + 1), f))
      (finds : ∀ name found, ¬ Finds sm name found call)
  | loads (name : Bytes) (found : FoundFile) (importLoc : LocationRange)
      (after : step sm call = sm.indexed name importLoc found.content)
      (id : returned sm call = some (.ofNat (sm.buffers.length + 1), found.content))
      (finds : Finds sm name found call) (only : ∀ other f, Finds sm other f call → other = name)

theorem added_id (sm : SourceMgr) (f : MemoryBuffer) (importLoc : LocationRange) :
    (sm.addNewSourceBuffer f importLoc).1 = .ofNat (sm.buffers.length + 1) := by
  simp [SourceMgr.addNewSourceBuffer]

theorem step_does (sm : SourceMgr) (call : Call) : Does sm call := by
  cases call with
  | setLoadPaths dirs => exact .nothing rfl rfl rfl fun name found finds => finds
  | addNewSourceBuffer f includeLoc =>
    refine .adds f includeLoc rfl rfl ?_ fun name found finds => finds
    rw [returned, added_id]
  | readNamespace host name importLoc =>
    rcases search : sm.findFileInLoadPath host name with ⟨_ | newBuf, importedFile⟩
    · have unchanged : step sm (.readNamespace host name importLoc) = sm := by
        rw [step, sm.readNamespace_none host name importLoc search]
      refine .nothing (by rw [unchanged]) (by rw [unchanged]) ?_ ?_
      · rw [returned, search]
        rfl
      · rintro other found ⟨-, opens⟩
        have opened : sm.findFileInLoadPath host name = (some found.content, found.importedFile) :=
          findFileLoop_iff.mpr opens
        rw [search] at opened
        cases opened
    · have after : step sm (.readNamespace host name importLoc) =
          sm.indexed name importLoc newBuf := by
        rw [step, sm.readNamespace_some host name importLoc search]
      refine .loads name ⟨newBuf, importedFile⟩ importLoc after ?_ ⟨rfl, ?_⟩ ?_
      · rw [returned, search, Option.map_some, added_id]
      · exact findFileLoop_iff.mp search
      · rintro other f ⟨same, -⟩
        exact same.symm

/-- The id is valid, and its buffer holds this file. -/
structure Designates (sm : SourceMgr) (id : UInt32) (f : MemoryBuffer) : Prop where
  valid : sm.isValidBufferID id = true
  holds : sm.getMemoryBuffer id = some f

section Designation
variable {sm sm' : SourceMgr} {id : UInt32} {f : MemoryBuffer}

theorem designates_iff : Designates sm id f ↔
    ∃ k b, id.toNat = k + 1 ∧ sm.buffers[k]? = some b ∧ b.buffer = f := by
  constructor
  · rintro ⟨valid, holds⟩
    rw [SourceMgr.getMemoryBuffer, if_pos valid, Option.map_eq_some_iff] at holds
    obtain ⟨b, here, rfl⟩ := holds
    rw [SourceMgr.isValidBufferID, Bool.and_eq_true, decide_eq_true_eq] at valid
    have positive : id.toNat ≠ 0 := fun zero => valid.1 (UInt32.toNat_inj.mp zero)
    exact ⟨id.toNat - 1, b, by omega, here, rfl⟩
  · rintro ⟨k, b, number, here, rfl⟩
    obtain ⟨inside, -⟩ := List.getElem?_eq_some_iff.mp here
    have valid : sm.isValidBufferID id = true := by
      rw [SourceMgr.isValidBufferID, Bool.and_eq_true, decide_eq_true_eq, decide_eq_true_eq]
      refine ⟨?_, by omega⟩
      rintro rfl
      cases number
    refine ⟨valid, ?_⟩
    rw [SourceMgr.getMemoryBuffer, if_pos valid, number, Nat.add_sub_cancel, here]
    rfl

/-- Appending buffers takes no designation away. -/
theorem Designates.mono (designates : Designates sm id f) (grows : sm.buffers <+: sm'.buffers) :
    Designates sm' id f := by
  obtain ⟨k, b, number, here, holds⟩ := designates_iff.mp designates
  refine designates_iff.mpr ⟨k, b, number, ?_, holds⟩
  obtain ⟨more, same⟩ := grows
  obtain ⟨inside, -⟩ := List.getElem?_eq_some_iff.mp here
  rw [← same, List.getElem?_append_left inside, here]

theorem added_designates {importLoc : LocationRange} (fits : sm.buffers.length + 1 < 2 ^ 32)
    (buffers : sm'.buffers = sm.buffers ++ [fresh f importLoc]) :
    Designates sm' (.ofNat (sm.buffers.length + 1)) f := by
  refine designates_iff.mpr ⟨sm.buffers.length, fresh f importLoc, ?_, ?_, rfl⟩
  · exact UInt32.toNat_ofNat_of_lt' fits
  · rw [buffers]
    exact List.getElem?_concat_length

end Designation

theorem run_concat (calls : List Call) (call : Call) :
    run (calls ++ [call]) = step (run calls) call := List.foldl_concat step {} call calls

theorem step_grows (sm : SourceMgr) (call : Call) : sm.buffers <+: (step sm call).buffers := by
  cases step_does sm call with
  | nothing buffers => rw [buffers]
  | adds f importLoc buffers =>
    rw [buffers]
    exact List.prefix_append _ _
  | loads name found importLoc after =>
    rw [after]
    exact List.prefix_append _ _

theorem run_grows (calls more : List Call) :
    (run calls).buffers <+: (run (calls ++ more)).buffers := by
  induction more using List.reverseRecOn with
  | nil => rw [List.append_nil]
  | append_singleton more call ih =>
    rw [← List.append_assoc, run_concat]
    exact ih.trans (step_grows _ call)

/-- A call hands out the id of the buffer it adds. -/
theorem returned_designates {sm : SourceMgr} {call : Call} {id : UInt32} {f : MemoryBuffer}
    (fits : (step sm call).buffers.length < 2 ^ 32) (gets : returned sm call = some (id, f)) :
    Designates (step sm call) id f := by
  cases step_does sm call with
  | nothing _ _ none =>
    rw [none] at gets
    cases gets
  | adds g importLoc buffers _ gives =>
    rw [gives] at gets
    obtain ⟨rfl, rfl⟩ := Prod.mk.inj (Option.some.inj gets)
    rw [buffers, List.length_append] at fits
    exact added_designates fits buffers
  | loads name found importLoc after gives =>
    rw [gives] at gets
    obtain ⟨rfl, rfl⟩ := Prod.mk.inj (Option.some.inj gets)
    rw [after, SourceMgr.indexed_buffers, List.length_append] at fits
    rw [after]
    exact added_designates fits rfl

theorem lastFound_concat {name : Bytes} {found : FoundFile} {calls : List Call} {call : Call} :
    LastFound name found (calls ++ [call]) ↔ Finds (run calls) name found call ∨
      (LastFound name found calls ∧ ∀ other, ¬ Finds (run calls) name other call) := by
  constructor
  · intro last
    generalize whole : calls ++ [call] = history at last
    cases last with
    | now finds =>
      obtain ⟨rfl, same⟩ := List.append_inj' whole rfl
      cases same
      exact Or.inl finds
    | before earlier none =>
      obtain ⟨rfl, same⟩ := List.append_inj' whole rfl
      cases same
      exact Or.inr ⟨earlier, none⟩
  · rintro (finds | ⟨earlier, none⟩)
    · exact .now finds
    · exact .before earlier none

/-- Once a load found a file, there is a last one that did. -/
theorem lastFound_after {name : Bytes} {found : FoundFile} {calls : List Call}
    (last : LastFound name found calls) (more : List Call) :
    ∃ latest, LastFound name latest (calls ++ more) := by
  induction more using List.reverseRecOn with
  | nil => exact ⟨found, by rwa [List.append_nil]⟩
  | append_singleton more call ih =>
    obtain ⟨latest, before⟩ := ih
    rw [← List.append_assoc]
    by_cases again : ∃ other, Finds (run (calls ++ more)) name other call
    · obtain ⟨other, finds⟩ := again
      exact ⟨other, .now finds⟩
    · exact ⟨latest, .before before fun other finds => again ⟨other, finds⟩⟩

/-- The entries are the names loaded, each with the buffer of the file last found. -/
structure Consistent (calls : List Call) : Prop where
  entries : ∀ name id, (run calls).nsTable name = some id →
    ∃ found, LastFound name found calls ∧ Designates (run calls) id found.content
  loaded : ∀ name found, LastFound name found calls → ∃ id, (run calls).nsTable name = some id
  distinct : ∀ name name' id, (run calls).nsTable name = some id →
    (run calls).nsTable name' = some id → name = name'

theorem consistent_quiet {calls : List Call} {call : Call} (before : Consistent calls)
    (nsTable : (step (run calls) call).nsTable = (run calls).nsTable)
    (finds : ∀ name found, ¬ Finds (run calls) name found call) :
    Consistent (calls ++ [call]) := by
  have grows := step_grows (run calls) call
  rw [← run_concat] at grows nsTable
  constructor
  · intro name id entry
    rw [nsTable] at entry
    obtain ⟨found, last, designates⟩ := before.entries name id entry
    exact ⟨found, .before last (finds name), designates.mono grows⟩
  · intro name found last
    rw [nsTable]
    rcases lastFound_concat.mp last with now | ⟨earlier, -⟩
    · exact absurd now (finds name found)
    · exact before.loaded name found earlier
  · rw [nsTable]
    exact before.distinct

theorem consistent_load {calls : List Call} {call : Call} {name : Bytes} {found : FoundFile}
    {importLoc : LocationRange} (before : Consistent calls)
    (fits : (run calls).buffers.length + 1 < 2 ^ 32)
    (after : step (run calls) call = (run calls).indexed name importLoc found.content)
    (finds : Finds (run calls) name found call)
    (only : ∀ other f, Finds (run calls) other f call → other = name) :
    Consistent (calls ++ [call]) := by
  have grows := step_grows (run calls) call
  rw [after] at grows
  have own := (run calls).indexed_own name importLoc found.content
  have kept (other : Bytes) (different : other ≠ name) :=
    (run calls).indexed_other name importLoc found.content different
  have fresh (other : Bytes) (different : other ≠ name) :
      (run calls).nsTable other ≠ some (.ofNat ((run calls).buffers.length + 1)) := by
    intro entry
    obtain ⟨f, -, designates⟩ := before.entries other _ entry
    obtain ⟨k, b, number, here, -⟩ := designates_iff.mp designates
    obtain ⟨inside, -⟩ := List.getElem?_eq_some_iff.mp here
    rw [UInt32.toNat_ofNat_of_lt' fits] at number
    omega
  constructor
  all_goals rw [run_concat, after]
  · intro other id entry
    by_cases same : other = name
    · subst same
      rw [own] at entry
      obtain rfl := Option.some.inj entry
      exact ⟨found, .now finds, added_designates fits rfl⟩
    · rw [kept other same] at entry
      obtain ⟨f, last, designates⟩ := before.entries other id entry
      exact ⟨f, .before last fun f finds => same (only other f finds), designates.mono grows⟩
  · intro other f last
    by_cases same : other = name
    · subst same
      exact ⟨_, own⟩
    · rw [kept other same]
      rcases lastFound_concat.mp last with now | ⟨earlier, -⟩
      · exact absurd (only other f now) same
      · exact before.loaded other f earlier
  · intro first second id entry entry'
    by_cases same : first = name <;> by_cases same' : second = name
    · exact same.trans same'.symm
    · subst same
      rw [own] at entry
      rw [kept second same', ← entry] at entry'
      exact absurd entry' (fresh second same')
    · subst same'
      rw [own] at entry'
      rw [kept first same, ← entry'] at entry
      exact absurd entry (fresh first same)
    · rw [kept first same] at entry
      rw [kept second same'] at entry'
      exact before.distinct first second id entry entry'

theorem run_consistent {calls : List Call} (fits : (run calls).buffers.length < 2 ^ 32) :
    Consistent calls := by
  induction calls using List.reverseRecOn with
  | nil =>
    constructor
    · intro name id entry
      cases entry
    · intro name found last
      generalize whole : [] = history at last
      cases last <;> simp at whole
    · intro name name' id entry
      cases entry
  | append_singleton calls call ih =>
    have grows := (run_grows calls [call]).length_le
    have before := ih (by omega)
    cases step_does (run calls) call with
    | nothing _ nsTable _ finds => exact consistent_quiet before nsTable finds
    | adds _ _ _ nsTable _ finds => exact consistent_quiet before nsTable finds
    | loads name found importLoc after _ finds only =>
      rw [run_concat, after, SourceMgr.indexed_buffers, List.length_append] at fits
      exact consistent_load before fits after finds only

theorem getBufferInfo_entry {sm : SourceMgr} {name : Bytes} {id : UInt32} {f : MemoryBuffer}
    (entry : sm.nsTable name = some id) (designates : Designates sm id f) :
    ∃ b, sm.getBufferInfo name = some b ∧ b.buffer = f := by
  obtain ⟨k, b, number, here, holds⟩ := designates_iff.mp designates
  have nonzero : id ≠ 0 := by
    rintro rfl
    cases number
  refine ⟨b, ?_, holds⟩
  simp only [SourceMgr.getBufferInfo, entry, Option.getD_some, nonzero, if_false, number,
    Nat.add_sub_cancel, here]

/-- The index after any history of calls, as long as the ids do not run out. The entry of a name
is a valid id, of no other name, and its buffer holds the file that the most recent load of
the name to find one found. Every id handed out designates the buffer it was handed out for,
and the buffer of a name that some load found is found again. -/
theorem index_consistent (calls : List Call) (fits : (run calls).buffers.length < 2 ^ 32) :
    (∀ name id, (run calls).nsTable name = some id →
      (run calls).isValidBufferID id = true ∧
      ∃ found, LastFound name found calls ∧
        (run calls).getMemoryBuffer id = some found.content) ∧
    (∀ name name' id, (run calls).nsTable name = some id →
      (run calls).nsTable name' = some id → name = name') ∧
    (∀ before call after, calls = before ++ call :: after →
      (∀ id f, returned (run before) call = some (id, f) →
        (run calls).isValidBufferID id = true ∧ (run calls).getMemoryBuffer id = some f) ∧
      ∀ name found, Finds (run before) name found call →
        ∃ latest b, LastFound name latest calls ∧ (run calls).getBufferInfo name = some b ∧
          b.buffer = latest.content) ∧
    ∀ {ε : Type} (sm : SourceMgr) (host : Host ε) (name : Bytes) (content : MemoryBuffer)
      (importedFile : Bytes), sm.findFileInLoadPath host name = (some content, importedFile) ↔
        FirstOpening host name sm.loadPaths ⟨content, importedFile⟩ := by
  have consistent := run_consistent fits
  refine ⟨?_, consistent.distinct, ?_, fun _ _ _ _ _ => findFileLoop_iff⟩
  · intro name id entry
    obtain ⟨found, last, designates⟩ := consistent.entries name id entry
    exact ⟨designates.valid, found, last, designates.holds⟩
  · rintro before call after rfl
    have split : before ++ call :: after = (before ++ [call]) ++ after := by simp
    have grows := run_grows (before ++ [call]) after
    rw [← split] at grows
    constructor
    · intro id f gets
      have length := grows.length_le
      have designates := returned_designates (by rw [← run_concat]; omega) gets
      rw [← run_concat] at designates
      exact ⟨(designates.mono grows).valid, (designates.mono grows).holds⟩
    · intro name found finds
      obtain ⟨latest, last⟩ := lastFound_after (.now finds) after
      rw [← split] at last
      obtain ⟨id, entry⟩ := consistent.loaded name latest last
      obtain ⟨same, last', designates⟩ := consistent.entries name id entry
      obtain ⟨b, info, holds⟩ := getBufferInfo_entry entry designates
      exact ⟨same, b, last', info, holds⟩

/-- The namespace `a`, from the text `y` under the first load path and from `(` in a later load. -/
def twoLoads : List Call :=
  [.setLoadPaths [[dot]], .readNamespace (oneFile ⟨[121], by decide⟩) [97] {},
    .readNamespace (oneFile ⟨[40], by decide⟩) [97] {}]

theorem twoLoads_consistent :
    ∃ latest b, LastFound [97] latest twoLoads ∧
      (run twoLoads).getBufferInfo [97] = some b ∧ b.buffer = latest.content := by
  have index := (index_consistent twoLoads (by decide)).2.2.1
  have loads := index [.setLoadPaths [[dot]]] _ _ rfl
  exact loads.2 [97] ⟨_, _⟩ ⟨rfl, [], [dot], [], rfl, by simp, rfl, rfl⟩

end SourceIndex
