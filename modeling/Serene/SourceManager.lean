import Serene.SourceBuffers
import Serene.IncompleteInput

/-!
# The source manager

`SourceMgr` owns the buffers of the files it has read and indexes them by
namespace name. A load appends the buffer, then sets the index entry, and only
then reads: an error of the reader is located in the text it came from, and
that text is found through the index. What lies outside the repository, the
file system and the expansion of a namespace's tree, is a parameter.
-/

namespace SourceManager

open ByteClasses Locations AstNodes ReaderModel Scanner ReaderRefinement IncompleteInput
  SourceBuffers

universe u
variable {ε : Type u}

/-- `ast::Namespace`, as far as a load fills it in. -/
structure AstNamespace where
  location : LocationRange
  name : Bytes
  filename : Option Bytes
  tree : Ast := []

/-- What a load calls and the repository does not define. -/
structure Host (ε : Type u) where
  native : Bytes → Bytes
  separator : Bytes
  getFile : Bytes → Option MemoryBuffer
  expandTree : AstNamespace → Ast → Except ε AstNamespace

structure SourceMgr where
  buffers : List SrcBuffer := []
  nsTable : Bytes → Option UInt32 := fun _ => none
  loadPaths : List Bytes := []

/-- The `llvm::Error` of a load; an expansion may fail with errors of its own. -/
inductive Failure (ε : Type u) where
  | error (e : Error)
  | expansion (e : ε)

inductive Outcome (ε : Type u) where
  | loaded (ns : AstNamespace)
  | failed (failure : Failure ε)
  | crashed

namespace SourceMgr

def DEFAULT_SUFFIX : Bytes := text "srn"

def convertNamespaceToPath (host : Host ε) (ns_name : Bytes) : Bytes :=
  host.native (ns_name.map fun c => if c = dot then slash else c)

def isValidBufferID (sm : SourceMgr) (i : UInt32) : Bool :=
  i ≠ 0 && i.toNat ≤ sm.buffers.length

def setLoadPaths (sm : SourceMgr) (dirs : List Bytes) : SourceMgr := { sm with loadPaths := dirs }

/-- The loop over the load paths; `importedFile` is what the caller's string holds. -/
def findFileLoop (host : Host ε) (path : Bytes) : List Bytes → Bytes → Option MemoryBuffer × Bytes
  | [], importedFile => (none, importedFile)
  | loadPath :: loadPaths, _ =>
    let importedFile := loadPath ++ host.separator ++ path ++ text "." ++ DEFAULT_SUFFIX
    match host.getFile importedFile with
    | none => findFileLoop host path loadPaths importedFile
    | some newBuf => (some newBuf, importedFile)

def findFileInLoadPath (sm : SourceMgr) (host : Host ε) (name : Bytes) :
    Option MemoryBuffer × Bytes :=
  findFileLoop host (convertNamespaceToPath host name) sm.loadPaths []

/-- The id is the new size of the vector, as an `unsigned`. -/
def addNewSourceBuffer (sm : SourceMgr) (f : MemoryBuffer) (includeLoc : LocationRange) :
    UInt32 × SourceMgr :=
  let buffers := sm.buffers ++ [fresh f includeLoc]
  (.ofNat buffers.length, { sm with buffers := buffers })

/-- `nsTable.insert_or_assign(name, id)`. -/
def insertOrAssign (sm : SourceMgr) (name : Bytes) (id : UInt32) : SourceMgr :=
  { sm with nsTable := fun ns => if ns = name then some id else sm.nsTable ns }

def getMemoryBuffer (sm : SourceMgr) (i : UInt32) : Option MemoryBuffer :=
  if sm.isValidBufferID i then (sm.buffers[i.toNat - 1]?).map SrcBuffer.buffer else none

/-- `nullopt` where the code is unreachable: `StringMap::lookup` gives 0 for a missing name. -/
def getBufferInfo (sm : SourceMgr) (ns : Bytes) : Option SrcBuffer :=
  let bufferId := (sm.nsTable ns).getD 0
  if bufferId = 0 then none else sm.buffers[bufferId.toNat - 1]?

/-- The part of `readNamespace` after the index entry is set, which changes the manager no more. -/
def readIndexed (sm : SourceMgr) (host : Host ε) (name : Bytes) (importLoc : LocationRange)
    (importedFile : Bytes) (bufferId : UInt32) : Outcome ε :=
  if bufferId = 0 then
    .failed (.error ⟨.nsAddToSMError, importLoc,
      text "Couldn't add namespace '" ++ name ++ text "'"⟩)
  else
    match sm.getMemoryBuffer bufferId with
    | none => .crashed
    | some buf =>
      match outcome (read (.nulTerminated buf.data) name (some importedFile)) with
      | none => .crashed
      | some (.error e) => .failed (.error e)
      | some (.ok maybeAst) =>
        match host.expandTree ⟨importLoc, name, some importedFile, []⟩ maybeAst with
        | .error errs => .failed (.expansion errs)
        | .ok ns => .loaded ns

def readNamespace (sm : SourceMgr) (host : Host ε) (name : Bytes) (importLoc : LocationRange) :
    Outcome ε × SourceMgr :=
  match sm.findFileInLoadPath host name with
  | (none, _) =>
    (.failed (.error ⟨.nsLoadError, importLoc,
      text "Couldn't find namespace '" ++ name ++ text "'"⟩), sm)
  | (some newBuf, importedFile) =>
    let (bufferId, sm) := sm.addNewSourceBuffer newBuf importLoc
    let sm := sm.insertOrAssign name bufferId
    (sm.readIndexed host name importLoc importedFile bufferId, sm)

end SourceMgr

/-- The states that public calls lead to; files may change from call to call. -/
inductive Reachable : SourceMgr → Prop where
  | initial : Reachable {}
  | setLoadPaths {sm : SourceMgr} (before : Reachable sm) (dirs : List Bytes) :
      Reachable (sm.setLoadPaths dirs)
  | addNewSourceBuffer {sm : SourceMgr} (before : Reachable sm) (f : MemoryBuffer)
      (includeLoc : LocationRange) : Reachable (sm.addNewSourceBuffer f includeLoc).2
  | readNamespace {sm : SourceMgr} {ε : Type} (before : Reachable sm) (host : Host ε)
      (name : Bytes) (importLoc : LocationRange) :
      Reachable (sm.readNamespace host name importLoc).2

namespace SourceMgr
variable (sm : SourceMgr) (host : Host ε) (name : Bytes) (importLoc : LocationRange)

/-- The state once a file has been found, indexed as `name`. -/
def indexed (newBuf : MemoryBuffer) : SourceMgr :=
  (sm.addNewSourceBuffer newBuf importLoc).2.insertOrAssign name
    (sm.addNewSourceBuffer newBuf importLoc).1

@[simp] theorem indexed_buffers (newBuf : MemoryBuffer) :
    (sm.indexed name importLoc newBuf).buffers = sm.buffers ++ [fresh newBuf importLoc] := rfl

theorem indexed_own (newBuf : MemoryBuffer) :
    (sm.indexed name importLoc newBuf).nsTable name = some (.ofNat (sm.buffers.length + 1)) := by
  simp [indexed, insertOrAssign, addNewSourceBuffer]

theorem indexed_other (newBuf : MemoryBuffer) {other : Bytes} (different : other ≠ name) :
    (sm.indexed name importLoc newBuf).nsTable other = sm.nsTable other := by
  simp [indexed, insertOrAssign, addNewSourceBuffer, different]

theorem readNamespace_none {importedFile : Bytes}
    (missing : sm.findFileInLoadPath host name = (none, importedFile)) :
    sm.readNamespace host name importLoc = (.failed (.error ⟨.nsLoadError, importLoc,
      text "Couldn't find namespace '" ++ name ++ text "'"⟩), sm) := by
  simp only [readNamespace, missing]

/-- With a file the load ends in the indexed state, whatever comes of reading and expanding. -/
theorem readNamespace_some {newBuf : MemoryBuffer} {importedFile : Bytes}
    (found : sm.findFileInLoadPath host name = (some newBuf, importedFile)) :
    sm.readNamespace host name importLoc =
      ((sm.indexed name importLoc newBuf).readIndexed host name importLoc importedFile
        (sm.addNewSourceBuffer newBuf importLoc).1, sm.indexed name importLoc newBuf) := by
  simp only [readNamespace, found]
  rfl

/-- No error of the later steps is the one for a missing file. -/
theorem readIndexed_error {importedFile : Bytes} {bufferId : UInt32} {e : Error}
    (failed : sm.readIndexed host name importLoc importedFile bufferId = .failed (.error e)) :
    e.type ≠ .nsLoadError := by
  simp only [readIndexed] at failed
  split at failed
  · cases failed
    simp
  · split at failed
    · cases failed
    · split at failed
      · cases failed
      · next found =>
        cases failed
        rcases run_fails (failsWith_run.mp found) with ⟨-, wrong⟩ | ⟨-, -, -, early⟩
        · rcases wrong with type | type | type <;> (rw [type]; decide)
        · rw [early]
          decide
      · split at failed <;> cases failed

end SourceMgr

/-- Index entries point into the buffers. -/
def Indexed (sm : SourceMgr) : Prop :=
  ∀ name id, sm.nsTable name = some id → id.toNat ≤ sm.buffers.length

theorem indexed_step {sm : SourceMgr} (valid : Indexed sm) (name : Bytes)
    (importLoc : LocationRange) (newBuf : MemoryBuffer) :
    Indexed (sm.indexed name importLoc newBuf) := by
  intro other id entry
  rw [SourceMgr.indexed_buffers, List.length_append, List.length_singleton]
  by_cases same : other = name
  · subst same
    rw [SourceMgr.indexed_own] at entry
    rw [← Option.some.inj entry, UInt32.toNat_ofNat']
    exact Nat.mod_le _ _
  · rw [SourceMgr.indexed_other _ _ _ _ same] at entry
    exact Nat.le_succ_of_le (valid other id entry)

theorem reachable_indexed {sm : SourceMgr} (reachable : Reachable sm) : Indexed sm := by
  induction reachable with
  | initial =>
    intro name id entry
    cases entry
  | setLoadPaths _ dirs ih => exact ih
  | addNewSourceBuffer _ f includeLoc ih =>
    intro name id entry
    refine (ih name id entry).trans ?_
    simp [SourceMgr.addNewSourceBuffer]
  | @readNamespace sm ε _ host name importLoc ih =>
    rcases found : sm.findFileInLoadPath host name with ⟨_ | newBuf, importedFile⟩
    · rw [sm.readNamespace_none host name importLoc found]
      exact ih
    · rw [sm.readNamespace_some host name importLoc found]
      exact indexed_step ih name importLoc newBuf

theorem getBufferInfo_other {sm : SourceMgr} (valid : Indexed sm) {name other : Bytes}
    (importLoc : LocationRange) (newBuf : MemoryBuffer) (different : other ≠ name) :
    (sm.indexed name importLoc newBuf).getBufferInfo other = sm.getBufferInfo other := by
  rw [SourceMgr.getBufferInfo, SourceMgr.getBufferInfo, SourceMgr.indexed_other _ _ _ _ different]
  cases entry : sm.nsTable other with
  | none => rfl
  | some id =>
    have inside := valid other id entry
    by_cases zero : id = 0
    · subst zero
      rfl
    · have positive : id.toNat ≠ 0 := fun same => zero (UInt32.toNat_inj.mp same)
      simp only [Option.getD_some, zero, if_false, SourceMgr.indexed_buffers]
      rw [List.getElem?_append_left (by omega)]

/-- A load that fails changes the index entry of its own name at most. Where no file was
found it changes nothing; where the reader or the expansion failed, the name leads to the
buffer just added, which holds the text that failed. -/
theorem failed_load {sm sm' : SourceMgr} (reachable : Reachable sm) (host : Host ε) (name : Bytes)
    (importLoc : LocationRange) {failure : Failure ε}
    (failed : sm.readNamespace host name importLoc = (.failed failure, sm')) :
    (∀ other, other ≠ name → sm'.nsTable other = sm.nsTable other ∧
      sm'.getBufferInfo other = sm.getBufferInfo other) ∧
    (∀ e, failure = .error e → e.type = .nsLoadError → sm' = sm) ∧
    ((∀ e, failure = .error e → e.type ≠ .nsLoadError ∧ e.type ≠ .nsAddToSMError) →
      ∃ newBuf importedFile, sm.findFileInLoadPath host name = (some newBuf, importedFile) ∧
        sm'.buffers = sm.buffers ++ [fresh newBuf importLoc] ∧
        sm'.nsTable name = some (sm.addNewSourceBuffer newBuf importLoc).1 ∧
        (sm.buffers.length + 1 < 2 ^ 32 →
          sm'.getBufferInfo name = some (fresh newBuf importLoc))) := by
  have valid := reachable_indexed reachable
  rcases found : sm.findFileInLoadPath host name with ⟨_ | newBuf, importedFile⟩
  · rw [sm.readNamespace_none host name importLoc found] at failed
    cases failed
    refine ⟨?_, ?_, ?_⟩
    · intro other _
      exact ⟨rfl, rfl⟩
    · intro _ _ _
      rfl
    · intro later
      exact absurd rfl (later _ rfl).1
  · rw [sm.readNamespace_some host name importLoc found] at failed
    obtain ⟨result, rfl⟩ := Prod.mk.inj failed
    refine ⟨?_, ?_, ?_⟩
    · intro other different
      exact ⟨SourceMgr.indexed_other _ _ _ _ different,
        getBufferInfo_other valid importLoc newBuf different⟩
    · rintro e rfl type
      exact absurd type (SourceMgr.readIndexed_error _ _ _ _ result)
    · intro _
      refine ⟨newBuf, importedFile, rfl, rfl, ?_, fun fits => ?_⟩
      · exact if_pos rfl
      · have number : (UInt32.ofNat (sm.buffers.length + 1)).toNat = sm.buffers.length + 1 :=
          UInt32.toNat_ofNat_of_lt' fits
        have nonzero : UInt32.ofNat (sm.buffers.length + 1) ≠ 0 := by
          intro zero
          rw [zero] at number
          cases number
        simp only [SourceMgr.getBufferInfo, SourceMgr.indexed_own, Option.getD_some, nonzero,
          if_false, number, Nat.add_sub_cancel, SourceMgr.indexed_buffers]
        exact List.getElem?_concat_length

/-- A host with one file of the given text under every path. -/
def oneFile (data : MemoryBuffer) : Host Empty where
  native := id
  separator := [slash]
  getFile := fun _ => some data
  expandTree := fun ns ast => .ok { ns with tree := ast }

/-- The namespace `a`, loaded from the text `x` and then again from the text `)`. -/
def firstLoad : Outcome Empty × SourceMgr :=
  ((SourceMgr.setLoadPaths {} [[dot]]).readNamespace (oneFile ⟨[120], by decide⟩) [97] {})

def secondLoad : Outcome Empty × SourceMgr :=
  firstLoad.2.readNamespace (oneFile ⟨[41], by decide⟩) [97] {}

theorem firstLoad_reachable : Reachable firstLoad.2 :=
  .readNamespace (.setLoadPaths .initial [[dot]]) _ _ _

theorem failed_load_again :
    (∃ failure, secondLoad.1 = .failed failure) ∧
      secondLoad.2.getBufferInfo [98] = firstLoad.2.getBufferInfo [98] := by
  have failed : secondLoad = (.failed _, secondLoad.2) := rfl
  exact ⟨⟨_, rfl⟩, ((failed_load firstLoad_reachable _ _ _ failed).1 [98] (by decide)).2⟩

/-- The failed second load takes the name away from the text it was built from. -/
theorem failed_reload_moves_entry :
    Reachable firstLoad.2 ∧ (∃ ns, firstLoad.1 = .loaded ns) ∧
      (∃ failure, secondLoad.1 = .failed failure) ∧
      firstLoad.2.nsTable [97] = some 1 ∧ secondLoad.2.nsTable [97] = some 2 := by
  exact ⟨firstLoad_reachable, ⟨_, rfl⟩, ⟨_, rfl⟩, rfl, rfl⟩

end SourceManager
