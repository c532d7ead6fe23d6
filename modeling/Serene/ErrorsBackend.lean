import Serene.ByteClasses

/-!
# The errors backend

`errors-backend.cpp` prints an enum and a table of the records that the TableGen
variable `errorsIndex` lists. Both loops go over the whole list and skip what
does not derive from `Error`. The lines of a help text come from
`llvm::line_iterator` and the head of the file from `llvm::emitSourceFileHeader`;
both are parameters.
-/

namespace ErrorsBackend

open ByteClasses

/-- What is written to `os`, and the messages of `PrintError`. -/
structure Output where
  os : Bytes
  printed : List Bytes

instance : Append Output := ⟨fun o p => ⟨o.os ++ p.os, o.printed ++ p.printed⟩⟩

@[simp] theorem os_append (o p : Output) : (o ++ p).os = o.os ++ p.os := rfl

@[simp] theorem printed_append (o p : Output) : (o ++ p).printed = o.printed ++ p.printed := rfl

def write (bytes : Bytes) : Output := ⟨bytes, []⟩

def printError (message : Bytes) : Output := ⟨[], [message]⟩

@[simp] theorem os_write (bytes : Bytes) : (write bytes).os = bytes := rfl

@[simp] theorem printed_write (bytes : Bytes) : (write bytes).printed = [] := rfl

@[simp] theorem os_printError (message : Bytes) : (printError message).os = [] := rfl

@[simp] theorem printed_printError (message : Bytes) : (printError message).printed = [message] :=
  rfl

/-- How `os` shows an integer. -/
def decimal (n : Nat) : Bytes := (Nat.toDigits 10 n).map Char.toUInt8

/-- The fields `desc` and `help` are read of the records that derive from `Error` only. -/
structure Record where
  name : Bytes
  superClasses : List Bytes
  desc : Bytes
  help : Bytes

def Record.isSubClassOf (defRec : Record) (name : Bytes) : Bool := defRec.superClasses.contains name

def Record.isError (defRec : Record) : Bool := defRec.isSubClassOf (text "Error")

/-- What `getGlobal("errorsIndex")` finds. -/
inductive Index where
  | missing
  | notList
  | list (indexList : List Record)

def inNamespace (name : Bytes) (f : Output) : Output :=
  write (text "namespace " ++ name ++ text " \x7b\n\n") ++ f ++
    write (text "\x7d; // namespace " ++ name ++ text "\n")

def createErrorClass (_id : Nat) (defRec : Record) : Output :=
  write (text "  " ++ defRec.name ++ text ",\n")

@[simp] theorem printed_createErrorClass (id : Nat) (defRec : Record) :
    (createErrorClass id defRec).printed = [] := rfl

/-- The loop of the enum and the loop of the table, from the index `i` on. -/
def errorLoop (body : Nat → Record → Output) : Nat → List Record → Output
  | _, [] => write []
  | i, defRec :: rest =>
    if !defRec.isSubClassOf (text "Error") then errorLoop body (i + 1) rest
    else body i defRec ++ errorLoop body (i + 1) rest

/-- The loop over the lines of a help text, from the given line number on. -/
def helpLoop : Nat → List Bytes → Bytes
  | _, [] => []
  | lineNumber, prevLine :: lines =>
    (if lineNumber != 1 then text "\t" else []) ++ text "\"" ++ prevLine ++ text "\"" ++
      (if lines.isEmpty then text ";\n" else text "\n") ++ helpLoop (lineNumber + 1) lines

section Body
variable (lines : Bytes → List Bytes)

/-- The body of the table's loop. -/
def entry (i : Nat) (defRec : Record) : Output :=
  let recName := defRec.name
  let desc := defRec.desc
  let help := defRec.help
  write (text "  ErrorVariant::make(" ++ decimal i ++ text ", \n") ++
    write (text "  \"" ++ recName ++ text "\",\n") ++
    (if desc.isEmpty then printError (text "'desc' field is empty for " ++ recName)
      else write []) ++
    write (text "  \"" ++ desc ++ text "\",\n") ++
    (if !help.isEmpty then write (helpLoop 1 (lines help)) else write (text "  \"\"")) ++
    write (text "),\n")

def createNSBody : Index → Output
  | .missing => printError (text "'errorsIndex' var is missing!")
  | .notList => printError (text "'errorsIndex' has to be a list!")
  | .list indexList =>
    write (text "#ifdef GET_CLASS_DEFS\n") ++
    inNamespace (text "serene::errors")
      (write (text "enum ErrorType \x7b\n") ++
        errorLoop createErrorClass 0 indexList ++
        write (text "\x7d;\n\n") ++
        write (text "#define NUMBER_OF_ERRORS " ++ decimal indexList.length ++ text "\n") ++
        write (text "static const ErrorVariant errorVariants[" ++ decimal indexList.length ++
          text "] = \x7b\n") ++
        errorLoop (entry lines) 0 indexList ++
        write (text "\x7d;\n")) ++
    write (text "#undef GET_CLASS_DEFS\n#endif\n\n")

def includes : Bytes :=
  text "#include \"serene/errors/variant.h\"\n\n#include <llvm/Support/Error.h>\n\n"

/-- `ErrorsBackend::run`, which `emitErrors` calls. -/
def run (emitSourceFileHeader : Bytes → Bytes) (index : Index) : Output :=
  write (emitSourceFileHeader (text "Serene's Errors collection")) ++ write includes ++
    createNSBody lines index

/-- The records that derive from `Error`, each with its index in the list. -/
def selected (i : Nat) (records : List Record) : List (Record × Nat) :=
  (records.zipIdx i).filter fun p => p.1.isError

theorem selected_cons (i : Nat) (defRec : Record) (rest : List Record) :
    selected i (defRec :: rest) =
      if defRec.isError then (defRec, i) :: selected (i + 1) rest else selected (i + 1) rest := by
  simp only [selected, List.zipIdx_cons, List.filter_cons]

theorem errorLoop_cons (body : Nat → Record → Output) (i : Nat) (defRec : Record)
    (rest : List Record) : errorLoop body i (defRec :: rest) =
      if defRec.isError then body i defRec ++ errorLoop body (i + 1) rest
      else errorLoop body (i + 1) rest := by
  cases derives : defRec.isSubClassOf (text "Error") <;>
    simp [errorLoop, Record.isError, derives]

/-- A loop writes and prints what its body does for the records that are not skipped. -/
theorem errorLoop_collects {α : Type} (f : Output → List α) (nothing : f (write []) = [])
    (append : ∀ o p, f (o ++ p) = f o ++ f p) (body : Nat → Record → Output) (i : Nat)
    (records : List Record) :
    f (errorLoop body i records) = (selected i records).flatMap fun p => f (body p.2 p.1) := by
  induction records generalizing i with
  | nil => exact nothing
  | cons defRec rest ih =>
    rw [errorLoop_cons, selected_cons]
    split_ifs
    · rw [append, ih, List.flatMap_cons]
    · exact ih (i + 1)

theorem errorLoop_os (body : Nat → Record → Output) (i : Nat) (records : List Record) :
    (errorLoop body i records).os = (selected i records).flatMap fun p => (body p.2 p.1).os :=
  errorLoop_collects Output.os rfl os_append body i records

theorem errorLoop_printed (body : Nat → Record → Output) (i : Nat) (records : List Record) :
    (errorLoop body i records).printed =
      (selected i records).flatMap fun p => (body p.2 p.1).printed :=
  errorLoop_collects Output.printed rfl printed_append body i records

theorem selected_records (i : Nat) (records : List Record) :
    (selected i records).map Prod.fst = records.filter Record.isError := by
  induction records generalizing i with
  | nil => rfl
  | cons defRec rest ih =>
    rw [selected_cons, List.filter_cons]
    by_cases derives : defRec.isError = true
    · rw [if_pos derives, if_pos derives, List.map_cons, ih]
    · rw [if_neg derives, if_neg derives, ih]

/-- The message for a record without a description. -/
def complaint (defRec : Record) : List Bytes :=
  if defRec.desc.isEmpty then [text "'desc' field is empty for " ++ defRec.name] else []

theorem entry_printed (i : Nat) (defRec : Record) :
    (entry lines i defRec).printed = complaint defRec := by
  by_cases empty : defRec.desc.isEmpty = true
  · by_cases help : defRec.help.isEmpty = true <;> simp [entry, complaint, empty, help]
  · by_cases help : defRec.help.isEmpty = true <;> simp [entry, complaint, empty, help]

/-- Over a list, the messages are about the errors without a description, in their order. -/
theorem run_list_printed (emitSourceFileHeader : Bytes → Bytes) (records : List Record) :
    (run lines emitSourceFileHeader (.list records)).printed =
      (records.filter Record.isError).flatMap complaint := by
  rw [← selected_records 0, List.flatMap_map]
  simp [run, createNSBody, inNamespace, errorLoop_printed, entry_printed]

/-- Without a list, one error is printed and nothing is written but the head. -/
theorem run_no_list (emitSourceFileHeader : Bytes → Bytes) {index : Index}
    (other : ∀ records, index ≠ .list records) :
    (run lines emitSourceFileHeader index).os =
      emitSourceFileHeader (text "Serene's Errors collection") ++ includes ∧
    (run lines emitSourceFileHeader index).printed.length = 1 := by
  cases index with
  | missing => exact ⟨List.append_nil _, rfl⟩
  | notList => exact ⟨List.append_nil _, rfl⟩
  | list records => exact absurd rfl (other records)

end Body

end ErrorsBackend
