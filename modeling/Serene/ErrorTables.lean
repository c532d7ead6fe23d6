import Serene.ErrorsBackend

/-!
# The enum and the table of the errors

The values of the enumerators and the places in the table count the records that
derive from `Error`; the ids and the two sizes count all records of the list. So
the numberings agree exactly when there is nothing to skip.
-/

namespace ErrorTables

open ByteClasses ErrorsBackend

/-- An enumerator, with the index of its record. Its value is its place in the enum. -/
structure Enumerator where
  source : Nat
  name : Bytes

/-- An entry `ErrorVariant::make(id, …)` of the table, with the index of its record. -/
structure Variant where
  source : Nat
  id : Nat
  record : Record

structure Table where
  enumerators : List Enumerator
  numberOfErrors : Nat
  declaredSize : Nat
  variants : List Variant

/-- The C++ of the enum and the table. -/
def Table.render (lines : Bytes → List Bytes) (t : Table) : Bytes :=
  text "#ifdef GET_CLASS_DEFS\n" ++
    text "namespace " ++ text "serene::errors" ++ text " \x7b\n\n" ++
    text "enum ErrorType \x7b\n" ++
    t.enumerators.flatMap (fun e => text "  " ++ e.name ++ text ",\n") ++
    text "\x7d;\n\n" ++
    text "#define NUMBER_OF_ERRORS " ++ decimal t.numberOfErrors ++ text "\n" ++
    text "static const ErrorVariant errorVariants[" ++ decimal t.declaredSize ++
    text "] = \x7b\n" ++
    t.variants.flatMap (fun v => (entry lines v.id v.record).os) ++
    text "\x7d;\n" ++
    text "\x7d; // namespace " ++ text "serene::errors" ++ text "\n" ++
    text "#undef GET_CLASS_DEFS\n#endif\n\n"

/-- The enum and the table of a list of records. -/
def table (records : List Record) : Table where
  enumerators := (selected 0 records).map fun p => ⟨p.2, p.1.name⟩
  numberOfErrors := records.length
  declaredSize := records.length
  variants := (selected 0 records).map fun p => ⟨p.2, p.2, p.1⟩

theorem run_renders (lines : Bytes → List Bytes) (emitSourceFileHeader : Bytes → Bytes)
    (records : List Record) :
    (run lines emitSourceFileHeader (.list records)).os =
      emitSourceFileHeader (text "Serene's Errors collection") ++ includes ++
        (table records).render lines := by
  unfold Table.render table
  simp only [run, createNSBody, inNamespace, createErrorClass, os_append, os_write, errorLoop_os,
    List.flatMap_map, List.append_assoc]

/-- Value, id and place are one number for each record that derives from `Error`, the two sizes
are the number of enumerators, and the entry at the value of an enumerator describes it. -/
structure Agree (records : List Record) (t : Table) : Prop where
  numbered : ∀ i defRec, records[i]? = some defRec → defRec.isError = true → ∃ e : Nat,
    t.enumerators[e]? = some ⟨i, defRec.name⟩ ∧ t.variants[e]? = some ⟨i, e, defRec⟩
  counted : t.numberOfErrors = t.enumerators.length ∧ t.declaredSize = t.enumerators.length
  described : ∀ (e : Nat) enumerator, t.enumerators[e]? = some enumerator → ∃ defRec,
    records[enumerator.source]? = some defRec ∧ enumerator.name = defRec.name ∧
      t.variants[e]? = some ⟨enumerator.source, e, defRec⟩

theorem selected_all {records : List Record} (all : ∀ r ∈ records, r.isError = true) :
    selected 0 records = records.zipIdx := by
  rw [selected, List.filter_eq_self]
  intro p mem
  exact all p.1 (List.fst_mem_of_mem_zipIdx mem)

theorem length_selected (records : List Record) :
    (selected 0 records).length = records.countP Record.isError := by
  rw [List.countP_eq_length_filter, ← selected_records 0, List.length_map]

/-- The generated text is a table, and its numberings agree exactly if no record is skipped. -/
theorem table_agrees_iff (lines : Bytes → List Bytes) (emitSourceFileHeader : Bytes → Bytes)
    (records : List Record) :
    (run lines emitSourceFileHeader (.list records)).os =
      emitSourceFileHeader (text "Serene's Errors collection") ++ includes ++
        (table records).render lines ∧
    (Agree records (table records) ↔ ∀ r ∈ records, r.isSubClassOf (text "Error") = true) := by
  refine ⟨run_renders lines emitSourceFileHeader records, fun agree => ?_, fun all => ?_⟩
  · have counted : records.length = records.countP Record.isError := by
      have size := agree.counted.1
      rwa [table, List.length_map, length_selected] at size
    exact List.countP_eq_length.mp counted.symm
  · have same := selected_all all
    constructor
    · intro i defRec here derives
      refine ⟨i, ?_, ?_⟩ <;> simp [table, same, here]
    · simp [table, same]
    · intro e enumerator there
      rw [table, same, List.getElem?_map, Option.map_eq_some_iff] at there
      obtain ⟨⟨defRec, i⟩, there, rfl⟩ := there
      obtain ⟨here, rfl⟩ : records[e]? = some defRec ∧ e = i := by simpa using there
      exact ⟨defRec, here, rfl, by simp [table, same, here]⟩

/-- A record that is skipped, and an error after it. -/
def skippedFirst : List Record :=
  [⟨text "Base", [], [], []⟩, ⟨text "Missing", [text "Error"], text "It is missing", []⟩]

/-- The value of the only enumerator is 0 and its entry stands at 0, but has the id 1, and there
are said to be 2 errors. -/
theorem skipped_disagree :
    (table skippedFirst).enumerators.map Enumerator.name = [text "Missing"] ∧
    (table skippedFirst).variants.map Variant.id = [1] ∧
    (table skippedFirst).numberOfErrors = 2 ∧ (table skippedFirst).declaredSize = 2 ∧
    ¬ Agree skippedFirst (table skippedFirst) := by
  refine ⟨rfl, rfl, rfl, rfl, fun agree => ?_⟩
  have counted : 2 = 1 := agree.counted.1
  omega

end ErrorTables
