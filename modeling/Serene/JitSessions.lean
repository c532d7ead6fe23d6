import Mathlib.Data.List.AList
import Serene.ObjectCaching
import Serene.Namespaces

/-!
# What a JIT keeps

The object cache and the dylibs of the namespaces, over any run of compilations
and of pushes. The maps of the source are `llvm::StringMap`s, which have at most
one entry under a name; a pointer that may be null is an option.
-/

namespace JitSessions

open ByteClasses ObjectCaching Namespaces

universe u

abbrev StringMap (V : Type) := AList fun _ : Bytes => V

/-- The options that the JIT reads. -/
structure Options where
  JITenableObjectCache : Bool := true
  compilationPhase : CompilationPhase := .noOptimization

/-- `cache` is null without the option for it. -/
structure JIT (D : Type) where
  options : Options
  cache : Option (StringMap ObjectBuffer)
  jitDylibs : StringMap (List (Option D))

variable {C : Type u} {D : Type}

def JIT.make (D : Type) (options : Options) : JIT D where
  options
  cache := if options.JITenableObjectCache then some ∅ else none
  jitDylibs := ∅

/-- The place of a phase in the order of the phases. -/
def phaseOrder : CompilationPhase → Nat
  | .parse => 0
  | .analysis => 1
  | .slir => 2
  | .mlir => 3
  | .lir => 4
  | .ir => 5
  | .noOptimization => 6
  | .o1 => 7
  | .o2 => 8
  | .o3 => 9

def JIT.getOptimizatioLevel (jit : JIT D) : Nat :=
  if phaseOrder jit.options.compilationPhase ≤ phaseOrder .noOptimization then 0
  else if jit.options.compilationPhase = .o1 then 1
  else if jit.options.compilationPhase = .o2 then 2
  else 3

section Dylibs
variable (jit : JIT D) (nsName : Bytes)

def JIT.getLatestJITDylib : Option D :=
  match jit.jitDylibs.lookup nsName with
  | none => none
  | some vec => vec.getLast?.join

def JIT.pushJITDylib (l : Option D) : JIT D :=
  match jit.jitDylibs.lookup nsName with
  | none => { jit with jitDylibs := jit.jitDylibs.insert nsName [l] }
  | some vec => { jit with jitDylibs := jit.jitDylibs.insert nsName (vec ++ [l]) }

def JIT.getNumberOfJITDylibs : Nat :=
  match jit.jitDylibs.lookup nsName with
  | none => 0
  | some vec => vec.length

end Dylibs

inductive Fault where
  | nullCache
  | assertion
deriving DecidableEq

/-- What is written to `llvm::errs()`, and to the output file where one is kept. -/
structure Dump where
  errs : Bytes
  file : Option Bytes
deriving DecidableEq

/-- `opened` is the message of the error where the output file does not open. -/
def dumpToObjectFile (cachedObjects : StringMap ObjectBuffer) (outputFilename : Bytes)
    (opened : Except Bytes Unit) : Except Fault Dump :=
  match opened with
  | .error message =>
    .ok ⟨text "cannot open output file '" ++ outputFilename ++ text "': " ++ message ++
      [newline], none⟩
  | .ok () =>
    match cachedObjects.entries with
    | [cachedObject] => .ok ⟨[], some cachedObject.2.buffer⟩
    | _ => .error .assertion

def JIT.dumpToObjectFile (jit : JIT D) (filename : Bytes) (opened : Except Bytes Unit) :
    Except Fault Dump :=
  match jit.cache with
  | none => .error .nullCache
  | some cachedObjects => JitSessions.dumpToObjectFile cachedObjects filename opened

/-- The compiler that `JIT::make` hands to the engine, which compiles at the level of the options
and has the cache in front. -/
def JIT.compileModule (compiler : Nat → Module C → ObjectBuffer) (jit : JIT D) (m : Module C) :
    ObjectBuffer × JIT D :=
  match jit.cache with
  | none => (compiler jit.getOptimizatioLevel m, jit)
  | some cachedObjects =>
    match cachedObjects.lookup m.moduleIdentifier with
    | some object => (⟨object.buffer, object.bufferIdentifier⟩, jit)
    | none =>
      let object := compiler jit.getOptimizatioLevel m
      (object, { jit with
        cache := some (cachedObjects.insert m.moduleIdentifier
          ⟨object.buffer, object.bufferIdentifier⟩) })

inductive Op (C : Type u) (D : Type)
  | compile (m : Module C)
  | push (nsName : Bytes) (l : Option D)

section Runs
variable (compiler : Nat → Module C → ObjectBuffer)

def JIT.step (jit : JIT D) : Op C D → JIT D
  | .compile m => (jit.compileModule compiler m).2
  | .push nsName l => jit.pushJITDylib nsName l

def JIT.run (jit : JIT D) (ops : List (Op C D)) : JIT D := ops.foldl (JIT.step compiler) jit

/-- The objects given out by the compilations of the run. -/
def JIT.outputs (jit : JIT D) : List (Op C D) → List ObjectBuffer
  | [] => []
  | .compile m :: ops =>
    let (object, jit) := jit.compileModule compiler m
    object :: jit.outputs ops
  | .push nsName l :: ops => (jit.pushJITDylib nsName l).outputs ops

end Runs

def compiled : List (Op C D) → List (Module C)
  | [] => []
  | .compile m :: ops => m :: compiled ops
  | .push _ _ :: ops => compiled ops

/-- The dylibs pushed for a namespace. -/
def pushed (nsName : Bytes) : List (Op C D) → List (Option D)
  | [] => []
  | .compile _ :: ops => pushed nsName ops
  | .push name l :: ops => if name = nsName then l :: pushed nsName ops else pushed nsName ops

variable {compiler : Nat → Module C → ObjectBuffer} {jit : JIT D} {nsName : Bytes}

def JIT.dylibs (jit : JIT D) (nsName : Bytes) : List (Option D) :=
  (jit.jitDylibs.lookup nsName).getD []

theorem getLatestJITDylib_eq (jit : JIT D) (nsName : Bytes) :
    jit.getLatestJITDylib nsName = (jit.dylibs nsName).getLast?.join := by
  unfold JIT.getLatestJITDylib JIT.dylibs
  split
  next none => rw [none]; rfl
  next vec some => rw [some]; rfl

theorem getNumberOfJITDylibs_eq (jit : JIT D) (nsName : Bytes) :
    jit.getNumberOfJITDylibs nsName = (jit.dylibs nsName).length := by
  unfold JIT.getNumberOfJITDylibs JIT.dylibs
  split
  next none => rw [none]; rfl
  next vec some => rw [some]; rfl

theorem pushJITDylib_dylibs (jit : JIT D) (name nsName : Bytes) (l : Option D) :
    (jit.pushJITDylib name l).dylibs nsName =
      jit.dylibs nsName ++ if name = nsName then [l] else [] := by
  unfold JIT.pushJITDylib JIT.dylibs
  by_cases same : name = nsName
  · subst same
    split
    next none => simp [none]
    next vec some => simp [some]
  · have other : nsName ≠ name := Ne.symm same
    split <;> simp [AList.lookup_insert_ne other, same]

theorem compileModule_dylibs (jit : JIT D) (m : Module C) :
    (jit.compileModule compiler m).2.jitDylibs = jit.jitDylibs := by
  unfold JIT.compileModule
  split
  · rfl
  · split <;> rfl

theorem run_dylibs (jit : JIT D) (ops : List (Op C D)) (nsName : Bytes) :
    (jit.run compiler ops).dylibs nsName = jit.dylibs nsName ++ pushed nsName ops := by
  induction ops generalizing jit with
  | nil => exact (List.append_nil _).symm
  | cons op ops ih =>
    rw [JIT.run, List.foldl_cons]
    refine (ih _).trans ?_
    cases op with
    | compile m => rw [JIT.step, JIT.dylibs, compileModule_dylibs, pushed, JIT.dylibs]
    | push name l =>
      rw [JIT.step, pushJITDylib_dylibs, pushed, List.append_assoc]
      split <;> rfl

/-- The entries of the cache are those of the modules compiled so far. -/
def Caches (compiler : Nat → Module C → ObjectBuffer) (seen : List (Module C)) (jit : JIT D) :
    Prop :=
  ∃ entries, jit.cache = some entries ∧
    KeyedMemo.Recorded Module.moduleIdentifier (compiler jit.getOptimizatioLevel)
      (fun id => entries.lookup id) seen

theorem compileModule_options (jit : JIT D) (m : Module C) :
    (jit.compileModule compiler m).2.options = jit.options := by
  unfold JIT.compileModule
  split
  · rfl
  · split <;> rfl

theorem pushJITDylib_same (jit : JIT D) (nsName : Bytes) (l : Option D) :
    (jit.pushJITDylib nsName l).options = jit.options ∧
      (jit.pushJITDylib nsName l).cache = jit.cache := by
  unfold JIT.pushJITDylib
  split <;> exact ⟨rfl, rfl⟩

/-- A compilation is a call of the table in front of the compiler. -/
theorem compileModule_call (compiler : Nat → Module C → ObjectBuffer)
    {entries : StringMap ObjectBuffer} (cached : jit.cache = some entries) (m : Module C) :
    ∃ entries', (jit.compileModule compiler m).2.cache = some entries' ∧
      KeyedMemo.call Module.moduleIdentifier (compiler jit.getOptimizatioLevel)
        (fun id => entries.lookup id) m =
      ((jit.compileModule compiler m).1, fun id => entries'.lookup id) := by
  unfold JIT.compileModule KeyedMemo.call
  simp only [cached]
  split
  next object found =>
    simp only [found]
    exact ⟨entries, cached, rfl⟩
  next missing =>
    simp only [missing]
    refine ⟨_, rfl, ?_⟩
    congr 1
    funext id
    split
    next same => rw [same, AList.lookup_insert]
    next other => rw [AList.lookup_insert_ne other]

theorem Caches.step {seen : List (Module C)} (caches : Caches compiler seen jit) (op : Op C D) :
    Caches compiler (seen ++ compiled [op]) (jit.step compiler op) := by
  obtain ⟨entries, cached, recorded⟩ := caches
  cases op with
  | compile m =>
    obtain ⟨entries', cached', call⟩ := compileModule_call compiler cached m
    have next := (KeyedMemo.call_recorded recorded m).2
    rw [call] at next
    refine ⟨entries', cached', ?_⟩
    rw [JIT.step, JIT.getOptimizatioLevel, compileModule_options]
    exact next
  | push nsName l =>
    obtain ⟨options, cache⟩ := pushJITDylib_same jit nsName l
    refine ⟨entries, cache.trans cached, ?_⟩
    rw [JIT.step, JIT.getOptimizatioLevel, options, compiled, compiled, List.append_nil]
    exact recorded

theorem Caches.run {seen : List (Module C)} (caches : Caches compiler seen jit)
    (ops : List (Op C D)) : Caches compiler (seen ++ compiled ops) (jit.run compiler ops) := by
  induction ops generalizing seen jit with
  | nil => rwa [compiled, List.append_nil]
  | cons op ops ih =>
    have whole : compiled (op :: ops) = compiled [op] ++ compiled ops := by cases op <;> rfl
    rw [whole, ← List.append_assoc]
    exact ih (caches.step op)

theorem step_options (jit : JIT D) (op : Op C D) :
    (jit.step compiler op).options = jit.options := by
  cases op with
  | compile m => exact compileModule_options jit m
  | push nsName l => exact (pushJITDylib_same jit nsName l).1

theorem run_options (compiler : Nat → Module C → ObjectBuffer) (jit : JIT D) (ops : List (Op C D)) :
    (jit.run compiler ops).options = jit.options := by
  induction ops generalizing jit with
  | nil => rfl
  | cons op ops ih => exact (ih _).trans (step_options jit op)

theorem run_uncached (none : jit.cache = none) (ops : List (Op C D)) :
    (jit.run compiler ops).cache = .none := by
  induction ops generalizing jit with
  | nil => exact none
  | cons op ops ih =>
    refine ih ?_
    cases op with
    | compile m => simp [JIT.step, JIT.compileModule, none]
    | push nsName l => exact (pushJITDylib_same jit nsName l).2.trans none

theorem outputs_cached {entries : StringMap ObjectBuffer} (cached : jit.cache = some entries)
    (ops : List (Op C D)) :
    jit.outputs compiler ops =
      KeyedMemo.run Module.moduleIdentifier (compiler jit.getOptimizatioLevel)
        (fun id => entries.lookup id) (compiled ops) := by
  induction ops generalizing jit entries with
  | nil => rfl
  | cons op ops ih =>
    cases op with
    | compile m =>
      obtain ⟨entries', cached', call⟩ := compileModule_call compiler cached m
      have rest := ih cached'
      rw [JIT.getOptimizatioLevel, compileModule_options] at rest
      rw [compiled, KeyedMemo.run, call]
      exact congrArg (List.cons _) rest
    | push nsName l =>
      obtain ⟨options, cache⟩ := pushJITDylib_same jit nsName l
      have rest := ih (cache.trans cached)
      rw [JIT.getOptimizatioLevel, options] at rest
      exact rest

theorem outputs_uncached (none : jit.cache = none) (ops : List (Op C D)) :
    jit.outputs compiler ops = (compiled ops).map (compiler jit.getOptimizatioLevel) := by
  induction ops generalizing jit with
  | nil => rfl
  | cons op ops ih =>
    cases op with
    | compile m =>
      have same : jit.compileModule compiler m = (compiler jit.getOptimizatioLevel m, jit) := by
        simp [JIT.compileModule, none]
      rw [JIT.outputs, same, compiled, List.map_cons]
      exact congrArg _ (ih none)
    | push nsName l =>
      obtain ⟨options, cache⟩ := pushJITDylib_same jit nsName l
      have rest := ih (cache.trans none)
      rw [JIT.getOptimizatioLevel, options] at rest
      exact rest

/-- What is dumped of the modules compiled at a level: an object where they have one identifier. -/
def dumpOf (compile : Module C → ObjectBuffer) : List (Module C) → Except Fault Dump
  | [] => .error .assertion
  | m :: rest =>
    if ∀ m' ∈ rest, m'.moduleIdentifier = m.moduleIdentifier then
      .ok ⟨[], some (compile m).buffer⟩
    else .error .assertion

theorem Caches.dump {modules : List (Module C)} (caches : Caches compiler modules jit)
    (filename : Bytes) :
    jit.dumpToObjectFile filename (.ok ()) =
      dumpOf (compiler jit.getOptimizatioLevel) modules := by
  obtain ⟨entries, cached, recorded⟩ := caches
  have dumps : jit.dumpToObjectFile filename (.ok ()) =
      JitSessions.dumpToObjectFile entries filename (.ok ()) := by
    simp only [JIT.dumpToObjectFile, cached]
  rw [dumps, JitSessions.dumpToObjectFile]
  cases modules with
  | nil =>
    have nothing : entries.entries = [] := by
      refine List.eq_nil_iff_forall_not_mem.mpr fun entry mem => ?_
      obtain ⟨m, there, -⟩ := (KeyedMemo.mem_recorded recorded entry.1).mp
        (List.mem_map_of_mem mem)
      cases there
    rw [nothing, dumpOf]
  | cons m rest =>
    by_cases same : ∀ m' ∈ rest, m'.moduleIdentifier = m.moduleIdentifier
    · rw [dumpOf, if_pos same, KeyedMemo.recorded_single recorded same]
    · rw [dumpOf, if_neg same]
      split
      next entry single => exact absurd (KeyedMemo.recorded_of_single recorded single) same
      next => rfl

/-- The compiler at the level of the options. -/
def compileAt (D : Type) (compiler : Nat → Module C → ObjectBuffer) (options : Options) :
    Module C → ObjectBuffer :=
  compiler (JIT.make D options).getOptimizatioLevel

/-- After any run: the dylibs of every namespace are those pushed for it, the newest last; with
the object cache every compilation gives the object of the first module of its name, and the dump
is that object where all modules have one name, and else fails its assertion. -/
theorem run_dylibs_objects_dump (compiler : Nat → Module C → ObjectBuffer) (options : Options)
    (ops : List (Op C D)) :
    (∀ nsName,
      ((JIT.make D options).run compiler ops).getNumberOfJITDylibs nsName =
          (pushed nsName ops).length ∧
        ((JIT.make D options).run compiler ops).getLatestJITDylib nsName =
          (pushed nsName ops).getLast?.join) ∧
    (JIT.make D options).outputs compiler ops =
      (compiled ops).map (if options.JITenableObjectCache then
        fun m => compileAt D compiler options (firstNamed (compiled ops) m)
      else compileAt D compiler options) ∧
    ∀ filename, ((JIT.make D options).run compiler ops).dumpToObjectFile filename (.ok ()) =
      if options.JITenableObjectCache then dumpOf (compileAt D compiler options) (compiled ops)
      else .error .nullCache := by
  have dylibs (nsName : Bytes) :
      ((JIT.make D options).run compiler ops).dylibs nsName = pushed nsName ops := by
    rw [run_dylibs, JIT.dylibs, JIT.make, AList.lookup_empty]
    rfl
  have kept := run_options compiler (JIT.make D options) ops
  refine ⟨fun nsName => ?_, ?_, fun filename => ?_⟩
  · rw [getNumberOfJITDylibs_eq, getLatestJITDylib_eq, dylibs]
    exact ⟨rfl, rfl⟩
  · cases enabled : options.JITenableObjectCache with
    | true =>
      have cached : (JIT.make D options).cache = some ∅ := by simp [JIT.make, enabled]
      rw [outputs_cached cached]
      exact KeyedMemo.run_eq (compiled ops)
    | false =>
      have none : (JIT.make D options).cache = none := by simp [JIT.make, enabled]
      rw [outputs_uncached none]
      rfl
  · cases enabled : options.JITenableObjectCache with
    | true =>
      have empty : Caches compiler [] (JIT.make D options) :=
        ⟨∅, by simp [JIT.make, enabled], fun id => AList.lookup_empty id⟩
      have caches := empty.run ops
      rw [caches.dump, JIT.getOptimizatioLevel, kept]
      rfl
    | false =>
      have none : (JIT.make D options).cache = none := by simp [JIT.make, enabled]
      rw [JIT.dumpToObjectFile, run_uncached none]
      rfl

end JitSessions
