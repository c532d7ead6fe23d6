import Serene.ByteClasses
import Serene.KeyedMemo

/-!
# The object cache of the JIT

Compiled objects are kept under the identifier of their module and handed out
again for every module with that identifier. The compiler around the cache is
LLVM's: it asks the cache first, and tells it what it had to compile.
-/

namespace ObjectCaching

open ByteClasses

universe u

/-- `llvm::Module`; what it is made of is for the compiler only. -/
structure Module (C : Type u) where
  moduleIdentifier : Bytes
  content : C

/-- A `llvm::MemoryBuffer` with an object in it. -/
structure ObjectBuffer where
  buffer : Bytes
  bufferIdentifier : Bytes
deriving DecidableEq

structure ObjectCache where
  cachedObjects : Bytes → Option ObjectBuffer := fun _ => none

variable {C : Type u}

namespace ObjectCache

/-- Keeps a copy of the object, with its name. -/
def notifyObjectCompiled (cache : ObjectCache) (m : Module C) (objBuffer : ObjectBuffer) :
    ObjectCache where
  cachedObjects id :=
    if id = m.moduleIdentifier then some ⟨objBuffer.buffer, objBuffer.bufferIdentifier⟩
    else cache.cachedObjects id

/-- The object under the module's identifier; `nullptr` where there is none. -/
def getObject (cache : ObjectCache) (m : Module C) : Option ObjectBuffer :=
  match cache.cachedObjects m.moduleIdentifier with
  | none => none
  | some object => some ⟨object.buffer, object.bufferIdentifier⟩

end ObjectCache

/-- The cache that `JIT` makes, by the option `JITenableObjectCache`. -/
def makeCache (enableObjectCache : Bool) : Option ObjectCache :=
  if enableObjectCache then some {} else none

section Compiler
variable (compile : Module C → ObjectBuffer)

/-- `SimpleCompiler`, with the object cache or without one. -/
def simpleCompiler (cache : Option ObjectCache) (m : Module C) :
    ObjectBuffer × Option ObjectCache :=
  match cache with
  | none => (compile m, none)
  | some cache =>
    match cache.getObject m with
    | some object => (object, some cache)
    | none => (compile m, some (cache.notifyObjectCompiled m (compile m)))

/-- The objects obtained for the modules, one after the other. -/
def objects (cache : Option ObjectCache) : List (Module C) → List ObjectBuffer
  | [] => []
  | m :: modules =>
    let (object, cache) := simpleCompiler compile cache m
    object :: objects cache modules

variable {compile}

theorem objects_uncached (modules : List (Module C)) :
    objects compile none modules = modules.map compile := by
  induction modules with
  | nil => rfl
  | cons m modules ih => exact congrArg (List.cons (compile m)) ih

/-- The cache is a table of the compiler under the module's identifier. -/
theorem objects_cached (cache : ObjectCache) (modules : List (Module C)) :
    objects compile (some cache) modules =
      KeyedMemo.run Module.moduleIdentifier compile cache.cachedObjects modules := by
  induction modules generalizing cache with
  | nil => rfl
  | cons m modules ih =>
    rw [objects, KeyedMemo.run, KeyedMemo.call, simpleCompiler, ObjectCache.getObject]
    cases cached : cache.cachedObjects m.moduleIdentifier with
    | some object => exact congrArg (List.cons object) (ih cache)
    | none => exact congrArg (List.cons (compile m)) (ih _)

end Compiler

/-- The first module of the run with the identifier of `m`. -/
def firstNamed (modules : List (Module C)) (m : Module C) : Module C :=
  KeyedMemo.leader Module.moduleIdentifier modules m

/-- Every module gets the object of the first module with its identifier. So the objects are
those of a JIT without a cache exactly where modules of one identifier compile to one object. -/
theorem objects_of_first (compile : Module C → ObjectBuffer) (modules : List (Module C)) :
    objects compile (makeCache true) modules =
        modules.map (fun m => compile (firstNamed modules m)) ∧
    (∀ m ∈ modules, firstNamed modules m ∈ modules ∧
      (firstNamed modules m).moduleIdentifier = m.moduleIdentifier) ∧
    (objects compile (makeCache true) modules = objects compile (makeCache false) modules ↔
      ∀ m ∈ modules, ∀ m' ∈ modules, m.moduleIdentifier = m'.moduleIdentifier →
        compile m = compile m') := by
  have cached := @objects_cached C compile {} modules
  refine ⟨?_, ?_, ?_⟩
  · exact cached.trans (KeyedMemo.run_eq modules)
  · intro m mem
    exact KeyedMemo.leader_spec mem
  · change objects compile (some {}) modules = objects compile none modules ↔ _
    rw [cached, objects_uncached]
    exact KeyedMemo.transparent_iff modules

/-- A compiler that puts the content into the object. -/
def copying (m : Module Bytes) : ObjectBuffer := ⟨m.content, m.moduleIdentifier⟩

/-- Two generations of the namespace `a`. -/
def generations : List (Module Bytes) := [⟨[97], [1]⟩, ⟨[97], [2]⟩]

theorem second_generation_stale :
    objects copying (makeCache true) generations = [⟨[1], [97]⟩, ⟨[1], [97]⟩] ∧
      objects copying (makeCache false) generations = [⟨[1], [97]⟩, ⟨[2], [97]⟩] ∧
      objects copying (makeCache true) generations ≠
        objects copying (makeCache false) generations := by
  refine ⟨rfl, rfl, ?_⟩
  decide

end ObjectCaching
