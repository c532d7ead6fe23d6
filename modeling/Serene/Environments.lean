import Serene.ByteClasses

/-!
# Environments

A namespace owns its environments and creates each with an older one as its
parent, or with none. Lookup follows the parents; it takes a value for bound when
the value converts to true, and a key that is not bound for bound to the default
value. What that makes of scoping is said of the bindings on the parent chain.
-/

namespace Environments

open ByteClasses

universe u

/-- `Environment<V>`; the parent is one of the environments of the namespace. -/
structure Environment (V : Type u) where
  parent : Option Nat := none
  pairs : Bytes → Option V := fun _ => none

variable {V : Type u}

/-- A parent is created before the environment that points to it. -/
def Older (environments : List (Environment V)) : Prop :=
  ∀ (i : Nat) (e : Environment V) (p : Nat),
    environments[i]? = some e → e.parent = some p → p < i

/-- The environments of a namespace, in the order of their creation. -/
structure Forest (V : Type u) where
  environments : List (Environment V) := []
  older : Older environments

namespace Forest

theorem older_nil : Older ([] : List (Environment V)) := by
  intro i e p here
  cases here

def empty : Forest V := ⟨[], older_nil⟩

def size (f : Forest V) : Nat := f.environments.length

theorem older_concat {environments : List (Environment V)} (older : Older environments)
    {parent : Option Nat} (created : ∀ p ∈ parent, p < environments.length) :
    Older (environments ++ [{ parent := parent }]) := by
  intro i e p here isParent
  by_cases old : i < environments.length
  · rw [List.getElem?_append_left old] at here
    exact older i e p here isParent
  · obtain ⟨inside, same⟩ := List.getElem?_eq_some_iff.mp here
    rw [List.length_append, List.length_singleton] at inside
    obtain rfl : i = environments.length := by omega
    rw [List.getElem?_concat_length] at here
    cases here
    exact created p isParent

/-- `Namespace::createEnv`. -/
def createEnv (f : Forest V) (parent : Option Nat) (created : ∀ p ∈ parent, p < f.size) :
    Forest V :=
  ⟨f.environments ++ [{ parent := parent }], older_concat f.older created⟩

/-- `pairs.insert_or_assign(key, value)`. -/
def insertOrAssign (e : Environment V) (key : Bytes) (value : V) : Environment V :=
  { e with pairs := fun k => if k = key then some value else e.pairs k }

theorem older_modify {environments : List (Environment V)} (older : Older environments) (env : Nat)
    (key : Bytes) (value : V) :
    Older (environments.modify env fun e => insertOrAssign e key value) := by
  intro i e p here isParent
  rw [List.getElem?_modify] at here
  cases before : environments[i]? with
  | none =>
    rw [before] at here
    cases here
  | some e' =>
    rw [before] at here
    refine older i e' p before ?_
    split at here <;> cases here <;> exact isParent

/-- `Environment::insert_symbol` on the environment created as number `env`. -/
def insert_symbol (f : Forest V) (env : Nat) (key : Bytes) (value : V) : Forest V :=
  ⟨f.environments.modify env fun e => insertOrAssign e key value,
    older_modify f.older env key value⟩

section Lookup
variable (operatorBool : V → Bool) (default : V)

/-- `Environment::lookup` on the environment created as number `env`. `StringMap::lookup` gives
a default value for a missing key. -/
def lookup (f : Forest V) (key : Bytes) (env : Nat) : Option V :=
  match _ : f.environments[env]? with
  | none => none
  | some e =>
    let value := (e.pairs key).getD default
    if operatorBool value then some value
    else
      match _ : e.parent with
      | some parent => lookup f key parent
      | none => none
termination_by env
decreasing_by exact f.older env _ _ (by assumption) (by assumption)

end Lookup

/-- The environment and those reached from it through parents. -/
def chain (f : Forest V) (env : Nat) : List Nat :=
  match _ : f.environments[env]? with
  | none => []
  | some e =>
    match _ : e.parent with
    | some parent => env :: chain f parent
    | none => [env]
termination_by env
decreasing_by exact f.older env _ _ (by assumption) (by assumption)

def binding (f : Forest V) (key : Bytes) (env : Nat) : Option V :=
  f.environments[env]?.bind fun e => e.pairs key

end Forest

section Levels
variable (operatorBool : V → Bool) (default : V)

/-- What a lookup that goes from level to level finds. -/
def firstTrue : List (Option V) → Option V
  | [] => none
  | level :: levels =>
    if operatorBool (level.getD default) then some (level.getD default) else firstTrue levels

/-- The innermost binding. -/
def innermost (levels : List (Option V)) : Option V := levels.findSome? id

/-- The levels hold no value that the truth test gets wrong: a key that is bound nowhere has a
false default, and the innermost binding of one that is bound converts to true, with a false
default (or the same value) on the levels inside it. -/
structure Told (levels : List (Option V)) : Prop where
  unbound : innermost levels = none → levels ≠ [] → operatorBool default = false
  bound : ∀ v, innermost levels = some v → operatorBool v = true ∧
    (levels.head? = some (some v) ∨ operatorBool default = false ∨ v = default)

variable {operatorBool default}

theorem firstTrue_true {levels : List (Option V)} {v : V}
    (found : firstTrue operatorBool default levels = some v) : operatorBool v = true := by
  induction levels with
  | nil => cases found
  | cons level levels ih =>
    rw [firstTrue] at found
    split at found
    · next isTrue =>
      cases found
      exact isTrue
    · exact ih found

theorem told_of_false (false : operatorBool default = false) {levels : List (Option V)} :
    Told operatorBool default levels ↔ ∀ v, innermost levels = some v → operatorBool v = true := by
  constructor
  · intro told v bound
    exact (told.bound v bound).1
  · intro allTrue
    exact ⟨fun _ _ => false, fun v bound => ⟨allTrue v bound, Or.inr (Or.inl false)⟩⟩

/-- A binding on the first level is found if it is true. -/
theorem firstTrue_bound (v : V) (levels : List (Option V)) :
    firstTrue operatorBool default (some v :: levels) = some v ↔
      Told operatorBool default (some v :: levels) := by
  have inner : innermost (some v :: levels) = some v := rfl
  rw [firstTrue, Option.getD_some]
  by_cases isTrue : operatorBool v = true
  · rw [if_pos isTrue]
    refine iff_of_true rfl ⟨fun unbound => ?_, ?_⟩
    · rw [inner] at unbound
      cases unbound
    · rintro w bound
      cases inner.symm.trans bound
      exact ⟨isTrue, Or.inl rfl⟩
  · rw [if_neg isTrue]
    refine iff_of_false ?_ fun told => isTrue (told.bound v inner).1
    intro found
    exact isTrue (firstTrue_true found)

/-- A true default is found on a first level without a binding, and is right only if it is what
is bound further out. -/
theorem default_bound (isTrue : operatorBool default = true) (levels : List (Option V)) :
    some default = innermost levels ↔ Told operatorBool default (none :: levels) := by
  have inner : innermost (none :: levels) = innermost levels := rfl
  constructor
  · intro same
    refine ⟨fun unbound => ?_, ?_⟩
    · rw [inner, ← same] at unbound
      cases unbound
    · intro v bound
      cases same.trans (inner.symm.trans bound)
      exact ⟨isTrue, Or.inr (Or.inr rfl)⟩
  · intro told
    cases bound : innermost levels with
    | none =>
      have isFalse := told.unbound (inner.trans bound) (List.cons_ne_nil _ _)
      cases isTrue.symm.trans isFalse
    | some v =>
      rcases (told.bound v (inner.trans bound)).2 with here | isFalse | rfl
      · cases here
      · cases isTrue.symm.trans isFalse
      · rfl

/-- The lookup agrees with the innermost binding exactly on the levels it can tell. -/
theorem firstTrue_iff (levels : List (Option V)) :
    firstTrue operatorBool default levels = innermost levels ↔
      Told operatorBool default levels := by
  induction levels with
  | nil =>
    refine iff_of_true rfl ⟨fun _ nonempty => absurd rfl nonempty, ?_⟩
    intro v bound
    cases bound
  | cons level levels ih =>
    cases level with
    | some v => exact firstTrue_bound v levels
    | none =>
      have inner : innermost (none :: levels) = innermost levels := rfl
      rw [firstTrue, Option.getD_none, inner]
      cases isTrue : operatorBool default with
      | true =>
        rw [if_pos rfl]
        exact default_bound isTrue levels
      | false =>
        rw [if_neg Bool.false_ne_true, ih, told_of_false isTrue, told_of_false isTrue, inner]

end Levels

namespace Forest
variable {operatorBool : V → Bool} {default : V} {f : Forest V} {env : Nat} {e : Environment V}

theorem lookup_here (key : Bytes) (here : f.environments[env]? = some e) :
    f.lookup operatorBool default key env =
      if operatorBool ((e.pairs key).getD default) then some ((e.pairs key).getD default)
      else e.parent.bind (f.lookup operatorBool default key) := by
  rw [lookup]
  split
  · next missing => cases here.symm.trans missing
  · next e' same =>
    cases here.symm.trans same
    cases e.parent with
    | none => simp
    | some p => simp

theorem lookup_missing (key : Bytes) (missing : f.environments[env]? = none) :
    f.lookup operatorBool default key env = none := by
  rw [lookup]
  split
  · rfl
  · next e here => cases missing.symm.trans here

theorem chain_here (here : f.environments[env]? = some e) :
    f.chain env = env :: e.parent.elim [] f.chain := by
  rw [chain]
  split
  · next missing => cases here.symm.trans missing
  · next e' same =>
    cases here.symm.trans same
    split
    · next p isParent => rw [isParent, Option.elim_some]
    · next isParent => rw [isParent, Option.elim_none]

theorem chain_missing (missing : f.environments[env]? = none) : f.chain env = [] := by
  rw [chain]
  split
  · rfl
  · next e here => cases missing.symm.trans here

/-- Lookup goes through the bindings on the parent chain. -/
theorem lookup_chain (f : Forest V) (key : Bytes) (env : Nat) :
    f.lookup operatorBool default key env =
      firstTrue operatorBool default ((f.chain env).map (f.binding key)) := by
  induction env using Nat.strongRecOn with
  | ind env ih =>
    cases here : f.environments[env]? with
    | none =>
      rw [lookup_missing key here, chain_missing here]
      rfl
    | some e =>
      have own : f.binding key env = e.pairs key := by rw [binding, here, Option.bind_some]
      rw [lookup_here key here, chain_here here, List.map_cons, firstTrue, own]
      congr 1
      cases isParent : e.parent with
      | none => rfl
      | some p => exact ih p (f.older env e p here isParent)

section Insertion
variable (other : Nat) (key : Bytes) (value : V)

theorem environments_insert (f : Forest V) (env : Nat) :
    (f.insert_symbol other key value).environments[env]? =
      f.environments[env]?.map fun e => if other = env then insertOrAssign e key value else e := by
  rw [insert_symbol, List.getElem?_modify]
  rfl

/-- An insertion changes no chain. -/
theorem chain_insert (f : Forest V) (env : Nat) :
    (f.insert_symbol other key value).chain env = f.chain env := by
  induction env using Nat.strongRecOn with
  | ind env ih =>
    have after := f.environments_insert other key value env
    cases here : f.environments[env]? with
    | none =>
      rw [here, Option.map_none] at after
      rw [chain_missing after, chain_missing here]
    | some e =>
      rw [here, Option.map_some] at after
      rw [chain_here after, chain_here here]
      have parent : (if other = env then insertOrAssign e key value else e).parent = e.parent := by
        split <;> rfl
      rw [parent]
      cases isParent : e.parent with
      | none => rfl
      | some p => exact congrArg (List.cons env) (ih p (f.older env e p here isParent))

theorem binding_insert {f : Forest V} (inside : other < f.size) (k : Bytes) (env : Nat) :
    (f.insert_symbol other key value).binding k env =
      if other = env ∧ key = k then some value else f.binding k env := by
  rw [binding, binding, environments_insert]
  by_cases own : other = env
  · subst own
    rw [List.getElem?_eq_getElem inside]
    simp [insertOrAssign, eq_comm]
  · simp [own]

end Insertion

theorem binding_create {f : Forest V} {parent : Option Nat} (created : ∀ p ∈ parent, p < f.size)
    (k : Bytes) (env : Nat) : (f.createEnv parent created).binding k env = f.binding k env := by
  rw [binding, binding, createEnv]
  by_cases old : env < f.environments.length
  · rw [List.getElem?_append_left old]
  · rw [List.getElem?_eq_none (l := f.environments) (by omega),
      List.getElem?_append_right (by omega)]
    cases env - f.environments.length with
    | zero => rfl
    | succ n => rfl

end Forest

inductive Op (V : Type u) where
  | createEnv (parent : Option Nat)
  | insert_symbol (env : Nat) (key : Bytes) (value : V)

/-- The forests that calls lead to, with the calls. -/
inductive Built : List (Op V) → Forest V → Prop where
  | start : Built [] .empty
  | createEnv {ops : List (Op V)} {f : Forest V} (before : Built ops f) (parent : Option Nat)
      (created : ∀ p ∈ parent, p < f.size) :
      Built (ops ++ [.createEnv parent]) (f.createEnv parent created)
  | insert_symbol {ops : List (Op V)} {f : Forest V} (before : Built ops f) (env : Nat)
      (inside : env < f.size) (key : Bytes) (value : V) :
      Built (ops ++ [.insert_symbol env key value]) (f.insert_symbol env key value)

def Op.inserts (key : Bytes) (env : Nat) : Op V → Option V
  | .createEnv _ => none
  | .insert_symbol other k value => if other = env ∧ k = key then some value else none

/-- The value inserted last for the key in the environment. -/
def mostRecent (ops : List (Op V)) (key : Bytes) (env : Nat) : Option V :=
  ops.reverse.findSome? (Op.inserts key env)

theorem mostRecent_concat (ops : List (Op V)) (op : Op V) (key : Bytes) (env : Nat) :
    mostRecent (ops ++ [op]) key env = (op.inserts key env).or (mostRecent ops key env) := by
  rw [mostRecent, List.reverse_append, List.reverse_singleton, List.singleton_append,
    List.findSome?_cons]
  cases op.inserts key env with
  | none => rfl
  | some value => rfl

theorem built_binding {ops : List (Op V)} {f : Forest V} (built : Built ops f) (key : Bytes)
    (env : Nat) : f.binding key env = mostRecent ops key env := by
  induction built with
  | start => rfl
  | createEnv before parent created ih =>
    rw [Forest.binding_create created, mostRecent_concat, ih]
    rfl
  | insert_symbol before other inside k value ih =>
    rw [Forest.binding_insert other k value inside, mostRecent_concat, ih, Op.inserts]
    split <;> rfl

section Scoping
variable (operatorBool : V → Bool) (default : V)

/-- Lookup gives the value inserted last in the nearest environment that has the key, or nothing
where none on the chain has it, exactly where the values on the chain let it tell. Insertions
into environments off the chain change no lookup. -/
theorem lookup_scoped_iff {ops : List (Op V)} {f : Forest V} (built : Built ops f) (key : Bytes)
    (env : Nat) :
    (f.lookup operatorBool default key env =
        innermost ((f.chain env).map (mostRecent ops key)) ↔
      Told operatorBool default ((f.chain env).map (mostRecent ops key))) ∧
    ∀ other k value, other < f.size → other ∉ f.chain env →
      (f.insert_symbol other k value).lookup operatorBool default key env =
        f.lookup operatorBool default key env := by
  constructor
  · have bindings : f.binding key = mostRecent ops key := funext (built_binding built key)
    rw [f.lookup_chain, bindings]
    exact firstTrue_iff _
  · intro other k value inside off
    rw [Forest.lookup_chain, Forest.lookup_chain, Forest.chain_insert]
    congr 1
    refine List.map_congr_left fun e mem => ?_
    rw [Forest.binding_insert other k value inside, if_neg]
    rintro ⟨rfl, -⟩
    exact off mem

end Scoping

/-- The test of an `int`. -/
def nonzero (n : Int) : Bool := n != 0

theorem no_parent : ∀ p ∈ (none : Option Nat), p < (Forest.empty : Forest Int).size := by
  intro p isParent
  cases isParent

/-- A root environment, in which `a` is 7. -/
def root : Forest Int := (Forest.empty.createEnv none no_parent).insert_symbol 0 [97] 7

theorem root_parent : ∀ p ∈ some 0, p < root.size := by
  intro p isParent
  cases isParent
  decide

/-- With an environment inside it, in which `a` is this value. -/
def nested (value : Int) : Forest Int :=
  (root.createEnv (some 0) root_parent).insert_symbol 1 [97] value

def nestedOps (value : Int) : List (Op Int) :=
  [.createEnv none, .insert_symbol 0 [97] 7, .createEnv (some 0), .insert_symbol 1 [97] value]

theorem nested_built (value : Int) : Built (nestedOps value) (nested value) :=
  .insert_symbol (.createEnv (.insert_symbol (.createEnv .start none no_parent) 0 (by decide) _ _)
    (some 0) root_parent) 1 (by decide) _ _

theorem nested_chain (value : Int) : (nested value).chain 1 = [1, 0] := by
  have outer : (nested value).chain 0 = [0] := (Forest.chain_here rfl).trans rfl
  have inner : (nested value).chain 1 = 1 :: (nested value).chain 0 :=
    (Forest.chain_here rfl).trans rfl
  rw [inner, outer]

theorem inner_found : (nested 3).lookup nonzero 0 [97] 1 = some 3 := by
  have agrees := (lookup_scoped_iff nonzero 0 (nested_built 3) [97] 1).1
  rw [nested_chain] at agrees
  refine agrees.mpr ⟨?_, ?_⟩
  · intro unbound
    cases unbound
  · intro v bound
    cases bound
    exact ⟨rfl, Or.inl rfl⟩

/-- An inner 0 does not hide the outer 7. -/
theorem zero_not_bound :
    Built (nestedOps 0) (nested 0) ∧ (nested 0).lookup nonzero 0 [97] 1 = some 7 ∧
      innermost (((nested 0).chain 1).map (mostRecent (nestedOps 0) [97])) = some 0 := by
  refine ⟨nested_built 0, ?_, ?_⟩
  · rw [Forest.lookup_chain, nested_chain]
    rfl
  · rw [nested_chain]
    rfl

end Environments
