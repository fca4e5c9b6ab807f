import Wine.Registry.Names
import Wine.Lib.Exec

/-!
# The registry's keys and values

Keys are numbered in the order of their creation and live in a heap. A key counts a reference from its
parent, from every handle and from the table of saved branches; `referenced` says whether one of
these is left. Allocations take their outcomes from `grants`, one after the other, and memory that
is never written holds what `stale` says.
-/

namespace Wine.Registry
open Wine.Lib

abbrev Byte := BitVec 8

/-- `KEY_VOLATILE`, `KEY_DELETED` and `KEY_DIRTY`. -/
structure KeyFlags where
  volatile : Bool
  deleted : Bool
  dirty : Bool
  deriving DecidableEq, Repr

namespace KeyFlags

def none : KeyFlags := ⟨false, false, false⟩
def keyVolatile : KeyFlags := ⟨true, false, false⟩
def keyDirty : KeyFlags := ⟨false, false, true⟩

def or (f g : KeyFlags) : KeyFlags :=
  ⟨f.volatile || g.volatile, f.deleted || g.deleted, f.dirty || g.dirty⟩

end KeyFlags

structure KeyValue where
  name : List WChar
  type : BitVec 16
  data : List Byte
  deriving DecidableEq, Repr

/-- `subkeys` and `values` are the used parts of the two arrays, `nbSubkeys` and `nbValues` the
allocated lengths. -/
structure Key where
  name : List WChar
  className : List WChar
  parent : Option ℕ
  nbSubkeys : ℕ
  subkeys : List ℕ
  nbValues : ℕ
  values : List KeyValue
  flags : KeyFlags
  modif : ℤ
  deriving DecidableEq, Repr

def Key.lastSubkey (key : Key) : ℤ := key.subkeys.length - 1
def Key.lastValue (key : Key) : ℤ := key.values.length - 1

/-- A key as `alloc_key` makes it. -/
def Key.new (name : List WChar) (modif : ℤ) : Key := ⟨name, [], none, 0, [], 0, [], .none, modif⟩

def rootKey : ℕ := 0

def minSubkeys : ℕ := 8
def minValues : ℕ := 8

inductive Status where
  | noMemory
  | nameTooLong
  | keyDeleted
  | childMustBeVolatile
  | objectPathInvalid
  | objectNameNotFound
  | accessDenied
  | invalidHandle
  | invalidParameter
  | privilegeNotHeld
  | notRegistryFile
  deriving DecidableEq, Repr

/-- An assertion that fails, a pointer that is `NULL` or dangling, a loop that goes on for ever, or a
call of `fatal_error`. -/
inductive Fault where
  | assertion
  | badPointer
  | endless
  | fatal
  deriving DecidableEq, Repr

/-- The heap of keys, and what refers to keys from outside: the handles of all processes and the
table of saved branches. -/
structure Tree where
  keys : ℕ → Option Key
  nextKey : ℕ
  handles : List ℕ
  branches : List ℕ

structure State extends Tree where
  grants : ℕ → Bool
  stale : ℕ → BitVec 16
  allocs : ℕ
  now : ℤ
  error : Option Status

abbrev M := Exec State Fault

namespace Tree

def updateKey (r : Tree) (k : ℕ) (f : Key → Key) : Tree :=
  { r with keys := fun i => if i = k then (r.keys k).map f else r.keys i }

def addKey (r : Tree) (key : Key) : Tree :=
  { r with
    keys := fun i => if i = r.nextKey then some key else r.keys i
    nextKey := r.nextKey + 1 }

def removeKey (r : Tree) (k : ℕ) : Tree :=
  { r with keys := fun i => if i = k then none else r.keys i }

def nameOf (r : Tree) (k : ℕ) : List WChar := (r.keys k).elim [] Key.name

/-- Whether a reference to a key is left: the root is static. -/
def referenced (r : Tree) (k : ℕ) : Bool :=
  k == rootKey || r.handles.contains k || r.branches.contains k ||
    (r.keys k).any fun key => key.parent.isSome

section
variable (r : Tree) (k i : ℕ) (f : Key → Key) (key : Key)

@[simp] theorem updateKey_keys :
    (r.updateKey k f).keys i = if i = k then (r.keys k).map f else r.keys i := rfl
@[simp] theorem updateKey_nextKey : (r.updateKey k f).nextKey = r.nextKey := rfl

@[simp] theorem addKey_keys :
    (r.addKey key).keys i = if i = r.nextKey then some key else r.keys i := rfl

@[simp] theorem removeKey_keys :
    (r.removeKey k).keys i = if i = k then none else r.keys i := rfl

end

end Tree

/-- Change the heap and nothing else. -/
def edit (f : Tree → Tree) : M PUnit :=
  modify fun s => { s with toTree := f s.toTree }

def setError (e : Status) : M PUnit := modify fun s => { s with error := some e }

def getKey (k : ℕ) : M Key := do
  match (← get).keys k with
  | some key => pure key
  | none => throw .badPointer

def modifyKey (k : ℕ) (f : Key → Key) : M PUnit := edit fun r => r.updateKey k f

/-- Whether the next allocation succeeds. -/
def allocate : M Bool := do
  let s ← get
  set { s with allocs := s.allocs + 1 }
  pure (s.grants s.allocs)

/-- `mem_alloc` and `alloc_object`. -/
def memAlloc : M Bool := do
  if (← allocate) then pure true
  else
    setError .noMemory
    pure false

/-- `memdup`, which the callers leave out where there is nothing to copy. -/
def memdup {α : Type} (l : List α) : M Bool :=
  match l with
  | [] => pure true
  | _ :: _ => memAlloc

end Wine.Registry
