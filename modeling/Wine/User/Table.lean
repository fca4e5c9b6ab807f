import Wine.Lib.Runs
import Wine.Server.State

/-!
# User handles

The table of windows and hooks that all clients of the server share. Its entries stand in an array
that grows by `realloc`; free entries are linked through raw pointers into the array. A pointer
carries the number of the block it points into, so that following one into a block that was
reallocated since is a fault.
-/

namespace Wine.User
open Wine.Lib
open Wine.Server (Status statusInvalidHandle)

abbrev UserHandle := BitVec 32

/-- The address of a window or hook. -/
abbrev ObjPtr := ℕ

def firstUserHandle : ℕ := 0x0020
def lastUserHandle : ℕ := 0xffef

inductive UserObject
  | window | hook
  deriving DecidableEq, Repr

structure EntryPtr where
  block : ℕ
  index : ℕ
  deriving DecidableEq, Repr

/-- What a `void *` of the table holds. -/
inductive Ptr
  | null
  | object (o : ObjPtr)
  | entry (p : EntryPtr)
  deriving DecidableEq, Repr

/-- An entry without a type is free. -/
structure HandleEntry where
  ptr : Ptr
  type : Option UserObject
  generation : BitVec 16
  deriving DecidableEq, Repr

/-- A handle that was returned and not freed since, with what it was allocated for. -/
structure LiveHandle where
  handle : UserHandle
  obj : ObjPtr
  type : UserObject
  deriving DecidableEq, Repr

/-- `handles` is the used part of the array, `nb_handles` entries long, and `block` counts how often
the array was reallocated. No function of the source reads `live`. -/
structure State where
  block : ℕ
  handles : List HandleEntry
  freelist : Ptr
  allocatedHandles : ℕ
  error : Status
  live : List LiveHandle

def State.initial : State where
  block := 0
  handles := []
  freelist := .null
  allocatedHandles := 0
  error := 0
  live := []

inductive Fault
  | danglingPointer
  deriving DecidableEq, Repr

abbrev M := Exec State Fault

/-! ## Entries -/

/-- The index in the low word of a handle. The subtraction wraps. -/
def handleIndex (handle : UserHandle) : ℕ :=
  (((handle &&& 0xffff) - BitVec.ofNat 32 firstUserHandle) >>> 1).toNat

def handleGeneration (handle : UserHandle) : BitVec 16 := (handle >>> 16).setWidth 16

def handleToEntry (s : State) (handle : UserHandle) : Option ℕ :=
  match s.handles[handleIndex handle]? with
  | none => none
  | some e =>
    if e.type = none then none
    else if handleGeneration handle = e.generation ∨ handleGeneration handle = 0
        ∨ handleGeneration handle = 0xffff then some (handleIndex handle)
    else none

def entryToHandle (index : ℕ) (generation : BitVec 16) : UserHandle :=
  (BitVec.ofNat 32 index <<< 1) + BitVec.ofNat 32 firstUserHandle
    + (generation.setWidth 32 <<< 16)

def State.setEntry (s : State) (index : ℕ) (e : HandleEntry) : State :=
  { s with handles := s.handles.set index e }

/-- The entry a pointer points to, with its index. -/
def readEntry (p : Ptr) : M (ℕ × HandleEntry) := do
  let s ← get
  match p with
  | .entry p =>
    if p.block = s.block then
      match s.handles[p.index]? with
      | some e => pure (p.index, e)
      | none => throw .danglingPointer
    else throw .danglingPointer
  | _ => throw .danglingPointer

/-- An entry that was never used. Its pointer and type are set before they are read. -/
def newEntry : HandleEntry := ⟨.null, none, 0⟩

/-- `mem` is the outcome of `realloc`. -/
def allocUserEntry (mem : Bool) : M (Option (ℕ × HandleEntry)) := do
  let s ← get
  if s.freelist ≠ .null then
    let (index, e) ← readEntry s.freelist
    modify fun s => { s with freelist := e.ptr }
    pure (some (index, e))
  else if s.allocatedHandles ≤ s.handles.length then
    -- grow array by 50% (but at minimum 32 entries)
    let growth := max 32 (s.allocatedHandles / 2)
    let newSize := min (s.allocatedHandles + growth) ((lastUserHandle - firstUserHandle + 1) / 2)
    if newSize ≤ s.allocatedHandles ∨ mem = false then pure none
    else
      set { s with
        block := s.block + 1
        allocatedHandles := newSize
        handles := s.handles ++ [newEntry] }
      pure (some (s.handles.length, newEntry))
  else
    set { s with handles := s.handles ++ [newEntry] }
    pure (some (s.handles.length, newEntry))

def freeUserEntry (index : ℕ) (e : HandleEntry) : M Ptr := do
  modify fun s => { s.setEntry index { e with ptr := s.freelist, type := none } with
    freelist := .entry ⟨s.block, index⟩ }
  pure e.ptr

/-! ## Handles -/

def nextGeneration (generation : BitVec 16) : BitVec 16 :=
  if 0xffff ≤ (generation + 1).toNat then 1 else generation + 1

/-- The handle, or zero where the table is full. -/
def allocUserHandle (ptr : ObjPtr) (type : UserObject) (mem : Bool) : M UserHandle := do
  match ← allocUserEntry mem with
  | none => pure 0
  | some (index, e) =>
    let generation := nextGeneration e.generation
    modify (·.setEntry index ⟨.object ptr, some type, generation⟩)
    pure (entryToHandle index generation)

def getUserObject (s : State) (handle : UserHandle) (type : UserObject) : Ptr :=
  match handleToEntry s handle with
  | none => .null
  | some index =>
    match s.handles[index]? with
    | none => .null
    | some e => if e.type = some type then e.ptr else .null

def getUserFullHandle (s : State) (handle : UserHandle) : UserHandle :=
  if handle >>> 16 ≠ 0 then handle
  else
    match handleToEntry s handle with
    | none => handle
    | some index =>
      match s.handles[index]? with
      | none => handle
      | some e => entryToHandle index e.generation

def getUserObjectHandle (s : State) (handle : UserHandle) (type : UserObject) :
    Ptr × UserHandle :=
  match handleToEntry s handle with
  | none => (.null, handle)
  | some index =>
    match s.handles[index]? with
    | none => (.null, handle)
    | some e => if e.type = some type then (e.ptr, entryToHandle index e.generation)
      else (.null, handle)

def freeUserHandle (handle : UserHandle) : M Ptr := do
  let s ← get
  match handleToEntry s handle with
  | none =>
    set { s with error := statusInvalidHandle }
    pure .null
  | some index =>
    match s.handles[index]? with
    | none => throw .danglingPointer
    | some e => freeUserEntry index e

/-- The first entry of a type from an index on; without a type, the first entry. -/
def findEntry (handles : List HandleEntry) (type : Option UserObject) (start : ℕ) :
    Option (ℕ × HandleEntry) :=
  (handles.zipIdx.drop start).findSome? fun (e, i) =>
    if type = none ∨ e.type = type then some (i, e) else none

def nextUserHandle (s : State) (handle : UserHandle) (type : Option UserObject) :
    Option (Ptr × UserHandle) :=
  if handle ≠ 0 ∧ s.handles.length ≤ handleIndex handle then none
  else
    (findEntry s.handles type (if handle = 0 then 0 else handleIndex handle + 1)).map
      fun (i, e) => (e.ptr, entryToHandle i e.generation)

/-! ## Calls one after the other -/

inductive Action
  | allocUserHandle (ptr : ObjPtr) (type : UserObject) (mem : Bool)
  | freeUserHandle (handle : UserHandle)

/-- A handle with no generation part, or with one of all ones, stands for any generation. The lowest
bit is not looked at. -/
def LiveHandle.named (l : LiveHandle) (handle : UserHandle) : Bool :=
  decide (l.handle.extractLsb' 1 15 = handle.extractLsb' 1 15)
    && (decide (handleGeneration handle = handleGeneration l.handle)
      || decide (handleGeneration handle = 0) || decide (handleGeneration handle = 0xffff))

def act : Action → M PUnit
  | .allocUserHandle ptr type mem => do
    let handle ← allocUserHandle ptr type mem
    if handle ≠ 0 then modify fun s => { s with live := ⟨handle, ptr, type⟩ :: s.live }
  | .freeUserHandle handle => do
    let _ ← freeUserHandle handle
    modify fun s => { s with live := s.live.filter fun l => !l.named handle }

def step (s : State) (a : Action) : Except Fault State :=
  match act a s with
  | .ok (_, s') => .ok s'
  | .error e => .error e

end Wine.User
