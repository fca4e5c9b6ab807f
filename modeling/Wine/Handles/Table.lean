import Mathlib.Algebra.BigOperators.Option
import Wine.Server.State
import Wine.Lib.Runs

/-!
# Handle tables

The tables that map the handles of a process to objects, with the table of global handles that all
processes share. The block of entries is a function of the index; what a grown block holds beyond
the copied part is an input of the step, as `realloc` does not initialize it.
-/

namespace Wine.Handles
open Wine.Lib
open Wine.Server (ObjId Access Status statusInvalidHandle statusAccessDenied statusNoMemory intMax
  standardRightsAll memAllocFill)

abbrev ProcessId := ℕ

/-- The handle table of a process, or the global one. -/
abbrev TableId := Option ProcessId

abbrev ObjHandle := BitVec 32

def statusHandleNotClosable : Status := 0xC0000235
def minHandleEntries : ℕ := 32
def reservedShift : ℕ := 26
def reservedInherit : Access := 1 <<< reservedShift
def reservedCloseProtect : Access := 2 <<< reservedShift
def reservedAll : Access := reservedInherit ||| reservedCloseProtect
def specificRightsAll : Access := 0xffff

structure HandleEntry where
  ptr : Option ObjId
  access : Access
  fd : ℤ
  deriving DecidableEq, Repr

/-- `last` is the last used entry and `free` the first that may be free. -/
structure HandleTable where
  process : TableId
  count : ℕ
  last : ℤ
  free : ℕ
  entries : ℕ → HandleEntry

/-- A handle that was handed out and not closed since, with the object it was allocated for. -/
structure LiveHandle where
  table : TableId
  handle : ObjHandle
  obj : ObjId
  deriving DecidableEq, Repr

/-- `others` is the part of the reference counts that handle tables do not own, and `live` the
handles that clients hold. The code of this module reads neither. -/
structure State where
  refcount : ObjId → ℕ
  others : ObjId → ℕ
  table : TableId → Option HandleTable
  nextProcess : ProcessId
  error : Status
  live : List LiveHandle

def State.initial : State where
  refcount _ := 0
  others _ := 0
  table _ := none
  nextProcess := 0
  error := 0
  live := []

inductive Fault
  | grabObject | releaseObject
  deriving DecidableEq, Repr

abbrev M := Exec State Fault

def setError (e : Status) : M PUnit := modify fun s => { s with error := e }

def State.setTable (s : State) (id : TableId) (t : Option HandleTable) : State :=
  { s with table := Function.update s.table id t }

def State.setRefcount (s : State) (o : ObjId) (n : ℕ) : State :=
  { s with refcount := Function.update s.refcount o n }

def grabObject (o : ObjId) : M PUnit := do
  let s ← get
  if s.refcount o < intMax then set (s.setRefcount o (s.refcount o + 1))
  else throw .grabObject

def releaseObject (o : ObjId) : M PUnit := do
  let s ← get
  if s.refcount o = 0 then throw .releaseObject
  else set (s.setRefcount o (s.refcount o - 1))

/-! ## Conversions -/

def indexToHandle (index : ℕ) : ObjHandle := BitVec.ofNat 32 (index + 1) <<< 2

def handleToIndex (handle : ObjHandle) : ℤ := ((handle >>> 2).toNat : ℤ) - 1

def handleObfuscator : ObjHandle := 0x544a4def

def handleIsGlobal (handle : ObjHandle) : Bool :=
  decide ((handle ^^^ handleObfuscator).toNat < 0x10000)

def handleLocalToGlobal (handle : ObjHandle) : ObjHandle :=
  if handle = 0 then 0 else handle ^^^ handleObfuscator

def handleGlobalToLocal (handle : ObjHandle) : ObjHandle := handle ^^^ handleObfuscator

/-! ## Allocation -/

/-- What `mem_alloc` leaves in an entry. -/
def fillEntry : HandleEntry := ⟨some memAllocFill, BitVec.ofNat 32 memAllocFill, memAllocFill⟩

def allocHandleTable (process : TableId) (count : ℕ) : HandleTable where
  process := process
  count := if count < minHandleEntries then minHandleEntries else count
  last := -1
  free := 0
  entries _ := fillEntry

/-- What `realloc` returns when it grows a block: the contents of the new part, or nothing. -/
abbrev Grown := Option (ℕ → HandleEntry)

def HandleTable.grown (t : HandleTable) (fill : ℕ → HandleEntry) : HandleTable :=
  { t with
    count := 2 * t.count
    entries := fun i => if i < t.count then t.entries i else fill i }

def growHandleTable (t : HandleTable) (mem : Grown) : M (Option HandleTable) := do
  if intMax / 2 ≤ t.count then pure none
  else
    match mem with
    | none =>
      setError statusNoMemory
      pure none
    | some fill => pure (some (t.grown fill))

/-- The search loop of `alloc_entry`, entered at `i` with `n` rounds to go. -/
def HandleTable.searchFrom (t : HandleTable) : ℕ → ℕ → ℕ
  | 0, i => i
  | n + 1, i => if (t.entries i).ptr = none then i else t.searchFrom n (i + 1)

/-- Where the search loop of `alloc_entry` stops. -/
def HandleTable.search (t : HandleTable) : ℕ :=
  t.searchFrom (t.last + 1 - t.free).toNat t.free

/-- `alloc_entry` after the label `found`. -/
def HandleTable.install (t : HandleTable) (i : ℕ) (o : ObjId) (access : Access) : HandleTable :=
  { t with free := i + 1, entries := Function.update t.entries i ⟨some o, access, -1⟩ }

def useEntry (id : TableId) (t : HandleTable) (i : ℕ) (o : ObjId) (access : Access) :
    M ObjHandle := do
  grabObject o
  modify (·.setTable id (some (t.install i o access)))
  pure (indexToHandle i)

def allocEntry (id : TableId) (t : HandleTable) (o : ObjId) (access : Access) (mem : Grown) :
    M ObjHandle := do
  if (t.search : ℤ) ≤ t.last then useEntry id t t.search o access
  else if t.search < t.count then useEntry id { t with last := t.search } t.search o access
  else
    match ← growHandleTable t mem with
    | none => pure 0
    | some t' => useEntry id { t' with last := t.search } t.search o access

section
variable (mapAccess : ObjId → Access → Access)

def allocHandle (p : ProcessId) (o : ObjId) (access : Access) (inherit : Bool) (mem : Grown) :
    M ObjHandle := do
  let access := mapAccess o access &&& ~~~reservedAll
  let access := if inherit then access ||| reservedInherit else access
  let s ← get
  match s.table (some p) with
  | none =>
    setError statusNoMemory
    pure 0
  | some t => allocEntry (some p) t o access mem

/-- `memTable` is the outcome of the allocation of the global table. -/
def allocGlobalHandle (o : ObjId) (access : Access) (memTable : Bool) (mem : Grown) :
    M ObjHandle := do
  let s ← get
  match s.table none with
  | none =>
    if memTable then
      modify (·.setTable none (some (allocHandleTable none 0)))
      return handleLocalToGlobal (← allocEntry none (allocHandleTable none 0) o access mem)
    else
      setError statusNoMemory
      pure 0
  | some t => return handleLocalToGlobal (← allocEntry none t o access mem)

/-! ## Lookup -/

/-- Where `get_handle` finds an entry. -/
structure Found where
  id : TableId
  table : HandleTable
  index : ℕ
  obj : ObjId

def Found.entry (f : Found) : HandleEntry := f.table.entries f.index

def tableOf (p : ProcessId) (handle : ObjHandle) : TableId :=
  if handleIsGlobal handle then none else some p

def indexOf (handle : ObjHandle) : ℤ :=
  handleToIndex (if handleIsGlobal handle then handleGlobalToLocal handle else handle)

/-- `get_handle` without its error code. -/
def State.getHandle (s : State) (p : ProcessId) (handle : ObjHandle) : Option Found :=
  match s.table (tableOf p handle) with
  | none => none
  | some t =>
    if indexOf handle < 0 ∨ t.last < indexOf handle then none
    else
      match (t.entries (indexOf handle).toNat).ptr with
      | none => none
      | some o => some ⟨tableOf p handle, t, (indexOf handle).toNat, o⟩

/-- `thread` and `process` are the current ones. -/
def getMagicHandle (thread process : ObjId) (handle : ObjHandle) : Option ObjId :=
  if handle = 0xfffffffe then some thread
  else if handle = 0x7fffffff ∨ handle = 0xffffffff then some process
  else none

/-- `get_handle_obj` without a check of the object's kind. -/
def getHandleObj (thread process : ObjId) (p : ProcessId) (handle : ObjHandle) (access : Access) :
    M (Option ObjId) := do
  match getMagicHandle thread process handle with
  | some o =>
    grabObject o
    pure (some o)
  | none =>
    let s ← get
    match s.getHandle p handle with
    | none =>
      setError statusInvalidHandle
      pure none
    | some f =>
      if f.entry.access &&& access ≠ access then
        setError statusAccessDenied
        pure none
      else
        grabObject f.obj
        pure (some f.obj)

/-! ## Closing -/

/-- The loop of `shrink_handle_table`, with `n` for `last + 1`. -/
def lastUsed (entries : ℕ → HandleEntry) : ℕ → ℤ
  | 0 => -1
  | n + 1 => if (entries n).ptr = none then lastUsed entries n else n

/-- `mem` is the outcome of `realloc`. -/
def shrinkHandleTable (t : HandleTable) (mem : Bool) : HandleTable :=
  let last := lastUsed t.entries (t.last + 1).toNat
  if ((t.count / 4 : ℕ) : ℤ) ≤ last ∨ t.count < minHandleEntries * 2 ∨ !mem then
    { t with last := last }
  else { t with last := last, count := t.count / 2 }

def HandleTable.setEntry (t : HandleTable) (i : ℕ) (e : HandleEntry) : HandleTable :=
  { t with entries := Function.update t.entries i e }

/-- The assignments of `close_handle` to the table once it may drop the entry. -/
def HandleTable.close (t : HandleTable) (i : ℕ) (mem : Bool) : HandleTable :=
  let t' := { t.setEntry i { t.entries i with ptr := none, fd := -1 } with
    free := if i < t.free then i else t.free }
  if (i : ℤ) = t.last then shrinkHandleTable t' mem else t'

/-- `close_handle`. `fd` says whether the caller takes the cached fd back, and `closable` is what the
`close_handle` operation of the object answers. -/
def closeHandle (p : ProcessId) (handle : ObjHandle) (fd closable mem : Bool) : M Bool := do
  let s ← get
  match s.getHandle p handle with
  | none =>
    setError statusInvalidHandle
    pure false
  | some f =>
    if f.entry.access &&& reservedCloseProtect ≠ 0 ∨ !closable then
      setError statusHandleNotClosable
      pure false
    else if !fd ∧ f.entry.fd ≠ -1 then
      set (s.setTable f.id (some (f.table.setEntry f.index { f.entry with ptr := none })))
      pure true
    else
      set (s.setTable f.id (some (f.table.close f.index mem)))
      releaseObject f.obj
      pure true

/-- The objects in the entries `0 .. last`. -/
def HandleTable.objects (t : HandleTable) : List ObjId :=
  (List.range (t.last + 1).toNat).filterMap fun i => (t.entries i).ptr

/-- `process_killed` as far as the handle table goes: it is detached from the process and
`handle_table_destroy` releases what it holds. -/
def destroyHandleTable (p : ProcessId) : M PUnit := do
  let s ← get
  match s.table (some p) with
  | none => pure ⟨⟩
  | some t =>
    set (s.setTable (some p) none)
    forM t.objects releaseObject

/-! ## Inheritance -/

/-- An entry of the parent as the child starts with it. -/
def inheritEntry (e : HandleEntry) : HandleEntry :=
  if e.ptr = none then e
  else if e.access &&& reservedInherit ≠ 0 then { e with fd := -1 }
  else { e with ptr := none, fd := -1 }

/-- `copy_handle_table` for the process `p`; `mem` and `memShrink` are the outcomes of its
allocations. -/
def copyHandleTable (p : ProcessId) (parent : HandleTable) (mem memShrink : Bool) :
    M PUnit := do
  if !mem then setError statusNoMemory
  else
    let t := allocHandleTable (some p) parent.count
    let t := { t with
      last := parent.last
      entries := fun i =>
        if (i : ℤ) ≤ parent.last then inheritEntry (parent.entries i) else t.entries i }
    forM t.objects grabObject
    modify (·.setTable (some p) (some (shrinkHandleTable t memShrink)))

/-! ## Other requests -/

def setHandleUnixFd (p : ProcessId) (handle : ObjHandle) (fd : ℤ) : M ℤ := do
  if handleIsGlobal handle then pure (-1)
  else
    let s ← get
    match s.getHandle p handle with
    | none =>
      setError statusInvalidHandle
      pure (-1)
    | some f =>
      if f.entry.fd = -1 then
        set (s.setTable f.id (some (f.table.setEntry f.index { f.entry with fd := fd })))
        pure fd
      else pure f.entry.fd

def flushCachedFd (p : ProcessId) (handle : ObjHandle) : M ℤ := do
  let s ← get
  match s.getHandle p handle with
  | none =>
    setError statusInvalidHandle
    pure (-1)
  | some f =>
    set (s.setTable f.id (some (f.table.setEntry f.index { f.entry with fd := -1 })))
    pure f.entry.fd

/-- `set_handle_flags` of a handle that is not a pseudo-handle. -/
def setHandleFlags (p : ProcessId) (handle : ObjHandle) (mask flags : Access) : M PUnit := do
  let s ← get
  match s.getHandle p handle with
  | none => setError statusInvalidHandle
  | some f =>
    let mask := (mask <<< reservedShift) &&& reservedAll
    let flags := (flags <<< reservedShift) &&& mask
    set (s.setTable f.id (some (f.table.setEntry f.index
      { f.entry with access := (f.entry.access &&& ~~~mask) ||| flags })))

structure DuplicateOptions where
  sameAccess : Bool
  makeGlobal : Bool
  deriving DecidableEq, Repr

def duplicateHandle (thread process : ObjId) (src : ProcessId) (srcHandle : ObjHandle)
    (dst : ProcessId) (access : Access) (inherit : Bool) (options : DuplicateOptions)
    (memTable : Bool) (mem : Grown) : M (ObjId × ObjHandle) := do
  match ← getHandleObj thread process src srcHandle 0 with
  | none => pure (0, 0)
  | some o =>
    let s ← get
    let access :=
      if options.sameAccess then
        match s.getHandle src srcHandle with
        | some f => f.entry.access
        | none => standardRightsAll ||| specificRightsAll
      else access
    let access := access &&& ~~~reservedAll
    let res ←
      if options.makeGlobal then allocGlobalHandle o access memTable mem
      else allocHandle mapAccess dst o access inherit mem
    releaseObject o
    pure (o, res)

end

end Wine.Handles

/-!
## Runs over handle tables

What clients and the other parts of the server do with handle tables, one call after the other. The
other parts hold references of their own, counted by `others`; a call that would need a reference
nobody holds is not made.
-/

namespace Wine.Handles
open Wine.Lib
open Wine.Server (ObjId Access)

/-- The `Bool` fields whose names start with `mem` and the fields of type `Grown` are the outcomes of
allocations; `fd` and `closable` are those of `closeHandle`. -/
inductive Action
  | createObject (o : ObjId)
  | grab (o : ObjId)
  | release (o : ObjId)
  | newProcess (mem : Bool)
  | inheritProcess (parent : ProcessId) (mem memShrink : Bool)
  | exitProcess (p : ProcessId)
  | allocHandle (p : ProcessId) (o : ObjId) (access : Access) (inherit : Bool) (mem : Grown)
  | duplicateHandle (thread process : ObjId) (src : ProcessId) (srcHandle : ObjHandle)
      (dst : ProcessId) (access : Access) (inherit : Bool) (options : DuplicateOptions)
      (memTable : Bool) (mem : Grown)
  | closeHandle (p : ProcessId) (handle : ObjHandle) (fd closable mem : Bool)
  | setHandleUnixFd (p : ProcessId) (handle : ObjHandle) (fd : ℤ)
  | flushCachedFd (p : ProcessId) (handle : ObjHandle)
  | setHandleFlags (p : ProcessId) (handle : ObjHandle) (mask flags : Access)

def State.setOthers (s : State) (o : ObjId) (n : ℕ) : State :=
  { s with others := Function.update s.others o n }

/-- A handle that was returned for `o` is live from now on. -/
def State.issue (s : State) (id : TableId) (handle : ObjHandle) (o : ObjId) : State :=
  if handle = 0 then s else { s with live := ⟨id, handle, o⟩ :: s.live }

/-- `handle`, given by a thread of `p`, names the live handle. The two low bits of a handle are not
looked at. -/
def LiveHandle.named (l : LiveHandle) (p : ProcessId) (handle : ObjHandle) : Bool :=
  decide (l.handle >>> 2 = handle >>> 2) && (decide (l.table = none) || decide (l.table = some p))

def newProcess (mem : Bool) : M PUnit := do
  let s ← get
  if mem then
    set { s.setTable (some s.nextProcess) (some (allocHandleTable (some s.nextProcess) 0)) with
      nextProcess := s.nextProcess + 1 }

def inheritProcess (parent : ProcessId) (mem memShrink : Bool) : M PUnit := do
  let s ← get
  match s.table (some parent) with
  | none => pure ⟨⟩
  | some t =>
    set { s with nextProcess := s.nextProcess + 1 }
    copyHandleTable s.nextProcess t mem memShrink

section
variable (mapAccess : ObjId → Access → Access)

def act : Action → M PUnit
  | .createObject o => modify fun s =>
    if s.refcount o = 0 ∧ s.others o = 0 then (s.setRefcount o 1).setOthers o 1 else s
  | .grab o => do
    let s ← get
    if 0 < s.others o then
      grabObject o
      modify fun s => s.setOthers o (s.others o + 1)
  | .release o => do
    let s ← get
    if 0 < s.others o then
      releaseObject o
      modify fun s => s.setOthers o (s.others o - 1)
  | .newProcess mem => newProcess mem
  | .inheritProcess parent mem memShrink => inheritProcess parent mem memShrink
  | .exitProcess p => do
    destroyHandleTable p
    modify fun s => { s with live := s.live.filter fun l => l.table ≠ some p }
  | .allocHandle p o access inherit mem => do
    let s ← get
    if 0 < s.others o then
      let handle ← allocHandle mapAccess p o access inherit mem
      modify (·.issue (some p) handle o)
  | .duplicateHandle thread process src srcHandle dst access inherit options memTable mem => do
    let s ← get
    if 0 < s.others thread ∧ 0 < s.others process then
      let r ← duplicateHandle mapAccess thread process src srcHandle dst access inherit options
        memTable mem
      modify (·.issue (if options.makeGlobal then none else some dst) r.2 r.1)
  | .closeHandle p handle fd closable mem => do
    if ← closeHandle p handle fd closable mem then
      modify fun s => { s with live := s.live.filter fun l => !l.named p handle }
  | .setHandleUnixFd p handle fd => do
    let _ ← setHandleUnixFd p handle fd
  | .flushCachedFd p handle => do
    let _ ← flushCachedFd p handle
  | .setHandleFlags p handle mask flags => setHandleFlags p handle mask flags

def step (s : State) (a : Action) : Except Fault State :=
  match act mapAccess a s with
  | .ok (_, s') => .ok s'
  | .error e => .error e

variable {mapAccess}

theorem wp_of_step {a : Action} {Q : PUnit → State → Prop} {E : Fault → Prop} {s s' : State}
    (h : wp (act mapAccess a) Q E s) (hst : step mapAccess s a = .ok s') : Q ⟨⟩ s' := by
  unfold step at hst
  cases hm : act mapAccess a s with
  | error e => simp only [hm, reduceCtorEq] at hst
  | ok r =>
    simp only [hm, Except.ok.injEq] at hst
    subst hst
    exact wp_of_ok h hm

theorem exists_step_of_wp {a : Action} {Q : PUnit → State → Prop} {s : State}
    (h : wp (act mapAccess a) Q (fun _ => False) s) :
    ∃ s', step mapAccess s a = .ok s' ∧ Q ⟨⟩ s' := by
  unfold step
  cases hm : act mapAccess a s with
  | error e => exact (wp_of_error h hm).elim
  | ok r => exact ⟨r.2, rfl, wp_of_ok h hm⟩

end

end Wine.Handles
