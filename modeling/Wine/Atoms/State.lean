import Wine.Atoms.Table
import Wine.Lib.Exec
import Wine.Lib.Runs

/-!
# Window properties, window classes and atom requests

The part of the server that holds references to global atoms. Windows and classes stand in lists;
the classes of a process are the entries of the list that belong to it, in the same order.
-/

namespace Wine.Atoms
open Wine.Lib

abbrev ProcessId := ℕ
abbrev ClassId := ℕ
abbrev WindowId := ℕ

/-- A table a request works on: the global one or one made by `init_atom_table`. -/
abbrev TableRef := Option ℕ

inductive PropertyType where
  | free
  | string
  | atom
  deriving DecidableEq, Repr

structure Property where
  type : PropertyType
  atom : Atom
  handle : ℕ
  deriving DecidableEq, Repr

/-- `properties` are the entries in use or used before; `wclass` is `none` in a window that is
detached from its thread. -/
structure Window where
  handle : WindowId
  wclass : Option ClassId
  propAlloc : ℕ
  properties : List Property
  deriving DecidableEq, Repr

structure WindowClass where
  id : ClassId
  process : ProcessId
  count : ℤ
  isLocal : Bool
  atom : Atom
  inst : ℕ
  style : BitVec 32
  winExtra : ℤ
  nbExtraBytes : ℤ
  deriving DecidableEq, Repr

structure State where
  globalTable : Option AtomTable
  tables : List AtomTable
  windows : List Window
  classes : List WindowClass
  nextClass : ClassId
  error : Option Status

def State.initial : State := ⟨none, [], [], [], 0, none⟩

abbrev M := Exec State Fault

def setError (e : Status) : M PUnit := modify fun s => { s with error := some e }

/-! ## Tables -/

def State.table (s : State) : TableRef → Option AtomTable
  | none => s.globalTable
  | some i => s.tables[i]?

def State.setTable (s : State) (t : AtomTable) : TableRef → State
  | none => { s with globalTable := some t }
  | some i => { s with tables := s.tables.set i t }

/-- `get_global_table( NULL, create )`, as the success of the call. -/
def getGlobalTable (create : Bool) (mem : Allocations) : M Bool := do
  match (← get).globalTable with
  | some _ => pure true
  | none =>
    if create then
      if mem.table then
        modify fun s => s.setTable (createTable hashSize) none
        pure true
      else
        setError .noMemory
        pure false
    else
      setError .objectNameNotFound
      pure false

/-- `get_table`; a handle that is not 0 names a table of its own or nothing. -/
def getTable (ref : TableRef) (mem : Allocations) : M Bool := do
  match ref with
  | none => getGlobalTable true mem
  | some i =>
    if i < (← get).tables.length then pure true
    else
      setError .invalidHandle
      pure false

def report (e : Option Status) : M PUnit :=
  match e with
  | none => pure ⟨⟩
  | some e => setError e

section
variable (cm : CaseMap)

def addAtom (ref : TableRef) (str : List WChar) (client : Bool) (mem : Allocations) : M Atom := do
  match (← get).table ref with
  | none => pure 0
  | some t =>
    match t.addAtom cm str client mem with
    | .error e => throw e
    | .ok (atom, e, t) =>
      modify fun s => s.setTable t ref
      report e
      pure atom

def deleteAtom (ref : TableRef) (atom : Atom) (ifPinned : Bool) : M PUnit := do
  match (← get).table ref with
  | none => pure ⟨⟩
  | some t =>
    modify fun s => s.setTable (t.deleteAtom atom ifPinned).2 ref
    report (t.deleteAtom atom ifPinned).1

def addGlobalAtom (str : List WChar) (mem : Allocations) : M Atom := do
  if (← getGlobalTable true mem) then addAtom cm none str false mem
  else pure 0

def findGlobalAtom (str : List WChar) : M Atom := do
  let ok ← getGlobalTable false ⟨false, false, false⟩
  if str.length = 0 ∨ str.length > maxAtomLen ∨ ok = false then pure 0
  else
    match (← get).globalTable with
    | none => pure 0
    | some t =>
      match AtomTable.findAtomEntry cm t str (AtomTable.atomHash cm t str) with
      | some i => pure (atomOfIndex i)
      | none => pure 0

def grabGlobalAtom (atom : Atom) : M Bool := do
  if minStrAtom ≤ atom.toNat then
    if (← getGlobalTable false ⟨false, false, false⟩) then
      match (← get).globalTable with
      | none => pure false
      | some t =>
        match t.getAtomEntry atom with
        | none =>
          setError .invalidHandle
          pure false
        | some i =>
          match t.bump i false with
          | .error e => throw e
          | .ok t =>
            modify fun s => s.setTable t none
            pure true
    else pure false
  else pure true

def releaseGlobalAtom (atom : Atom) : M PUnit := do
  if minStrAtom ≤ atom.toNat then
    if (← getGlobalTable false ⟨false, false, false⟩) then deleteAtom none atom true

/-! ## Properties -/

/-- Replace the first element that satisfies `p`. -/
def updateFirst {α : Type} (p : α → Bool) (f : α → α) : List α → List α
  | [] => []
  | a :: l => if p a then f a :: l else a :: updateFirst p f l

def State.updateWindow (s : State) (h : WindowId) (f : Window → Window) : State :=
  { s with windows := updateFirst (·.handle = h) f s.windows }

def State.updateClass (s : State) (c : ClassId) (f : WindowClass → WindowClass) : State :=
  { s with classes := updateFirst (·.id = c) f s.classes }

def getWindow (h : WindowId) : M (Option Window) := do
  match (← get).windows.find? (·.handle = h) with
  | some win => pure (some win)
  | none =>
    setError .invalidWindowHandle
    pure none

def Property.inUse (p : Property) : Bool := p.type ≠ .free

def Property.names (p : Property) (atom : Atom) : Bool := p.inUse && p.atom = atom

/-- The free entry that the loop of `set_property` ends with, the last one. -/
def freeProperty (l : List Property) : Option ℕ :=
  (List.range l.length).reverse.find? fun i => (l[i]?).any fun p => !p.inUse

def setProperty (win : Window) (atom : Atom) (handle : ℕ) (type : PropertyType)
    (mem : Allocations) : M PUnit := do
  if win.properties.any (·.names atom) then
    modify fun s => s.updateWindow win.handle fun w =>
      { w with
        properties := updateFirst (·.names atom) (fun p => ⟨type, p.atom, handle⟩) w.properties }
  else
    if (← grabGlobalAtom atom) then
      match freeProperty win.properties with
      | some i =>
        modify fun s => s.updateWindow win.handle fun w =>
          { w with properties := w.properties.set i ⟨type, atom, handle⟩ }
      | none =>
        if win.properties.length ≥ win.propAlloc then
          if mem.object then
            modify fun s => s.updateWindow win.handle fun w =>
              { w with
                propAlloc := w.propAlloc + 16
                properties := w.properties ++ [⟨type, atom, handle⟩] }
          else
            setError .noMemory
            releaseGlobalAtom atom
        else
          modify fun s => s.updateWindow win.handle fun w =>
            { w with properties := w.properties ++ [⟨type, atom, handle⟩] }

def removeProperty (win : Window) (atom : Atom) : M ℕ := do
  match win.properties.find? (·.names atom) with
  | none => pure 0
  | some p =>
    releaseGlobalAtom atom
    modify fun s => s.updateWindow win.handle fun w =>
      { w with
        properties := updateFirst (·.names atom) (fun p => { p with type := .free }) w.properties }
    pure p.handle

def getProperty (win : Window) (atom : Atom) : ℕ :=
  match win.properties.find? (·.names atom) with
  | none => 0
  | some p => p.handle

/-- `destroy_properties`; the array goes away with the window. -/
def destroyProperties : List Property → M PUnit
  | [] => pure ⟨⟩
  | p :: l => do
    if p.inUse then releaseGlobalAtom p.atom
    destroyProperties l

def setWindowProperty (window : WindowId) (atom : Atom) (handle : ℕ) (name : List WChar)
    (mem : Allocations) : M PUnit := do
  match ← getWindow window with
  | none => pure ⟨⟩
  | some win =>
    if name.length ≠ 0 then
      let atom ← addGlobalAtom cm name mem
      if atom ≠ 0 then
        setProperty win atom handle .string mem
        releaseGlobalAtom atom
    else setProperty win atom handle .atom mem

def removeWindowProperty (window : WindowId) (atom : Atom) (name : List WChar) : M ℕ := do
  match ← getWindow window with
  | none => pure 0
  | some win =>
    let atom ← if name.length ≠ 0 then findGlobalAtom cm name else pure atom
    if atom ≠ 0 then removeProperty win atom else pure 0

def getWindowProperty (window : WindowId) (atom : Atom) (name : List WChar) : M ℕ := do
  match ← getWindow window with
  | none => pure 0
  | some win =>
    let atom ← if name.length ≠ 0 then findGlobalAtom cm name else pure atom
    if atom ≠ 0 then pure (getProperty win atom) else pure 0

end

/-! ## Classes -/

def findClass (process : ProcessId) (atom : Atom) (inst : ℕ) (l : List WindowClass) :
    Option WindowClass :=
  l.find? fun c => c.process = process && c.atom = atom &&
    (inst = 0 || !c.isLocal || c.inst = inst)

def grabClass (process : ProcessId) (atom : Atom) (inst : ℕ) : M (Option ClassId) := do
  match findClass process atom inst (← get).classes with
  | none =>
    setError .invalidHandle
    pure none
  | some c =>
    if c.count = intMax then throw .overflow
    modify fun s => s.updateClass c.id fun c => { c with count := c.count + 1 }
    pure (some c.id)

def releaseClass (id : ClassId) : M PUnit := do
  match (← get).classes.find? (·.id = id) with
  | none => throw .assertion
  | some c =>
    if c.count > 0 then
      modify fun s => s.updateClass id fun c => { c with count := c.count - 1 }
    else throw .assertion

structure ClassArgs where
  isLocal : Bool
  atom : Atom
  inst : ℕ
  style : BitVec 32
  extra : ℤ
  winExtra : ℤ
  deriving DecidableEq, Repr

/-- Local classes come first in the list. -/
def State.addClass (s : State) (c : WindowClass) : State :=
  { s with
    classes := if c.isLocal then c :: s.classes else s.classes ++ [c]
    nextClass := s.nextClass + 1 }

def createClass (process : ProcessId) (req : ClassArgs) (mem : Allocations) : M PUnit := do
  let found := findClass process req.atom req.inst (← get).classes
  if found.any fun c => c.isLocal = req.isLocal then setError .classAlreadyExists
  else if req.extra < 0 ∨ req.extra > 4096 ∨ req.winExtra < 0 ∨ req.winExtra > 4096 then
    setError .invalidParameter
  else
    if (← grabGlobalAtom req.atom) then
      if mem.object then
        modify fun s => s.addClass ⟨s.nextClass, process, 0, req.isLocal, req.atom, req.inst,
          req.style, req.winExtra, req.extra⟩
      else
        setError .noMemory
        releaseGlobalAtom req.atom

/-- The static `destroy_class`. -/
def dropClass (c : WindowClass) : M PUnit :=
  modify fun s => { s with classes := s.classes.erase c }

def destroyClass (process : ProcessId) (atom : Atom) (inst : ℕ) : M PUnit := do
  match findClass process atom inst (← get).classes with
  | none => setError .classDoesNotExist
  | some c =>
    if c.count ≠ 0 then setError .classHasWindows
    else dropClass c

def destroyProcessClasses (process : ProcessId) : M PUnit :=
  modify fun s => { s with classes := s.classes.filter (·.process ≠ process) }

/-- A `set_class_info` request; the fields that are `some` are the ones whose flag is set. -/
structure ClassInfo where
  atom : Option Atom
  style : Option (BitVec 32)
  winExtra : Option ℤ
  inst : Option ℕ
  setExtra : Bool
  extraOffset : ℤ
  extraSize : ℤ
  deriving DecidableEq, Repr

def ClassInfo.flags (req : ClassInfo) : Bool :=
  req.atom.isSome || req.style.isSome || req.winExtra.isSome || req.inst.isSome || req.setExtra

/-- `sizeof(req->extra_value)` -/
def extraValueSize : ℤ := 4

def setClassInfo (process : ProcessId) (window : WindowId) (req : ClassInfo) : M PUnit := do
  match ← getWindow window with
  | none => pure ⟨⟩
  | some win =>
    let classes := (← get).classes
    match win.wclass.bind fun id => classes.find? (·.id = id) with
    | none => setError .accessDenied
    | some c =>
      if req.flags && c.process ≠ process then setError .accessDenied
      else if req.extraSize > extraValueSize ∨ req.extraOffset < -1 ∨
          req.extraOffset > c.nbExtraBytes - req.extraSize then
        setError .invalidIndex
      else if req.winExtra.any fun n => n < 0 ∨ n > 4096 then setError .invalidParameter
      else if req.extraOffset = -1 ∧ req.setExtra = true then setError .invalidIndex
      else
        let set (atom : Atom) : M PUnit := modify fun s => s.updateClass c.id fun c =>
          { c with
            atom := atom
            style := req.style.getD c.style
            winExtra := req.winExtra.getD c.winExtra
            inst := req.inst.getD c.inst }
        match req.atom with
        | none => set c.atom
        | some atom =>
          if (← grabGlobalAtom atom) then
            releaseGlobalAtom c.atom
            set atom

/-! ## Windows -/

/-- `create_window` with the handle it allocates; `ok` is the outcome of everything that is
checked after the class was found. -/
def createWindow (process : ProcessId) (window : WindowId) (atom : Atom) (inst : ℕ) (ok : Bool) :
    M PUnit := do
  match ← grabClass process atom inst with
  | none => pure ⟨⟩
  | some id =>
    if ok && ((← get).windows.find? (·.handle = window)).isNone then
      modify fun s => { s with windows := ⟨window, some id, 0, []⟩ :: s.windows }
    else
      setError .accessDenied
      releaseClass id

/-- `detach_window_thread`, as far as the class is concerned. -/
def detachWindow (window : WindowId) : M PUnit := do
  match ← getWindow window with
  | none => pure ⟨⟩
  | some win =>
    match win.wclass with
    | none => pure ⟨⟩
    | some id =>
      releaseClass id
      modify fun s => s.updateWindow window fun w => { w with wclass := none }

/-- What `destroy_window` does once the window has no children left. -/
def destroyWindow (window : WindowId) : M PUnit := do
  match ← getWindow window with
  | none => pure ⟨⟩
  | some win =>
    destroyProperties win.properties
    match win.wclass with
    | none => pure ⟨⟩
    | some id => releaseClass id
    modify fun s => { s with windows := s.windows.eraseP (·.handle = window) }

/-! ## Requests -/

inductive Request
  | setWindowProperty (window : WindowId) (atom : Atom) (handle : ℕ) (name : List WChar)
      (mem : Allocations)
  | removeWindowProperty (window : WindowId) (atom : Atom) (name : List WChar)
  | getWindowProperty (window : WindowId) (atom : Atom) (name : List WChar)
  | createClass (process : ProcessId) (req : ClassArgs) (mem : Allocations)
  | destroyClass (process : ProcessId) (atom : Atom) (inst : ℕ)
  | destroyProcessClasses (process : ProcessId)
  | setClassInfo (process : ProcessId) (window : WindowId) (req : ClassInfo)
  | createWindow (process : ProcessId) (window : WindowId) (atom : Atom) (inst : ℕ) (ok : Bool)
  | detachWindow (window : WindowId)
  | destroyWindow (window : WindowId)
  | addAtom (table : TableRef) (name : List WChar) (mem : Allocations)
  | deleteAtom (table : TableRef) (atom : Atom) (mem : Allocations)
  | findAtom (table : TableRef) (name : List WChar) (mem : Allocations)
  | getAtomInformation (table : TableRef) (atom : Atom) (mem : Allocations)
  | setAtomInformation (table : TableRef) (atom : Atom) (pinned : Bool) (mem : Allocations)
  | initAtomTable (entries : ℤ) (mem : Allocations)
  | emptyAtomTable (table : TableRef) (ifPinned : Bool) (mem : Allocations)

section
variable (cm : CaseMap)

def handleDeleteAtom (table : TableRef) (atom : Atom) (mem : Allocations) : M PUnit := do
  if (← getTable table mem) then deleteAtom table atom false

def handleAddAtom (table : TableRef) (name : List WChar) (mem : Allocations) : M Atom := do
  if (← getTable table mem) then addAtom cm table name true mem else pure 0

def handleFindAtom (table : TableRef) (name : List WChar) (mem : Allocations) : M Atom := do
  if (← getTable table mem) then
    match (← get).table table with
    | none => pure 0
    | some t =>
      report (t.findAtom cm name).2
      pure (t.findAtom cm name).1
  else pure 0

/-- The count and the pin of an atom; the count is -1 if there is no such atom. -/
def handleGetAtomInformation (table : TableRef) (atom : Atom) (mem : Allocations) :
    M (ℤ × Bool) := do
  if (← getTable table mem) then
    match (← get).table table with
    | none => pure (-1, false)
    | some t =>
      match (t.getAtomEntry atom).bind t.entry with
      | some e => pure (e.count, e.pinned)
      | none =>
        setError .invalidHandle
        pure (-1, false)
  else pure (0, false)

def handleSetAtomInformation (table : TableRef) (atom : Atom) (pinned : Bool)
    (mem : Allocations) : M PUnit := do
  if (← getTable table mem) then
    match (← get).table table with
    | none => pure ⟨⟩
    | some t =>
      match t.getAtomEntry atom with
      | none => setError .invalidHandle
      | some i =>
        match t.entry i with
        | none => pure ⟨⟩
        | some e =>
          if pinned then
            modify fun s => s.setTable (t.setEntry i (some { e with pinned := true })) table

def handleInitAtomTable (entries : ℤ) (mem : Allocations) : M PUnit := do
  if mem.table then modify fun s => { s with tables := s.tables ++ [createTable entries] }
  else setError .noMemory

def handleEmptyAtomTable (table : TableRef) (ifPinned : Bool) (mem : Allocations) : M PUnit := do
  if (← getTable table mem) then
    match (← get).table table with
    | none => pure ⟨⟩
    | some t => modify fun s => s.setTable (t.emptyAtomTable ifPinned) table

def act : Request → M PUnit
  | .setWindowProperty window atom handle name mem =>
    setWindowProperty cm window atom handle name mem
  | .removeWindowProperty window atom name => do
    let _ ← removeWindowProperty cm window atom name
  | .getWindowProperty window atom name => do
    let _ ← getWindowProperty cm window atom name
  | .createClass process req mem => createClass process req mem
  | .destroyClass process atom inst => destroyClass process atom inst
  | .destroyProcessClasses process => destroyProcessClasses process
  | .setClassInfo process window req => setClassInfo process window req
  | .createWindow process window atom inst ok => createWindow process window atom inst ok
  | .detachWindow window => detachWindow window
  | .destroyWindow window => destroyWindow window
  | .addAtom table name mem => do
    let _ ← handleAddAtom cm table name mem
  | .deleteAtom table atom mem => handleDeleteAtom table atom mem
  | .findAtom table name mem => do
    let _ ← handleFindAtom cm table name mem
  | .getAtomInformation table atom mem => do
    let _ ← handleGetAtomInformation table atom mem
  | .setAtomInformation table atom pinned mem => handleSetAtomInformation table atom pinned mem
  | .initAtomTable entries mem => handleInitAtomTable entries mem
  | .emptyAtomTable table ifPinned mem => handleEmptyAtomTable table ifPinned mem

def step (s : State) (r : Request) : Except Fault State :=
  (fun r => r.2) <$> act cm r { s with error := none }

end

end Wine.Atoms
