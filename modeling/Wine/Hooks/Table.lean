import Wine.Lib.Runs
import Wine.Server.State

/-!
# Window hooks

The hook tables of threads and desktops, and the requests that add, remove and call hooks. A hook is
freed while it stands in no chain only; following a chain to a freed hook is a fault.
-/

namespace Wine.Hooks
open Wine.Lib
open Wine.Server (Status statusInvalidHandle statusInvalidParameter statusNoMemory intMax)

abbrev ThreadId := ℕ
abbrev ProcessId := ℕ
abbrev DesktopId := ℕ

/-- A hook's address, which also stands for its handle. -/
abbrev HookId := ℕ

def whMinhook : ℤ := -1
def whMaxhook : ℤ := 14
def whKeyboardLl : ℤ := 13
def whMouseLl : ℤ := 14
def whWinevent : ℤ := whMaxhook + 1

def wineventSkipownthread : BitVec 32 := 0x1
def wineventSkipownprocess : BitVec 32 := 0x2
def wineventIncontext : BitVec 32 := 0x4

/-- A thread's message queue and a desktop have a table each. -/
inductive TableId
  | queue (t : ThreadId)
  | global (d : DesktopId)
  deriving DecidableEq, Repr

structure Hook where
  process : Option ProcessId
  thread : Option ThreadId
  owner : ThreadId
  table : TableId
  index : ℕ
  eventMin : ℤ
  eventMax : ℤ
  flags : BitVec 32
  proc : Option ℕ
  unicode : ℤ
  module : List (BitVec 16)
  deriving DecidableEq, Repr

structure HookTable where
  hooks : ℕ → List HookId
  counts : ℕ → ℕ

/-- A start of a hook chain that its thread has not finished, with the table it was counted on. -/
structure Start where
  thread : ThreadId
  index : ℕ
  table : TableId
  deriving DecidableEq, Repr

/-- An event for an out of context hook, posted to the hook's owner. -/
structure WinEvent where
  event : ℤ
  win : ℕ
  objectId : ℤ
  childId : ℤ
  deriving DecidableEq, Repr

/-- `process` and `desktop` belong to the threads and do not change here; a thread need not have a
desktop. `starts` are the unfinished starts, the latest first. No request reads it. -/
structure State where
  process : ThreadId → ProcessId
  desktop : ThreadId → Option DesktopId
  hook : HookId → Option Hook
  next : HookId
  table : TableId → Option HookTable
  posted : List (HookId × WinEvent)
  error : Status
  starts : List Start

def State.initial (process : ThreadId → ProcessId) (desktop : ThreadId → Option DesktopId) :
    State where
  process := process
  desktop := desktop
  hook _ := none
  next := 1
  table _ := none
  posted := []
  error := 0
  starts := []

/-- `dangling` is a hook or table that is gone. -/
inductive Fault
  | assert | overflow | dangling
  deriving DecidableEq, Repr

abbrev M := Exec State Fault

def setError (e : Status) : M PUnit := modify fun s => { s with error := e }

def State.setTable (s : State) (id : TableId) (t : HookTable) : State :=
  { s with table := Function.update s.table id (some t) }

def State.setHook (s : State) (h : HookId) (hook : Option Hook) : State :=
  { s with hook := Function.update s.hook h hook }

def HookTable.setHooks (t : HookTable) (index : ℕ) (l : List HookId) : HookTable :=
  { t with hooks := Function.update t.hooks index l }

def HookTable.setCount (t : HookTable) (index n : ℕ) : HookTable :=
  { t with counts := Function.update t.counts index n }

def readHook (h : HookId) : M Hook := do
  let s ← get
  match s.hook h with
  | some hook => pure hook
  | none => throw .dangling

def readTable (id : TableId) : M HookTable := do
  let s ← get
  match s.table id with
  | some t => pure t
  | none => throw .dangling

def queueHooks (s : State) (t : ThreadId) : Option TableId :=
  if (s.table (.queue t)).isSome then some (.queue t) else none

def getGlobalHooks (s : State) (t : ThreadId) : Option TableId :=
  match s.desktop t with
  | some d => if (s.table (.global d)).isSome then some (.global d) else none
  | none => none

/-! ## Chains -/

def allocHookTable : HookTable := ⟨fun _ => [], fun _ => 0⟩

/-- `memTable` and `memHook` are the outcomes of the allocations of a table and of a hook with its
handle. -/
def addHook (id : TableId) (hook : Hook) (memTable memHook : Bool) : M (Option HookId) := do
  let s ← get
  if s.table id = none ∧ memTable = false then
    setError statusNoMemory
    pure none
  else
    let t := (s.table id).getD allocHookTable
    set (s.setTable id t)
    if memHook = false then
      setError statusNoMemory
      pure none
    else
      let h := s.next
      modify fun s => { (s.setHook h (some hook)).setTable id
        (t.setHooks hook.index (h :: t.hooks hook.index)) with next := h + 1 }
      pure (some h)

def freeHook (h : HookId) : M PUnit := do
  let hook ← readHook h
  let t ← readTable hook.table
  modify fun s => (s.setHook h none).setTable hook.table
    (t.setHooks hook.index ((t.hooks hook.index).filter (· ≠ h)))

def runHookInCurrentThread (s : State) (current : ThreadId) (hook : Hook) : Bool :=
  (hook.process.all fun p => decide (p = s.process current))
    && (decide (hook.flags &&& wineventSkipownprocess = 0)
      || decide (hook.process ≠ some (s.process current)))
    && (hook.thread.all fun t => decide (t = current))
    && (decide (hook.flags &&& wineventSkipownthread = 0) || decide (hook.thread ≠ some current))

def runHookInOwnerThread (current : ThreadId) (hook : Hook) : Bool :=
  (decide ((hook.index : ℤ) = whMouseLl - whMinhook)
    || decide ((hook.index : ℤ) = whKeyboardLl - whMinhook)) && decide (hook.owner ≠ current)

/-- The first hook of a chain that is to be called in place; an event is posted for every out of
context hook before it. -/
def firstValidHook (current : ThreadId) (e : WinEvent) : List HookId → M (Option (HookId × Hook))
  | [] => pure none
  | h :: chain => do
    let s ← get
    let hook ← readHook h
    if hook.proc ≠ none ∧ runHookInCurrentThread s current hook ∧
        hook.eventMin ≤ e.event ∧ e.event ≤ hook.eventMax then
      if hook.flags &&& wineventIncontext ≠ 0 then pure (some (h, hook))
      else if (hook.index : ℤ) + whMinhook ≠ whWinevent then throw .assert
      else
        modify fun s => { s with posted := s.posted ++ [(h, e)] }
        firstValidHook current e chain
    else firstValidHook current e chain

def getFirstValidHook (current : ThreadId) (table : Option TableId) (index : ℕ) (e : WinEvent) :
    M (Option (HookId × Hook)) := do
  match table with
  | none => pure none
  | some id =>
    let t ← readTable id
    firstValidHook current e (t.hooks index)

/-- The hooks behind `h`, then those of the global table. -/
def getNextHook (current : ThreadId) (h : HookId) (hook : Hook) (e : WinEvent) :
    M (Option (HookId × Hook)) := do
  let t ← readTable hook.table
  match ← firstValidHook current e ((t.hooks hook.index).dropWhile (· ≠ h)).tail with
  | some next => pure (some next)
  | none =>
    let s ← get
    let global := getGlobalHooks s current
    if global ≠ some hook.table then getFirstValidHook current global hook.index e else pure none

def removeHook (h : HookId) : M PUnit := do
  let hook ← readHook h
  let t ← readTable hook.table
  if t.counts hook.index ≠ 0 then
    -- chain is in use, just mark it and return
    modify (·.setHook h (some { hook with proc := none }))
  else freeHook h

def freeIfRemoved (h : HookId) : M PUnit := do
  let hook ← readHook h
  if hook.proc = none then freeHook h

/-- Release a hook chain, removing deleted hooks if the use count drops to 0. -/
def releaseHookChain (id : TableId) (index : ℕ) : M PUnit := do
  let t ← readTable id
  if t.counts index = 0 then setError statusInvalidParameter
  else
    modify (·.setTable id (t.setCount index (t.counts index - 1)))
    if t.counts index = 1 then forM (t.hooks index) freeIfRemoved

/-- The first hook of a thread with that procedure. -/
def findHook (s : State) (t : ThreadId) (index : ℕ) (proc : Option ℕ) : Option HookId :=
  (s.table (.queue t)).bind fun table =>
    (table.hooks index).find? fun h => decide ((s.hook h).map (·.proc) = some proc)

/-! ## Requests -/

def hookIndex (id : ℤ) : Option ℕ :=
  if id < whMinhook ∨ whWinevent < id then none else some (id - whMinhook).toNat

/-- The fields of `set_hook`, with the process and the thread that were found for its identifiers. -/
structure HookInfo where
  id : ℤ
  process : Option ProcessId
  thread : Option ThreadId
  eventMin : ℤ
  eventMax : ℤ
  flags : BitVec 32
  proc : Option ℕ
  unicode : ℤ
  module : List (BitVec 16)
  deriving DecidableEq, Repr

def setHook (current : ThreadId) (req : HookInfo) (memTable memHook : Bool) : M (Option HookId) := do
  let s ← get
  let lowLevel := decide (req.id = whKeyboardLl ∨ req.id = whMouseLl)
  let invalid := req.proc = none
    ∨ (req.process ≠ none ∧ req.thread ≠ none ∧ req.process ≠ req.thread.map s.process)
    -- low-level hardware hooks are always global
    ∨ (lowLevel ∧ req.thread ≠ none)
    -- out of context hooks do not need a module handle
    ∨ (¬ lowLevel ∧ req.thread = none ∧ req.module = [] ∧ req.flags &&& wineventIncontext ≠ 0)
  match hookIndex req.id with
  | none =>
    setError statusInvalidParameter
    pure none
  | some index =>
    match s.desktop current with
    | none => pure none
    | some d =>
      if invalid then
        setError statusInvalidParameter
        pure none
      else
        let table := match req.thread with
          | some t => .queue t
          | none => .global d
        addHook table
          { process := req.process
            thread := req.thread
            owner := current
            table := table
            index := index
            eventMin := req.eventMin
            eventMax := req.eventMax
            flags := req.flags
            proc := req.proc
            unicode := req.unicode
            module := if lowLevel ∨ req.thread ≠ none then [] else req.module } memTable memHook

def removeHookRequest (current : ThreadId) (handle : Option HookId) (id : ℤ) (proc : Option ℕ) :
    M PUnit := do
  let s ← get
  match handle with
  | some h => if s.hook h = none then setError statusInvalidHandle else removeHook h
  | none =>
    match hookIndex id, proc with
    | some index, some proc =>
      match findHook s current index (some proc) with
      | some h => removeHook h
      | none => setError statusInvalidParameter
    | _, _ => setError statusInvalidParameter

/-- What a thread is told of the hook it is to call; `owner` is the thread that runs a low-level
hook. -/
structure HookReply where
  handle : HookId
  index : ℕ
  owner : Option ThreadId
  proc : Option ℕ
  unicode : ℤ
  module : List (BitVec 16)
  deriving DecidableEq, Repr

def hookReply (current : ThreadId) (h : HookId) (hook : Hook) : HookReply where
  handle := h
  index := hook.index
  owner := if runHookInOwnerThread current hook then some hook.owner else none
  proc := hook.proc
  unicode := hook.unicode
  module := hook.module

def countStart (current : ThreadId) (table : TableId) (index : ℕ) : M PUnit := do
  let t ← readTable table
  if t.counts index < intMax then
    modify fun s => { s.setTable table (t.setCount index (t.counts index + 1)) with
      starts := ⟨current, index, table⟩ :: s.starts }
  else throw .overflow

def startHookChain (current : ThreadId) (id : ℤ) (e : WinEvent) : M (Option HookReply) := do
  match hookIndex id with
  | none =>
    setError statusInvalidParameter
    pure none
  | some index =>
    let s ← get
    let own := queueHooks s current
    match own, ← getFirstValidHook current own index e with
    | some table, some (h, hook) =>
      countStart current table hook.index
      pure (some (hookReply current h hook))
    | _, _ =>
      -- try global table
      let s ← get
      let global := getGlobalHooks s current
      match global, ← getFirstValidHook current global index e with
      | some table, some (h, hook) =>
        countStart current table hook.index
        pure (some (hookReply current h hook))
      | _, _ => pure none

def releaseIfAny (table : Option TableId) (index : ℕ) : M PUnit :=
  match table with
  | some id => releaseHookChain id index
  | none => pure ⟨⟩

/-- The thread is done with the chain that it started last. -/
def State.finish (s : State) (current : ThreadId) (index : ℕ) : State :=
  { s with starts := s.starts.eraseP fun p => p.thread = current ∧ p.index = index }

def finishHookChain (current : ThreadId) (id : ℤ) : M PUnit := do
  let s ← get
  match hookIndex id with
  | none => setError statusInvalidParameter
  | some index =>
    let own := queueHooks s current
    let global := getGlobalHooks s current
    set (s.finish current index)
    releaseIfAny own index
    releaseIfAny global index

def getNextHookRequest (current : ThreadId) (h : HookId) (e : WinEvent) : M (Option HookReply) := do
  let s ← get
  match s.hook h with
  | none => pure none
  | some hook =>
    if hook.thread ≠ none ∧ hook.thread ≠ some current then
      setError statusInvalidHandle
      pure none
    else
      match ← getNextHook current h hook e with
      | some (next, nextHook) => pure (some (hookReply current next nextHook))
      | none => pure none

/-! ## Requests one after the other -/

inductive Action
  | setHook (current : ThreadId) (req : HookInfo) (memTable memHook : Bool)
  | removeHook (current : ThreadId) (handle : Option HookId) (id : ℤ) (proc : Option ℕ)
  | startHookChain (current : ThreadId) (id : ℤ) (e : WinEvent)
  | finishHookChain (current : ThreadId) (id : ℤ)
  | getNextHook (current : ThreadId) (h : HookId) (e : WinEvent)

def act : Action → M PUnit
  | .setHook current req memTable memHook => do
    let _ ← setHook current req memTable memHook
  | .removeHook current handle id proc => removeHookRequest current handle id proc
  | .startHookChain current id e => do
    let _ ← startHookChain current id e
  | .finishHookChain current id => finishHookChain current id
  | .getNextHook current h e => do
    let _ ← getNextHookRequest current h e

def step (s : State) (a : Action) : Except Fault State :=
  match act a s with
  | .ok (_, s') => .ok s'
  | .error e => .error e

end Wine.Hooks
