import Mathlib.Algebra.Group.Nat.Defs
import Wine.Lib.Exec

/-!
# Kernel objects, threads and processes of the server

The part of the server's state that waiting, waking and thread death read and write. Objects,
threads and processes share one space of identifiers, as every thread and process starts with an
object header. Pointers are identifiers, which are never used twice, so a pointer to freed memory is
an identifier that is no longer where it was. Times are in microseconds.
-/

namespace Wine.Server
open Wine.Lib

abbrev ObjId := ℕ
abbrev Handle := ℕ
abbrev Cookie := ℕ
abbrev Status := ℕ
abbrev Time := ℕ
abbrev Access := BitVec 32

/-! ## Constants -/

def statusSuccess : Status := 0
def statusAbandonedWait0 : Status := 0x80
def statusUserApc : Status := 0xC0
def statusTimeout : Status := 0x102
def statusPending : Status := 0x103
def statusInvalidHandle : Status := 0xC0000008
def statusInvalidParameter : Status := 0xC000000D
def statusNoMemory : Status := 0xC0000017
def statusAccessDenied : Status := 0xC0000022
def statusObjectTypeMismatch : Status := 0xC0000024
def statusInvalidCid : Status := 0xC000000B
def statusMutantNotOwned : Status := 0xC0000046
def statusSemaphoreLimitExceeded : Status := 0xC0000047
def statusSuspendCountExceeded : Status := 0xC000004A

def maximumWaitObjects : ℕ := 64
def maximumSuspendCount : ℕ := 127
def intMax : ℕ := 2 ^ 31 - 1

/-- What `mem_alloc` fills a fresh block with, read as a 32-bit word. -/
def memAllocFill : ℕ := 0x55555555

def delete : Access := 0x00010000
def readControl : Access := 0x00020000
def synchronize : Access := 0x00100000
def standardRightsRequired : Access := 0x000f0000
def standardRightsRead : Access := readControl
def standardRightsWrite : Access := readControl
def standardRightsExecute : Access := readControl
def standardRightsAll : Access := 0x001f0000
def genericRead : Access := 0x80000000
def genericWrite : Access := 0x40000000
def genericExecute : Access := 0x20000000
def genericAll : Access := 0x10000000
def eventQueryState : Access := 0x0001
def eventModifyState : Access := 0x0002
def eventAllAccess : Access := standardRightsRequired ||| synchronize ||| 0x3
def semaphoreModifyState : Access := 0x0002
def semaphoreAllAccess : Access := standardRightsRequired ||| synchronize ||| 0x3
def mutexModifyState : Access := 0x0001
def mutexAllAccess : Access := standardRightsRequired ||| synchronize ||| 0x1
def timerQueryState : Access := 0x0001
def timerModifyState : Access := 0x0002
def timerAllAccess : Access := standardRightsRequired ||| synchronize ||| 0x3
def processAllAccess : Access := standardRightsRequired ||| synchronize ||| 0xfff
def threadTerminate : Access := 0x0001
def threadSuspendResume : Access := 0x0002
def threadSetContext : Access := 0x0010
def processDupHandle : Access := 0x0040
def reservedAll : Access := 0x0c000000
def threadAllAccess : Access := standardRightsRequired ||| synchronize ||| 0x3ff

/-! ## Data -/

structure Event where
  manualReset : Bool
  signaled : Bool
  deriving DecidableEq, Repr

structure Semaphore where
  count : ℕ
  max : ℕ
  deriving DecidableEq, Repr

structure Mutex where
  owner : Option ObjId
  count : ℕ
  abandoned : Bool
  deriving DecidableEq, Repr

structure Timer where
  manual : Bool
  signaled : Bool
  /-- in milliseconds -/
  period : ℕ
  when_ : Time
  timeout : Option ℕ
  thread : Option ObjId
  callback : ℕ
  deriving DecidableEq, Repr

/-- What follows the header of an object; `freed` once the block has been returned. -/
inductive Body
  | event (e : Event)
  | semaphore (e : Semaphore)
  | mutex (m : Mutex)
  | timer (t : Timer)
  | thread
  | process
  | freed
  deriving DecidableEq, Repr

inductive Kind
  | event | semaphore | mutex | timer | thread | process
  deriving DecidableEq, Repr

def Body.kind : Body → Option Kind
  | .event _ => some .event
  | .semaphore _ => some .semaphore
  | .mutex _ => some .mutex
  | .timer _ => some .timer
  | .thread => some .thread
  | .process => some .process
  | .freed => none

/-- The entry of a waiting thread in the wait queue of an object. Entries live inside the
`thread_wait` block `wait`, at position `index` of its `queues` array. -/
structure WaitQueueEntry where
  wait : ℕ
  index : ℕ
  obj : ObjId
  thread : ObjId
  deriving DecidableEq, Repr

structure Object where
  refcount : ℕ
  waitQueue : List WaitQueueEntry
  body : Body
  deriving DecidableEq, Repr

structure SelectFlags where
  all : Bool
  alertable : Bool
  interruptible : Bool
  timeout : Bool
  deriving DecidableEq, Repr

structure ThreadWait where
  id : ℕ
  flags : SelectFlags
  cookie : Cookie
  timeout : Time
  user : Option ℕ
  queues : List WaitQueueEntry
  deriving DecidableEq, Repr

inductive ApcType
  | none | user | timer | asyncIo
  deriving DecidableEq, Repr

structure ThreadApc where
  owner : Option ObjId
  func : ℕ
  type : ApcType
  deriving DecidableEq, Repr

inductive RunState
  | running | terminated
  deriving DecidableEq, Repr

/-- `wait` is the stack of pending waits, the current one first. -/
structure Thread where
  process : ObjId
  mutexList : List ObjId
  wait : List ThreadWait
  systemApc : List ThreadApc
  userApc : List ThreadApc
  state : RunState
  suspend : ℕ
  deriving DecidableEq, Repr

structure HandleEntry where
  handle : Handle
  obj : ObjId
  access : Access
  deriving DecidableEq, Repr

/-- `handles` is the process's handle table as the finite map it stands for. -/
structure Process where
  suspend : ℕ
  threadList : List ObjId
  runningThreads : ℕ
  handles : Option (List HandleEntry)
  deriving DecidableEq, Repr

inductive TimeoutCallback
  | threadTimeout (thread : ObjId) (wait : ℕ)
  | timerCallback (timer : ObjId)
  deriving DecidableEq, Repr

structure TimeoutUser where
  id : ℕ
  when_ : Time
  callback : TimeoutCallback
  deriving DecidableEq, Repr

/-- What the server has done that a client or an object can tell: the wakeup messages it wrote, the
objects it took on behalf of a waiting thread, and the mutexes it took from a dead one. -/
inductive Notice
  | wakeup (thread : ObjId) (cookie : Cookie) (signaled : Status)
  | satisfied (obj thread : ObjId) (signaled abandoned : Bool)
  | abandoned (obj thread : ObjId)
  deriving DecidableEq, Repr

/-- `trace` is newest first and is never read; `writes` counts the wakeup messages attempted. -/
structure State where
  object : ObjId → Object
  thread : ObjId → Thread
  process : ObjId → Process
  timeoutList : List TimeoutUser
  now : Time
  current : Option ObjId
  error : Status
  nextObject : ℕ
  nextWait : ℕ
  nextTimeout : ℕ
  writes : ℕ
  trace : List Notice

def noObject : Object := ⟨0, [], .freed⟩
def noThread : Thread := ⟨0, [], [], [], [], .terminated, 0⟩
def noProcess : Process := ⟨0, [], 0, none⟩

/-- The server before its first client. -/
def State.initial : State where
  object _ := noObject
  thread _ := noThread
  process _ := noProcess
  timeoutList := []
  now := 0
  current := none
  error := statusSuccess
  nextObject := 1
  nextWait := 0
  nextTimeout := 0
  writes := 0
  trace := []

/-! ## Faults -/

/-- The assertions of the modelled code. -/
inductive Site
  | grabObject | releaseObject | releaseObjectQueue | endWait | checkWait | semaphoreSatisfied
  | mutexSatisfied | mutexSatisfiedOwner | doRelease | abandonMutexes | removeProcessThread
  | processKilled | processDestroy | resumeProcess | objectOps
  deriving DecidableEq, Repr

/-- The server stops: a failed assertion, or an access through a null or dangling pointer. `outOfFuel`
is no behaviour of the source; it marks a loop bound of the model that was too small. -/
inductive Fault
  | assertion (site : Site)
  | badPointer
  | outOfFuel
  deriving DecidableEq, Repr

abbrev M := Exec State Fault

/-! ## Updates -/

namespace State

def setObject (s : State) (o : ObjId) (x : Object) : State :=
  { s with object := Function.update s.object o x }

def setBody (s : State) (o : ObjId) (b : Body) : State :=
  s.setObject o { s.object o with body := b }

def setThread (s : State) (t : ObjId) (x : Thread) : State :=
  { s with thread := Function.update s.thread t x }

def setProcess (s : State) (p : ObjId) (x : Process) : State :=
  { s with process := Function.update s.process p x }

def note (s : State) (n : Notice) : State := { s with trace := n :: s.trace }

variable (s : State) (o t p : ObjId)

@[simp] theorem setObject_object (x : Object) :
    (s.setObject o x).object = Function.update s.object o x := rfl
@[simp] theorem setObject_thread (x : Object) : (s.setObject o x).thread = s.thread := rfl
@[simp] theorem setObject_process (x : Object) : (s.setObject o x).process = s.process := rfl
@[simp] theorem setThread_object (x : Thread) : (s.setThread t x).object = s.object := rfl
@[simp] theorem setThread_thread (x : Thread) :
    (s.setThread t x).thread = Function.update s.thread t x := rfl
@[simp] theorem setThread_process (x : Thread) : (s.setThread t x).process = s.process := rfl

end State

def setError (e : Status) : M PUnit := modify fun s => { s with error := e }

/-- A failed `assert( c )` stops the server. -/
def assert (site : Site) (c : Bool) : M PUnit :=
  if c then pure ⟨⟩ else throw (.assertion site)

end Wine.Server

/-!
## Reference counts and destruction of objects

`grab_object` and `release_object` with the destroy operations of the modelled kinds. The chain of
destructions is finite: a timer may hold the last reference to a thread, and a thread the last one
to its process.
-/

namespace Wine.Server
open Wine.Lib

def grabObject (o : ObjId) : M PUnit := do
  let s ← get
  assert .grabObject ((s.object o).refcount < intMax)
  set (s.setObject o { s.object o with refcount := (s.object o).refcount + 1 })

/-! ## Timeouts -/

/-- Before the first pending timeout that is not earlier. -/
def insertTimeout (u : TimeoutUser) : List TimeoutUser → List TimeoutUser
  | [] => [u]
  | v :: l => if v.when_ < u.when_ then v :: insertTimeout u l else u :: v :: l

/-- `mem` is the outcome of the allocation. -/
def addTimeoutUser (when_ : Time) (callback : TimeoutCallback) (mem : Bool) : M (Option ℕ) := do
  if !mem then
    setError statusNoMemory
    pure none
  else
    let s ← get
    set { s with
      timeoutList := insertTimeout ⟨s.nextTimeout, when_, callback⟩ s.timeoutList
      nextTimeout := s.nextTimeout + 1 }
    pure (some s.nextTimeout)

def removeTimeoutUser (user : ℕ) : M PUnit := do
  let s ← get
  if s.timeoutList.any (·.id = user) then
    set { s with timeoutList := s.timeoutList.filter (·.id ≠ user) }
  else throw .badPointer

/-! ## Destruction -/

/-- `release_object` of an object whose destroy operation is `destroy`. -/
def releaseWith (destroy : M PUnit) (o : ObjId) : M PUnit := do
  let s ← get
  assert .releaseObject ((s.object o).refcount ≠ 0)
  set (s.setObject o { s.object o with refcount := (s.object o).refcount - 1 })
  if (s.object o).refcount = 1 then
    assert .releaseObjectQueue (s.object o).waitQueue.isEmpty
    destroy
    modify (·.setObject o noObject)

def processDestroy (p : ObjId) : M PUnit := do
  let s ← get
  assert .processDestroy (s.process p).threadList.isEmpty

def releaseProcess (p : ObjId) : M PUnit := releaseWith (processDestroy p) p

/-- `cleanup_thread`: of what it frees, only the queued APCs are part of the model. -/
def cleanupThread (t : ObjId) : M PUnit :=
  modify fun s => s.setThread t { s.thread t with systemApc := [], userApc := [] }

def destroyThread (t : ObjId) : M PUnit := do
  cleanupThread t
  let s ← get
  releaseProcess (s.thread t).process

def releaseThread (t : ObjId) : M PUnit := releaseWith (destroyThread t) t

def timerDestroy (o : ObjId) : M PUnit := do
  let s ← get
  match (s.object o).body with
  | .timer x =>
    match x.timeout with
    | some user => removeTimeoutUser user
    | none => pure ⟨⟩
    match x.thread with
    | some t => releaseThread t
    | none => pure ⟨⟩
  | _ => throw (.assertion .objectOps)

/-- The mutex `m` leaves the list of its owner. -/
def State.disownMutex (s : State) (m t : ObjId) (x : Mutex) : State :=
  (s.setThread t { s.thread t with mutexList := (s.thread t).mutexList.erase m }).setBody m
    (.mutex { x with owner := none })

/-- The first two statements of `do_release` after its assertion: `list_remove( &mutex->entry )`,
which needs the mutex to be in a list, and `mutex->owner = NULL`. -/
def unlinkMutex (m : ObjId) : M PUnit := do
  let s ← get
  match (s.object m).body with
  | .mutex x =>
    match x.owner with
    | some t => set (s.disownMutex m t x)
    | none => throw .badPointer
  | _ => throw (.assertion .objectOps)

/-- `mutex_destroy`. Its call of `do_release` ends with a walk over the wait queue, which
`release_object` has just asserted to be empty. -/
def mutexDestroy (m : ObjId) : M PUnit := do
  let s ← get
  match (s.object m).body with
  | .mutex x =>
    if x.count = 0 then pure ⟨⟩
    else
      set (s.setBody m (.mutex { x with count := 0 }))
      unlinkMutex m
  | _ => throw (.assertion .objectOps)

def releaseObject (o : ObjId) : M PUnit := do
  let s ← get
  match (s.object o).body with
  | .event _ | .semaphore _ => releaseWith (pure ⟨⟩) o
  | .mutex _ => releaseWith (mutexDestroy o) o
  | .timer _ => releaseWith (timerDestroy o) o
  | .thread => releaseThread o
  | .process => releaseProcess o
  | .freed => throw .badPointer

end Wine.Server
