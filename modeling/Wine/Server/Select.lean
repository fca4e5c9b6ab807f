import Wine.Server.Wake

/-!
# Changing the state of an object

Setting, pulsing and resetting events, releasing semaphores and mutexes, setting and firing timers,
queueing APCs, and the expiry of a wait.
-/

namespace Wine.Server
open Wine.Lib

section
variable (writeOk : ℕ → Bool)

/-! ## Events -/

def setEvent (o : ObjId) : M PUnit := do
  let s ← get
  match (s.object o).body with
  | .event e =>
    set (s.setBody o (.event { e with signaled := true }))
    wakeUp writeOk (killThread writeOk) o (if e.manualReset then 0 else 1)
  | _ => throw (.assertion .objectOps)

def resetEvent (o : ObjId) : M PUnit := do
  let s ← get
  match (s.object o).body with
  | .event e => set (s.setBody o (.event { e with signaled := false }))
  | _ => throw (.assertion .objectOps)

def pulseEvent (o : ObjId) : M PUnit := do
  setEvent writeOk o
  resetEvent o

/-! ## Semaphores -/

/-- `release_semaphore`; the sum is computed in an `unsigned int`. -/
def releaseSemaphore (o : ObjId) (count : ℕ) : M Bool := do
  let s ← get
  match (s.object o).body with
  | .semaphore x =>
    let sum := (x.count + count) % 2 ^ 32
    if sum < x.count ∨ x.max < sum then
      setError statusSemaphoreLimitExceeded
      pure false
    else if x.count ≠ 0 then
      set (s.setBody o (.semaphore { x with count := sum }))
      pure true
    else
      set (s.setBody o (.semaphore { x with count := count }))
      wakeUp writeOk (killThread writeOk) o count
      pure true
  | _ => throw (.assertion .objectOps)

/-! ## Mutexes -/

/-- The common part of `mutex_signal` and of the `release_mutex` request; `none` when `c` does not
own the mutex, else the recursion count before the release. -/
def releaseMutex (m c : ObjId) : M (Option ℕ) := do
  let s ← get
  match (s.object m).body with
  | .mutex x =>
    if x.count = 0 ∨ x.owner ≠ some c then
      setError statusMutantNotOwned
      pure none
    else
      set (s.setBody m (.mutex { x with count := x.count - 1 }))
      if x.count = 1 then doRelease writeOk (killThread writeOk) m
      pure (some x.count)
  | _ => throw (.assertion .objectOps)

/-! ## Asynchronous procedure calls -/

def apcQueue (s : State) (t : ObjId) (system : Bool) : List ThreadApc :=
  if system then (s.thread t).systemApc else (s.thread t).userApc

def State.setApcQueue (s : State) (t : ObjId) (system : Bool) (q : List ThreadApc) : State :=
  if system then s.setThread t { s.thread t with systemApc := q }
  else s.setThread t { s.thread t with userApc := q }

def threadCancelApc (t owner : ObjId) (system : Bool) : M PUnit :=
  modify fun s =>
    s.setApcQueue t system ((apcQueue s t system).eraseP fun apc => apc.owner = some owner)

/-- `thread_queue_apc`; `mem` is the outcome of its allocation. -/
def threadQueueApc (t : ObjId) (apc : ThreadApc) (system mem : Bool) : M Bool := do
  match apc.owner with
  | some owner => threadCancelApc t owner system
  | none => pure ⟨⟩
  let s ← get
  if (s.thread t).state = .terminated then pure false
  else if !mem then
    setError statusNoMemory
    pure false
  else
    set (s.setApcQueue t system (apcQueue s t system ++ [apc]))
    if (apcQueue s t system).isEmpty then
      let _ ← wakeThread writeOk (killThread writeOk) t
    pure true

/-- The next APC, system ones first. -/
def threadDequeueApc (t : ObjId) (systemOnly : Bool) : M (Option ThreadApc) := do
  let s ← get
  match (s.thread t).systemApc with
  | apc :: rest =>
    set (s.setThread t { s.thread t with systemApc := rest })
    pure (some apc)
  | [] =>
    match systemOnly, (s.thread t).userApc with
    | false, apc :: rest =>
      set (s.setThread t { s.thread t with userApc := rest })
      pure (some apc)
    | _, _ => pure none

/-! ## Timers -/

def addTimeout (when_ : Time) (period : ℕ) : Time := when_ + 1000 * period

/-- `timer_callback`. While the APC is queued its thread can die, and the timer with it. `mem` and
`memTimeout` are the outcomes of the two allocations. -/
def timerCallback (o : ObjId) (mem memTimeout : Bool) : M PUnit := do
  let s ← get
  match (s.object o).body with
  | .timer x =>
    match x.thread with
    | some t =>
      if !(← threadQueueApc writeOk t ⟨some o, x.callback, .timer⟩ false mem) then
        releaseThread t
        modify fun s => s.setBody o (.timer { x with thread := none })
    | none => pure ⟨⟩
  | _ => throw .badPointer
  let s ← get
  match (s.object o).body with
  | .timer x =>
    let x ←
      if x.period ≠ 0 then do
        let user ← addTimeoutUser (addTimeout x.when_ x.period) (.timerCallback o) memTimeout
        pure { x with when_ := addTimeout x.when_ x.period, timeout := user }
      else pure { x with timeout := none }
    modify (·.setBody o (.timer { x with signaled := true }))
    wakeUp writeOk (killThread writeOk) o 0
  | _ => throw .badPointer

/-- Returns the signaled state. -/
def cancelTimer (o : ObjId) : M Bool := do
  let s ← get
  match (s.object o).body with
  | .timer x =>
    match x.timeout with
    | some user => removeTimeoutUser user
    | none => pure ⟨⟩
    modify (·.setBody o (.timer { x with timeout := none }))
    match x.thread with
    | some t =>
      threadCancelApc t o false
      releaseThread t
    | none => pure ⟨⟩
    modify (·.setBody o (.timer { x with timeout := none, thread := none }))
    pure x.signaled
  | _ => throw (.assertion .objectOps)

def setTimer (o c : ObjId) (expire : Time) (period callback : ℕ) (mem : Bool) : M Bool := do
  let signaled ← cancelTimer o
  let s ← get
  match (s.object o).body with
  | .timer x =>
    let period := if x.manual then 0 else period
    let when_ := if expire = 0 then addTimeout s.now period else expire
    if callback ≠ 0 then grabObject c
    let user ← addTimeoutUser when_ (.timerCallback o) mem
    modify (·.setBody o (.timer
      { x with
        signaled := !x.manual && x.signaled
        when_ := when_
        period := period
        callback := callback
        thread := if callback ≠ 0 then some c else x.thread
        timeout := user }))
    pure signaled
  | _ => throw (.assertion .objectOps)

/-! ## Expiry of a wait -/

/-- `thread_timeout`, whose argument is a pointer to the wait block. -/
def threadTimeout (t : ObjId) (id : ℕ) : M PUnit := do
  let s ← get
  match (s.thread t).wait.find? fun w => w.id = id with
  | none => throw .badPointer
  | some wait =>
    let waits := (s.thread t).wait.map fun w => if w.id = id then { w with user := none } else w
    set (s.setThread t { s.thread t with wait := waits })
    if (s.thread t).wait.head? ≠ some wait then pure ⟨⟩
    else if s.suspended t then pure ⟨⟩
    else
      endWait t
      if ← sendThreadWakeup writeOk (killThread writeOk) t wait.cookie statusTimeout then
        let _ ← wakeThread writeOk (killThread writeOk) t

end

end Wine.Server

/-!
## Handles and the select request

Handle lookup and allocation over the handle table as a finite map, the signal operations of the
objects, and `select_on`.
-/

namespace Wine.Server
open Wine.Lib

/-! ## Handles -/

/-- Access masks with the generic rights replaced by `r`, `w`, `x` and `a`. -/
def mapGeneric (r w x a access : Access) : Access :=
  let access := if access &&& genericRead ≠ 0 then access ||| r else access
  let access := if access &&& genericWrite ≠ 0 then access ||| w else access
  let access := if access &&& genericExecute ≠ 0 then access ||| x else access
  let access := if access &&& genericAll ≠ 0 then access ||| a else access
  access &&& ~~~(genericRead ||| genericWrite ||| genericExecute ||| genericAll)

def eventMapAccess : Access → Access :=
  mapGeneric (standardRightsRead ||| synchronize ||| eventQueryState) standardRightsWrite
    standardRightsExecute (standardRightsAll ||| eventAllAccess)

def semaphoreMapAccess : Access → Access :=
  mapGeneric (standardRightsRead ||| synchronize) (standardRightsWrite ||| semaphoreModifyState)
    standardRightsExecute (standardRightsAll ||| semaphoreAllAccess)

def mutexMapAccess : Access → Access :=
  mapGeneric (standardRightsRead ||| synchronize) (standardRightsWrite ||| mutexModifyState)
    standardRightsExecute (standardRightsAll ||| mutexAllAccess)

def timerMapAccess : Access → Access :=
  mapGeneric (standardRightsRead ||| synchronize ||| timerQueryState)
    (standardRightsWrite ||| timerModifyState) standardRightsExecute timerAllAccess

def threadMapAccess : Access → Access :=
  mapGeneric (standardRightsRead ||| synchronize) (standardRightsWrite ||| synchronize)
    standardRightsExecute threadAllAccess

def processMapAccess : Access → Access :=
  mapGeneric (standardRightsRead ||| synchronize) (standardRightsWrite ||| synchronize)
    standardRightsExecute processAllAccess

def Body.mapAccess : Body → Access → Access
  | .event _ => eventMapAccess
  | .semaphore _ => semaphoreMapAccess
  | .mutex _ => mutexMapAccess
  | .timer _ => timerMapAccess
  | .thread => threadMapAccess
  | .process => processMapAccess
  | .freed => id

/-- In the lowest free slot, slot `i` being the one of handle `4 * i`. -/
def insertHandle (o : ObjId) (access : Access) : ℕ → List HandleEntry → List HandleEntry
  | i, [] => [⟨4 * i, o, access⟩]
  | i, h :: l =>
    if h.handle = 4 * i then h :: insertHandle o access (i + 1) l else ⟨4 * i, o, access⟩ :: h :: l

/-- `alloc_handle`, true unless the process has no handle table left. -/
def allocHandle (p o : ObjId) (access : Access) : M Bool := do
  let s ← get
  match (s.process p).handles with
  | none =>
    setError statusNoMemory
    pure false
  | some l =>
    let access := (s.object o).body.mapAccess access &&& ~~~reservedAll
    set (s.setProcess p { s.process p with handles := some (insertHandle o access 1 l) })
    grabObject o
    pure true

def State.getHandle (s : State) (p : ObjId) (handle : Handle) : Option HandleEntry :=
  ((s.process p).handles.getD []).find? (·.handle = handle)

/-- `c` is the current thread. -/
def State.getMagicHandle (s : State) (c : ObjId) (handle : Handle) : Option ObjId :=
  if handle = 0xfffffffe then some c
  else if handle = 0x7fffffff ∨ handle = 0xffffffff then some (s.thread c).process
  else none

/-- `get_handle_obj` up to its check of the object's kind, with the reason of a failure. -/
def State.lookupHandle (s : State) (c p : ObjId) (handle : Handle) (access : Access) :
    Except Status ObjId :=
  match s.getMagicHandle c handle with
  | some o => .ok o
  | none =>
    match s.getHandle p handle with
    | none => .error statusInvalidHandle
    | some h => if h.access &&& access ≠ access then .error statusAccessDenied else .ok h.obj

def getHandleObj (c p : ObjId) (handle : Handle) (access : Access) (kind : Option Kind) :
    M (Option ObjId) := do
  let s ← get
  match s.lookupHandle c p handle access with
  | .error e =>
    setError e
    pure none
  | .ok o =>
    if kind.isSome && (s.object o).body.kind ≠ kind then
      setError statusObjectTypeMismatch
      pure none
    else
      grabObject o
      pure (some o)

def State.getHandleAccess (s : State) (c p : ObjId) (handle : Handle) : Access :=
  match s.getMagicHandle c handle with
  | some _ => 0xffffffff
  | none => ((s.getHandle p handle).map (·.access)).getD 0

def closeHandle (p : ObjId) (handle : Handle) : M PUnit := do
  let s ← get
  match s.getHandle p handle with
  | none => setError statusInvalidHandle
  | some h =>
    set (s.setProcess p { s.process p with
      handles := (s.process p).handles.map fun l => l.erase h })
    releaseObject h.obj

/-- `duplicate_handle` into a local table. -/
def duplicateHandle (c src : ObjId) (handle : Handle) (dst : ObjId) (access : Access)
    (sameAccess : Bool) : M PUnit := do
  match ← getHandleObj c src handle 0 none with
  | none => pure ⟨⟩
  | some o =>
    let s ← get
    let access :=
      if sameAccess then
        match s.getHandle src handle with
        | some h => h.access
        | none => standardRightsAll ||| 0xffff
      else access
    let _ ← allocHandle dst o (access &&& ~~~reservedAll)
    releaseObject o

section
variable (writeOk : ℕ → Bool)

/-! ## The select request -/

def addQueue (o : ObjId) (e : WaitQueueEntry) : M PUnit := do
  grabObject o
  modify fun s => s.setObject o { s.object o with waitQueue := (s.object o).waitQueue ++ [e] }

def waitEntries (id c : ℕ) (objects : List ObjId) : List WaitQueueEntry :=
  objects.mapIdx fun i o => ⟨id, i, o, c⟩

/-- `wait_on`. The fields that are not assigned keep what the block was filled with. -/
def waitOn (c : ObjId) (objects : List ObjId) (flags : SelectFlags) (timeout : Time) :
    M PUnit := do
  let s ← get
  let entries := waitEntries s.nextWait c objects
  let wait : ThreadWait :=
    { id := s.nextWait
      flags := flags
      cookie := memAllocFill
      timeout := if flags.timeout then timeout else memAllocFill
      user := none
      queues := entries }
  set { s.setThread c { s.thread c with wait := wait :: (s.thread c).wait } with
    nextWait := s.nextWait + 1 }
  forM entries fun e => addQueue e.obj e

/-- The `signal` operation of `o`. -/
def signalOp (c o : ObjId) (access : Access) : M Bool := do
  let s ← get
  match (s.object o).body with
  | .event _ =>
    if access &&& eventModifyState = 0 then
      setError statusAccessDenied
      pure false
    else
      setEvent writeOk o
      pure true
  | .semaphore _ =>
    if access &&& semaphoreModifyState = 0 then
      setError statusAccessDenied
      pure false
    else releaseSemaphore writeOk o 1
  | .mutex _ =>
    if access &&& synchronize = 0 then
      setError statusAccessDenied
      pure false
    else return (← releaseMutex writeOk o c).isSome
  | .timer _ | .thread | .process =>
    setError statusObjectTypeMismatch
    pure false
  | .freed => throw .badPointer

def signalObject (c : ObjId) (handle : Handle) : M Bool := do
  let s ← get
  match ← getHandleObj c (s.thread c).process handle 0 none with
  | none => pure false
  | some o =>
    let ret ← signalOp writeOk c o (s.getHandleAccess c (s.thread c).process handle)
    releaseObject o
    pure ret

/-- The part of `select_on` that signals an object; `true` to go on. -/
def selectSignal (c : ObjId) (signalObj : Handle) : M Bool := do
  if signalObj = 0 then pure true
  else if ← signalObject writeOk c signalObj then
    let s ← get
    if s.current = none then throw .badPointer
    else pure !(s.thread c).wait.isEmpty
  else
    endWait c
    pure false

def State.mapTopWait (s : State) (t : ObjId) (f : ThreadWait → ThreadWait) : State :=
  match (s.thread t).wait with
  | [] => s
  | w :: rest => s.setThread t { s.thread t with wait := f w :: rest }

/-- The part of `select_on` after its second comment. `memTimeout` is the outcome of the
allocation of the timeout. -/
def selectCheck (c : ObjId) (cookie : Cookie) (flags : SelectFlags) (memTimeout : Bool) :
    M PUnit := do
  match ← checkWait c with
  | some ret =>
    endWait c
    setError ret
  | none =>
    let s ← get
    match (s.thread c).wait with
    | [] => throw .badPointer
    | w :: _ =>
      if flags.timeout then
        match ← addTimeoutUser w.timeout (.threadTimeout c w.id) memTimeout with
        | none => endWait c
        | some user =>
          modify (·.mapTopWait c fun w => { w with user := some user, cookie := cookie })
          setError statusPending
      else
        modify (·.mapTopWait c fun w => { w with cookie := cookie })
        setError statusPending

/-- The objects of the handles, with whether all were found. -/
def getHandleObjs (c : ObjId) : List Handle → M (List ObjId × Bool)
  | [] => pure ([], true)
  | h :: hs => do
    let s ← get
    match ← getHandleObj c (s.thread c).process h synchronize none with
    | none => pure ([], false)
    | some o =>
      let r ← getHandleObjs c hs
      pure (o :: r.1, r.2)

structure SelectRequest where
  cookie : Cookie
  handles : List Handle
  flags : SelectFlags
  timeout : Time
  signal : Handle
  deriving DecidableEq, Repr

/-- `select_on`; `mem` and `memTimeout` are the outcomes of its allocations. -/
def selectOn (c : ObjId) (req : SelectRequest) (mem memTimeout : Bool) : M PUnit := do
  if maximumWaitObjects < req.handles.length then setError statusInvalidParameter
  else
    let (objects, found) ← getHandleObjs c req.handles
    if found then
      if mem then
        waitOn c objects req.flags req.timeout
        if ← selectSignal writeOk c req.signal then
          selectCheck c req.cookie req.flags memTimeout
      else setError statusNoMemory
    forM objects.reverse releaseObject

end

end Wine.Server
