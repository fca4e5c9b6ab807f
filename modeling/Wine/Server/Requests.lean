import Wine.Server.Select

/-!
# Requests and steps of the server

The server is a single loop: it serves one request of one client, or handles one event of the
outside (a connection that is made or lost, a timeout that is due, the clock, the suspension of a
process by its debugger), and is then between two requests again.
-/

namespace Wine.Server
open Wine.Lib

inductive EventOp
  | pulse | set | reset
  deriving DecidableEq, Repr

/-- The `Bool` fields named `mem` are the outcomes of allocations. -/
inductive Request
  | newThread (suspend : Bool) (access : Access)
  | terminateThread (handle : Handle)
  | openThread (id : ObjId) (access : Access)
  | openProcess (id : ObjId) (access : Access)
  | suspendThread (handle : Handle)
  | resumeThread (handle : Handle)
  | select (req : SelectRequest) (mem memTimeout : Bool)
  | queueApc (handle : Handle) (func : ℕ) (user mem : Bool)
  | getApc (alertable : Bool)
  | createEvent (manualReset initialState : Bool) (access : Access)
  | createSemaphore (initial max : BitVec 32) (access : Access)
  | createMutex (owned : Bool) (access : Access)
  | createTimer (manual : Bool) (access : Access)
  | dupHandle (srcProcess srcHandle dstProcess : Handle) (access : Access)
      (sameAccess closeSource : Bool)
  | closeHandle (handle : Handle)
  | eventOp (handle : Handle) (op : EventOp)
  | releaseSemaphore (handle : Handle) (count : BitVec 32)
  | releaseMutex (handle : Handle)
  | setTimer (handle : Handle) (expire : Time) (period callback : ℕ) (mem : Bool)
  | cancelTimer (handle : Handle)
  deriving DecidableEq, Repr

inductive Action
  | request (thread : ObjId) (req : Request)
  | newProcess
  | threadHangup (thread : ObjId)
  | timeout (user : ℕ) (mem memTimeout : Bool)
  | tick (delay : Time)
  | suspendProcess (process : ObjId)
  | resumeProcess (process : ObjId)
  deriving DecidableEq, Repr

def allocObject (body : Body) : M ObjId := do
  let s ← get
  set { s.setObject s.nextObject ⟨1, [], body⟩ with nextObject := s.nextObject + 1 }
  pure s.nextObject

def addProcessThread (p t : ObjId) : M PUnit := do
  modify fun s => s.setProcess p { s.process p with
    threadList := (s.process p).threadList ++ [t]
    runningThreads := (s.process p).runningThreads + 1 }
  grabObject t

def createThread (p : ObjId) : M ObjId := do
  let t ← allocObject .thread
  grabObject p
  modify (·.setThread t ⟨p, [], [], [], [], .running, 0⟩)
  addProcessThread p t
  pure t

/-- `create_process` with an empty handle table. -/
def createProcess : M PUnit := do
  let p ← allocObject .process
  modify (·.setProcess p ⟨0, [], 0, some []⟩)
  let _ ← createThread p
  releaseObject p

/-- What the handlers of the create requests do with the new object. -/
def createObject (c : ObjId) (body : Body) (access : Access) (owned : Bool) : M PUnit := do
  let s ← get
  let o ← allocObject body
  if owned then
    let _ ← satisfied o c
  let _ ← allocHandle (s.thread c).process o access
  releaseObject o

/-- The pattern of most handlers: find the object of a handle, work on it, release it. -/
def withHandle (c : ObjId) (handle : Handle) (access : Access) (kind : Kind)
    (f : ObjId → M PUnit) : M PUnit := do
  let s ← get
  match ← getHandleObj c (s.thread c).process handle access (some kind) with
  | none => pure ⟨⟩
  | some o =>
    f o
    releaseObject o

section
variable (writeOk : ℕ → Bool)

/-! ## Threads and processes -/

def newThread (c : ObjId) (suspend : Bool) (access : Access) : M PUnit := do
  let s ← get
  let t ← createThread (s.thread c).process
  if suspend then
    modify fun s => s.setThread t { s.thread t with suspend := (s.thread t).suspend + 1 }
  if !(← allocHandle (s.thread c).process t access) then killThread writeOk t

def openObject (c o : ObjId) (kind : Kind) (access : Access) : M PUnit := do
  let s ← get
  if (s.object o).body.kind = some kind then
    grabObject o
    let _ ← allocHandle (s.thread c).process o access
    releaseObject o
  else setError statusInvalidCid

def suspendThread (t : ObjId) : M PUnit := do
  let s ← get
  if (s.thread t).state = .terminated then setError statusAccessDenied
  else if (s.thread t).suspend < maximumSuspendCount then
    set (s.setThread t { s.thread t with suspend := (s.thread t).suspend + 1 })
  else setError statusSuspendCountExceeded

def resumeThread (t : ObjId) : M PUnit := do
  let s ← get
  if (s.thread t).state = .terminated then setError statusAccessDenied
  else if 0 < (s.thread t).suspend then
    set (s.setThread t { s.thread t with suspend := (s.thread t).suspend - 1 })
    if (s.thread t).suspend - 1 + (s.process (s.thread t).process).suspend = 0 then
      let _ ← wakeThread writeOk (killThread writeOk) t

def suspendProcess (p : ObjId) : M PUnit :=
  modify fun s => s.setProcess p { s.process p with suspend := (s.process p).suspend + 1 }

/-- The body of `LIST_FOR_EACH_SAFE( ptr, next, &process->thread_list )` in `resume_process`. -/
def resumeLoop (p : ObjId) : ℕ → ObjId → Option ObjId → M PUnit
  | 0, _, _ => throw .outOfFuel
  | n + 1, t, next => do
    let s ← get
    if (s.thread t).suspend = 0 then
      let _ ← wakeThread writeOk (killThread writeOk) t
    match next with
    | none => pure ⟨⟩
    | some u =>
      let s ← get
      match nextEntry u (s.process p).threadList with
      | none => throw .badPointer
      | some next => resumeLoop p n u next

def resumeProcess (p : ObjId) : M PUnit := do
  let s ← get
  assert .resumeProcess (0 < (s.process p).suspend)
  set (s.setProcess p { s.process p with suspend := (s.process p).suspend - 1 })
  if (s.process p).suspend = 1 then
    match (s.process p).threadList with
    | [] => pure ⟨⟩
    | t :: l => resumeLoop writeOk p (l.length + 1) t l.head?

/-! ## Requests -/

/-- APCs without a function only wake their thread up, unless they are for asynchronous I/O. -/
def getApc (c : ObjId) (alertable : Bool) : ℕ → M PUnit
  | 0 => pure ⟨⟩
  | n + 1 => do
    match ← threadDequeueApc c !alertable with
    | none => pure ⟨⟩
    | some apc =>
      if apc.func ≠ 0 ∨ apc.type = .asyncIo then pure ⟨⟩ else getApc c alertable n

def dupHandle (c : ObjId) (srcProcess srcHandle dstProcess : Handle) (access : Access)
    (sameAccess closeSource : Bool) : M PUnit :=
  withHandle c srcProcess processDupHandle .process fun src => do
    withHandle c dstProcess processDupHandle .process fun dst =>
      duplicateHandle c src srcHandle dst access sameAccess
    if closeSource then closeHandle src srcHandle

def eventOp (o : ObjId) : EventOp → M PUnit
  | .pulse => pulseEvent writeOk o
  | .set => setEvent writeOk o
  | .reset => resetEvent o

/-- The handler of a request of the current thread `c`. -/
def handler (c : ObjId) : Request → M PUnit
  | .newThread suspend access => newThread writeOk c suspend access
  | .terminateThread handle => withHandle c handle threadTerminate .thread fun t =>
    if t = c then pure ⟨⟩ else killThread writeOk t
  | .openThread id access => openObject c id .thread access
  | .openProcess id access => openObject c id .process access
  | .suspendThread handle => withHandle c handle threadSuspendResume .thread suspendThread
  | .resumeThread handle =>
    withHandle c handle threadSuspendResume .thread (resumeThread writeOk)
  | .select req mem memTimeout => selectOn writeOk c req mem memTimeout
  | .queueApc handle func user mem => withHandle c handle threadSetContext .thread fun t => do
    let _ ← threadQueueApc writeOk t ⟨none, func, .user⟩ (!user) mem
  | .getApc alertable => do
    let s ← get
    getApc c alertable ((s.thread c).systemApc.length + (s.thread c).userApc.length + 1)
  | .createEvent manualReset initialState access =>
    createObject c (.event ⟨manualReset, initialState⟩) access false
  | .createSemaphore initial max access =>
    if max = 0 ∨ max < initial then setError statusInvalidParameter
    else createObject c (.semaphore ⟨initial.toNat, max.toNat⟩) access false
  | .createMutex owned access => createObject c (.mutex ⟨none, 0, false⟩) access owned
  | .createTimer manual access =>
    createObject c (.timer ⟨manual, false, 0, 0, none, none, 0⟩) access false
  | .dupHandle srcProcess srcHandle dstProcess access sameAccess closeSource =>
    dupHandle c srcProcess srcHandle dstProcess access sameAccess closeSource
  | .closeHandle handle => do
    let s ← get
    closeHandle (s.thread c).process handle
  | .eventOp handle op => withHandle c handle eventModifyState .event (eventOp writeOk · op)
  | .releaseSemaphore handle count =>
    withHandle c handle semaphoreModifyState .semaphore fun o => do
      let _ ← releaseSemaphore writeOk o count.toNat
  | .releaseMutex handle => withHandle c handle mutexModifyState .mutex fun o => do
    let _ ← releaseMutex writeOk o c
  | .setTimer handle expire period callback mem =>
    withHandle c handle timerModifyState .timer fun o => do
      let _ ← setTimer o c expire period callback mem
  | .cancelTimer handle => withHandle c handle timerModifyState .timer fun o => do
    let _ ← cancelTimer o

def State.running (s : State) (t : ObjId) : Bool :=
  decide ((s.object t).body = .thread) && decide ((s.thread t).state = .running)

/-- `call_req_handler`; a thread that has died sends no request. -/
def callReqHandler (c : ObjId) (req : Request) : M PUnit := do
  let s ← get
  if s.running c then
    set { s with current := some c, error := statusSuccess }
    handler writeOk c req
    modify ({ · with current := none })

def runTimeout (user : ℕ) (mem memTimeout : Bool) : M PUnit := do
  let s ← get
  match s.timeoutList.find? (·.id = user) with
  | none => pure ⟨⟩
  | some u =>
    if s.now < u.when_ then pure ⟨⟩
    else
      removeTimeoutUser u.id
      match u.callback with
      | .threadTimeout t wait => threadTimeout writeOk t wait
      | .timerCallback o => timerCallback writeOk o mem memTimeout

/-- An action that is not possible in the present state is none. -/
def act : Action → M PUnit
  | .request c req => callReqHandler writeOk c req
  | .newProcess => createProcess
  | .threadHangup t => do
    let s ← get
    if s.running t then killThread writeOk t
  | .timeout user mem memTimeout => runTimeout writeOk user mem memTimeout
  | .tick delay => modify fun s => { s with now := s.now + delay }
  | .suspendProcess p => do
    let s ← get
    if (s.object p).body = .process then suspendProcess p
  | .resumeProcess p => do
    let s ← get
    if (s.object p).body = .process ∧ 0 < (s.process p).suspend then resumeProcess writeOk p

def step (s : State) (a : Action) : Except Fault State :=
  match act writeOk a s with
  | .ok (_, s') => .ok s'
  | .error e => .error e

end

end Wine.Server
