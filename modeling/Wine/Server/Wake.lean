import Wine.Server.State

/-!
# Waiting threads and how they are woken

`check_wait`, `end_wait`, `wake_thread`, `wake_up` and `kill_thread` with the wait operations of the
modelled objects. Waking a thread may find its pipe broken, which kills it, which releases its
mutexes and so wakes other threads. The functions below `killThread` take the function that kills a
thread as a parameter, and `killThreadAt` ties the knot: every nested death needs one more thread
that was running, so the number of running threads bounds the nesting.

`writeOk n` is the outcome of the `n`-th write of a wakeup message.
-/

namespace Wine.Server
open Wine.Lib

/-! ## Wait operations of the objects -/

/-- The `signaled` operation of `o` for the thread `t`. -/
def State.signaled (s : State) (o t : ObjId) : Bool :=
  match (s.object o).body with
  | .event e => e.signaled
  | .semaphore x => decide (0 < x.count)
  | .mutex m => decide (m.count = 0) || decide (m.owner = some t)
  | .timer x => x.signaled
  | .thread => decide ((s.thread o).state = .terminated)
  | .process => decide ((s.process o).runningThreads = 0)
  | .freed => false

/-- `mutex_satisfied`; the recursion count is an `unsigned int`. -/
def mutexSatisfied (m t : ObjId) (x : Mutex) : M Bool := do
  let s ← get
  assert .mutexSatisfied (decide (x.count = 0) || decide (x.owner = some t))
  if x.count = 0 then
    assert .mutexSatisfiedOwner x.owner.isNone
    set ((s.setThread t { s.thread t with mutexList := m :: (s.thread t).mutexList }).setBody m
      (.mutex ⟨some t, 1, false⟩))
  else
    set (s.setBody m (.mutex { x with count := (x.count + 1) % 2 ^ 32, abandoned := false }))
  pure x.abandoned

def satisfiedOp (o t : ObjId) : M Bool := do
  let s ← get
  match (s.object o).body with
  | .event e =>
    if e.manualReset then pure false
    else
      set (s.setBody o (.event { e with signaled := false }))
      pure false
  | .semaphore x =>
    assert .semaphoreSatisfied (x.count ≠ 0)
    set (s.setBody o (.semaphore { x with count := x.count - 1 }))
    pure false
  | .mutex x => mutexSatisfied o t x
  | .timer x =>
    if x.manual then pure false
    else
      set (s.setBody o (.timer { x with signaled := false }))
      pure false
  | .thread | .process => pure false
  | .freed => throw .badPointer

/-- The `satisfied` operation, recorded with what `signaled` would have answered at that moment. -/
def satisfied (o t : ObjId) : M Bool := do
  let s ← get
  let abandoned ← satisfiedOp o t
  modify (·.note (.satisfied o t (s.signaled o t) abandoned))
  pure abandoned

/-! ## Waits -/

def removeQueue (e : WaitQueueEntry) : M PUnit := do
  modify fun s => s.setObject e.obj
    { s.object e.obj with waitQueue := (s.object e.obj).waitQueue.erase e }
  releaseObject e.obj

def endWait (t : ObjId) : M PUnit := do
  let s ← get
  match (s.thread t).wait with
  | [] => throw (.assertion .endWait)
  | w :: rest =>
    forM w.queues removeQueue
    match w.user with
    | some user => removeTimeoutUser user
    | none => pure ⟨⟩
    modify fun s => s.setThread t { s.thread t with wait := rest }

def State.suspended (s : State) (t : ObjId) : Bool :=
  decide (0 < (s.process (s.thread t).process).suspend + (s.thread t).suspend)

/-- The checks of `check_wait` after the label `other_checks`. -/
def State.otherChecks (s : State) (t : ObjId) (w : ThreadWait) : Option Status :=
  if w.flags.interruptible && !(s.thread t).systemApc.isEmpty then some statusUserApc
  else if w.flags.alertable && !(s.thread t).userApc.isEmpty then some statusUserApc
  else if w.flags.timeout && decide (w.timeout ≤ s.now) then some statusTimeout
  else none

def satisfyAll (t : ObjId) : List WaitQueueEntry → M Bool
  | [] => pure false
  | e :: l => do
    let abandoned ← satisfied e.obj t
    let others ← satisfyAll t l
    pure (abandoned || others)

def State.firstSignaled (s : State) (t : ObjId) :
    ℕ → List WaitQueueEntry → Option (ℕ × WaitQueueEntry)
  | _, [] => none
  | i, e :: l => if s.signaled e.obj t then some (i, e) else s.firstSignaled t (i + 1) l

/-- `check_wait`, with `none` for `-1`. -/
def checkWait (t : ObjId) : M (Option Status) := do
  let s ← get
  if s.suspended t then pure none
  else
    match (s.thread t).wait with
    | [] => throw (.assertion .checkWait)
    | w :: _ =>
      if w.flags.all then
        if w.queues.all fun e => s.signaled e.obj t then
          let abandoned ← satisfyAll t w.queues
          pure (some (if abandoned then statusAbandonedWait0 else 0))
        else pure (s.otherChecks t w)
      else
        match s.firstSignaled t 0 w.queues with
        | some (i, e) =>
          let abandoned ← satisfied e.obj t
          pure (some (if abandoned then i + statusAbandonedWait0 else i))
        | none => pure (s.otherChecks t w)

/-! ## Waking -/

section
variable (writeOk : ℕ → Bool) (kill : ObjId → M PUnit)

/-- `false` when the write failed and the thread has been killed. -/
def sendThreadWakeup (t : ObjId) (cookie : Cookie) (signaled : Status) : M Bool := do
  let s ← get
  set { s.note (.wakeup t cookie signaled) with writes := s.writes + 1 }
  if writeOk s.writes then pure true
  else
    kill t
    pure false

/-- The loop of `wake_thread`, which ends at the latest when the pending waits are used up. -/
def wakeThreadLoop (t : ObjId) : ℕ → ℕ → M ℕ
  | 0, count => pure count
  | n + 1, count => do
    let s ← get
    match (s.thread t).wait with
    | [] => pure count
    | w :: _ =>
      match ← checkWait t with
      | none => pure count
      | some signaled =>
        endWait t
        if ← sendThreadWakeup writeOk kill t w.cookie signaled then wakeThreadLoop t n (count + 1)
        else pure count

def wakeThread (t : ObjId) : M ℕ := do
  let s ← get
  wakeThreadLoop writeOk kill t (s.thread t).wait.length 0

/-- The successor of `e` in a list; `none` when `e` is not linked in it. -/
def nextEntry {α : Type} [DecidableEq α] (e : α) : List α → Option (Option α)
  | [] => none
  | a :: l => if a = e then some l.head? else nextEntry e l

/-- The body of `LIST_FOR_EACH_SAFE( ptr, next, &obj->wait_queue )` in `wake_up`. The macro reads the
successor of `next` when it moves on, so `next` must still be linked then. -/
def wakeUpLoop (o : ObjId) : ℕ → WaitQueueEntry → Option WaitQueueEntry → ℕ → M PUnit
  | 0, _, _, _ => throw .outOfFuel
  | n + 1, ptr, next, max => do
    let woken ← wakeThread writeOk kill ptr.thread
    if woken ≠ 0 ∧ max = 1 then pure ⟨⟩
    else
      match next with
      | none => pure ⟨⟩
      | some e =>
        let s ← get
        match nextEntry e (s.object o).waitQueue with
        | none => throw .badPointer
        | some next => wakeUpLoop o n e next (if woken ≠ 0 then max - 1 else max)

/-- `max = 0` stands for no limit. -/
def wakeUp (o : ObjId) (max : ℕ) : M PUnit := do
  let s ← get
  match (s.object o).waitQueue with
  | [] => pure ⟨⟩
  | e :: l => wakeUpLoop writeOk kill o (l.length + 1) e l.head? max

def doRelease (m : ObjId) : M PUnit := do
  let s ← get
  match (s.object m).body with
  | .mutex x =>
    assert .doRelease (x.count = 0)
    unlinkMutex m
    wakeUp writeOk kill m 0
  | _ => throw (.assertion .objectOps)

def abandonMutexesLoop (t : ObjId) : ℕ → M PUnit
  | 0 => do
    let s ← get
    if (s.thread t).mutexList.isEmpty then pure ⟨⟩ else throw .outOfFuel
  | n + 1 => do
    let s ← get
    match (s.thread t).mutexList with
    | [] => pure ⟨⟩
    | m :: _ =>
      match (s.object m).body with
      | .mutex x =>
        assert .abandonMutexes (x.owner = some t)
        set ((s.setBody m (.mutex { x with count := 0, abandoned := true })).note (.abandoned m t))
        doRelease writeOk kill m
        abandonMutexesLoop t n
      | _ => throw .badPointer

/-- Each round takes the head of the list out of it. -/
def abandonMutexes (t : ObjId) : M PUnit := do
  let s ← get
  abandonMutexesLoop writeOk kill t (s.thread t).mutexList.length

/-! ## Death of threads and processes -/

/-- `process_killed`: the handle table goes first, then the waiters are told. -/
def processKilled (p : ObjId) : M PUnit := do
  let s ← get
  assert .processKilled (s.process p).threadList.isEmpty
  set (s.setProcess p { s.process p with handles := none })
  forM ((s.process p).handles.getD []) fun h => releaseObject h.obj
  wakeUp writeOk kill p 0

def removeProcessThread (p t : ObjId) : M PUnit := do
  let s ← get
  assert .removeProcessThread (0 < (s.process p).runningThreads)
  assert .removeProcessThread !(s.process p).threadList.isEmpty
  set (s.setProcess p { s.process p with
    threadList := (s.process p).threadList.erase t
    runningThreads := (s.process p).runningThreads - 1 })
  if (s.process p).runningThreads = 1 then processKilled writeOk kill p
  releaseObject t

def State.terminate (s : State) (t : ObjId) : State :=
  { s.setThread t { s.thread t with state := .terminated } with
    current := if s.current = some t then none else s.current }

/-- `kill_thread` after its first two statements. -/
def killRest (t : ObjId) : M PUnit := do
  let s ← get
  if !(s.thread t).wait.isEmpty then
    forM (s.thread t).wait fun _ => endWait t
    let _ ← sendThreadWakeup writeOk kill t 0 statusPending
  abandonMutexes writeOk kill t
  wakeUp writeOk kill t 0
  cleanupThread t
  let s ← get
  removeProcessThread writeOk kill (s.thread t).process t
  releaseObject t

end

/-- `kill_thread`, with room for `n` nested deaths. -/
def killThreadAt (writeOk : ℕ → Bool) : ℕ → ObjId → M PUnit
  | 0, t => do
    let s ← get
    if (s.thread t).state = .terminated then pure ⟨⟩ else throw .outOfFuel
  | n + 1, t => do
    let s ← get
    if (s.thread t).state = .terminated then pure ⟨⟩
    else
      set (s.terminate t)
      killRest writeOk (killThreadAt writeOk n) t

def State.liveThreads (s : State) : ℕ :=
  ((List.range s.nextObject).filter fun t => (s.thread t).state = .running).length

def killThread (writeOk : ℕ → Bool) (t : ObjId) : M PUnit := do
  let s ← get
  killThreadAt writeOk s.liveThreads t

end Wine.Server
