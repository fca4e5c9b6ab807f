import Wine.Server.State

/-!
# Message queues

A queue holds the messages sent and posted to its thread, the results that its thread waits for, the
results of the messages that its thread has received, and the timers of its thread. Results are kept
on a heap of their own: the sender, the receiver, an undelivered message and a pending timeout all
point to them. Addresses are natural numbers and are never given out twice.

Left out are the hardware messages and the input state of threads, the masks of queues and the waking
of threads.
-/

namespace Wine.Queues
open Wine.Lib
open Wine.Server (Status statusInvalidParameter statusNoMemory statusAccessDenied statusTimeout
  statusPending statusInvalidHandle)

def qsPostmessage : BitVec 32 := 0x0008
def qsTimer : BitVec 32 := 0x0010
def qsPaint : BitVec 32 := 0x0020
def qsSendmessage : BitVec 32 := 0x0040
def qsAllpostmessage : BitVec 32 := 0x0100
def qsSmresult : BitVec 32 := 0x8000

def wmPaint : ℕ := 0x000f
def wmQuit : ℕ := 0x0012

def statusBufferOverflow : Status := 0x80000005

inductive MessageType where
  | ascii
  | unicode
  | notify
  | callback
  | callbackResult
  | otherProcess
  | posted
  | hardware
  | winevent
  deriving DecidableEq, Repr

inductive MessageKind where
  | sendMessage
  | postMessage
  deriving DecidableEq, Repr

/-- A message with its address. Of the data there is the size only. -/
structure Message where
  id : ℕ
  type : MessageType
  win : ℕ
  msg : ℕ
  wparam : ℕ
  lparam : ℕ
  info : ℕ
  dataSize : ℕ
  result : Option ℕ
  deriving DecidableEq, Repr

structure MessageResult where
  msg : Option ℕ
  sender : Option ℕ
  receiver : Option ℕ
  replied : Bool
  result : ℕ
  error : Option Status
  callbackMsg : Option Message
  dataSize : ℕ
  timeout : Bool
  deriving DecidableEq, Repr

structure Timer where
  id : ℕ
  when : ℕ
  rate : ℕ
  win : ℕ
  msg : ℕ
  timerId : ℕ
  lparam : ℕ
  deriving DecidableEq, Repr

/-- `recvResult` is the stack that the received results are linked in. -/
structure Queue where
  wakeBits : BitVec 32
  changedBits : BitVec 32
  paintCount : ℕ
  quitMessage : Bool
  exitCode : ℕ
  sendMsgs : List Message
  postMsgs : List Message
  sendResult : List ℕ
  callbackResult : List ℕ
  recvResult : List ℕ
  pendingTimers : List Timer
  expiredTimers : List Timer
  nextTimerId : ℕ
  timeout : Bool

/-- What the server cannot go on from: a pointer to something that is freed or is not there, a thread
without the queue that it needs, a failed assertion, and a loop without an end. -/
inductive Fault where
  | dangling
  | noQueue
  | assertion
  | endless
  deriving DecidableEq, Repr

/-- `orphans` are the queues that only handles keep, `timeouts` the pending timeouts of results.
`made` holds the results ever made, and `answers`, `abandons` and `frees` count how often each was
answered while a sender waited, how often its sender gave up unanswered and how often it was freed.
No function of the server reads these. -/
structure State where
  queueOf : ℕ → Option ℕ
  queues : ℕ → Option Queue
  orphans : List ℕ
  results : ℕ → Option MessageResult
  timeouts : List ℕ
  next : ℕ
  grants : ℕ → Bool
  allocs : ℕ
  error : Option Status
  made : ℕ → Bool
  answers : ℕ → ℕ
  abandons : ℕ → ℕ
  frees : ℕ → ℕ

def State.initial (grants : ℕ → Bool) : State where
  queueOf _ := none
  queues _ := none
  orphans := []
  results _ := none
  timeouts := []
  next := 0
  grants := grants
  allocs := 0
  error := none
  made _ := false
  answers _ := 0
  abandons _ := 0
  frees _ := 0

abbrev M := Exec State Fault

namespace Queue

def msgList (q : Queue) : MessageKind → List Message
  | .sendMessage => q.sendMsgs
  | .postMessage => q.postMsgs

def setMsgList (q : Queue) (l : List Message) : MessageKind → Queue
  | .sendMessage => { q with sendMsgs := l }
  | .postMessage => { q with postMsgs := l }

def setBits (q : Queue) (bits : BitVec 32) : Queue :=
  { q with wakeBits := q.wakeBits ||| bits, changedBits := q.changedBits ||| bits }

def clearBits (q : Queue) (bits : BitVec 32) : Queue :=
  { q with wakeBits := q.wakeBits &&& ~~~bits, changedBits := q.changedBits &&& ~~~bits }

/-- The queue that `create_msg_queue` makes. -/
def new : Queue where
  wakeBits := 0
  changedBits := 0
  paintCount := 0
  quitMessage := false
  exitCode := 0
  sendMsgs := []
  postMsgs := []
  sendResult := []
  callbackResult := []
  recvResult := []
  pendingTimers := []
  expiredTimers := []
  nextTimerId := 1
  timeout := false

end Queue

namespace State

def setQueue (s : State) (q : ℕ) (queue : Option Queue) : State :=
  { s with queues := Function.update s.queues q queue }

def setResult (s : State) (r : ℕ) (res : Option MessageResult) : State :=
  { s with results := Function.update s.results r res }

variable {s : State} {q r i : ℕ} {queue : Option Queue} {res : Option MessageResult}

@[simp] theorem setQueue_self : (s.setQueue q queue).queues q = queue := Function.update_self ..

@[simp] theorem setQueue_of_ne (h : i ≠ q) : (s.setQueue q queue).queues i = s.queues i :=
  Function.update_of_ne h ..

@[simp] theorem setResult_self : (s.setResult r res).results r = res := Function.update_self ..

@[simp] theorem setResult_of_ne (h : i ≠ r) : (s.setResult r res).results i = s.results i :=
  Function.update_of_ne h ..

@[simp] theorem setQueue_results : (s.setQueue q queue).results = s.results := rfl

@[simp] theorem setResult_queues : (s.setResult r res).queues = s.queues := rfl

@[simp] theorem setQueue_setQueue {other : Option Queue} :
    (s.setQueue q other).setQueue q queue = s.setQueue q queue := by
  simp only [setQueue, Function.update_idem]

end State

def setError (e : Status) : M PUnit := modify fun s => { s with error := some e }

/-- Whether `malloc` succeeds. -/
def malloc : M Bool := do
  let s ← get
  set { s with allocs := s.allocs + 1 }
  pure (s.grants s.allocs)

/-- Whether an allocation succeeds, with the error that it sets if it does not. -/
def alloc : M Bool := do
  let granted ← malloc
  modify fun s => if granted then s else { s with error := some statusNoMemory }
  pure granted

/-- An allocation that is made under a condition. -/
def allocIf (c : Bool) : M Bool := if c then alloc else pure false

/-- An address that has not been given out. -/
def newAddress : M ℕ := do
  let s ← get
  set { s with next := s.next + 1 }
  pure s.next

/-- `thread->queue` -/
def threadQueue (thread : ℕ) : M (Option ℕ) := do
  let s ← get
  pure (s.queueOf thread)

def getQueue (q : ℕ) : M Queue := do
  match (← get).queues q with
  | some queue => pure queue
  | none => throw .dangling

def setQueue (q : ℕ) (queue : Queue) : M PUnit := modify fun s => s.setQueue q (some queue)

def getResult (r : ℕ) : M MessageResult := do
  match (← get).results r with
  | some res => pure res
  | none => throw .dangling

def setResult (r : ℕ) (res : MessageResult) : M PUnit := modify fun s => s.setResult r (some res)

theorem wp_getQueue {s : State} {q : ℕ} {P : Queue → State → Prop} {E : Fault → Prop} :
    wp (getQueue q) P E s ↔
      (∀ queue, s.queues q = some queue → P queue s) ∧ (s.queues q = none → E .dangling) := by
  simp only [getQueue, wp_bind, wp_get]
  cases s.queues q with
  | none => simp
  | some queue => simp

theorem wp_getResult {s : State} {r : ℕ} {P : MessageResult → State → Prop} {E : Fault → Prop} :
    wp (getResult r) P E s ↔
      (∀ res, s.results r = some res → P res s) ∧ (s.results r = none → E .dangling) := by
  simp only [getResult, wp_bind, wp_get]
  cases s.results r with
  | none => simp
  | some res => simp

end Wine.Queues

/-!
## Messages and their results

The functions that send, receive and answer messages, and that free messages, results and queues.
-/

namespace Wine.Queues
open Wine.Lib
open Wine.Server (Status statusInvalidParameter statusNoMemory statusAccessDenied statusTimeout
  statusPending statusInvalidHandle)

def setQueueBits (q : ℕ) (bits : BitVec 32) : M PUnit := do
  let queue ← getQueue q
  setQueue q (queue.setBits bits)

def clearQueueBits (q : ℕ) (bits : BitVec 32) : M PUnit := do
  let queue ← getQueue q
  setQueue q (queue.clearBits bits)

def checkMsgFilter (msg first last : ℕ) : Bool := first ≤ msg && msg ≤ last

/-- `list_add_tail( &queue->msg_list[kind], &msg->entry )` -/
def addTail (q : ℕ) (kind : MessageKind) (msg : Message) : M PUnit := do
  let queue ← getQueue q
  setQueue q (queue.setMsgList (queue.msgList kind ++ [msg]) kind)

/-- The bits of a list of messages. -/
def MessageKind.bits : MessageKind → BitVec 32
  | .sendMessage => qsSendmessage
  | .postMessage => qsPostmessage ||| qsAllpostmessage

/-- A message is put at the end of a list and the bits of the list are set. -/
def deliver (q : ℕ) (kind : MessageKind) (msg : Message) : M PUnit := do
  addTail q kind msg
  setQueueBits q kind.bits

/-- `create_msg_queue`, which also makes the input of the thread. -/
def createMsgQueue (thread : ℕ) : M (Option ℕ) := do
  let input ← alloc
  let granted ← allocIf input
  if granted then
    let q ← newAddress
    setQueue q Queue.new
    modify fun s => { s with queueOf := Function.update s.queueOf thread (some q) }
    pure (some q)
  else pure none

def getCurrentQueue (current : ℕ) : M (Option ℕ) := do
  match ← threadQueue current with
  | some q => pure (some q)
  | none => createMsgQueue current

/-- The timeout of the result, if it has one, is not pending any more. -/
def removeTimeoutUser (r : ℕ) (timeout : Bool) : M PUnit :=
  modify fun s => if timeout then { s with timeouts := s.timeouts.erase r } else s

def freeResult (r : ℕ) : M PUnit := do
  let res ← getResult r
  removeTimeoutUser r res.timeout
  modify fun s =>
    { s.setResult r none with frees := Function.update s.frees r (s.frees r + 1) }

def removeResultFromSender (r : ℕ) : M PUnit := do
  let res ← getResult r
  match res.sender with
  | none => throw .assertion
  | some q =>
    let queue ← getQueue q
    setQueue q { queue with
      sendResult := queue.sendResult.erase r
      callbackResult := queue.callbackResult.erase r }
    setResult r { res with sender := none }
    modify fun s => if res.replied then s else
      { s with abandons := Function.update s.abandons r (s.abandons r + 1) }
    if res.receiver.isNone then freeResult r else pure ()

def storeMessageResult (r : ℕ) (result : ℕ) (error : Option Status) : M PUnit := do
  let res ← getResult r
  removeTimeoutUser r res.timeout
  let res := { res with result := result, error := error, replied := true, timeout := false }
  setResult r res
  match res.sender with
  | none => pure ()
  | some q =>
    modify fun s => { s with answers := Function.update s.answers r (s.answers r + 1) }
    match res.callbackMsg with
    | some msg =>
      deliver q .sendMessage { msg with lparam := result }
      setResult r { res with callbackMsg := none }
      removeResultFromSender r
    | none =>
      let queue ← getQueue q
      if queue.sendResult.head? = some r then setQueueBits q qsSmresult else pure ()

/-- The message is in no list any more. -/
def freeMessage (msg : Message) : M PUnit := do
  match msg.result with
  | none => pure ()
  | some r =>
    let res ← getResult r
    if res.sender.isSome then
      setResult r { res with msg := none, receiver := none }
      storeMessageResult r 0 (some statusAccessDenied)
    else
      setResult r { res with msg := none }
      freeResult r

/-- `list_remove( &msg->entry )` and what `remove_queue_message` makes of the bits of the queue -/
def Queue.dropMessage (queue : Queue) (msg : Message) (kind : MessageKind) : Queue :=
  let queue := queue.setMsgList ((queue.msgList kind).eraseP (·.id = msg.id)) kind
  match kind with
  | .sendMessage => if queue.sendMsgs = [] then queue.clearBits qsSendmessage else queue
  | .postMessage =>
    if queue.postMsgs = [] ∧ queue.quitMessage = false then
      queue.clearBits (qsPostmessage ||| qsAllpostmessage)
    else queue

def removeQueueMessage (q : ℕ) (msg : Message) (kind : MessageKind) : M PUnit := do
  let queue ← getQueue q
  setQueue q (queue.dropMessage msg kind)
  freeMessage msg

/-- The timeout of a result expires, and is not pending any more. -/
def resultTimeout (r : ℕ) : M PUnit := do
  removeTimeoutUser r true
  let res ← getResult r
  if res.replied then throw .assertion
  else
    let res := { res with timeout := false }
    setResult r res
    match res.msg with
    | none => storeMessageResult r 0 (some statusTimeout)
    | some m =>
      match res.receiver with
      | none => throw .dangling
      | some q =>
        let queue ← getQueue q
        match queue.sendMsgs.find? (·.id = m) with
        | none => throw .dangling
        | some msg =>
          removeQueueMessage q { msg with result := none } .sendMessage
          setResult r { res with msg := none, receiver := none }
          if res.sender.isNone then freeResult r
          else storeMessageResult r 0 (some statusTimeout)

/-- What `send_message` is asked to send. -/
structure SendArgs where
  type : MessageType
  win : ℕ
  msg : ℕ
  wparam : ℕ
  lparam : ℕ
  info : ℕ
  timeout : Bool
  callback : ℕ
  dataSize : ℕ
  abortIfHung : Bool
  deriving DecidableEq, Repr

/-- `add_timeout_user`, if a timeout is asked for and there is memory for it -/
def addTimeoutUser (r : ℕ) (timeout : Bool) : M Bool := do
  let granted ← allocIf timeout
  modify fun s => if granted then { s with timeouts := r :: s.timeouts } else s
  pure granted

/-- The result is put in the list of its sender. -/
def linkResult (sendQueue : Option ℕ) (recvQueue : ℕ) (msg : Message) (timeout : Bool) (r : ℕ)
    (callbackMsg : Option Message) : M (Option ℕ) := do
  match sendQueue with
  | none => throw .noQueue
  | some q =>
    let queue ← getQueue q
    setQueue q (if callbackMsg.isSome then
      { queue with callbackResult := r :: queue.callbackResult }
      else { queue with sendResult := r :: queue.sendResult })
    let pending ← addTimeoutUser r timeout
    setResult r ⟨some msg.id, some q, some recvQueue, false, 0, none, callbackMsg, 0, pending⟩
    modify fun s => { s with made := Function.update s.made r true }
    pure (some r)

def allocMessageResult (sendQueue : Option ℕ) (recvQueue : ℕ) (msg : Message) (req : SendArgs) :
    M (Option ℕ) := do
  if ← alloc then
    let r ← newAddress
    if msg.type = .callback then
      if ← alloc then
        let m ← newAddress
        linkResult sendQueue recvQueue msg req.timeout r
          (some ⟨m, .callbackResult, msg.win, msg.msg, req.callback, 0, req.info, 0, none⟩)
      else pure none
    else linkResult sendQueue recvQueue msg req.timeout r none
  else pure none

/-- The message that the client is given, with the size of its data. -/
structure MessageReply where
  total : ℕ
  msg : Option Message
  deriving DecidableEq, Repr

/-- The result of a received message goes on the stack of the receiver. -/
def pushResult (q : ℕ) (result : Option ℕ) : M PUnit := do
  match result with
  | none => pure ()
  | some r =>
    let res ← getResult r
    setResult r { res with msg := none }
    let queue ← getQueue q
    setQueue q { queue with recvResult := r :: queue.recvResult }

def receiveMessage (q : ℕ) (msg : Message) (maxSize : ℕ) : M MessageReply := do
  if msg.dataSize > maxSize then
    setError statusBufferOverflow
    pure ⟨msg.dataSize, none⟩
  else
    let queue ← getQueue q
    setQueue q { queue with sendMsgs := queue.sendMsgs.eraseP (·.id = msg.id) }
    pushResult q msg.result
    let queue ← getQueue q
    setQueue q (if queue.sendMsgs = [] then queue.clearBits qsSendmessage else queue)
    pure ⟨msg.dataSize, some msg⟩

/-- The reply is stored unless there is one already. -/
def answer (r : ℕ) (result : ℕ) (error : Option Status) (len : ℕ) : M PUnit := do
  let res ← getResult r
  if res.replied then pure ()
  else
    let granted ← allocIf (len ≠ 0)
    setResult r (if granted then { res with dataSize := len } else res)
    storeMessageResult r result error

def replyMessage (q : ℕ) (result : ℕ) (error : Option Status) (remove : Bool) (len : ℕ) :
    M PUnit := do
  let queue ← getQueue q
  match queue.recvResult with
  | [] => throw .dangling
  | r :: rest =>
    if remove then
      setQueue q { queue with recvResult := rest }
      let res ← getResult r
      setResult r { res with receiver := none }
      if res.sender.isNone then freeResult r else answer r result error len
    else answer r result error len

def emptyMsgList (q : ℕ) (kind : MessageKind) : M PUnit := do
  let queue ← getQueue q
  forM (queue.msgList kind) fun msg => do
    let queue ← getQueue q
    setQueue q (queue.setMsgList ((queue.msgList kind).eraseP (·.id = msg.id)) kind)
    freeMessage msg

def cleanupResults (q : ℕ) : M PUnit := do
  let queue ← getQueue q
  forM queue.sendResult removeResultFromSender
  let queue ← getQueue q
  forM queue.callbackResult removeResultFromSender
  let queue ← getQueue q
  forM queue.recvResult fun _ => replyMessage q 0 (some statusAccessDenied) true 0

def msgQueueDestroy (q : ℕ) : M PUnit := do
  cleanupResults q
  emptyMsgList q .sendMessage
  emptyMsgList q .postMessage
  modify fun s => s.setQueue q none

end Wine.Queues
