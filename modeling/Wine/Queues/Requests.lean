import Wine.Queues.State

/-!
# Timers and requests

The timers of a queue, the requests of the threads and the other events that change queues.
-/

namespace Wine.Queues
open Wine.Lib
open Wine.Server (Status statusInvalidParameter statusNoMemory statusAccessDenied statusTimeout
  statusPending statusInvalidHandle statusInvalidCid)

namespace Queue

/-! ## Timers -/

/-- `set_next_timer` -/
def setNextTimer (queue : Queue) : Queue :=
  let queue := { queue with timeout := !queue.pendingTimers.isEmpty }
  if queue.expiredTimers = [] then queue.clearBits qsTimer else queue.setBits qsTimer

def findTimer (queue : Queue) (win msg id : ℕ) : Option Timer :=
  (queue.pendingTimers ++ queue.expiredTimers).find? fun timer =>
    timer.win = win && timer.msg = msg && timer.timerId = id

/-- The timer goes in front of the first one that does not expire before it. -/
def linkTimer (queue : Queue) (timer : Timer) : Queue :=
  { queue with
    pendingTimers := queue.pendingTimers.takeWhile (·.when < timer.when) ++
      timer :: queue.pendingTimers.dropWhile (·.when < timer.when) }

/-- `list_remove( &timer->entry )` -/
def unlinkTimer (queue : Queue) (id : ℕ) : Queue :=
  { queue with
    pendingTimers := queue.pendingTimers.eraseP (·.id = id)
    expiredTimers := queue.expiredTimers.eraseP (·.id = id) }

def freeTimer (queue : Queue) (id : ℕ) : Queue := (queue.unlinkTimer id).setNextTimer

/-- The expiration is moved on by the rate until it is in the future. -/
def restartTimer (queue : Queue) (timer : Timer) (now : ℕ) : Queue :=
  let rounds := if now < timer.when then 0 else (now - timer.when) / timer.rate + 1
  let timer := { timer with when := timer.when + rounds * timer.rate }
  ((queue.unlinkTimer timer.id).linkTimer timer).setNextTimer

def findExpiredTimer (queue : Queue) (win first last : ℕ) : Option Timer :=
  queue.expiredTimers.find? fun timer =>
    (win = 0 || timer.win = win) && checkMsgFilter timer.msg first last

/-- `set_timer`, with what its callers fill in -/
def setTimer (queue : Queue) (timer : Timer) (rate now : ℕ) : Queue :=
  let timer := { timer with rate := max rate 1, when := now + rate }
  let queue := queue.linkTimer timer
  if queue.pendingTimers.head? = some timer then queue.setNextTimer else queue

/-- The timers of the window that are in the list are freed one by one. -/
def cleanupTimers (queue : Queue) (win : ℕ) (timers : List Timer) : Queue :=
  (timers.filter (·.win = win)).foldl (fun queue timer => queue.freeTimer timer.id) queue

/-- `inc_queue_paint_count`. The count does not go below 0. -/
def incPaintCount (queue : Queue) (incr : ℤ) : Queue :=
  let queue := { queue with paintCount := (queue.paintCount + incr).toNat }
  if queue.paintCount ≠ 0 then queue.setBits qsPaint else queue.clearBits qsPaint

end Queue

/-- The next timer of the queue expires. -/
def timerCallback (q : ℕ) : M PUnit := do
  let queue ← getQueue q
  match queue.pendingTimers with
  | [] => throw .dangling
  | timer :: rest =>
    setQueue q { queue with
      timeout := false
      pendingTimers := rest
      expiredTimers := queue.expiredTimers ++ [timer] }.setNextTimer

/-! ## Messages to a thread -/

/-- The loop of `queue_cleanup_window` over a list of messages, where the next message is found
before the present one is removed. -/
def cleanupMessages (q win : ℕ) (kind : MessageKind) : ℕ → Option Message → M PUnit
  | _, none => pure ()
  | 0, some _ => throw .endless
  | fuel + 1, some msg => do
    let queue ← getQueue q
    let rest := (queue.msgList kind).dropWhile (·.id ≠ msg.id)
    let next := rest.tail.head?
    if msg.win = win then removeQueueMessage q msg kind else pure ()
    cleanupMessages q win kind fuel next

/-- The window of a thread with this queue is destroyed. -/
def queueCleanupWindow (fuel q win : ℕ) : M PUnit := do
  let queue ← getQueue q
  let queue := queue.cleanupTimers win queue.pendingTimers
  setQueue q (queue.cleanupTimers win queue.expiredTimers)
  let queue ← getQueue q
  cleanupMessages q win .sendMessage fuel queue.sendMsgs.head?
  let queue ← getQueue q
  cleanupMessages q win .postMessage fuel queue.postMsgs.head?

/-- `post_message`, to the thread of a window -/
def postMessage (thread win msg wparam lparam : ℕ) : M PUnit := do
  match ← threadQueue thread with
  | none => pure ()
  | some q =>
    if ← alloc then
      let id ← newAddress
      deliver q .postMessage ⟨id, .posted, win, msg, wparam, lparam, 0, 0, none⟩
    else pure ()

/-- `post_win_event` -/
def postWinEvent (thread win event objectId childId info size : ℕ) : M PUnit := do
  match ← threadQueue thread with
  | none => pure ()
  | some q =>
    if ← alloc then
      if ← malloc then
        let id ← newAddress
        deliver q .sendMessage ⟨id, .winevent, win, event, objectId, childId, info, size, none⟩
      else pure ()
    else pure ()

/-- The data of a message is copied, if it has any. -/
def memdup (size : ℕ) : M Bool := if size ≠ 0 then alloc else pure true

/-- A message that is to be answered goes to the receiver. -/
def sendWithResult (sendQueue : Option ℕ) (recvQueue : ℕ) (msg : Message) (req : SendArgs) :
    M PUnit := do
  match ← allocMessageResult sendQueue recvQueue msg req with
  | some r => deliver recvQueue .sendMessage { msg with result := some r }
  | none => freeMessage msg

/-- The request `send_message`; `hung` is what `is_queue_hung` says of the receiver. -/
def handleSendMessage (current : ℕ) (thread : Option ℕ) (hung : Bool) (req : SendArgs) :
    M PUnit := do
  let sendQueue ← getCurrentQueue current
  match thread with
  | none => setError statusInvalidCid
  | some thread =>
    match ← threadQueue thread with
    | none => setError statusInvalidParameter
    | some recvQueue =>
      if req.abortIfHung && hung then setError statusTimeout
      else if ← alloc then
        let id ← newAddress
        let msg : Message :=
          ⟨id, req.type, req.win, req.msg, req.wparam, req.lparam, req.info, 0, none⟩
        match req.type with
        | .otherProcess =>
          if ← memdup req.dataSize then
            sendWithResult sendQueue recvQueue { msg with dataSize := req.dataSize } req
          else pure ()
        | .ascii | .unicode | .callback => sendWithResult sendQueue recvQueue msg req
        | .notify => deliver recvQueue .sendMessage msg
        | .posted =>
          if ← memdup req.dataSize then
            deliver recvQueue .postMessage { msg with dataSize := req.dataSize }
          else pure ()
        | .hardware | .callbackResult | .winevent => setError statusInvalidParameter
      else pure ()

def handlePostQuitMessage (current exitCode : ℕ) : M PUnit := do
  match ← getCurrentQueue current with
  | none => pure ()
  | some q =>
    let queue ← getQueue q
    setQueue q { queue with quitMessage := true, exitCode := exitCode }
    setQueueBits q (qsPostmessage ||| qsAllpostmessage)

/-! ## Messages for the current thread -/

/-- What `get_message` is asked for. `isChild` is the window tree, `hardware` says that there is a
hardware message for the thread, `repaint` is the window that needs to be painted. -/
structure GetArgs where
  remove : Bool
  sentOnly : Bool
  win : ℕ
  first : ℕ
  last : ℕ
  maxSize : ℕ
  now : ℕ
  isChild : ℕ → ℕ → Bool
  hardware : Bool
  repaint : Option ℕ

def getPostedMessage (q : ℕ) (req : GetArgs) : M (Option MessageReply) := do
  let queue ← getQueue q
  match queue.postMsgs.find? fun msg =>
      (req.win = 0 || msg.win = 0 || msg.win = req.win || req.isChild req.win msg.win) &&
        checkMsgFilter msg.msg req.first req.last with
  | none => pure none
  | some msg =>
    if msg.dataSize > req.maxSize then
      setError statusBufferOverflow
      pure (some ⟨msg.dataSize, none⟩)
    else
      if req.remove then removeQueueMessage q msg .postMessage else pure ()
      pure (some ⟨msg.dataSize, some msg⟩)

/-- A message that is made for the reply only. -/
def MessageReply.made (win msg wparam lparam : ℕ) : MessageReply :=
  ⟨0, some ⟨0, .posted, win, msg, wparam, lparam, 0, 0, none⟩⟩

def getQuitMessage (q : ℕ) (remove : Bool) : M (Option MessageReply) := do
  let queue ← getQueue q
  if queue.quitMessage then
    if remove then
      let queue := { queue with quitMessage := false }
      setQueue q (if queue.postMsgs = [] then
        queue.clearBits (qsPostmessage ||| qsAllpostmessage) else queue)
    else pure ()
    pure (some (.made 0 wmQuit queue.exitCode 0))
  else pure none

/-- What `get_message` checks last: the windows to paint and the expired timers. -/
def getPaintOrTimer (q : ℕ) (req : GetArgs) : M (Option MessageReply) := do
  let queue ← getQueue q
  let paint :=
    if queue.paintCount ≠ 0 && checkMsgFilter wmPaint req.first req.last then req.repaint else none
  match paint with
  | some win => pure (some (.made win wmPaint 0 0))
  | none =>
    match queue.findExpiredTimer req.win req.first req.last with
    | some timer =>
      setQueue q (if req.remove then queue.restartTimer timer req.now else queue)
      pure (some (.made timer.win timer.msg timer.timerId timer.lparam))
    | none =>
      setError statusPending
      pure none

def handleGetMessage (current : ℕ) (req : GetArgs) : M (Option MessageReply) := do
  match ← getCurrentQueue current with
  | none => pure none
  | some q =>
    let queue ← getQueue q
    match queue.sendMsgs with
    | msg :: _ => some <$> receiveMessage q msg req.maxSize
    | [] =>
      if req.sentOnly then
        setError statusPending
        pure none
      else
        setQueue q { queue with
          changedBits := if req.first = 0 ∧ req.last = 2 ^ 32 - 1 then 0
            else queue.changedBits &&& qsAllpostmessage }
        match ← getPostedMessage q req with
        | some reply => pure (some reply)
        | none =>
          match ← getQuitMessage q req.remove with
          | some reply => pure (some reply)
          | none => if req.hardware then pure none else getPaintOrTimer q req

def handleReplyMessage (current result : ℕ) (remove : Bool) (len : ℕ) : M PUnit := do
  match ← threadQueue current with
  | none => setError statusAccessDenied
  | some q =>
    let queue ← getQueue q
    if queue.recvResult = [] then pure () else replyMessage q result none remove len

/-- The request `get_message_reply`. The reply is the result, if there is one. -/
def handleGetMessageReply (current : ℕ) (cancel : Bool) : M (Option ℕ) := do
  match ← threadQueue current with
  | none =>
    setError statusAccessDenied
    pure none
  | some q =>
    setError statusPending
    let queue ← getQueue q
    match queue.sendResult with
    | [] => pure none
    | r :: _ =>
      let res ← getResult r
      if res.replied || cancel then
        modify fun s => if res.replied then { s with error := res.error } else s
        removeResultFromSender r
        let queue ← getQueue q
        match queue.sendResult with
        | [] => clearQueueBits q qsSmresult
        | top :: _ =>
          let top ← getResult top
          if top.replied then pure () else clearQueueBits q qsSmresult
        pure (if res.replied then some res.result else none)
      else pure none

def addTimer (q win msg id rate lparam now : ℕ) : M PUnit := do
  if ← alloc then
    let addr ← newAddress
    let queue ← getQueue q
    setQueue q (queue.setTimer ⟨addr, 0, 0, win, msg, id, lparam⟩ rate now)
  else pure ()

/-- The next timer id without a timer. -/
def freeTimerId (q msg : ℕ) : ℕ → M ℕ
  | 0 => throw .endless
  | fuel + 1 => do
    let queue ← getQueue q
    let id := queue.nextTimerId
    setQueue q { queue with nextTimerId := if id + 1 ≥ 0x10000 then 1 else id + 1 }
    if (queue.findTimer 0 msg id).isSome then freeTimerId q msg fuel else pure id

/-- The request `set_win_timer`. `thread` is the thread of the window and whether it is one of the
process. -/
def handleSetWinTimer (fuel current win : ℕ) (thread : Option (ℕ × Bool))
    (msg id rate lparam now : ℕ) : M PUnit := do
  if win ≠ 0 then
    match thread with
    | none => setError statusInvalidHandle
    | some (_, false) => setError statusAccessDenied
    | some (thread, true) =>
      match ← threadQueue thread with
      | none => throw .noQueue
      | some q =>
        let queue ← getQueue q
        setQueue q (match queue.findTimer win msg id with
          | some timer => queue.freeTimer timer.id
          | none => queue)
        addTimer q win msg id rate lparam now
  else
    match ← getCurrentQueue current with
    | none => throw .noQueue
    | some q =>
      let id ← freeTimerId q msg fuel
      addTimer q 0 msg id rate lparam now

/-- The request `kill_win_timer` -/
def handleKillWinTimer (current win : ℕ) (thread : Option (ℕ × Bool)) (msg id : ℕ) : M PUnit := do
  match if win ≠ 0 then thread else some (current, true) with
  | none => setError statusInvalidHandle
  | some (_, false) => setError statusAccessDenied
  | some (thread, true) =>
    match ← threadQueue thread with
    | none => setError statusInvalidParameter
    | some q =>
      let queue ← getQueue q
      match queue.findTimer win msg id with
      | some timer => setQueue q (queue.freeTimer timer.id)
      | none => setError statusInvalidParameter

/-- The thread exits; handles may keep its queue. -/
def freeMsgQueue (thread : ℕ) : M PUnit :=
  modify fun s => match s.queueOf thread with
    | none => s
    | some q =>
      { s with queueOf := Function.update s.queueOf thread none, orphans := q :: s.orphans }

/-- The last reference to a queue without a thread goes away. -/
def releaseQueue (q : ℕ) : M PUnit := do
  let s ← get
  if q ∈ s.orphans then
    modify fun s => { s with orphans := s.orphans.erase q }
    msgQueueDestroy q
  else pure ()

/-- What can happen to the queues. The first argument of a request is the current thread. -/
inductive Action where
  | getMsgQueue (current : ℕ)
  | sendMessage (current : ℕ) (thread : Option ℕ) (hung : Bool) (req : SendArgs)
  | postMessage (thread win msg wparam lparam : ℕ)
  | postWinEvent (thread win event objectId childId info size : ℕ)
  | postQuitMessage (current exitCode : ℕ)
  | getMessage (current : ℕ) (req : GetArgs)
  | replyMessage (current result : ℕ) (remove : Bool) (len : ℕ)
  | getMessageReply (current : ℕ) (cancel : Bool)
  | setWinTimer (current win : ℕ) (thread : Option (ℕ × Bool)) (msg id rate lparam now : ℕ)
  | killWinTimer (current win : ℕ) (thread : Option (ℕ × Bool)) (msg id : ℕ)
  | incPaintCount (thread : ℕ) (incr : ℤ)
  | cleanupWindow (thread win : ℕ)
  | resultTimeout (r : ℕ)
  | timerCallback (q : ℕ)
  | threadExit (thread : ℕ)
  | releaseQueue (q : ℕ)

def incQueuePaintCount (thread : ℕ) (incr : ℤ) : M PUnit := do
  match ← threadQueue thread with
  | none => throw .noQueue
  | some q =>
    let queue ← getQueue q
    setQueue q (queue.incPaintCount incr)

def cleanupWindow (fuel thread win : ℕ) : M PUnit := do
  match ← threadQueue thread with
  | none => pure ()
  | some q => queueCleanupWindow fuel q win

/-- The timeout of the result expires, if it is pending. -/
def expireResult (r : ℕ) : M PUnit := do
  let s ← get
  if r ∈ s.timeouts then resultTimeout r else pure ()

/-- The timeout of the queue expires, if it is pending. -/
def expireTimer (q : ℕ) : M PUnit := do
  let s ← get
  match s.queues q with
  | none => pure ()
  | some queue => if queue.timeout then timerCallback q else pure ()

def perform (fuel : ℕ) : Action → M PUnit
  | .getMsgQueue current => (fun _ => ()) <$> getCurrentQueue current
  | .sendMessage current thread hung req => handleSendMessage current thread hung req
  | .postMessage thread win msg wparam lparam => postMessage thread win msg wparam lparam
  | .postWinEvent thread win event objectId childId info size =>
    postWinEvent thread win event objectId childId info size
  | .postQuitMessage current exitCode => handlePostQuitMessage current exitCode
  | .getMessage current req => (fun _ => ()) <$> handleGetMessage current req
  | .replyMessage current result remove len => handleReplyMessage current result remove len
  | .getMessageReply current cancel => (fun _ => ()) <$> handleGetMessageReply current cancel
  | .setWinTimer current win thread msg id rate lparam now =>
    handleSetWinTimer fuel current win thread msg id rate lparam now
  | .killWinTimer current win thread msg id => handleKillWinTimer current win thread msg id
  | .incPaintCount thread incr => incQueuePaintCount thread incr
  | .cleanupWindow thread win => cleanupWindow fuel thread win
  | .resultTimeout r => expireResult r
  | .timerCallback q => expireTimer q
  | .threadExit thread => freeMsgQueue thread
  | .releaseQueue q => releaseQueue q

/-- `fuel` bounds the loops over lists that grow while they are gone through. -/
def step (fuel : ℕ) (s : State) (a : Action) : Except Fault State :=
  (perform fuel a { s with error := none }).map (·.2)

end Wine.Queues
