import Wine.Queues.Bits

/-!
# The bits over the runs of the server

Every function keeps the bits of the queues, and so does every run.
-/

namespace Wine.Queues
open Wine.Lib

variable {x : Option ℕ}

theorem keeps_removeTimeoutUser (r : ℕ) (timeout : Bool) :
    Keeps (Mirrors x) (removeTimeoutUser r timeout) :=
  keeps_modify fun s => by cases timeout <;> rfl

theorem keeps_freeResult (r : ℕ) : Keeps (Mirrors x) (freeResult r) := by
  refine (keeps_getResult r).bind fun res => (keeps_removeTimeoutUser _ _).bind fun _ => ?_
  exact keeps_modify fun _ => rfl

theorem keeps_removeResultFromSender (r : ℕ) : Keeps (Mirrors x) (removeResultFromSender r) := by
  refine (keeps_getResult r).bind fun res => ?_
  cases res.sender with
  | none => exact .throw _
  | some q =>
    refine keeps_getQueue fun queue hq => (keeps_setQueue ?_).bind fun _ => ?_
    · exact hq.imp_right fun h => h.of_same rfl rfl rfl rfl rfl rfl
    · refine (keeps_setResult _ _).bind fun _ => (keeps_modify fun s => ?_).bind fun _ => ?_
      · split <;> rfl
      · exact .ite (fun _ => keeps_freeResult r) fun _ => .pure _

theorem keeps_setQueueBits_smresult (q : ℕ) : Keeps (Mirrors x) (setQueueBits q qsSmresult) :=
  keeps_getQueue fun _ hq => keeps_setQueue (hq.imp_right Queue.Mirror.setSmresult)

theorem keeps_clearQueueBits_smresult (q : ℕ) : Keeps (Mirrors x) (clearQueueBits q qsSmresult) :=
  keeps_getQueue fun _ hq => keeps_setQueue (hq.imp_right Queue.Mirror.clearSmresult)

theorem keeps_storeMessageResult (r result : ℕ) (error : Option Wine.Server.Status) :
    Keeps (Mirrors x) (storeMessageResult r result error) := by
  refine (keeps_getResult r).bind fun res => (keeps_removeTimeoutUser _ _).bind fun _ =>
    (keeps_setResult _ _).bind fun _ => ?_
  cases res.sender with
  | none => exact .pure _
  | some q =>
    dsimp only
    refine Keeps.bind (keeps_modify fun _ => rfl) fun _ => ?_
    cases res.callbackMsg with
    | some msg =>
      exact (keeps_deliver _ _ _).bind fun _ => (keeps_setResult _ _).bind fun _ =>
        keeps_removeResultFromSender r
    | none =>
      refine keeps_getQueue fun queue _ => .ite (fun _ => ?_) fun _ => .pure _
      exact keeps_setQueueBits_smresult q

theorem keeps_freeMessage (msg : Message) : Keeps (Mirrors x) (freeMessage msg) := by
  unfold freeMessage
  cases msg.result with
  | none => exact .pure _
  | some r =>
    refine (keeps_getResult r).bind fun res => .ite (fun _ => ?_) fun _ => ?_
    · exact (keeps_setResult _ _).bind fun _ => keeps_storeMessageResult _ _ _
    · exact (keeps_setResult _ _).bind fun _ => keeps_freeResult r

theorem keeps_removeQueueMessage (q : ℕ) (msg : Message) (kind : MessageKind) :
    Keeps (Mirrors x) (removeQueueMessage q msg kind) :=
  keeps_getQueue fun _ hq => (keeps_setQueue (hq.imp_right fun h => h.dropMessage msg kind)).bind
    fun _ => keeps_freeMessage msg

theorem keeps_resultTimeout (r : ℕ) : Keeps (Mirrors x) (resultTimeout r) := by
  refine (keeps_removeTimeoutUser _ _).bind fun _ => (keeps_getResult r).bind fun res => ?_
  refine .ite (fun _ => .throw _) fun _ => (keeps_setResult _ _).bind fun _ => ?_
  cases res.msg with
  | none => exact keeps_storeMessageResult _ _ _
  | some m =>
    cases res.receiver with
    | none => exact .throw _
    | some q =>
      refine keeps_getQueue fun queue _ => ?_
      dsimp only
      cases queue.sendMsgs.find? (·.id = m) with
      | none => exact .throw _
      | some msg =>
        refine (keeps_removeQueueMessage _ _ _).bind fun _ => (keeps_setResult _ _).bind fun _ => ?_
        exact .ite (fun _ => keeps_freeResult r) fun _ => keeps_storeMessageResult _ _ _

theorem keeps_answer (r result : ℕ) (error : Option Wine.Server.Status) (len : ℕ) :
    Keeps (Mirrors x) (answer r result error len) := by
  refine (keeps_getResult r).bind fun res => .ite (fun _ => .pure _) fun _ => ?_
  refine (keeps_allocIf _).bind fun granted => ?_
  exact (keeps_setResult _ _).bind fun _ => keeps_storeMessageResult _ _ _

theorem keeps_replyMessage (q result : ℕ) (error : Option Wine.Server.Status) (remove : Bool)
    (len : ℕ) : Keeps (Mirrors x) (replyMessage q result error remove len) := by
  refine keeps_getQueue fun queue hq => ?_
  cases queue.recvResult with
  | nil => exact .throw _
  | cons r rest =>
    refine .ite (fun _ => ?_) fun _ => keeps_answer _ _ _ _
    refine (keeps_setQueue (hq.imp_right fun h => h.of_same rfl rfl rfl rfl rfl rfl)).bind fun _ => ?_
    refine (keeps_getResult r).bind fun res => (keeps_setResult _ _).bind fun _ => ?_
    exact .ite (fun _ => keeps_freeResult r) fun _ => keeps_answer _ _ _ _

theorem keeps_cleanupResults (q : ℕ) : Keeps (Mirrors x) (cleanupResults q) := by
  refine keeps_getQueue fun queue _ => Keeps.bind (.forM fun r _ => keeps_removeResultFromSender r) ?_
  refine fun _ => keeps_getQueue fun queue _ =>
    Keeps.bind (.forM fun r _ => keeps_removeResultFromSender r) fun _ => ?_
  exact keeps_getQueue fun queue _ => .forM fun r _ => keeps_replyMessage _ _ _ _ _

theorem Mirrors.mono {s : State} {q : ℕ} (h : Mirrors none s) : Mirrors (some q) s := by
  intro q' queue hq'
  exact (h q' queue hq').elim (fun h => by cases h) .inr

/-- The bits of a queue are not kept while it is emptied to be freed. -/
theorem keeps_emptyMsgList (q : ℕ) (kind : MessageKind) :
    Keeps (Mirrors (some q)) (emptyMsgList q kind) := by
  refine keeps_getQueue fun queue _ => .forM fun msg _ => keeps_getQueue fun queue _ => ?_
  exact (keeps_setQueue (.inl rfl)).bind fun _ => keeps_freeMessage msg

theorem keeps_msgQueueDestroy (q : ℕ) : Keeps (Mirrors none) (msgQueueDestroy q) := by
  have hlists : Keeps (Mirrors (some q)) (do
      cleanupResults q
      emptyMsgList q .sendMessage
      emptyMsgList q .postMessage : M PUnit) :=
    (keeps_cleanupResults q).bind fun _ => (keeps_emptyMsgList q _).bind fun _ =>
      keeps_emptyMsgList q _
  intro s hs
  have hw := hlists s hs.mono
  simp only [msgQueueDestroy, wp_bind, wp_modify] at hw ⊢
  refine wp_mono hw fun _ s₁ h₁ => wp_mono h₁ fun _ s₂ h₂ => wp_mono h₂ fun _ s₃ h₃ => ?_
  intro q' queue hq'
  by_cases hqq : q' = q
  · subst hqq
    rw [State.setQueue_self] at hq'
    cases hq'
  · rw [State.setQueue_of_ne hqq] at hq'
    exact .inr ((h₃ q' queue hq').resolve_left fun h => hqq (Option.some.inj h).symm)

/-! ## The requests -/

theorem keeps_threadQueue (thread : ℕ) : Keeps (Mirrors x) (threadQueue thread) := fun _ hs => hs

theorem keeps_createMsgQueue (thread : ℕ) : Keeps (Mirrors x) (createMsgQueue thread) := by
  refine keeps_alloc.bind fun input => (keeps_allocIf _).bind fun granted => ?_
  refine .ite (fun _ => ?_) fun _ => .pure _
  refine keeps_newAddress.bind fun q => (keeps_setQueue (.inr Queue.mirror_new)).bind fun _ => ?_
  exact Keeps.bind (keeps_modify fun _ => rfl) fun _ => .pure _

theorem keeps_getCurrentQueue (current : ℕ) : Keeps (Mirrors x) (getCurrentQueue current) := by
  refine (keeps_threadQueue _).bind fun o => ?_
  cases o with
  | none => exact keeps_createMsgQueue current
  | some q => exact .pure _

theorem keeps_linkResult (sendQueue : Option ℕ) (recvQueue : ℕ) (msg : Message) (timeout : Bool)
    (r : ℕ) (callbackMsg : Option Message) :
    Keeps (Mirrors x) (linkResult sendQueue recvQueue msg timeout r callbackMsg) := by
  unfold linkResult addTimeoutUser
  cases sendQueue with
  | none => exact .throw _
  | some q =>
    refine keeps_getQueue fun queue hq => (keeps_setQueue ?_).bind fun _ => ?_
    · refine hq.imp_right fun h => ?_
      split <;> exact h.of_same rfl rfl rfl rfl rfl rfl
    · refine Keeps.bind ((keeps_allocIf _).bind fun granted => ?_) fun pending =>
        (keeps_setResult _ _).bind fun _ => Keeps.bind (keeps_modify fun _ => rfl) fun _ => .pure _
      exact Keeps.bind (keeps_modify fun s => by cases granted <;> rfl) fun _ => .pure _

theorem keeps_allocMessageResult (sendQueue : Option ℕ) (recvQueue : ℕ) (msg : Message)
    (req : SendArgs) : Keeps (Mirrors x) (allocMessageResult sendQueue recvQueue msg req) := by
  refine keeps_alloc.bind fun granted => .ite (fun _ => ?_) fun _ => .pure _
  refine keeps_newAddress.bind fun r => .ite (fun _ => ?_) fun _ => keeps_linkResult _ _ _ _ _ _
  refine keeps_alloc.bind fun granted => .ite (fun _ => ?_) fun _ => .pure _
  exact keeps_newAddress.bind fun m => keeps_linkResult _ _ _ _ _ _

theorem keeps_sendWithResult (sendQueue : Option ℕ) (recvQueue : ℕ) (msg : Message)
    (req : SendArgs) : Keeps (Mirrors x) (sendWithResult sendQueue recvQueue msg req) := by
  refine (keeps_allocMessageResult _ _ _ _).bind fun o => ?_
  cases o with
  | none => exact keeps_freeMessage msg
  | some r => exact keeps_deliver _ _ _

theorem keeps_memdup (size : ℕ) : Keeps (Mirrors x) (memdup size) :=
  .ite (fun _ => keeps_alloc) fun _ => .pure _

theorem keeps_handleSendMessage (current : ℕ) (thread : Option ℕ) (hung : Bool) (req : SendArgs) :
    Keeps (Mirrors x) (handleSendMessage current thread hung req) := by
  refine (keeps_getCurrentQueue current).bind fun sendQueue => ?_
  cases thread with
  | none => exact keeps_setError _
  | some thread =>
    refine (keeps_threadQueue _).bind fun o => ?_
    cases o with
    | none => exact keeps_setError _
    | some recvQueue =>
      refine .ite (fun _ => keeps_setError _) fun _ => keeps_alloc.bind fun granted => ?_
      refine .ite (fun _ => keeps_newAddress.bind fun id => ?_) fun _ => .pure _
      cases req.type with
      | otherProcess =>
        refine (keeps_memdup _).bind fun copied => .ite (fun _ => ?_) fun _ => .pure _
        exact keeps_sendWithResult _ _ _ _
      | ascii | unicode | callback => exact keeps_sendWithResult _ _ _ _
      | notify => exact keeps_deliver _ _ _
      | posted =>
        refine (keeps_memdup _).bind fun copied => .ite (fun _ => ?_) fun _ => .pure _
        exact keeps_deliver _ _ _
      | hardware | callbackResult | winevent => exact keeps_setError _

theorem keeps_postMessage (thread win msg wparam lparam : ℕ) :
    Keeps (Mirrors x) (postMessage thread win msg wparam lparam) := by
  refine (keeps_threadQueue _).bind fun o => ?_
  cases o with
  | none => exact .pure _
  | some q =>
    refine keeps_alloc.bind fun granted => .ite (fun _ => ?_) fun _ => .pure _
    exact keeps_newAddress.bind fun id => keeps_deliver _ _ _

theorem keeps_postWinEvent (thread win event objectId childId info size : ℕ) :
    Keeps (Mirrors x) (postWinEvent thread win event objectId childId info size) := by
  refine (keeps_threadQueue _).bind fun o => ?_
  cases o with
  | none => exact .pure _
  | some q =>
    refine keeps_alloc.bind fun granted => .ite (fun _ => ?_) fun _ => .pure _
    refine keeps_malloc.bind fun granted => .ite (fun _ => ?_) fun _ => .pure _
    exact keeps_newAddress.bind fun id => keeps_deliver _ _ _

theorem keeps_handlePostQuitMessage (current exitCode : ℕ) :
    Keeps (Mirrors x) (handlePostQuitMessage current exitCode) := by
  refine (keeps_getCurrentQueue current).bind fun o => ?_
  cases o with
  | none => exact .pure _
  | some q =>
    intro s hs
    simp only [setQueueBits, setQueue, wp_bind, wp_getQueue, wp_modify, State.setQueue_self,
      State.setQueue_setQueue]
    refine ⟨fun queue hq => ⟨?_, (fun h => by cases h)⟩, fun _ => trivial⟩
    rintro _ ⟨⟩
    exact hs.setQueue ((hs q queue hq).imp_right fun h => h.quit exitCode)

theorem keeps_receiveMessage (q : ℕ) (msg : Message) (maxSize : ℕ) :
    Keeps (Mirrors x) (receiveMessage q msg maxSize) := by
  refine .ite (fun _ => (keeps_setError _).bind fun _ => .pure _) fun _ s hs => ?_
  simp only [wp_bind, wp_getQueue, setQueue, wp_modify, wp_pure]
  refine ⟨fun queue hq => ?_, fun _ => trivial⟩
  have hcut (stack : List ℕ) := (hs q queue hq).imp_right fun h =>
    (h.of_same rfl rfl rfl rfl rfl rfl : Queue.Mirror { queue with recvResult := stack }).setSendMsgs
      (l := queue.sendMsgs.eraseP (·.id = msg.id)) Queue.ne_nil_of_eraseP
  unfold pushResult
  cases msg.result with
  | none =>
    simp only [wp_pure, State.setQueue_self, State.setQueue_setQueue]
    refine ⟨?_, (fun h => by cases h)⟩
    rintro _ ⟨⟩
    exact hs.setQueue (hcut queue.recvResult)
  | some r =>
    simp only [wp_bind, wp_getResult, setResult, setQueue, wp_modify, wp_getQueue,
      State.setResult_queues, State.setQueue_self, State.setQueue_results]
    refine ⟨fun res hres => ⟨?_, (fun h => by cases h)⟩, fun _ => trivial⟩
    rintro _ ⟨⟩
    refine ⟨?_, (fun h => by cases h)⟩
    rintro _ ⟨⟩
    refine hs.of_update (q := q) (fun i hi => ?_) fun other hother => ?_
    · simp only [State.setQueue_of_ne hi, State.setResult_queues]
    · rw [State.setQueue_self] at hother
      exact Option.some.inj hother ▸ hcut (r :: queue.recvResult)

theorem keeps_getPostedMessage (q : ℕ) (req : GetArgs) :
    Keeps (Mirrors x) (getPostedMessage q req) := by
  refine keeps_getQueue fun queue _ => ?_
  split
  · exact .pure _
  · refine .ite (fun _ => (keeps_setError _).bind fun _ => .pure _) fun _ => ?_
    exact .ite (fun _ => (keeps_removeQueueMessage _ _ _).bind fun _ => .pure _) fun _ => .pure _

theorem keeps_getQuitMessage (q : ℕ) (remove : Bool) :
    Keeps (Mirrors x) (getQuitMessage q remove) := by
  refine keeps_getQueue fun queue hq => .ite (fun _ => ?_) fun _ => .pure _
  refine .ite (fun _ => (keeps_setQueue (hq.imp_right fun h => ?_)).bind fun _ => .pure _) fun _ => .pure _
  simpa using h.setPostMsgs (l := queue.postMsgs) (q := false) fun hl => .inl (by simpa using hl)

theorem keeps_getPaintOrTimer (q : ℕ) (req : GetArgs) :
    Keeps (Mirrors x) (getPaintOrTimer q req) := by
  refine keeps_getQueue fun queue hq => ?_
  dsimp only
  split
  · exact .pure _
  · split
    · refine (keeps_setQueue (hq.imp_right fun h => ?_)).bind fun _ => .pure _
      split
      · exact h.restartTimer _ _
      · exact h
    · exact (keeps_setError _).bind fun _ => .pure _

theorem keeps_handleGetMessage (current : ℕ) (req : GetArgs) :
    Keeps (Mirrors x) (handleGetMessage current req) := by
  refine (keeps_getCurrentQueue current).bind fun o => ?_
  cases o with
  | none => exact .pure _
  | some q =>
    refine keeps_getQueue fun queue hq => ?_
    cases hsend : queue.sendMsgs with
    | cons msg rest => exact .map _ (keeps_receiveMessage _ _ _)
    | nil =>
      refine .ite (fun _ => (keeps_setError _).bind fun _ => .pure _) fun _ => ?_
      refine (keeps_setQueue (hq.imp_right fun h => h.of_same rfl hsend.symm rfl rfl rfl rfl)).bind
        fun _ => ?_
      refine (keeps_getPostedMessage q req).bind fun posted => ?_
      cases posted with
      | some reply => exact .pure _
      | none =>
        refine (keeps_getQuitMessage q _).bind fun quit => ?_
        cases quit with
        | some reply => exact .pure _
        | none => exact .ite (fun _ => .pure _) fun _ => keeps_getPaintOrTimer q req

theorem keeps_handleReplyMessage (current result : ℕ) (remove : Bool) (len : ℕ) :
    Keeps (Mirrors x) (handleReplyMessage current result remove len) := by
  refine (keeps_threadQueue _).bind fun o => ?_
  cases o with
  | none => exact keeps_setError _
  | some q =>
    exact keeps_getQueue fun queue _ => .ite (fun _ => .pure _) fun _ => keeps_replyMessage _ _ _ _ _

theorem keeps_handleGetMessageReply (current : ℕ) (cancel : Bool) :
    Keeps (Mirrors x) (handleGetMessageReply current cancel) := by
  refine (keeps_threadQueue _).bind fun o => ?_
  cases o with
  | none => exact (keeps_setError _).bind fun _ => .pure _
  | some q =>
    refine (keeps_setError _).bind fun _ => keeps_getQueue fun queue _ => ?_
    cases queue.sendResult with
    | nil => exact .pure _
    | cons r rest =>
      refine (keeps_getResult r).bind fun res => .ite (fun _ => ?_) fun _ => .pure _
      refine Keeps.bind (keeps_modify fun s => by split <;> rfl) fun _ => ?_
      refine (keeps_removeResultFromSender r).bind fun _ => keeps_getQueue fun queue _ => ?_
      cases queue.sendResult with
      | nil => exact (keeps_clearQueueBits_smresult q).bind fun _ => .pure _
      | cons top _ =>
        refine (keeps_getResult top).bind fun res => .ite (fun _ => .pure _) fun _ => ?_
        exact (keeps_clearQueueBits_smresult q).bind fun _ => .pure _

theorem keeps_addTimer (q win msg id rate lparam now : ℕ) :
    Keeps (Mirrors x) (addTimer q win msg id rate lparam now) := by
  refine keeps_alloc.bind fun granted => .ite (fun _ => ?_) fun _ => .pure _
  refine keeps_newAddress.bind fun addr => keeps_getQueue fun queue hq => ?_
  exact keeps_setQueue (hq.imp_right fun h => h.setTimer _ _ _)

theorem keeps_freeTimerId (q msg fuel : ℕ) : Keeps (Mirrors x) (freeTimerId q msg fuel) := by
  induction fuel with
  | zero => exact .throw _
  | succ fuel ih =>
    refine keeps_getQueue fun queue hq => ?_
    refine (keeps_setQueue (hq.imp_right fun h => h.of_same rfl rfl rfl rfl rfl rfl)).bind fun _ => ?_
    exact .ite (fun _ => ih) fun _ => .pure _

theorem keeps_handleSetWinTimer (fuel current win : ℕ) (thread : Option (ℕ × Bool))
    (msg id rate lparam now : ℕ) :
    Keeps (Mirrors x) (handleSetWinTimer fuel current win thread msg id rate lparam now) := by
  refine .ite (fun _ => ?_) fun _ => (keeps_getCurrentQueue current).bind fun o => ?_
  · split
    · exact keeps_setError _
    · exact keeps_setError _
    · refine (keeps_threadQueue _).bind fun o => ?_
      cases o with
      | none => exact .throw _
      | some q =>
        refine keeps_getQueue fun queue hq => (keeps_setQueue ?_).bind fun _ => keeps_addTimer _ _ _ _ _ _ _
        refine hq.imp_right fun h => ?_
        split
        · exact h.freeTimer _
        · exact h
  · cases o with
    | none => exact .throw _
    | some q => exact (keeps_freeTimerId q msg fuel).bind fun id => keeps_addTimer _ _ _ _ _ _ _

theorem keeps_handleKillWinTimer (current win : ℕ) (thread : Option (ℕ × Bool)) (msg id : ℕ) :
    Keeps (Mirrors x) (handleKillWinTimer current win thread msg id) := by
  unfold handleKillWinTimer
  split
  · exact keeps_setError _
  · exact keeps_setError _
  · refine (keeps_threadQueue _).bind fun o => ?_
    cases o with
    | none => exact keeps_setError _
    | some q =>
      refine keeps_getQueue fun queue hq => ?_
      split
      · exact keeps_setQueue (hq.imp_right fun h => h.freeTimer _)
      · exact keeps_setError _

/-! ## The other events -/

theorem keeps_cleanupMessages (q win : ℕ) (kind : MessageKind) (fuel : ℕ) (cursor : Option Message) :
    Keeps (Mirrors x) (cleanupMessages q win kind fuel cursor) := by
  induction fuel generalizing cursor with
  | zero =>
    cases cursor with
    | none => exact .pure _
    | some msg => exact .throw _
  | succ fuel ih =>
    cases cursor with
    | none => exact .pure _
    | some msg =>
      refine keeps_getQueue fun queue _ => .ite (fun _ => ?_) fun _ => ih _
      exact (keeps_removeQueueMessage _ _ _).bind fun _ => ih _

theorem keeps_cleanupWindow (fuel thread win : ℕ) :
    Keeps (Mirrors x) (cleanupWindow fuel thread win) := by
  refine (keeps_threadQueue _).bind fun o => ?_
  cases o with
  | none => exact .pure _
  | some q =>
    refine keeps_getQueue fun queue hq => (keeps_setQueue (hq.imp_right fun h => ?_)).bind fun _ => ?_
    · exact (h.cleanupTimers _ _).cleanupTimers _ _
    · refine keeps_getQueue fun queue _ => (keeps_cleanupMessages _ _ _ _ _).bind fun _ => ?_
      exact keeps_getQueue fun queue _ => keeps_cleanupMessages _ _ _ _ _

theorem keeps_incQueuePaintCount (thread : ℕ) (incr : ℤ) :
    Keeps (Mirrors x) (incQueuePaintCount thread incr) := by
  refine (keeps_threadQueue _).bind fun o => ?_
  cases o with
  | none => exact .throw _
  | some q =>
    exact keeps_getQueue fun queue hq => keeps_setQueue (hq.imp_right fun h => h.incPaintCount incr)

theorem keeps_timerCallback (q : ℕ) : Keeps (Mirrors x) (timerCallback q) := by
  refine keeps_getQueue fun queue hq => ?_
  split
  · exact .throw _
  · exact keeps_setQueue (hq.imp_right fun h => h.setNextTimer)

theorem keeps_expireTimer (q : ℕ) : Keeps (Mirrors x) (expireTimer q) := by
  refine Keeps.get.bind fun s => ?_
  cases s.queues q with
  | none => exact .pure _
  | some queue => exact .ite (fun _ => keeps_timerCallback q) fun _ => .pure _

theorem keeps_freeMsgQueue (thread : ℕ) : Keeps (Mirrors x) (freeMsgQueue thread) :=
  keeps_modify fun s => by cases s.queueOf thread <;> rfl

theorem keeps_releaseQueue (q : ℕ) : Keeps (Mirrors none) (releaseQueue q) := by
  refine Keeps.get.bind fun s => .ite (fun _ => ?_) fun _ => .pure _
  exact Keeps.bind (keeps_modify fun _ => rfl) fun _ => keeps_msgQueueDestroy q

theorem keeps_perform (fuel : ℕ) (a : Action) : Keeps (Mirrors none) (perform fuel a) := by
  cases a with
  | getMsgQueue current => exact .map _ (keeps_getCurrentQueue current)
  | sendMessage => exact keeps_handleSendMessage _ _ _ _
  | postMessage => exact keeps_postMessage _ _ _ _ _
  | postWinEvent => exact keeps_postWinEvent _ _ _ _ _ _ _
  | postQuitMessage => exact keeps_handlePostQuitMessage _ _
  | getMessage => exact .map _ (keeps_handleGetMessage _ _)
  | replyMessage => exact keeps_handleReplyMessage _ _ _ _
  | getMessageReply => exact .map _ (keeps_handleGetMessageReply _ _)
  | setWinTimer => exact keeps_handleSetWinTimer _ _ _ _ _ _ _ _ _
  | killWinTimer => exact keeps_handleKillWinTimer _ _ _ _ _
  | incPaintCount => exact keeps_incQueuePaintCount _ _
  | cleanupWindow => exact keeps_cleanupWindow _ _ _
  | resultTimeout r => exact Keeps.get.bind fun s => .ite (fun _ => keeps_resultTimeout r) fun _ => .pure _
  | timerCallback q => exact keeps_expireTimer q
  | threadExit thread => exact keeps_freeMsgQueue thread
  | releaseQueue q => exact keeps_releaseQueue q

theorem step_mirrors {fuel : ℕ} {s s' : State} {a : Action} (h : Mirrors none s)
    (hst : step fuel s a = .ok s') : Mirrors none s' := by
  rw [step] at hst
  cases hp : perform fuel a { s with error := none } with
  | error e =>
    rw [hp] at hst
    cases hst
  | ok res =>
    rw [hp] at hst
    obtain rfl := Except.ok.inj hst
    have h' : Mirrors none { s with error := none } := h
    exact (keeps_perform fuel a).ok h' hp

/-- After every run each queue has the bits of the sent and posted messages, of the expired timers and
of the windows to paint exactly when it holds some. -/
theorem wakeBits_mirror (fuel : ℕ) (grants : ℕ → Bool) (as : List Action) (s : State)
    (hr : Run (step fuel) (fun _ _ => True) (.initial grants) as s) (q : ℕ) (queue : Queue)
    (hq : s.queues q = some queue) :
    (queue.wakeBits &&& qsSendmessage ≠ 0 ↔ queue.sendMsgs ≠ []) ∧
    (queue.wakeBits &&& qsPostmessage ≠ 0 ↔ queue.postMsgs ≠ [] ∨ queue.quitMessage = true) ∧
    (queue.wakeBits &&& qsTimer ≠ 0 ↔ queue.expiredTimers ≠ []) ∧
    (queue.wakeBits &&& qsPaint ≠ 0 ↔ 0 < queue.paintCount) := by
  have hs : Mirrors none s := hr.invariant (I := Mirrors none) (fun _ _ h => by cases h) fun _ _ _ h _ => step_mirrors h
  obtain ⟨h₁, h₂, h₃, h₄⟩ := (hs q queue hq).resolve_left (fun h => by cases h)
  exact ⟨h₁, h₂, h₃, h₄⟩

/-- Two threads get a queue. The second is sent a message, has a timer expire and has to paint. -/
def sampleRun : List Action :=
  [.getMsgQueue 1, .getMsgQueue 2,
    .sendMessage 1 (some 2) false ⟨.unicode, 0, 0x400, 0, 0, 0, true, 0, 0, false⟩,
    .setWinTimer 2 0 none 0x113 0 10 0 0, .timerCallback 1, .incPaintCount 2 1]

theorem wakeBits_mirror_sample :
    ∃ s queue, Run (step 10) (fun _ _ => True) (.initial fun _ => true) sampleRun s ∧
      s.queues 1 = some queue ∧ (queue.wakeBits &&& qsTimer ≠ 0 ↔ queue.expiredTimers ≠ []) ∧
      queue.expiredTimers ≠ [] := by
  obtain ⟨s, hr, hp⟩ := run_of_execTo (f := step 10) (s := State.initial fun _ => true)
    (q := fun _ _ => True) (g := fun _ _ => true) (l := sampleRun)
    (p := fun s => (s.queues 1).any fun queue => !queue.expiredTimers.isEmpty)
    (fun _ _ _ => trivial) (by decide +kernel)
  obtain ⟨queue, hq, hne⟩ := (Option.any_eq_true _ _).mp hp
  rw [Bool.not_eq_true', List.isEmpty_eq_false_iff] at hne
  exact ⟨s, queue, hr, hq, (wakeBits_mirror 10 _ sampleRun s hr 1 queue hq).2.2.1, hne⟩

end Wine.Queues
