import Wine.Lib.Runs
import Wine.Queues.Answered

/-!
# Every wait ends once

The requests of the threads keep the invariant, and so does every run. After every run each result
is held by a queue or was freed once, and each wait of a sender has ended at most once.
-/

namespace Wine.Queues
open Wine.Lib

variable {s s' : State} {q r : ℕ} {queue other : Queue} {res : MessageResult} {msg : Message}
  {L : List ℕ} {α : Type}

/-! ## Sending -/

/-- No message has this address yet. -/
def State.Fresh (s : State) (id : ℕ) : Prop := id < s.next ∧ ∀ c, id ∉ s.msgLists c

theorem secures_newAddress {f : ℕ → M α}
    (hf : ∀ s id, Live L s → s.Fresh id → wp (f id) (fun _ => Live L) Safe s) :
    Secures (Live L) Safe (newAddress >>= f) := by
  intro s hs
  simp only [newAddress, wp_bind, wp_get, wp_set, wp_pure]
  refine hf _ _ ⟨hs.1.next (Nat.le_succ _), hs.2⟩ ⟨Nat.lt_succ_self _, fun c hc => ?_⟩
  exact Nat.lt_irrefl _ (hs.1.freshMsg c s.next hc)

/-- A message without a result is put in a list. -/
theorem wp_deliver_new {kind : MessageKind} (h : Live L s) (hq : s.queues q ≠ none)
    (hf : s.Fresh msg.id) (hr : msg.result = none) :
    wp (deliver q kind msg) (fun _ => Live L) Safe s := by
  obtain ⟨queue, hqq⟩ := Option.ne_none_iff_exists'.mp hq
  rw [wp_deliver hqq]
  refine h.stays (Inv.add kind (hr ▸ h.1) hqq hf.2 hf.1 (fun _ => hr) (fun r hmr => ?_) rfl ?_)
    .setQueue
  · rw [hr] at hmr
    cases hmr
  · cases kind <;> exact (h.1.queue q queue hqq).armed

theorem wp_addTimeoutUser {timeout : Bool} {P : Bool → State → Prop} {E : Fault → Prop}
    (hp : ∀ pending n e, P pending { s with
      allocs := n, error := e, timeouts := if pending then r :: s.timeouts else s.timeouts }) :
    wp (addTimeoutUser r timeout) P E s := by
  rw [addTimeoutUser, wp_bind]
  refine wp_allocIf fun pending n e => ?_
  cases pending with
  | true => exact hp true n e
  | false => exact hp false n e

theorem wp_linkResult {sendQueue : Option ℕ} {recvQueue : ℕ} {timeout : Bool}
    {callbackMsg : Option Message} (h : Inv none s) (hm : s.made r = false) (hlt : r < s.next)
    (hsend : ∀ q, sendQueue = some q → s.queues q ≠ none)
    (hcb : ∀ m, callbackMsg = some m → m.result = none ∧ s.Fresh m.id) :
    wp (linkResult sendQueue recvQueue msg timeout r callbackMsg) (fun o s' => o = some r ∧
      Inv (some r) s' ∧ Stays s s' ∧ (∃ res, s'.results r = some res ∧
        res.receiver = some recvQueue ∧ res.msg = some msg.id ∧ res.Held) ∧
      ∀ id, s.Fresh id → (∀ m, callbackMsg = some m → m.id ≠ id) → s'.Fresh id) Safe s := by
  cases sendQueue with
  | none => exact .inl rfl
  | some q =>
    obtain ⟨queue, hq⟩ := Option.ne_none_iff_exists'.mp (hsend q rfl)
    have hnone := h.toPreInv.results_none hm
    generalize hother : (if callbackMsg.isSome then
      { queue with callbackResult := r :: queue.callbackResult }
      else { queue with sendResult := r :: queue.sendResult } : Queue) = other
    have hsame : other.sendMsgs = queue.sendMsgs ∧ other.postMsgs = queue.postMsgs ∧
        other.recvResult = queue.recvResult ∧ other.timeout = queue.timeout ∧
        other.pendingTimers = queue.pendingTimers ∧ other.sends.Perm (r :: queue.sends) := by
      rw [← hother]
      split
      · exact ⟨rfl, rfl, rfl, rfl, rfl, List.perm_middle⟩
      · exact ⟨rfl, rfl, rfl, rfl, rfl, List.Perm.refl _⟩
    obtain ⟨hsm, hpm, hrr, ht, hpt, hperm⟩ := hsame
    have hpre := h.toPreInv.setQueue_same hq hsm hpm hrr
      (ht ▸ hpt ▸ (h.queue q queue hq).armed)
    have hlists : (s.setQueue q (some other)).msgLists = s.msgLists := by
      rw [msgLists_setQueue, Function.update_eq_iff]
      refine ⟨?_, fun _ _ => rfl⟩
      rw [msgLists_eq hq, Queue.msgIds, hsm, hpm, Queue.msgIds]
    simp only [linkResult, wp_bind, wp_getQueue_of hq, setQueue, wp_modify, setResult, wp_pure, hother]
    refine wp_addTimeoutUser fun pending n e => ?_
    have hpend : Linked (fun _ => if pending then r :: s.timeouts else s.timeouts)
        (Function.update s.timeoutOwner r (if pending then some () else none)) := by
      have howner : s.timeoutOwner r = none := by
        rw [State.timeoutOwner, hnone, Option.bind_none]
      cases pending with
      | false => exact h.pending.remove_of_none howner
      | true =>
        have hunit : Function.update (fun _ : Unit => s.timeouts) () (r :: s.timeouts) =
            fun _ => r :: s.timeouts := funext fun _ => Function.update_self ..
        exact hunit ▸ h.pending.insert (c := ()) howner (List.Perm.refl _)
    have hnew := @PreInv.newResult { s.setQueue q (some other) with allocs := n, error := e } r
      ⟨some msg.id, some q, some recvQueue, false, 0, none, callbackMsg, 0, pending⟩
      { hpre with } hm hlt _ (fun h => by cases h) rfl ⟨fun _ => rfl, fun _ => rfl, fun m hc => (hcb m hc).1⟩
      (fun m hc => ⟨(hcb m hc).2.1, fun c hm => (hcb m hc).2.2 c (hlists ▸ hm)⟩) hpend
    refine ⟨trivial, ⟨hnew, ?_⟩, ?_, ?_, ?_⟩
    · have hlists := @sendLists_setQueue s q other
      have howner := @sendOwner_setResult s r
        (some ⟨some msg.id, some q, some recvQueue, false, 0, none, callbackMsg, 0, pending⟩)
      refine Eq.mpr (congrArg₂ Linked hlists howner) (h.sending.insert ?_ ?_)
      · rw [State.sendOwner, hnone, Option.bind_none]
      · rw [sendLists_eq hq]
        exact hperm
    · exact Stays.setQueue
    · exact ⟨_, State.setResult_self, rfl, rfl, ⟨.inl (fun h => by cases h), (fun h => by cases h)⟩⟩
    · intro id hf hne
      refine ⟨hf.1, fun c hc => ?_⟩
      have hmsgs := @msgLists_setResult (s.setQueue q (some other)) r
        (some ⟨some msg.id, some q, some recvQueue, false, 0, none, callbackMsg, 0, pending⟩)
      rw [hlists] at hmsgs
      have hc' := congrFun hmsgs c ▸ hc
      by_cases hcr : c = .result r
      · subst hcr
        rw [Function.update_self, Option.bind_some] at hc'
        cases callbackMsg with
        | none => cases hc'
        | some m => exact hne m rfl (List.mem_singleton.mp hc').symm
      · rw [Function.update_of_ne hcr] at hc'
        exact hf.2 c hc'

theorem wp_allocMessageResult {sendQueue : Option ℕ} {recvQueue : ℕ} {req : SendArgs}
    (h : Inv none s) (hf : s.Fresh msg.id) (hsend : ∀ q, sendQueue = some q → s.queues q ≠ none) :
    wp (allocMessageResult sendQueue recvQueue msg req) (fun o s' =>
      Inv o s' ∧ Stays s s' ∧ s'.Fresh msg.id ∧ ∀ r, o = some r → ∃ res, s'.results r = some res ∧
        res.receiver = some recvQueue ∧ res.msg = some msg.id ∧ res.Held) Safe s := by
  have hlink : ∀ (t : State) (r : ℕ) (callbackMsg : Option Message), Inv none t → Stays s t →
      t.Fresh msg.id → t.made r = false → r < t.next →
      (∀ m, callbackMsg = some m → m.result = none ∧ t.Fresh m.id ∧ m.id ≠ msg.id) →
      wp (linkResult sendQueue recvQueue msg req.timeout r callbackMsg) (fun o s' =>
        Inv o s' ∧ Stays s s' ∧ s'.Fresh msg.id ∧ ∀ r, o = some r → ∃ res, s'.results r = some res ∧
          res.receiver = some recvQueue ∧ res.msg = some msg.id ∧ res.Held) Safe t := by
    intro t r callbackMsg ht hst hft hm hlt hcb
    refine wp_mono (wp_linkResult ht hm hlt (fun q hq => hst q (hsend q hq))
      fun m hc => ⟨(hcb m hc).1, (hcb m hc).2.1⟩) ?_
    rintro _ s' ⟨rfl, hinv, hst', hres, hfresh⟩
    refine ⟨hinv, hst.trans hst', hfresh _ hft fun m hc => (hcb m hc).2.2, ?_⟩
    rintro _ ⟨⟩
    exact hres
  have hf' : ∀ t : State, t.Fresh msg.id → State.Fresh { t with next := t.next + 1 } msg.id :=
    fun t hft => ⟨Nat.lt_succ_of_lt hft.1, hft.2⟩
  rw [allocMessageResult, wp_bind]
  refine wp_alloc fun granted n e => ?_
  rw [wp_ite]
  refine ⟨fun _ => ?_, fun _ => ⟨h.alloc n e, .of_eq rfl, hf, (fun _ h => by cases h)⟩⟩
  have ht := (h.alloc n e).next (Nat.le_succ s.next)
  have hm := h.freshResult s.next (Nat.le_refl _)
  simp only [newAddress, wp_bind, wp_get, wp_set, wp_pure, wp_ite]
  refine ⟨fun _ => ?_, fun _ => hlink _ _ _ ht (.of_eq rfl) (hf' _ hf) hm (Nat.lt_succ_self _) (fun _ h => by cases h)⟩
  refine wp_alloc fun granted n' e' => ?_
  refine ⟨fun _ => ?_, fun _ => ⟨ht.alloc n' e', .of_eq rfl, hf' _ hf, (fun _ h => by cases h)⟩⟩
  refine hlink _ _ _ ((ht.alloc n' e').next (Nat.le_succ (s.next + 1))) (.of_eq rfl)
    (hf' _ (hf' _ hf)) hm (Nat.lt_succ_of_lt (Nat.lt_succ_self _)) ?_
  rintro _ ⟨⟩
  refine ⟨rfl, ⟨Nat.lt_succ_self _, fun c hc => ?_⟩, fun hid => ?_⟩
  · exact absurd (h.freshMsg c _ hc) (Nat.not_lt.mpr (Nat.le_succ _))
  · exact absurd hf.1 (Nat.not_lt.mpr (hid ▸ Nat.le_succ _))

/-- A message that is to be answered is delivered with its result. -/
theorem wp_sendWithResult {sendQueue : Option ℕ} {recvQueue : ℕ} {req : SendArgs} (h : Live L s)
    (hf : s.Fresh msg.id) (hres : msg.result = none)
    (hsend : ∀ q, sendQueue = some q → s.queues q ≠ none) (hrecv : s.queues recvQueue ≠ none) :
    wp (sendWithResult sendQueue recvQueue msg req) (fun _ => Live L) Safe s := by
  rw [sendWithResult, wp_bind]
  refine wp_mono (wp_allocMessageResult h.1 hf hsend) ?_
  rintro o t ⟨ht, hst, hft, hr⟩
  cases o with
  | none =>
    simp only [freeMessage, hres, wp_pure]
    exact h.stays ht hst
  | some r =>
    obtain ⟨queue, hq⟩ := Option.ne_none_iff_exists'.mp (hst recvQueue hrecv)
    rw [wp_deliver hq]
    refine h.stays (@Inv.add _ _ _ _ { msg with result := some r } .sendMessage ht hq hft.2 hft.1
      (fun h => by cases h) ?_ rfl (ht.queue recvQueue queue hq).armed) (hst.trans .setQueue)
    rintro _ ⟨⟩
    exact hr r rfl

theorem wp_memdup {size : ℕ} {P : Bool → State → Prop} {E : Fault → Prop}
    (hp : ∀ copied n e, P copied { s with allocs := n, error := e }) : wp (memdup size) P E s := by
  rw [memdup, wp_ite]
  exact ⟨fun _ => wp_alloc hp, fun _ => hp true s.allocs s.error⟩

theorem secures_handleSendMessage (current : ℕ) (thread : Option ℕ) (hung : Bool) (req : SendArgs) :
    Secures (Live L) Safe (handleSendMessage current thread hung req) := by
  refine secures_getCurrentQueue_mem fun sendQueue K hK => ?_
  cases thread with
  | none => exact secures_error _
  | some thread =>
    refine secures_threadQueue (secures_error _) fun recvQueue => .ite (fun _ => secures_error _)
      fun _ => secures_alloc.bind fun granted => .ite (fun _ => ?_) fun _ => .pure _
    refine secures_newAddress fun s id hs hf => ?_
    have hsend : ∀ q, sendQueue = some q → s.queues q ≠ none :=
      fun q hq => hs.2 q (List.mem_cons_of_mem _ (hK q hq))
    have hrecv : s.queues recvQueue ≠ none := hs.2 recvQueue List.mem_cons_self
    cases req.type with
    | otherProcess =>
      rw [wp_bind]
      refine wp_memdup fun copied n e => (wp_ite ..).mpr ⟨fun _ => ?_, fun _ => hs.alloc n e⟩
      exact wp_sendWithResult (hs.alloc n e) hf rfl hsend hrecv
    | ascii | unicode | callback => exact wp_sendWithResult hs hf rfl hsend hrecv
    | notify => exact wp_deliver_new hs hrecv hf rfl
    | posted =>
      rw [wp_bind]
      refine wp_memdup fun copied n e => (wp_ite ..).mpr ⟨fun _ => ?_, fun _ => hs.alloc n e⟩
      exact wp_deliver_new (hs.alloc n e) hrecv hf rfl
    | hardware | callbackResult | winevent => exact secures_error _ s hs

theorem secures_malloc : Secures (Live L) Safe malloc :=
  fun s hs => hs.alloc (s.allocs + 1) s.error

theorem secures_postMessage (thread win msg wparam lparam : ℕ) :
    Secures (Live L) Safe (postMessage thread win msg wparam lparam) := by
  refine secures_threadQueue (.pure _) fun q => secures_alloc.bind fun granted =>
    .ite (fun _ => secures_newAddress fun s id hs hf => ?_) fun _ => .pure _
  exact wp_deliver_new hs (hs.2 q List.mem_cons_self) hf rfl

theorem secures_postWinEvent (thread win event objectId childId info size : ℕ) :
    Secures (Live L) Safe (postWinEvent thread win event objectId childId info size) := by
  refine secures_threadQueue (.pure _) fun q => secures_alloc.bind fun granted =>
    .ite (fun _ => secures_malloc.bind fun granted => .ite (fun _ => ?_) fun _ => .pure _)
      fun _ => .pure _
  refine secures_newAddress fun s id hs hf => ?_
  exact wp_deliver_new hs (hs.2 q List.mem_cons_self) hf rfl

theorem secures_setQueueBits {bits : BitVec 32} (hq : q ∈ L) :
    Secures (Live L) Safe (setQueueBits q bits) := secures_set hq fun _ => ⟨rfl, id⟩

theorem secures_clearQueueBits {bits : BitVec 32} (hq : q ∈ L) :
    Secures (Live L) Safe (clearQueueBits q bits) := secures_set hq fun _ => ⟨rfl, id⟩

theorem secures_handlePostQuitMessage (current exitCode : ℕ) :
    Secures (Live L) Safe (handlePostQuitMessage current exitCode) := by
  refine secures_getCurrentQueue (.pure _) fun q => ?_
  exact secures_update List.mem_cons_self (fun _ => ⟨rfl, id⟩)
    fun _ => secures_setQueueBits List.mem_cons_self

/-! ## Messages for the current thread -/

theorem wp_remove {kind : MessageKind} (h : Live L s) (hq : s.queues q = some queue)
    (hm : msg ∈ queue.msgList kind) :
    wp (removeQueueMessage q msg kind) (fun _ => Live L) Safe s :=
  wp_mono (wp_removeQueueMessage h.1 hq hm) fun _ _ hs' =>
    h.stays hs'.1 (Stays.setQueue.trans (.of_frame hs'.2))

theorem secures_getPostedMessage (hq : q ∈ L) (req : GetArgs) :
    Secures (Live L) Safe (getPostedMessage q req) := by
  refine secures_getQueue hq fun s queue hs hqq => ?_
  split
  · exact hs
  · rename_i msg hf
    refine (wp_ite ..).mpr ⟨fun _ => (secures_error _).bind (fun _ => .pure _) s hs, fun _ => ?_⟩
    rw [wp_ite]
    refine ⟨fun _ => ?_, fun _ => hs⟩
    rw [wp_bind]
    exact wp_remove hs hqq
      (show _ ∈ Queue.msgList _ .postMessage from List.mem_of_find?_eq_some hf)

theorem secures_getQuitMessage (hq : q ∈ L) (remove : Bool) :
    Secures (Live L) Safe (getQuitMessage q remove) := by
  refine secures_getQueue hq fun s queue hs hqq => ?_
  rw [wp_ite]
  refine ⟨fun _ => ?_, fun _ => hs⟩
  rw [wp_ite]
  refine ⟨fun _ => hs.setQueue hqq ?_, fun _ => hs⟩
  dsimp only
  split <;> exact ⟨rfl, id⟩

namespace Queue.Same

theorem refl (queue : Queue) : queue.Same queue := ⟨rfl, id⟩

theorem trans {third : Queue} (h : queue.Same other) (h' : other.Same third) : queue.Same third :=
  ⟨h'.lists.trans h.lists, fun ha => h'.armed (h.armed ha)⟩

/-- The timers are no list of messages or results. -/
theorem setNextTimer (h : other.lists = queue.lists) : queue.Same other.setNextTimer := by
  refine ⟨?_, fun _ ht => ?_⟩
  · rw [← h, Queue.setNextTimer]
    dsimp only
    split <;> rfl
  · revert ht
    rw [Queue.setNextTimer]
    dsimp only
    split <;> simp [Queue.clearBits, Queue.setBits]

theorem freeTimer (queue : Queue) (id : ℕ) : queue.Same (queue.freeTimer id) := setNextTimer rfl

theorem restartTimer (queue : Queue) (timer : Timer) (now : ℕ) :
    queue.Same (queue.restartTimer timer now) := setNextTimer rfl

theorem setTimer (queue : Queue) (timer : Timer) (rate now : ℕ) :
    queue.Same (queue.setTimer timer rate now) := by
  rw [Queue.setTimer]
  split
  · exact setNextTimer rfl
  · refine ⟨rfl, fun _ _ hn => ?_⟩
    have := congrArg List.length hn
    simp [Queue.linkTimer] at this

theorem cleanupTimers (queue : Queue) (win : ℕ) (timers : List Timer) :
    queue.Same (queue.cleanupTimers win timers) := by
  rw [Queue.cleanupTimers]
  induction timers.filter (·.win = win) generalizing queue with
  | nil => exact .refl queue
  | cons timer timers ih => exact (freeTimer queue timer.id).trans (ih _)

theorem incPaintCount (queue : Queue) (incr : ℤ) : queue.Same (queue.incPaintCount incr) := by
  rw [Queue.incPaintCount]
  dsimp only
  split <;> exact ⟨rfl, id⟩

end Queue.Same

theorem secures_getPaintOrTimer (hq : q ∈ L) (req : GetArgs) :
    Secures (Live L) Safe (getPaintOrTimer q req) := by
  refine secures_getQueue hq fun s queue hs hqq => ?_
  dsimp only
  split
  · exact hs
  · split
    · refine hs.setQueue hqq ?_
      split
      · exact .restartTimer ..
      · exact .refl queue
    · exact (secures_error _).bind (fun _ => .pure _) s hs

theorem secures_handleGetMessage (current : ℕ) (req : GetArgs) :
    Secures (Live L) Safe (handleGetMessage current req) := by
  refine secures_getCurrentQueue (.pure _) fun q => ?_
  have hq : q ∈ q :: L := List.mem_cons_self
  refine secures_getQueue hq fun s queue hs hqq => ?_
  cases hsend : queue.sendMsgs with
  | cons msg rest =>
    simp only [wp_map]
    have hm : msg ∈ queue.sendMsgs := hsend ▸ List.mem_cons_self
    exact wp_mono (wp_receiveMessage hs.1 hqq hm) fun _ _ hs' => hs.stays hs'.1 hs'.2
  | nil =>
    refine (wp_ite ..).mpr ⟨fun _ => (secures_error _).bind (fun _ => .pure _) s hs, fun _ => ?_⟩
    rw [wp_bind]
    refine Secures.bind (secures_getPostedMessage hq req) (fun posted => ?_) _
      (hs.setQueue hqq ⟨by rw [Queue.lists, Queue.lists, hsend], id⟩)
    cases posted with
    | some reply => exact .pure _
    | none =>
      refine (secures_getQuitMessage hq _).bind fun quit => ?_
      cases quit with
      | some reply => exact .pure _
      | none => exact .ite (fun _ => .pure _) fun _ => secures_getPaintOrTimer hq req

theorem secures_handleReplyMessage (current result : ℕ) (remove : Bool) (len : ℕ) :
    Secures (Live L) Safe (handleReplyMessage current result remove len) := by
  refine secures_threadQueue (secures_error _) fun q => ?_
  refine secures_getQueue List.mem_cons_self fun s queue hs hqq => ?_
  rw [wp_ite]
  refine ⟨fun _ => hs, fun hne => ?_⟩
  obtain ⟨r, rest, htop⟩ := List.exists_cons_of_ne_nil hne
  cases remove with
  | true =>
    exact wp_mono (wp_replyMessage hs.1 hqq htop) fun _ _ hs' =>
      hs.stays hs'.1 (Stays.setQueue.trans (.of_frame hs'.2))
  | false =>
    exact wp_mono (wp_replyMessage_keep hs.1 hqq hne) fun _ _ hs' => hs.stays hs'.1 (.of_frame hs'.2)

/-- What is on top of the stack of a sender is there, and is a result of the sender. -/
theorem Inv.top_result (h : Inv none s) (hq : s.queues q = some queue) (hm : r ∈ queue.sendResult) :
    ∃ res, s.results r = some res ∧ res.sender = some q := by
  have howner := h.sending.owner_of_mem (a := r) (c := q)
    (sendLists_eq hq ▸ List.mem_append_left _ hm)
  exact Option.bind_eq_some_iff.mp howner

theorem secures_handleGetMessageReply (current : ℕ) (cancel : Bool) :
    Secures (Live L) Safe (handleGetMessageReply current cancel) := by
  refine secures_threadQueue ((secures_error _).bind fun _ => .pure _) fun q => ?_
  have hq : q ∈ q :: L := List.mem_cons_self
  refine (secures_error _).bind fun _ => secures_getQueue hq fun s queue hs hqq => ?_
  cases hsend : queue.sendResult with
  | nil => exact hs
  | cons r rest =>
    obtain ⟨res, hr, hrs⟩ := hs.1.top_result (r := r) hqq (hsend ▸ List.mem_cons_self)
    rw [wp_bind, wp_getResult_of hr, wp_ite]
    refine ⟨fun _ => ?_, fun _ => hs⟩
    rw [wp_bind, wp_modify, wp_bind]
    generalize ht : (if res.replied = true then { s with error := res.error } else s) = t
    have hlive : Live (q :: L) t ∧ t.queues = s.queues ∧ t.results = s.results := by
      rw [← ht]
      split
      · exact ⟨hs.alloc s.allocs res.error, rfl, rfl⟩
      · exact ⟨hs, rfl, rfl⟩
    obtain ⟨hlive, hqs, hrs'⟩ := hlive
    refine wp_mono (wp_removeResultFromSender hlive.1 (hrs' ▸ hr) hrs (hqs ▸ hqq)) ?_
    rintro _ t' ⟨ht', hqs', -⟩
    refine secures_getQueue hq (fun u other hu ho => ?_) t' (hlive.stays ht' fun i hi => ?_)
    · cases htop : other.sendResult with
      | nil => exact (secures_clearQueueBits hq).bind (fun _ => .pure _) u hu
      | cons top tail =>
        obtain ⟨res', hr', -⟩ := hu.1.top_result (r := top) ho (htop ▸ List.mem_cons_self)
        dsimp only
        rw [wp_bind, wp_getResult_of hr']
        exact Secures.ite (fun _ => .pure _)
          (fun _ => (secures_clearQueueBits hq).bind fun _ => .pure _) u hu
    · rw [hqs']
      by_cases hiq : i = q
      · subst hiq
        rw [Function.update_self]
        exact Option.some_ne_none _
      · rwa [Function.update_of_ne hiq]

/-! ## Timers and windows -/

theorem secures_timerCallback_of (h : Live L s) (hq : s.queues q = some queue)
    (ht : queue.timeout = true) : wp (timerCallback q) (fun _ => Live L) Safe s := by
  rw [timerCallback, wp_bind, wp_getQueue_of hq]
  cases hp : queue.pendingTimers with
  | nil => exact ((h.1.queue q queue hq).armed ht hp).elim
  | cons timer rest => exact h.setQueue hq (.setNextTimer rfl)

theorem secures_addTimer (hq : q ∈ L) (win msg id rate lparam now : ℕ) :
    Secures (Live L) Safe (addTimer q win msg id rate lparam now) := by
  refine secures_alloc.bind fun granted => .ite (fun _ => ?_) fun _ => .pure _
  refine secures_newAddress fun s addr hs _ => ?_
  exact secures_set hq (fun queue => .setTimer ..) s hs

theorem secures_freeTimerId (hq : q ∈ L) (msg fuel : ℕ) :
    Secures (Live L) Safe (freeTimerId q msg fuel) := by
  induction fuel with
  | zero => exact .throw (.inr rfl)
  | succ fuel ih =>
    refine secures_update hq (fun _ => ⟨rfl, id⟩) fun queue => ?_
    exact .ite (fun _ => ih) fun _ => .pure _

theorem secures_handleSetWinTimer (fuel current win : ℕ) (thread : Option (ℕ × Bool))
    (msg id rate lparam now : ℕ) :
    Secures (Live L) Safe (handleSetWinTimer fuel current win thread msg id rate lparam now) := by
  refine .ite (fun _ => ?_) fun _ => ?_
  · match thread with
    | none => exact secures_error _
    | some (_, false) => exact secures_error _
    | some (thread, true) =>
      refine secures_threadQueue (.throw (.inl rfl)) fun q => ?_
      refine secures_update List.mem_cons_self (fun queue => ?_)
        fun _ => secures_addTimer List.mem_cons_self _ _ _ _ _ _
      split
      · exact .freeTimer ..
      · exact .refl queue
  · refine secures_getCurrentQueue (.throw (.inl rfl)) fun q => ?_
    exact (secures_freeTimerId List.mem_cons_self _ _).bind
      fun id => secures_addTimer List.mem_cons_self _ _ _ _ _ _

theorem secures_handleKillWinTimer (current win : ℕ) (thread : Option (ℕ × Bool)) (msg id : ℕ) :
    Secures (Live L) Safe (handleKillWinTimer current win thread msg id) := by
  unfold handleKillWinTimer
  match if win ≠ 0 then thread else some (current, true) with
  | none => exact secures_error _
  | some (_, false) => exact secures_error _
  | some (thread, true) =>
    refine secures_threadQueue (secures_error _) fun q => ?_
    refine secures_getQueue List.mem_cons_self fun s queue hs hqq => ?_
    split
    · exact hs.setQueue hqq (.freeTimer ..)
    · exact secures_error _ s hs

theorem secures_incQueuePaintCount (thread : ℕ) (incr : ℤ) :
    Secures (Live L) Safe (incQueuePaintCount thread incr) :=
  secures_threadQueue (.throw (.inl rfl)) fun _ =>
    secures_set List.mem_cons_self fun queue => .incPaintCount queue incr

/-- The next message of the loop is still in the list after the present one is removed. -/
theorem next_mem {l : List Message} (msg next : Message) (hnd : (l.map (·.id)).Nodup)
    (hn : (l.dropWhile (·.id ≠ msg.id)).tail.head? = some next) :
    next ∈ l ∧ next.id ≠ msg.id := by
  have hmem : next ∈ (l.dropWhile (·.id ≠ msg.id)).tail := List.mem_of_mem_head? hn
  refine ⟨(List.dropWhile_sublist _).subset (List.mem_of_mem_tail hmem), fun hid => ?_⟩
  have hsub : ((l.dropWhile (·.id ≠ msg.id)).map (·.id)).Nodup :=
    hnd.sublist ((List.dropWhile_sublist _).map _)
  cases hd : l.dropWhile (·.id ≠ msg.id) with
  | nil =>
    rw [hd] at hmem
    cases hmem
  | cons first rest =>
    have hfirst : first.id = msg.id := by
      have := List.head?_dropWhile_not (fun m : Message => decide (m.id ≠ msg.id)) l
      rw [hd] at this
      simpa using this
    rw [hd] at hmem hsub
    rw [List.map_cons, hfirst, ← hid] at hsub
    exact (List.nodup_cons.mp hsub).1 (List.mem_map_of_mem hmem)

theorem wp_cleanupMessages (win : ℕ) (kind : MessageKind) (fuel : ℕ) (cursor : Option Message)
    (h : Live L s) (hq : s.queues q = some queue)
    (hc : ∀ msg, cursor = some msg → msg ∈ queue.msgList kind) :
    wp (cleanupMessages q win kind fuel cursor) (fun _ => Live L) Safe s := by
  induction fuel generalizing cursor s queue with
  | zero =>
    cases cursor with
    | none => exact h
    | some msg => exact .inr rfl
  | succ fuel ih =>
    cases cursor with
    | none => exact h
    | some msg =>
      have hm := hc msg rfl
      have hnd : ((queue.msgList kind).map (·.id)).Nodup := by
        have := h.1.nodup_sendMsgs hq
        rw [List.map_append] at this
        cases kind with
        | sendMessage => exact (List.nodup_append.mp this).1
        | postMessage => exact (List.nodup_append.mp this).2.1
      have hnext (next : Message) := next_mem msg next hnd
      rw [cleanupMessages, wp_bind, wp_getQueue_of hq]
      rw [wp_ite]
      refine ⟨fun _ => ?_, fun _ => ?_⟩
      · rw [wp_bind]
        refine wp_mono (wp_removeQueueMessage h.1 hq hm) ?_
        rintro _ t ⟨ht, hframe⟩
        obtain ⟨other, ho, hg⟩ := hframe.1 q _ State.setQueue_self
        refine ih _ (h.stays ht (Stays.setQueue.trans (.of_frame hframe))) ho fun next hn => ?_
        obtain ⟨hmem, hid⟩ := hnext next hn
        have hleft : next ∈ (queue.dropMessage msg kind).msgList kind := by
          rw [(Queue.lists_congr (queue.dropMessage_lists msg kind) kind []).1,
            Queue.msgList_setMsgList]
          exact (List.mem_eraseP_of_neg (by simpa using hid)).mpr hmem
        cases kind with
        | sendMessage => exact hg.sendMsgs.subset hleft
        | postMessage =>
          show next ∈ other.postMsgs
          rw [hg.postMsgs]
          exact hleft
      · exact ih _ h hq fun next hn => (hnext next hn).1

theorem secures_cleanupWindow (fuel thread win : ℕ) :
    Secures (Live L) Safe (cleanupWindow fuel thread win) := by
  refine secures_threadQueue (.pure _) fun q => ?_
  have hq : q ∈ q :: L := List.mem_cons_self
  have hhead : ∀ {l : List Message} msg, l.head? = some msg → msg ∈ l :=
    fun msg hm => List.mem_of_mem_head? hm
  refine secures_update hq (fun queue => ?_) fun _ => secures_getQueue hq fun s queue hs hqq => ?_
  · exact (Queue.Same.cleanupTimers queue win _).trans (.cleanupTimers ..)
  · rw [wp_bind]
    refine wp_mono (wp_cleanupMessages win .sendMessage fuel _ hs hqq hhead) fun _ t ht => ?_
    refine secures_getQueue hq (fun s queue hs hqq => ?_) t ht
    exact wp_cleanupMessages win .postMessage fuel _ hs hqq hhead

theorem secures_expireResult (r : ℕ) : Secures (Live L) Safe (expireResult r) := by
  intro s hs
  rw [expireResult, wp_bind, wp_get, wp_ite]
  exact ⟨fun hr => wp_mono (wp_resultTimeout hs.1 hr) fun _ _ hs' => hs.stays hs'.1 hs'.2, fun _ => hs⟩

theorem secures_expireTimer (q : ℕ) : Secures (Live L) Safe (expireTimer q) := by
  intro s hs
  rw [expireTimer, wp_bind, wp_get]
  cases hq : s.queues q with
  | none => exact hs
  | some queue =>
    rw [wp_ite]
    exact ⟨fun ht => secures_timerCallback_of hs hq ht, fun _ => hs⟩

theorem secures_freeMsgQueue (thread : ℕ) : Secures (Live []) Safe (freeMsgQueue thread) := by
  intro s hs
  rw [freeMsgQueue, wp_modify]
  cases ht : s.queueOf thread with
  | none => exact hs
  | some q => exact ⟨hs.1.orphan ht, (fun _ h => by cases h)⟩

theorem secures_releaseQueue (q : ℕ) : Secures (Live []) Safe (releaseQueue q) := by
  intro s hs
  rw [releaseQueue, wp_bind, wp_get, wp_ite]
  refine ⟨fun hq => ?_, fun _ => hs⟩
  rw [wp_bind, wp_modify]
  have hlists : State.threadLists { s with orphans := s.orphans.erase q } =
      Function.update s.threadLists none (s.orphans.erase q) := by
    funext c
    cases c with
    | none => rw [Function.update_self]; rfl
    | some t => rw [Function.update_of_ne (by simp)]; rfl
  have hsub : ∀ c, ∀ i ∈ State.threadLists { s with orphans := s.orphans.erase q } c,
      i ∈ s.threadLists c := by
    intro c i hi
    cases c with
    | none => exact List.mem_of_mem_erase hi
    | some t => exact hi
  have hinv : Inv none { s with orphans := s.orphans.erase q } :=
    { hs.1 with
      threads := hlists ▸ hs.1.threads.shrink (List.erase_sublist).subperm
      live := fun c i hi => hs.1.live c i (hsub c i hi)
      sending := hs.1.sending }
  obtain ⟨queue, hqq⟩ := Option.ne_none_iff_exists'.mp (hs.1.live none q hq)
  refine wp_mono (wp_msgQueueDestroy hinv hqq fun c hc => ?_) fun _ _ hs' => ⟨hs', (fun _ h => by cases h)⟩
  obtain rfl := hs.1.threads.unique q c none (hsub c q hc) hq
  exact (hs.1.threads.nodup none).not_mem_erase hc

/-! ## Runs -/

theorem secures_perform (fuel : ℕ) (a : Action) : Secures (Live []) Safe (perform fuel a) := by
  cases a with
  | getMsgQueue current =>
    intro s hs
    rw [perform, wp_map]
    exact wp_mono (wp_getCurrentQueue hs) fun _ _ hs' => hs'.1
  | sendMessage => exact secures_handleSendMessage _ _ _ _
  | postMessage => exact secures_postMessage _ _ _ _ _
  | postWinEvent => exact secures_postWinEvent _ _ _ _ _ _ _
  | postQuitMessage => exact secures_handlePostQuitMessage _ _
  | getMessage => exact .map _ (secures_handleGetMessage _ _)
  | replyMessage => exact secures_handleReplyMessage _ _ _ _
  | getMessageReply => exact .map _ (secures_handleGetMessageReply _ _)
  | setWinTimer => exact secures_handleSetWinTimer _ _ _ _ _ _ _ _ _
  | killWinTimer => exact secures_handleKillWinTimer _ _ _ _ _
  | incPaintCount => exact secures_incQueuePaintCount _ _
  | cleanupWindow => exact secures_cleanupWindow _ _ _
  | resultTimeout r => exact secures_expireResult r
  | timerCallback q => exact secures_expireTimer q
  | threadExit thread => exact secures_freeMsgQueue thread
  | releaseQueue q => exact secures_releaseQueue q

theorem inv_initial (grants : ℕ → Bool) : Inv none (.initial grants) := by
  have hmsgs : (State.initial grants).msgLists = fun _ => [] := by
    funext c
    cases c <;> rfl
  have hthreads : (State.initial grants).threadLists = fun _ => [] := by
    funext c
    cases c <;> rfl
  exact
    { receiving := .empty
      pending := .empty
      messages := hmsgs ▸ .empty
      threads := hthreads ▸ .empty
      live := fun c q hq => by rw [hthreads] at hq; cases hq
      queue := (by intros; contradiction)
      received := (by intros; contradiction)
      unread := (by intros; contradiction)
      result := (by intros; contradiction)
      held := (by intros; contradiction)
      counted := fun _ => ⟨rfl, rfl⟩
      freshQueue := fun _ _ => rfl
      freshResult := fun _ _ => rfl
      freshMsg := fun c m hm => by rw [hmsgs] at hm; cases hm
      sending := .empty }

theorem secures_step {fuel : ℕ} {a : Action} (h : Inv none s) :
    (∀ s', step fuel s a = .ok s' → Inv none s') ∧ ∀ e, step fuel s a = .error e → Safe e := by
  have hlive : Live [] { s with error := none } := ⟨{ h with sending := h.sending }, (fun _ h => by cases h)⟩
  have hp := wp_iff.mp (secures_perform fuel a _ hlive)
  rw [step]
  cases hr : perform fuel a { s with error := none } with
  | ok res =>
    refine ⟨fun s' hs' => ?_, (fun _ h => by cases h)⟩
    obtain rfl := Except.ok.inj hs'
    exact (hp.1 res.1 res.2 hr).1
  | error e =>
    refine ⟨(fun _ h => by cases h), fun e' he' => ?_⟩
    obtain rfl := Except.error.inj he'
    exact hp.2 e hr

/-- What refers to a result: the lists of the queues, the messages and the pending timeouts. -/
def State.Refers (s : State) (r : ℕ) : Prop :=
  (∃ q queue, s.queues q = some queue ∧ (r ∈ queue.sendResult ∨ r ∈ queue.callbackResult ∨
    r ∈ queue.recvResult ∨ ∃ msg ∈ queue.sendMsgs ++ queue.postMsgs, msg.result = some r)) ∨
  r ∈ s.timeouts

/-- The life of the results so far. -/
structure State.LifeCycle (s : State) : Prop where
  referred : ∀ r, s.Refers r → s.results r ≠ none
  kept : ∀ r, s.results r ≠ none → s.made r = true ∧ s.frees r = 0 ∧
    ∃ q queue, s.queues q = some queue ∧ (r ∈ queue.sends ∨ r ∈ queue.receives)
  freed : ∀ r, s.results r = none → s.frees r = (s.made r).toNat
  waiting : ∀ r res q, s.results r = some res → res.sender = some q →
    s.abandons r = 0 ∧ s.answers r = res.replied.toNat ∧
    (res.replied = false → ∃ p queue, s.queues p = some queue ∧ r ∈ queue.receives)
  ended : ∀ r, s.made r = true → (∀ res, s.results r = some res → res.sender = none) →
    s.answers r + s.abandons r = 1

theorem Inv.lifeCycle (h : Inv none s) : s.LifeCycle := by
  have hsend : ∀ {r q queue}, s.queues q = some queue → r ∈ queue.sends → s.results r ≠ none := by
    intro r q queue hq hm hn
    have := h.sending.owner_of_mem (a := r) (c := q) (sendLists_eq hq ▸ hm)
    rw [State.sendOwner, hn] at this
    cases this
  have hrecv : ∀ {r q queue}, s.queues q = some queue → r ∈ queue.receives →
      s.results r ≠ none := by
    intro r q queue hq hm hn
    have := h.receiving.owner_of_mem (a := r) (c := q) (recvLists_eq hq ▸ hm)
    rw [State.recvOwner, if_neg (fun h => by cases h), hn] at this
    cases this
  have hcount := h.counted
  refine ⟨?_, fun r hr => ?_, fun r hr => ?_, fun r res q hr hs => ?_, fun r hm hs => ?_⟩
  · rintro r (⟨q, queue, hq, hl⟩ | ht) hn
    · obtain hm | hm | hm | ⟨msg, hm, hmr⟩ := hl
      · exact hsend hq (List.mem_append_left _ hm) hn
      · exact hsend hq (List.mem_append_right _ hm) hn
      · exact hrecv hq (List.mem_append_left _ hm) hn
      · cases List.mem_append.mp hm with
        | inl hm =>
          exact hrecv hq (List.mem_append_right _ (List.mem_filterMap.mpr ⟨msg, hm, hmr⟩)) hn
        | inr hm =>
          rw [(h.queue q queue hq).posted msg hm] at hmr
          cases hmr
    · have := h.pending.owner_of_mem (c := ()) ht
      rw [State.timeoutOwner, hn] at this
      cases this
  · obtain ⟨res, hr⟩ := Option.ne_none_iff_exists'.mp hr
    have hc := hcount r
    simp only [State.Counted, hr] at hc
    refine ⟨hc.1, hc.2.1, ?_⟩
    obtain hs | hs := (h.held r res hr (fun h => by cases h)).held
    · obtain ⟨q, hs⟩ := Option.ne_none_iff_exists'.mp hs
      obtain ⟨queue, hq, hm⟩ := h.sender_queue hr hs
      exact ⟨q, queue, hq, .inl hm⟩
    · obtain ⟨q, hs⟩ := Option.ne_none_iff_exists'.mp hs
      obtain ⟨queue, hq, hm⟩ := h.receiver_queue hr hs
      exact ⟨q, queue, hq, .inr hm⟩
  · have hc := hcount r
    simp only [State.Counted, hr] at hc
    exact hc.1
  · have hc := hcount r
    simp only [State.Counted, hr] at hc
    obtain ⟨ha, hb⟩ := hc.2.2.1 (by rw [hs]; exact Option.some_ne_none _)
    refine ⟨hb, ha, fun hrep => ?_⟩
    have hrcv : res.receiver ≠ none := fun hn => by
      rw [((h.held r res hr (fun h => by cases h)).gone hn).1] at hrep
      cases hrep
    obtain ⟨p, hp⟩ := Option.ne_none_iff_exists'.mp hrcv
    obtain ⟨queue, hq, hm⟩ := h.receiver_queue hr hp
    exact ⟨p, queue, hq, hm⟩
  · have hc := hcount r
    cases hr : s.results r with
    | none =>
      simp only [State.Counted, hr, hm] at hc
      exact hc.2
    | some res =>
      simp only [State.Counted, hr] at hc
      exact hc.2.2.2 (hs res hr)

/-- A message is sent with a timeout, received, and the sender gives up. Then the reply comes. -/
def cancelRun : List Action :=
  [.getMsgQueue 1, .getMsgQueue 2,
    .sendMessage 1 (some 2) false ⟨.unicode, 0, 0x400, 0, 0, 0, true, 0, 0, false⟩,
    .getMessage 2 ⟨true, true, 0, 0, 0, 0, 0, fun _ _ => false, false, none⟩,
    .getMessageReply 1 true, .replyMessage 2 7 true 0]

end Wine.Queues
