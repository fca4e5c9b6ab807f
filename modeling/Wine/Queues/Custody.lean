import Wine.Queues.Transit

/-!
# What the functions do with results

Each function that sends, answers or frees keeps the invariant and touches no result that is freed.
Beside that it leaves the queues as they are, but that a sender loses results and gets callback
messages.
-/

namespace Wine.Queues
open Wine.Lib

variable {s s' : State} {q r : ℕ} {queue other : Queue} {res : MessageResult} {msg : Message}
  {x : Option ℕ}

/-- The faults that have nothing to do with results. -/
def Safe (e : Fault) : Prop := e = .noQueue ∨ e = .endless

/-- What functions that answer may do with a queue. -/
structure Queue.Grows (queue other : Queue) : Prop where
  recvResult : other.recvResult = queue.recvResult
  postMsgs : other.postMsgs = queue.postMsgs
  sendMsgs : queue.sendMsgs.IsPrefix other.sendMsgs
  sends : other.sends.Sublist queue.sends
  quiet : queue.sends = [] → other.sendMsgs = queue.sendMsgs
  pendingTimers : other.pendingTimers = queue.pendingTimers
  timeout : other.timeout = queue.timeout

namespace Queue.Grows

theorem refl (queue : Queue) : queue.Grows queue :=
  ⟨rfl, rfl, List.prefix_refl _, List.Sublist.refl _, fun _ => rfl, rfl, rfl⟩

theorem setBits (queue : Queue) (bits : BitVec 32) : queue.Grows (queue.setBits bits) :=
  ⟨rfl, rfl, List.prefix_refl _, List.Sublist.refl _, fun _ => rfl, rfl, rfl⟩

end Queue.Grows

def Frame (s s' : State) : Prop :=
  (∀ q queue, s.queues q = some queue → ∃ other, s'.queues q = some other ∧ queue.Grows other) ∧
    s'.threadLists = s.threadLists

namespace Frame

theorem of_eq (h : s'.queues = s.queues) (ht : s'.threadLists = s.threadLists) : Frame s s' :=
  ⟨fun _ queue hq => ⟨queue, h ▸ hq, .refl queue⟩, ht⟩

theorem of_update (hq : s.queues q = some queue)
    (h : s'.queues = Function.update s.queues q (some other)) (ht : s'.threadLists = s.threadLists)
    (hg : queue.Grows other) : Frame s s' := by
  refine ⟨fun i queue' hi => ?_, ht⟩
  by_cases hiq : i = q
  · subst hiq
    rw [hq] at hi
    obtain rfl := Option.some.inj hi
    exact ⟨other, by rw [h, Function.update_self], hg⟩
  · exact ⟨queue', by rw [h, Function.update_of_ne hiq, hi], .refl queue'⟩

end Frame

/-! ## Freeing and storing -/

theorem timeoutOwner_eq (hr : s.results r = some res) :
    s.timeoutOwner r = if res.timeout then some () else none := by
  rw [State.timeoutOwner, hr, Option.bind_some]

/-- A result loses its timeout. -/
theorem linked_erase (h : Inv x s) (hr : s.results r = some res) :
    Linked (fun _ => if res.timeout then s.timeouts.erase r else s.timeouts)
      (Function.update s.timeoutOwner r none) := by
  have howner := timeoutOwner_eq hr
  cases ht : res.timeout with
  | false =>
    rw [ht] at howner
    exact h.pending.remove_of_none howner
  | true =>
    rw [ht] at howner
    have hmem : r ∈ s.timeouts := h.pending.mem_of_owner (c := ()) howner
    have hrem := h.pending.remove (c := ()) (List.perm_cons_erase hmem)
    have hunit : Function.update (fun _ : Unit => s.timeouts) () (s.timeouts.erase r) =
        fun _ => s.timeouts.erase r := funext fun _ => Function.update_self ..
    exact hunit ▸ hrem

theorem removeTimeoutUser_eq (timeout : Bool) :
    (if timeout then { s with timeouts := s.timeouts.erase r } else s) =
      { s with timeouts := if timeout then s.timeouts.erase r else s.timeouts } := by
  cases timeout <;> rfl

theorem abandons_eq (replied : Bool) :
    (if replied then s else
      { s with abandons := Function.update s.abandons r (s.abandons r + 1) }) =
      { s with abandons :=
        Function.update s.abandons r (if replied then s.abandons r else s.abandons r + 1) } := by
  cases replied with
  | true => rw [if_pos rfl, if_pos rfl, Function.update_eq_self]
  | false => rfl

theorem wp_getResult_of {P : MessageResult → State → Prop} {E : Fault → Prop}
    (hr : s.results r = some res) : wp (getResult r) P E s ↔ P res s := by
  rw [wp_getResult, hr]
  exact ⟨fun hp => hp.1 res rfl, fun hp => ⟨fun res' hr' => Option.some.inj hr' ▸ hp, (fun h => by cases h)⟩⟩

theorem wp_getQueue_of {P : Queue → State → Prop} {E : Fault → Prop}
    (hq : s.queues q = some queue) : wp (getQueue q) P E s ↔ P queue s := by
  rw [wp_getQueue, hq]
  exact ⟨fun hp => hp.1 queue rfl, fun hp => ⟨fun other ho => Option.some.inj ho ▸ hp, (fun h => by cases h)⟩⟩

/-- A result that no list of a receiver holds and that has no sender is freed. -/
theorem wp_freeResult (h : Inv (some r) s) (hr : s.results r = some res)
    (hs : res.sender = none) :
    wp (freeResult r) (fun _ s' => Inv none s' ∧ s'.queues = s.queues ∧
      s'.threadLists = s.threadLists) Safe s := by
  simp only [freeResult, removeTimeoutUser, wp_bind, wp_getResult_of hr, wp_modify,
    removeTimeoutUser_eq]
  exact ⟨h.free hr hs (linked_erase h hr), rfl, rfl⟩

theorem wp_removeResultFromSender (h : Inv none s) (hr : s.results r = some res)
    (hs : res.sender = some q) (hq : s.queues q = some queue) :
    wp (removeResultFromSender r) (fun _ s' => Inv none s' ∧
      s'.queues = Function.update s.queues q (some { queue with
        sendResult := queue.sendResult.erase r
        callbackResult := queue.callbackResult.erase r }) ∧
      s'.threadLists = s.threadLists) Safe s := by
  simp only [removeResultFromSender, wp_bind, wp_getResult_of hr, hs, wp_getQueue_of hq, setQueue,
    setResult, wp_modify, abandons_eq, wp_ite, wp_pure]
  refine ⟨fun hrecv => ?_, fun hrecv => ?_⟩
  · have hun := h.unlink hr hs hq (.inr ⟨rfl, Option.isNone_iff_eq_none.mp hrecv⟩)
      (fun i hi => Function.update_of_ne hi
        (if res.replied then s.abandons r else s.abandons r + 1) s.abandons)
      (Function.update_self ..)
    exact wp_freeResult hun State.setResult_self rfl
  · refine ⟨h.unlink hr hs hq (.inl ⟨rfl, fun hn => hrecv (Option.isNone_iff_eq_none.mpr hn)⟩)
      (fun i hi => Function.update_of_ne hi ..) (Function.update_self ..), rfl, rfl⟩

theorem Inv.sender_queue (h : Inv x s) (hr : s.results r = some res) (hs : res.sender = some q) :
    ∃ queue, s.queues q = some queue ∧ r ∈ queue.sends := by
  have hm : r ∈ s.sendLists q :=
    h.sending.mem_of_owner (by rw [State.sendOwner, hr, Option.bind_some, hs])
  cases hq : s.queues q with
  | none =>
    rw [State.sendLists, hq] at hm
    cases hm
  | some queue => exact ⟨queue, rfl, sendLists_eq hq ▸ hm⟩

theorem Inv.receiver_queue (h : Inv none s) (hr : s.results r = some res)
    (hs : res.receiver = some q) : ∃ queue, s.queues q = some queue ∧ r ∈ queue.receives := by
  have hm : r ∈ s.recvLists q :=
    h.receiving.mem_of_owner (by rw [State.recvOwner, if_neg (fun h => by cases h), hr, Option.bind_some, hs])
  cases hq : s.queues q with
  | none =>
    rw [State.recvLists, hq] at hm
    cases hm
  | some queue => exact ⟨queue, rfl, recvLists_eq hq ▸ hm⟩

theorem wp_setQueueBits {P : PUnit → State → Prop} {E : Fault → Prop} {bits : BitVec 32}
    (hq : s.queues q = some queue) :
    wp (setQueueBits q bits) P E s ↔ P ⟨⟩ (s.setQueue q (some (queue.setBits bits))) := by
  simp only [setQueueBits, wp_bind, wp_getQueue_of hq, setQueue, wp_modify]

theorem wp_deliver {P : PUnit → State → Prop} {E : Fault → Prop} {kind : MessageKind}
    (hq : s.queues q = some queue) :
    wp (deliver q kind msg) P E s ↔ P ⟨⟩ (s.setQueue q
      (some ((queue.setMsgList (queue.msgList kind ++ [msg]) kind).setBits kind.bits))) := by
  simp only [deliver, addTail, wp_bind, wp_getQueue_of hq, setQueue, wp_modify,
    wp_setQueueBits State.setQueue_self, State.setQueue_setQueue]

/-- The sender of a stored reply gets its callback message or is woken. -/
theorem wp_notifySender {result : ℕ} (h : Inv none s) (hr : s.results r = some res)
    (hs : res.sender = some q) :
    wp (match res.callbackMsg with
      | some msg => do
        deliver q .sendMessage { msg with lparam := result }
        setResult r { res with callbackMsg := none }
        removeResultFromSender r
      | none => do
        let queue ← getQueue q
        if queue.sendResult.head? = some r then setQueueBits q qsSmresult else pure ())
      (fun _ s' => Inv none s' ∧ Frame s s') Safe s := by
  obtain ⟨queue, hq, hmem⟩ := h.sender_queue hr hs
  have harmed := (h.queue q queue hq).armed
  cases hc : res.callbackMsg with
  | none =>
    simp only [wp_bind, wp_ite, wp_pure, wp_getQueue_of hq, wp_setQueueBits hq]
    refine ⟨fun _ => ⟨h.setQueue_same hq rfl harmed, ?_⟩, fun _ => ⟨h, .of_eq rfl rfl⟩⟩
    exact .of_update hq rfl rfl (.setBits queue _)
  | some msg =>
    simp only [wp_bind, wp_deliver hq, setResult, wp_modify]
    have hcb : Inv none ((s.setQueue q (some ((queue.setMsgList (queue.msgList .sendMessage ++
        [{ msg with lparam := result }]) .sendMessage).setBits MessageKind.sendMessage.bits))).setResult
        r (some { res with callbackMsg := none })) :=
      h.callback { msg with lparam := result } hr hc hq rfl
        ((h.result r res hr).callback msg hc) rfl harmed
    refine wp_mono (wp_removeResultFromSender hcb State.setResult_self hs State.setQueue_self) ?_
    rintro _ s' ⟨hinv, hqs, hthreads⟩
    refine ⟨hinv, .of_update hq (hqs.trans (Function.update_idem ..)) hthreads ?_⟩
    refine ⟨rfl, rfl, List.prefix_append .., ?_, fun hnil => ?_, rfl, rfl⟩
    · exact List.erase_sublist.append List.erase_sublist
    · rw [hnil] at hmem
      cases hmem

/-- A reply is stored. The result is in transit only if its receiver is gone while a sender waits. -/
theorem wp_storeMessageResult {result : ℕ} {error : Option Wine.Server.Status} (h : Inv x s)
    (hr : s.results r = some res) (hrep : res.replied = false) (hmsg : res.msg = none)
    (hx : x = none ∨ x = some r ∧ res.receiver = none ∧ res.sender ≠ none) :
    wp (storeMessageResult r result error) (fun _ s' => Inv none s' ∧ Frame s s') Safe s := by
  have hcount := h.counted r
  simp only [State.Counted, hr, hrep] at hcount
  have hrecv : res.receiver = s.recvOwner x r := by
    obtain rfl | ⟨rfl, hnone, -⟩ := hx
    · rw [State.recvOwner, if_neg (fun h => by cases h), hr, Option.bind_some]
    · rw [State.recvOwner, if_pos rfl, hnone]
  have hxy : ∀ i, i ≠ r → (x = some i ↔ none = some i) := by
    intro i hi
    obtain rfl | ⟨rfl, -, -⟩ := hx
    · exact Iff.rfl
    · simpa using Ne.symm hi
  have hheld : res.sender ≠ none ∨ res.receiver ≠ none := by
    obtain rfl | ⟨-, -, hs⟩ := hx
    · exact (h.held r res hr (fun h => by cases h)).held
    · exact .inl hs
  simp only [storeMessageResult, wp_bind, wp_getResult_of hr, removeTimeoutUser, wp_modify,
    removeTimeoutUser_eq, setResult]
  have hstored : ∀ as : ℕ → ℕ, (∀ i, i ≠ r → as i = s.answers i) →
      (res.sender ≠ none → as r = true.toNat) → (res.sender = none → as r = s.answers r) →
      Inv none { s.setResult r (some { res with
          result := result, error := error, replied := true, timeout := false }) with
        timeouts := if res.timeout then s.timeouts.erase r else s.timeouts
        answers := as } := by
    intro as has hsent hleft
    exact h.setResult hr rfl (fun _ hc => hc) hrecv hxy (fun _ => rfl) (linked_erase h hr)
      ⟨fun hm => (hm hmsg).elim, (fun h => by cases h), (h.result r res hr).callback⟩
      (fun _ => ⟨hheld, fun _ => ⟨rfl, hmsg⟩⟩) has hsent hleft
  cases hs : res.sender with
  | none =>
    have hinv := hstored s.answers (fun _ _ => rfl) (fun hn => (hn hs).elim) fun _ => rfl
    simp only [hs] at hinv
    exact ⟨hinv, .of_eq rfl rfl⟩
  | some q =>
    have hinv := hstored (Function.update s.answers r (s.answers r + 1))
      (fun i hi => Function.update_of_ne hi ..)
      (fun hn => by rw [Function.update_self, (hcount.2.2.1 hn).1]; rfl)
      (fun hn => by rw [hs] at hn; cases hn)
    simp only [hs] at hinv
    exact wp_notifySender hinv State.setResult_self rfl

/-! ## Messages that go away -/

/-- A result in transit loses its message, and its receiver if that is gone. -/
theorem Inv.transit (h : Inv (some r) s) (hr : s.results r = some res) (receiver : Option ℕ) :
    Inv (some r) (s.setResult r (some { res with msg := none, receiver := receiver })) := by
  have hcount := h.counted r
  simp only [State.Counted, hr] at hcount
  refine h.setResult hr rfl (fun _ hc => hc) ?_ (fun _ _ => Iff.rfl) (fun hn => (hn ?_).elim) ?_
    ⟨(by intros; contradiction), (h.result r res hr).timeout, (h.result r res hr).callback⟩ (fun hn => (hn rfl).elim)
    (fun _ _ => rfl) (fun hs => (hcount.2.2.1 hs).1) fun _ => rfl
  · rw [if_pos rfl, State.recvOwner, if_pos rfl]
  · rw [State.recvOwner, if_pos rfl]
  · show Linked (fun _ => s.timeouts)
      (Function.update s.timeoutOwner r (if res.timeout then some () else none))
    rw [← timeoutOwner_eq hr, Function.update_eq_self]
    exact h.pending

/-- The message is in no list any more, and the result that it points to is in transit. -/
theorem wp_freeMessage (h : Inv msg.result s)
    (hu : ∀ r, msg.result = some r → ∃ res, s.results r = some res ∧ res.replied = false) :
    wp (freeMessage msg) (fun _ s' => Inv none s' ∧ Frame s s') Safe s := by
  unfold freeMessage
  cases hmr : msg.result with
  | none =>
    rw [hmr] at h
    exact ⟨h, .of_eq rfl rfl⟩
  | some r =>
    obtain ⟨res, hr, hrep⟩ := hu r hmr
    rw [hmr] at h
    simp only [wp_bind, wp_getResult_of hr, wp_ite, setResult, wp_modify]
    refine ⟨fun hs => ?_, fun hs => ?_⟩
    · refine wp_storeMessageResult (h.transit hr none) State.setResult_self hrep rfl ?_
      exact .inr ⟨rfl, rfl, Option.isSome_iff_ne_none.mp hs⟩
    · have hnone : res.sender = none := by simpa using hs
      refine wp_mono (wp_freeResult (h.transit hr res.receiver) State.setResult_self hnone) ?_
      exact fun _ s' hs' => ⟨hs'.1, .of_eq hs'.2.1 hs'.2.2⟩

theorem Inv.unread_result {kind : MessageKind} (h : Inv none s) (hq : s.queues q = some queue)
    (hm : msg ∈ queue.msgList kind) (hmr : msg.result = some r) :
    ∃ res, s.results r = some res ∧ res.msg = some msg.id ∧ res.replied = false ∧
      res.receiver = some q := by
  cases kind with
  | postMessage =>
    rw [(h.queue q queue hq).posted msg hm] at hmr
    cases hmr
  | sendMessage =>
    have hlist : r ∈ s.recvLists q := by
      rw [recvLists_eq hq]
      exact List.mem_append_right _ (List.mem_filterMap.mpr ⟨msg, hm, hmr⟩)
    have howner := h.receiving.owner_of_mem hlist
    rw [State.recvOwner, if_neg (fun h => by cases h)] at howner
    obtain ⟨res, hr, hrq⟩ := Option.bind_eq_some_iff.mp howner
    have hmsg := h.unread q queue hq msg hm r hmr res hr
    exact ⟨res, hr, hmsg, (h.result r res hr).unread (by rw [hmsg]; exact Option.some_ne_none _), hrq⟩

theorem Queue.dropMessage_lists (queue : Queue) (msg : Message) (kind : MessageKind) :
    (queue.dropMessage msg kind).lists =
      (queue.setMsgList ((queue.msgList kind).eraseP (·.id = msg.id)) kind).lists := by
  cases kind <;> simp only [Queue.dropMessage] <;> split <;> rfl

theorem Queue.dropMessage_timers (queue : Queue) (msg : Message) (kind : MessageKind) :
    (queue.dropMessage msg kind).timeout = queue.timeout ∧
      (queue.dropMessage msg kind).pendingTimers = queue.pendingTimers := by
  cases kind <;> simp only [Queue.dropMessage] <;> split <;> exact ⟨rfl, rfl⟩

theorem Inv.dropMessage {kind : MessageKind} (h : Inv none s) (hq : s.queues q = some queue)
    (hm : msg ∈ queue.msgList kind) :
    Inv msg.result (s.setQueue q (some (queue.dropMessage msg kind))) := by
  refine h.drop hq hm (queue.dropMessage_lists msg kind) fun ht => ?_
  rw [(queue.dropMessage_timers msg kind).2]
  exact (h.queue q queue hq).armed ((queue.dropMessage_timers msg kind).1 ▸ ht)

theorem wp_removeQueueMessage {kind : MessageKind} (h : Inv none s) (hq : s.queues q = some queue)
    (hm : msg ∈ queue.msgList kind) :
    wp (removeQueueMessage q msg kind) (fun _ s' => Inv none s' ∧
      Frame (s.setQueue q (some (queue.dropMessage msg kind))) s') Safe s := by
  simp only [removeQueueMessage, wp_bind, wp_getQueue_of hq, setQueue, wp_modify]
  refine wp_freeMessage (h.dropMessage hq hm) fun r hmr => ?_
  obtain ⟨res, hr, -, hrep, -⟩ := h.unread_result hq hm hmr
  exact ⟨res, hr, hrep⟩

/-! ## Timeouts, receipts and replies -/

/-- The queues that there are stay. -/
def Stays (s s' : State) : Prop := ∀ q, s.queues q ≠ none → s'.queues q ≠ none

namespace Stays

theorem of_eq (h : s'.queues = s.queues) : Stays s s' := fun _ hq => h ▸ hq

theorem of_frame (h : Frame s s') : Stays s s' := by
  intro q hq
  obtain ⟨queue, hq⟩ := Option.ne_none_iff_exists'.mp hq
  obtain ⟨other, ho, -⟩ := h.1 q queue hq
  rw [ho]
  exact Option.some_ne_none _

theorem trans {s'' : State} (h : Stays s s') (h' : Stays s' s'') : Stays s s'' :=
  fun q hq => h' q (h q hq)

theorem setQueue : Stays s (s.setQueue q (some other)) := by
  intro i hi
  by_cases hiq : i = q
  · subst hiq
    rw [State.setQueue_self]
    exact Option.some_ne_none _
  · rwa [State.setQueue_of_ne hiq]

end Stays

/-- The message of an unread result is where its receiver finds it. -/
theorem Inv.find_unread (h : Inv none s) (hr : s.results r = some res) {m : ℕ}
    (hmsg : res.msg = some m) (hrq : res.receiver = some q) (hq : s.queues q = some queue) :
    ∃ msg ∈ queue.sendMsgs, queue.sendMsgs.find? (·.id = m) = some msg ∧ msg.id = m ∧
      msg.result = some r := by
  obtain ⟨queue', hq', hmem⟩ := h.receiver_queue hr hrq
  rw [hq] at hq'
  obtain rfl := Option.some.inj hq'
  have hunread : r ∉ queue.recvResult := fun hm => by
    rw [h.received q queue hq r hm res hr] at hmsg
    cases hmsg
  obtain ⟨msg, hm, hmr⟩ := List.mem_filterMap.mp ((List.mem_append.mp hmem).resolve_left hunread)
  have hid : msg.id = m := by
    have := h.unread q queue hq msg hm r hmr res hr
    rw [hmsg] at this
    exact (Option.some.inj this).symm
  have hnd := h.nodup_sendMsgs hq
  rw [List.map_append] at hnd
  cases hf : queue.sendMsgs.find? (·.id = m) with
  | none =>
    have := List.find?_eq_none.mp hf msg hm
    exact (this (by simpa using hid)).elim
  | some found =>
    have hfid : found.id = m := by simpa using List.find?_some hf
    obtain rfl := List.inj_on_of_nodup_map (List.nodup_append.mp hnd).1
      (List.mem_of_find?_eq_some hf) hm (hfid.trans hid.symm)
    exact ⟨found, hm, rfl, hid, hmr⟩

/-- The unread message of a result is dropped without an answer, and then the result is answered. -/
theorem wp_dropUnread (error : Option Wine.Server.Status) (h : Inv none s)
    (hr : s.results r = some res) (hrep : res.replied = false) (hq : s.queues q = some queue)
    (hm : msg ∈ queue.sendMsgs) (hmr : msg.result = some r) :
    wp (do
        removeQueueMessage q { msg with result := none } .sendMessage
        setResult r { res with msg := none, receiver := none }
        if res.sender.isNone then freeResult r else storeMessageResult r 0 error)
      (fun _ s' => Inv none s' ∧ Stays s s') Safe s := by
  have hdrop : Inv (some r) (s.setQueue q (some (queue.dropMessage msg .sendMessage))) :=
    hmr ▸ h.dropMessage hq (show msg ∈ queue.msgList .sendMessage from hm)
  have htransit := hdrop.transit hr none
  simp only [wp_bind, wp_getQueue_of hq, removeQueueMessage, setQueue, setResult, wp_modify,
    freeMessage, wp_pure, wp_ite]
  refine ⟨fun hs => ?_, fun hs => ?_⟩
  · have hnone : res.sender = none := Option.isNone_iff_eq_none.mp hs
    refine wp_mono (wp_freeResult htransit State.setResult_self hnone) fun _ s' hs' => ⟨hs'.1, ?_⟩
    exact Stays.setQueue.trans (.of_eq hs'.2.1)
  · have hsome : res.sender ≠ none := fun hn => hs (Option.isNone_iff_eq_none.mpr hn)
    refine wp_mono (wp_storeMessageResult htransit State.setResult_self hrep rfl
      (.inr ⟨rfl, rfl, hsome⟩)) fun _ s' hs' => ⟨hs'.1, ?_⟩
    exact Stays.setQueue.trans (.of_frame hs'.2)

theorem wp_resultTimeout (h : Inv none s) (hr : r ∈ s.timeouts) :
    wp (resultTimeout r) (fun _ s' => Inv none s' ∧ Stays s s') Safe s := by
  have howner := h.pending.owner_of_mem (c := ()) hr
  obtain ⟨res, hres, ht⟩ := Option.bind_eq_some_iff.mp howner
  have htime : res.timeout = true := by
    by_contra hn
    rw [if_neg hn] at ht
    cases ht
  have hrep := (h.result r res hres).timeout htime
  have hcount := h.counted r
  simp only [State.Counted, hres] at hcount
  have hpend := linked_erase h hres
  rw [if_pos htime] at hpend
  have hinv : Inv none (State.setResult { s with timeouts := s.timeouts.erase r } r
      (some { res with timeout := false })) := by
    refine h.setResult hres rfl (fun _ hc => hc) ?_ (fun _ _ => Iff.rfl) (fun _ => rfl) hpend
      ⟨(h.result r res hres).unread, (fun h => by cases h), (h.result r res hres).callback⟩
      (fun _ => ⟨(h.held r res hres (fun h => by cases h)).held, (h.held r res hres (fun h => by cases h)).gone⟩)
      (fun _ _ => rfl) (fun hs => (hcount.2.2.1 hs).1) fun _ => rfl
    rw [if_neg (fun h => by cases h), State.recvOwner, if_neg (fun h => by cases h), hres, Option.bind_some]
  simp only [resultTimeout, removeTimeoutUser, if_true, wp_bind, wp_modify]
  rw [wp_getResult_of (s := { s with timeouts := s.timeouts.erase r }) hres]
  simp only [hrep, Bool.false_eq_true, if_false, wp_bind, setResult, wp_modify]
  cases hmsg : res.msg with
  | none =>
    simp only [hmsg, hrep] at hinv
    refine wp_mono (wp_storeMessageResult hinv State.setResult_self rfl rfl (.inl rfl)) ?_
    exact fun _ s' hs' => ⟨hs'.1, .of_frame hs'.2⟩
  | some m =>
    cases hrq : res.receiver with
    | none =>
      have hgone := ((h.held r res hres (fun h => by cases h)).gone hrq).2
      rw [hmsg] at hgone
      cases hgone
    | some q =>
      simp only [hmsg, hrep, hrq] at hinv
      obtain ⟨queue, hq, -⟩ := hinv.receiver_queue State.setResult_self rfl
      obtain ⟨msg, hm, hf, -, hmr⟩ := hinv.find_unread State.setResult_self rfl rfl hq
      have hdrop := wp_mono
        (wp_dropUnread (some Wine.Server.statusTimeout) hinv State.setResult_self rfl hq hm hmr)
        fun _ s' hs' => (⟨hs'.1, hs'.2⟩ : Inv none s' ∧ Stays s s')
      simpa only [setResult, wp_bind, wp_getQueue_of hq, hf] using hdrop

/-- A result in transit is pushed on the stack of its receiver. -/
theorem wp_pushResult {o : Option ℕ} (h : Inv o s) (hq : s.queues q = some queue)
    (hres : ∀ r, o = some r → ∃ res, s.results r = some res ∧ res.receiver = some q) :
    wp (pushResult q o) (fun _ s' => Inv none s' ∧ Stays s s') Safe s := by
  unfold pushResult
  cases o with
  | none => exact ⟨h, .of_eq rfl⟩
  | some r =>
    obtain ⟨res, hr, hrq⟩ := hres r rfl
    simp only [wp_bind, wp_getResult_of hr, setResult, wp_modify]
    rw [wp_getQueue_of (s := s.setResult r _) hq]
    have hsome : res.receiver ≠ none := by rw [hrq]; exact Option.some_ne_none _
    exact ⟨(h.transit hr res.receiver).push hq State.setResult_self hrq rfl
      ⟨.inr hsome, fun hn => (hsome hn).elim⟩ rfl (h.queue q queue hq).armed,
      (Stays.of_eq rfl).trans .setQueue⟩

theorem wp_receiveMessage {maxSize : ℕ} (h : Inv none s) (hq : s.queues q = some queue)
    (hm : msg ∈ queue.sendMsgs) :
    wp (receiveMessage q msg maxSize) (fun _ s' => Inv none s' ∧ Stays s s') Safe s := by
  have hdrop : Inv msg.result (s.setQueue q (some { queue with
      sendMsgs := queue.sendMsgs.eraseP (·.id = msg.id) })) :=
    h.drop hq (show msg ∈ queue.msgList .sendMessage from hm) rfl (h.queue q queue hq).armed
  unfold receiveMessage
  rw [wp_ite]
  refine ⟨fun _ => ⟨{ h with sending := h.sending }, .of_eq rfl⟩, fun _ => ?_⟩
  simp only [wp_bind, wp_getQueue_of hq, setQueue, wp_modify]
  have hpush := wp_pushResult hdrop State.setQueue_self fun r hmr => by
    obtain ⟨res, hr, -, -, hrq⟩ := h.unread_result hq
      (show msg ∈ queue.msgList .sendMessage from hm) hmr
    exact ⟨res, hr, hrq⟩
  refine wp_mono hpush fun _ t hpost => ?_
  obtain ⟨ht, hstays⟩ := hpost
  obtain ⟨other, ho⟩ := Option.ne_none_iff_exists'.mp
    (hstays q (by rw [State.setQueue_self]; exact Option.some_ne_none _))
  have harmed := (ht.queue q other ho).armed
  rw [wp_getQueue_of ho]
  refine ⟨?_, (Stays.setQueue.trans hstays).trans .setQueue⟩
  split
  · exact ht.setQueue_same ho rfl harmed
  · exact ht.setQueue_same ho rfl harmed

/-- A result whose receiver is gone is no longer in transit once it is answered. -/
theorem Inv.settle (h : Inv (some r) s) (hr : s.results r = some res) (hrep : res.replied = true)
    (hrcv : res.receiver = none) (hs : res.sender ≠ none) : Inv none s := by
  have hmsg : res.msg = none := by
    by_contra hm
    have := (h.result r res hr).unread hm
    rw [hrep] at this
    cases this
  refine { h with receiving := ?_, held := fun i res' hi _ => ?_ }
  · rw [recvOwner_none hr, hrcv]
    exact h.receiving.remove_of_none (if_pos rfl)
  · by_cases hir : r = i
    · rw [← hir, hr] at hi
      obtain rfl := Option.some.inj hi
      exact ⟨.inl hs, fun _ => ⟨hrep, hmsg⟩⟩
    · exact h.held i res' hi (by simpa using hir)

theorem Inv.alloc (h : Inv x s) (n : ℕ) (e : Option Wine.Server.Status) :
    Inv x { s with allocs := n, error := e } :=
  { h with sending := h.sending }

/-- Whether the memory is there matters to no list. -/
theorem wp_alloc {P : Bool → State → Prop} {E : Fault → Prop}
    (hp : ∀ granted n e, P granted { s with allocs := n, error := e }) : wp alloc P E s := by
  simp only [Queues.alloc, malloc, wp_bind, wp_get, wp_set, wp_pure, wp_modify]
  split
  · exact hp _ _ s.error
  · exact hp _ _ _

theorem wp_allocIf {P : Bool → State → Prop} {E : Fault → Prop} {c : Bool}
    (hp : ∀ granted n e, P granted { s with allocs := n, error := e }) : wp (allocIf c) P E s := by
  cases c with
  | true => exact wp_alloc hp
  | false => exact hp false s.allocs s.error

/-- The data of a reply matters to no list. -/
theorem Inv.setData (h : Inv x s) (hr : s.results r = some res) (len : ℕ) :
    Inv x (s.setResult r (some { res with dataSize := len })) := by
  have hsound := h.result r res hr
  have hcount := h.counted r
  simp only [State.Counted, hr] at hcount
  refine h.setResult hr rfl (fun _ hc => hc) ?_ (fun _ _ => Iff.rfl) (fun _ => rfl) ?_
    ⟨hsound.unread, hsound.timeout, hsound.callback⟩ (fun hx => ?_) (fun _ _ => rfl)
    (fun hs => (hcount.2.2.1 hs).1) fun _ => rfl
  · rw [State.recvOwner, hr, Option.bind_some]
  · show Linked (fun _ => s.timeouts)
      (Function.update s.timeoutOwner r (if res.timeout then some () else none))
    rw [← timeoutOwner_eq hr, Function.update_eq_self]
    exact h.pending
  · exact ⟨(h.held r res hr hx).held, (h.held r res hr hx).gone⟩

theorem wp_answer {result len : ℕ} {error : Option Wine.Server.Status} (h : Inv x s)
    (hr : s.results r = some res) (hmsg : res.msg = none)
    (hx : x = none ∨ x = some r ∧ res.receiver = none ∧ res.sender ≠ none) :
    wp (answer r result error len) (fun _ s' => Inv none s' ∧ Frame s s') Safe s := by
  simp only [answer, wp_bind, wp_getResult_of hr, wp_ite, wp_pure]
  refine ⟨fun hrep => ⟨?_, .of_eq rfl rfl⟩, fun hrep => wp_allocIf fun granted n e => ?_⟩
  · obtain rfl | ⟨rfl, hrcv, hs⟩ := hx
    · exact h
    · exact h.settle hr hrep hrcv hs
  · have hrep' : res.replied = false := by simpa using hrep
    have hdata (len : ℕ) : Inv x ({ s with allocs := n, error := e }.setResult r
        (some { res with dataSize := len })) := (h.alloc n e).setData hr len
    simp only [setResult, wp_modify]
    cases granted with
    | true => exact wp_storeMessageResult (hdata len) State.setResult_self hrep' hmsg hx
    | false => exact wp_storeMessageResult (hdata res.dataSize) State.setResult_self hrep' hmsg hx

/-- The reply to the received message on top of the stack, which is taken from it. -/
theorem wp_replyMessage {result len : ℕ} {error : Option Wine.Server.Status} {rest : List ℕ}
    (h : Inv none s) (hq : s.queues q = some queue) (htop : queue.recvResult = r :: rest) :
    wp (replyMessage q result error true len) (fun _ s' => Inv none s' ∧
      Frame (s.setQueue q (some { queue with recvResult := rest })) s') Safe s := by
  have hmem : r ∈ queue.recvResult := htop ▸ List.mem_cons_self
  have howner := h.receiving.owner_of_mem (a := r) (c := q)
    (recvLists_eq hq ▸ List.mem_append_left _ hmem)
  rw [State.recvOwner, if_neg (fun h => by cases h)] at howner
  obtain ⟨res, hr, -⟩ := Option.bind_eq_some_iff.mp howner
  have hmsg := h.received q queue hq r hmem res hr
  have hpop : Inv (some r) (s.setQueue q (some { queue with recvResult := rest })) :=
    h.pop hq htop rfl (h.queue q queue hq).armed
  have htransit : Inv (some r) ((s.setQueue q (some { queue with recvResult := rest })).setResult r
      (some { res with receiver := none })) := by
    have hrec : ({ res with msg := none, receiver := none } : MessageResult) =
        { res with receiver := none } := by rw [← hmsg]
    exact hrec ▸ hpop.transit (s := s.setQueue q _) hr none
  simp only [replyMessage, wp_bind, wp_getQueue_of hq, htop, if_true, setQueue, setResult, wp_modify]
  rw [wp_getResult_of (s := s.setQueue q _) hr, wp_ite]
  refine ⟨fun hs => ?_, fun hs => ?_⟩
  · refine wp_mono (wp_freeResult htransit State.setResult_self
      (Option.isNone_iff_eq_none.mp hs)) fun _ s' hs' => ⟨hs'.1, .of_eq hs'.2.1 hs'.2.2⟩
  · exact wp_answer htransit State.setResult_self hmsg
      (.inr ⟨rfl, rfl, fun hn => hs (Option.isNone_iff_eq_none.mpr hn)⟩)

theorem wp_replyMessage_keep {result len : ℕ} {error : Option Wine.Server.Status}
    (h : Inv none s) (hq : s.queues q = some queue) (hne : queue.recvResult ≠ []) :
    wp (replyMessage q result error false len) (fun _ s' => Inv none s' ∧ Frame s s') Safe s := by
  obtain ⟨r, rest, htop⟩ := List.exists_cons_of_ne_nil hne
  have hmem : r ∈ queue.recvResult := htop ▸ List.mem_cons_self
  have howner := h.receiving.owner_of_mem (a := r) (c := q)
    (recvLists_eq hq ▸ List.mem_append_left _ hmem)
  rw [State.recvOwner, if_neg (fun h => by cases h)] at howner
  obtain ⟨res, hr, -⟩ := Option.bind_eq_some_iff.mp howner
  simp only [replyMessage, wp_bind, wp_getQueue_of hq, htop, Bool.false_eq_true, if_false]
  exact wp_answer h hr (h.received q queue hq r hmem res hr) (.inl rfl)

end Wine.Queues
