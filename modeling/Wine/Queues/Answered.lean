import Wine.Queues.Custody

/-!
# The end of queues

A queue that is destroyed gives up its waits, answers what it has received and frees its messages,
and leaves the invariant. The rules for computations that keep the invariant follow.
-/

namespace Wine.Queues
open Wine.Lib

variable {s s' : State} {q r : ℕ} {queue other : Queue} {res : MessageResult} {msg : Message}

/-! ## The end of a queue -/

/-- The results of the sender are taken from its lists. -/
theorem wp_removeFromSender_forM (h : Inv none s) (hq : s.queues q = some queue) :
    wp (do
        forM queue.sendResult removeResultFromSender
        let queue ← getQueue q
        forM queue.callbackResult removeResultFromSender : M PUnit)
      (fun _ s' => Inv none s' ∧ s'.threadLists = s.threadLists ∧
        ∃ other, s'.queues q = some other ∧ other.sends = []) Safe s := by
  have hround : ∀ r (t : State) (other : Queue), Inv none t → t.queues q = some other →
      r ∈ other.sends → wp (removeResultFromSender r) (fun _ s' => Inv none s' ∧
        s'.queues q = some { other with
          sendResult := other.sendResult.erase r
          callbackResult := other.callbackResult.erase r } ∧
        s'.threadLists = t.threadLists) Safe t := by
    intro r t other ht ho hmem
    have howner := ht.sending.owner_of_mem (a := r) (c := q) (sendLists_eq ho ▸ hmem)
    obtain ⟨res, hr, hrs⟩ := Option.bind_eq_some_iff.mp howner
    refine wp_mono (wp_removeResultFromSender ht hr hrs ho) fun _ s' hs' => ⟨hs'.1, ?_, hs'.2.2⟩
    rw [hs'.2.1, Function.update_self]
  rw [wp_bind]
  refine wp_mono (wp_forM_rest (I := fun l t => Inv none t ∧ t.threadLists = s.threadLists ∧
    ∃ other, t.queues q = some other ∧ other.sendResult = l) ?_ ⟨h, rfl, queue, hq, rfl⟩) ?_
  · rintro r l t ⟨ht, hth, other, ho, hl⟩
    have hmem : r ∈ other.sends := List.mem_append_left _ (hl ▸ List.mem_cons_self)
    refine wp_mono (hround r t other ht ho hmem) fun _ s' hs' =>
      ⟨hs'.1, hs'.2.2.trans hth, _, hs'.2.1, ?_⟩
    rw [hl, List.erase_cons_head]
  · rintro _ t ⟨ht, hth, other, ho, hnil⟩
    rw [wp_bind, wp_getQueue_of ho]
    refine wp_mono (wp_forM_rest (I := fun l t => Inv none t ∧ t.threadLists = s.threadLists ∧
      ∃ other, t.queues q = some other ∧ other.sendResult = [] ∧ other.callbackResult = l) ?_
      ⟨ht, hth, other, ho, hnil, rfl⟩) ?_
    · rintro r l t ⟨ht, hth, other, ho, hnil, hl⟩
      have hmem : r ∈ other.sends := List.mem_append_right _ (hl ▸ List.mem_cons_self)
      refine wp_mono (hround r t other ht ho hmem) fun _ s' hs' =>
        ⟨hs'.1, hs'.2.2.trans hth, _, hs'.2.1, ?_, ?_⟩
      · rw [hnil, List.erase_nil]
      · rw [hl, List.erase_cons_head]
    · rintro _ t ⟨ht, hth, other, ho, hnil, hnil'⟩
      exact ⟨ht, hth, other, ho, by rw [Queue.sends, hnil, hnil', List.append_nil]⟩

theorem wp_cleanupResults (h : Inv none s) (hq : s.queues q = some queue) :
    wp (cleanupResults q) (fun _ s' => Inv none s' ∧ s'.threadLists = s.threadLists ∧
      ∃ other, s'.queues q = some other ∧ other.sends = [] ∧ other.recvResult = []) Safe s := by
  have hsenders := wp_removeFromSender_forM h hq
  rw [wp_bind] at hsenders
  simp only [cleanupResults, wp_bind, wp_getQueue_of hq]
  refine wp_mono hsenders fun _ t ht => ?_
  rw [wp_bind] at ht
  refine wp_mono ht fun _ t' ht' => wp_mono ht' ?_
  rintro _ t₂ ⟨ht₂, hth₂, other, ho, hnil⟩
  rw [wp_getQueue_of ho]
  refine wp_forM_rest (I := fun l t => Inv none t ∧ t.threadLists = s.threadLists ∧
    ∃ other, t.queues q = some other ∧ other.sends = [] ∧ other.recvResult = l) ?_
    ⟨ht₂, hth₂, other, ho, hnil, rfl⟩
  rintro r l t ⟨ht, hth, other, ho, hnil, hl⟩
  refine wp_mono (wp_replyMessage ht ho hl) ?_
  rintro _ s' ⟨hs', hframe⟩
  obtain ⟨third, hthird, hg⟩ := hframe.1 q _ State.setQueue_self
  exact ⟨hs', hframe.2.trans hth, third, hthird, List.sublist_nil.mp (hnil ▸ hg.sends), hg.recvResult⟩

theorem Queue.lists_of_grows (h : queue.Grows other) (hsends : queue.sends = []) :
    other.lists = queue.lists := by
  have hother := List.append_eq_nil_iff.mp (List.sublist_nil.mp (hsends ▸ h.sends))
  have hqueue := List.append_eq_nil_iff.mp hsends
  simp only [Queue.lists, h.quiet hsends, h.postMsgs, h.recvResult, hother.1, hother.2, hqueue.1,
    hqueue.2]

theorem Queue.setMsgList_sends (queue : Queue) (l : List Message) (kind : MessageKind) :
    (queue.setMsgList l kind).sends = queue.sends := by
  cases kind <;> rfl

theorem Queue.setMsgList_setMsgList (queue : Queue) (l l' : List Message) (kind : MessageKind) :
    (queue.setMsgList l kind).setMsgList l' kind = queue.setMsgList l' kind := by
  cases kind <;> rfl

theorem Queue.msgList_setMsgList (queue : Queue) (l : List Message) (kind : MessageKind) :
    (queue.setMsgList l kind).msgList kind = l := by
  cases kind <;> rfl

/-- The lists of a queue are all that `msgList` and `setMsgList` are about. -/
theorem Queue.lists_congr (h : other.lists = queue.lists) (kind : MessageKind) (l : List Message) :
    other.msgList kind = queue.msgList kind ∧ other.sends = queue.sends ∧
      (other.setMsgList l kind).lists = (queue.setMsgList l kind).lists := by
  simp only [Queue.lists, Prod.mk.injEq] at h
  obtain ⟨hsm, hpm, hsr, hcr, hrr⟩ := h
  cases kind with
  | sendMessage => simp only [msgList, sends, setMsgList, Queue.lists, hsm, hpm, hsr, hcr, hrr, and_self]
  | postMessage => simp only [msgList, sends, setMsgList, Queue.lists, hsm, hpm, hsr, hcr, hrr, and_self]

/-- A queue that waits for nothing gets no callback messages while its messages are freed. -/
theorem wp_emptyMsgList (kind : MessageKind) (h : Inv none s) (hq : s.queues q = some queue)
    (hsends : queue.sends = []) :
    wp (emptyMsgList q kind) (fun _ s' => Inv none s' ∧ s'.threadLists = s.threadLists ∧
      ∃ other, s'.queues q = some other ∧ other.lists = (queue.setMsgList [] kind).lists) Safe s := by
  rw [emptyMsgList, wp_bind, wp_getQueue_of hq]
  refine wp_forM_rest (I := fun l t => Inv none t ∧ t.threadLists = s.threadLists ∧
    ∃ other, t.queues q = some other ∧ other.lists = (queue.setMsgList l kind).lists) ?_
    ⟨h, rfl, queue, hq, by cases kind <;> rfl⟩
  rintro msg l t ⟨ht, hth, other, ho, hl⟩
  obtain ⟨hlist, hsends', -⟩ := Queue.lists_congr hl kind l
  rw [Queue.msgList_setMsgList] at hlist
  rw [Queue.setMsgList_sends, hsends] at hsends'
  have hm : msg ∈ other.msgList kind := hlist ▸ List.mem_cons_self
  have hdrop : Inv msg.result (t.setQueue q
      (some (other.setMsgList ((other.msgList kind).eraseP (·.id = msg.id)) kind))) :=
    ht.drop ho hm rfl (by cases kind <;> exact (ht.queue q other ho).armed)
  simp only [wp_bind, wp_getQueue_of ho, setQueue, wp_modify]
  refine wp_mono (wp_freeMessage hdrop fun r hmr => ?_) ?_
  · obtain ⟨res, hr, -, hrep, -⟩ := ht.unread_result ho hm hmr
    exact ⟨res, hr, hrep⟩
  · rintro _ s' ⟨hs', hframe⟩
    obtain ⟨third, hthird, hg⟩ := hframe.1 q _ State.setQueue_self
    refine ⟨hs', hframe.2.trans hth, third, hthird, ?_⟩
    rw [Queue.lists_of_grows hg (by rw [Queue.setMsgList_sends, hsends']), hlist,
      List.eraseP_cons_of_pos (by simp), (Queue.lists_congr hl kind l).2.2,
      Queue.setMsgList_setMsgList]

/-- A queue that holds nothing and belongs to no thread is freed. -/
theorem Inv.destroy (h : Inv none s) (hq : s.queues q = some queue) (hsends : queue.sends = [])
    (hrecvs : queue.receives = []) (hids : queue.msgIds = []) (hout : ∀ c, q ∉ s.threadLists c) :
    Inv none (s.setQueue q none) := by
  have hqueue : ∀ i, i ≠ q → (s.setQueue q none).queues i = s.queues i :=
    fun i hi => State.setQueue_of_ne hi
  have hsend : (s.setQueue q none).sendLists = s.sendLists := by
    funext i
    by_cases hi : i = q
    · subst hi
      rw [sendLists_eq hq, hsends, State.sendLists, State.setQueue_self, Option.elim]
    · rw [State.sendLists, hqueue i hi, State.sendLists]
  have hrecv : (s.setQueue q none).recvLists = s.recvLists := by
    funext i
    by_cases hi : i = q
    · subst hi
      rw [recvLists_eq hq, hrecvs, State.recvLists, State.setQueue_self, Option.elim]
    · rw [State.recvLists, hqueue i hi, State.recvLists]
  have hmsgs : (s.setQueue q none).msgLists = s.msgLists := by
    funext c
    cases c with
    | result r => rfl
    | queue i =>
      by_cases hi : i = q
      · subst hi
        rw [msgLists_eq hq, hids, State.msgLists, State.setQueue_self, Option.elim]
      · rw [State.msgLists, hqueue i hi, State.msgLists]
  have hother : ∀ i other, (s.setQueue q none).queues i = some other → s.queues i = some other := by
    intro i other hi
    by_cases hiq : i = q
    · rw [hiq, State.setQueue_self] at hi
      cases hi
    · rwa [hqueue i hiq] at hi
  refine
    { h with
      sending := hsend ▸ h.sending
      receiving := hrecv ▸ h.receiving
      messages := hmsgs ▸ h.messages
      live := fun c i hi => ?_
      queue := fun i other hi => h.queue i other (hother i other hi)
      received := fun i other hi => h.received i other (hother i other hi)
      unread := fun i other hi => h.unread i other (hother i other hi)
      freshQueue := fun i hi => ?_
      freshMsg := hmsgs ▸ h.freshMsg }
  · have hiq : i ≠ q := fun hiq => hout c (hiq ▸ hi)
    rw [hqueue i hiq]
    exact h.live c i hi
  · have hlt := h.queue_lt hq
    have hiq : i ≠ q := fun hiq => absurd hlt (Nat.not_lt.mpr (hiq ▸ hi))
    rw [hqueue i hiq]
    exact h.freshQueue i hi

theorem wp_msgQueueDestroy (h : Inv none s) (hq : s.queues q = some queue)
    (hout : ∀ c, q ∉ s.threadLists c) :
    wp (msgQueueDestroy q) (fun _ s' => Inv none s') Safe s := by
  simp only [msgQueueDestroy, wp_bind, wp_modify]
  refine wp_mono (wp_cleanupResults h hq) ?_
  rintro _ t₁ ⟨ht₁, hth₁, first, hfirst, hsends, hrecv⟩
  refine wp_mono (wp_emptyMsgList .sendMessage ht₁ hfirst hsends) ?_
  rintro _ t₂ ⟨ht₂, hth₂, second, hsecond, hl₂⟩
  have hsends₂ : second.sends = [] := (Queue.lists_congr hl₂ .sendMessage []).2.1.trans hsends
  refine wp_mono (wp_emptyMsgList .postMessage ht₂ hsecond hsends₂) ?_
  rintro _ t₃ ⟨ht₃, hth₃, third, hthird, hl₃⟩
  have hl : third.lists = ([], [], first.sendResult, first.callbackResult, first.recvResult) := by
    rw [hl₃, (Queue.lists_congr hl₂ .postMessage []).2.2]
    rfl
  simp only [Queue.lists, Prod.mk.injEq] at hl
  obtain ⟨hsm, hpm, hsr, hcr, hrr⟩ := hl
  refine ht₃.destroy hthird ?_ ?_ ?_ fun c => ?_
  · rw [Queue.sends, hsr, hcr]
    exact hsends
  · rw [Queue.receives, hrr, hsm, hrecv]
    rfl
  · rw [Queue.msgIds, hsm, hpm]
    rfl
  · rw [hth₃, hth₂, hth₁]
    exact hout c

/-! ## Computations that keep the invariant -/

variable {L : List ℕ} {α : Type}

/-- The invariant, with queues that are known to be there. -/
def Live (L : List ℕ) (s : State) : Prop := Inv none s ∧ ∀ q ∈ L, s.queues q ≠ none

theorem Live.stays (h : Live L s) (hinv : Inv none s') (hs : Stays s s') : Live L s' :=
  ⟨hinv, fun q hq => hs q (h.2 q hq)⟩

theorem Live.tail {o : ℕ} (h : Live (o :: L) s) : Live L s :=
  ⟨h.1, fun q hq => h.2 q (List.mem_cons_of_mem _ hq)⟩

/-- What of a queue the invariant depends on. -/
structure Queue.Same (queue other : Queue) : Prop where
  lists : other.lists = queue.lists
  armed : (queue.timeout = true → queue.pendingTimers ≠ []) →
    other.timeout = true → other.pendingTimers ≠ []

theorem secures_error (e : Wine.Server.Status) : Secures (Live L) Safe (setError e) :=
  Secures.modify fun _ hs => ⟨{ hs.1 with sending := hs.1.sending }, hs.2⟩

theorem secures_threadQueue {thread : ℕ} {f : Option ℕ → M α} (hnone : Secures (Live L) Safe (f none))
    (hsome : ∀ q, Secures (Live (q :: L)) Safe (f (some q))) :
    Secures (Live L) Safe (threadQueue thread >>= f) := by
  intro s hs
  simp only [threadQueue, wp_bind, wp_get, wp_pure]
  cases hq : s.queueOf thread with
  | none => exact hnone s hs
  | some q =>
    have hlive : s.queues q ≠ none :=
      hs.1.live (some thread) q (by rw [State.threadLists, hq]; exact List.mem_singleton_self q)
    refine wp_mono (hsome q s ⟨hs.1, ?_⟩) fun _ _ hs' => hs'.tail
    exact List.forall_mem_cons.mpr ⟨hlive, hs.2⟩

theorem secures_getQueue {f : Queue → M α} (hq : q ∈ L)
    (hf : ∀ s queue, Live L s → s.queues q = some queue → wp (f queue) (fun _ => Live L) Safe s) :
    Secures (Live L) Safe (getQueue q >>= f) := by
  intro s hs
  obtain ⟨queue, hqq⟩ := Option.ne_none_iff_exists'.mp (hs.2 q hq)
  rw [wp_bind, wp_getQueue_of hqq]
  exact hf s queue hs hqq

theorem Live.setQueue (h : Live L s) (hq : s.queues q = some queue) (hsame : queue.Same other) :
    Live L (s.setQueue q (some other)) :=
  h.stays (h.1.setQueue_same hq hsame.lists (hsame.armed (h.1.queue q queue hq).armed)) .setQueue

/-- A queue is written with its lists. -/
theorem secures_update {g : Queue → Queue} {f : Queue → M α} (hq : q ∈ L)
    (hg : ∀ queue : Queue, queue.Same (g queue)) (hf : ∀ queue, Secures (Live L) Safe (f queue)) :
    Secures (Live L) Safe (getQueue q >>= fun queue => setQueue q (g queue) >>= fun _ => f queue) := by
  refine secures_getQueue hq fun s queue hs hqq => ?_
  simp only [wp_bind, Queues.setQueue, wp_modify]
  exact hf queue _ (hs.setQueue hqq (hg queue))

theorem secures_set {g : Queue → Queue} (hq : q ∈ L) (hg : ∀ queue : Queue, queue.Same (g queue)) :
    Secures (Live L) Safe (getQueue q >>= fun queue => setQueue q (g queue)) :=
  secures_getQueue hq fun _ queue hs hqq => hs.setQueue hqq (hg queue)

theorem Live.alloc (h : Live L s) (n : ℕ) (e : Option Wine.Server.Status) :
    Live L { s with allocs := n, error := e } := ⟨h.1.alloc n e, h.2⟩

theorem secures_alloc : Secures (Live L) Safe Queues.alloc :=
  fun _ hs => wp_alloc fun _ n e => hs.alloc n e

theorem wp_getCurrentQueue {current : ℕ} (h : Live L s) :
    wp (getCurrentQueue current) (fun o s' => Live L s' ∧ ∀ q, o = some q → s'.queues q ≠ none)
      Safe s := by
  simp only [getCurrentQueue, threadQueue, wp_bind, wp_get, wp_pure]
  cases ht : s.queueOf current with
  | some q =>
    refine ⟨h, ?_⟩
    rintro _ ⟨⟩
    exact h.1.live (some current) q (by rw [State.threadLists, ht]; exact List.mem_singleton_self q)
  | none =>
    simp only [createMsgQueue, wp_bind]
    refine wp_alloc fun granted n e => ?_
    refine wp_allocIf fun granted n e => ?_
    rw [wp_ite]
    refine ⟨fun _ => ?_, fun _ => ⟨h.alloc n e, (fun _ h => by cases h)⟩⟩
    simp only [newAddress, setQueue, wp_bind, wp_get, wp_set, wp_modify, wp_pure]
    have hnew := (h.1.alloc n e).newQueue ht (Nat.lt_succ_self s.next)
    refine ⟨⟨hnew, fun q hq => Stays.setQueue q (h.2 q hq)⟩, ?_⟩
    rintro _ ⟨⟩
    rw [State.setQueue_self]
    exact Option.some_ne_none _

theorem secures_getCurrentQueue {current : ℕ} {f : Option ℕ → M α}
    (hnone : Secures (Live L) Safe (f none))
    (hsome : ∀ q, Secures (Live (q :: L)) Safe (f (some q))) :
    Secures (Live L) Safe (getCurrentQueue current >>= f) := by
  intro s hs
  rw [wp_bind]
  refine wp_mono (wp_getCurrentQueue hs) ?_
  rintro o t ⟨ht, hlive⟩
  cases o with
  | none => exact hnone t ht
  | some q =>
    refine wp_mono (hsome q t ⟨ht.1, ?_⟩) fun _ _ hs' => hs'.tail
    exact List.forall_mem_cons.mpr ⟨hlive q rfl, ht.2⟩

/-- `secures_getCurrentQueue` for what does not ask whether there is a queue. -/
theorem secures_getCurrentQueue_mem {current : ℕ} {f : Option ℕ → M α}
    (hf : ∀ o K, (∀ q, o = some q → q ∈ K) → Secures (Live K) Safe (f o)) :
    Secures (Live L) Safe (getCurrentQueue current >>= f) := by
  refine secures_getCurrentQueue (hf none L (fun _ h => by cases h)) fun q => hf (some q) (q :: L) ?_
  rintro _ ⟨⟩
  exact List.mem_cons_self

end Wine.Queues
