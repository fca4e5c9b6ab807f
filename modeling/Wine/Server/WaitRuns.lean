import Wine.Lib.Runs
import Wine.Server.Requests
import Wine.Server.WaitLinks

/-!
# Wait queues in every run

Every request keeps the entries of wait queues different, each in the queue of its object. New entries
come with new waits, whose numbers no pending wait has.
-/

namespace Wine.Server
open Wine.Lib

variable {α β : Type} {s s' : State} {o t : ObjId} {writeOk : ℕ → Bool}

theorem Waking.keeps {m : M α} (h : Waking m) : Keeps Linked m :=
  fun s hl => wp_mono (h s hl) fun _ _ hs => hs.linked

theorem Still.keeps {m : M α} (h : Still m) : Keeps Linked m := h.waking.keeps

theorem keeps_get {f : State → M α}
    (h : ∀ s, Linked s → wp (f s) (fun _ s' => Linked s') (fun _ => True) s) :
    Keeps Linked (get >>= f) := by
  intro s hl
  rw [wp_bind]
  exact h s hl

/-! ## Changing the state of an object -/

theorem waking_setEvent (o : ObjId) : Waking (setEvent writeOk o) := by
  refine waking_get fun s hl => ?_
  cases (s.object o).body with
  | event e => exact waking_set hl (.setBody _) (waking_wakeUp (waking_killThread writeOk) o _)
  | _ => trivial

theorem still_resetEvent (o : ObjId) : Still (resetEvent o) := by
  refine still_get fun s => ?_
  cases (s.object o).body with
  | event e => exact .setBody _
  | _ => trivial

theorem waking_eventOp (o : ObjId) (op : EventOp) : Waking (eventOp writeOk o op) := by
  cases op with
  | pulse => exact waking_bind (waking_setEvent o) fun _ => (still_resetEvent o).waking
  | set => exact waking_setEvent o
  | reset => exact (still_resetEvent o).waking

theorem waking_releaseSemaphore (o : ObjId) (count : ℕ) :
    Waking (releaseSemaphore writeOk o count) := by
  refine waking_get fun s hl => ?_
  cases (s.object o).body with
  | semaphore x =>
    dsimp only
    by_cases hsum : (x.count + count) % 2 ^ 32 < x.count ∨ x.max < (x.count + count) % 2 ^ 32
    · rw [if_pos hsum]
      exact SameWaits.shrinks ⟨fun _ => rfl, fun _ => rfl, rfl⟩ hl
    rw [if_neg hsum]
    by_cases h0 : x.count ≠ 0
    · rw [if_pos h0]
      exact waking_set hl (.setBody _) (still_pure true).waking
    · rw [if_neg h0]
      exact waking_set hl (.setBody _) (waking_bind (waking_wakeUp (waking_killThread writeOk) o _)
        fun _ => (still_pure true).waking)
  | _ => trivial

theorem still_setError (e : Status) : Still (setError e) :=
  still_modify fun _ => ⟨fun _ => rfl, fun _ => rfl, rfl⟩

theorem waking_releaseMutex (m c : ObjId) : Waking (releaseMutex writeOk m c) := by
  refine waking_get fun s hl => ?_
  cases (s.object m).body with
  | mutex x =>
    dsimp only
    by_cases hown : x.count = 0 ∨ x.owner ≠ some c
    · rw [if_pos hown]
      exact waking_bind (still_setError _).waking (fun _ => (still_pure none).waking) s hl
    rw [if_neg hown]
    refine waking_set hl (.setBody _) ?_
    by_cases h1 : x.count = 1
    · simp only [if_pos h1]
      exact waking_bind (waking_doRelease (waking_killThread writeOk) m)
        fun _ => (still_pure _).waking
    · simp only [if_neg h1]
      exact (still_pure _).waking
  | _ => trivial

theorem SameWaits.setApcQueue (system : Bool) (q : List ThreadApc) :
    SameWaits s (s.setApcQueue t system q) := by
  cases system with
  | false => exact .setThread rfl
  | true => exact .setThread rfl

theorem still_threadCancelApc (t owner : ObjId) (system : Bool) :
    Still (threadCancelApc t owner system) :=
  still_modify fun _ => .setApcQueue _ _

theorem waking_threadQueueApc (t : ObjId) (apc : ThreadApc) (system mem : Bool) :
    Waking (threadQueueApc writeOk t apc system mem) := by
  have htail : Waking (do
      let s ← get
      if (s.thread t).state = .terminated then pure false
      else if !mem then
        setError statusNoMemory
        pure false
      else
        set (s.setApcQueue t system (apcQueue s t system ++ [apc]))
        if (apcQueue s t system).isEmpty then
          let _ ← wakeThread writeOk (killThread writeOk) t
        pure true) := by
    refine waking_get fun s hl => ?_
    by_cases hterm : (s.thread t).state = .terminated
    · rw [if_pos hterm]
      exact .refl hl
    rw [if_neg hterm]
    cases mem with
    | false => exact waking_bind (still_setError _).waking (fun _ => (still_pure false).waking) s hl
    | true =>
      refine waking_set hl (.setApcQueue _ _) ?_
      by_cases hempty : (apcQueue s t system).isEmpty = true
      · simp only [if_pos hempty]
        exact waking_bind (waking_wakeThread (waking_killThread writeOk) t)
          fun _ => (still_pure true).waking
      · simp only [if_neg hempty]
        exact (still_pure true).waking
  unfold threadQueueApc
  cases apc.owner with
  | none => exact htail
  | some owner => exact waking_bind (still_threadCancelApc t owner system).waking fun _ => htail

theorem still_threadDequeueApc (t : ObjId) (systemOnly : Bool) :
    Still (threadDequeueApc t systemOnly) := by
  refine still_get fun s => ?_
  cases (s.thread t).systemApc with
  | cons apc rest => exact still_set (.setThread rfl) (still_pure _)
  | nil =>
    dsimp only
    cases systemOnly with
    | true => exact .refl s
    | false =>
      cases (s.thread t).userApc with
      | nil => exact .refl s
      | cons apc rest => exact still_set (.setThread rfl) (still_pure _)

theorem still_getApc (c : ObjId) (alertable : Bool) (n : ℕ) : Still (getApc c alertable n) := by
  induction n with
  | zero => exact still_pure _
  | succ n ih =>
    refine still_bind (still_threadDequeueApc c _) fun r => ?_
    cases r with
    | none => exact still_pure _
    | some apc =>
      dsimp only
      by_cases h : apc.func ≠ 0 ∨ apc.type = .asyncIo
      · rw [if_pos h]
        exact still_pure _
      · rw [if_neg h]
        exact ih

/-! ## Timers -/

theorem still_setBody (o : ObjId) (b : Body) : Still (modify (·.setBody o b) : M PUnit) :=
  still_modify fun _ => .setBody b

theorem still_cancelTimer (o : ObjId) : Still (cancelTimer o) := by
  refine still_get fun s => ?_
  cases (s.object o).body with
  | timer x =>
    have hend : ∀ b, Still (modify (·.setBody o b) >>= fun _ => pure x.signaled : M Bool) :=
      fun b => still_bind (still_setBody o b) fun _ => still_pure _
    have hthread : ∀ t b, Still (threadCancelApc t o false >>= fun _ => releaseThread t >>=
        fun _ => modify (·.setBody o b) >>= fun _ => pure x.signaled : M Bool) :=
      fun t b => still_bind (still_threadCancelApc t o false) fun _ =>
        still_bind (still_releaseThread t) fun _ => hend b
    dsimp only
    cases x.timeout with
    | none =>
      cases x.thread with
      | none => exact still_bind (still_setBody o _) (fun _ => hend _) s
      | some t => exact still_bind (still_setBody o _) (fun _ => hthread t _) s
    | some user =>
      refine still_bind (still_removeTimeoutUser user) (fun _ => ?_) s
      cases x.thread with
      | none => exact still_bind (still_setBody o _) fun _ => hend _
      | some t => exact still_bind (still_setBody o _) fun _ => hthread t _
  | _ => trivial

theorem still_setTimer (o c : ObjId) (expire : Time) (period callback : ℕ) (mem : Bool) :
    Still (setTimer o c expire period callback mem) := by
  refine still_bind (still_cancelTimer o) fun signaled => still_get fun s => ?_
  cases (s.object o).body with
  | timer x =>
    dsimp only
    have hend : ∀ when_ (f : Option ℕ → Body), Still (addTimeoutUser when_ (.timerCallback o) mem >>=
        fun user => modify (·.setBody o (f user)) >>= fun _ => pure signaled : M Bool) :=
      fun when_ f => still_bind (still_addTimeoutUser _ _ _) fun _ =>
        still_bind (still_setBody o _) fun _ => still_pure _
    by_cases h : callback ≠ 0
    · simp only [if_pos h]
      exact still_bind (still_grabObject c) (fun _ => hend _ _) s
    · simp only [if_neg h]
      exact hend _ _ s
  | _ => trivial

/-- The part of `timer_callback` after the APC. -/
def fireTimer (writeOk : ℕ → Bool) (o : ObjId) (memTimeout : Bool) : M PUnit := do
  let s ← get
  match (s.object o).body with
  | .timer x =>
    let x ←
      if x.period ≠ 0 then do
        let user ← addTimeoutUser (addTimeout x.when_ x.period) (.timerCallback o) memTimeout
        pure { x with when_ := addTimeout x.when_ x.period, timeout := user }
      else pure { x with timeout := none }
    modify (·.setBody o (.timer { x with signaled := true }))
    wakeUp writeOk (killThread writeOk) o 0
  | _ => throw .badPointer

theorem waking_fireTimer (o : ObjId) (memTimeout : Bool) :
    Waking (fireTimer writeOk o memTimeout) := by
  have hwake : ∀ b, Waking (modify (·.setBody o b) >>=
      fun _ => wakeUp writeOk (killThread writeOk) o 0 : M PUnit) :=
    fun b => waking_bind (still_setBody o b).waking
      fun _ => waking_wakeUp (waking_killThread writeOk) o 0
  refine waking_get fun s hl => ?_
  cases (s.object o).body with
  | timer x =>
    dsimp only
    by_cases h : x.period ≠ 0
    · simp only [if_pos h]
      exact waking_bind (still_addTimeoutUser _ _ _).waking
        (fun _ => waking_bind (still_pure _).waking fun _ => hwake _) s hl
    · simp only [if_neg h]
      exact waking_bind (still_pure _).waking (fun _ => hwake _) s hl
  | _ => trivial

theorem waking_timerCallback (o : ObjId) (mem memTimeout : Bool) :
    Waking (timerCallback writeOk o mem memTimeout) := by
  have hfire := @waking_fireTimer writeOk o memTimeout
  refine waking_get fun s hl => ?_
  cases (s.object o).body with
  | timer x =>
    dsimp only
    cases x.thread with
    | none => exact hfire s hl
    | some t =>
      refine waking_bind (waking_threadQueueApc t _ false mem) (fun b => ?_) s hl
      cases b with
      | true => exact hfire
      | false =>
        exact waking_bind (still_releaseThread t).waking fun _ =>
          waking_bind (still_setBody o _).waking fun _ => hfire
  | _ => trivial

/-! ## The expiry of a wait -/

/-- Of the waits, only their numbers matter. -/
theorem Linked.remap {x : Thread} (hl : Linked s)
    (hx : x.wait.map (·.id) = (s.thread t).wait.map (·.id)) : Linked (s.setThread t x) := by
  have hids : ∀ t', ((s.setThread t x).thread t').wait.map (·.id) =
      (s.thread t').wait.map (·.id) := by
    intro t'
    show (Function.update s.thread t x t').wait.map _ = _
    by_cases ht : t' = t
    · rw [ht, Function.update_self, hx]
    · rw [Function.update_of_ne ht]
  refine ⟨hl.obj, hl.queueNodup, hl.entryUsed, fun t' => ?_, fun t' w hw => ?_⟩
  · rw [hids]
    exact hl.idsNodup t'
  · have hm := List.mem_map_of_mem (f := fun w : ThreadWait => w.id) hw
    rw [hids] at hm
    obtain ⟨v, hv, hid⟩ := List.mem_map.1 hm
    rw [← hid]
    exact hl.waitUsed t' v hv

theorem keeps_threadTimeout (t : ObjId) (id : ℕ) : Keeps Linked (threadTimeout writeOk t id) := by
  refine keeps_get fun s hl => ?_
  cases (s.thread t).wait.find? (fun w => w.id = id) with
  | none => trivial
  | some wait =>
    dsimp only
    have hremap : Linked (s.setThread t { s.thread t with
        wait := (s.thread t).wait.map fun w => if w.id = id then { w with user := none } else w }) := by
      apply hl.remap
      show (List.map _ (List.map _ _)) = _
      rw [List.map_map]
      apply List.map_congr_left
      intro w _
      by_cases h : w.id = id
      · simp [h]
      · simp [h]
    rw [wp_bind, wp_set]
    by_cases hhead : (s.thread t).wait.head? ≠ some wait
    · rw [if_pos hhead]
      exact hremap
    rw [if_neg hhead]
    by_cases hsus : s.suspended t = true
    · rw [if_pos hsus]
      exact hremap
    rw [if_neg hsus]
    refine (waking_bind (waking_endWait t) fun _ => waking_bind
      (waking_sendThreadWakeup (waking_killThread writeOk) t _ _) fun b => ?_).keeps _ hremap
    cases b with
    | false => exact (still_pure _).waking
    | true =>
      exact waking_bind (waking_wakeThread (waking_killThread writeOk) t)
        fun _ => (still_pure _).waking

/-! ## Handles -/

theorem still_allocHandle (p o : ObjId) (access : Access) : Still (allocHandle p o access) := by
  refine still_get fun s => ?_
  cases (s.process p).handles with
  | none => exact still_bind (still_setError _) (fun _ => still_pure _) s
  | some l =>
    exact still_set (.setProcess _ _) (still_bind (still_grabObject o) fun _ => still_pure _)

theorem still_getHandleObj (c p : ObjId) (handle : Handle) (access : Access)
    (kind : Option Kind) : Still (getHandleObj c p handle access kind) := by
  refine still_get fun s => ?_
  cases s.lookupHandle c p handle access with
  | error e => exact still_bind (still_setError e) (fun _ => still_pure _) s
  | ok o =>
    dsimp only
    by_cases h : (kind.isSome && (s.object o).body.kind ≠ kind) = true
    · rw [if_pos h]
      exact still_bind (still_setError _) (fun _ => still_pure _) s
    · rw [if_neg h]
      exact still_bind (still_grabObject o) (fun _ => still_pure _) s

theorem still_closeHandle (p : ObjId) (handle : Handle) : Still (closeHandle p handle) := by
  refine still_get fun s => ?_
  cases s.getHandle p handle with
  | none => exact still_setError _ s
  | some h => exact still_set (.setProcess _ _) (still_releaseObject h.obj)

theorem still_duplicateHandle (c src : ObjId) (handle : Handle) (dst : ObjId) (access : Access)
    (sameAccess : Bool) : Still (duplicateHandle c src handle dst access sameAccess) := by
  refine still_bind (still_getHandleObj _ _ _ _ _) fun r => ?_
  cases r with
  | none => exact still_pure _
  | some o =>
    refine still_get fun s => ?_
    exact still_bind (still_allocHandle _ _ _) (fun _ => still_releaseObject o) s

theorem still_getHandleObjs (c : ObjId) (hs : List Handle) : Still (getHandleObjs c hs) := by
  induction hs with
  | nil => exact still_pure _
  | cons h hs ih =>
    refine still_get fun s => still_bind (still_getHandleObj _ _ _ _ _) (fun r => ?_) s
    cases r with
    | none => exact still_pure _
    | some o => exact still_bind ih fun _ => still_pure _

/-! ## The select request -/

theorem waking_signalOp (c o : ObjId) (access : Access) : Waking (signalOp writeOk c o access) := by
  refine waking_get fun s hl => ?_
  have hdeny : ∀ e, Waking (setError e >>= fun _ => pure false : M Bool) := fun e =>
    waking_bind (still_setError e).waking fun _ => (still_pure _).waking
  cases (s.object o).body with
  | event e =>
    dsimp only
    by_cases h : access &&& eventModifyState = 0
    · rw [if_pos h]
      exact hdeny _ s hl
    · rw [if_neg h]
      exact waking_bind (waking_setEvent o) (fun _ => (still_pure _).waking) s hl
  | semaphore x =>
    dsimp only
    by_cases h : access &&& semaphoreModifyState = 0
    · rw [if_pos h]
      exact hdeny _ s hl
    · rw [if_neg h]
      exact waking_releaseSemaphore o 1 s hl
  | mutex x =>
    dsimp only
    by_cases h : access &&& synchronize = 0
    · rw [if_pos h]
      exact hdeny _ s hl
    · rw [if_neg h]
      exact waking_bind (waking_releaseMutex o c) (fun _ => (still_pure _).waking) s hl
  | timer x => exact hdeny _ s hl
  | thread => exact hdeny _ s hl
  | process => exact hdeny _ s hl
  | freed => trivial

theorem waking_signalObject (c : ObjId) (handle : Handle) :
    Waking (signalObject writeOk c handle) := by
  refine waking_get fun s hl =>
    waking_bind (still_getHandleObj _ _ _ _ _).waking (fun r => ?_) s hl
  cases r with
  | none => exact (still_pure _).waking
  | some o =>
    exact waking_bind (waking_signalOp c o _) fun _ =>
      waking_bind (still_releaseObject o).waking fun _ => (still_pure _).waking

theorem waking_selectSignal (c : ObjId) (signalObj : Handle) :
    Waking (selectSignal writeOk c signalObj) := by
  unfold selectSignal
  by_cases h : signalObj = 0
  · rw [if_pos h]
    exact (still_pure _).waking
  rw [if_neg h]
  refine waking_bind (waking_signalObject c signalObj) fun b => ?_
  cases b with
  | true =>
    refine waking_get fun s hl => ?_
    by_cases hc : s.current = none
    · rw [if_pos hc]
      trivial
    · rw [if_neg hc]
      exact .refl hl
  | false => exact waking_bind (waking_endWait c) fun _ => (still_pure _).waking

theorem Linked.mapTopWait {f : ThreadWait → ThreadWait} (hl : Linked s) (t : ObjId)
    (hf : ∀ w, (f w).id = w.id) : Linked (s.mapTopWait t f) := by
  unfold State.mapTopWait
  cases hw : (s.thread t).wait with
  | nil => exact hl
  | cons w rest =>
    apply hl.remap
    rw [hw, List.map_cons, List.map_cons, hf w]

theorem keeps_selectCheck (c : ObjId) (cookie : Cookie) (flags : SelectFlags) (mem : Bool) :
    Keeps Linked (selectCheck c cookie flags mem) := by
  have hpending : ∀ f : ThreadWait → ThreadWait, (∀ w, (f w).id = w.id) → Keeps Linked (modify (·.mapTopWait c f) >>=
        fun _ => setError statusPending : M PUnit) := fun f hf =>
    Keeps.bind (Keeps.modify fun s hl => hl.mapTopWait c hf) fun _ => (still_setError _).keeps
  refine Keeps.bind (still_checkWait c).keeps fun r => ?_
  cases r with
  | some ret => exact Keeps.bind (waking_endWait c).keeps fun _ => (still_setError _).keeps
  | none =>
    refine keeps_get fun s hl => ?_
    cases (s.thread c).wait with
    | nil => trivial
    | cons w rest =>
      dsimp only
      by_cases h : flags.timeout = true
      · rw [if_pos h]
        refine Keeps.bind (still_addTimeoutUser _ _ mem).keeps (fun r => ?_) s hl
        cases r with
        | none => exact (waking_endWait c).keeps
        | some user => exact hpending _ fun _ => rfl
      · rw [if_neg h]
        exact hpending (fun w => { w with cookie := cookie }) (fun _ => rfl) s hl

/-- An entry that is in no queue yet may be added to that of its object. -/
theorem Linked.addEntry {e : WaitQueueEntry} {x : Object} (hl : Linked s)
    (hused : e.wait < s.nextWait) (hnew : e ∉ (s.object e.obj).waitQueue)
    (hx : x.waitQueue = (s.object e.obj).waitQueue ++ [e]) : Linked (s.setObject e.obj x) := by
  have hqueue : ∀ o, ((s.setObject e.obj x).object o).waitQueue =
      if o = e.obj then (s.object e.obj).waitQueue ++ [e] else (s.object o).waitQueue := by
    intro o
    show (Function.update s.object e.obj x o).waitQueue = _
    by_cases ho : o = e.obj
    · rw [ho, Function.update_self, if_pos rfl, hx]
    · rw [Function.update_of_ne ho, if_neg ho]
  have hmem : ∀ o, ∀ a ∈ ((s.setObject e.obj x).object o).waitQueue,
      a ∈ (s.object o).waitQueue ∨ (o = e.obj ∧ a = e) := by
    intro o a ha
    rw [hqueue] at ha
    by_cases ho : o = e.obj
    · rw [if_pos ho, List.mem_append, List.mem_singleton] at ha
      rw [ho]
      exact ha.imp_right fun h => ⟨rfl, h⟩
    · rw [if_neg ho] at ha
      exact .inl ha
  refine ⟨fun o a ha => ?_, fun o => ?_, fun o a ha => ?_, hl.idsNodup, hl.waitUsed⟩
  · obtain ha | ⟨ho, rfl⟩ := hmem o a ha
    · exact hl.obj o a ha
    · exact ho.symm
  · rw [hqueue]
    by_cases ho : o = e.obj
    · rw [if_pos ho, List.nodup_append]
      refine ⟨hl.queueNodup e.obj, List.pairwise_singleton _ e, fun a ha b hb => ?_⟩
      rw [List.mem_singleton.1 hb]
      rintro rfl
      exact hnew ha
    · rw [if_neg ho]
      exact hl.queueNodup o
  · obtain ha | ⟨-, rfl⟩ := hmem o a ha
    · exact hl.entryUsed o a ha
    · exact hused

theorem wp_addQueues {es : List WaitQueueEntry} (hl : Linked s) (hnd : es.Nodup)
    (hes : ∀ e ∈ es, e.wait < s.nextWait ∧ e ∉ (s.object e.obj).waitQueue) :
    wp (forM es fun e => addQueue e.obj e) (fun _ s' => Linked s') (fun _ => True) s := by
  induction es generalizing s with
  | nil => exact hl
  | cons e es ih =>
    obtain ⟨hne, hnd⟩ := List.nodup_cons.1 hnd
    rw [List.forM_cons, wp_bind]
    unfold addQueue
    rw [wp_bind]
    refine wp_mono (still_grabObject e.obj s) fun _ s₁ h₁ => ?_
    have he := hes e List.mem_cons_self
    rw [← h₁.nextWait, ← h₁.queue] at he
    refine ih ((hl.same h₁).addEntry he.1 he.2 rfl) hnd fun a ha => ?_
    have hold := hes a (List.mem_cons_of_mem _ ha)
    rw [← h₁.nextWait, ← h₁.queue] at hold
    refine ⟨hold.1, ?_⟩
    show a ∉ (Function.update s₁.object e.obj _ a.obj).waitQueue
    by_cases ho : a.obj = e.obj
    · rw [ho, Function.update_self, List.mem_append, not_or, List.mem_singleton]
      refine ⟨ho ▸ hold.2, ?_⟩
      rintro rfl
      exact hne ha
    · rw [Function.update_of_ne ho]
      exact hold.2

theorem nodup_waitEntries (id c : ℕ) (objects : List ObjId) : (waitEntries id c objects).Nodup := by
  unfold waitEntries
  rw [List.Nodup, List.pairwise_iff_getElem]
  intro i j hi hj hij
  rw [List.getElem_mapIdx, List.getElem_mapIdx]
  intro h
  exact Nat.ne_of_lt hij (congrArg WaitQueueEntry.index h)

theorem keeps_waitOn (c : ObjId) (objects : List ObjId) (flags : SelectFlags) (timeout : Time) :
    Keeps Linked (waitOn c objects flags timeout) := by
  refine keeps_get fun s hl => ?_
  rw [wp_bind, wp_set]
  have hfresh : ∀ e ∈ waitEntries s.nextWait c objects, e.wait = s.nextWait := by
    intro e he
    obtain ⟨i, hi, rfl⟩ := List.mem_mapIdx.1 he
    rfl
  apply wp_addQueues _ (nodup_waitEntries _ _ _)
  · intro e he
    rw [hfresh e he]
    refine ⟨Nat.lt_succ_self _, fun hin => ?_⟩
    have hlt := hl.entryUsed e.obj e hin
    rw [hfresh e he] at hlt
    exact Nat.lt_irrefl _ hlt
  · refine ⟨hl.obj, hl.queueNodup, fun o e he => Nat.lt_succ_of_lt (hl.entryUsed o e he),
      fun t => ?_, fun t w hw => ?_⟩
    · show ((Function.update s.thread c _ t).wait.map (·.id)).Nodup
      by_cases ht : t = c
      · rw [ht, Function.update_self, List.map_cons, List.nodup_cons]
        refine ⟨fun hin => ?_, hl.idsNodup c⟩
        obtain ⟨w, hw, hid⟩ := List.mem_map.1 hin
        exact absurd (hl.waitUsed c w hw) (hid ▸ Nat.lt_irrefl _)
      · rw [Function.update_of_ne ht]
        exact hl.idsNodup t
    · change w ∈ (Function.update s.thread c _ t).wait at hw
      by_cases ht : t = c
      · rw [ht, Function.update_self] at hw
        obtain rfl | hw := List.mem_cons.1 hw
        · exact Nat.lt_succ_self _
        · exact Nat.lt_succ_of_lt (hl.waitUsed c w hw)
      · rw [Function.update_of_ne ht] at hw
        exact Nat.lt_succ_of_lt (hl.waitUsed t w hw)

theorem keeps_selectOn (c : ObjId) (req : SelectRequest) (mem memTimeout : Bool) :
    Keeps Linked (selectOn writeOk c req mem memTimeout) := by
  unfold selectOn
  by_cases hmax : maximumWaitObjects < req.handles.length
  · rw [if_pos hmax]
    exact (still_setError _).keeps
  rw [if_neg hmax]
  refine Keeps.bind (still_getHandleObjs c req.handles).keeps fun r => ?_
  have hrelease := (still_forM (l := r.1.reverse) fun o => still_releaseObject o).keeps
  dsimp only
  cases r.2 with
  | false => exact hrelease
  | true =>
    cases mem with
    | false => exact Keeps.bind (still_setError _).keeps fun _ => hrelease
    | true =>
      refine Keeps.bind (keeps_waitOn _ _ _ _) fun _ =>
        Keeps.bind (waking_selectSignal c req.signal).keeps fun b => ?_
      cases b with
      | true => exact Keeps.bind (keeps_selectCheck _ _ _ _) fun _ => hrelease
      | false => exact hrelease

/-! ## Objects, threads and processes -/

theorem keeps_allocObject (body : Body) : Keeps Linked (allocObject body) := by
  refine keeps_get fun s hl => ?_
  have hmem : ∀ o, ∀ e ∈ (Function.update s.object s.nextObject ⟨1, [], body⟩ o).waitQueue,
      e ∈ (s.object o).waitQueue := by
    intro o e he
    by_cases ho : o = s.nextObject
    · rw [ho, Function.update_self] at he
      cases he
    · rwa [Function.update_of_ne ho] at he
  refine ⟨fun o e he => hl.obj o e (hmem o e he), fun o => ?_,
    fun o e he => hl.entryUsed o e (hmem o e he), hl.idsNodup, hl.waitUsed⟩
  show (Function.update s.object s.nextObject ⟨1, [], body⟩ o).waitQueue.Nodup
  by_cases ho : o = s.nextObject
  · rw [ho, Function.update_self]
    exact List.nodup_nil
  · rw [Function.update_of_ne ho]
    exact hl.queueNodup o

theorem still_addProcessThread (p t : ObjId) : Still (addProcessThread p t) :=
  still_bind (still_modify fun _ => .setProcess _ _) fun _ => still_grabObject t

theorem keeps_createThread (p : ObjId) : Keeps Linked (createThread p) := by
  refine Keeps.bind (keeps_allocObject .thread) fun t =>
    Keeps.bind (still_grabObject p).keeps fun _ => Keeps.bind (Keeps.modify fun s hl => ?_) fun _ =>
      Keeps.bind (still_addProcessThread p t).keeps fun _ => Keeps.pure _
  refine ⟨hl.obj, hl.queueNodup, hl.entryUsed, fun t' => ?_, fun t' w hw => ?_⟩
  · show ((Function.update s.thread t _ t').wait.map (·.id)).Nodup
    by_cases ht : t' = t
    · rw [ht, Function.update_self]
      exact List.nodup_nil
    · rw [Function.update_of_ne ht]
      exact hl.idsNodup t'
  · change w ∈ (Function.update s.thread t _ t').wait at hw
    by_cases ht : t' = t
    · rw [ht, Function.update_self] at hw
      cases hw
    · rw [Function.update_of_ne ht] at hw
      exact hl.waitUsed t' w hw

theorem keeps_createProcess : Keeps Linked createProcess :=
  Keeps.bind (keeps_allocObject .process) fun p =>
    Keeps.bind (still_modify fun _ => .setProcess _ _).keeps fun _ =>
      Keeps.bind (keeps_createThread p) fun _ => (still_releaseObject p).keeps

theorem keeps_createObject (c : ObjId) (body : Body) (access : Access) (owned : Bool) :
    Keeps Linked (createObject c body access owned) := by
  refine keeps_get fun s hl => Keeps.bind (keeps_allocObject body) (fun o => ?_) s hl
  have hrest := (still_bind (still_allocHandle (s.thread c).process o access)
    fun _ => still_releaseObject o).keeps
  cases owned with
  | true => exact Keeps.bind (still_satisfied o c).keeps fun _ => hrest
  | false => exact hrest

theorem keeps_withHandle {f : ObjId → M PUnit} (c : ObjId) (handle : Handle) (access : Access)
    (kind : Kind) (hf : ∀ o, Keeps Linked (f o)) :
    Keeps Linked (withHandle c handle access kind f) := by
  refine keeps_get fun s hl => Keeps.bind (still_getHandleObj _ _ _ _ _).keeps (fun r => ?_) s hl
  cases r with
  | none => exact Keeps.pure _
  | some o => exact Keeps.bind (hf o) fun _ => (still_releaseObject o).keeps

theorem keeps_newThread (c : ObjId) (suspend : Bool) (access : Access) :
    Keeps Linked (newThread writeOk c suspend access) := by
  refine keeps_get fun s hl => Keeps.bind (keeps_createThread _) (fun t => ?_) s hl
  have hrest : Keeps Linked (do
      if !(← allocHandle (s.thread c).process t access) then killThread writeOk t) := by
    refine Keeps.bind (still_allocHandle _ _ _).keeps fun b => ?_
    cases b with
    | true => exact Keeps.pure _
    | false => exact (waking_killThread writeOk t).keeps
  cases suspend with
  | true =>
    have hsuspend : Still (modify fun s : State =>
        s.setThread t { s.thread t with suspend := (s.thread t).suspend + 1 }) :=
      still_modify fun _ => .setThread rfl
    exact Keeps.bind hsuspend.keeps fun _ => hrest
  | false => exact hrest

theorem still_openObject (c o : ObjId) (kind : Kind) (access : Access) :
    Still (openObject c o kind access) := by
  refine still_get fun s => ?_
  by_cases h : (s.object o).body.kind = some kind
  · rw [if_pos h]
    exact still_bind (still_grabObject o) (fun _ => still_bind (still_allocHandle _ _ _)
      fun _ => still_releaseObject o) s
  · rw [if_neg h]
    exact still_setError _ s

theorem still_suspendThread (t : ObjId) : Still (suspendThread t) := by
  refine still_get fun s => ?_
  by_cases hterm : (s.thread t).state = .terminated
  · rw [if_pos hterm]
    exact still_setError _ s
  rw [if_neg hterm]
  by_cases hmax : (s.thread t).suspend < maximumSuspendCount
  · rw [if_pos hmax]
    exact SameWaits.setThread rfl
  · rw [if_neg hmax]
    exact still_setError _ s

theorem waking_resumeThread (t : ObjId) : Waking (resumeThread writeOk t) := by
  refine waking_get fun s hl => ?_
  by_cases hterm : (s.thread t).state = .terminated
  · rw [if_pos hterm]
    exact (still_setError _).waking s hl
  rw [if_neg hterm]
  by_cases hpos : 0 < (s.thread t).suspend
  · rw [if_pos hpos]
    refine waking_set hl (.setThread rfl) ?_
    by_cases h0 : (s.thread t).suspend - 1 + (s.process (s.thread t).process).suspend = 0
    · simp only [if_pos h0]
      exact waking_bind (waking_wakeThread (waking_killThread writeOk) t)
        fun _ => (still_pure _).waking
    · simp only [if_neg h0]
      exact (still_pure _).waking
  · rw [if_neg hpos]
    exact .refl hl

theorem waking_resumeLoop (p : ObjId) (n : ℕ) (t : ObjId) (next : Option ObjId) :
    Waking (resumeLoop writeOk p n t next) := by
  induction n generalizing t next with
  | zero => exact (still_throw _).waking
  | succ n ih =>
    refine waking_get fun s hl => ?_
    by_cases h0 : (s.thread t).suspend = 0
    · rw [if_pos h0]
      refine waking_bind (waking_wakeThread (waking_killThread writeOk) t) (fun _ => ?_) s hl
      cases next with
      | none => exact (still_pure _).waking
      | some u =>
        refine waking_get fun s' hl' => ?_
        cases nextEntry u (s'.process p).threadList with
        | none => trivial
        | some next => exact ih u next s' hl'
    · rw [if_neg h0]
      cases next with
      | none => exact .refl hl
      | some u =>
        refine waking_get (fun s' hl' => ?_) s hl
        cases nextEntry u (s'.process p).threadList with
        | none => trivial
        | some next => exact ih u next s' hl'

theorem waking_resumeProcess (p : ObjId) : Waking (resumeProcess writeOk p) := by
  refine waking_get fun s hl => wp_assert fun _ => waking_set hl (.setProcess _ _) ?_
  by_cases h1 : (s.process p).suspend = 1
  · simp only [if_pos h1]
    cases (s.process p).threadList with
    | nil => exact (still_pure _).waking
    | cons t l => exact waking_resumeLoop p _ t _
  · simp only [if_neg h1]
    exact (still_pure _).waking

/-! ## Requests -/

theorem keeps_dupHandle (c : ObjId) (srcProcess srcHandle dstProcess : Handle) (access : Access)
    (sameAccess closeSource : Bool) :
    Keeps Linked (dupHandle c srcProcess srcHandle dstProcess access sameAccess closeSource) := by
  apply keeps_withHandle
  intro src
  refine Keeps.bind (keeps_withHandle _ _ _ _ fun dst => (still_duplicateHandle _ _ _ _ _ _).keeps)
    fun _ => ?_
  cases closeSource with
  | true => exact (still_closeHandle src srcHandle).keeps
  | false => exact Keeps.pure _

theorem keeps_handler (c : ObjId) (req : Request) : Keeps Linked (handler writeOk c req) := by
  cases req with
  | newThread suspend access => exact keeps_newThread c suspend access
  | terminateThread handle =>
    apply keeps_withHandle
    intro t
    exact Keeps.ite (fun _ => Keeps.pure _) fun _ => (waking_killThread writeOk t).keeps
  | openThread id access => exact (still_openObject _ _ _ _).keeps
  | openProcess id access => exact (still_openObject _ _ _ _).keeps
  | suspendThread handle => exact keeps_withHandle _ _ _ _ fun t => (still_suspendThread t).keeps
  | resumeThread handle => exact keeps_withHandle _ _ _ _ fun t => (waking_resumeThread t).keeps
  | select req mem memTimeout => exact keeps_selectOn c req mem memTimeout
  | queueApc handle func user mem =>
    exact keeps_withHandle _ _ _ _ fun t => Keeps.bind (waking_threadQueueApc t _ _ _).keeps
      fun _ => Keeps.pure _
  | getApc alertable => exact Keeps.bind Keeps.get fun s => (still_getApc c alertable _).keeps
  | createEvent manualReset initialState access => exact keeps_createObject _ _ _ _
  | createSemaphore initial max access =>
    exact Keeps.ite (fun _ => (still_setError _).keeps) fun _ => keeps_createObject _ _ _ _
  | createMutex owned access => exact keeps_createObject _ _ _ _
  | createTimer manual access => exact keeps_createObject _ _ _ _
  | dupHandle srcProcess srcHandle dstProcess access sameAccess closeSource =>
    exact keeps_dupHandle _ _ _ _ _ _ _
  | closeHandle handle => exact Keeps.bind Keeps.get fun s => (still_closeHandle _ _).keeps
  | eventOp handle op => exact keeps_withHandle _ _ _ _ fun o => (waking_eventOp o op).keeps
  | releaseSemaphore handle count =>
    exact keeps_withHandle _ _ _ _ fun o => Keeps.bind (waking_releaseSemaphore o _).keeps
      fun _ => Keeps.pure _
  | releaseMutex handle =>
    exact keeps_withHandle _ _ _ _ fun o => Keeps.bind (waking_releaseMutex o c).keeps
      fun _ => Keeps.pure _
  | setTimer handle expire period callback mem =>
    exact keeps_withHandle _ _ _ _ fun o => Keeps.bind (still_setTimer _ _ _ _ _ _).keeps
      fun _ => Keeps.pure _
  | cancelTimer handle =>
    exact keeps_withHandle _ _ _ _ fun o => Keeps.bind (still_cancelTimer o).keeps
      fun _ => Keeps.pure _

theorem keeps_callReqHandler (c : ObjId) (req : Request) :
    Keeps Linked (callReqHandler writeOk c req) := by
  refine keeps_get fun s hl => ?_
  by_cases h : s.running c = true
  · rw [if_pos h, wp_bind, wp_set]
    have hs : SameWaits s { s with current := some c, error := statusSuccess } :=
      ⟨fun _ => rfl, fun _ => rfl, rfl⟩
    have hend : Still (modify ({ · with current := none } : State → State)) :=
      still_modify fun _ => ⟨fun _ => rfl, fun _ => rfl, rfl⟩
    exact Keeps.bind (keeps_handler c req) (fun _ => hend.keeps) _ (hl.same hs)
  · rw [if_neg h]
    exact hl

theorem keeps_runTimeout (user : ℕ) (mem memTimeout : Bool) :
    Keeps Linked (runTimeout writeOk user mem memTimeout) := by
  refine keeps_get fun s hl => ?_
  cases s.timeoutList.find? (·.id = user) with
  | none => exact hl
  | some u =>
    dsimp only
    by_cases h : s.now < u.when_
    · rw [if_pos h]
      exact hl
    rw [if_neg h]
    refine Keeps.bind (still_removeTimeoutUser u.id).keeps (fun _ => ?_) s hl
    cases u.callback with
    | threadTimeout t wait => exact keeps_threadTimeout t wait
    | timerCallback o => exact (waking_timerCallback o mem memTimeout).keeps

theorem keeps_act (a : Action) : Keeps Linked (act writeOk a) := by
  cases a with
  | request c req => exact keeps_callReqHandler c req
  | newProcess => exact keeps_createProcess
  | threadHangup t =>
    exact Keeps.bind Keeps.get fun s => Keeps.ite (fun _ => (waking_killThread writeOk t).keeps)
      fun _ => Keeps.pure _
  | timeout user mem memTimeout => exact keeps_runTimeout user mem memTimeout
  | tick delay =>
    have htick : Still (modify fun s : State => { s with now := s.now + delay }) :=
      still_modify fun _ => ⟨fun _ => rfl, fun _ => rfl, rfl⟩
    exact htick.keeps
  | suspendProcess p =>
    exact Keeps.bind Keeps.get fun s => Keeps.ite
      (fun _ => (still_modify fun _ => .setProcess _ _).keeps) fun _ => Keeps.pure _
  | resumeProcess p =>
    exact Keeps.bind Keeps.get fun s => Keeps.ite (fun _ => (waking_resumeProcess p).keeps)
      fun _ => Keeps.pure _

theorem linked_initial : Linked State.initial :=
  ⟨fun _ _ he => (by cases he), fun _ => List.nodup_nil, fun _ _ he => (by cases he),
    fun _ => List.nodup_nil, fun _ _ hw => (by cases hw)⟩

theorem linked_step {a : Action} (hl : Linked s) (h : step writeOk s a = .ok s') : Linked s' := by
  unfold step at h
  cases hact : act writeOk a s with
  | error e =>
    rw [hact] at h
    cases h
  | ok r =>
    rw [hact] at h
    cases h
    exact (keeps_act a).ok hl hact

/-- The queues are in order after every run. -/
theorem linked_of_run {as : List Action}
    (h : Run (step writeOk) (fun _ _ => True) State.initial as s) : Linked s :=
  h.invariant linked_initial fun _ _ _ hl _ hst => linked_step hl hst

end Wine.Server
