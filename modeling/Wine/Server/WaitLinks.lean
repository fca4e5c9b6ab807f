import Wine.Server.Wake

/-!
# The entries of wait queues

Waking and killing threads ends waits, and the end of a wait is all that takes entries out of the
queues of objects.
-/

namespace Wine.Server
open Wine.Lib

variable {α β : Type} {s s' s'' : State} {o t : ObjId}

def AnyFault (_ : Fault) : Prop := True

/-- The entries of a queue are different and point back to its object, and the pending waits of a
thread have different numbers. -/
structure Linked (s : State) : Prop where
  obj : ∀ o, ∀ e ∈ (s.object o).waitQueue, e.obj = o
  queueNodup : ∀ o, (s.object o).waitQueue.Nodup
  entryUsed : ∀ o, ∀ e ∈ (s.object o).waitQueue, e.wait < s.nextWait
  idsNodup : ∀ t, ((s.thread t).wait.map (·.id)).Nodup
  waitUsed : ∀ t, ∀ w ∈ (s.thread t).wait, w.id < s.nextWait

/-- No entry comes or goes. -/
structure SameWaits (s s' : State) : Prop where
  queue : ∀ o, (s'.object o).waitQueue = (s.object o).waitQueue
  wait : ∀ t, (s'.thread t).wait = (s.thread t).wait
  nextWait : s'.nextWait = s.nextWait

/-- Waits end, the current one first, and exactly their entries go. -/
structure Shrinks (s s' : State) : Prop where
  linked : Linked s'
  waits : ∀ t, (s'.thread t).wait <:+ (s.thread t).wait
  queues : ∀ o, ((s'.object o).waitQueue).Sublist (s.object o).waitQueue
  gone : ∀ o, ∀ e ∈ (s.object o).waitQueue, e ∉ (s'.object o).waitQueue ↔
    ∃ t, ∃ w ∈ (s.thread t).wait, e ∈ w.queues ∧ w ∉ (s'.thread t).wait

theorem SameWaits.refl (s : State) : SameWaits s s := ⟨fun _ => rfl, fun _ => rfl, rfl⟩

theorem SameWaits.trans (h : SameWaits s s') (h' : SameWaits s' s'') : SameWaits s s'' :=
  ⟨fun o => (h'.queue o).trans (h.queue o), fun t => (h'.wait t).trans (h.wait t),
    h'.nextWait.trans h.nextWait⟩

theorem Linked.same (hl : Linked s) (h : SameWaits s s') : Linked s' where
  obj o e he := by
    rw [h.queue] at he
    exact hl.obj o e he
  queueNodup o := by
    rw [h.queue]
    exact hl.queueNodup o
  entryUsed o e he := by
    rw [h.queue] at he
    rw [h.nextWait]
    exact hl.entryUsed o e he
  idsNodup t := by
    rw [h.wait]
    exact hl.idsNodup t
  waitUsed t w hw := by
    rw [h.wait] at hw
    rw [h.nextWait]
    exact hl.waitUsed t w hw

theorem SameWaits.shrinks (h : SameWaits s s') (hl : Linked s) : Shrinks s s' where
  linked := hl.same h
  waits t := ⟨[], h.wait t⟩
  queues o := by rw [h.queue]
  gone o e he := by
    rw [h.queue]
    refine iff_of_false (not_not.2 he) ?_
    rintro ⟨t, w, hw, -, hno⟩
    rw [h.wait] at hno
    exact hno hw

theorem Shrinks.refl (hl : Linked s) : Shrinks s s := (SameWaits.refl s).shrinks hl

theorem Shrinks.trans (h : Shrinks s s') (h' : Shrinks s' s'') : Shrinks s s'' where
  linked := h'.linked
  waits t := (h'.waits t).trans (h.waits t)
  queues o := (h'.queues o).trans (h.queues o)
  gone o e he := by
    by_cases hmid : e ∈ (s'.object o).waitQueue
    · rw [h'.gone o e hmid]
      constructor
      · rintro ⟨t, w, hw, hew, hno⟩
        exact ⟨t, w, (h.waits t).subset hw, hew, hno⟩
      · rintro ⟨t, w, hw, hew, hno⟩
        refine ⟨t, w, ?_, hew, hno⟩
        by_contra hgone
        exact (h.gone o e he).2 ⟨t, w, hw, hew, hgone⟩ hmid
    · obtain ⟨t, w, hw, hew, hno⟩ := (h.gone o e he).1 hmid
      exact iff_of_true (fun h'' => hmid ((h'.queues o).subset h''))
        ⟨t, w, hw, hew, fun h'' => hno ((h'.waits t).subset h'')⟩

/-! ## Updates -/

theorem SameWaits.setObject {x : Object} (hx : x.waitQueue = (s.object o).waitQueue) :
    SameWaits s (s.setObject o x) where
  queue o' := by
    show (Function.update s.object o x o').waitQueue = _
    by_cases h : o' = o
    · rw [h, Function.update_self, hx]
    · rw [Function.update_of_ne h]
  wait _ := rfl
  nextWait := rfl

theorem SameWaits.setBody (b : Body) : SameWaits s (s.setBody o b) := .setObject rfl

theorem SameWaits.setThread {x : Thread} (hx : x.wait = (s.thread t).wait) :
    SameWaits s (s.setThread t x) where
  queue _ := rfl
  wait t' := by
    show (Function.update s.thread t x t').wait = _
    by_cases h : t' = t
    · rw [h, Function.update_self, hx]
    · rw [Function.update_of_ne h]
  nextWait := rfl

theorem SameWaits.setProcess (p : ObjId) (x : Process) : SameWaits s (s.setProcess p x) :=
  ⟨fun _ => rfl, fun _ => rfl, rfl⟩

theorem SameWaits.note (n : Notice) : SameWaits s (s.note n) :=
  ⟨fun _ => rfl, fun _ => rfl, rfl⟩

/-! ## Computations -/

/-- The computation leaves the entries alone. -/
def Still (m : M α) : Prop := ∀ s, wp m (fun _ s' => SameWaits s s') AnyFault s

/-- The computation only ends waits. -/
def Waking (m : M α) : Prop := ∀ s, Linked s → wp m (fun _ s' => Shrinks s s') AnyFault s

theorem Still.waking {m : M α} (h : Still m) : Waking m :=
  fun s hl => wp_mono (h s) fun _ _ hs => hs.shrinks hl

theorem still_pure (a : α) : Still (pure a : M α) := fun s => .refl s

theorem still_throw (e : Fault) : Still (throw e : M α) := fun _ => trivial

theorem still_bind {m : M α} {f : α → M β} (hm : Still m) (hf : ∀ a, Still (f a)) :
    Still (m >>= f) := by
  intro s
  rw [wp_bind]
  refine wp_mono (hm s) fun a s' h => ?_
  exact wp_mono (hf a s') fun _ _ h' => h.trans h'

theorem still_get {f : State → M α}
    (h : ∀ s, wp (f s) (fun _ s' => SameWaits s s') AnyFault s) : Still (get >>= f) := by
  intro s
  rw [wp_bind]
  exact h s

theorem still_set {f : PUnit → M α} {r : State} (hs : SameWaits s r) (hf : Still (f ⟨⟩)) :
    wp (set r >>= f) (fun _ s' => SameWaits s s') AnyFault s := by
  rw [wp_bind, wp_set]
  exact wp_mono (hf r) fun _ _ h => hs.trans h

theorem still_modify {f : State → State} (h : ∀ s, SameWaits s (f s)) :
    Still (modify f : M PUnit) := h

theorem still_assert (site : Site) (c : Bool) : Still (assert site c) := by
  unfold assert
  cases c with
  | true => exact still_pure _
  | false => exact still_throw _

theorem still_forM {l : List α} {f : α → M PUnit} (h : ∀ a, Still (f a)) : Still (forM l f) := by
  intro s
  exact wp_forM (I := SameWaits s)
    (fun a _ s' hs' => wp_mono (h a s') fun _ _ h' => hs'.trans h') (.refl s)

theorem waking_bind {m : M α} {f : α → M β} (hm : Waking m) (hf : ∀ a, Waking (f a)) :
    Waking (m >>= f) := by
  intro s hl
  rw [wp_bind]
  refine wp_mono (hm s hl) fun a s' h => ?_
  exact wp_mono (hf a s' h.linked) fun _ _ h' => h.trans h'

theorem waking_get {f : State → M α}
    (h : ∀ s, Linked s → wp (f s) (fun _ s' => Shrinks s s') AnyFault s) :
    Waking (get >>= f) := by
  intro s hl
  rw [wp_bind]
  exact h s hl

theorem waking_set {f : PUnit → M α} {r : State} (hl : Linked s) (hs : SameWaits s r)
    (hf : Waking (f ⟨⟩)) : wp (set r >>= f) (fun _ s' => Shrinks s s') AnyFault s := by
  rw [wp_bind, wp_set]
  exact wp_mono (hf r (hl.same hs)) fun _ _ h => (hs.shrinks hl).trans h

theorem waking_forM {l : List α} {f : α → M PUnit} (h : ∀ a, Waking (f a)) :
    Waking (forM l f) := by
  intro s hl
  exact wp_forM (I := Shrinks s)
    (fun a _ s' hs' => wp_mono (h a s' hs'.linked) fun _ _ h' => hs'.trans h') (.refl hl)

/-! ## References -/

/-- After an assertion the state is as before it. -/
theorem wp_assert {site : Site} {c : Bool} {f : PUnit → M α} {Q : α → State → Prop}
    (h : c = true → wp (f ⟨⟩) Q AnyFault s) : wp (assert site c >>= f) Q AnyFault s := by
  rw [wp_bind]
  unfold assert
  cases c with
  | true => exact h rfl
  | false => exact trivial

theorem still_grabObject (o : ObjId) : Still (grabObject o) :=
  still_get fun _ => wp_assert fun _ => SameWaits.setObject rfl

theorem still_addTimeoutUser (when_ : Time) (callback : TimeoutCallback) (mem : Bool) :
    Still (addTimeoutUser when_ callback mem) := by
  unfold addTimeoutUser
  cases mem with
  | false => exact fun s => ⟨fun _ => rfl, fun _ => rfl, rfl⟩
  | true => exact fun s => ⟨fun _ => rfl, fun _ => rfl, rfl⟩

theorem still_removeTimeoutUser (user : ℕ) : Still (removeTimeoutUser user) := by
  refine still_get fun s => ?_
  by_cases h : (s.timeoutList.any (·.id = user)) = true
  · rw [if_pos h]
    exact ⟨fun _ => rfl, fun _ => rfl, rfl⟩
  · rw [if_neg h]
    trivial

/-- The queue of an object is empty when it is freed. -/
theorem still_releaseWith {destroy : M PUnit} (hd : Still destroy) (o : ObjId) :
    Still (releaseWith destroy o) := by
  refine still_get fun s => wp_assert fun _ => ?_
  have hs : SameWaits s (s.setObject o { s.object o with refcount := (s.object o).refcount - 1 }) :=
    .setObject rfl
  rw [wp_bind, wp_set]
  by_cases hone : (s.object o).refcount = 1
  · rw [if_pos hone]
    refine wp_assert fun hempty => ?_
    rw [wp_bind]
    refine wp_mono (hd _) fun _ s' h => ?_
    have hsame := hs.trans h
    have hq : (s'.object o).waitQueue = [] := by
      rw [hsame.queue]
      exact List.isEmpty_iff.mp hempty
    exact hsame.trans (.setObject hq.symm)
  · rw [if_neg hone]
    exact hs

theorem still_releaseProcess (p : ObjId) : Still (releaseProcess p) :=
  still_releaseWith (still_get fun s => still_assert _ _ s) p

theorem still_cleanupThread (t : ObjId) : Still (cleanupThread t) :=
  still_modify fun _ => .setThread rfl

theorem still_releaseThread (t : ObjId) : Still (releaseThread t) :=
  still_releaseWith (still_bind (still_cleanupThread t)
    fun _ => still_get fun s => still_releaseProcess _ s) t

theorem still_timerDestroy (o : ObjId) : Still (timerDestroy o) := by
  refine still_get fun s => ?_
  cases (s.object o).body with
  | timer x =>
    dsimp only
    cases x.timeout with
    | none =>
      cases x.thread with
      | none => exact .refl s
      | some t => exact still_releaseThread t s
    | some user =>
      cases x.thread with
      | none => exact still_bind (still_removeTimeoutUser user) (fun _ => still_pure _) s
      | some t =>
        exact still_bind (still_removeTimeoutUser user) (fun _ => still_releaseThread t) s
  | _ => trivial

theorem SameWaits.disownMutex (m t : ObjId) (x : Mutex) : SameWaits s (s.disownMutex m t x) := by
  have h : SameWaits s (s.setThread t
      { s.thread t with mutexList := (s.thread t).mutexList.erase m }) := .setThread rfl
  exact h.trans (.setBody _)

theorem still_unlinkMutex (m : ObjId) : Still (unlinkMutex m) := by
  refine still_get fun s => ?_
  cases (s.object m).body with
  | mutex x =>
    dsimp only
    cases x.owner with
    | none => trivial
    | some t => exact .disownMutex m t x
  | _ => trivial

theorem still_mutexDestroy (m : ObjId) : Still (mutexDestroy m) := by
  refine still_get fun s => ?_
  cases (s.object m).body with
  | mutex x =>
    dsimp only
    by_cases h : x.count = 0
    · rw [if_pos h]
      exact .refl s
    · rw [if_neg h]
      exact still_set (.setBody _) (still_unlinkMutex m)
  | _ => trivial

theorem still_releaseObject (o : ObjId) : Still (releaseObject o) := by
  refine still_get fun s => ?_
  cases (s.object o).body with
  | event e => exact still_releaseWith (still_pure _) o s
  | semaphore x => exact still_releaseWith (still_pure _) o s
  | mutex x => exact still_releaseWith (still_mutexDestroy o) o s
  | timer x => exact still_releaseWith (still_timerDestroy o) o s
  | thread => exact still_releaseThread o s
  | process => exact still_releaseProcess o s
  | freed => trivial

/-! ## Taking objects -/

theorem still_mutexSatisfied (m t : ObjId) (x : Mutex) : Still (mutexSatisfied m t x) := by
  refine still_get fun s => wp_assert fun _ => ?_
  by_cases h : x.count = 0
  · simp only [if_pos h]
    refine wp_assert fun _ => ?_
    have hs : SameWaits s (s.setThread t
        { s.thread t with mutexList := m :: (s.thread t).mutexList }) := .setThread rfl
    exact still_set (hs.trans (.setBody _)) (still_pure _)
  · simp only [if_neg h]
    exact still_set (.setBody _) (still_pure _)

theorem still_satisfiedOp (o t : ObjId) : Still (satisfiedOp o t) := by
  refine still_get fun s => ?_
  cases (s.object o).body with
  | event e =>
    dsimp only
    by_cases h : e.manualReset = true
    · rw [if_pos h]
      exact .refl s
    · rw [if_neg h]
      exact still_set (.setBody _) (still_pure _)
  | semaphore x =>
    exact wp_assert fun _ => still_set (.setBody _) (still_pure _)
  | mutex x => exact still_mutexSatisfied o t x s
  | timer x =>
    dsimp only
    by_cases h : x.manual = true
    · rw [if_pos h]
      exact .refl s
    · rw [if_neg h]
      exact still_set (.setBody _) (still_pure _)
  | thread => exact .refl s
  | process => exact .refl s
  | freed => trivial

theorem still_satisfied (o t : ObjId) : Still (satisfied o t) :=
  still_get fun s => still_bind (still_satisfiedOp o t)
    (fun _ => still_bind (still_modify fun _ => .note _) fun _ => still_pure _) s

theorem still_satisfyAll (t : ObjId) (l : List WaitQueueEntry) : Still (satisfyAll t l) := by
  induction l with
  | nil => exact still_pure _
  | cons e l ih =>
    exact still_bind (still_satisfied e.obj t) fun _ => still_bind ih fun _ => still_pure _

theorem still_checkWait (t : ObjId) : Still (checkWait t) := by
  refine still_get fun s => ?_
  by_cases hsus : s.suspended t = true
  · rw [if_pos hsus]
    exact .refl s
  rw [if_neg hsus]
  cases (s.thread t).wait with
  | nil => trivial
  | cons w rest =>
    dsimp only
    by_cases hall : w.flags.all = true
    · rw [if_pos hall]
      by_cases hsig : (w.queues.all fun e => s.signaled e.obj t) = true
      · rw [if_pos hsig]
        exact still_bind (still_satisfyAll t w.queues) (fun _ => still_pure _) s
      · rw [if_neg hsig]
        exact .refl s
    · rw [if_neg hall]
      cases s.firstSignaled t 0 w.queues with
      | none => exact .refl s
      | some r => exact still_bind (still_satisfied r.2.obj t) (fun _ => still_pure _) s

/-! ## The end of a wait -/

/-- The entries have been taken out of the queues. -/
structure Removed (s : State) (es : List WaitQueueEntry) (s' : State) : Prop where
  queue : ∀ o, (s'.object o).waitQueue = (s.object o).waitQueue.filter fun e => e ∉ es
  wait : ∀ t, (s'.thread t).wait = (s.thread t).wait
  nextWait : s'.nextWait = s.nextWait

theorem Removed.linked (hl : Linked s) {es : List WaitQueueEntry} (h : Removed s es s') :
    Linked s' where
  obj o e he := by
    rw [h.queue] at he
    exact hl.obj o e (List.mem_of_mem_filter he)
  queueNodup o := by
    rw [h.queue]
    exact (hl.queueNodup o).filter _
  entryUsed o e he := by
    rw [h.queue] at he
    rw [h.nextWait]
    exact hl.entryUsed o e (List.mem_of_mem_filter he)
  idsNodup t := by
    rw [h.wait]
    exact hl.idsNodup t
  waitUsed t w hw := by
    rw [h.wait] at hw
    rw [h.nextWait]
    exact hl.waitUsed t w hw

theorem wp_removeQueue (hl : Linked s) (e : WaitQueueEntry) :
    wp (removeQueue e) (fun _ s' => Removed s [e] s') AnyFault s := by
  unfold removeQueue
  rw [wp_bind, wp_modify]
  refine wp_mono (still_releaseObject e.obj _) fun _ s' h => ⟨fun o => ?_, h.wait, h.nextWait⟩
  rw [h.queue]
  show (Function.update s.object e.obj _ o).waitQueue = _
  by_cases ho : o = e.obj
  · rw [ho, Function.update_self]
    show (s.object e.obj).waitQueue.erase e = _
    rw [(hl.queueNodup e.obj).erase_eq_filter]
    apply List.filter_congr
    intro a _
    rw [Bool.eq_iff_iff]
    simp
  · rw [Function.update_of_ne ho]
    refine (List.filter_eq_self.2 fun a ha => ?_).symm
    rw [decide_eq_true_eq, List.mem_singleton]
    rintro rfl
    exact ho (hl.obj o a ha).symm

theorem wp_removeQueues {es : List WaitQueueEntry} (hl : Linked s) :
    wp (forM es removeQueue) (fun _ s' => Removed s es s') AnyFault s := by
  induction es generalizing s with
  | nil =>
    rw [List.forM_nil, wp_pure]
    exact ⟨fun o => (List.filter_eq_self.2 fun a _ => by simp).symm, fun _ => rfl, rfl⟩
  | cons e es ih =>
    rw [List.forM_cons, wp_bind]
    refine wp_mono (wp_removeQueue hl e) fun _ s₁ h₁ => ?_
    refine wp_mono (ih (h₁.linked hl)) fun _ s₂ h₂ => ?_
    refine ⟨fun o => ?_, fun t => (h₂.wait t).trans (h₁.wait t), h₂.nextWait.trans h₁.nextWait⟩
    rw [h₂.queue, h₁.queue, List.filter_filter]
    apply List.filter_congr
    intro a _
    rw [Bool.eq_iff_iff]
    simp [and_comm]

/-- The state after the current wait of a thread has ended. -/
theorem Linked.pop {w : ThreadWait} {rest : List ThreadWait} (hl : Linked s)
    (hw : (s.thread t).wait = w :: rest) (h : Removed s w.queues s') {x : Thread}
    (hx : x.wait = rest) : Shrinks s (s'.setThread t x) := by
  have hwait : ∀ t', ((s'.setThread t x).thread t').wait =
      if t' = t then rest else (s.thread t').wait := by
    intro t'
    show (Function.update s'.thread t x t').wait = _
    by_cases ht : t' = t
    · rw [ht, Function.update_self, if_pos rfl, hx]
    · rw [Function.update_of_ne ht, if_neg ht, h.wait]
  have hqueue : ∀ o, ((s'.setThread t x).object o).waitQueue =
      (s.object o).waitQueue.filter fun e => e ∉ w.queues := h.queue
  have hsuffix : ∀ t', ((s'.setThread t x).thread t').wait <:+ (s.thread t').wait := by
    intro t'
    rw [hwait]
    by_cases ht : t' = t
    · rw [if_pos ht, ht, hw]
      exact List.suffix_cons _ _
    · exact ⟨[], if_neg ht⟩
  have hids := hl.idsNodup t
  rw [hw, List.map_cons, List.nodup_cons] at hids
  refine ⟨⟨(h.linked hl).obj, (h.linked hl).queueNodup, (h.linked hl).entryUsed, fun t' => ?_,
    fun t' v hv => ?_⟩, hsuffix, fun o => ?_, fun o e he => ?_⟩
  · exact (hl.idsNodup t').sublist ((hsuffix t').sublist.map _)
  · show v.id < s'.nextWait
    rw [h.nextWait]
    exact hl.waitUsed t' v ((hsuffix t').subset hv)
  · rw [hqueue]
    exact List.filter_sublist
  · rw [hqueue, List.mem_filter, decide_eq_true_eq, not_and, not_not]
    constructor
    · intro hew
      refine ⟨t, w, ?_, hew he, ?_⟩
      · rw [hw]
        exact List.mem_cons_self
      · rw [hwait, if_pos rfl]
        exact fun hmem => hids.1 (List.mem_map_of_mem hmem)
    · rintro ⟨t', v, hv, hev, hno⟩ -
      rw [hwait] at hno
      by_cases ht : t' = t
      · rw [if_pos ht] at hno
        rw [ht, hw] at hv
        obtain rfl | hv := List.mem_cons.1 hv
        · exact hev
        · exact absurd hv hno
      · rw [if_neg ht] at hno
        exact absurd hv hno

theorem waking_endWait (t : ObjId) : Waking (endWait t) := by
  refine waking_get fun s hl => ?_
  cases hw : (s.thread t).wait with
  | nil => trivial
  | cons w rest =>
    dsimp only
    rw [wp_bind]
    refine wp_mono (wp_removeQueues hl) fun _ s₁ h₁ => ?_
    cases w.user with
    | none => exact hl.pop hw h₁ rfl
    | some user =>
      rw [wp_bind]
      refine wp_mono (still_removeTimeoutUser user s₁) fun _ s₂ h₂ => ?_
      refine hl.pop hw ⟨fun o => ?_, fun t' => ?_, ?_⟩ rfl
      · rw [h₂.queue, h₁.queue]
      · rw [h₂.wait, h₁.wait]
      · rw [h₂.nextWait, h₁.nextWait]

/-! ## Waking and killing -/

section
variable {writeOk : ℕ → Bool} {kill : ObjId → M PUnit}

theorem waking_sendThreadWakeup (hk : ∀ t, Waking (kill t)) (t : ObjId) (cookie : Cookie)
    (signaled : Status) : Waking (sendThreadWakeup writeOk kill t cookie signaled) := by
  refine waking_get fun s hl => ?_
  refine waking_set hl ⟨fun _ => rfl, fun _ => rfl, rfl⟩ ?_
  by_cases h : writeOk s.writes = true
  · simp only [if_pos h]
    exact (still_pure true).waking
  · simp only [if_neg h]
    exact waking_bind (hk t) fun _ => (still_pure false).waking

theorem waking_wakeThreadLoop (hk : ∀ t, Waking (kill t)) (t : ObjId) (n count : ℕ) :
    Waking (wakeThreadLoop writeOk kill t n count) := by
  induction n generalizing count with
  | zero => exact (still_pure count).waking
  | succ n ih =>
    refine waking_get fun s hl => ?_
    cases (s.thread t).wait with
    | nil => exact .refl hl
    | cons w rest =>
      refine waking_bind (still_checkWait t).waking (fun r => ?_) s hl
      cases r with
      | none => exact (still_pure count).waking
      | some signaled =>
        refine waking_bind (waking_endWait t) fun _ =>
          waking_bind (waking_sendThreadWakeup hk t _ _) fun b => ?_
        cases b with
        | false => exact (still_pure count).waking
        | true => exact ih (count + 1)

theorem waking_wakeThread (hk : ∀ t, Waking (kill t)) (t : ObjId) :
    Waking (wakeThread writeOk kill t) :=
  waking_get fun s hl => waking_wakeThreadLoop hk t _ 0 s hl

theorem waking_wakeUpLoop (hk : ∀ t, Waking (kill t)) (o : ObjId) (n : ℕ)
    (ptr : WaitQueueEntry) (next : Option WaitQueueEntry) (max : ℕ) :
    Waking (wakeUpLoop writeOk kill o n ptr next max) := by
  induction n generalizing ptr next max with
  | zero => exact (still_throw _).waking
  | succ n ih =>
    refine waking_bind (waking_wakeThread hk ptr.thread) fun woken => ?_
    by_cases hstop : woken ≠ 0 ∧ max = 1
    · simp only [if_pos hstop]
      exact (still_pure _).waking
    simp only [if_neg hstop]
    cases next with
    | none => exact (still_pure _).waking
    | some e =>
      refine waking_get fun s hl => ?_
      cases nextEntry e (s.object o).waitQueue with
      | none => trivial
      | some next => exact ih e next _ s hl

theorem waking_wakeUp (hk : ∀ t, Waking (kill t)) (o : ObjId) (max : ℕ) :
    Waking (wakeUp writeOk kill o max) := by
  refine waking_get fun s hl => ?_
  cases (s.object o).waitQueue with
  | nil => exact .refl hl
  | cons e l => exact waking_wakeUpLoop hk o _ e _ max s hl

theorem waking_doRelease (hk : ∀ t, Waking (kill t)) (m : ObjId) :
    Waking (doRelease writeOk kill m) := by
  refine waking_get fun s hl => ?_
  cases (s.object m).body with
  | mutex x =>
    exact wp_assert fun _ => waking_bind (still_unlinkMutex m).waking
      (fun _ => waking_wakeUp hk m 0) s hl
  | _ => trivial

theorem waking_abandonMutexesLoop (hk : ∀ t, Waking (kill t)) (t : ObjId) (n : ℕ) :
    Waking (abandonMutexesLoop writeOk kill t n) := by
  induction n with
  | zero =>
    refine waking_get fun s hl => ?_
    by_cases h : (s.thread t).mutexList.isEmpty = true
    · rw [if_pos h]
      exact .refl hl
    · rw [if_neg h]
      trivial
  | succ n ih =>
    refine waking_get fun s hl => ?_
    cases (s.thread t).mutexList with
    | nil => exact .refl hl
    | cons m rest =>
      dsimp only
      cases (s.object m).body with
      | mutex x =>
        refine wp_assert fun _ => waking_set hl ((SameWaits.setBody _).trans (.note _)) ?_
        exact waking_bind (waking_doRelease hk m) fun _ => ih
      | _ => trivial

theorem waking_abandonMutexes (hk : ∀ t, Waking (kill t)) (t : ObjId) :
    Waking (abandonMutexes writeOk kill t) :=
  waking_get fun s hl => waking_abandonMutexesLoop hk t _ s hl

theorem waking_processKilled (hk : ∀ t, Waking (kill t)) (p : ObjId) :
    Waking (processKilled writeOk kill p) := by
  refine waking_get fun s hl => wp_assert fun _ => waking_set hl (.setProcess _ _) ?_
  exact waking_bind (still_forM fun h : HandleEntry => still_releaseObject h.obj).waking
    fun _ => waking_wakeUp hk p 0

theorem waking_removeProcessThread (hk : ∀ t, Waking (kill t)) (p t : ObjId) :
    Waking (removeProcessThread writeOk kill p t) := by
  refine waking_get fun s hl => wp_assert fun _ => wp_assert fun _ =>
    waking_set hl (.setProcess _ _) ?_
  by_cases h : (s.process p).runningThreads = 1
  · simp only [if_pos h]
    exact waking_bind (waking_processKilled hk p) fun _ => (still_releaseObject t).waking
  · simp only [if_neg h]
    exact (still_releaseObject t).waking

theorem waking_killRest (hk : ∀ t, Waking (kill t)) (t : ObjId) :
    Waking (killRest writeOk kill t) := by
  have htail : Waking (do
      abandonMutexes writeOk kill t
      wakeUp writeOk kill t 0
      cleanupThread t
      let s ← get
      removeProcessThread writeOk kill (s.thread t).process t
      releaseObject t) :=
    waking_bind (waking_abandonMutexes hk t) fun _ => waking_bind (waking_wakeUp hk t 0) fun _ =>
      waking_bind (still_cleanupThread t).waking fun _ => waking_get fun s hl =>
        waking_bind (waking_removeProcessThread hk _ t)
          (fun _ => (still_releaseObject t).waking) s hl
  refine waking_get fun s hl => ?_
  cases hw : (s.thread t).wait.isEmpty with
  | true => exact htail s hl
  | false =>
    exact waking_bind (waking_forM fun _ => waking_endWait t) (fun _ =>
      waking_bind (waking_sendThreadWakeup hk t 0 statusPending) fun _ => htail) s hl

theorem waking_killThreadAt (writeOk : ℕ → Bool) (n : ℕ) (t : ObjId) :
    Waking (killThreadAt writeOk n t) := by
  induction n generalizing t with
  | zero =>
    refine waking_get fun s hl => ?_
    by_cases h : (s.thread t).state = .terminated
    · rw [if_pos h]
      exact .refl hl
    · rw [if_neg h]
      trivial
  | succ n ih =>
    refine waking_get fun s hl => ?_
    by_cases h : (s.thread t).state = .terminated
    · rw [if_pos h]
      exact .refl hl
    · rw [if_neg h]
      have hs : SameWaits s (s.terminate t) := by
        have ht : SameWaits s (s.setThread t { s.thread t with state := .terminated }) :=
          .setThread rfl
        exact ⟨ht.queue, ht.wait, rfl⟩
      exact waking_set hl hs (waking_killRest (fun t => ih t) t)

theorem waking_killThread (writeOk : ℕ → Bool) (t : ObjId) : Waking (killThread writeOk t) :=
  waking_get fun s hl => waking_killThreadAt writeOk _ t s hl

end

end Wine.Server
