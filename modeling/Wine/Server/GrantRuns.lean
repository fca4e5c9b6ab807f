import Wine.Server.Grants
import Wine.Server.WaitRuns

/-!
# What is granted in every run

In a run whose waits for all objects name no object twice that they use up, each semaphore stays
within its bounds and each wait gets what it takes signaled.
-/

namespace Wine.Server
open Wine.Lib

variable {α β : Type} {R : ObjId → Bool} {s s' : State} {o t : ObjId} {writeOk : ℕ → Bool}

/-! ## Changing the state of an object -/

theorem grants_setError (e : Status) : Grants R (setError e) :=
  .modify fun _ hs => hs.of_eq rfl rfl rfl rfl

theorem Fair.setEvent (h : Fair R s) {e : Event} (hb : (s.object o).body = .event e)
    (signaled : Bool) : Fair R (s.setBody o (.event { e with signaled := signaled })) := by
  apply h.setBody
  · rw [← h.kept o (by rw [hb]; exact fun hf => by cases hf), hb]
    rfl
  · exact fun _ hy => by cases hy

theorem grants_setEvent (o : ObjId) : Grants R (setEvent writeOk o) := by
  refine grants_get fun s hs => ?_
  cases hb : (s.object o).body with
  | event e => exact grants_set (hs.setEvent hb true) (grants_wakeUp (grants_killThread writeOk) o _)
  | _ => exact (by decide : Unmet (.assertion .objectOps))

theorem grants_resetEvent (o : ObjId) : Grants R (resetEvent o) := by
  refine grants_get fun s hs => ?_
  cases hb : (s.object o).body with
  | event e => exact hs.setEvent hb false
  | _ => exact (by decide : Unmet (.assertion .objectOps))

theorem grants_eventOp (o : ObjId) (op : EventOp) : Grants R (eventOp writeOk o op) := by
  cases op with
  | pulse => exact (grants_setEvent o).bind fun _ => grants_resetEvent o
  | set => exact grants_setEvent o
  | reset => exact grants_resetEvent o

theorem Fair.setSemaphore (h : Fair R s) {x y : Semaphore} (hb : (s.object o).body = .semaphore x)
    (hy : y.count ≤ y.max) : Fair R (s.setBody o (.semaphore y)) := by
  apply h.setBody
  · rw [← h.kept o (by rw [hb]; exact fun hf => by cases hf), hb]
    rfl
  · intro z hz
    cases hz
    exact hy

/-- The count is an unsigned int. -/
theorem grants_releaseSemaphore (o : ObjId) {count : ℕ} (hcount : count < 2 ^ 32) :
    Grants R (releaseSemaphore writeOk o count) := by
  refine grants_get fun s hs => ?_
  cases hb : (s.object o).body with
  | semaphore x =>
    dsimp only
    rw [wp_ite]
    refine ⟨fun _ => (grants_setError _).bind (fun _ => .pure _) s hs, fun hsum => ?_⟩
    have hle : (x.count + count) % 2 ^ 32 ≤ x.max := Nat.not_lt.mp fun hlt => hsum (.inr hlt)
    rw [wp_ite]
    refine ⟨fun _ => grants_set (hs.setSemaphore hb hle) (.pure _), fun hzero => ?_⟩
    have hmax : count ≤ x.max := by
      rwa [not_not.mp hzero, Nat.zero_add, Nat.mod_eq_of_lt hcount] at hle
    refine grants_set (hs.setSemaphore hb hmax) ?_
    exact (grants_wakeUp (grants_killThread writeOk) o count).bind fun _ => .pure _
  | _ => exact (by decide : Unmet (.assertion .objectOps))

theorem grants_releaseMutex (m c : ObjId) : Grants R (releaseMutex writeOk m c) := by
  refine grants_get fun s hs => ?_
  cases hm : (s.object m).body with
  | mutex x =>
    dsimp only
    rw [wp_ite]
    refine ⟨fun _ => (grants_setError _).bind (fun _ => .pure _) s hs, fun _ => ?_⟩
    refine grants_set (hs.setMutex hm _) (.ite (fun _ => ?_) fun _ => .pure _)
    exact (grants_doRelease (grants_killThread writeOk) m).bind fun _ => .pure _
  | _ => exact (by decide : Unmet (.assertion .objectOps))

theorem Fair.setApcQueue (h : Fair R s) (t : ObjId) (system : Bool) (q : List ThreadApc) :
    Fair R (s.setApcQueue t system q) := by
  cases system with
  | false => exact h.setThread_same rfl
  | true => exact h.setThread_same rfl

theorem grants_threadCancelApc (t owner : ObjId) (system : Bool) :
    Grants R (threadCancelApc t owner system) :=
  .modify fun _ hs => hs.setApcQueue t system _

theorem grants_threadQueueApc (t : ObjId) (apc : ThreadApc) (system mem : Bool) :
    Grants R (threadQueueApc writeOk t apc system mem) := by
  have htail : Grants R (do
      let s ← get
      if (s.thread t).state = .terminated then pure false
      else if !mem then
        setError statusNoMemory
        pure false
      else
        set (s.setApcQueue t system (apcQueue s t system ++ [apc]))
        if (apcQueue s t system).isEmpty then
          let _ ← wakeThread writeOk (killThread writeOk) t
        pure true) := by
    refine grants_get fun s hs => ?_
    rw [wp_ite]
    refine ⟨fun _ => hs, fun _ => ?_⟩
    cases mem with
    | false => exact (grants_setError _).bind (fun _ => .pure _) s hs
    | true =>
      refine grants_set (hs.setApcQueue _ _ _) (.ite (fun _ => ?_) fun _ => .pure _)
      exact (grants_wakeThread (grants_killThread writeOk) t).bind fun _ => .pure _
  unfold threadQueueApc
  cases apc.owner with
  | none => exact htail
  | some owner => exact (grants_threadCancelApc t owner system).bind fun _ => htail

theorem grants_threadDequeueApc (t : ObjId) (systemOnly : Bool) :
    Grants R (threadDequeueApc t systemOnly) := by
  refine grants_get fun s hs => ?_
  cases (s.thread t).systemApc with
  | cons apc rest => exact grants_set (hs.setThread_same rfl) (.pure _)
  | nil =>
    dsimp only
    cases systemOnly with
    | true => exact hs
    | false =>
      cases (s.thread t).userApc with
      | nil => exact hs
      | cons apc rest => exact grants_set (hs.setThread_same rfl) (.pure _)

theorem grants_getApc (c : ObjId) (alertable : Bool) (n : ℕ) : Grants R (getApc c alertable n) := by
  induction n with
  | zero => exact .pure _
  | succ n ih =>
    refine (grants_threadDequeueApc c _).bind fun r => ?_
    cases r with
    | none => exact .pure _
    | some apc => exact .ite (fun _ => .pure _) fun _ => ih

/-! ## Timers -/

theorem Fair.timer (h : Fair R s) {x : Timer} (hb : (s.object o).body = .timer x) :
    x.manual = R o := by
  rw [← h.kept o (by rw [hb]; exact fun hf => by cases hf), hb]
  rfl

/-- A timer is written back, also when it is gone. -/
theorem grants_setTimerBody {x : Timer} (hx : x.manual = R o) :
    Grants R (modify (·.setBody o (.timer x)) : M PUnit) :=
  .modify fun _ hs => hs.setBody hx fun _ hy => by cases hy

theorem grants_cancelTimer (o : ObjId) : Grants R (cancelTimer o) := by
  refine grants_get fun s hs => ?_
  cases hb : (s.object o).body with
  | timer x =>
    have hx := hs.timer hb
    have hend : ∀ y : Timer, y.manual = R o →
        Grants R (modify (·.setBody o (.timer y)) >>= fun _ => pure x.signaled : M Bool) :=
      fun y hy => (grants_setTimerBody hy).bind fun _ => .pure _
    have hthread : ∀ t (y : Timer), y.manual = R o → Grants R (threadCancelApc t o false >>=
        fun _ => releaseThread t >>= fun _ => modify (·.setBody o (.timer y)) >>=
          fun _ => pure x.signaled : M Bool) :=
      fun t y hy => (grants_threadCancelApc t o false).bind fun _ =>
        (grants_releaseThread t).bind fun _ => hend y hy
    dsimp only
    cases x.timeout with
    | none =>
      cases x.thread with
      | none => refine (grants_setTimerBody ?_).bind (fun _ => hend _ ?_) s hs <;> exact hx
      | some t => refine (grants_setTimerBody ?_).bind (fun _ => hthread t _ ?_) s hs <;> exact hx
    | some user =>
      refine (grants_removeTimeoutUser user).bind (fun _ => ?_) s hs
      cases x.thread with
      | none => refine (grants_setTimerBody ?_).bind fun _ => hend _ ?_ <;> exact hx
      | some t => refine (grants_setTimerBody ?_).bind fun _ => hthread t _ ?_ <;> exact hx
  | _ => exact (by decide : Unmet (.assertion .objectOps))

theorem grants_setTimer (o c : ObjId) (expire : Time) (period callback : ℕ) (mem : Bool) :
    Grants R (setTimer o c expire period callback mem) := by
  refine (grants_cancelTimer o).bind fun signaled => grants_get fun s hs => ?_
  cases hb : (s.object o).body with
  | timer x =>
    have hx := hs.timer hb
    have hend : ∀ when_ (f : Option ℕ → Timer), (∀ user, (f user).manual = R o) →
        Grants R (addTimeoutUser when_ (.timerCallback o) mem >>=
          fun user => modify (·.setBody o (.timer (f user))) >>= fun _ => pure signaled : M Bool) :=
      fun when_ f hf => (grants_addTimeoutUser _ _ _).bind fun user =>
        (grants_setTimerBody (hf user)).bind fun _ => .pure _
    dsimp only
    by_cases h : callback ≠ 0
    · simp only [if_pos h]
      refine (grants_grabObject c).bind (fun _ => hend _ _ fun _ => ?_) s hs
      exact hx
    · simp only [if_neg h]
      refine hend _ _ (fun _ => ?_) s hs
      exact hx
  | _ => exact (by decide : Unmet (.assertion .objectOps))

theorem grants_fireTimer (o : ObjId) (memTimeout : Bool) :
    Grants R (fireTimer writeOk o memTimeout) := by
  have hwake : ∀ y : Timer, y.manual = R o → Grants R (modify (·.setBody o (.timer y)) >>=
      fun _ => wakeUp writeOk (killThread writeOk) o 0 : M PUnit) :=
    fun y hy => (grants_setTimerBody hy).bind fun _ => grants_wakeUp (grants_killThread writeOk) o 0
  refine grants_get fun s hs => ?_
  cases hb : (s.object o).body with
  | timer x =>
    have hx := hs.timer hb
    dsimp only
    by_cases h : x.period ≠ 0
    · simp only [if_pos h]
      refine (grants_addTimeoutUser _ _ _).bind (fun user => ?_) s hs
      intro s' hs'
      rw [wp_bind, wp_pure]
      refine hwake _ ?_ s' hs'
      exact hx
    · simp only [if_neg h]
      refine hwake _ ?_ s hs
      exact hx
  | _ => exact (by decide : Unmet .badPointer)

theorem grants_timerCallback (o : ObjId) (mem memTimeout : Bool) :
    Grants R (timerCallback writeOk o mem memTimeout) := by
  have hfire := @grants_fireTimer R writeOk o memTimeout
  refine grants_get fun s hs => ?_
  cases hb : (s.object o).body with
  | timer x =>
    have hx := hs.timer hb
    dsimp only
    cases x.thread with
    | none => exact hfire s hs
    | some t =>
      refine (grants_threadQueueApc t _ false mem).bind (fun b => ?_) s hs
      cases b with
      | true => exact hfire
      | false =>
        refine (grants_releaseThread t).bind fun _ => (grants_setTimerBody ?_).bind fun _ => hfire
        exact hx
  | _ => exact (by decide : Unmet .badPointer)

/-! ## The expiry of a wait -/

theorem grants_threadTimeout (t : ObjId) (id : ℕ) : Grants R (threadTimeout writeOk t id) := by
  refine grants_get fun s hs => ?_
  cases (s.thread t).wait.find? (fun w => w.id = id) with
  | none => exact (by decide : Unmet .badPointer)
  | some wait =>
    dsimp only
    have hmap : Fair R (s.setThread t { s.thread t with
        wait := (s.thread t).wait.map fun w => if w.id = id then { w with user := none } else w }) := by
      apply hs.setThread
      intro w hw
      obtain ⟨v, hv, rfl⟩ := List.mem_map.mp hw
      by_cases h : v.id = id
      · rw [if_pos h]
        exact hs.once t v hv
      · rw [if_neg h]
        exact hs.once t v hv
    rw [wp_bind, wp_set, wp_ite]
    refine ⟨fun _ => hmap, fun _ => ?_⟩
    rw [wp_ite]
    refine ⟨fun _ => hmap, fun _ => ?_⟩
    refine (grants_endWait t).bind (fun _ =>
      (grants_sendThreadWakeup (grants_killThread writeOk) t _ _).bind fun b => ?_) _ hmap
    cases b with
    | false => exact .pure _
    | true => exact (grants_wakeThread (grants_killThread writeOk) t).bind fun _ => .pure _

/-! ## Handles -/

theorem grants_allocHandle (p o : ObjId) (access : Access) : Grants R (allocHandle p o access) := by
  refine grants_get fun s hs => ?_
  cases (s.process p).handles with
  | none => exact (grants_setError _).bind (fun _ => .pure _) s hs
  | some l => exact grants_set (hs.setProcess _ _) ((grants_grabObject o).bind fun _ => .pure _)

theorem grants_getHandleObj (c p : ObjId) (handle : Handle) (access : Access)
    (kind : Option Kind) : Grants R (getHandleObj c p handle access kind) := by
  refine grants_get fun s hs => ?_
  cases s.lookupHandle c p handle access with
  | error e => exact (grants_setError e).bind (fun _ => .pure _) s hs
  | ok o =>
    dsimp only
    rw [wp_ite]
    exact ⟨fun _ => (grants_setError _).bind (fun _ => .pure _) s hs,
      fun _ => (grants_grabObject o).bind (fun _ => .pure _) s hs⟩

theorem grants_closeHandle (p : ObjId) (handle : Handle) : Grants R (closeHandle p handle) := by
  refine grants_get fun s hs => ?_
  cases s.getHandle p handle with
  | none => exact grants_setError _ s hs
  | some h => exact grants_set (hs.setProcess _ _) (grants_releaseObject h.obj)

theorem grants_duplicateHandle (c src : ObjId) (handle : Handle) (dst : ObjId) (access : Access)
    (sameAccess : Bool) : Grants R (duplicateHandle c src handle dst access sameAccess) := by
  refine (grants_getHandleObj _ _ _ _ _).bind fun r => ?_
  cases r with
  | none => exact .pure _
  | some o =>
    refine grants_get fun s hs => ?_
    exact (grants_allocHandle _ _ _).bind (fun _ => grants_releaseObject o) s hs

/-! ## The select request -/

/-- The objects that the handles of a select request stand for, if all of them are found. -/
def State.selectObjects (s : State) (c : ObjId) (handles : List Handle) : Option (List ObjId) :=
  handles.mapM fun h => (s.lookupHandle c (s.thread c).process h synchronize).toOption

/-- What handles stand for is the same, and so is what the objects are. -/
structure Looks (s s' : State) : Prop where
  thread : s'.thread = s.thread
  process : s'.process = s.process
  body : ∀ o, (s'.object o).body = (s.object o).body

theorem Looks.lookupHandle (h : Looks s s') (c p : ObjId) (handle : Handle) (access : Access) :
    s'.lookupHandle c p handle access = s.lookupHandle c p handle access := by
  unfold State.lookupHandle State.getMagicHandle State.getHandle
  rw [h.thread, h.process]

theorem Looks.selectObjects (h : Looks s s') (c : ObjId) (handles : List Handle) :
    s'.selectObjects c handles = s.selectObjects c handles := by
  unfold State.selectObjects
  rw [h.thread]
  simp only [h.lookupHandle]

theorem wp_grabObject (h : Fair R s) (o : ObjId) :
    wp (grabObject o) (fun _ s' => Fair R s' ∧ Looks s s') Unmet s := by
  unfold grabObject
  rw [wp_bind, wp_get]
  refine wp_assert_of (by decide) fun _ => ⟨h.setHeader rfl, rfl, rfl, fun o' => ?_⟩
  show (Function.update s.object o _ o').body = _
  by_cases ho : o' = o
  · rw [ho, Function.update_self]
  · rw [Function.update_of_ne ho]

theorem wp_getHandleObjs (c : ObjId) (handles : List Handle) (h : Fair R s) :
    wp (getHandleObjs c handles) (fun r s' => Fair R s' ∧
      (r.2 = true → Looks s s' ∧ s.selectObjects c handles = some r.1)) Unmet s := by
  induction handles generalizing s with
  | nil => exact ⟨h, fun _ => ⟨⟨rfl, rfl, fun _ => rfl⟩, rfl⟩⟩
  | cons handle rest ih =>
    unfold getHandleObjs
    rw [wp_bind, wp_get, wp_bind]
    unfold getHandleObj
    rw [wp_bind, wp_get]
    cases hlook : s.lookupHandle c (s.thread c).process handle synchronize with
    | error e =>
      dsimp only
      rw [wp_bind]
      refine wp_mono (grants_setError e s h) fun _ s' h' => ⟨h', fun hf => ?_⟩
      cases hf
    | ok o =>
      dsimp only
      rw [if_neg (by simp), wp_bind]
      refine wp_mono (wp_grabObject h o) ?_
      rintro _ s₁ ⟨h₁, hlooks⟩
      rw [wp_pure]
      dsimp only
      rw [wp_bind]
      refine wp_mono (ih h₁) ?_
      rintro r s₂ ⟨h₂, hfound⟩
      refine ⟨h₂, fun hr => ?_⟩
      obtain ⟨hlooks₂, hobjects⟩ := hfound hr
      refine ⟨⟨hlooks₂.thread.trans hlooks.thread, hlooks₂.process.trans hlooks.process,
        fun o' => (hlooks₂.body o').trans (hlooks.body o')⟩, ?_⟩
      rw [hlooks.selectObjects] at hobjects
      unfold State.selectObjects at hobjects ⊢
      rw [List.mapM_cons, hlook, hobjects]
      rfl

theorem map_obj_waitEntries (id c : ℕ) (objects : List ObjId) :
    (waitEntries id c objects).map (·.obj) = objects := by
  apply List.ext_getElem?
  intro i
  unfold waitEntries
  rw [List.getElem?_map, List.getElem?_mapIdx]
  cases objects[i]? <;> rfl

theorem wp_waitOn {c : ObjId} {objects : List ObjId} {flags : SelectFlags} (timeout : Time)
    (h : Fair R s) (honce : flags.all = true → objects.Pairwise fun o o' => o = o' → R o = true) :
    wp (waitOn c objects flags timeout) (fun _ s' => Fair R s') Unmet s := by
  have hadd : ∀ e, Grants R (addQueue e.obj e) := fun e =>
    (grants_grabObject e.obj).bind fun _ => .modify fun _ hs => hs.setHeader rfl
  unfold waitOn
  rw [wp_bind, wp_get]
  refine grants_set (r := { s.setThread c _ with nextWait := s.nextWait + 1 }) ?_ (grants_forM hadd)
  refine Fair.of_eq (h.setThread fun w hw => ?_) rfl rfl rfl rfl
  obtain rfl | hw := List.mem_cons.mp hw
  · intro hall
    have hmap : ((waitEntries s.nextWait c objects).map (·.obj)).Pairwise
        fun o o' => o = o' → R o = true := by
      rw [map_obj_waitEntries]
      exact honce hall
    exact List.pairwise_map.mp hmap
  · exact h.once c w hw

theorem grants_signalOp (c o : ObjId) (access : Access) : Grants R (signalOp writeOk c o access) := by
  have hdeny : ∀ e, Grants R (setError e >>= fun _ => pure false : M Bool) := fun e =>
    (grants_setError e).bind fun _ => .pure _
  refine grants_get fun s hs => ?_
  cases (s.object o).body with
  | event e =>
    exact Secures.ite (fun _ => hdeny _) (fun _ => (grants_setEvent o).bind fun _ => .pure _) s hs
  | semaphore x =>
    exact Secures.ite (fun _ => hdeny _) (fun _ => grants_releaseSemaphore o (by decide)) s hs
  | mutex x =>
    exact Secures.ite (fun _ => hdeny _) (fun _ => (grants_releaseMutex o c).bind fun _ => .pure _) s hs
  | timer x => exact hdeny _ s hs
  | thread => exact hdeny _ s hs
  | process => exact hdeny _ s hs
  | freed => exact (by decide : Unmet .badPointer)

theorem grants_signalObject (c : ObjId) (handle : Handle) :
    Grants R (signalObject writeOk c handle) := by
  refine grants_get fun s hs => (grants_getHandleObj _ _ _ _ _).bind (fun r => ?_) s hs
  cases r with
  | none => exact .pure _
  | some o =>
    exact (grants_signalOp c o _).bind fun _ => (grants_releaseObject o).bind fun _ => .pure _

theorem grants_selectSignal (c : ObjId) (signalObj : Handle) :
    Grants R (selectSignal writeOk c signalObj) := by
  refine .ite (fun _ => .pure _) fun _ => (grants_signalObject c signalObj).bind fun b => ?_
  cases b with
  | true =>
    refine grants_get fun s hs => ?_
    rw [wp_ite]
    exact ⟨fun _ => (by decide : Unmet .badPointer), fun _ => hs⟩
  | false => exact (grants_endWait c).bind fun _ => .pure _

theorem Fair.mapTopWait (h : Fair R s) (t : ObjId) {f : ThreadWait → ThreadWait}
    (hf : ∀ w : ThreadWait, w.Once R → (f w).Once R) : Fair R (s.mapTopWait t f) := by
  unfold State.mapTopWait
  cases hw : (s.thread t).wait with
  | nil => exact h
  | cons w rest =>
    have hold := h.once t
    rw [hw] at hold
    apply h.setThread
    intro v hv
    obtain rfl | hv := List.mem_cons.mp hv
    · exact hf w (hold w List.mem_cons_self)
    · exact hold v (List.mem_cons_of_mem w hv)

theorem grants_selectCheck (c : ObjId) (cookie : Cookie) (flags : SelectFlags) (mem : Bool) :
    Grants R (selectCheck c cookie flags mem) := by
  have hpending : ∀ f : ThreadWait → ThreadWait, (∀ w : ThreadWait, w.Once R → (f w).Once R) →
      Grants R (modify (·.mapTopWait c f) >>= fun _ => setError statusPending : M PUnit) :=
    fun f hf => Secures.bind (.modify fun s hs => hs.mapTopWait c hf) fun _ => grants_setError _
  refine (grants_checkWait c).bind fun r => ?_
  cases r with
  | some ret => exact (grants_endWait c).bind fun _ => grants_setError _
  | none =>
    refine grants_get fun s hs => ?_
    cases (s.thread c).wait with
    | nil => exact (by decide : Unmet .badPointer)
    | cons w rest =>
      dsimp only
      rw [wp_ite]
      refine ⟨fun _ => ?_, fun _ => ?_⟩
      · refine (grants_addTimeoutUser _ _ mem).bind (fun r => ?_) s hs
        cases r with
        | none => exact grants_endWait c
        | some user => exact hpending _ fun _ h => h
      · exact hpending (fun w => { w with cookie := cookie }) (fun _ h => h) s hs

theorem wp_selectOn {c : ObjId} {req : SelectRequest} {mem : Bool} (memTimeout : Bool) (h : Fair R s)
    (honce : req.handles.length ≤ maximumWaitObjects → mem = true → req.flags.all = true →
      ∀ objects, s.selectObjects c req.handles = some objects →
        objects.Pairwise fun o o' => o = o' → (s.object o).body.repeatable = true) :
    wp (selectOn writeOk c req mem memTimeout) (fun _ s' => Fair R s') Unmet s := by
  unfold selectOn
  rw [wp_ite]
  refine ⟨fun _ => grants_setError _ s h, fun hmax => ?_⟩
  rw [wp_bind]
  refine wp_mono (wp_getHandleObjs c req.handles h) ?_
  rintro ⟨objects, found⟩ s₁ ⟨h₁, hfound⟩
  have hrelease : Grants R (forM objects.reverse releaseObject) :=
    grants_forM fun o => grants_releaseObject o
  dsimp only
  cases found with
  | false => exact hrelease s₁ h₁
  | true =>
    obtain ⟨hlooks, hobjects⟩ := hfound rfl
    cases mem with
    | false => exact (grants_setError _).bind (fun _ => hrelease) s₁ h₁
    | true =>
      simp only [if_true]
      rw [wp_bind]
      refine wp_mono (wp_waitOn req.timeout h₁ fun hall => ?_) fun _ s₂ h₂ => ?_
      · refine (honce (Nat.not_lt.mp hmax) rfl hall objects hobjects).imp fun {o o'} hrep heq => ?_
        have hbody := hrep heq
        rw [← h.kept o fun hf => by rw [hf] at hbody; cases hbody]
        exact hbody
      · refine (grants_selectSignal c req.signal).bind (fun b => ?_) s₂ h₂
        cases b with
        | true => exact (grants_selectCheck _ _ _ _).bind fun _ => hrelease
        | false => exact hrelease

/-! ## Objects, threads and processes -/

/-- The computation grants no more than there is, and may make objects. -/
abbrev Sound (m : M α) : Prop := Secures (fun s => ∃ R, Fair R s) Unmet m

theorem sound_of_grants {m : M α} (h : ∀ R, Grants R m) : Sound m := by
  rintro s ⟨R, hs⟩
  exact wp_mono (h R s hs) fun _ _ h' => ⟨R, h'⟩

theorem sound_get {f : State → M α}
    (h : ∀ R s, Fair R s → wp (f s) (fun _ s' => ∃ R, Fair R s') Unmet s) : Sound (get >>= f) := by
  rintro s ⟨R, hs⟩
  rw [wp_bind]
  exact h R s hs

/-- What a new object is, is known from then on. -/
theorem Fair.alloc (h : Fair R s) {body : Body} (hcap : ∀ y, body = .semaphore y → y.count ≤ y.max) :
    Fair (Function.update R s.nextObject body.repeatable)
      { s.setObject s.nextObject ⟨1, [], body⟩ with nextObject := s.nextObject + 1 } := by
  have hlt : ∀ o, R o = true → o ≠ s.nextObject := fun o ho heq =>
    absurd (h.known o ho) (heq ▸ Nat.lt_irrefl _)
  constructor
  · intro o ho
    by_cases heq : o = s.nextObject
    · rw [heq]
      exact Nat.lt_succ_self _
    · rw [Function.update_of_ne heq] at ho
      exact Nat.lt_succ_of_lt (h.known o ho)
  · intro o hne
    change (Function.update s.object s.nextObject ⟨1, [], body⟩ o).body ≠ .freed at hne
    show (Function.update s.object s.nextObject ⟨1, [], body⟩ o).body.repeatable = _
    by_cases heq : o = s.nextObject
    · rw [heq, Function.update_self, Function.update_self]
    · rw [Function.update_of_ne heq] at hne ⊢
      rw [Function.update_of_ne heq]
      exact h.kept o hne
  · intro o y hy
    change (Function.update s.object s.nextObject ⟨1, [], body⟩ o).body = .semaphore y at hy
    by_cases heq : o = s.nextObject
    · rw [heq, Function.update_self] at hy
      exact hcap y hy
    · rw [Function.update_of_ne heq] at hy
      exact h.capacity o y hy
  · intro t w hw hall
    refine (h.once t w hw hall).imp fun {e e'} hrep heq => ?_
    rw [Function.update_of_ne (hlt _ (hrep heq))]
    exact hrep heq
  · exact h.granted

theorem wp_allocObject {body : Body} (h : Fair R s)
    (hcap : ∀ y, body = .semaphore y → y.count ≤ y.max) :
    wp (allocObject body) (fun o s' => (∃ R, Fair R s') ∧ (s'.object o).body = body) Unmet s := by
  unfold allocObject
  rw [wp_bind, wp_get, wp_bind, wp_set, wp_pure]
  refine ⟨⟨_, h.alloc hcap⟩, ?_⟩
  show (Function.update s.object s.nextObject ⟨1, [], body⟩ s.nextObject).body = body
  rw [Function.update_self]

theorem sound_allocObject {body : Body} (hcap : ∀ y, body = .semaphore y → y.count ≤ y.max) :
    Sound (allocObject body) := by
  rintro s ⟨R, hs⟩
  exact wp_mono (wp_allocObject hs hcap) fun _ _ h => h.1

theorem grants_addProcessThread (p t : ObjId) : Grants R (addProcessThread p t) :=
  Secures.bind (.modify fun _ hs => hs.setProcess _ _) fun _ => grants_grabObject t

theorem sound_createThread (p : ObjId) : Sound (createThread p) := by
  refine (sound_allocObject fun _ hy => by cases hy).bind fun t => ?_
  apply sound_of_grants
  intro R
  refine (grants_grabObject p).bind fun _ => Secures.bind (.modify fun s hs => ?_) fun _ =>
    (grants_addProcessThread p t).bind fun _ => .pure _
  exact hs.setThread fun _ hw => by cases hw

theorem sound_createProcess : Sound createProcess := by
  refine (sound_allocObject fun _ hy => by cases hy).bind fun p => ?_
  refine Secures.bind (sound_of_grants fun R => .modify fun _ hs => hs.setProcess _ _) fun _ => ?_
  exact (sound_createThread p).bind fun _ => sound_of_grants fun R => grants_releaseObject p

/-- A new mutex can be taken at once. -/
theorem sound_createObject (c : ObjId) {body : Body} (access : Access) {owned : Bool}
    (hcap : ∀ y, body = .semaphore y → y.count ≤ y.max)
    (hown : owned = true → body = .mutex ⟨none, 0, false⟩) :
    Sound (createObject c body access owned) := by
  refine sound_get fun R s hs => ?_
  rw [wp_bind]
  refine wp_mono (wp_allocObject hs hcap) ?_
  rintro o s₁ ⟨⟨R₁, h₁⟩, hbody⟩
  have hrest : Sound (allocHandle (s.thread c).process o access >>= fun _ => releaseObject o) :=
    sound_of_grants fun R => (grants_allocHandle _ _ _).bind fun _ => grants_releaseObject o
  cases owned with
  | false => exact hrest s₁ ⟨R₁, h₁⟩
  | true =>
    have hsig : s₁.signaled o c = true := by
      unfold State.signaled
      rw [hbody, hown rfl]
      rfl
    simp only [if_true]
    rw [wp_bind]
    exact wp_mono (wp_satisfied h₁ hsig) fun _ s₂ h₂ => hrest s₂ ⟨R₁, h₂.1⟩

theorem grants_withHandle {f : ObjId → M PUnit} (c : ObjId) (handle : Handle) (access : Access)
    (kind : Kind) (hf : ∀ o, Grants R (f o)) : Grants R (withHandle c handle access kind f) := by
  refine grants_get fun s hs => (grants_getHandleObj _ _ _ _ _).bind (fun r => ?_) s hs
  cases r with
  | none => exact .pure _
  | some o => exact (hf o).bind fun _ => grants_releaseObject o

theorem sound_newThread (c : ObjId) (suspend : Bool) (access : Access) :
    Sound (newThread writeOk c suspend access) := by
  refine sound_get fun R s hs => (sound_createThread _).bind (fun t => ?_) s ⟨R, hs⟩
  apply sound_of_grants
  intro R
  have hrest : Grants R (do
      if !(← allocHandle (s.thread c).process t access) then killThread writeOk t) := by
    refine (grants_allocHandle _ _ _).bind fun b => ?_
    exact .ite (fun _ => grants_killThread writeOk t) fun _ => .pure _
  cases suspend with
  | true => exact Secures.bind (.modify fun _ h => h.setThread_same rfl) fun _ => hrest
  | false => exact hrest

theorem grants_openObject (c o : ObjId) (kind : Kind) (access : Access) :
    Grants R (openObject c o kind access) := by
  refine grants_get fun s hs => Secures.ite (fun _ => ?_) (fun _ => grants_setError _) s hs
  exact (grants_grabObject o).bind fun _ => (grants_allocHandle _ _ _).bind
    fun _ => grants_releaseObject o

theorem grants_suspendThread (t : ObjId) : Grants R (suspendThread t) := by
  refine grants_get fun s hs => ?_
  rw [wp_ite]
  refine ⟨fun _ => grants_setError _ s hs, fun _ => ?_⟩
  rw [wp_ite]
  exact ⟨fun _ => hs.setThread_same rfl, fun _ => grants_setError _ s hs⟩

theorem grants_resumeThread (t : ObjId) : Grants R (resumeThread writeOk t) := by
  refine grants_get fun s hs => ?_
  rw [wp_ite]
  refine ⟨fun _ => grants_setError _ s hs, fun _ => ?_⟩
  rw [wp_ite]
  refine ⟨fun _ => ?_, fun _ => hs⟩
  refine grants_set (hs.setThread_same rfl) (.ite (fun _ => ?_) fun _ => .pure _)
  exact (grants_wakeThread (grants_killThread writeOk) t).bind fun _ => .pure _

theorem grants_resumeLoop (p : ObjId) (n : ℕ) (t : ObjId) (next : Option ObjId) :
    Grants R (resumeLoop writeOk p n t next) := by
  induction n generalizing t next with
  | zero => exact .throw (by decide)
  | succ n ih =>
    refine grants_get fun s hs => ?_
    rw [wp_ite]
    refine ⟨fun _ => ?_, fun _ => ?_⟩
    · refine (grants_wakeThread (grants_killThread writeOk) t).bind (fun _ => ?_) s hs
      cases next with
      | none => exact .pure _
      | some u =>
        refine grants_get fun s' hs' => ?_
        cases nextEntry u (s'.process p).threadList with
        | none => exact (by decide : Unmet .badPointer)
        | some next => exact ih u next s' hs'
    · cases next with
      | none => exact hs
      | some u =>
        refine grants_get (fun s' hs' => ?_) s hs
        cases nextEntry u (s'.process p).threadList with
        | none => exact (by decide : Unmet .badPointer)
        | some next => exact ih u next s' hs'

theorem grants_resumeProcess (p : ObjId) : Grants R (resumeProcess writeOk p) := by
  refine grants_get fun s hs => wp_assert_of (by decide) fun _ => ?_
  refine grants_set (hs.setProcess _ _) (.ite (fun _ => ?_) fun _ => .pure _)
  cases (s.process p).threadList with
  | nil => exact .pure _
  | cons t l => exact grants_resumeLoop p _ t _

/-! ## Requests -/

theorem grants_dupHandle (c : ObjId) (srcProcess srcHandle dstProcess : Handle) (access : Access)
    (sameAccess closeSource : Bool) :
    Grants R (dupHandle c srcProcess srcHandle dstProcess access sameAccess closeSource) := by
  apply grants_withHandle
  intro src
  refine (grants_withHandle _ _ _ _ fun dst => grants_duplicateHandle _ _ _ _ _ _).bind fun _ => ?_
  cases closeSource with
  | true => exact grants_closeHandle src srcHandle
  | false => exact .pure _

/-- No object that the wait uses up is named twice by a request to wait for all objects. -/
def State.distinct (s : State) : Action → Bool
  | .request c (.select req mem _) =>
    !(s.running c && decide (req.handles.length ≤ maximumWaitObjects) && mem && req.flags.all) ||
      (s.selectObjects c req.handles).all fun objects =>
        decide (objects.Pairwise fun o o' => o = o' → (s.object o).body.repeatable = true)
  | _ => true

/-- The condition of `State.distinct` for a request to select. -/
def State.SelectsOnce (s : State) (req : SelectRequest) (c : ObjId) (mem : Bool) : Prop :=
  req.handles.length ≤ maximumWaitObjects → mem = true → req.flags.all = true →
    ∀ objects, s.selectObjects c req.handles = some objects →
      objects.Pairwise fun o o' => o = o' → (s.object o).body.repeatable = true

theorem wp_handler {c : ObjId} {req : Request} (h : Fair R s)
    (hsel : ∀ r mem memTimeout, req = .select r mem memTimeout → s.SelectsOnce r c mem) :
    wp (handler writeOk c req) (fun _ s' => ∃ R, Fair R s') Unmet s := by
  have hs : ∃ R, Fair R s := ⟨R, h⟩
  cases req with
  | newThread suspend access => exact sound_newThread c suspend access s hs
  | terminateThread handle =>
    refine sound_of_grants (fun R => grants_withHandle _ _ _ _ fun t => ?_) s hs
    exact .ite (fun _ => .pure _) fun _ => grants_killThread writeOk t
  | openThread id access => exact sound_of_grants (fun R => grants_openObject _ _ _ _) s hs
  | openProcess id access => exact sound_of_grants (fun R => grants_openObject _ _ _ _) s hs
  | suspendThread handle =>
    exact sound_of_grants (fun R => grants_withHandle _ _ _ _ grants_suspendThread) s hs
  | resumeThread handle =>
    exact sound_of_grants (fun R => grants_withHandle _ _ _ _ grants_resumeThread) s hs
  | select req mem memTimeout =>
    exact wp_mono (wp_selectOn memTimeout h (hsel req mem memTimeout rfl)) fun _ _ h' => ⟨R, h'⟩
  | queueApc handle func user mem =>
    refine sound_of_grants (fun R => grants_withHandle _ _ _ _ fun t => ?_) s hs
    exact (grants_threadQueueApc t _ _ _).bind fun _ => .pure _
  | getApc alertable =>
    exact sound_of_grants (fun R => grants_get fun s hs => grants_getApc c alertable _ s hs) s hs
  | createEvent manualReset initialState access =>
    exact sound_createObject _ _ (fun _ hy => by cases hy) (fun ho => by cases ho) s hs
  | createSemaphore initial max access =>
    refine Secures.ite (fun _ => sound_of_grants fun R => grants_setError _) (fun hok => ?_) s hs
    refine sound_createObject _ _ (fun y hy => ?_) fun ho => by cases ho
    cases hy
    exact Nat.le_of_not_lt fun hlt => hok (.inr hlt)
  | createMutex owned access =>
    exact sound_createObject _ _ (fun _ hy => by cases hy) (fun _ => rfl) s hs
  | createTimer manual access =>
    exact sound_createObject _ _ (fun _ hy => by cases hy) (fun ho => by cases ho) s hs
  | dupHandle srcProcess srcHandle dstProcess access sameAccess closeSource =>
    exact sound_of_grants (fun R => grants_dupHandle _ _ _ _ _ _ _) s hs
  | closeHandle handle =>
    exact sound_of_grants (fun R => grants_get fun s hs => grants_closeHandle _ _ s hs) s hs
  | eventOp handle op =>
    exact sound_of_grants (fun R => grants_withHandle _ _ _ _ fun o => grants_eventOp o op) s hs
  | releaseSemaphore handle count =>
    refine sound_of_grants (fun R => grants_withHandle _ _ _ _ fun o => ?_) s hs
    exact (grants_releaseSemaphore o count.isLt).bind fun _ => .pure _
  | releaseMutex handle =>
    refine sound_of_grants (fun R => grants_withHandle _ _ _ _ fun o => ?_) s hs
    exact (grants_releaseMutex o c).bind fun _ => .pure _
  | setTimer handle expire period callback mem =>
    refine sound_of_grants (fun R => grants_withHandle _ _ _ _ fun o => ?_) s hs
    exact (grants_setTimer _ _ _ _ _ _).bind fun _ => .pure _
  | cancelTimer handle =>
    refine sound_of_grants (fun R => grants_withHandle _ _ _ _ fun o => ?_) s hs
    exact (grants_cancelTimer o).bind fun _ => .pure _

theorem selectsOnce_of_distinct {c : ObjId} {req : SelectRequest} {mem memTimeout : Bool}
    (h : s.distinct (.request c (.select req mem memTimeout)) = true) (hc : s.running c = true) :
    s.SelectsOnce req c mem := by
  intro hmax hmem hall objects hobjects
  simp only [State.distinct, hc, hmem, hall, decide_eq_true hmax, Bool.and_self, Bool.not_true,
    Bool.false_or, hobjects, Option.all_some] at h
  exact of_decide_eq_true h

theorem wp_callReqHandler {c : ObjId} {req : Request} (h : Fair R s)
    (hd : s.distinct (.request c req) = true) :
    wp (callReqHandler writeOk c req) (fun _ s' => ∃ R, Fair R s') Unmet s := by
  unfold callReqHandler
  rw [wp_bind, wp_get, wp_ite]
  refine ⟨fun hc => ?_, fun _ => ⟨R, h⟩⟩
  rw [wp_bind, wp_set, wp_bind]
  have hcur : Fair R { s with current := some c, error := statusSuccess } := h.of_eq rfl rfl rfl rfl
  refine wp_mono (wp_handler hcur fun r mem memTimeout heq => ?_) ?_
  · subst heq
    have honce := selectsOnce_of_distinct hd hc
    exact honce
  · rintro _ s' ⟨R', h'⟩
    exact ⟨R', h'.of_eq rfl rfl rfl rfl⟩

theorem grants_runTimeout (user : ℕ) (mem memTimeout : Bool) :
    Grants R (runTimeout writeOk user mem memTimeout) := by
  refine grants_get fun s hs => ?_
  cases s.timeoutList.find? (·.id = user) with
  | none => exact hs
  | some u =>
    dsimp only
    rw [wp_ite]
    refine ⟨fun _ => hs, fun _ => (grants_removeTimeoutUser u.id).bind (fun _ => ?_) s hs⟩
    cases u.callback with
    | threadTimeout t wait => exact grants_threadTimeout t wait
    | timerCallback o => exact grants_timerCallback o mem memTimeout

theorem wp_act {a : Action} (h : Fair R s) (hd : s.distinct a = true) :
    wp (act writeOk a) (fun _ s' => ∃ R, Fair R s') Unmet s := by
  have hs : ∃ R, Fair R s := ⟨R, h⟩
  cases a with
  | request c req => exact wp_callReqHandler h hd
  | newProcess => exact sound_createProcess s hs
  | threadHangup t =>
    refine sound_of_grants (fun R => grants_get fun s hs => ?_) s hs
    exact Secures.ite (fun _ => grants_killThread writeOk t) (fun _ => .pure _) s hs
  | timeout user mem memTimeout =>
    exact sound_of_grants (fun R => grants_runTimeout user mem memTimeout) s hs
  | tick delay => exact ⟨R, h.of_eq rfl rfl rfl rfl⟩
  | suspendProcess p =>
    refine sound_of_grants (fun R => grants_get fun s hs => ?_) s hs
    exact Secures.ite (fun _ => .modify fun _ h => h.setProcess _ _) (fun _ => .pure _) s hs
  | resumeProcess p =>
    refine sound_of_grants (fun R => grants_get fun s hs => ?_) s hs
    exact Secures.ite (fun _ => grants_resumeProcess p) (fun _ => .pure _) s hs

/-! ## Runs -/

theorem fair_initial : Fair (fun _ => false) State.initial where
  known _ h := by cases h
  kept _ h := (h rfl).elim
  capacity _ _ h := by cases h
  once _ _ h := by cases h
  granted _ _ _ _ h := by cases h

theorem fair_step {a : Action} (h : ∃ R, Fair R s) (hd : s.distinct a = true)
    (hst : step writeOk s a = .ok s') : ∃ R, Fair R s' := by
  obtain ⟨R, hs⟩ := h
  unfold step at hst
  cases hact : act writeOk a s with
  | error e =>
    rw [hact] at hst
    cases hst
  | ok r =>
    rw [hact] at hst
    cases hst
    exact wp_of_ok (Q := fun _ s' => ∃ R, Fair R s') (wp_act hs hd) hact

/-- In every run that waits for no used up object twice at once, the semaphores stay within their
bounds, what a thread takes is signaled, and no semaphore is taken at 0. -/
theorem waits_granted {as : List Action}
    (hr : Run (step writeOk) (fun s a => s.distinct a = true) State.initial as s) :
    (∀ o x, (s.object o).body = .semaphore x → x.count ≤ x.max) ∧
    (∀ o t signaled abandoned, .satisfied o t signaled abandoned ∈ s.trace → signaled = true) ∧
    ∀ a, s.distinct a = true → step writeOk s a ≠ .error (.assertion .semaphoreSatisfied) := by
  have hfair : ∃ R, Fair R s := hr.invariant (I := fun s => ∃ R, Fair R s) ⟨_, fair_initial⟩
    fun _ _ _ h hd => fair_step h hd
  obtain ⟨R, hs⟩ := hfair
  refine ⟨hs.capacity, hs.granted, fun a hd hst => ?_⟩
  unfold step at hst
  cases hact : act writeOk a s with
  | error e =>
    rw [hact] at hst
    exact wp_of_error (wp_act hs hd) hact (Except.error.inj hst)
  | ok r =>
    rw [hact] at hst
    cases hst

/-- A process with one thread has a semaphore, which is object 3 with handle 4, and a mutex with
handle 8. -/
def semaphoreRun : List Action :=
  [.newProcess, .request 2 (.createSemaphore 1 1 0x1f0003),
    .request 2 (.createMutex false 0x1f0001)]

/-- The thread waits for all of the handles. -/
def selectAll (handles : List Handle) : Action :=
  .request 2 (.select ⟨77, handles, ⟨true, false, false, false⟩, 0, 0⟩ true true)

def semaphoreCount (s : State) : Option ℕ :=
  match (s.object 3).body with
  | .semaphore x => some x.count
  | _ => none

theorem waits_granted_semaphore : ∃ s, Run (step fun _ => true) (fun s a => s.distinct a = true)
    State.initial (semaphoreRun ++ [selectAll [4, 8, 8]]) s ∧ semaphoreCount s = some 0 ∧
    ∀ o x, (s.object o).body = .semaphore x → x.count ≤ x.max := by
  obtain ⟨s, hr, hp⟩ := run_of_execTo (f := step fun _ => true)
    (q := fun s a => s.distinct a = true) (g := State.distinct)
    (p := fun s => semaphoreCount s = some 0) (s := State.initial)
    (l := semaphoreRun ++ [selectAll [4, 8, 8]]) (fun _ _ h => h) (by decide +kernel)
  exact ⟨s, hr, of_decide_eq_true hp, (waits_granted hr).1⟩

/-- The step stops in `semaphore_satisfied`. -/
def stopsTaking (s : State) (a : Action) : Bool :=
  match step (fun _ => true) s a with
  | .error e => decide (e = .assertion .semaphoreSatisfied)
  | .ok _ => false

/-- The semaphore is named twice, and both times its count is 1 when it is checked. -/
theorem not_waits_granted_twice : ¬ ∀ (writeOk : ℕ → Bool) (as : List Action) (s : State),
    Run (step writeOk) (fun _ _ => True) State.initial as s →
      (∀ o x, (s.object o).body = .semaphore x → x.count ≤ x.max) ∧
      (∀ o t signaled abandoned, .satisfied o t signaled abandoned ∈ s.trace → signaled = true) ∧
      ∀ a, step writeOk s a ≠ .error (.assertion .semaphoreSatisfied) := by
  intro hall
  obtain ⟨s, hr, hp⟩ := run_of_execTo (f := step fun _ => true) (q := fun _ _ => True)
    (g := fun _ _ => true) (p := fun s => stopsTaking s (selectAll [4, 4])) (s := State.initial)
    (l := semaphoreRun) (fun _ _ _ => trivial) (by decide +kernel)
  have hnot := (hall (fun _ => true) semaphoreRun s hr).2.2 (selectAll [4, 4])
  unfold stopsTaking at hp
  cases hst : step (fun _ => true) s (selectAll [4, 4]) with
  | error e =>
    rw [hst] at hp hnot
    exact hnot (congrArg Except.error (of_decide_eq_true hp))
  | ok s' =>
    rw [hst] at hp
    cases hp

end Wine.Server
