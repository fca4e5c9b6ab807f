import Wine.Server.Wake

/-!
# What waiting threads are granted

A wait for all objects takes them one after the other when all of them are signaled. It gets each of
them signaled if no object whose state is used up by a wait is named twice.
-/

namespace Wine.Server
open Wine.Lib

variable {α β : Type} {R : ObjId → Bool} {s s' : State} {o t : ObjId}

/-- Whether a thread that has just taken the object finds it signaled still. -/
def Body.repeatable : Body → Bool
  | .event e => e.manualReset
  | .timer x => x.manual
  | .mutex _ | .thread | .process => true
  | .semaphore _ | .freed => false

/-- A wait for all objects names none twice that is not repeatable. -/
def ThreadWait.Once (R : ObjId → Bool) (w : ThreadWait) : Prop :=
  w.flags.all = true → w.queues.Pairwise fun e e' => e.obj = e'.obj → R e.obj = true

/-- The semaphores are within their bounds, no wait for all objects names one twice that is not
repeatable, and what was taken was signaled. `R` says which of the objects are repeatable, also of
those that are gone. -/
structure Fair (R : ObjId → Bool) (s : State) : Prop where
  known : ∀ o, R o = true → o < s.nextObject
  kept : ∀ o, (s.object o).body ≠ .freed → (s.object o).body.repeatable = R o
  capacity : ∀ o x, (s.object o).body = .semaphore x → x.count ≤ x.max
  once : ∀ t, ∀ w ∈ (s.thread t).wait, w.Once R
  granted : ∀ o t signaled abandoned, .satisfied o t signaled abandoned ∈ s.trace → signaled = true

/-- The faults but the failed assertion of `semaphore_satisfied`. -/
abbrev Unmet (e : Fault) : Prop := e ≠ .assertion .semaphoreSatisfied

/-- The computation grants no more than there is. -/
abbrev Grants (R : ObjId → Bool) (m : M α) : Prop := Secures (Fair R) Unmet m

namespace Fair

theorem of_eq (h : Fair R s) (ho : s'.object = s.object) (ht : s'.thread = s.thread)
    (htr : s'.trace = s.trace) (hn : s'.nextObject = s.nextObject) : Fair R s' where
  known := by
    rw [hn]
    exact h.known
  kept := by
    rw [ho]
    exact h.kept
  capacity := by
    rw [ho]
    exact h.capacity
  once := by
    rw [ht]
    exact h.once
  granted := by
    rw [htr]
    exact h.granted

theorem setObject (h : Fair R s) {x : Object}
    (hkept : x.body ≠ .freed → x.body.repeatable = R o)
    (hcap : ∀ y, x.body = .semaphore y → y.count ≤ y.max) : Fair R (s.setObject o x) where
  known := h.known
  kept o' hne := by
    by_cases ho : o' = o
    · subst ho
      rw [State.setObject_object, Function.update_self] at hne ⊢
      exact hkept hne
    · rw [State.setObject_object, Function.update_of_ne ho] at hne ⊢
      exact h.kept o' hne
  capacity o' y hy := by
    by_cases ho : o' = o
    · subst ho
      rw [State.setObject_object, Function.update_self] at hy
      exact hcap y hy
    · rw [State.setObject_object, Function.update_of_ne ho] at hy
      exact h.capacity o' y hy
  once := h.once
  granted := h.granted

/-- The count of references and the queue of an object matter to no wait. -/
theorem setHeader (h : Fair R s) {x : Object} (hx : x.body = (s.object o).body) :
    Fair R (s.setObject o x) := by
  apply h.setObject
  · rw [hx]
    exact h.kept o
  · rw [hx]
    exact h.capacity o

theorem free (h : Fair R s) (o : ObjId) : Fair R (s.setObject o noObject) :=
  h.setObject (fun hne => (hne rfl).elim) fun _ hy => by cases hy

theorem setBody (h : Fair R s) {b : Body} (hkept : b.repeatable = R o)
    (hcap : ∀ y, b = .semaphore y → y.count ≤ y.max) : Fair R (s.setBody o b) :=
  h.setObject (fun _ => hkept) hcap

theorem setThread (h : Fair R s) {x : Thread} (hx : ∀ w ∈ x.wait, w.Once R) :
    Fair R (s.setThread t x) where
  known := h.known
  kept := h.kept
  capacity := h.capacity
  once t' w hw := by
    by_cases ht : t' = t
    · subst ht
      rw [State.setThread_thread, Function.update_self] at hw
      exact hx w hw
    · rw [State.setThread_thread, Function.update_of_ne ht] at hw
      exact h.once t' w hw
  granted := h.granted

theorem setThread_same (h : Fair R s) {x : Thread} (hx : x.wait = (s.thread t).wait) :
    Fair R (s.setThread t x) := by
  apply h.setThread
  rw [hx]
  exact h.once t

theorem setProcess (h : Fair R s) (p : ObjId) (x : Process) : Fair R (s.setProcess p x) :=
  h.of_eq rfl rfl rfl rfl

theorem note (h : Fair R s) {n : Notice}
    (hn : ∀ o t signaled abandoned, n = .satisfied o t signaled abandoned → signaled = true) :
    Fair R (s.note n) where
  known := h.known
  kept := h.kept
  capacity := h.capacity
  once := h.once
  granted o t signaled abandoned hm := by
    obtain heq | hm := List.mem_cons.mp hm
    · exact hn o t signaled abandoned heq.symm
    · exact h.granted o t signaled abandoned hm

end Fair

/-! ## Computations -/

theorem grants_get {f : State → M α}
    (h : ∀ s, Fair R s → wp (f s) (fun _ s' => Fair R s') Unmet s) : Grants R (get >>= f) := by
  intro s hs
  rw [wp_bind]
  exact h s hs

theorem grants_set {f : PUnit → M α} {r : State} (hr : Fair R r) (hf : Grants R (f ⟨⟩)) :
    wp (set r >>= f) (fun _ s' => Fair R s') Unmet s := by
  rw [wp_bind, wp_set]
  exact hf r hr

theorem wp_assert_of {site : Site} {c : Bool} {f : PUnit → M α} {Q : α → State → Prop}
    (hsite : site ≠ .semaphoreSatisfied) (h : c = true → wp (f ⟨⟩) Q Unmet s) :
    wp (assert site c >>= f) Q Unmet s := by
  rw [wp_bind]
  unfold assert
  cases c with
  | true => exact h rfl
  | false => exact fun heq => hsite (Fault.assertion.inj heq)

theorem grants_forM {l : List α} {f : α → M PUnit} (h : ∀ a, Grants R (f a)) :
    Grants R (forM l f) := by
  intro s hs
  exact wp_forM (I := Fair R) (fun a _ s' hs' => h a s' hs') hs

/-! ## References -/

theorem grants_grabObject (o : ObjId) : Grants R (grabObject o) :=
  grants_get fun _ hs => wp_assert_of (by decide) fun _ => hs.setHeader rfl

theorem grants_addTimeoutUser (when_ : Time) (callback : TimeoutCallback) (mem : Bool) :
    Grants R (addTimeoutUser when_ callback mem) := by
  intro s hs
  unfold addTimeoutUser
  cases mem with
  | false => exact hs.of_eq rfl rfl rfl rfl
  | true => exact hs.of_eq rfl rfl rfl rfl

theorem grants_removeTimeoutUser (user : ℕ) : Grants R (removeTimeoutUser user) := by
  refine grants_get fun s hs => ?_
  rw [wp_ite]
  exact ⟨fun _ => hs.of_eq rfl rfl rfl rfl, fun _ => (by decide : Unmet .badPointer)⟩

theorem grants_releaseWith {destroy : M PUnit} (hd : Grants R destroy) (o : ObjId) :
    Grants R (releaseWith destroy o) := by
  refine grants_get fun s hs => wp_assert_of (by decide) fun _ => grants_set (hs.setHeader rfl) ?_
  refine .ite (fun _ => ?_) fun _ => .pure _
  intro s' hs'
  refine wp_assert_of (by decide) fun _ => ?_
  exact hd.bind (fun _ => .modify fun _ h => h.free o) s' hs'

theorem grants_releaseProcess (p : ObjId) : Grants R (releaseProcess p) := by
  refine grants_releaseWith (grants_get fun s hs => ?_) p
  unfold assert
  rw [wp_ite]
  exact ⟨fun _ => hs, fun _ => (by decide : Unmet (.assertion .processDestroy))⟩

theorem grants_cleanupThread (t : ObjId) : Grants R (cleanupThread t) :=
  .modify fun _ hs => hs.setThread_same rfl

theorem grants_releaseThread (t : ObjId) : Grants R (releaseThread t) :=
  grants_releaseWith ((grants_cleanupThread t).bind
    fun _ => grants_get fun s hs => grants_releaseProcess _ s hs) t

theorem grants_timerDestroy (o : ObjId) : Grants R (timerDestroy o) := by
  refine grants_get fun s hs => ?_
  cases (s.object o).body with
  | timer x =>
    dsimp only
    cases x.timeout with
    | none =>
      cases x.thread with
      | none => exact hs
      | some t => exact grants_releaseThread t s hs
    | some user =>
      cases x.thread with
      | none => exact (grants_removeTimeoutUser user).bind (fun _ => .pure _) s hs
      | some t => exact (grants_removeTimeoutUser user).bind (fun _ => grants_releaseThread t) s hs
  | _ => exact (by decide : Unmet (.assertion .objectOps))

/-- A mutex is repeatable, whatever its owner and its count. -/
theorem Fair.setMutex (h : Fair R s) {m : ObjId} {x : Mutex} (hm : (s.object m).body = .mutex x)
    (y : Mutex) : Fair R (s.setBody m (.mutex y)) := by
  apply h.setBody
  · rw [← h.kept m (by rw [hm]; exact fun hne => by cases hne), hm]
    rfl
  · exact fun _ hy => by cases hy

theorem Fair.disownMutex (h : Fair R s) {m : ObjId} {x : Mutex} (hm : (s.object m).body = .mutex x)
    (t : ObjId) (y : Mutex) : Fair R (s.disownMutex m t y) := by
  have ht : Fair R (s.setThread t
      { s.thread t with mutexList := (s.thread t).mutexList.erase m }) := h.setThread_same rfl
  exact ht.setMutex hm _

theorem grants_unlinkMutex (m : ObjId) : Grants R (unlinkMutex m) := by
  refine grants_get fun s hs => ?_
  cases hm : (s.object m).body with
  | mutex x =>
    dsimp only
    cases x.owner with
    | none => exact (by decide : Unmet .badPointer)
    | some t => exact hs.disownMutex hm t x
  | _ => exact (by decide : Unmet (.assertion .objectOps))

theorem grants_mutexDestroy (m : ObjId) : Grants R (mutexDestroy m) := by
  refine grants_get fun s hs => ?_
  cases hm : (s.object m).body with
  | mutex x =>
    dsimp only
    rw [wp_ite]
    exact ⟨fun _ => hs, fun _ => grants_set (hs.setMutex hm _) (grants_unlinkMutex m)⟩
  | _ => exact (by decide : Unmet (.assertion .objectOps))

theorem grants_releaseObject (o : ObjId) : Grants R (releaseObject o) := by
  refine grants_get fun s hs => ?_
  cases (s.object o).body with
  | event e => exact grants_releaseWith (.pure _) o s hs
  | semaphore x => exact grants_releaseWith (.pure _) o s hs
  | mutex x => exact grants_releaseWith (grants_mutexDestroy o) o s hs
  | timer x => exact grants_releaseWith (grants_timerDestroy o) o s hs
  | thread => exact grants_releaseThread o s hs
  | process => exact grants_releaseProcess o s hs
  | freed => exact (by decide : Unmet .badPointer)

/-! ## Taking objects -/

/-- What is signaled apart from the object stays so, and the object if it is repeatable. -/
def StillSignaled (R : ObjId → Bool) (o t : ObjId) (s s' : State) : Prop :=
  ∀ o', (o' = o → R o = true) → s.signaled o' t = true → s'.signaled o' t = true

theorem signaled_congr {o' : ObjId} (hb : (s'.object o').body = (s.object o').body)
    (ht : (s'.thread o').state = (s.thread o').state) (hp : s'.process = s.process) :
    s'.signaled o' t = s.signaled o' t := by
  unfold State.signaled
  rw [hb, ht, hp]

theorem stillSignaled_setBody {b : Body} (hb : R o = true → s.signaled o t = true →
    (s.setBody o b).signaled o t = true) : StillSignaled R o t s (s.setBody o b) := by
  intro o' ho' hsig
  by_cases heq : o' = o
  · subst heq
    exact hb (ho' rfl) hsig
  · have hcongr : (s.setBody o b).signaled o' t = s.signaled o' t := by
      refine signaled_congr ?_ rfl rfl
      show (Function.update s.object o _ o').body = _
      rw [Function.update_of_ne heq]
    rw [hcongr]
    exact hsig

/-- The object is not repeatable. -/
theorem stillSignaled_of_not_repeatable {b : Body} (h : Fair R s) (hne : (s.object o).body ≠ .freed)
    (hrep : (s.object o).body.repeatable = false) : StillSignaled R o t s (s.setBody o b) := by
  apply stillSignaled_setBody
  intro hR
  rw [← h.kept o hne, hrep] at hR
  cases hR

theorem signaled_mutex {x : Mutex} (hb : (s.object o).body = .mutex x) (hx : x.owner = some t) :
    s.signaled o t = true := by
  unfold State.signaled
  rw [hb]
  simp [hx]

theorem setBody_body (s : State) (o : ObjId) (b : Body) : ((s.setBody o b).object o).body = b := by
  show (Function.update s.object o _ o).body = b
  rw [Function.update_self]

/-- A mutex is taken by the thread that owns it then. -/
theorem wp_mutexSatisfied {x : Mutex} (h : Fair R s) (hm : (s.object o).body = .mutex x)
    (hsig : s.signaled o t = true) :
    wp (mutexSatisfied o t x) (fun _ s' => Fair R s' ∧ StillSignaled R o t s s') Unmet s := by
  unfold mutexSatisfied
  rw [wp_bind, wp_get]
  refine wp_assert_of (by decide) fun howner => ?_
  have hthread : Fair R (s.setThread t
      { s.thread t with mutexList := o :: (s.thread t).mutexList }) := h.setThread_same rfl
  by_cases h0 : x.count = 0
  · simp only [if_pos h0]
    refine wp_assert_of (by decide) fun _ => ?_
    refine ⟨hthread.setMutex hm _, fun o' _ hsig' => ?_⟩
    by_cases heq : o' = o
    · subst heq
      exact signaled_mutex (setBody_body _ _ _) rfl
    · have hstate : ((Function.update s.thread t
          { s.thread t with mutexList := o :: (s.thread t).mutexList }) o').state =
            (s.thread o').state := by
        by_cases ho : o' = t
        · rw [ho, Function.update_self]
        · rw [Function.update_of_ne ho]
      have hbody : (Function.update s.object o
          { s.object o with body := .mutex ⟨some t, 1, false⟩ } o').body = (s.object o').body := by
        rw [Function.update_of_ne heq]
      unfold State.signaled at hsig' ⊢
      simp only [State.setBody, State.setObject_object, State.setThread_object, hbody,
        State.setObject_thread, State.setThread_thread, hstate, State.setObject_process,
        State.setThread_process]
      exact hsig'
  · simp only [if_neg h0]
    have hown : x.owner = some t := by simpa [h0] using howner
    refine ⟨h.setMutex hm _, stillSignaled_setBody fun _ _ => ?_⟩
    exact signaled_mutex (setBody_body _ _ _) hown

/-- What is signaled can be taken. -/
theorem wp_satisfiedOp (h : Fair R s) (hsig : s.signaled o t = true) :
    wp (satisfiedOp o t) (fun _ s' => Fair R s' ∧ StillSignaled R o t s s') Unmet s := by
  have hrefl : Fair R s ∧ StillSignaled R o t s s := ⟨h, fun _ _ hsig' => hsig'⟩
  have hkept := h.kept o
  unfold satisfiedOp
  rw [wp_bind, wp_get]
  cases hb : (s.object o).body with
  | event e =>
    dsimp only
    rw [wp_ite]
    refine ⟨fun _ => hrefl, fun hauto => ?_⟩
    have hlive : (s.object o).body ≠ .freed := by
      rw [hb]
      exact fun hf => by cases hf
    have hrep : (s.object o).body.repeatable = false := by
      rw [hb]
      exact Bool.eq_false_iff.mpr hauto
    rw [wp_bind, wp_set]
    refine ⟨h.setBody ?_ fun _ hy => (by cases hy), stillSignaled_of_not_repeatable h hlive hrep⟩
    rw [← hkept hlive, hb]
    rfl
  | semaphore x =>
    have hpos : 0 < x.count := by
      unfold State.signaled at hsig
      rw [hb] at hsig
      exact of_decide_eq_true hsig
    dsimp only
    rw [wp_bind]
    unfold assert
    rw [if_pos (decide_eq_true (Nat.ne_of_gt hpos)), wp_pure, wp_bind, wp_set]
    have hlive : (s.object o).body ≠ .freed := by
      rw [hb]
      exact fun hf => by cases hf
    have hrep : (s.object o).body.repeatable = false := by
      rw [hb]
      rfl
    refine ⟨h.setBody ?_ fun y hy => ?_, stillSignaled_of_not_repeatable h hlive hrep⟩
    · rw [← hkept hlive, hb]
      rfl
    · cases hy
      exact Nat.le_trans (Nat.sub_le _ _) (h.capacity o x hb)
  | mutex x => exact wp_mutexSatisfied h hb hsig
  | timer x =>
    dsimp only
    rw [wp_ite]
    refine ⟨fun _ => hrefl, fun hauto => ?_⟩
    have hlive : (s.object o).body ≠ .freed := by
      rw [hb]
      exact fun hf => by cases hf
    have hrep : (s.object o).body.repeatable = false := by
      rw [hb]
      exact Bool.eq_false_iff.mpr hauto
    rw [wp_bind, wp_set]
    refine ⟨h.setBody ?_ fun _ hy => (by cases hy), stillSignaled_of_not_repeatable h hlive hrep⟩
    rw [← hkept hlive, hb]
    rfl
  | thread => exact hrefl
  | process => exact hrefl
  | freed => exact (by decide : Unmet .badPointer)

theorem wp_satisfied (h : Fair R s) (hsig : s.signaled o t = true) :
    wp (satisfied o t) (fun _ s' => Fair R s' ∧ StillSignaled R o t s s') Unmet s := by
  unfold satisfied
  rw [wp_bind, wp_get, wp_bind]
  refine wp_mono (wp_satisfiedOp h hsig) fun abandoned s' h' => ?_
  rw [wp_bind, wp_modify]
  refine ⟨h'.1.note fun o' t' signaled abandoned' heq => ?_, fun o' ho' hsig' => h'.2 o' ho' hsig'⟩
  cases heq
  exact hsig

theorem wp_satisfyAll {l : List WaitQueueEntry} (h : Fair R s)
    (honce : l.Pairwise fun e e' => e.obj = e'.obj → R e.obj = true)
    (hsig : ∀ e ∈ l, s.signaled e.obj t = true) :
    wp (satisfyAll t l) (fun _ s' => Fair R s') Unmet s := by
  induction l generalizing s with
  | nil => exact h
  | cons e l ih =>
    obtain ⟨hhead, htail⟩ := List.pairwise_cons.mp honce
    unfold satisfyAll
    rw [wp_bind]
    refine wp_mono (wp_satisfied h (hsig e List.mem_cons_self)) fun abandoned s' h' => ?_
    rw [wp_bind]
    refine wp_mono (ih h'.1 htail fun e' he' => ?_) fun _ _ h'' => h''
    exact h'.2 e'.obj (fun heq => hhead e' he' heq.symm) (hsig e' (List.mem_cons_of_mem e he'))

theorem signaled_of_firstSignaled {i : ℕ} {l : List WaitQueueEntry} {r : ℕ × WaitQueueEntry}
    (h : s.firstSignaled t i l = some r) : s.signaled r.2.obj t = true := by
  induction l generalizing i with
  | nil => cases h
  | cons e l ih =>
    unfold State.firstSignaled at h
    by_cases he : s.signaled e.obj t = true
    · rw [if_pos he] at h
      cases h
      exact he
    · rw [if_neg he] at h
      exact ih h

theorem grants_checkWait (t : ObjId) : Grants R (checkWait t) := by
  refine grants_get fun s hs => ?_
  rw [wp_ite]
  refine ⟨fun _ => hs, fun _ => ?_⟩
  cases hw : (s.thread t).wait with
  | nil => exact (by decide : Unmet (.assertion .checkWait))
  | cons w rest =>
    dsimp only
    rw [wp_ite]
    refine ⟨fun hall => ?_, fun _ => ?_⟩
    · rw [wp_ite]
      refine ⟨fun hsig => ?_, fun _ => hs⟩
      rw [wp_bind]
      refine wp_mono (wp_satisfyAll hs (hs.once t w (hw ▸ List.mem_cons_self) hall) fun e he => ?_)
        fun _ _ h => h
      exact List.all_eq_true.mp hsig e he
    · cases hfirst : s.firstSignaled t 0 w.queues with
      | none => exact hs
      | some r =>
        dsimp only
        rw [wp_bind]
        exact wp_mono (wp_satisfied hs (signaled_of_firstSignaled hfirst)) fun _ _ h => h.1

/-! ## The end of a wait -/

theorem grants_removeQueue (e : WaitQueueEntry) : Grants R (removeQueue e) :=
  Secures.bind (.modify fun _ hs => hs.setHeader rfl) fun _ => grants_releaseObject e.obj

theorem grants_endWait (t : ObjId) : Grants R (endWait t) := by
  refine grants_get fun s hs => ?_
  cases hw : (s.thread t).wait with
  | nil => exact (by decide : Unmet (.assertion .endWait))
  | cons w rest =>
    have hrest : Grants R (modify fun s : State =>
        s.setThread t { s.thread t with wait := rest }) :=
      .modify fun _ h => h.setThread fun w' hw' => hs.once t w' (hw ▸ List.mem_cons_of_mem w hw')
    refine (grants_forM grants_removeQueue).bind (fun _ => ?_) s hs
    cases w.user with
    | none => exact hrest
    | some user => exact (grants_removeTimeoutUser user).bind fun _ => hrest

/-! ## Waking and killing -/

section
variable {writeOk : ℕ → Bool} {kill : ObjId → M PUnit}

theorem grants_sendThreadWakeup (hk : ∀ t, Grants R (kill t)) (t : ObjId) (cookie : Cookie)
    (signaled : Status) : Grants R (sendThreadWakeup writeOk kill t cookie signaled) := by
  refine grants_get fun s hs => ?_
  have hnote : Fair R (s.note (.wakeup t cookie signaled)) := hs.note fun _ _ _ _ h => by cases h
  refine grants_set (hnote.of_eq rfl rfl rfl rfl) ?_
  exact .ite (fun _ => .pure _) fun _ => (hk t).bind fun _ => .pure _

theorem grants_wakeThreadLoop (hk : ∀ t, Grants R (kill t)) (t : ObjId) (n count : ℕ) :
    Grants R (wakeThreadLoop writeOk kill t n count) := by
  induction n generalizing count with
  | zero => exact .pure _
  | succ n ih =>
    refine grants_get fun s hs => ?_
    cases (s.thread t).wait with
    | nil => exact hs
    | cons w rest =>
      refine (grants_checkWait t).bind (fun r => ?_) s hs
      cases r with
      | none => exact .pure _
      | some signaled =>
        refine (grants_endWait t).bind fun _ => (grants_sendThreadWakeup hk t _ _).bind fun b => ?_
        cases b with
        | false => exact .pure _
        | true => exact ih (count + 1)

theorem grants_wakeThread (hk : ∀ t, Grants R (kill t)) (t : ObjId) :
    Grants R (wakeThread writeOk kill t) :=
  grants_get fun s hs => grants_wakeThreadLoop hk t _ 0 s hs

theorem grants_wakeUpLoop (hk : ∀ t, Grants R (kill t)) (o : ObjId) (n : ℕ)
    (ptr : WaitQueueEntry) (next : Option WaitQueueEntry) (max : ℕ) :
    Grants R (wakeUpLoop writeOk kill o n ptr next max) := by
  induction n generalizing ptr next max with
  | zero => exact .throw (by decide)
  | succ n ih =>
    refine (grants_wakeThread hk ptr.thread).bind fun woken => .ite (fun _ => .pure _) fun _ => ?_
    cases next with
    | none => exact .pure _
    | some e =>
      refine grants_get fun s hs => ?_
      cases nextEntry e (s.object o).waitQueue with
      | none => exact (by decide : Unmet .badPointer)
      | some next => exact ih e next _ s hs

theorem grants_wakeUp (hk : ∀ t, Grants R (kill t)) (o : ObjId) (max : ℕ) :
    Grants R (wakeUp writeOk kill o max) := by
  refine grants_get fun s hs => ?_
  cases (s.object o).waitQueue with
  | nil => exact hs
  | cons e l => exact grants_wakeUpLoop hk o _ e _ max s hs

theorem grants_doRelease (hk : ∀ t, Grants R (kill t)) (m : ObjId) :
    Grants R (doRelease writeOk kill m) := by
  refine grants_get fun s hs => ?_
  cases (s.object m).body with
  | mutex x =>
    refine wp_assert_of (by decide) fun _ => ?_
    exact (grants_unlinkMutex m).bind (fun _ => grants_wakeUp hk m 0) s hs
  | _ => exact (by decide : Unmet (.assertion .objectOps))

theorem grants_abandonMutexesLoop (hk : ∀ t, Grants R (kill t)) (t : ObjId) (n : ℕ) :
    Grants R (abandonMutexesLoop writeOk kill t n) := by
  induction n with
  | zero =>
    refine grants_get fun s hs => ?_
    rw [wp_ite]
    exact ⟨fun _ => hs, fun _ => (by decide : Unmet .outOfFuel)⟩
  | succ n ih =>
    refine grants_get fun s hs => ?_
    cases (s.thread t).mutexList with
    | nil => exact hs
    | cons m rest =>
      dsimp only
      cases hm : (s.object m).body with
      | mutex x =>
        refine wp_assert_of (by decide) fun _ => ?_
        refine grants_set ((hs.setMutex hm _).note fun _ _ _ _ h => by cases h) ?_
        exact (grants_doRelease hk m).bind fun _ => ih
      | _ => exact (by decide : Unmet .badPointer)

theorem grants_abandonMutexes (hk : ∀ t, Grants R (kill t)) (t : ObjId) :
    Grants R (abandonMutexes writeOk kill t) :=
  grants_get fun s hs => grants_abandonMutexesLoop hk t _ s hs

theorem grants_processKilled (hk : ∀ t, Grants R (kill t)) (p : ObjId) :
    Grants R (processKilled writeOk kill p) := by
  refine grants_get fun s hs => wp_assert_of (by decide) fun _ => ?_
  refine grants_set (hs.setProcess _ _) ?_
  exact (grants_forM fun h : HandleEntry => grants_releaseObject h.obj).bind
    fun _ => grants_wakeUp hk p 0

theorem grants_removeProcessThread (hk : ∀ t, Grants R (kill t)) (p t : ObjId) :
    Grants R (removeProcessThread writeOk kill p t) := by
  refine grants_get fun s hs => wp_assert_of (by decide) fun _ => wp_assert_of (by decide) fun _ => ?_
  refine grants_set (hs.setProcess _ _) (.ite (fun _ => ?_) fun _ => grants_releaseObject t)
  exact (grants_processKilled hk p).bind fun _ => grants_releaseObject t

theorem grants_killRest (hk : ∀ t, Grants R (kill t)) (t : ObjId) :
    Grants R (killRest writeOk kill t) := by
  have htail : Grants R (do
      abandonMutexes writeOk kill t
      wakeUp writeOk kill t 0
      cleanupThread t
      let s ← get
      removeProcessThread writeOk kill (s.thread t).process t
      releaseObject t) :=
    (grants_abandonMutexes hk t).bind fun _ => (grants_wakeUp hk t 0).bind fun _ =>
      (grants_cleanupThread t).bind fun _ => grants_get fun s hs =>
        (grants_removeProcessThread hk _ t).bind (fun _ => grants_releaseObject t) s hs
  refine grants_get fun s hs => ?_
  cases (s.thread t).wait.isEmpty with
  | true => exact htail s hs
  | false =>
    exact (grants_forM fun _ => grants_endWait t).bind
      (fun _ => (grants_sendThreadWakeup hk t 0 statusPending).bind fun _ => htail) s hs

theorem grants_killThreadAt (writeOk : ℕ → Bool) (n : ℕ) (t : ObjId) :
    Grants R (killThreadAt writeOk n t) := by
  induction n generalizing t with
  | zero =>
    refine grants_get fun s hs => ?_
    rw [wp_ite]
    exact ⟨fun _ => hs, fun _ => (by decide : Unmet .outOfFuel)⟩
  | succ n ih =>
    refine grants_get fun s hs => ?_
    rw [wp_ite]
    refine ⟨fun _ => hs, fun _ => ?_⟩
    have ht : Fair R (s.setThread t { s.thread t with state := .terminated }) := hs.setThread_same rfl
    exact grants_set (ht.of_eq rfl rfl rfl rfl) (grants_killRest (fun t => ih t) t)

theorem grants_killThread (writeOk : ℕ → Bool) (t : ObjId) : Grants R (killThread writeOk t) :=
  grants_get fun s hs => grants_killThreadAt writeOk _ t s hs

end

end Wine.Server
