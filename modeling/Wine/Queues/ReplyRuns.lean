import Wine.Queues.Replied
import Wine.Queues.Waits

/-!
# The bit of replied results over the runs of the server

A step is orderly unless it pushes a result over a replied one, or cancels a result above a replied
one. In a run of orderly steps `QS_SMRESULT` says whether the top results are replied.
-/

namespace Wine.Queues
open Wine.Lib
open Wine.Server (Status)

variable {s s' : State} {q r : ℕ} {queue other : Queue} {res : MessageResult} {x : Option ℕ}
  {α : Type}

/-! ## The orderly steps -/

/-- The results that the thread waits for, the last one first. -/
def State.waitsOf (s : State) (thread : ℕ) : List ℕ :=
  ((s.queueOf thread).bind s.queues).elim [] (·.sendResult)

/-- Whether the result at this place of the stack of the thread has been replied to. -/
def State.repliedAt (s : State) (thread i : ℕ) : Bool :=
  ((s.waitsOf thread)[i]?.bind s.results).any (·.replied)

/-- Whether a send puts a result on the stack of the sender: it waits for a reply, the receiver has a
queue and is not given up as hung, and there is memory for the message, its data and the result. -/
def State.pushes (s : State) (thread : Option ℕ) (hung : Bool) (req : SendArgs) : Bool :=
  (thread.bind s.queueOf).isSome && !(req.abortIfHung && hung) && s.grants s.allocs &&
    match req.type with
    | .ascii | .unicode => s.grants (s.allocs + 1)
    | .otherProcess =>
      s.grants (s.allocs + 1) && (req.dataSize == 0 || s.grants (s.allocs + 2))
    | _ => false

/-- No result is pushed over a replied one, and none above a replied one is cancelled. -/
def State.orderly (s : State) : Action → Bool
  | .sendMessage current thread hung req => !(s.pushes thread hung req && s.repliedAt current 0)
  | .getMessageReply current cancel =>
    !(cancel && !s.repliedAt current 0 && s.repliedAt current 1)
  | _ => true

theorem repliedAt_zero {current : ℕ} (hc : s.queueOf current = some q)
    (hq : s.queues q = some queue) :
    s.repliedAt current 0 = true ↔ s.TopReplied queue := by
  simp only [State.repliedAt, State.waitsOf, hc, Option.bind_some, hq, Option.elim]
  constructor
  · intro h
    obtain ⟨res, hr, hrep⟩ := (Option.any_eq_true _ _).mp h
    obtain ⟨r, htop, hres⟩ := Option.bind_eq_some_iff.mp hr
    rw [← List.head?_eq_getElem?] at htop
    obtain ⟨rest, htop⟩ := List.head?_eq_some_iff.mp htop
    exact ⟨r, rest, res, htop, hres, hrep⟩
  · rintro ⟨r, rest, res, htop, hres, hrep⟩
    rw [htop, ← List.head?_eq_getElem?, List.head?_cons, Option.bind_some, hres, Option.any_some]
    exact hrep

/-! ## Sends -/

/-- The queue, if there is one, has not got the bit. -/
def Idle (o : Option ℕ) (s : State) : Prop :=
  ∀ q queue, o = some q → s.queues q = some queue → ¬ queue.Has qsSmresult

/-- The address is that of a result to be. -/
structure State.Unused (s : State) (r : ℕ) : Prop where
  lt : r < s.next
  result : s.results r = none
  calls : ∀ q queue, s.queues q = some queue → r ∉ queue.callbackResult

theorem Tracks.unused (h : Tracks x s) {n : ℕ} (hn : s.next < n) :
    State.Unused { s with next := n } s.next where
  lt := hn
  result := h.fresh s.next (Nat.le_refl _)
  calls q queue hq hm := absurd (h.calls q queue hq s.next hm).1 (Nat.lt_irrefl _)

/-- A new result goes in the list of its sender: on the stack, if no replied result is there, or in the
list of the callbacks. -/
theorem Tracks.link (h : Tracks none s) (res : MessageResult) (hu : s.Unused r)
    (hq : s.queues q = some queue) (hs : res.sender = some q) (hrep : res.replied = false)
    (hother : res.callbackMsg ≠ none ∧
        other = { queue with callbackResult := r :: queue.callbackResult } ∨
      res.callbackMsg = none ∧ ¬ queue.Has qsSmresult ∧
        other = { queue with sendResult := r :: queue.sendResult }) :
    Tracks none ((s.setQueue q (some other)).setResult r (some res)) := by
  have hne : ∀ i old, s.queues i = some old → r ∉ old.sendResult := by
    intro i old hold hm
    obtain ⟨res', hres', -⟩ := h.sent i old hold r hm
    rw [hu.result] at hres'
    cases hres'
  have hsend : ∀ c ∈ other.sendResult, c ∈ queue.sendResult ∨ c = r ∧ res.callbackMsg = none := by
    intro c hm
    obtain ⟨-, rfl⟩ | ⟨hc, -, rfl⟩ := hother
    · exact .inl hm
    · exact (List.mem_cons.mp hm).elim (fun heq => .inr ⟨heq, hc⟩) .inl
  have hcall : ∀ c ∈ other.callbackResult, c ∈ queue.callbackResult ∨ c = r := by
    intro c hm
    obtain ⟨-, rfl⟩ | ⟨-, -, rfl⟩ := hother
    · exact (List.mem_cons.mp hm).symm
    · exact .inl hm
  have hold : ∀ i old, s.queues i = some old → ∀ c ∈ old.sendResult, ∃ res',
      ((s.setQueue q (some other)).setResult r (some res)).results c = some res' ∧
        res'.sender = some i ∧ res'.callbackMsg = none := by
    intro i old hi c hm
    obtain ⟨res', hres', hsame⟩ := h.sent i old hi c hm
    have hcr : c ≠ r := fun heq => hne i old hi (heq ▸ hm)
    exact ⟨res', (State.setResult_of_ne hcr).trans hres', hsame⟩
  constructor
  · intro i queue' hi c hm
    by_cases hiq : i = q
    · subst hiq
      obtain rfl := Option.some.inj (State.setQueue_self.symm.trans hi)
      obtain hm | ⟨rfl, hc⟩ := hsend c hm
      · exact hold i queue hq c hm
      · exact ⟨res, State.setResult_self, hs, hc⟩
    · exact hold i queue' ((State.setQueue_of_ne hiq).symm.trans hi) c hm
  · intro i queue' hi c hm
    have hmem : c = r ∧ i = q ∨ ∃ old, s.queues i = some old ∧ c ∈ old.callbackResult := by
      by_cases hiq : i = q
      · subst hiq
        obtain rfl := Option.some.inj (State.setQueue_self.symm.trans hi)
        exact (hcall c hm).elim (fun hm => .inr ⟨queue, hq, hm⟩) fun heq => .inl ⟨heq, rfl⟩
      · exact .inr ⟨queue', (State.setQueue_of_ne hiq).symm.trans hi, hm⟩
    obtain ⟨rfl, rfl⟩ | ⟨old, ho, hm⟩ := hmem
    · refine ⟨hu.lt, fun new hnew => ?_⟩
      obtain rfl := Option.some.inj (State.setResult_self.symm.trans hnew)
      exact .inr hs
    · have hcr : c ≠ r := fun heq => hu.calls i old ho (heq ▸ hm)
      obtain ⟨hlt, hsame⟩ := h.calls i old ho c hm
      exact ⟨hlt, fun new hnew => hsame new ((State.setResult_of_ne hcr).symm.trans hnew)⟩
  · intro i queue' hi
    by_cases hiq : i = q
    · subst hiq
      obtain rfl := Option.some.inj (State.setQueue_self.symm.trans hi)
      obtain ⟨-, rfl⟩ | ⟨-, -, rfl⟩ := hother
      · exact h.nodup i queue hq
      · exact List.nodup_cons.mpr ⟨hne i queue hq, h.nodup i queue hq⟩
    · exact h.nodup i queue' ((State.setQueue_of_ne hiq).symm.trans hi)
  · intro i hi
    have hir : i ≠ r := fun heq => absurd hu.lt (Nat.not_lt.mpr (heq ▸ hi))
    exact (State.setResult_of_ne hir).trans (h.fresh i hi)
  · intro i queue' hi hx
    have hsame : ∀ old : Queue, s.queues i = some old → ∀ c ∈ old.sendResult,
        ((s.setQueue q (some other)).setResult r (some res)).results c = s.results c :=
      fun old ho c hm => State.setResult_of_ne fun heq => hne i old ho (heq ▸ hm)
    by_cases hiq : i = q
    · subst hiq
      obtain rfl := Option.some.inj (State.setQueue_self.symm.trans hi)
      obtain ⟨-, rfl⟩ | ⟨-, hbit, rfl⟩ := hother
      · refine (h.bit i queue hq hx).trans (topReplied_congr ?_ (hsame queue hq)).symm
        rfl
      · refine iff_of_false hbit ?_
        rintro ⟨c, rest, new, htop, hnew, hreplied⟩
        obtain ⟨rfl, -⟩ := List.cons.inj htop
        obtain rfl := Option.some.inj (State.setResult_self.symm.trans hnew)
        rw [hrep] at hreplied
        cases hreplied
    · have ho := (State.setQueue_of_ne hiq).symm.trans hi
      exact (h.bit i queue' ho hx).trans (topReplied_congr rfl (hsame queue' ho)).symm

theorem tracks_linkResult {sendQueue : Option ℕ} {callbackMsg : Option Message} (recvQueue : ℕ)
    (msg : Message) (timeout : Bool) (h : Tracks none s) (hu : s.Unused r)
    (hp : callbackMsg.isSome ∨ Idle sendQueue s) :
    wp (linkResult sendQueue recvQueue msg timeout r callbackMsg) (fun _ s' => Tracks none s')
      (fun _ => True) s := by
  cases sendQueue with
  | none => trivial
  | some q =>
    simp only [linkResult, wp_bind]
    refine wp_getQueue.mpr ⟨fun queue hq => ?_, fun _ => trivial⟩
    simp only [setQueue, wp_modify, setResult, wp_pure]
    refine wp_addTimeoutUser fun pending n e => ?_
    refine (h.link ⟨some msg.id, some q, some recvQueue, false, 0, none, callbackMsg, 0, pending⟩ hu hq
      rfl rfl ?_).of_eq rfl rfl (Nat.le_refl _)
    cases callbackMsg with
    | some m => exact .inl ⟨Option.some_ne_none m, rfl⟩
    | none => exact .inr ⟨rfl, (hp.resolve_left (by simp)) q queue rfl hq, rfl⟩

/-- Whether an allocation succeeds is known beforehand. -/
theorem wp_alloc_grants {P : Bool → State → Prop} {E : Fault → Prop}
    (hp : ∀ e, P (s.grants s.allocs) { s with allocs := s.allocs + 1, error := e }) :
    wp alloc P E s := by
  simp only [Queues.alloc, malloc, wp_bind, wp_get, wp_set, wp_pure, wp_modify]
  split
  · exact hp s.error
  · exact hp _

theorem wp_memdup_grants {size : ℕ} {P : Bool → State → Prop} {E : Fault → Prop}
    (hzero : size = 0 → P true s) (hsize : size ≠ 0 → ∀ e, P (s.grants s.allocs)
      { s with allocs := s.allocs + 1, error := e }) : wp (memdup size) P E s := by
  rw [memdup, wp_ite]
  exact ⟨fun hne => wp_alloc_grants (hsize hne), fun heq => hzero (not_not.mp heq)⟩

theorem tracks_memdup (size : ℕ) : Keeps (Tracks x) (memdup size) :=
  .ite (fun _ => tracks_alloc) fun _ => .pure _

theorem wp_newAddress {P : ℕ → State → Prop} {E : Fault → Prop} :
    wp newAddress P E s ↔ P s.next { s with next := s.next + 1 } := Iff.rfl

theorem wp_threadQueue {P : Option ℕ → State → Prop} {E : Fault → Prop} {thread : ℕ} :
    wp (threadQueue thread) P E s ↔ P (s.queueOf thread) s := Iff.rfl

theorem tracks_allocMessageResult {sendQueue : Option ℕ} (recvQueue : ℕ) (msg : Message)
    (req : SendArgs) (h : Tracks none s)
    (hp : msg.type = .callback ∨ s.grants s.allocs = false ∨ Idle sendQueue s) :
    wp (allocMessageResult sendQueue recvQueue msg req) (fun _ s' => Tracks none s') (fun _ => True)
      s := by
  rw [allocMessageResult, wp_bind]
  refine wp_alloc_grants fun e => ?_
  have h₁ : Tracks none { s with allocs := s.allocs + 1, error := e } :=
    h.of_eq rfl rfl (Nat.le_refl _)
  rw [wp_ite]
  refine ⟨fun hgranted => ?_, fun _ => h₁⟩
  rw [wp_bind, wp_newAddress]
  have h₂ : Tracks none { s with allocs := s.allocs + 1, error := e, next := s.next + 1 } :=
    h.of_eq rfl rfl (Nat.le_succ _)
  have hu := h₁.unused (n := s.next + 1) (Nat.lt_succ_self _)
  rw [wp_ite]
  refine ⟨fun hcall => ?_, fun hcall => ?_⟩
  · rw [wp_bind]
    refine wp_alloc fun granted n e' => ?_
    cases granted with
    | false => exact h₂.of_eq rfl rfl (Nat.le_refl _)
    | true =>
      have h₃ : Tracks none { s with allocs := n, error := e', next := s.next + 1 + 1 } :=
        h₂.of_eq rfl rfl (Nat.le_succ _)
      have hu₃ : State.Unused { s with allocs := n, error := e', next := s.next + 1 + 1 } s.next :=
        ⟨Nat.lt_succ_of_lt hu.lt, hu.result, hu.calls⟩
      rw [if_pos rfl, wp_bind, wp_newAddress]
      exact tracks_linkResult recvQueue msg req.timeout h₃ hu₃ (.inl rfl)
  · have hidle : Idle sendQueue s := by
      refine (hp.resolve_left hcall).resolve_left fun hf => ?_
      rw [hf] at hgranted
      cases hgranted
    exact tracks_linkResult recvQueue msg req.timeout h₂ hu (.inr hidle)

theorem tracks_sendWithResult {sendQueue : Option ℕ} (recvQueue : ℕ) (msg : Message) (req : SendArgs)
    (h : Tracks none s) (hp : msg.type = .callback ∨ s.grants s.allocs = false ∨ Idle sendQueue s) :
    wp (sendWithResult sendQueue recvQueue msg req) (fun _ s' => Tracks none s') (fun _ => True)
      s := by
  rw [sendWithResult, wp_bind]
  refine wp_mono (tracks_allocMessageResult recvQueue msg req h hp) fun o s' h' => ?_
  cases o with
  | none => exact tracks_freeMessage msg s' h'
  | some r => exact tracks_deliver _ _ _ s' h'

theorem tracks_allocIf (c : Bool) : Keeps (Tracks x) (allocIf c) :=
  fun _ hs => wp_allocIf fun _ _ _ => hs.of_eq rfl rfl (Nat.le_refl _)

theorem wp_createMsgQueue (h : Tracks none s) (thread : ℕ) :
    wp (createMsgQueue thread) (fun o s' => Tracks none s' ∧ Idle o s') (fun _ => True) s := by
  rw [createMsgQueue, wp_bind]
  refine wp_mono (tracks_alloc s h) fun input s₁ h₁ => ?_
  rw [wp_bind]
  refine wp_mono (tracks_allocIf input s₁ h₁) fun granted s₂ h₂ => ?_
  rw [wp_ite]
  refine ⟨fun _ => ?_, fun _ => ⟨h₂, fun q queue ho => by cases ho⟩⟩
  rw [wp_bind]
  refine wp_mono (tracks_newAddress s₂ h₂) fun q s₃ h₃ => ?_
  refine ⟨(h₃.newQueue q).of_eq rfl rfl (Nat.le_refl _), fun i queue hi hqueue => ?_⟩
  cases hi
  obtain rfl := Option.some.inj (State.setQueue_self.symm.trans hqueue)
  exact fun hbit => hbit (by decide)

theorem wp_currentQueue (h : Tracks none s) (current : ℕ) :
    wp (getCurrentQueue current) (fun o s' => Tracks none s' ∧
      (s' = s ∧ o = s.queueOf current ∨ Idle o s')) (fun _ => True) s := by
  rw [getCurrentQueue, wp_bind, wp_threadQueue]
  cases hc : s.queueOf current with
  | none => exact wp_mono (wp_createMsgQueue h current) fun _ _ h' => ⟨h'.1, .inr h'.2⟩
  | some q => exact ⟨h, .inl ⟨rfl, rfl⟩⟩

theorem tracks_getCurrentQueue (current : ℕ) : Keeps (Tracks none) (getCurrentQueue current) :=
  fun _ hs => wp_mono (wp_currentQueue hs current) fun _ _ h => h.1

/-- A message that waits for a reply is not sent over a replied result. -/
theorem wp_handleSendMessage {current : ℕ} {thread : Option ℕ} {hung : Bool} {req : SendArgs}
    (h : Tracks none s) (ho : s.orderly (.sendMessage current thread hung req) = true) :
    wp (handleSendMessage current thread hung req) (fun _ s' => Tracks none s') (fun _ => True)
      s := by
  rw [handleSendMessage, wp_bind]
  refine wp_mono (wp_currentQueue h current) ?_
  rintro sendQueue s' ⟨h', hcur⟩
  have hp : s'.pushes thread hung req = false ∨ Idle sendQueue s' := by
    obtain ⟨rfl, rfl⟩ | hidle := hcur
    · cases hpush : s'.pushes thread hung req with
      | false => exact .inl rfl
      | true =>
        refine .inr fun q queue hc hq hbit => ?_
        have htop := (repliedAt_zero hc hq).mpr ((h'.bit q queue hq (by simp)).mp hbit)
        simp only [State.orderly, hpush, htop, Bool.and_self, Bool.not_true] at ho
        cases ho
    · exact .inr hidle
  clear hcur ho h
  cases thread with
  | none => exact tracks_setError _ s' h'
  | some thread =>
    rw [wp_bind, wp_threadQueue]
    cases ht : s'.queueOf thread with
    | none => exact tracks_setError _ s' h'
    | some recvQueue =>
      rw [wp_ite]
      refine ⟨fun _ => tracks_setError _ s' h', fun hhung => ?_⟩
      rw [wp_bind]
      refine wp_alloc_grants fun e => ?_
      rw [wp_ite]
      refine ⟨fun hgranted => ?_, fun _ => h'.of_eq rfl rfl (Nat.le_refl _)⟩
      rw [wp_bind]
      have h₁ : Tracks none { s' with allocs := s'.allocs + 1, error := e, next := s'.next + 1 } :=
        h'.of_eq rfl rfl (Nat.le_succ _)
      have hhung' : (req.abortIfHung && hung) = false := by simpa using hhung
      simp only [State.pushes, Option.bind_some, ht, Option.isSome_some, hhung', hgranted,
        Bool.not_false, Bool.and_self, Bool.true_and] at hp
      rw [wp_newAddress]
      cases htype : req.type with
      | ascii | unicode =>
        simp only [htype] at hp
        exact tracks_sendWithResult recvQueue _ req h₁ (.inr hp)
      | callback => exact tracks_sendWithResult recvQueue _ req h₁ (.inl rfl)
      | otherProcess =>
        simp only [htype] at hp
        rw [wp_bind]
        refine wp_memdup_grants (fun hzero => ?_) fun hsize e' => ?_
        · refine tracks_sendWithResult recvQueue _ req h₁ (.inr (hp.imp_left fun hf => ?_))
          simpa [hzero] using hf
        · rw [wp_ite]
          have h₂ : Tracks none
              { s' with allocs := s'.allocs + 2, error := e', next := s'.next + 1 } :=
            h'.of_eq rfl rfl (Nat.le_succ _)
          refine ⟨fun hcopied => ?_, fun _ => h₂⟩
          have hdata : s'.grants (s'.allocs + 1) = true := hcopied
          refine tracks_sendWithResult recvQueue _ req h₂ (.inr (hp.imp_left fun hf => ?_))
          simpa [hsize, hdata] using hf
      | notify => exact tracks_deliver _ _ _ _ h₁
      | posted =>
        rw [wp_bind]
        refine wp_mono (tracks_memdup req.dataSize _ h₁) fun copied s₂ h₂ => ?_
        rw [wp_ite]
        exact ⟨fun _ => tracks_deliver _ _ _ s₂ h₂, fun _ => h₂⟩
      | hardware | callbackResult | winevent => exact tracks_setError _ _ h₁

theorem tracks_postMessage (thread win msg wparam lparam : ℕ) :
    Keeps (Tracks x) (postMessage thread win msg wparam lparam) := by
  refine (tracks_threadQueue _).bind fun o => ?_
  cases o with
  | none => exact .pure _
  | some q =>
    refine tracks_alloc.bind fun granted => .ite (fun _ => ?_) fun _ => .pure _
    exact tracks_newAddress.bind fun id => tracks_deliver _ _ _

theorem tracks_postWinEvent (thread win event objectId childId info size : ℕ) :
    Keeps (Tracks x) (postWinEvent thread win event objectId childId info size) := by
  refine (tracks_threadQueue _).bind fun o => ?_
  cases o with
  | none => exact .pure _
  | some q =>
    refine tracks_alloc.bind fun granted => .ite (fun _ => ?_) fun _ => .pure _
    refine tracks_malloc.bind fun granted => .ite (fun _ => ?_) fun _ => .pure _
    exact tracks_newAddress.bind fun id => tracks_deliver _ _ _

theorem tracks_handlePostQuitMessage (current exitCode : ℕ) :
    Keeps (Tracks none) (handlePostQuitMessage current exitCode) := by
  refine (tracks_getCurrentQueue current).bind fun o => ?_
  cases o with
  | none => exact .pure _
  | some q =>
    refine tracks_getQueue fun queue s h hq => ?_
    refine tracks_setQueue h hq ⟨rfl, rfl, Iff.rfl⟩ (tracks_getQueue fun queue s h hq => ?_)
    exact h.setQueue hq (Queue.waits_setBits (by decide))

/-! ## The messages of the current thread -/

theorem tracks_pushResult (q : ℕ) (result : Option ℕ) : Keeps (Tracks x) (pushResult q result) := by
  cases result with
  | none => exact .pure _
  | some r =>
    refine tracks_getResult fun res s h hr => tracks_setResult h hr rfl rfl rfl fun s' h' _ => ?_
    refine tracks_getQueue (fun queue s h hq => ?_) s' h'
    exact h.setQueue hq ⟨rfl, rfl, Iff.rfl⟩

theorem tracks_receiveMessage (q : ℕ) (msg : Message) (maxSize : ℕ) :
    Keeps (Tracks x) (receiveMessage q msg maxSize) := by
  refine .ite (fun _ => (tracks_setError _).bind fun _ => .pure _) fun _ => ?_
  refine tracks_getQueue fun queue s h hq => tracks_setQueue h hq ⟨rfl, rfl, Iff.rfl⟩ ?_
  refine (tracks_pushResult q _).bind fun _ => tracks_getQueue fun queue s h hq => ?_
  refine tracks_setQueue h hq ?_ (.pure _)
  split
  · exact Queue.waits_clearBits (by decide)
  · exact ⟨rfl, rfl, Iff.rfl⟩

theorem tracks_getPostedMessage (q : ℕ) (req : GetArgs) :
    Keeps (Tracks x) (getPostedMessage q req) := by
  refine tracks_getQueue fun queue s h _ => ?_
  split
  · exact h
  · refine Keeps.ite (fun _ => (tracks_setError _).bind fun _ => .pure _) (fun _ => ?_) s h
    exact .ite (fun _ => (tracks_removeQueueMessage _ _ _).bind fun _ => .pure _) fun _ => .pure _

theorem tracks_getQuitMessage (q : ℕ) (remove : Bool) :
    Keeps (Tracks x) (getQuitMessage q remove) := by
  refine tracks_getQueue fun queue s h hq => ?_
  rw [wp_ite]
  refine ⟨fun _ => ?_, fun _ => h⟩
  rw [wp_ite]
  refine ⟨fun _ => tracks_setQueue h hq ?_ (.pure _), fun _ => h⟩
  split
  · exact ⟨rfl, rfl, Queue.has_clearBits_iff (by decide)⟩
  · exact ⟨rfl, rfl, Iff.rfl⟩

theorem tracks_getPaintOrTimer (q : ℕ) (req : GetArgs) :
    Keeps (Tracks x) (getPaintOrTimer q req) := by
  refine tracks_getQueue fun queue s h hq => ?_
  dsimp only
  split
  · exact h
  · split
    · refine tracks_setQueue h hq ?_ (.pure _)
      split
      · exact Queue.waits_restartTimer ..
      · exact ⟨rfl, rfl, Iff.rfl⟩
    · exact (tracks_setError _).bind (fun _ => .pure _) s h

theorem tracks_handleGetMessage (current : ℕ) (req : GetArgs) :
    Keeps (Tracks none) (handleGetMessage current req) := by
  refine (tracks_getCurrentQueue current).bind fun o => ?_
  cases o with
  | none => exact .pure _
  | some q =>
    refine tracks_getQueue fun queue s h hq => ?_
    cases queue.sendMsgs with
    | cons msg rest => exact Keeps.map _ (tracks_receiveMessage _ _ _) s h
    | nil =>
      dsimp only
      rw [wp_ite]
      refine ⟨fun _ => (tracks_setError _).bind (fun _ => .pure _) s h, fun _ => ?_⟩
      refine tracks_setQueue h hq ⟨rfl, rfl, Iff.rfl⟩ ?_
      refine (tracks_getPostedMessage q req).bind fun posted => ?_
      cases posted with
      | some reply => exact .pure _
      | none =>
        refine (tracks_getQuitMessage q _).bind fun quit => ?_
        cases quit with
        | some reply => exact .pure _
        | none => exact .ite (fun _ => .pure _) fun _ => tracks_getPaintOrTimer q req

theorem tracks_handleReplyMessage (current result : ℕ) (remove : Bool) (len : ℕ) :
    Keeps (Tracks x) (handleReplyMessage current result remove len) := by
  refine (tracks_threadQueue _).bind fun o => ?_
  cases o with
  | none => exact tracks_setError _
  | some q =>
    refine tracks_getQueue fun queue s h _ => ?_
    exact Keeps.ite (fun _ => .pure _) (fun _ => tracks_replyMessage _ _ _ _ _) s h

/-- A result above a replied one that is retrieved or cancelled in order is replied itself. -/
theorem topReplied_of_orderly {current top : ℕ} {cancel : Bool} {rest : List ℕ} {next : MessageResult}
    (hc : s.queueOf current = some q) (hq : s.queues q = some queue)
    (hsend : queue.sendResult = r :: top :: rest) (hr : s.results r = some res)
    (htop : s.results top = some next) (hnext : next.replied = true)
    (hgo : (res.replied || cancel) = true) (ho : s.orderly (.getMessageReply current cancel) = true) :
    s.TopReplied queue := by
  have hone : s.repliedAt current 1 = true := by
    simp only [State.repliedAt, State.waitsOf, hc, Option.bind_some, hq, Option.elim, hsend,
      List.getElem?_cons_succ, List.getElem?_cons_zero, htop, Option.any_some, hnext]
  cases hrep : res.replied with
  | true => exact ⟨r, _, res, hsend, hr, hrep⟩
  | false =>
    rw [hrep, Bool.false_or] at hgo
    simp only [State.orderly, hgo, hone, Bool.true_and, Bool.and_true, Bool.not_not] at ho
    exact (repliedAt_zero hc hq).mp ho

/-- The bit is cleared, since the result on top is not replied or there is none. -/
theorem wp_clearBit (h : Tracks (some q) s) (hq : s.queues q = some queue)
    (hnot : ¬ s.TopReplied queue) :
    wp (clearQueueBits q qsSmresult) (fun _ s' => Tracks none s') (fun _ => True) s := by
  have hset : Tracks (some q) (s.setQueue q (some (queue.clearBits qsSmresult))) :=
    h.setWaits hq rfl rfl (.inl rfl)
  rw [clearQueueBits, wp_bind, wp_getQueue_of hq]
  refine hset.done State.setQueue_self (iff_of_false (Queue.not_has_clearBits (by decide)) ?_)
  rwa [topReplied_congr rfl fun _ _ => rfl]

/-- No result above a replied one is cancelled. -/
theorem wp_handleGetMessageReply {current : ℕ} {cancel : Bool} (h : Tracks none s)
    (ho : s.orderly (.getMessageReply current cancel) = true) :
    wp (handleGetMessageReply current cancel) (fun _ s' => Tracks none s') (fun _ => True) s := by
  rw [handleGetMessageReply, wp_bind, wp_threadQueue]
  cases hc : s.queueOf current with
  | none => exact (tracks_setError _).bind (fun _ => .pure _) s h
  | some q =>
    rw [wp_bind, setError, wp_modify, wp_bind]
    refine wp_getQueue.mpr ⟨fun queue hq => ?_, fun _ => trivial⟩
    have h₁ : Tracks none { s with error := some Server.statusPending } :=
      h.of_eq rfl rfl (Nat.le_refl _)
    cases hsend : queue.sendResult with
    | nil => exact h₁
    | cons r rest =>
      obtain ⟨res, hr, hsender, -⟩ := h.sent q queue hq r (hsend ▸ List.mem_cons_self)
      have hrest : r ∉ rest := (List.nodup_cons.mp (hsend ▸ h.nodup q queue hq)).1
      have hr₁ : ({ s with error := some Server.statusPending } : State).results r = some res := hr
      rw [wp_bind, wp_getResult_of hr₁, wp_ite]
      refine ⟨fun hgo => ?_, fun _ => h₁⟩
      rw [wp_bind, wp_modify, wp_bind]
      generalize ht : (if res.replied = true then
        { { s with error := some Server.statusPending } with error := res.error } else
        { s with error := some Server.statusPending }) = t
      have hlive : Tracks none t ∧ t.queues = s.queues ∧ t.results = s.results := by
        rw [← ht]
        split
        · exact ⟨h.of_eq rfl rfl (Nat.le_refl _), rfl, rfl⟩
        · exact ⟨h₁, rfl, rfl⟩
      obtain ⟨ht₁, hqs, hrs⟩ := hlive
      refine wp_mono (wp_unlinkResult ht₁ (hrs ▸ hr) (hqs ▸ hq) hsender (.inr ⟨rfl, .inl rfl⟩)) ?_
      rintro _ s' ⟨h', hq', hkept, -⟩
      rw [hsend, List.erase_cons_head] at hq'
      rw [wp_bind, wp_getQueue_of hq']
      cases rest with
      | nil =>
        rw [wp_bind]
        refine wp_clearBit h' hq' ?_
        rintro ⟨_, _, _, htop, -⟩
        cases htop
      | cons top tail =>
        obtain ⟨res', hr', -⟩ := h'.sent q _ hq' top List.mem_cons_self
        rw [wp_bind, wp_getResult_of hr', wp_ite]
        refine ⟨fun hrep => ?_, fun hrep => ?_⟩
        · have htop : s'.TopReplied { queue with
              sendResult := top :: tail, callbackResult := queue.callbackResult.erase r } :=
            ⟨top, tail, res', rfl, hr', hrep⟩
          refine h'.done hq' (iff_of_true ((h.bit q queue hq (by simp)).mpr ?_) htop)
          have hne : top ≠ r := fun heq => hrest (heq ▸ List.mem_cons_self)
          have hnext : s.results top = some res' := by rw [← hrs, ← hkept top hne, hr']
          exact topReplied_of_orderly hc hq hsend hr hnext hrep hgo ho
        · rw [wp_bind]
          refine wp_clearBit h' hq' ?_
          rintro ⟨_, _, _, htop, hres, hrep'⟩
          obtain ⟨rfl, -⟩ := List.cons.inj htop
          obtain rfl := Option.some.inj (hr'.symm.trans hres)
          exact hrep hrep'

/-! ## Timers and windows -/

theorem tracks_addTimer (q win msg id rate lparam now : ℕ) :
    Keeps (Tracks x) (addTimer q win msg id rate lparam now) := by
  refine tracks_alloc.bind fun granted => .ite (fun _ => ?_) fun _ => .pure _
  refine tracks_newAddress.bind fun addr => tracks_getQueue fun queue s h hq => ?_
  exact h.setQueue hq (Queue.waits_setTimer ..)

theorem tracks_freeTimerId (q msg fuel : ℕ) : Keeps (Tracks x) (freeTimerId q msg fuel) := by
  induction fuel with
  | zero => exact .throw _
  | succ fuel ih =>
    refine tracks_getQueue fun queue s h hq => tracks_setQueue h hq ⟨rfl, rfl, Iff.rfl⟩ ?_
    exact .ite (fun _ => ih) fun _ => .pure _

theorem tracks_handleSetWinTimer (fuel current win : ℕ) (thread : Option (ℕ × Bool))
    (msg id rate lparam now : ℕ) :
    Keeps (Tracks none) (handleSetWinTimer fuel current win thread msg id rate lparam now) := by
  refine .ite (fun _ => ?_) fun _ => (tracks_getCurrentQueue current).bind fun o => ?_
  · split
    · exact tracks_setError _
    · exact tracks_setError _
    · refine (tracks_threadQueue _).bind fun o => ?_
      cases o with
      | none => exact .throw _
      | some q =>
        refine tracks_getQueue fun queue s h hq => ?_
        refine tracks_setQueue h hq ?_ (tracks_addTimer _ _ _ _ _ _ _)
        split
        · exact Queue.waits_freeTimer _
        · exact ⟨rfl, rfl, Iff.rfl⟩
  · cases o with
    | none => exact .throw _
    | some q =>
      exact (tracks_freeTimerId q msg fuel).bind fun id => tracks_addTimer _ _ _ _ _ _ _

theorem tracks_handleKillWinTimer (current win : ℕ) (thread : Option (ℕ × Bool)) (msg id : ℕ) :
    Keeps (Tracks x) (handleKillWinTimer current win thread msg id) := by
  unfold handleKillWinTimer
  split
  · exact tracks_setError _
  · exact tracks_setError _
  · refine (tracks_threadQueue _).bind fun o => ?_
    cases o with
    | none => exact tracks_setError _
    | some q =>
      refine tracks_getQueue fun queue s h hq => ?_
      split
      · exact h.setQueue hq (Queue.waits_freeTimer _)
      · exact tracks_setError _ s h

theorem tracks_cleanupMessages (q win : ℕ) (kind : MessageKind) (fuel : ℕ) (cursor : Option Message) :
    Keeps (Tracks x) (cleanupMessages q win kind fuel cursor) := by
  induction fuel generalizing cursor with
  | zero =>
    cases cursor with
    | none => exact .pure _
    | some msg => exact .throw _
  | succ fuel ih =>
    cases cursor with
    | none => exact .pure _
    | some msg =>
      refine tracks_getQueue fun queue s h _ => Keeps.ite (fun _ => ?_) (fun _ => ih _) s h
      exact (tracks_removeQueueMessage _ _ _).bind fun _ => ih _

theorem tracks_cleanupWindow (fuel thread win : ℕ) :
    Keeps (Tracks x) (cleanupWindow fuel thread win) := by
  refine (tracks_threadQueue _).bind fun o => ?_
  cases o with
  | none => exact .pure _
  | some q =>
    refine tracks_getQueue fun queue s h hq => tracks_setQueue h hq ?_ ?_
    · exact (Queue.waits_cleanupTimers _ _).trans (Queue.waits_cleanupTimers _ _)
    · refine tracks_getQueue fun queue s h _ => ?_
      refine Keeps.bind (tracks_cleanupMessages _ _ _ _ _) (fun _ => ?_) s h
      exact tracks_getQueue fun queue s h _ => tracks_cleanupMessages _ _ _ _ _ s h

theorem tracks_incQueuePaintCount (thread : ℕ) (incr : ℤ) :
    Keeps (Tracks x) (incQueuePaintCount thread incr) := by
  refine (tracks_threadQueue _).bind fun o => ?_
  cases o with
  | none => exact .throw _
  | some q =>
    refine tracks_getQueue fun queue s h hq => ?_
    exact h.setQueue hq (Queue.waits_incPaintCount incr)

theorem tracks_timerCallback (q : ℕ) : Keeps (Tracks x) (timerCallback q) := by
  refine tracks_getQueue fun queue s h hq => ?_
  split
  · trivial
  · exact h.setQueue hq (Queue.waits_setNextTimer ..)

theorem tracks_expireTimer (q : ℕ) : Keeps (Tracks x) (expireTimer q) := by
  refine Keeps.get.bind fun s => ?_
  cases s.queues q with
  | none => exact .pure _
  | some queue => exact .ite (fun _ => tracks_timerCallback q) fun _ => .pure _

theorem tracks_expireResult (r : ℕ) : Keeps (Tracks x) (expireResult r) :=
  Keeps.get.bind fun _ => .ite (fun _ => tracks_resultTimeout r) fun _ => .pure _

theorem tracks_freeMsgQueue (thread : ℕ) : Keeps (Tracks x) (freeMsgQueue thread) := by
  refine tracks_modify (fun s => ?_) (fun s => ?_) fun s => ?_
  · cases s.queueOf thread <;> rfl
  · cases s.queueOf thread <;> rfl
  · cases s.queueOf thread <;> exact Nat.le_refl _

theorem tracks_releaseQueue (q : ℕ) : Keeps (Tracks none) (releaseQueue q) := by
  refine Keeps.get.bind fun s => .ite (fun _ => ?_) fun _ => .pure _
  refine Keeps.bind ?_ fun _ => tracks_msgQueueDestroy q
  exact tracks_modify (fun _ => rfl) (fun _ => rfl) fun _ => Nat.le_refl _

/-! ## Runs -/

theorem wp_perform (fuel : ℕ) {a : Action} (h : Tracks none s) (ho : s.orderly a = true) :
    wp (perform fuel a) (fun _ s' => Tracks none s') (fun _ => True) s := by
  cases a with
  | getMsgQueue current => exact Keeps.map _ (tracks_getCurrentQueue current) s h
  | sendMessage => exact wp_handleSendMessage h ho
  | postMessage => exact tracks_postMessage _ _ _ _ _ s h
  | postWinEvent => exact tracks_postWinEvent _ _ _ _ _ _ _ s h
  | postQuitMessage => exact tracks_handlePostQuitMessage _ _ s h
  | getMessage => exact Keeps.map _ (tracks_handleGetMessage _ _) s h
  | replyMessage => exact tracks_handleReplyMessage _ _ _ _ s h
  | getMessageReply =>
    rw [perform, wp_map]
    exact wp_handleGetMessageReply h ho
  | setWinTimer => exact tracks_handleSetWinTimer _ _ _ _ _ _ _ _ _ s h
  | killWinTimer => exact tracks_handleKillWinTimer _ _ _ _ _ s h
  | incPaintCount => exact tracks_incQueuePaintCount _ _ s h
  | cleanupWindow => exact tracks_cleanupWindow _ _ _ s h
  | resultTimeout r => exact tracks_expireResult r s h
  | timerCallback q => exact tracks_expireTimer q s h
  | threadExit thread => exact tracks_freeMsgQueue thread s h
  | releaseQueue q => exact tracks_releaseQueue q s h

theorem orderly_of_error (s : State) (a : Action) (e : Option Status) :
    State.orderly { s with error := e } a = s.orderly a := by
  cases a <;> rfl

theorem step_tracks {fuel : ℕ} {a : Action} (h : Tracks none s) (ho : s.orderly a = true)
    (hst : step fuel s a = .ok s') : Tracks none s' := by
  rw [step] at hst
  cases hp : perform fuel a { s with error := none } with
  | error e =>
    rw [hp] at hst
    cases hst
  | ok res =>
    rw [hp] at hst
    obtain rfl := Except.ok.inj hst
    have h' : Tracks none { s with error := none } := h.of_eq rfl rfl (Nat.le_refl _)
    have hw := wp_perform fuel h' ((orderly_of_error s a none).trans ho)
    exact wp_of_ok (Q := fun _ s' => Tracks none s') hw hp

theorem tracks_initial (grants : ℕ → Bool) : Tracks none (.initial grants) where
  sent _ _ h := by cases h
  calls _ _ h := by cases h
  nodup _ _ h := by cases h
  fresh _ _ := rfl
  bit _ _ h := by cases h

/-- In a run of orderly steps each queue has the bit of replied results exactly when the result on top
of its stack has been replied to. -/
theorem smresult_iff_topReplied (fuel : ℕ) (grants : ℕ → Bool) (as : List Action) (s : State)
    (hr : Run (step fuel) (fun s a => s.orderly a = true) (.initial grants) as s) (q : ℕ)
    (queue : Queue) (hq : s.queues q = some queue) :
    queue.wakeBits &&& qsSmresult ≠ 0 ↔
      ∃ r rest res, queue.sendResult = r :: rest ∧ s.results r = some res ∧ res.replied = true := by
  have hs : Tracks none s := hr.invariant (I := Tracks none) (tracks_initial grants)
    fun _ _ _ h ho => step_tracks h ho
  exact hs.bit q queue hq (by simp)

/-- What a thread asks for that takes any message. -/
def GetArgs.any : GetArgs := ⟨true, false, 0, 0, 2 ^ 32 - 1, 0, 0, fun _ _ => false, false, none⟩

/-- A message is sent, received and replied to. -/
def repliedRun : List Action :=
  [.getMsgQueue 1, .getMsgQueue 2,
    .sendMessage 1 (some 2) false ⟨.unicode, 0, 0x400, 0, 0, 0, false, 0, 0, false⟩,
    .getMessage 2 .any, .replyMessage 2 7 true 0]

theorem smresult_iff_topReplied_replied :
    ∃ s queue, Run (step 10) (fun s a => s.orderly a = true) (.initial fun _ => true) repliedRun s ∧
      s.queues 0 = some queue ∧ queue.wakeBits &&& qsSmresult ≠ 0 ∧
      ∃ r rest res, queue.sendResult = r :: rest ∧ s.results r = some res ∧ res.replied = true := by
  obtain ⟨s, hr, hp⟩ := run_of_execTo (f := step 10) (s := State.initial fun _ => true)
    (q := fun s a => s.orderly a = true) (g := State.orderly) (l := repliedRun)
    (p := fun s => (s.queues 0).any fun queue => queue.wakeBits &&& qsSmresult != 0)
    (fun _ _ h => h) (by decide +kernel)
  obtain ⟨queue, hq, hbit⟩ := (Option.any_eq_true _ _).mp hp
  have hne : queue.wakeBits &&& qsSmresult ≠ 0 := by simpa using hbit
  have hiff := smresult_iff_topReplied 10 (fun _ => true) repliedRun s hr 0 queue hq
  exact ⟨s, queue, hr, hq, hne, hiff.mp hne⟩

/-- While the first thread waits, it gets a message. The reply to what it has sent comes while it
handles the message, and then it sends again. -/
def nestedRun : List Action :=
  [.getMsgQueue 1, .getMsgQueue 2,
    .sendMessage 1 (some 2) false ⟨.unicode, 0, 0x400, 0, 0, 0, false, 0, 0, false⟩,
    .getMessage 2 .any,
    .sendMessage 2 (some 1) false ⟨.notify, 0, 0x401, 0, 0, 0, false, 0, 0, false⟩,
    .getMessage 1 .any, .replyMessage 2 7 true 0,
    .sendMessage 1 (some 2) false ⟨.unicode, 0, 0x402, 0, 0, 0, false, 0, 0, false⟩]

theorem not_smresult_iff_topReplied_nested :
    ¬ ∀ (fuel : ℕ) (grants : ℕ → Bool) (as : List Action) (s : State),
      Run (step fuel) (fun _ _ => True) (.initial grants) as s → ∀ q queue, s.queues q = some queue →
        (queue.wakeBits &&& qsSmresult ≠ 0 ↔
          ∃ r rest res, queue.sendResult = r :: rest ∧ s.results r = some res ∧
            res.replied = true) := by
  intro hall
  obtain ⟨s, hr, hp⟩ := run_of_execTo (f := step 10) (s := State.initial fun _ => true)
    (q := fun _ _ => True) (g := fun _ _ => true) (l := nestedRun)
    (p := fun s => (s.queues 0).any fun queue => queue.wakeBits &&& qsSmresult != 0 &&
      !(queue.sendResult.head?.bind s.results).any (·.replied))
    (fun _ _ _ => trivial) (by decide +kernel)
  obtain ⟨queue, hq, htest⟩ := (Option.any_eq_true _ _).mp hp
  rw [Bool.and_eq_true, bne_iff_ne, Bool.not_eq_true'] at htest
  obtain ⟨r, rest, res, htop, hres, hrep⟩ := (hall 10 _ nestedRun s hr 0 queue hq).mp htest.1
  rw [htop, List.head?_cons, Option.bind_some, hres, Option.any_some, hrep] at htest
  cases htest.2

end Wine.Queues
