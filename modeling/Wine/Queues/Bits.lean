import Wine.Lib.Masks
import Wine.Lib.Runs
import Wine.Queues.Requests

/-!
# The bits of a queue

The bits of a queue say which of its lists have something in them. `Mirrors x` says so of every queue
but `x`, which is the one that is being emptied, if there is one.
-/

namespace Wine.Queues
open Wine.Lib

namespace Queue

def Has (queue : Queue) (bits : BitVec 32) : Prop := queue.wakeBits &&& bits ≠ 0

/-- The bits of the messages, the timers and the paint count are those of what the queue holds. -/
structure Mirror (queue : Queue) : Prop where
  send : queue.Has qsSendmessage ↔ queue.sendMsgs ≠ []
  post : queue.Has qsPostmessage ↔ queue.postMsgs ≠ [] ∨ queue.quitMessage = true
  timer : queue.Has qsTimer ↔ queue.expiredTimers ≠ []
  paint : queue.Has qsPaint ↔ 0 < queue.paintCount

variable {queue : Queue}

theorem has_iff (bits : BitVec 32) : queue.Has bits ↔ Overlaps queue.wakeBits bits := by
  rw [Has, ne_eq, and_eq_zero_iff, not_not]

theorem has_setBits (bits other : BitVec 32) :
    (queue.setBits bits).Has other ↔ queue.Has other ∨ Overlaps bits other := by
  rw [has_iff, has_iff, setBits, overlaps_or_left]

theorem not_has_clearBits {bits other : BitVec 32} (h : Covers bits other) :
    ¬(queue.clearBits bits).Has other := by
  rw [has_iff]
  exact not_overlaps_and_not h

theorem has_clearBits_iff {bits other : BitVec 32} (h : ¬Overlaps bits other) :
    (queue.clearBits bits).Has other ↔ queue.Has other := by
  rw [has_iff, has_iff]
  exact overlaps_and_not_iff h

theorem has_setBits_iff {bits other : BitVec 32} (h : ¬Overlaps bits other) :
    (queue.setBits bits).Has other ↔ queue.Has other := by
  rw [has_setBits, or_iff_left h]

theorem has_setBits_self {bits other : BitVec 32} (h : Overlaps bits other) :
    (queue.setBits bits).Has other := (has_setBits bits other).mpr (.inr h)

/-! ## What each change makes of the bits -/

theorem mirror_new : new.Mirror := by
  constructor <;> simp [Has, new]

theorem Mirror.deliver (h : queue.Mirror) (msg : Message) (kind : MessageKind) :
    ((queue.setMsgList (queue.msgList kind ++ [msg]) kind).setBits kind.bits).Mirror := by
  cases kind with
  | sendMessage =>
    constructor
    · exact iff_of_true (has_setBits_self (by decide)) (by simp [setBits, setMsgList])
    · exact (has_setBits_iff (by decide)).trans h.post
    · exact (has_setBits_iff (by decide)).trans h.timer
    · exact (has_setBits_iff (by decide)).trans h.paint
  | postMessage =>
    constructor
    · exact (has_setBits_iff (by decide)).trans h.send
    · exact iff_of_true (has_setBits_self (by decide)) (.inl (by simp [setBits, setMsgList]))
    · exact (has_setBits_iff (by decide)).trans h.timer
    · exact (has_setBits_iff (by decide)).trans h.paint

theorem Mirror.setSmresult (h : queue.Mirror) : (queue.setBits qsSmresult).Mirror where
  send := (has_setBits_iff (by decide)).trans h.send
  post := (has_setBits_iff (by decide)).trans h.post
  timer := (has_setBits_iff (by decide)).trans h.timer
  paint := (has_setBits_iff (by decide)).trans h.paint

theorem Mirror.clearSmresult (h : queue.Mirror) : (queue.clearBits qsSmresult).Mirror where
  send := (has_clearBits_iff (by decide)).trans h.send
  post := (has_clearBits_iff (by decide)).trans h.post
  timer := (has_clearBits_iff (by decide)).trans h.timer
  paint := (has_clearBits_iff (by decide)).trans h.paint

/-- The list of the sent messages may be cut down, if the bit goes with the last message. -/
theorem Mirror.setSendMsgs (h : queue.Mirror) {l : List Message}
    (hl : l ≠ [] → queue.sendMsgs ≠ []) :
    (if l = [] then { queue with sendMsgs := l }.clearBits qsSendmessage
      else { queue with sendMsgs := l }).Mirror := by
  split
  · rename_i hnil
    constructor
    · exact iff_of_false (not_has_clearBits (by decide)) (by simp [clearBits, hnil])
    · exact (has_clearBits_iff (by decide)).trans h.post
    · exact (has_clearBits_iff (by decide)).trans h.timer
    · exact (has_clearBits_iff (by decide)).trans h.paint
  · rename_i hne
    exact ⟨iff_of_true (h.send.mpr (hl hne)) hne, h.post, h.timer, h.paint⟩

theorem Mirror.setPostMsgs (h : queue.Mirror) {l : List Message} {q : Bool}
    (hl : l ≠ [] ∨ q = true → queue.postMsgs ≠ [] ∨ queue.quitMessage = true) :
    (if l = [] ∧ q = false then
      { queue with postMsgs := l, quitMessage := q }.clearBits (qsPostmessage ||| qsAllpostmessage)
      else { queue with postMsgs := l, quitMessage := q }).Mirror := by
  split
  · rename_i hnil
    constructor
    · exact (has_clearBits_iff (by decide)).trans h.send
    · exact iff_of_false (not_has_clearBits (by decide)) (by simp [clearBits, hnil])
    · exact (has_clearBits_iff (by decide)).trans h.timer
    · exact (has_clearBits_iff (by decide)).trans h.paint
  · rename_i hne
    have hleft : l ≠ [] ∨ q = true := by
      by_cases hnil : l = []
      · exact .inr (by simpa using fun hq => hne ⟨hnil, hq⟩)
      · exact .inl hnil
    exact ⟨h.send, iff_of_true (h.post.mpr (hl hleft)) hleft, h.timer, h.paint⟩

theorem ne_nil_of_eraseP {l : List Message} {p : Message → Bool} (h : l.eraseP p ≠ []) :
    l ≠ [] := by
  rintro rfl
  exact h rfl

theorem Mirror.dropMessage (h : queue.Mirror) (msg : Message) (kind : MessageKind) :
    (queue.dropMessage msg kind).Mirror := by
  cases kind with
  | sendMessage => exact h.setSendMsgs ne_nil_of_eraseP
  | postMessage => exact h.setPostMsgs (Or.imp_left ne_nil_of_eraseP)

/-- The lists of results and the data of the queue may change. -/
theorem Mirror.of_same (h : queue.Mirror) {other : Queue} (hbits : other.wakeBits = queue.wakeBits)
    (hsend : other.sendMsgs = queue.sendMsgs) (hpost : other.postMsgs = queue.postMsgs)
    (hquit : other.quitMessage = queue.quitMessage)
    (htimers : other.expiredTimers = queue.expiredTimers)
    (hpaint : other.paintCount = queue.paintCount) : other.Mirror := by
  obtain ⟨h₁, h₂, h₃, h₄⟩ := h
  simp only [Has] at h₁ h₂ h₃ h₄
  constructor <;> simp only [Has, *]

theorem Mirror.quit (h : queue.Mirror) (exitCode : ℕ) :
    ({ queue with quitMessage := true, exitCode := exitCode }.setBits
      (qsPostmessage ||| qsAllpostmessage)).Mirror where
  send := (has_setBits_iff (by decide)).trans h.send
  post := iff_of_true (has_setBits_self (by decide)) (.inr rfl)
  timer := (has_setBits_iff (by decide)).trans h.timer
  paint := (has_setBits_iff (by decide)).trans h.paint

theorem Mirror.setNextTimer (h : queue.Mirror) {pending expired : List Timer} {timeout : Bool} :
    { queue with pendingTimers := pending, expiredTimers := expired, timeout := timeout }.setNextTimer.Mirror := by
  simp only [Queue.setNextTimer]
  split
  · rename_i hnil
    constructor
    · exact (has_clearBits_iff (by decide)).trans h.send
    · exact (has_clearBits_iff (by decide)).trans h.post
    · exact iff_of_false (not_has_clearBits (by decide)) (by simp [clearBits, hnil])
    · exact (has_clearBits_iff (by decide)).trans h.paint
  · rename_i hne
    constructor
    · exact (has_setBits_iff (by decide)).trans h.send
    · exact (has_setBits_iff (by decide)).trans h.post
    · exact iff_of_true (has_setBits_self (by decide)) hne
    · exact (has_setBits_iff (by decide)).trans h.paint

theorem Mirror.freeTimer (h : queue.Mirror) (id : ℕ) : (queue.freeTimer id).Mirror := h.setNextTimer

theorem Mirror.cleanupTimers (h : queue.Mirror) (win : ℕ) (timers : List Timer) :
    (queue.cleanupTimers win timers).Mirror := by
  rw [Queue.cleanupTimers]
  induction timers.filter (·.win = win) generalizing queue with
  | nil => exact h
  | cons timer rest ih => exact ih (h.freeTimer timer.id)

theorem Mirror.setTimer (h : queue.Mirror) (timer : Timer) (rate now : ℕ) :
    (queue.setTimer timer rate now).Mirror := by
  simp only [Queue.setTimer]
  split
  · exact h.setNextTimer
  · exact h.of_same rfl rfl rfl rfl rfl rfl

theorem Mirror.restartTimer (h : queue.Mirror) (timer : Timer) (now : ℕ) :
    (queue.restartTimer timer now).Mirror := h.setNextTimer

theorem Mirror.incPaintCount (h : queue.Mirror) (incr : ℤ) : (queue.incPaintCount incr).Mirror := by
  simp only [Queue.incPaintCount]
  split
  · rename_i hne
    constructor
    · exact (has_setBits_iff (by decide)).trans h.send
    · exact (has_setBits_iff (by decide)).trans h.post
    · exact (has_setBits_iff (by decide)).trans h.timer
    · exact iff_of_true (has_setBits_self (by decide)) (Nat.pos_of_ne_zero hne)
  · rename_i hzero
    constructor
    · exact (has_clearBits_iff (by decide)).trans h.send
    · exact (has_clearBits_iff (by decide)).trans h.post
    · exact (has_clearBits_iff (by decide)).trans h.timer
    · refine iff_of_false (not_has_clearBits (by decide)) ?_
      have hcount := not_not.mp hzero
      simp [clearBits, hcount]

end Queue

/-! ## The invariant -/

/-- The queues other than `x` have the bits of what they hold. -/
def Mirrors (x : Option ℕ) (s : State) : Prop :=
  ∀ q queue, s.queues q = some queue → x = some q ∨ queue.Mirror

variable {x : Option ℕ} {q : ℕ} {α : Type}

theorem Mirrors.of_queues {s s' : State} (h : Mirrors x s) (hq : s'.queues = s.queues) :
    Mirrors x s' := by
  intro q queue hqueue
  exact h q queue (by rw [← hq, hqueue])

/-- Only one queue has changed. -/
theorem Mirrors.of_update {s s' : State} (h : Mirrors x s)
    (hne : ∀ i, i ≠ q → s'.queues i = s.queues i)
    (hself : ∀ queue, s'.queues q = some queue → x = some q ∨ queue.Mirror) : Mirrors x s' := by
  intro q' queue' hq'
  by_cases hqq : q' = q
  · subst hqq
    exact hself queue' hq'
  · exact h q' queue' ((hne q' hqq).symm.trans hq')

theorem Mirrors.setQueue {s : State} (h : Mirrors x s) {queue : Queue}
    (hqueue : x = some q ∨ queue.Mirror) : Mirrors x (s.setQueue q (some queue)) := by
  refine h.of_update (fun i hi => State.setQueue_of_ne hi) fun other hother => ?_
  rw [State.setQueue_self] at hother
  exact Option.some.inj hother ▸ hqueue

theorem keeps_setQueue {queue : Queue} (h : x = some q ∨ queue.Mirror) :
    Keeps (Mirrors x) (setQueue q queue) := Keeps.modify fun _ hs => hs.setQueue h

/-- What is read of a queue has the bits of what it holds. -/
theorem keeps_getQueue {f : Queue → M α}
    (hf : ∀ queue, x = some q ∨ queue.Mirror → Keeps (Mirrors x) (f queue)) :
    Keeps (Mirrors x) (getQueue q >>= f) := by
  refine Keeps.bind_of (P := fun queue => x = some q ∨ queue.Mirror) (fun s hs => ?_) hf
  exact wp_getQueue.mpr ⟨fun queue hq => ⟨hs, hs q queue hq⟩, fun _ => trivial⟩

theorem keeps_modify {f : State → State} (hf : ∀ s, (f s).queues = s.queues) :
    Keeps (Mirrors x) (modify f : M PUnit) := Keeps.modify fun s hs => hs.of_queues (hf s)

theorem keeps_getResult (r : ℕ) : Keeps (Mirrors x) (getResult r) := by
  exact fun s hs => wp_getResult.mpr ⟨fun _ _ => hs, fun _ => trivial⟩

theorem keeps_setResult (r : ℕ) (res : MessageResult) : Keeps (Mirrors x) (setResult r res) :=
  keeps_modify fun _ => rfl

theorem keeps_malloc : Keeps (Mirrors x) malloc := fun _ hs => hs

theorem keeps_alloc : Keeps (Mirrors x) alloc := by
  refine keeps_malloc.bind fun granted => Keeps.bind (keeps_modify fun s => ?_) fun _ => .pure _
  cases granted <;> rfl

theorem keeps_allocIf (c : Bool) : Keeps (Mirrors x) (allocIf c) :=
  .ite (fun _ => keeps_alloc) fun _ => .pure _

theorem keeps_newAddress : Keeps (Mirrors x) newAddress := fun _ hs => hs

theorem keeps_setError (e : Wine.Server.Status) : Keeps (Mirrors x) (setError e) :=
  keeps_modify fun _ => rfl

theorem keeps_deliver (q : ℕ) (kind : MessageKind) (msg : Message) :
    Keeps (Mirrors x) (deliver q kind msg) := by
  intro s hs
  simp only [deliver, addTail, setQueueBits, setQueue, wp_bind, wp_getQueue, wp_modify,
    State.setQueue_self, State.setQueue_setQueue]
  refine ⟨fun queue hq => ⟨?_, (fun h => by cases h)⟩, fun _ => trivial⟩
  rintro _ ⟨⟩
  exact hs.setQueue ((hs q queue hq).imp_right fun h => h.deliver msg kind)

end Wine.Queues
