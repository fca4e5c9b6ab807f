import Mathlib.Data.BitVec

/-!
# Times in seconds and microseconds

`struct timeval` with the two operations that the server's timeouts and window timers use.
-/

namespace Wine.Timers

structure Timeval where
  sec : ℤ
  usec : ℤ
  deriving DecidableEq, Repr

def timeBefore (t1 t2 : Timeval) : Bool :=
  t1.sec < t2.sec || (t1.sec = t2.sec && t1.usec < t2.usec)

/-- `timeout` is an `int`; the division rounds towards zero, and only a carry upwards is
handled. -/
def addTimeout (t : Timeval) (timeout : ℤ) : Timeval :=
  if timeout = 0 then t
  else
    let sec := timeout.tdiv 1000
    let usec := t.usec + (timeout - 1000 * sec) * 1000
    if 1000000 ≤ usec then ⟨t.sec + 1 + sec, usec - 1000000⟩ else ⟨t.sec + sec, usec⟩

/-- What `gettimeofday` returns. -/
def Timeval.Normal (t : Timeval) : Prop := 0 ≤ t.usec ∧ t.usec < 1000000

def Timeval.micros (t : Timeval) : ℤ := t.sec * 1000000 + t.usec

theorem timeBefore_iff {t1 t2 : Timeval} (h1 : t1.Normal) (h2 : t2.Normal) :
    timeBefore t1 t2 = true ↔ t1.micros < t2.micros := by
  unfold timeBefore Timeval.micros
  unfold Timeval.Normal at h1 h2
  rw [Bool.or_eq_true, Bool.and_eq_true, decide_eq_true_eq, decide_eq_true_eq,
    decide_eq_true_eq]
  omega

theorem timeBefore_eq_false_iff {t1 t2 : Timeval} (h1 : t1.Normal) (h2 : t2.Normal) :
    timeBefore t1 t2 = false ↔ t2.micros ≤ t1.micros := by
  rw [← Bool.not_eq_true, timeBefore_iff h1 h2, Int.not_lt]

theorem micros_addTimeout (t : Timeval) (timeout : ℤ) :
    (addTimeout t timeout).micros = t.micros + timeout * 1000 := by
  unfold addTimeout
  by_cases h0 : timeout = 0
  · rw [if_pos h0, h0]
    omega
  · rw [if_neg h0]
    generalize timeout.tdiv 1000 = sec
    by_cases hc : 1000000 ≤ t.usec + (timeout - 1000 * sec) * 1000
    · simp only [if_pos hc, Timeval.micros]
      omega
    · simp only [if_neg hc, Timeval.micros]
      omega

theorem normal_addTimeout {t : Timeval} {timeout : ℤ} (ht : t.Normal) (h : 0 ≤ timeout) :
    (addTimeout t timeout).Normal := by
  unfold addTimeout
  by_cases h0 : timeout = 0
  · rw [if_pos h0]
    exact ht
  · rw [if_neg h0, Int.tdiv_eq_ediv_of_nonneg h]
    unfold Timeval.Normal at ht ⊢
    by_cases hc : 1000000 ≤ t.usec + (timeout - 1000 * (timeout / 1000)) * 1000
    · simp only [if_pos hc]
      omega
    · simp only [if_neg hc]
      omega

end Wine.Timers

/-!
## Window timers

The two timer lists of a message queue, with the times and the rates as the source has them.
A timer is known by its address; a queue counts the addresses it has used.
-/

namespace Wine.Timers

/-- `struct timer`. -/
structure WinTimer where
  addr : ℕ
  when : Timeval
  rate : BitVec 32
  win : ℕ
  msg : ℕ
  id : ℕ
  lparam : ℕ
  deriving DecidableEq, Repr

/-- What a `struct msg_queue` holds of timers; `timerBit` is its `QS_TIMER` bit. -/
structure TimerQueue where
  pending : List WinTimer
  expired : List WinTimer
  nextTimerId : ℕ
  timeout : Option Timeval
  timerBit : Bool
  addresses : ℕ
  deriving DecidableEq, Repr

/-- `create_msg_queue` -/
def TimerQueue.create : TimerQueue := ⟨[], [], 1, none, false, 0⟩

namespace TimerQueue

def all (queue : TimerQueue) : List WinTimer := queue.pending ++ queue.expired

/-- `granted` is the outcome of the allocation in `add_timeout_user`. -/
def setNextTimer (granted : Bool) (queue : TimerQueue) : TimerQueue :=
  { queue with
    timeout := if granted then queue.pending.head?.map (·.when) else none
    timerBit := !queue.expired.isEmpty }

def findTimer (queue : TimerQueue) (win msg id : ℕ) : Option WinTimer :=
  queue.all.find? fun timer => timer.win = win && timer.msg = msg && timer.id = id

/-- `timer_callback`; `none` is the null pointer of an empty list. -/
def timerCallback (granted : Bool) (queue : TimerQueue) : Option TimerQueue :=
  match queue.pending with
  | [] => none
  | timer :: rest => some <| setNextTimer granted
      { queue with timeout := none, pending := rest, expired := queue.expired ++ [timer] }

/-- The timer goes in front of the first one that does not expire before it. -/
def linkTimer (timer : WinTimer) (queue : TimerQueue) : TimerQueue :=
  { queue with
    pending := queue.pending.takeWhile (fun t => timeBefore t.when timer.when) ++
      timer :: queue.pending.dropWhile (fun t => timeBefore t.when timer.when) }

/-- `list_remove( &timer->entry )` -/
def unlinkTimer (addr : ℕ) (queue : TimerQueue) : TimerQueue :=
  { queue with
    pending := queue.pending.eraseP (·.addr = addr)
    expired := queue.expired.eraseP (·.addr = addr) }

def freeTimer (granted : Bool) (addr : ℕ) (queue : TimerQueue) : TimerQueue :=
  setNextTimer granted (unlinkTimer addr queue)

/-- The loop of `restart_timer`; `none` means that the turns were not enough. The rate becomes
the `int` argument of `add_timeout`. -/
def catchUp (now : Timeval) (rate : BitVec 32) : ℕ → Timeval → Option Timeval
  | 0, _ => none
  | fuel + 1, when =>
    if timeBefore now when then some when else catchUp now rate fuel (addTimeout when rate.toInt)

def restartTimer (fuel : ℕ) (now : Timeval) (granted : Bool) (timer : WinTimer)
    (queue : TimerQueue) : Option TimerQueue :=
  (catchUp now timer.rate fuel timer.when).map fun when =>
    setNextTimer granted (linkTimer { timer with when := when } (unlinkTimer timer.addr queue))

def checkMsgFilter (msg first last : ℕ) : Bool := first ≤ msg && msg ≤ last

def findExpiredTimer (fuel : ℕ) (now : Timeval) (granted : Bool) (win first last : ℕ)
    (remove : Bool) (queue : TimerQueue) : Option (Option WinTimer × TimerQueue) :=
  match queue.expired.find? fun timer =>
    (win = 0 || timer.win = win) && checkMsgFilter timer.msg first last with
  | none => some (none, queue)
  | some timer =>
    if remove then
      (restartTimer fuel now granted timer queue).map fun queue => (some timer, queue)
    else some (some timer, queue)

/-- The fields of a `set_win_timer` request, with the full handle of the window. -/
structure SetTimerReq where
  win : ℕ
  msg : ℕ
  id : ℕ
  rate : BitVec 32
  lparam : ℕ
  deriving DecidableEq, Repr

/-- `set_timer` and what the handler fills in: `mem` gives the outcome of the allocations of the
request. -/
def setTimer (mem : ℕ → Bool) (now : Timeval) (req : SetTimerReq) (id : ℕ)
    (queue : TimerQueue) : Option WinTimer × TimerQueue :=
  if mem 0 then
    let timer : WinTimer := {
      addr := queue.addresses
      when := addTimeout now req.rate.toInt
      rate := if req.rate.toNat < 1 then 1 else req.rate
      win := req.win, msg := req.msg, id := id, lparam := req.lparam }
    let queue := linkTimer timer { queue with addresses := queue.addresses + 1 }
    (some timer,
      if queue.pending.head?.map (·.addr) = some timer.addr then setNextTimer (mem 1) queue
      else queue)
  else (none, queue)

/-- The loop of the handler for a request without a window. -/
def freeId (msg : ℕ) : ℕ → TimerQueue → Option (ℕ × TimerQueue)
  | 0, _ => none
  | fuel + 1, queue =>
    let id := queue.nextTimerId
    let next := if 0x10000 ≤ queue.nextTimerId + 1 then 1 else queue.nextTimerId + 1
    let queue := { queue with nextTimerId := next }
    if (queue.findTimer 0 msg id).isSome then freeId msg fuel queue else some (id, queue)

/-- The `set_win_timer` handler: the timer, or nothing on an error; `none` when the turns of the
search were not enough. -/
def setWinTimer (fuel : ℕ) (mem : ℕ → Bool) (now : Timeval) (req : SetTimerReq)
    (queue : TimerQueue) : Option (Option WinTimer × TimerQueue) :=
  if req.win ≠ 0 then
    match queue.findTimer req.win req.msg req.id with
    | some timer => some (setTimer mem now req req.id (freeTimer (mem 2) timer.addr queue))
    | none => some (setTimer mem now req req.id queue)
  else
    (freeId req.msg fuel queue).map fun found => setTimer mem now req found.1 found.2

/-- The `kill_win_timer` handler, on the queue it finds. -/
def killWinTimer (granted : Bool) (win msg id : ℕ) (queue : TimerQueue) : Bool × TimerQueue :=
  match queue.findTimer win msg id with
  | some timer => (true, freeTimer granted timer.addr queue)
  | none => (false, queue)

/-- The timers of the window that are in the list are freed one by one. -/
def freeWindowTimers (granted : Bool) (win : ℕ) (timers : List WinTimer) (queue : TimerQueue) :
    TimerQueue :=
  (timers.filter (·.win = win)).foldl (fun queue timer => freeTimer granted timer.addr queue)
    queue

/-- The timers of `queue_cleanup_window`. -/
def cleanupWindow (granted : Bool) (win : ℕ) (queue : TimerQueue) : TimerQueue :=
  let queue := freeWindowTimers granted win queue.pending queue
  freeWindowTimers granted win queue.expired queue

/-- The queues that requests and expiring timers lead to. The time never has to move forward. -/
inductive Reachable : TimerQueue → Prop where
  | create : Reachable create
  | setWinTimer {queue queue' : TimerQueue} (fuel : ℕ) (mem : ℕ → Bool) (now : Timeval)
      (req : SetTimerReq) (timer : Option WinTimer) :
      Reachable queue → now.Normal →
      queue.setWinTimer fuel mem now req = some (timer, queue') → Reachable queue'
  | killWinTimer {queue : TimerQueue} (granted : Bool) (win msg id : ℕ) :
      Reachable queue → Reachable (queue.killWinTimer granted win msg id).2
  | cleanupWindow {queue : TimerQueue} (granted : Bool) (win : ℕ) :
      Reachable queue → Reachable (queue.cleanupWindow granted win)
  | timerCallback {queue queue' : TimerQueue} (granted : Bool) :
      Reachable queue → queue.timeout.isSome → queue.timerCallback granted = some queue' →
      Reachable queue'
  | getMessage {queue queue' : TimerQueue} (fuel : ℕ) (now : Timeval) (granted : Bool)
      (win first last : ℕ) (remove : Bool) (timer : Option WinTimer) :
      Reachable queue → now.Normal →
      queue.findExpiredTimer fuel now granted win first last remove = some (timer, queue') →
      Reachable queue'

end TimerQueue

end Wine.Timers
