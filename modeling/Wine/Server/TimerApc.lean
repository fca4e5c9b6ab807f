import Mathlib.Data.Int.Notation
import Wine.Lib.Runs

/-!
# Waitable timers and their asynchronous procedure calls

A timer that expires queues an APC for the thread that set it. The APC knows its timer by the
address of the timer object only, and an address is used again once its object is gone, so timers
and APCs carry the serial number of the timer as well, which the code does not have. Times are in
microseconds and periods in milliseconds.
-/

namespace Wine.Timers
open Lib

abbrev Address := ℕ

inductive ApcType
  | none
  | asyncIo
  | user
  | timer
  deriving DecidableEq, Repr

/-- `struct thread_apc`; `queuedBy` is the serial number of the timer that queued it. -/
structure Apc where
  owner : Option Address
  func : ℕ
  type : ApcType
  args : List ℤ
  queuedBy : Option ℕ
  deriving DecidableEq, Repr

structure Thread where
  terminated : Bool
  systemApc : List Apc
  userApc : List Apc
  deriving DecidableEq, Repr

structure Timer where
  serial : ℕ
  refs : ℕ
  manual : Bool
  signaled : Bool
  expire : ℤ
  period : ℤ
  callback : ℕ
  arg : ℤ
  timeout : Bool
  thread : Option Address
  deriving DecidableEq, Repr

structure State where
  now : ℤ
  timers : Address → Option Timer
  threads : Address → Option Thread
  nextSerial : ℕ

inductive Fault
  | badPointer
  deriving DecidableEq, Repr

def setTimerAt (s : State) (a : Address) (t : Option Timer) : State :=
  { s with timers := Function.update s.timers a t }

def setThread (s : State) (th : Address) (t : Option Thread) : State :=
  { s with threads := Function.update s.threads th t }

def theTimer (s : State) (a : Address) : Except Fault Timer :=
  match s.timers a with
  | some t => .ok t
  | none => .error .badPointer

def theThread (s : State) (th : Address) : Except Fault Thread :=
  match s.threads th with
  | some t => .ok t
  | none => .error .badPointer

/-- A queue without its first APC of `owner`. -/
def cancelIn (owner : Address) (queue : List Apc) : List Apc :=
  queue.eraseP fun apc => apc.owner = some owner

/-- `thread_cancel_apc` -/
def threadCancelApc (t : Thread) (owner : Address) (system : Bool) : Thread :=
  if system then { t with systemApc := cancelIn owner t.systemApc }
  else { t with userApc := cancelIn owner t.userApc }

/-- `thread_queue_apc`; `alloc` tells whether there is memory for the APC. -/
def threadQueueApc (t : Thread) (apc : Apc) (system alloc : Bool) : Thread × Bool :=
  let t := match apc.owner with
    | some owner => threadCancelApc t owner system
    | none => t
  if t.terminated then (t, false)
  else if !alloc then (t, false)
  else if system then ({ t with systemApc := t.systemApc ++ [apc] }, true)
  else ({ t with userApc := t.userApc ++ [apc] }, true)

/-- `thread_dequeue_apc` -/
def threadDequeueApc (t : Thread) (systemOnly : Bool) : Thread × Option Apc :=
  match t.systemApc with
  | apc :: rest => ({ t with systemApc := rest }, some apc)
  | [] =>
    if systemOnly then (t, none)
    else
      match t.userApc with
      | apc :: rest => ({ t with userApc := rest }, some apc)
      | [] => (t, none)

/-- The loop of the `get_apc` request, which skips APCs without a function. -/
def getApc (t : Thread) (systemOnly : Bool) : ℕ → Thread
  | 0 => t
  | fuel + 1 =>
    match threadDequeueApc t systemOnly with
    | (t, none) => t
    | (t, some apc) =>
      if apc.func ≠ 0 ∨ apc.type = .asyncIo then t else getApc t systemOnly fuel

/-- `cleanup_thread` empties the queues. -/
def cleanupThread (t : Thread) : Thread := { t with systemApc := [], userApc := [] }

/-- `cancel_timer` -/
def cancelTimer (s : State) (a : Address) : Except Fault (State × Bool) := do
  let t ← theTimer s a
  match t.thread with
  | none => return (setTimerAt s a (some { t with timeout := false }), t.signaled)
  | some th =>
    let thread ← theThread s th
    let s := setThread s th (some (threadCancelApc thread a false))
    return (setTimerAt s a (some { t with timeout := false, thread := none }), t.signaled)

/-- `set_timer`; an expiration of 0 is one period from now, and `added` tells whether there is memory
for the timeout. -/
def setTimer (s : State) (current a : Address) (expire period : ℤ) (callback : ℕ) (arg : ℤ)
    (added : Bool) : Except Fault (State × Bool) := do
  let (s, signaled) ← cancelTimer s a
  let t ← theTimer s a
  let period := if t.manual then 0 else period
  return (setTimerAt s a (some { t with
    signaled := if t.manual then false else t.signaled
    expire := if expire = 0 then s.now + 1000 * period else expire
    period, callback, arg
    timeout := added
    thread := if callback ≠ 0 then some current else none }), signaled)

/-- The first part of `timer_callback`: the APC for the thread that set the timer. -/
def queueTimerApc (s : State) (a : Address) (t : Timer) (alloc : Bool) :
    Except Fault (State × Timer) :=
  match t.thread with
  | none => .ok (s, t)
  | some th => do
    let thread ← theThread s th
    let apc : Apc := ⟨some a, t.callback, .timer, [t.expire, t.arg], some t.serial⟩
    let (thread, queued) := threadQueueApc thread apc false alloc
    return (setThread s th (some thread), if queued then t else { t with thread := none })

/-- `timer_callback` -/
def timerCallback (s : State) (a : Address) (alloc added : Bool) : Except Fault State := do
  let (s, t) ← queueTimerApc s a (← theTimer s a) alloc
  let t := if t.period ≠ 0 then { t with expire := t.expire + 1000 * t.period, timeout := added }
    else { t with timeout := false }
  return setTimerAt s a (some { t with signaled := true })

/-- `release_object`, which destroys the timer with its last reference: its timeout and its reference
to the thread go, its APC stays. -/
def releaseTimer (s : State) (a : Address) : Except Fault State := do
  let t ← theTimer s a
  return setTimerAt s a (if t.refs ≤ 1 then none else some { t with refs := t.refs - 1 })

inductive Action
  | createThread (th : Address)
  | killThread (th : Address)
  | destroyThread (th : Address)
  | createTimer (a : Address) (manual : Bool)
  | grabTimer (a : Address)
  | releaseTimer (a : Address)
  | setTimer (current a : Address) (expire period : ℤ) (callback : ℕ) (arg : ℤ) (added : Bool)
  | cancelTimer (a : Address)
  | expire (a : Address) (alloc added : Bool)
  | satisfied (a : Address)
  | queueApc (th : Address) (func : ℕ) (type : ApcType) (args : List ℤ) (system alloc : Bool)
  | getApc (th : Address) (alertable : Bool)
  | tick (time : ℤ)
  deriving DecidableEq, Repr

def step (s : State) : Action → Except Fault State
  | .createThread th => .ok (setThread s th (some ⟨false, [], []⟩))
  | .killThread th => do
    let t ← theThread s th
    return setThread s th (some (cleanupThread { t with terminated := true }))
  | .destroyThread th => .ok (setThread s th none)
  | .createTimer a manual =>
    .ok { setTimerAt s a (some ⟨s.nextSerial, 1, manual, false, 0, 0, 0, 0, false, none⟩) with
      nextSerial := s.nextSerial + 1 }
  | .grabTimer a => do
    let t ← theTimer s a
    return setTimerAt s a (some { t with refs := t.refs + 1 })
  | .releaseTimer a => releaseTimer s a
  | .setTimer current a expire period callback arg added =>
    (setTimer s current a expire period callback arg added).map Prod.fst
  | .cancelTimer a => (cancelTimer s a).map Prod.fst
  | .expire a alloc added => timerCallback s a alloc added
  | .satisfied a => do
    let t ← theTimer s a
    return setTimerAt s a (some (if t.manual then t else { t with signaled := false }))
  | .queueApc th func type args system alloc => do
    let t ← theThread s th
    return setThread s th (some (threadQueueApc t ⟨none, func, type, args, none⟩ system alloc).1)
  | .getApc th alertable => do
    let t ← theThread s th
    return setThread s th
      (some (Timers.getApc t (!alertable) (t.systemApc.length + t.userApc.length + 1)))
  | .tick time => .ok { s with now := time }

/-- What can happen: new objects get addresses that are not in use, requests come from threads that
run, a thread object goes when it has died and no timer refers to it, and timeouts expire. -/
def Possible (s : State) : Action → Prop
  | .createThread th => s.threads th = none
  | .destroyThread th => (∃ t, s.threads th = some t ∧ t.terminated = true) ∧
      ∀ a t, s.timers a = some t → t.thread ≠ some th
  | .createTimer a _ => s.timers a = none
  | .setTimer current _ _ _ _ _ _ => ∃ t, s.threads current = some t ∧ t.terminated = false
  | .expire a _ _ => ∃ t, s.timers a = some t ∧ t.timeout = true ∧ t.expire ≤ s.now
  | .tick time => s.now ≤ time
  | _ => True

/-- A timer is not destroyed while an APC that it owns is in the queue of a thread. -/
def NoOrphan (s : State) : Action → Prop
  | .releaseTimer a => ∀ t, s.timers a = some t → t.refs ≤ 1 →
      ∀ th thread, s.threads th = some thread → ∀ apc ∈ thread.userApc, apc.owner ≠ some a
  | _ => True

def init : State where
  now := 0
  timers _ := none
  threads _ := none
  nextSerial := 0

end Wine.Timers
