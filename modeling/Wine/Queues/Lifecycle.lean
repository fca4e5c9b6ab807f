import Wine.Lib.Links
import Wine.Queues.Requests

/-!
# The life of a message result

Each result is in the list of the queue that its sender field names, and in what the queue of its
receiver field holds for the receiver: the stack of received results and the unread messages. A
result is held by one of them at least. While a function takes a result away from its receiver, the
result is in transit: its receiver field is stale.
-/

namespace Wine.Queues
open Wine.Lib

namespace Queue

/-- The results that the queue waits for. -/
def sends (queue : Queue) : List ℕ := queue.sendResult ++ queue.callbackResult

/-- The results that the queue is to answer. -/
def receives (queue : Queue) : List ℕ :=
  queue.recvResult ++ queue.sendMsgs.filterMap (·.result)

def msgIds (queue : Queue) : List ℕ := (queue.sendMsgs ++ queue.postMsgs).map (·.id)

structure Sound (queue : Queue) : Prop where
  posted : ∀ msg ∈ queue.postMsgs, msg.result = none
  armed : queue.timeout = true → queue.pendingTimers ≠ []

end Queue

namespace MessageResult

structure Sound (res : MessageResult) : Prop where
  unread : res.msg ≠ none → res.replied = false
  timeout : res.timeout = true → res.replied = false
  callback : ∀ msg, res.callbackMsg = some msg → msg.result = none

/-- What holds of a result that is not in transit. -/
structure Held (res : MessageResult) : Prop where
  held : res.sender ≠ none ∨ res.receiver ≠ none
  gone : res.receiver = none → res.replied = true ∧ res.msg = none

end MessageResult

/-- Who has a message. -/
inductive Holder where
  | queue (q : ℕ)
  | result (r : ℕ)
  deriving DecidableEq

namespace State

def sendLists (s : State) (q : ℕ) : List ℕ := (s.queues q).elim [] Queue.sends

def recvLists (s : State) (q : ℕ) : List ℕ := (s.queues q).elim [] Queue.receives

def msgLists (s : State) : Holder → List ℕ
  | .queue q => (s.queues q).elim [] Queue.msgIds
  | .result r => ((s.results r).bind (·.callbackMsg)).elim [] fun msg => [msg.id]

/-- The queues of the threads, and the queues without a thread. -/
def threadLists (s : State) : Option ℕ → List ℕ
  | some thread => (s.queueOf thread).toList
  | none => s.orphans

def sendOwner (s : State) (r : ℕ) : Option ℕ := (s.results r).bind (·.sender)

/-- `x` is the result in transit. -/
def recvOwner (x : Option ℕ) (s : State) (r : ℕ) : Option ℕ :=
  if x = some r then none else (s.results r).bind (·.receiver)

def timeoutOwner (s : State) (r : ℕ) : Option Unit :=
  (s.results r).bind fun res => if res.timeout then some () else none

/-- How often a result was answered, given up and freed goes with what is left of it. -/
def Counted (s : State) (r : ℕ) : Prop :=
  match s.results r with
  | some res => s.made r = true ∧ s.frees r = 0 ∧
    (res.sender ≠ none → s.answers r = res.replied.toNat ∧ s.abandons r = 0) ∧
    (res.sender = none → s.answers r + s.abandons r = 1)
  | none => s.frees r = (s.made r).toNat ∧ s.answers r + s.abandons r = (s.made r).toNat

end State

/-- The invariant without the lists of the senders. -/
structure PreInv (x : Option ℕ) (s : State) : Prop where
  receiving : Linked s.recvLists (s.recvOwner x)
  pending : Linked (fun _ => s.timeouts) s.timeoutOwner
  messages : Separate s.msgLists
  threads : Separate s.threadLists
  live : ∀ c, ∀ q ∈ s.threadLists c, s.queues q ≠ none
  queue : ∀ q queue, s.queues q = some queue → queue.Sound
  received : ∀ q queue, s.queues q = some queue → ∀ r ∈ queue.recvResult,
    ∀ res, s.results r = some res → res.msg = none
  unread : ∀ q queue, s.queues q = some queue → ∀ msg ∈ queue.sendMsgs, ∀ r, msg.result = some r →
    ∀ res, s.results r = some res → res.msg = some msg.id
  result : ∀ r res, s.results r = some res → res.Sound
  held : ∀ r res, s.results r = some res → x ≠ some r → res.Held
  counted : ∀ r, s.Counted r
  freshQueue : ∀ q, s.next ≤ q → s.queues q = none
  freshResult : ∀ r, s.next ≤ r → s.made r = false
  freshMsg : ∀ c, ∀ m ∈ s.msgLists c, m < s.next

structure Inv (x : Option ℕ) (s : State) : Prop extends PreInv x s where
  sending : Linked s.sendLists s.sendOwner

section Projections

variable {s : State} {q r : ℕ} {queue : Queue} {res : Option MessageResult} {x : Option ℕ}

theorem sendLists_setQueue :
    (s.setQueue q (some queue)).sendLists = Function.update s.sendLists q queue.sends :=
  Function.comp_update (Option.elim · [] Queue.sends) s.queues q (some queue)

theorem recvLists_setQueue :
    (s.setQueue q (some queue)).recvLists = Function.update s.recvLists q queue.receives :=
  Function.comp_update (Option.elim · [] Queue.receives) s.queues q (some queue)

theorem msgLists_setQueue :
    (s.setQueue q (some queue)).msgLists = Function.update s.msgLists (.queue q) queue.msgIds := by
  funext c
  cases c with
  | result i =>
    rw [Function.update_of_ne (show Holder.result i ≠ .queue q from (fun h => by cases h))]
    rfl
  | queue i =>
    by_cases hi : i = q
    · subst hi
      simp only [State.msgLists, State.setQueue_self, Function.update_self, Option.elim]
    · rw [Function.update_of_ne (show Holder.queue i ≠ .queue q by simpa using hi)]
      simp only [State.msgLists, State.setQueue_of_ne hi]

theorem sendOwner_setResult : (s.setResult r res).sendOwner =
    Function.update s.sendOwner r (res.bind (·.sender)) :=
  Function.comp_update (Option.bind · MessageResult.sender) s.results r res

theorem recvOwner_setResult : (s.setResult r res).recvOwner x =
    Function.update (s.recvOwner x) r (if x = some r then none else res.bind (·.receiver)) := by
  funext i
  by_cases hi : i = r
  · subst hi
    simp only [State.recvOwner, State.setResult_self, Function.update_self]
  · simp only [State.recvOwner, State.setResult_of_ne hi, Function.update_of_ne hi]

theorem timeoutOwner_setResult : (s.setResult r res).timeoutOwner =
    Function.update s.timeoutOwner r (res.bind fun res => if res.timeout then some () else none) :=
  Function.comp_update (Option.bind · fun res : MessageResult => if res.timeout then some () else none)
    s.results r res

theorem msgLists_setResult : (s.setResult r res).msgLists =
    Function.update s.msgLists (.result r)
      ((res.bind (·.callbackMsg)).elim [] fun msg => [msg.id]) := by
  funext c
  cases c with
  | queue i =>
    rw [Function.update_of_ne (show Holder.queue i ≠ .result r from (fun h => by cases h))]
    rfl
  | result i =>
    by_cases hi : i = r
    · subst hi
      simp only [State.msgLists, State.setResult_self, Function.update_self]
    · rw [Function.update_of_ne (show Holder.result i ≠ .result r by simpa using hi)]
      simp only [State.msgLists, State.setResult_of_ne hi]

end Projections

end Wine.Queues
