import Mathlib.Data.List.Nodup
import Wine.Server.TimerApc

/-!
# The timers that queued APCs refer to

A thread has at most one APC of each owner, as queueing one cancels the one before. That the owner
still exists depends on the destruction of timers: cancelling a timer takes its APC out of the
queue, destroying it does not.
-/

namespace Wine.Timers
open Lib

variable {s s' : State} {a th : Address} {t t' : Thread} {tm : Timer} {queue : List Apc}

section Queues

def owners (queue : List Apc) : List Address := queue.filterMap Apc.owner

theorem mem_owners {b : Address} : b ∈ owners queue ↔ ∃ apc ∈ queue, apc.owner = some b :=
  List.mem_filterMap

theorem cancelIn_sublist : (cancelIn a queue).Sublist queue := List.eraseP_sublist

theorem owners_cancelIn (h : (owners queue).Nodup) : a ∉ owners (cancelIn a queue) := by
  induction queue with
  | nil => exact List.not_mem_nil
  | cons apc queue ih =>
    rw [cancelIn, List.eraseP_cons]
    cases howner : apc.owner with
    | none =>
      rw [owners, List.filterMap_cons_none howner] at h
      simp only [reduceCtorEq, decide_false, cond_false]
      rw [owners, List.filterMap_cons_none howner]
      exact ih h
    | some b =>
      rw [owners, List.filterMap_cons_some howner, List.nodup_cons] at h
      by_cases hb : b = a
      · subst hb
        simp only [decide_true, cond_true]
        exact h.1
      · simp only [Option.some.injEq, hb, decide_false, cond_false]
        rw [owners, List.filterMap_cons_some howner, List.mem_cons, not_or]
        exact ⟨Ne.symm hb, ih h.2⟩

/-- No queue of a thread has two APCs of one owner, and only timers own APCs. -/
def Thread.Neat (t : Thread) : Prop :=
  (owners t.userApc).Nodup ∧ owners t.systemApc = []

theorem Thread.Neat.sublist (h : t.Neat) (huser : t'.userApc.Sublist t.userApc)
    (hsystem : t'.systemApc.Sublist t.systemApc) : t'.Neat := by
  refine ⟨h.1.sublist (huser.filterMap Apc.owner), ?_⟩
  have := hsystem.filterMap Apc.owner
  rw [show t.systemApc.filterMap Apc.owner = [] from h.2] at this
  exact List.sublist_nil.mp this

theorem threadQueueApc_none (t : Thread) (apc : Apc) (system alloc : Bool) (happc : apc.owner = none) :
    (threadQueueApc t apc system alloc).1 = t ∨
      (threadQueueApc t apc system alloc).1 = { t with systemApc := t.systemApc ++ [apc] } ∨
      (threadQueueApc t apc system alloc).1 = { t with userApc := t.userApc ++ [apc] } := by
  simp only [threadQueueApc, happc]
  split
  · exact .inl rfl
  · split
    · exact .inl rfl
    · split
      · exact .inr (.inl rfl)
      · exact .inr (.inr rfl)

/-- An APC with an owner takes the place of the owner's last one, even if it is not queued. -/
theorem threadQueueApc_owner (t : Thread) (apc : Apc) (alloc : Bool) (happc : apc.owner = some a) :
    threadQueueApc t apc false alloc = ({ t with userApc := cancelIn a t.userApc }, false) ∨
      threadQueueApc t apc false alloc =
        ({ t with userApc := cancelIn a t.userApc ++ [apc] }, true) := by
  simp only [threadQueueApc, happc, threadCancelApc, Bool.false_eq_true, if_false]
  split
  · exact .inl rfl
  · split
    · exact .inl rfl
    · exact .inr rfl

theorem threadDequeueApc_sublist (t : Thread) (systemOnly : Bool) :
    (threadDequeueApc t systemOnly).1.userApc.Sublist t.userApc ∧
      (threadDequeueApc t systemOnly).1.systemApc.Sublist t.systemApc := by
  rw [threadDequeueApc]
  split
  · rename_i apc rest hsystem
    rw [hsystem]
    exact ⟨.refl _, List.sublist_cons_self apc rest⟩
  · split
    · exact ⟨.refl _, .refl _⟩
    · split
      · rename_i apc rest huser
        rw [huser]
        exact ⟨List.sublist_cons_self apc rest, .refl _⟩
      · exact ⟨.refl _, .refl _⟩

theorem getApc_sublist (t : Thread) (systemOnly : Bool) (fuel : ℕ) :
    (getApc t systemOnly fuel).userApc.Sublist t.userApc ∧
      (getApc t systemOnly fuel).systemApc.Sublist t.systemApc := by
  induction fuel generalizing t with
  | zero => exact ⟨.refl _, .refl _⟩
  | succ fuel ih =>
    have hdequeue := threadDequeueApc_sublist t systemOnly
    rw [getApc]
    split
    · rename_i t' heq
      rwa [heq] at hdequeue
    · rename_i t' apc heq
      rw [heq] at hdequeue
      split
      · exact hdequeue
      · exact ⟨(ih t').1.trans hdequeue.1, (ih t').2.trans hdequeue.2⟩

end Queues

section Steps

theorem theTimer_bind {α : Type} {f : Timer → Except Fault α} {r : α}
    (h : theTimer s a >>= f = .ok r) : ∃ tm, s.timers a = some tm ∧ f tm = .ok r := by
  rw [theTimer] at h
  cases htm : s.timers a with
  | none => simp only [htm] at h; cases h
  | some tm =>
    simp only [htm] at h
    exact ⟨tm, rfl, h⟩

theorem theThread_bind {α : Type} {f : Thread → Except Fault α} {r : α}
    (h : theThread s th >>= f = .ok r) : ∃ t, s.threads th = some t ∧ f t = .ok r := by
  rw [theThread] at h
  cases ht : s.threads th with
  | none => simp only [ht] at h; cases h
  | some t =>
    simp only [ht] at h
    exact ⟨t, rfl, h⟩

theorem bind_ok {α β : Type} {x : Except Fault α} {f : α → Except Fault β} {r : β}
    (h : x >>= f = .ok r) : ∃ v, x = .ok v ∧ f v = .ok r := by
  cases x with
  | error e => cases h
  | ok v => exact ⟨v, rfl, h⟩

theorem map_ok {α β : Type} {x : Except Fault α} {f : α → β} {r : β}
    (h : x.map f = .ok r) : ∃ v, x = .ok v ∧ f v = r := by
  cases x with
  | error e => cases h
  | ok v => exact ⟨v, rfl, Except.ok.inj h⟩

theorem cancelTimer_cases {b : Bool} (h : cancelTimer s a = .ok (s', b)) :
    ∃ tm, s.timers a = some tm ∧
      ((tm.thread = none ∧ s' = setTimerAt s a (some { tm with timeout := false })) ∨
      ∃ th t, tm.thread = some th ∧ s.threads th = some t ∧
        s' = setTimerAt (setThread s th (some { t with userApc := cancelIn a t.userApc })) a
          (some { tm with timeout := false, thread := none })) := by
  obtain ⟨tm, htm, h⟩ := theTimer_bind h
  refine ⟨tm, htm, ?_⟩
  cases hth : tm.thread with
  | none =>
    simp only [hth] at h
    exact .inl ⟨rfl, (congrArg Prod.fst (Except.ok.inj h)).symm⟩
  | some th =>
    simp only [hth] at h
    obtain ⟨t, ht, h⟩ := theThread_bind h
    exact .inr ⟨th, t, rfl, ht, (congrArg Prod.fst (Except.ok.inj h)).symm⟩

theorem setTimer_cases {current : Address} {expire period arg : ℤ} {callback : ℕ}
    {added b : Bool} (h : setTimer s current a expire period callback arg added = .ok (s', b)) :
    ∃ s₁ tm tm', cancelTimer s a = .ok (s₁, b) ∧ s₁.timers a = some tm ∧
      s' = setTimerAt s₁ a (some tm') ∧ tm'.serial = tm.serial ∧
      (tm'.thread = some current ∨ tm'.thread = none) := by
  obtain ⟨⟨s₁, signaled⟩, hcancel, h⟩ := bind_ok h
  obtain ⟨tm, htm, h⟩ := theTimer_bind h
  obtain ⟨hs', rfl⟩ := Prod.mk.inj (Except.ok.inj h)
  refine ⟨s₁, tm, _, hcancel, htm, hs'.symm, rfl, ?_⟩
  by_cases hcallback : callback ≠ 0
  · exact .inl (if_pos hcallback)
  · exact .inr (if_neg hcallback)

theorem queueTimerApc_cases {alloc : Bool} {tm' : Timer}
    (h : queueTimerApc s a tm alloc = .ok (s', tm')) :
    (tm.thread = none ∧ s' = s ∧ tm' = tm) ∨
    ∃ th t, tm.thread = some th ∧ s.threads th = some t ∧
      ((s' = setThread s th (some { t with userApc := cancelIn a t.userApc }) ∧
        tm' = { tm with thread := none }) ∨
      ∃ apc, apc.owner = some a ∧ apc.queuedBy = some tm.serial ∧ tm' = tm ∧
        s' = setThread s th (some { t with userApc := cancelIn a t.userApc ++ [apc] })) := by
  rw [queueTimerApc] at h
  cases hth : tm.thread with
  | none =>
    simp only [hth] at h
    obtain ⟨rfl, rfl⟩ := Prod.mk.inj (Except.ok.inj h)
    exact .inl ⟨rfl, rfl, rfl⟩
  | some th =>
    simp only [hth] at h
    obtain ⟨t, ht, h⟩ := theThread_bind h
    refine .inr ⟨th, t, rfl, ht, ?_⟩
    obtain hqueue | hqueue := threadQueueApc_owner t
      ⟨some a, tm.callback, .timer, [tm.expire, tm.arg], some tm.serial⟩ alloc rfl
    · rw [hqueue] at h
      obtain ⟨rfl, rfl⟩ := Prod.mk.inj (Except.ok.inj h)
      exact .inl ⟨rfl, rfl⟩
    · rw [hqueue] at h
      obtain ⟨rfl, rfl⟩ := Prod.mk.inj (Except.ok.inj h)
      exact .inr ⟨_, rfl, rfl, rfl, rfl⟩

theorem timerCallback_cases {alloc added : Bool} (h : timerCallback s a alloc added = .ok s') :
    ∃ tm s₁ tm₁ tm₂, s.timers a = some tm ∧ queueTimerApc s a tm alloc = .ok (s₁, tm₁) ∧
      s' = setTimerAt s₁ a (some tm₂) ∧ tm₂.serial = tm₁.serial ∧ tm₂.thread = tm₁.thread := by
  obtain ⟨tm, htm, h⟩ := theTimer_bind h
  obtain ⟨⟨s₁, tm₁⟩, hqueue, h⟩ := bind_ok h
  refine ⟨tm, s₁, tm₁, _, htm, hqueue, (Except.ok.inj h).symm, ?_, ?_⟩
  · dsimp only
    split <;> rfl
  · dsimp only
    split <;> rfl

end Steps

section Neat

def AllNeat (s : State) : Prop := ∀ th t, s.threads th = some t → t.Neat

theorem AllNeat.setThread (h : AllNeat s) {t : Option Thread} (ht : ∀ t', t = some t' → t'.Neat) :
    AllNeat (setThread s th t) := by
  intro th' t' ht'
  simp only [Timers.setThread] at ht'
  by_cases hth : th' = th
  · rw [hth, Function.update_self] at ht'
    exact ht t' ht'
  · rw [Function.update_of_ne hth] at ht'
    exact h th' t' ht'

theorem AllNeat.sublist (h : AllNeat s) (ht : s.threads th = some t)
    (huser : t'.userApc.Sublist t.userApc) (hsystem : t'.systemApc.Sublist t.systemApc) :
    AllNeat (Timers.setThread s th (some t')) :=
  h.setThread fun _ heq => Option.some.inj heq ▸ (h th t ht).sublist huser hsystem

theorem AllNeat.queueTimerApc (h : AllNeat s) {alloc : Bool} {tm' : Timer}
    (hq : Timers.queueTimerApc s a tm alloc = .ok (s', tm')) : AllNeat s' := by
  obtain ⟨-, rfl, -⟩ | ⟨th, t, -, ht, ⟨rfl, -⟩ | ⟨apc, howner, -, -, rfl⟩⟩ := queueTimerApc_cases hq
  · exact h
  · exact h.sublist ht cancelIn_sublist (.refl _)
  · refine h.setThread fun t' heq => ?_
    obtain rfl := Option.some.inj heq
    refine ⟨?_, (h th t ht).2⟩
    have hnew : owners (cancelIn a t.userApc ++ [apc]) = owners (cancelIn a t.userApc) ++ [a] := by
      rw [owners, List.filterMap_append, List.filterMap_cons_some howner]
      rfl
    rw [hnew, ← List.concat_eq_append, List.nodup_concat]
    exact ⟨owners_cancelIn (h th t ht).1, (h th t ht).1.sublist (cancelIn_sublist.filterMap _)⟩

theorem AllNeat.cancelTimer (h : AllNeat s) {b : Bool}
    (hc : Timers.cancelTimer s a = .ok (s', b)) : AllNeat s' := by
  obtain ⟨tm, -, ⟨-, rfl⟩ | ⟨th, t, -, ht, rfl⟩⟩ := cancelTimer_cases hc
  · exact h
  · exact h.sublist ht cancelIn_sublist (.refl _)

/-- Two APCs of one owner never come together. -/
theorem AllNeat.step (h : AllNeat s) {action : Action} (hst : Timers.step s action = .ok s') :
    AllNeat s' := by
  cases action with
  | createThread th =>
    obtain rfl := Except.ok.inj hst
    refine h.setThread fun t heq => ?_
    obtain rfl := Option.some.inj heq
    exact ⟨.nil, rfl⟩
  | killThread th =>
    obtain ⟨t, ht, hst⟩ := theThread_bind hst
    obtain rfl := Except.ok.inj hst
    exact h.sublist ht (List.nil_sublist _) (List.nil_sublist _)
  | destroyThread th =>
    obtain rfl := Except.ok.inj hst
    exact h.setThread fun t heq => by cases heq
  | createTimer a manual =>
    obtain rfl := Except.ok.inj hst
    exact h
  | grabTimer a =>
    obtain ⟨tm, -, hst⟩ := theTimer_bind hst
    obtain rfl := Except.ok.inj hst
    exact h
  | releaseTimer a =>
    obtain ⟨tm, -, hst⟩ := theTimer_bind hst
    obtain rfl := Except.ok.inj hst
    exact h
  | setTimer current a expire period callback arg added =>
    obtain ⟨⟨s₁, b⟩, hset, rfl⟩ := map_ok hst
    obtain ⟨s₂, tm, tm', hcancel, -, rfl, -⟩ := setTimer_cases hset
    have hneat := h.cancelTimer hcancel
    exact hneat
  | cancelTimer a =>
    obtain ⟨⟨s₁, b⟩, hcancel, rfl⟩ := map_ok hst
    exact h.cancelTimer hcancel
  | expire a alloc added =>
    obtain ⟨tm, s₁, tm₁, tm₂, -, hqueue, rfl, -⟩ := timerCallback_cases hst
    have hneat := h.queueTimerApc hqueue
    exact hneat
  | satisfied a =>
    obtain ⟨tm, -, hst⟩ := theTimer_bind hst
    obtain rfl := Except.ok.inj hst
    exact h
  | queueApc th func type args system alloc =>
    obtain ⟨t, ht, hst⟩ := theThread_bind hst
    obtain rfl := Except.ok.inj hst
    refine h.setThread fun t' heq => ?_
    obtain rfl := Option.some.inj heq
    obtain hq | hq | hq := threadQueueApc_none t
      ⟨none, func, type, args, none⟩ system alloc rfl
    · rw [hq]
      exact h th t ht
    · rw [hq]
      refine ⟨(h th t ht).1, ?_⟩
      rw [owners, List.filterMap_append]
      exact List.append_eq_nil_iff.mpr ⟨(h th t ht).2, rfl⟩
    · rw [hq]
      refine ⟨?_, (h th t ht).2⟩
      rw [owners, List.filterMap_append]
      exact (List.append_nil (owners t.userApc)).symm ▸ (h th t ht).1
  | getApc th alertable =>
    obtain ⟨t, ht, hst⟩ := theThread_bind hst
    obtain rfl := Except.ok.inj hst
    exact h.sublist ht (getApc_sublist t _ _).1 (getApc_sublist t _ _).2
  | tick time =>
    obtain rfl := Except.ok.inj hst
    exact h

end Neat

section Owned

/-- Every APC with an owner is in the queue of the thread that its timer names, and was queued by
the timer that is at that address now. -/
structure Owned (s : State) : Prop where
  owner : ∀ th t, s.threads th = some t → ∀ apc ∈ t.userApc, ∀ a, apc.owner = some a →
    ∃ tm, s.timers a = some tm ∧ tm.thread = some th ∧ apc.queuedBy = some tm.serial
  alive : ∀ a tm th, s.timers a = some tm → tm.thread = some th → s.threads th ≠ none

/-- No APC of the timer at an address is queued. -/
def Unqueued (s : State) (a : Address) : Prop :=
  ∀ th t, s.threads th = some t → ∀ apc ∈ t.userApc, apc.owner ≠ some a

theorem Owned.unqueued (h : Owned s) (ha : ∀ tm, s.timers a = some tm → tm.thread = none) :
    Unqueued s a := by
  intro th t ht apc hapc howner
  obtain ⟨tm, htm, hth, -⟩ := h.owner th t ht apc hapc a howner
  rw [ha tm htm] at hth
  cases hth

theorem Owned.setTimerAt (h : Owned s) (tm' : Option Timer)
    (hkeep : Unqueued s a ∨ ∃ tm tm₂, s.timers a = some tm ∧ tm' = some tm₂ ∧
      tm₂.serial = tm.serial ∧ tm₂.thread = tm.thread)
    (halive : ∀ tm₂ th, tm' = some tm₂ → tm₂.thread = some th → s.threads th ≠ none) :
    Owned (setTimerAt s a tm') := by
  constructor
  · intro th t ht apc hapc b howner
    simp only [Timers.setTimerAt] at ht ⊢
    obtain ⟨tm, htm, hth, hby⟩ := h.owner th t ht apc hapc b howner
    by_cases hb : b = a
    · subst hb
      obtain hnone | ⟨tm₁, tm₂, htm₁, rfl, hserial, hthread⟩ := hkeep
      · exact absurd howner (hnone th t ht apc hapc)
      · rw [htm, Option.some.injEq] at htm₁
        subst htm₁
        exact ⟨tm₂, Function.update_self .., hthread.trans hth, by rw [hserial, hby]⟩
    · exact ⟨tm, by rwa [Function.update_of_ne hb], hth, hby⟩
  · intro b tm th htm hth
    simp only [Timers.setTimerAt] at htm ⊢
    by_cases hb : b = a
    · rw [hb, Function.update_self] at htm
      exact halive tm th htm hth
    · rw [Function.update_of_ne hb] at htm
      exact h.alive b tm th htm hth

/-- A timer that keeps its thread. -/
theorem Owned.sameThread (h : Owned s) (htm : s.timers a = some tm) {tm' : Timer}
    (hserial : tm'.serial = tm.serial) (hthread : tm'.thread = tm.thread) :
    Owned (Timers.setTimerAt s a (some tm')) := by
  refine h.setTimerAt _ (.inr ⟨tm, tm', htm, rfl, hserial, hthread⟩) fun tm₂ th heq hth => ?_
  obtain rfl := Option.some.inj heq
  exact h.alive a tm th htm (hthread ▸ hth)

/-- A queue whose APCs were there before or are those of timers that name the thread. -/
theorem Owned.setThread (h : Owned s)
    (hsub : ∀ apc ∈ t'.userApc, (∃ t, s.threads th = some t ∧ apc ∈ t.userApc) ∨
      ∀ a, apc.owner = some a →
        ∃ tm, s.timers a = some tm ∧ tm.thread = some th ∧ apc.queuedBy = some tm.serial) :
    Owned (setThread s th (some t')) := by
  constructor
  · intro th₁ t₁ ht₁ apc hapc b howner
    simp only [Timers.setThread] at ht₁ ⊢
    by_cases hth : th₁ = th
    · subst hth
      rw [Function.update_self, Option.some.injEq] at ht₁
      subst ht₁
      obtain ⟨t, ht, hin⟩ | hnew := hsub apc hapc
      · exact h.owner th₁ t ht apc hin b howner
      · exact hnew b howner
    · rw [Function.update_of_ne hth] at ht₁
      exact h.owner th₁ t₁ ht₁ apc hapc b howner
  · intro b tm th₁ htm hth₁
    simp only [Timers.setThread] at htm ⊢
    by_cases hth : th₁ = th
    · rw [hth, Function.update_self]
      exact Option.some_ne_none t'
    · rw [Function.update_of_ne hth]
      exact h.alive b tm th₁ htm hth₁

theorem Owned.subset (h : Owned s) (ht : s.threads th = some t)
    (hsub : ∀ apc ∈ t'.userApc, apc ∈ t.userApc ∨ apc.owner = none) :
    Owned (Timers.setThread s th (some t')) := by
  refine h.setThread fun apc hapc => ?_
  obtain hin | hnone := hsub apc hapc
  · exact .inl ⟨t, ht, hin⟩
  · exact .inr fun a howner => by rw [hnone] at howner; cases howner

/-- Without the APC of a timer in the queue of its thread there is none in any queue. -/
theorem Owned.unqueued_cancelIn (h : Owned s) (hn : AllNeat s) (htm : s.timers a = some tm)
    (hth : tm.thread = some th) (ht : s.threads th = some t) :
    Unqueued (Timers.setThread s th (some { t with userApc := cancelIn a t.userApc })) a := by
  intro th₁ t₁ ht₁ apc hapc howner
  simp only [Timers.setThread] at ht₁
  by_cases hne : th₁ = th
  · rw [hne, Function.update_self, Option.some.injEq] at ht₁
    subst ht₁
    exact owners_cancelIn (hn th t ht).1 (mem_owners.mpr ⟨apc, hapc, howner⟩)
  · rw [Function.update_of_ne hne] at ht₁
    obtain ⟨tm₁, htm₁, hth₁, -⟩ := h.owner th₁ t₁ ht₁ apc hapc a howner
    rw [htm, Option.some.injEq] at htm₁
    rw [← htm₁, hth] at hth₁
    exact hne (Option.some.inj hth₁).symm

theorem Owned.cancelIn (h : Owned s) (ht : s.threads th = some t) :
    Owned (Timers.setThread s th (some { t with userApc := Timers.cancelIn a t.userApc })) :=
  h.subset ht fun _ hapc => .inl (cancelIn_sublist.subset hapc)

theorem Owned.cancelTimer (h : Owned s) (hn : AllNeat s) {b : Bool}
    (hc : Timers.cancelTimer s a = .ok (s', b)) :
    Owned s' ∧ Unqueued s' a ∧ ∀ th, s.threads th ≠ none → s'.threads th ≠ none := by
  obtain ⟨tm, htm, ⟨hth, rfl⟩ | ⟨th, t, hth, ht, rfl⟩⟩ := cancelTimer_cases hc
  · refine ⟨h.sameThread htm rfl rfl, ?_, fun _ hth => hth⟩
    refine h.unqueued fun tm' htm' => ?_
    rw [htm, Option.some.injEq] at htm'
    rw [← htm', hth]
  · have hun := h.unqueued_cancelIn hn htm hth ht
    refine ⟨(h.cancelIn ht).setTimerAt _ (.inl hun) fun tm₂ th₂ heq hth₂ => ?_, hun, fun th₁ hne => ?_⟩
    · obtain rfl := Option.some.inj heq
      cases hth₂
    · simp only [Timers.setTimerAt, Timers.setThread]
      by_cases heq : th₁ = th
      · rw [heq, Function.update_self]
        exact Option.some_ne_none _
      · rwa [Function.update_of_ne heq]

theorem Owned.timerCallback (h : Owned s) (hn : AllNeat s) {alloc added : Bool}
    (hc : Timers.timerCallback s a alloc added = .ok s') : Owned s' := by
  obtain ⟨tm, s₁, tm₁, tm₂, htm, hqueue, rfl, hserial, hthread⟩ := timerCallback_cases hc
  obtain ⟨hth, rfl, rfl⟩ | ⟨th, t, hth, ht, ⟨rfl, rfl⟩ | ⟨apc, howner, hby, rfl, rfl⟩⟩ :=
    queueTimerApc_cases hqueue
  · exact h.sameThread htm hserial hthread
  · have hun := h.unqueued_cancelIn hn htm hth ht
    refine (h.cancelIn ht).setTimerAt _ (.inl hun) fun tm' th' heq hth' => ?_
    obtain rfl := Option.some.inj heq
    rw [hthread] at hth'
    cases hth'
  · have hqueued : Owned (Timers.setThread s th
        (some { t with userApc := Timers.cancelIn a t.userApc ++ [apc] })) := by
      refine h.setThread fun apc' hapc' => ?_
      obtain hin | heq := List.mem_append.mp hapc'
      · exact .inl ⟨t, ht, cancelIn_sublist.subset hin⟩
      · obtain rfl := List.mem_singleton.mp heq
        refine .inr fun b hb => ?_
        rw [howner, Option.some.injEq] at hb
        subst hb
        exact ⟨_, htm, hth, hby⟩
    exact hqueued.sameThread htm hserial hthread

/-- The step lemma: the owners stay as long as no timer is destroyed with its APC queued. -/
theorem Owned.step (h : Owned s) (hn : AllNeat s) {action : Action} (hposs : Possible s action)
    (hok : NoOrphan s action) (hst : Timers.step s action = .ok s') : Owned s' := by
  cases action with
  | createThread th =>
    obtain rfl := Except.ok.inj hst
    exact h.setThread fun apc hapc => by cases hapc
  | killThread th =>
    obtain ⟨t, ht, hst⟩ := theThread_bind hst
    obtain rfl := Except.ok.inj hst
    exact h.subset ht fun apc hapc => by cases hapc
  | destroyThread th =>
    obtain rfl := Except.ok.inj hst
    refine ⟨fun th₁ t₁ ht₁ => ?_, fun a tm th₁ htm hth₁ => ?_⟩
    · simp only [Timers.setThread] at ht₁ ⊢
      by_cases hth : th₁ = th
      · rw [hth, Function.update_self] at ht₁
        cases ht₁
      · rw [Function.update_of_ne hth] at ht₁
        exact h.owner th₁ t₁ ht₁
    · simp only [Timers.setThread] at htm ⊢
      have hth : th₁ ≠ th := by
        rintro rfl
        exact hposs.2 a tm htm hth₁
      rw [Function.update_of_ne hth]
      exact h.alive a tm th₁ htm hth₁
  | createTimer a manual =>
    obtain rfl := Except.ok.inj hst
    have hun : Unqueued s a := h.unqueued fun tm htm => by
      rw [show s.timers a = none from hposs] at htm
      cases htm
    have hnew := h.setTimerAt (some ⟨s.nextSerial, 1, manual, false, 0, 0, 0, 0, false, none⟩)
      (.inl hun)
      fun tm₂ th heq hth => by
        obtain rfl := Option.some.inj heq
        cases hth
    exact ⟨hnew.owner, hnew.alive⟩
  | grabTimer a =>
    obtain ⟨tm, htm, hst⟩ := theTimer_bind hst
    obtain rfl := Except.ok.inj hst
    exact h.sameThread htm rfl rfl
  | releaseTimer a =>
    obtain ⟨tm, htm, hst⟩ := theTimer_bind hst
    obtain rfl := Except.ok.inj hst
    by_cases hlast : tm.refs ≤ 1
    · rw [if_pos hlast]
      exact h.setTimerAt _ (.inl (hok tm htm hlast)) fun _ _ heq => by cases heq
    · rw [if_neg hlast]
      exact h.sameThread htm rfl rfl
  | setTimer current a expire period callback arg added =>
    obtain ⟨⟨s₁, b⟩, hset, rfl⟩ := map_ok hst
    obtain ⟨s₂, tm, tm', hcancel, htm, rfl, hserial, hthread⟩ := setTimer_cases hset
    obtain ⟨hown, hun, hkeep⟩ := h.cancelTimer hn hcancel
    refine hown.setTimerAt _ (.inl hun) fun tm₂ th heq hth => ?_
    obtain rfl := Option.some.inj heq
    obtain hcur | hnone := hthread
    · rw [hcur, Option.some.injEq] at hth
      subst hth
      obtain ⟨t, ht, -⟩ := hposs
      exact hkeep current (by rw [ht]; exact Option.some_ne_none t)
    · rw [hnone] at hth
      cases hth
  | cancelTimer a =>
    obtain ⟨⟨s₁, b⟩, hcancel, rfl⟩ := map_ok hst
    exact (h.cancelTimer hn hcancel).1
  | expire a alloc added => exact h.timerCallback hn hst
  | satisfied a =>
    obtain ⟨tm, htm, hst⟩ := theTimer_bind hst
    obtain rfl := Except.ok.inj hst
    refine h.sameThread htm ?_ ?_
    · split <;> rfl
    · split <;> rfl
  | queueApc th func type args system alloc =>
    obtain ⟨t, ht, hst⟩ := theThread_bind hst
    obtain rfl := Except.ok.inj hst
    refine h.subset ht fun apc hapc => ?_
    obtain hq | hq | hq := threadQueueApc_none t
      ⟨none, func, type, args, none⟩ system alloc rfl
    · rw [hq] at hapc
      exact .inl hapc
    · rw [hq] at hapc
      exact .inl hapc
    · rw [hq] at hapc
      obtain hin | heq := List.mem_append.mp hapc
      · exact .inl hin
      · exact .inr (List.mem_singleton.mp heq ▸ rfl)
  | getApc th alertable =>
    obtain ⟨t, ht, hst⟩ := theThread_bind hst
    obtain rfl := Except.ok.inj hst
    exact h.subset ht fun apc hapc => .inl ((getApc_sublist t _ _).1.subset hapc)
  | tick time =>
    obtain rfl := Except.ok.inj hst
    exact ⟨h.owner, h.alive⟩

end Owned

section Runs

/-- A thread has at most one APC of an owner, the owner is a timer that still exists, and what
`thread_cancel_apc` takes out of the queue for a timer was queued by that timer. -/
def Consistent (s : State) : Prop :=
  ∀ th t, s.threads th = some t → t.Neat ∧
    (∀ a ∈ owners t.userApc, s.timers a ≠ none) ∧
    ∀ a tm, s.timers a = some tm → ∀ apc ∈ t.userApc,
      apc ∈ cancelIn a t.userApc ∨ apc.queuedBy = some tm.serial

theorem Owned.consistent (h : Owned s) (hn : AllNeat s) : Consistent s := by
  refine fun th t ht => ⟨hn th t ht, fun a ha => ?_, fun a tm htm apc hapc => ?_⟩
  · obtain ⟨apc, hapc, howner⟩ := mem_owners.mp ha
    obtain ⟨tm, htm, -⟩ := h.owner th t ht apc hapc a howner
    rw [htm]
    exact Option.some_ne_none tm
  · by_cases howner : apc.owner = some a
    · obtain ⟨tm', htm', -, hby⟩ := h.owner th t ht apc hapc a howner
      rw [htm, Option.some.injEq] at htm'
      exact .inr (htm' ▸ hby)
    · exact .inl ((List.mem_eraseP_of_neg (by simpa using howner)).mpr hapc)

theorem allNeat_init : AllNeat init := by
  intro th t ht
  cases ht

theorem owned_init : Owned init where
  owner th t ht := by cases ht
  alive a tm th htm := by cases htm

/-- In every run in which no timer is destroyed while its APC is queued, the APCs are those of timers
that exist. -/
theorem timer_apcs_consistent {as : List Action}
    (h : Run step (fun s action => Possible s action ∧ NoOrphan s action) init as s) :
    Consistent s := by
  have hinv : AllNeat s ∧ Owned s := by
    apply h.invariant (I := fun s => AllNeat s ∧ Owned s)
    · exact ⟨allNeat_init, owned_init⟩
    · intro t action t' ht hok hst
      exact ⟨ht.1.step hst, ht.2.step ht.1 hok.1 hok.2 hst⟩
  exact hinv.2.consistent hinv.1

def isPossible (s : State) : Action → Bool
  | .createThread th => (s.threads th).isNone
  | .destroyThread _ => false
  | .createTimer a _ => (s.timers a).isNone
  | .setTimer current _ _ _ _ _ _ => (s.threads current).any fun t => t.terminated = false
  | .expire a _ _ => (s.timers a).any fun t => t.timeout = true && t.expire ≤ s.now
  | .tick time => s.now ≤ time
  | _ => true

theorem possible_of_isPossible (s : State) (action : Action) (h : isPossible s action = true) :
    Possible s action := by
  cases action with
  | createThread th => exact Option.isNone_iff_eq_none.mp h
  | createTimer a manual => exact Option.isNone_iff_eq_none.mp h
  | destroyThread th => cases h
  | setTimer current a expire period callback arg added =>
    obtain ⟨t, ht, hrun⟩ := (Option.any_eq_true _ _).mp h
    exact ⟨t, ht, by simpa using hrun⟩
  | expire a alloc added =>
    obtain ⟨tm, htm, hdue⟩ := (Option.any_eq_true _ _).mp h
    exact ⟨tm, htm, by simpa using hdue⟩
  | tick time => exact of_decide_eq_true (p := s.now ≤ time) h
  | killThread th => trivial
  | grabTimer a => trivial
  | releaseTimer a => trivial
  | cancelTimer a => trivial
  | satisfied a => trivial
  | queueApc th func type args system alloc => trivial
  | getApc th alertable => trivial

/-- A timer sets off an APC, is set again, goes off again and has its APC delivered. -/
def sampleRun : List Action :=
  [.createThread 1, .createTimer 7 false, .setTimer 1 7 5 10 99 0 true, .tick 20000,
    .expire 7 true true, .expire 7 true true, .setTimer 1 7 30000 0 98 0 true, .tick 30000,
    .expire 7 true true, .getApc 1 true]

def releases : Action → Bool
  | .releaseTimer _ => true
  | _ => false

theorem timer_apcs_consistent_sample : ∃ s,
    Run step (fun s action => Possible s action ∧ NoOrphan s action) init sampleRun s ∧
      Consistent s := by
  obtain ⟨s, hrun, -⟩ := run_of_execTo (f := step)
    (q := fun s action => Possible s action ∧ NoOrphan s action)
    (g := fun s action => isPossible s action && !releases action)
    (p := fun s => (s.threads 1).any fun t => t.userApc.isEmpty) (s := init) (l := sampleRun)
    (fun s action h => by
      simp only [Bool.and_eq_true, Bool.not_eq_true'] at h
      refine ⟨possible_of_isPossible s action h.1, ?_⟩
      cases action with
      | releaseTimer a => cases h.2
      | _ => trivial)
    (by decide)
  exact ⟨s, hrun, timer_apcs_consistent hrun⟩

/-- The timer at 7 is destroyed with its APC queued. -/
def orphanRun : List Action :=
  [.createThread 1, .createTimer 7 false, .setTimer 1 7 5 0 99 0 true, .tick 10,
    .expire 7 true true, .releaseTimer 7]

/-- Another timer gets the address, and its APC takes the place of the one before. -/
def orphanRun' : List Action :=
  [.createTimer 7 false, .setTimer 1 7 15 0 98 0 true, .tick 20, .expire 7 true true]

def queuedAt (s : State) (th : Address) : List (Option Address × Option ℕ) :=
  ((s.threads th).map fun t => t.userApc.map fun apc => (apc.owner, apc.queuedBy)).getD []

theorem orphaned_apc : ∃ s s', Run step Possible init orphanRun s ∧
    (s.timers 7).isNone = true ∧ queuedAt s 1 = [(some 7, some 0)] ∧
    Run step Possible s orphanRun' s' ∧ queuedAt s' 1 = [(some 7, some 1)] := by
  obtain ⟨s, hrun, hs⟩ := run_of_execTo (f := step) (q := Possible) (g := isPossible)
    (p := fun s => (s.timers 7).isNone && queuedAt s 1 = [(some 7, some 0)] &&
      execTo step isPossible (fun s => queuedAt s 1 = [(some 7, some 1)]) s orphanRun')
    (s := init) (l := orphanRun) possible_of_isPossible (by decide)
  simp only [Bool.and_eq_true, decide_eq_true_iff] at hs
  obtain ⟨s', hrun', hs'⟩ := run_of_execTo possible_of_isPossible hs.2
  exact ⟨s, s', hrun, hs.1.1, hs.1.2, hrun', of_decide_eq_true hs'⟩

end Runs

end Wine.Timers
