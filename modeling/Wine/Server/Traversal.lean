import Wine.Server.WaitRuns

/-!
# The traversal of `wake_up`

`wake_up` saves the successor of an entry before it wakes the entry's thread. The rounds of a
traversal are recorded here, and the traversal is safe exactly if no round ends the wait that the
saved entry belongs to.
-/

namespace Wine.Server
open Wine.Lib

variable {s s' : State} {o : ObjId} {e : WaitQueueEntry}

/-! ## The rounds of a traversal -/

/-- A round that woke the thread of an entry `woken` times, with the entry saved as the next. -/
structure Round where
  before : State
  entry : WaitQueueEntry
  next : Option WaitQueueEntry
  max : ℕ
  woken : ℕ
  after : State

/-- The limit has been reached. -/
def Round.Last (r : Round) : Prop := r.woken ≠ 0 ∧ r.max = 1

instance (r : Round) : Decidable r.Last := inferInstanceAs (Decidable (_ ∧ _))

/-- How a traversal ends: at the end of the queue or at its limit, at an entry that is no longer in
the queue, with a fault in a round, or for want of rounds. -/
inductive Ending
  | finished (s : State)
  | removed
  | fault (e : Fault)
  | spent

section
variable (writeOk : ℕ → Bool) (kill : ObjId → M PUnit)

/-- The loop of `wake_up` with its rounds. -/
def traverse (o : ObjId) :
    ℕ → WaitQueueEntry → Option WaitQueueEntry → ℕ → State → List Round × Ending
  | 0, _, _, _, _ => ([], .spent)
  | n + 1, ptr, next, max, s =>
    match wakeThread writeOk kill ptr.thread s with
    | .error e => ([], .fault e)
    | .ok (woken, s') =>
      let r : Round := ⟨s, ptr, next, max, woken, s'⟩
      if r.Last then ([r], .finished s')
      else
        match next with
        | none => ([r], .finished s')
        | some e =>
          match nextEntry e (s'.object o).waitQueue with
          | none => ([r], .removed)
          | some next' =>
            let rest := traverse o n e next' (if woken ≠ 0 then max - 1 else max) s'
            (r :: rest.1, rest.2)

def walk (o : ObjId) (max : ℕ) (s : State) : List Round × Ending :=
  match (s.object o).waitQueue with
  | [] => ([], .finished s)
  | e :: l => traverse writeOk kill o (l.length + 1) e l.head? max s

def Ending.outcome : Ending → Except Fault (PUnit × State)
  | .finished s => .ok (⟨⟩, s)
  | .removed => .error .badPointer
  | .fault e => .error e
  | .spent => .error .outOfFuel

theorem bind_of_ok {α β : Type} {m : M α} {f : α → M β} {a : α} (h : m s = .ok (a, s')) :
    (m >>= f) s = f a s' := by
  show (m s >>= fun r => f r.1 r.2) = _
  rw [h]
  rfl

theorem bind_of_error {α β : Type} {m : M α} {f : α → M β} {e : Fault} (h : m s = .error e) :
    (m >>= f) s = .error e := by
  show (m s >>= fun r => f r.1 r.2) = _
  rw [h]
  rfl

theorem wakeUpLoop_eq (n : ℕ) (ptr : WaitQueueEntry) (next : Option WaitQueueEntry) (max : ℕ)
    (s : State) : wakeUpLoop writeOk kill o n ptr next max s =
      (traverse writeOk kill o n ptr next max s).2.outcome := by
  induction n generalizing ptr next max s with
  | zero => rfl
  | succ n ih =>
    unfold wakeUpLoop traverse
    cases hw : wakeThread writeOk kill ptr.thread s with
    | error e => exact bind_of_error hw
    | ok r =>
      obtain ⟨woken, s'⟩ := r
      rw [bind_of_ok hw]
      dsimp only
      by_cases hlast : woken ≠ 0 ∧ max = 1
      · rw [if_pos hlast, if_pos (show Round.Last ⟨s, ptr, next, max, woken, s'⟩ from hlast)]
        rfl
      rw [if_neg hlast, if_neg (show ¬ Round.Last ⟨s, ptr, next, max, woken, s'⟩ from hlast)]
      cases next with
      | none => rfl
      | some e =>
        have hget : (get : M State) s' = .ok (s', s') := rfl
        dsimp only
        rw [bind_of_ok hget]
        cases nextEntry e (s'.object o).waitQueue with
        | none => rfl
        | some next => exact ih e next _ s'

/-- The rounds are those of `wake_up`. -/
theorem wakeUp_eq (o : ObjId) (max : ℕ) (s : State) :
    wakeUp writeOk kill o max s = (walk writeOk kill o max s).2.outcome := by
  have hget : (get : M State) s = .ok (s, s) := rfl
  unfold wakeUp walk
  rw [bind_of_ok hget]
  cases (s.object o).waitQueue with
  | nil => rfl
  | cons e l => exact wakeUpLoop_eq writeOk kill _ e _ max s

/-- The traversal never comes to an entry that has been removed, and every entry that is in the queue
from the start to the end is examined, or another of its thread, unless the limit is reached. -/
structure WalksSafely (o : ObjId) (max : ℕ) (s : State) : Prop where
  present : ∀ r ∈ (walk writeOk kill o max s).1, r.entry ∈ (r.before.object o).waitQueue
  linked : (walk writeOk kill o max s).2 ≠ .removed
  ends : (walk writeOk kill o max s).2 ≠ .spent
  offered : ∀ s', (walk writeOk kill o max s).2 = .finished s' →
    ∀ e ∈ (s.object o).waitQueue, e ∈ (s'.object o).waitQueue →
      (∃ r ∈ (walk writeOk kill o max s).1, r.entry.thread = e.thread) ∨
        (max ≠ 0 ∧ ((walk writeOk kill o max s).1.filter (·.woken ≠ 0)).length = max)

/-- To wake the thread does not end a wait that the entry belongs to. -/
def Spares (s : State) (t : ObjId) (e : WaitQueueEntry) : Prop :=
  ∀ n s', wakeThread writeOk kill t s = .ok (n, s') →
    ∀ t', ∀ w ∈ (s.thread t').wait, e ∈ w.queues → w ∈ (s'.thread t').wait

end

/-- The functions that `wake_up` is called with: `kill_thread` from outside and in nested deaths. -/
inductive Kills (writeOk : ℕ → Bool) : (ObjId → M PUnit) → Prop
  | top : Kills writeOk (killThread writeOk)
  | nested (n : ℕ) : Kills writeOk (killThreadAt writeOk n)

theorem Kills.waking {writeOk : ℕ → Bool} {kill : ObjId → M PUnit} (h : Kills writeOk kill)
    (t : ObjId) : Waking (kill t) := by
  cases h with
  | top => exact waking_killThread writeOk t
  | nested n => exact waking_killThreadAt writeOk n t

/-! ## Successors -/

theorem nextEntry_eq_none {l : List WaitQueueEntry} : nextEntry e l = none ↔ e ∉ l := by
  induction l with
  | nil => simp [nextEntry]
  | cons a l ih =>
    unfold nextEntry
    by_cases h : a = e
    · simp [h]
    · rw [if_neg h, ih, List.mem_cons, not_or]
      exact ⟨fun hn => ⟨fun he => h he.symm, hn⟩, fun hn => hn.2⟩

theorem nextEntry_eq_some {l : List WaitQueueEntry} {r : Option WaitQueueEntry}
    (h : nextEntry e l = some r) : ∃ pre post, l = pre ++ e :: post ∧ r = post.head? := by
  induction l with
  | nil => cases h
  | cons a l ih =>
    unfold nextEntry at h
    by_cases ha : a = e
    · rw [if_pos ha] at h
      exact ⟨[], l, by rw [ha]; rfl, (Option.some.inj h).symm⟩
    · rw [if_neg ha] at h
      obtain ⟨pre, post, rfl, hr⟩ := ih h
      exact ⟨a :: pre, post, rfl, hr⟩

/-- In a list that has lost elements, what follows an element followed it before. -/
theorem sublist_split {a b pre post : List WaitQueueEntry}
    (h : (pre ++ e :: post).Sublist (a ++ e :: b)) (hnd : (a ++ e :: b).Nodup) :
    pre.Sublist a ∧ post.Sublist b := by
  rw [List.nodup_append] at hnd
  have hea : e ∉ a := fun he => hnd.2.2 e he e List.mem_cons_self rfl
  have heb : e ∉ b := (List.nodup_cons.1 hnd.2.1).1
  obtain ⟨l₁, l₂, hl, h₁, h₂⟩ := List.sublist_append_iff.1 h
  obtain ⟨c, rfl, hc⟩ | ⟨c, rfl, hc⟩ := List.append_eq_append_iff.1 hl
  · cases c with
    | nil =>
      rw [List.nil_append] at hc
      rw [← hc] at h₂
      rw [List.append_nil] at h₁
      exact ⟨h₁, List.cons_sublist_cons.1 h₂⟩
    | cons x c =>
      obtain ⟨rfl, -⟩ := List.cons.inj hc
      exact absurd (h₁.subset (List.mem_append_right _ List.mem_cons_self)) hea
  · cases c with
    | nil =>
      rw [List.nil_append] at hc
      rw [hc] at h₂
      rw [List.append_nil]
      exact ⟨h₁, List.cons_sublist_cons.1 h₂⟩
    | cons x c =>
      rw [hc, List.cons_append] at h₂
      have hb : e ∈ b := by
        cases h₂ with
        | cons _ h₂ =>
          exact h₂.subset (List.mem_cons_of_mem _ (List.mem_append_right _ List.mem_cons_self))
        | cons_cons _ h₂ => exact h₂.subset (List.mem_append_right _ List.mem_cons_self)
      exact absurd hb heb

/-! ## What the rounds keep -/

/-- An entry stays in its queue as long as its wait is pending. -/
theorem Shrinks.stays_iff (h : Shrinks s s') (he : e ∈ (s.object o).waitQueue) :
    e ∈ (s'.object o).waitQueue ↔
      ∀ t, ∀ w ∈ (s.thread t).wait, e ∈ w.queues → w ∈ (s'.thread t).wait := by
  constructor
  · intro hin t w hw hew
    by_contra hno
    exact (h.gone o e he).2 ⟨t, w, hw, hew, hno⟩ hin
  · intro hall
    by_contra hno
    obtain ⟨t, w, hw, hew, hgone⟩ := (h.gone o e he).1 hno
    exact hgone (hall t w hw hew)

section
variable {writeOk : ℕ → Bool} {kill : ObjId → M PUnit}

/-- What a traversal does from an entry on. -/
structure Traversed (writeOk : ℕ → Bool) (kill : ObjId → M PUnit) (o : ObjId)
    (left : List WaitQueueEntry) (max : ℕ) (s : State) (res : List Round × Ending) : Prop where
  present : ∀ r ∈ res.1, r.entry ∈ (r.before.object o).waitQueue
  spares : (∀ r ∈ res.1, ¬ r.Last → ∀ e, r.next = some e →
    Spares writeOk kill r.before r.entry.thread e) ↔ res.2 ≠ .removed
  ends : res.2 ≠ .spent
  shrinks : ∀ s', res.2 = .finished s' → Shrinks s s'
  offered : ∀ s', res.2 = .finished s' → ∀ e ∈ left, e ∈ (s'.object o).waitQueue →
    (∃ r ∈ res.1, r.entry.thread = e.thread) ∨
      (max ≠ 0 ∧ (res.1.filter (·.woken ≠ 0)).length = max)

theorem traversed {n : ℕ} {ptr : WaitQueueEntry} {max : ℕ} {pre post : List WaitQueueEntry}
    (hk : ∀ t, Waking (kill t)) (hl : Linked s)
    (hq : (s.object o).waitQueue = pre ++ ptr :: post) (hn : post.length < n) :
    Traversed writeOk kill o (ptr :: post) max s
      (traverse writeOk kill o n ptr post.head? max s) := by
  induction n generalizing ptr max pre post s with
  | zero => omega
  | succ n ih =>
    have hptr : ptr ∈ (s.object o).waitQueue := by
      rw [hq]
      exact List.mem_append_right _ List.mem_cons_self
    unfold traverse
    cases hw : wakeThread writeOk kill ptr.thread s with
    | error e =>
      exact ⟨fun r hr => (by cases hr), ⟨fun _ h => (by cases h), fun _ r hr => (by cases hr)⟩,
        fun h => (by cases h), fun s' h => (by cases h), fun s' h => (by cases h)⟩
    | ok res =>
      obtain ⟨woken, s₁⟩ := res
      have hwp := @waking_wakeThread writeOk kill hk ptr.thread s hl
      have hshrinks : Shrinks s s₁ := wp_of_ok (Q := fun _ s' => Shrinks s s') hwp hw
      dsimp only
      generalize hr : (⟨s, ptr, post.head?, max, woken, s₁⟩ : Round) = r
      have hpresent : r.entry ∈ (r.before.object o).waitQueue := by
        rw [← hr]
        exact hptr
      have hentry : r.entry.thread = ptr.thread := by rw [← hr]
      by_cases hlast : r.Last
      · rw [if_pos hlast]
        refine ⟨fun r' hr' => ?_, ⟨fun _ h => (by cases h), fun _ r' hr' hno => ?_⟩,
          fun h => (by cases h), fun s' h => ?_, fun s' h e he he' => ?_⟩
        · rwa [List.mem_singleton.1 hr']
        · rw [List.mem_singleton.1 hr'] at hno
          exact absurd hlast hno
        · cases h
          exact hshrinks
        · right
          have hone : max = 1 := by
            rw [← hlast.2, ← hr]
          rw [hone]
          refine ⟨Nat.one_ne_zero, ?_⟩
          rw [List.filter_cons_of_pos (by simpa using hlast.1)]
          rfl
      rw [if_neg hlast]
      cases post with
      | nil =>
        refine ⟨fun r' hr' => ?_, ⟨fun _ h => (by cases h), fun _ r' hr' _ e he => ?_⟩,
          fun h => (by cases h), fun s' h => ?_, fun s' h e he he' => ?_⟩
        · rwa [List.mem_singleton.1 hr']
        · rw [List.mem_singleton.1 hr', ← hr] at he
          cases he
        · cases h
          exact hshrinks
        · left
          refine ⟨r, List.mem_singleton_self r, ?_⟩
          rw [hentry, List.mem_singleton.1 he]
      | cons e post =>
        have hepre : e ∈ (s.object o).waitQueue := by
          rw [hq]
          exact List.mem_append_right _ (List.mem_cons_of_mem _ List.mem_cons_self)
        have hnext : r.next = some e := by rw [← hr]; rfl
        have hspares : Spares writeOk kill r.before r.entry.thread e ↔
            e ∈ (s₁.object o).waitQueue := by
          rw [hshrinks.stays_iff hepre, ← hr]
          constructor
          · intro h
            exact h woken s₁ hw
          · intro h n' s' hw'
            cases hw.symm.trans hw'
            exact h
        dsimp only [List.head?_cons]
        cases hne : nextEntry e (s₁.object o).waitQueue with
        | none =>
          have hgone := nextEntry_eq_none.1 hne
          refine ⟨fun r' hr' => ?_, ⟨fun h => ?_, fun h => absurd rfl h⟩,
            fun h => (by cases h), fun s' h => (by cases h), fun s' h => (by cases h)⟩
          · rwa [List.mem_singleton.1 hr']
          · exact absurd (hspares.1 (h r (List.mem_singleton_self r) hlast e hnext)) hgone
        | some next =>
          obtain ⟨pre', post', hq', rfl⟩ := nextEntry_eq_some hne
          have hstay : e ∈ (s₁.object o).waitQueue := by
            rw [hq']
            exact List.mem_append_right _ List.mem_cons_self
          have hsub := hshrinks.queues o
          have hnd := hl.queueNodup o
          have hq₂ : (s.object o).waitQueue = (pre ++ [ptr]) ++ e :: post := by
            rw [hq, List.append_assoc]
            rfl
          rw [hq', hq₂] at hsub
          rw [hq₂] at hnd
          obtain ⟨hpre, hpost⟩ := sublist_split hsub hnd
          rw [List.length_cons] at hn
          have hlen := hpost.length_le
          have hrest := @ih s₁ e (if woken ≠ 0 then max - 1 else max) pre' post' hshrinks.linked
            hq' (by omega)
          dsimp only
          generalize traverse writeOk kill o n e post'.head?
            (if woken ≠ 0 then max - 1 else max) s₁ = rest at hrest
          refine ⟨?_, ⟨fun h => ?_, fun h r' hr' hno e' he' => ?_⟩, hrest.ends,
            fun s' h => hshrinks.trans (hrest.shrinks s' h), fun s' h a ha ha' => ?_⟩
          · intro r' hr'
            obtain rfl | hr' := List.mem_cons.1 hr'
            · exact hpresent
            · exact hrest.present r' hr'
          · exact hrest.spares.1 fun r' hr' => h r' (List.mem_cons_of_mem _ hr')
          · obtain rfl | hr' := List.mem_cons.1 hr'
            · rw [hnext] at he'
              cases he'
              exact hspares.2 hstay
            · exact hrest.spares.2 h r' hr' hno e' he'
          · obtain rfl | ha := List.mem_cons.1 ha
            · exact .inl ⟨r, List.mem_cons_self, hentry⟩
            have hain : a ∈ pre' ++ e :: post' := by
              rw [← hq']
              exact ((hrest.shrinks s' h).queues o).subset ha'
            have hleft : a ∈ e :: post' := by
              obtain hap | hap := List.mem_append.1 hain
              · rw [List.nodup_append] at hnd
                exact absurd rfl (hnd.2.2 a (hpre.subset hap) a ha)
              · exact hap
            obtain ⟨r', hr', hthread⟩ | ⟨hmax, hcount⟩ := hrest.offered s' h a hleft ha'
            · exact .inl ⟨r', List.mem_cons_of_mem _ hr', hthread⟩
            · right
              have hwoken : r.woken = woken := by rw [← hr]
              by_cases h0 : woken ≠ 0
              · rw [if_pos h0] at hmax hcount
                rw [List.filter_cons_of_pos (by simpa [hwoken] using h0), List.length_cons, hcount]
                omega
              · rw [if_neg h0] at hmax hcount
                rw [List.filter_cons_of_neg (by simpa [hwoken] using h0)]
                exact ⟨hmax, hcount⟩

end

/-! ## Safe traversals -/

theorem walked {writeOk : ℕ → Bool} {kill : ObjId → M PUnit} (hk : Kills writeOk kill) (o : ObjId)
    (max : ℕ) (hl : Linked s) :
    Traversed writeOk kill o (s.object o).waitQueue max s (walk writeOk kill o max s) := by
  unfold walk
  cases hq : (s.object o).waitQueue with
  | nil =>
    refine ⟨fun r hr => (by cases hr), ⟨fun _ h => (by cases h), fun _ r hr => (by cases hr)⟩,
      fun h => (by cases h), fun s' h => ?_, fun s' _ e he => (by cases he)⟩
    cases h
    exact .refl hl
  | cons e l =>
    have hsplit : (s.object o).waitQueue = [] ++ e :: l := hq
    exact traversed (fun t => hk.waking t) hl hsplit (Nat.lt_succ_self _)

/-- A process with two threads has an event, which is object 4 with handle 8, and its first thread
waits for `handles`. -/
def waitingRun (handles : List Handle) : List Action :=
  [.newProcess, .request 2 (.newThread false 0x1f03ff),
    .request 2 (.createEvent true false 0x1f0003),
    .request 2 (.select ⟨77, handles, ⟨false, false, false, false⟩, 0, 0⟩ true true)]

def signaledEvent (s : State) : State := s.setBody 4 (.event ⟨true, true⟩)

def waiters (s : State) : List ObjId := (s.object 4).waitQueue.map (·.thread)

/-- The traversal comes to an entry that is no longer there. -/
def meetsRemoved (s : State) : Bool :=
  match (walk (fun _ => true) (killThread fun _ => true) 4 0 s).2 with
  | .removed => true
  | _ => false

end Wine.Server
