import Wine.Timers.Timeval

/-!
# Window timers make progress

What every reachable queue keeps of its timers, and when the restart of an expired timer ends
with a deadline ahead.
-/

namespace Wine.Timers

/-! ## The order of deadlines -/

theorem timeBefore_eq_false {t1 t2 : Timeval} : timeBefore t1 t2 = false ↔
    t2.sec < t1.sec ∨ t1.sec = t2.sec ∧ t2.usec ≤ t1.usec := by
  unfold timeBefore
  rw [Bool.or_eq_false_iff, Bool.and_eq_false_iff, decide_eq_false_iff_not,
    decide_eq_false_iff_not, decide_eq_false_iff_not]
  omega

theorem timeBefore_eq_true {t1 t2 : Timeval} : timeBefore t1 t2 = true ↔
    t1.sec < t2.sec ∨ t1.sec = t2.sec ∧ t1.usec < t2.usec := by
  rw [← Bool.not_eq_false, timeBefore_eq_false]
  omega

/-- No timer is before one in front of it. -/
def SortedTimers (timers : List WinTimer) : Prop :=
  timers.Pairwise fun t u => timeBefore u.when t.when = false

theorem sorted_link {timers : List WinTimer} (timer : WinTimer) (h : SortedTimers timers) :
    SortedTimers (timers.takeWhile (fun t => timeBefore t.when timer.when) ++
      timer :: timers.dropWhile (fun t => timeBefore t.when timer.when)) := by
  induction timers with
  | nil => exact List.pairwise_singleton _ _
  | cons t rest ih =>
    have hhead : ∀ u ∈ rest, timeBefore u.when t.when = false :=
      fun u hu => List.rel_of_pairwise_cons h hu
    cases hb : timeBefore t.when timer.when with
    | true =>
      simp only [List.takeWhile_cons, List.dropWhile_cons, hb, if_true, List.cons_append]
      apply List.Pairwise.cons _ (ih h.of_cons)
      intro u hu
      rw [List.mem_append, List.mem_cons] at hu
      rcases hu with hu | hu | hu
      · exact hhead u ((List.takeWhile_sublist _).subset hu)
      · subst hu
        rw [timeBefore_eq_true] at hb
        rw [timeBefore_eq_false]
        omega
      · exact hhead u ((List.dropWhile_sublist _).subset hu)
    | false =>
      simp only [List.takeWhile_cons, List.dropWhile_cons, hb, Bool.false_eq_true, if_false,
        List.nil_append]
      apply List.Pairwise.cons _ h
      intro u hu
      cases List.mem_cons.1 hu with
      | inl he => exact he ▸ hb
      | inr hr =>
        have hu := hhead u hr
        rw [timeBefore_eq_false] at hb hu ⊢
        omega

/-! ## The catch-up loop -/

/-- Deadlines of rates that fit into an `int` are normalized; the microseconds of the others may
be below zero. -/
def WellTimed (rate : BitVec 32) (when : Timeval) : Prop :=
  when.usec < 1000000 ∧ (rate.toNat < 2 ^ 31 → when.Normal)

theorem toInt_of_small {rate : BitVec 32} (h : rate.toNat < 2 ^ 31) :
    rate.toInt = rate.toNat := by
  rw [BitVec.toInt_eq_toNat_cond]
  omega

theorem toInt_of_large {rate : BitVec 32} (h : ¬ rate.toNat < 2 ^ 31) : rate.toInt < 0 := by
  rw [BitVec.toInt_eq_toNat_cond]
  have := rate.isLt
  omega

/-- A negative rate moves the deadline back. -/
theorem addTimeout_neg {when : Timeval} {timeout : ℤ} (hu : when.usec < 1000000)
    (h : timeout < 0) :
    (addTimeout when timeout).usec < 1000000 ∧
      timeBefore when (addTimeout when timeout) = false := by
  have hne : timeout ≠ 0 := by omega
  have hdiv : timeout ≤ 1000 * timeout.tdiv 1000 ∧ timeout.tdiv 1000 ≤ 0 := by
    rw [Int.tdiv_eq_ediv]
    by_cases hd : 0 ≤ timeout ∨ (1000 : ℤ) ∣ timeout
    · rw [if_pos hd]
      omega
    · rw [if_neg hd]
      change timeout ≤ 1000 * (timeout / 1000 + 1) ∧ timeout / 1000 + 1 ≤ 0
      omega
  unfold addTimeout
  rw [if_neg hne, timeBefore_eq_false]
  generalize timeout.tdiv 1000 = sec at hdiv
  dsimp only
  rw [if_neg (by omega)]
  dsimp only
  omega

theorem wellTimed_addTimeout {rate : BitVec 32} {when : Timeval} (h : WellTimed rate when) :
    WellTimed rate (addTimeout when rate.toInt) := by
  by_cases hr : rate.toNat < 2 ^ 31
  · have hnormal := @normal_addTimeout _ rate.toInt (h.2 hr) (by
      rw [toInt_of_small hr]
      omega)
    exact ⟨hnormal.2, fun _ => hnormal⟩
  · exact ⟨(addTimeout_neg h.1 (toInt_of_large hr)).1, fun h => absurd h hr⟩

theorem catchUp_later {now when when' : Timeval} {rate : BitVec 32} {fuel : ℕ}
    (hw : WellTimed rate when) (h : TimerQueue.catchUp now rate fuel when = some when') :
    timeBefore now when' = true ∧ WellTimed rate when' := by
  induction fuel generalizing when with
  | zero => cases h
  | succ fuel ih =>
    rw [TimerQueue.catchUp] at h
    cases hb : timeBefore now when with
    | true =>
      rw [hb, if_pos rfl] at h
      cases h
      exact ⟨hb, hw⟩
    | false =>
      rw [hb, if_neg (by simp)] at h
      exact ih (wellTimed_addTimeout hw) h

/-- With a positive rate the loop ends. -/
theorem catchUp_ends {now when : Timeval} {rate : BitVec 32} (hn : now.Normal)
    (hw : WellTimed rate when) (hpos : 1 ≤ rate.toNat) (hr : rate.toNat < 2 ^ 31) (fuel : ℕ)
    (hfuel : now.micros - when.micros < 1000 * fuel) :
    ∃ when', TimerQueue.catchUp now rate (fuel + 1) when = some when' := by
  induction fuel generalizing when with
  | zero =>
    have hb := (timeBefore_iff hn (hw.2 hr)).2 (by omega)
    exact ⟨when, by rw [TimerQueue.catchUp, hb, if_pos rfl]⟩
  | succ fuel ih =>
    rw [TimerQueue.catchUp]
    cases hb : timeBefore now when with
    | true => exact ⟨when, by rw [if_pos rfl]⟩
    | false =>
      rw [if_neg (by simp)]
      apply ih (wellTimed_addTimeout hw)
      rw [micros_addTimeout, toInt_of_small hr]
      omega

/-- With a rate that turns negative it never does. -/
theorem catchUp_stuck {now when : Timeval} {rate : BitVec 32} (hu : when.usec < 1000000)
    (hr : ¬ rate.toNat < 2 ^ 31) (hb : timeBefore now when = false) (fuel : ℕ) :
    TimerQueue.catchUp now rate fuel when = none := by
  induction fuel generalizing when with
  | zero => rfl
  | succ fuel ih =>
    obtain ⟨husec, hback⟩ := addTimeout_neg hu (toInt_of_large hr)
    rw [TimerQueue.catchUp, hb, if_neg (by simp)]
    apply ih husec
    rw [timeBefore_eq_false] at hb hback ⊢
    omega

/-! ## What reachable queues keep -/

namespace TimerQueue

structure Good (queue : TimerQueue) : Prop where
  nodup : (queue.all.map (·.addr)).Nodup
  used : ∀ timer ∈ queue.all, timer.addr < queue.addresses
  sorted : SortedTimers queue.pending
  timed : ∀ timer ∈ queue.all, WellTimed timer.rate timer.when
  rate_pos : ∀ timer ∈ queue.all, 1 ≤ timer.rate.toNat
  nextId : 1 ≤ queue.nextTimerId ∧ queue.nextTimerId ≤ 0xffff

variable {queue queue' : TimerQueue}

theorem Good.create : Good create := by
  refine ⟨List.nodup_nil, ?_, List.Pairwise.nil, ?_, ?_, by decide⟩ <;> intro timer h <;> cases h

/-- The fields that `set_next_timer` writes do not matter. -/
theorem Good.setNextTimer (h : Good queue) (granted : Bool) :
    Good (queue.setNextTimer granted) :=
  ⟨h.nodup, h.used, h.sorted, h.timed, h.rate_pos, h.nextId⟩

/-- A part of the timers is as good, in lists that are sorted. -/
theorem Good.of_perm_sublist (h : Good queue) {timers : List WinTimer}
    (hp : queue'.all.Perm timers) (hs : timers.Sublist queue.all)
    (hsorted : SortedTimers queue'.pending) (haddr : queue'.addresses = queue.addresses)
    (hnext : queue'.nextTimerId = queue.nextTimerId) : Good queue' where
  nodup := (hp.map (·.addr)).nodup_iff.2 (h.nodup.sublist (hs.map (·.addr)))
  used := fun timer hm => haddr ▸ h.used timer (hs.subset (hp.subset hm))
  sorted := hsorted
  timed := fun timer hm => h.timed timer (hs.subset (hp.subset hm))
  rate_pos := fun timer hm => h.rate_pos timer (hs.subset (hp.subset hm))
  nextId := hnext ▸ h.nextId

theorem Good.unlinkTimer (h : Good queue) (addr : ℕ) : Good (queue.unlinkTimer addr) :=
  h.of_perm_sublist (List.Perm.refl _)
    (List.Sublist.append List.eraseP_sublist List.eraseP_sublist)
    (h.sorted.sublist List.eraseP_sublist) rfl rfl

theorem Good.freeTimer (h : Good queue) (granted : Bool) (addr : ℕ) :
    Good (queue.freeTimer granted addr) :=
  (h.unlinkTimer addr).setNextTimer granted

theorem all_linkTimer (timer : WinTimer) (queue : TimerQueue) :
    (queue.linkTimer timer).all.Perm (timer :: queue.all) := by
  unfold all TimerQueue.linkTimer
  dsimp only
  rw [List.append_assoc, List.cons_append]
  apply List.perm_middle.trans
  rw [← List.append_assoc, List.takeWhile_append_dropWhile]

theorem Good.linkTimer (h : Good queue) {timer : WinTimer}
    (hnew : timer.addr ∉ queue.all.map (·.addr)) (hused : timer.addr < queue.addresses)
    (hw : WellTimed timer.rate timer.when) (hr : 1 ≤ timer.rate.toNat) :
    Good (queue.linkTimer timer) := by
  have hp := all_linkTimer timer queue
  have hmem {t : WinTimer} (ht : t ∈ (queue.linkTimer timer).all) :
      t = timer ∨ t ∈ queue.all := List.mem_cons.1 (hp.subset ht)
  refine ⟨?_, ?_, sorted_link timer h.sorted, ?_, ?_, h.nextId⟩
  · rw [(hp.map (·.addr)).nodup_iff, List.map_cons, List.nodup_cons]
    exact ⟨hnew, h.nodup⟩
  · intro t ht
    cases hmem ht with
    | inl he => exact he ▸ hused
    | inr ho => exact h.used t ho
  · intro t ht
    cases hmem ht with
    | inl he => exact he ▸ hw
    | inr ho => exact h.timed t ho
  · intro t ht
    cases hmem ht with
    | inl he => exact he ▸ hr
    | inr ho => exact h.rate_pos t ho

theorem Good.setTimer (h : Good queue) (mem : ℕ → Bool) {now : Timeval} (hn : now.Normal)
    (req : SetTimerReq) (id : ℕ) : Good (queue.setTimer mem now req id).2 := by
  unfold TimerQueue.setTimer
  cases mem 0 with
  | false => exact h
  | true =>
    rw [if_pos rfl]
    dsimp only
    generalize hrate : (if req.rate.toNat < 1 then 1 else req.rate : BitVec 32) = rate
    have hpos : 1 ≤ rate.toNat := by
      rw [← hrate]
      by_cases h0 : req.rate.toNat < 1
      · rw [if_pos h0]
        decide
      · rw [if_neg h0]
        omega
    have hsmall : rate.toNat < 2 ^ 31 ↔ req.rate.toNat < 2 ^ 31 := by
      rw [← hrate]
      by_cases h0 : req.rate.toNat < 1
      · rw [if_pos h0]
        exact iff_of_true (by decide) (by omega)
      · rw [if_neg h0]
    have hw : WellTimed rate (addTimeout now req.rate.toInt) := by
      have := @wellTimed_addTimeout req.rate now ⟨hn.2, fun _ => hn⟩
      exact ⟨this.1, fun hr => this.2 (hsmall.1 hr)⟩
    have hmore : Good { queue with addresses := queue.addresses + 1 } :=
      ⟨h.nodup, fun t ht => Nat.lt_succ_of_lt (h.used t ht), h.sorted, h.timed, h.rate_pos,
        h.nextId⟩
    have hlinked := @Good.linkTimer _ hmore ⟨queue.addresses, addTimeout now req.rate.toInt,
      rate, req.win, req.msg, id, req.lparam⟩ (by
        intro hm
        obtain ⟨t, ht, he⟩ := List.mem_map.1 hm
        exact Nat.lt_irrefl _ (he ▸ h.used t ht)) (Nat.lt_succ_self _) hw hpos
    generalize TimerQueue.linkTimer _ _ = linked at hlinked ⊢
    by_cases hc : Option.map (fun t : WinTimer => t.addr) linked.pending.head? =
        some queue.addresses
    · rw [if_pos hc]
      exact hlinked.setNextTimer _
    · rw [if_neg hc]
      exact hlinked

/-- The search keeps the timers and finds an id in range that no timer has. -/
theorem freeId_spec {msg fuel id : ℕ} (hnext : 1 ≤ queue.nextTimerId ∧ queue.nextTimerId ≤ 0xffff)
    (h : queue.freeId msg fuel = some (id, queue')) :
    queue' = { queue with nextTimerId := queue'.nextTimerId } ∧
      (1 ≤ queue'.nextTimerId ∧ queue'.nextTimerId ≤ 0xffff) ∧ (1 ≤ id ∧ id ≤ 0xffff) ∧
      queue.findTimer 0 msg id = none := by
  induction fuel generalizing queue with
  | zero => cases h
  | succ fuel ih =>
    unfold freeId at h
    dsimp only at h
    generalize hn : (if 0x10000 ≤ queue.nextTimerId + 1 then 1 else queue.nextTimerId + 1) =
      next at h
    have hrange : 1 ≤ next ∧ next ≤ 0xffff := by
      rw [← hn]
      by_cases hc : 0x10000 ≤ queue.nextTimerId + 1
      · rw [if_pos hc]
        omega
      · rw [if_neg hc]
        omega
    by_cases hf : (TimerQueue.findTimer { queue with nextTimerId := next } 0 msg
        queue.nextTimerId).isSome = true
    · rw [if_pos hf] at h
      exact @ih { queue with nextTimerId := next } hrange h
    · rw [if_neg hf] at h
      cases h
      exact ⟨rfl, hrange, hnext, Option.not_isSome_iff_eq_none.1 hf⟩

theorem Good.freeId (h : Good queue) {msg fuel id : ℕ}
    (hf : queue.freeId msg fuel = some (id, queue')) : Good queue' := by
  obtain ⟨heq, hrange, -⟩ := freeId_spec h.nextId hf
  rw [heq]
  exact ⟨h.nodup, h.used, h.sorted, h.timed, h.rate_pos, hrange⟩

theorem Good.setWinTimer (h : Good queue) {fuel : ℕ} {mem : ℕ → Bool} {now : Timeval}
    (hn : now.Normal) {req : SetTimerReq} {timer : Option WinTimer}
    (hq : queue.setWinTimer fuel mem now req = some (timer, queue')) : Good queue' := by
  unfold TimerQueue.setWinTimer at hq
  by_cases hwin : req.win ≠ 0
  · rw [if_pos hwin] at hq
    cases hf : queue.findTimer req.win req.msg req.id with
    | none =>
      rw [hf] at hq
      have := h.setTimer mem hn req req.id
      rw [Option.some.inj hq] at this
      exact this
    | some old =>
      rw [hf] at hq
      have := (h.freeTimer (mem 2) old.addr).setTimer mem hn req req.id
      rw [Option.some.inj hq] at this
      exact this
  · rw [if_neg hwin, Option.map_eq_some_iff] at hq
    obtain ⟨⟨id, found⟩, hf, hset⟩ := hq
    have := (h.freeId hf).setTimer mem hn req id
    rw [hset] at this
    exact this

theorem Good.freeWindowTimers (h : Good queue) (granted : Bool) (win : ℕ)
    (timers : List WinTimer) : Good (queue.freeWindowTimers granted win timers) := by
  unfold TimerQueue.freeWindowTimers
  generalize timers.filter _ = those
  induction those generalizing queue with
  | nil => exact h
  | cons timer those ih => exact ih (h.freeTimer granted timer.addr)

theorem Good.timerCallback (h : Good queue) {granted : Bool}
    (hq : queue.timerCallback granted = some queue') : Good queue' := by
  unfold TimerQueue.timerCallback at hq
  cases hp : queue.pending with
  | nil =>
    rw [hp] at hq
    cases hq
  | cons timer rest =>
    rw [hp] at hq
    cases hq
    have hs := h.sorted
    have hall : queue.all = timer :: (rest ++ queue.expired) := by
      rw [all, hp, List.cons_append]
    rw [hp] at hs
    have hperm : (rest ++ (queue.expired ++ [timer])).Perm queue.all := by
      rw [hall, ← List.append_assoc]
      exact List.perm_append_singleton timer (rest ++ queue.expired)
    have hmoved : Good { queue with
        timeout := none, pending := rest, expired := queue.expired ++ [timer] } :=
      h.of_perm_sublist hperm (List.Sublist.refl _) hs.of_cons rfl rfl
    exact hmoved.setNextTimer granted

theorem perm_eraseP_addr {timers : List WinTimer} {timer : WinTimer} (hm : timer ∈ timers)
    (hnd : (timers.map (·.addr)).Nodup) :
    (timer :: timers.eraseP (·.addr = timer.addr)).Perm timers := by
  induction timers with
  | nil => cases hm
  | cons t rest ih =>
    rw [List.map_cons, List.nodup_cons] at hnd
    cases List.mem_cons.1 hm with
    | inl he =>
      rw [he, List.eraseP_cons_of_pos (by simp)]
    | inr hr =>
      have hne : t.addr ≠ timer.addr := fun he =>
        hnd.1 (he ▸ List.mem_map_of_mem (f := fun t : WinTimer => t.addr) hr)
      rw [List.eraseP_cons_of_neg (by simpa using hne)]
      exact (List.Perm.swap t timer _).trans ((ih hr hnd.2).cons t)

/-- A timer of the expired list and the others. -/
theorem Good.perm_unlinkTimer (h : Good queue) {timer : WinTimer} (hm : timer ∈ queue.expired) :
    (timer :: (queue.unlinkTimer timer.addr).all).Perm queue.all := by
  have hnd := h.nodup
  unfold all at hnd
  rw [List.map_append, List.nodup_append] at hnd
  have hpending : queue.pending.eraseP (·.addr = timer.addr) = queue.pending := by
    apply List.eraseP_of_forall_not
    intro t ht he
    rw [decide_eq_true_eq] at he
    exact hnd.2.2 t.addr (List.mem_map_of_mem ht) timer.addr (List.mem_map_of_mem hm) he
  unfold all TimerQueue.unlinkTimer
  dsimp only
  rw [hpending]
  exact List.perm_middle.symm.trans ((perm_eraseP_addr hm hnd.2.1).append_left _)

/-- The timer is pending with a deadline ahead, the pending list is sorted, and the timers are
the same, each of them once in one of the lists. -/
def Progress (now : Timeval) (timer : WinTimer) (queue queue' : TimerQueue) : Prop :=
  (∃ when, { timer with when := when } ∈ queue'.pending ∧ timeBefore now when = true) ∧
  SortedTimers queue'.pending ∧ (queue'.all.map (·.addr)).Nodup ∧
  (queue'.all.map (·.addr)).Perm (queue.all.map (·.addr))

theorem mem_linkTimer (timer : WinTimer) (queue : TimerQueue) :
    timer ∈ (queue.linkTimer timer).pending :=
  List.mem_append_right _ (List.mem_cons_self ..)

theorem Good.restartTimer (h : Good queue) {fuel : ℕ} {now : Timeval} {granted : Bool}
    {timer : WinTimer} (hm : timer ∈ queue.expired)
    (hq : queue.restartTimer fuel now granted timer = some queue') :
    Good queue' ∧ Progress now timer queue queue' := by
  unfold TimerQueue.restartTimer at hq
  rw [Option.map_eq_some_iff] at hq
  obtain ⟨when, hc, rfl⟩ := hq
  have hall : timer ∈ queue.all := List.mem_append_right _ hm
  obtain ⟨hlater, hw⟩ := catchUp_later (h.timed timer hall) hc
  have hperm := (h.perm_unlinkTimer hm).map (·.addr)
  rw [List.map_cons] at hperm
  have hnew := (List.nodup_cons.1 (hperm.nodup_iff.2 h.nodup)).1
  have hgood := @Good.linkTimer _ (h.unlinkTimer timer.addr) { timer with when := when }
    hnew (h.used timer hall) hw (h.rate_pos timer hall)
  have hlinked := (all_linkTimer { timer with when := when }
    (queue.unlinkTimer timer.addr)).map (·.addr)
  rw [List.map_cons] at hlinked
  exact ⟨hgood.setNextTimer granted, ⟨when, mem_linkTimer _ _, hlater⟩, hgood.sorted,
    hgood.nodup, hlinked.trans hperm⟩

theorem Reachable.good (h : Reachable queue) : Good queue := by
  induction h with
  | create => exact Good.create
  | setWinTimer fuel mem now req timer _ hn hq ih => exact ih.setWinTimer hn hq
  | killWinTimer granted win msg id _ ih =>
    rename_i queue _
    unfold TimerQueue.killWinTimer
    cases queue.findTimer win msg id with
    | none => exact ih
    | some timer => exact ih.freeTimer granted timer.addr
  | cleanupWindow granted win _ ih =>
    exact (ih.freeWindowTimers granted win _).freeWindowTimers granted win _
  | timerCallback granted _ _ hq ih => exact ih.timerCallback hq
  | getMessage fuel now granted win first last remove timer _ _ hq ih =>
    rename_i queue queue' _ _
    unfold TimerQueue.findExpiredTimer at hq
    generalize hfind : queue.expired.find? _ = found at hq
    cases found with
    | none =>
      cases hq
      exact ih
    | some expired =>
      cases remove with
      | false =>
        cases hq
        exact ih
      | true =>
        simp only [if_true, Option.map_eq_some_iff] at hq
        obtain ⟨restarted, hr, he⟩ := hq
        cases he
        exact (ih.restartTimer (List.mem_of_find?_eq_some hfind) hr).1

/-- The `QS_TIMER` bit tells whether a timer has expired, and a timeout is that of the first
pending timer. -/
structure Armed (queue : TimerQueue) : Prop where
  bit : queue.timerBit = !queue.expired.isEmpty
  first : ∀ when ∈ queue.timeout, queue.pending.head?.map (·.when) = some when

theorem Armed.setNextTimer (granted : Bool) (queue : TimerQueue) :
    Armed (queue.setNextTimer granted) := by
  refine ⟨rfl, fun when hw => ?_⟩
  cases granted with
  | false => cases hw
  | true => exact hw

/-- A timer that is not linked in front leaves the first one there. -/
theorem Armed.setTimer (h : Armed queue) {mem : ℕ → Bool} {now : Timeval} {req : SetTimerReq}
    {id : ℕ} {timer : Option WinTimer}
    (hq : queue.setTimer mem now req id = (timer, queue')) : Armed queue' := by
  obtain rfl : (queue.setTimer mem now req id).2 = queue' := congrArg Prod.snd hq
  unfold TimerQueue.setTimer
  cases mem 0 with
  | false => exact h
  | true =>
    rw [if_pos rfl]
    dsimp only
    generalize (if req.rate.toNat < 1 then 1 else req.rate : BitVec 32) = rate
    split
    · exact Armed.setNextTimer ..
    · rename_i hc
      refine ⟨h.bit, fun when hw => h.first when hw ▸ ?_⟩
      unfold TimerQueue.linkTimer at hc ⊢
      cases hp : queue.pending with
      | nil => simp [hp] at hc
      | cons t rest => cases hb : timeBefore t.when (addTimeout now req.rate.toInt) <;> simp_all

theorem Armed.freeWindowTimers (h : Armed queue) (granted : Bool) (win : ℕ)
    (timers : List WinTimer) : Armed (queue.freeWindowTimers granted win timers) := by
  unfold TimerQueue.freeWindowTimers
  generalize timers.filter _ = those
  induction those generalizing queue with
  | nil => exact h
  | cons timer those ih => exact ih (Armed.setNextTimer ..)

theorem Armed.fires (h : Armed queue) (ht : queue.timeout.isSome) (granted : Bool) :
    (queue.timerCallback granted).isSome := by
  obtain ⟨when, hw⟩ := Option.isSome_iff_exists.mp ht
  have hfirst := h.first when hw
  unfold TimerQueue.timerCallback
  cases hp : queue.pending with
  | nil => simp [hp] at hfirst
  | cons t rest => rfl

theorem Reachable.armed (h : Reachable queue) : Armed queue := by
  induction h with
  | create => exact ⟨rfl, fun _ hw => nomatch hw⟩
  | setWinTimer fuel mem now req timer hr _ hq ih =>
    unfold TimerQueue.setWinTimer at hq
    split at hq
    · split at hq
      · exact (Armed.setNextTimer ..).setTimer (Option.some.inj hq)
      · exact ih.setTimer (Option.some.inj hq)
    · obtain ⟨⟨id, found⟩, hf, hset⟩ := Option.map_eq_some_iff.mp hq
      have hfound := (freeId_spec hr.good.nextId hf).1
      exact Armed.setTimer (hfound ▸ ⟨ih.bit, ih.first⟩) hset
  | killWinTimer granted win msg id _ ih =>
    unfold TimerQueue.killWinTimer
    split
    · exact Armed.setNextTimer ..
    · exact ih
  | cleanupWindow granted win _ ih => exact (ih.freeWindowTimers ..).freeWindowTimers ..
  | timerCallback granted _ _ hq ih =>
    unfold TimerQueue.timerCallback at hq
    split at hq <;> cases hq
    exact Armed.setNextTimer ..
  | getMessage fuel now granted win first last remove timer _ _ hq ih =>
    unfold TimerQueue.findExpiredTimer at hq
    split at hq
    · cases hq
      exact ih
    · split at hq
      · obtain ⟨restarted, hr, he⟩ := Option.map_eq_some_iff.mp hq
        obtain ⟨_, _, rfl⟩ := Option.map_eq_some_iff.mp hr
        cases he
        exact Armed.setNextTimer ..
      · cases hq
        exact ih

/-! ## Progress -/

/-- The restart ends, and the timer has made progress. -/
def MakesProgress (now : Timeval) (granted : Bool) (timer : WinTimer) (queue : TimerQueue) :
    Prop :=
  ∃ fuel queue', queue.restartTimer fuel now granted timer = some queue' ∧
    Progress now timer queue queue'

/-- A queue whose one timer, with the given rate, was set at time zero and has expired. -/
def expiredAt (rate : BitVec 32) : WinTimer :=
  ⟨0, addTimeout ⟨0, 0⟩ rate.toInt, rate, 0, 0x113, 1, 0⟩

def oneExpired (rate : BitVec 32) : TimerQueue := ⟨[], [expiredAt rate], 2, none, true, 1⟩

theorem reachable_oneExpired {rate : BitVec 32} (hr : 1 ≤ rate.toNat) :
    Reachable (oneExpired rate) := by
  have hset := @Reachable.setWinTimer _ ⟨[expiredAt rate], [], 2,
    some (addTimeout ⟨0, 0⟩ rate.toInt), false, 1⟩ 1 (fun _ => true) ⟨0, 0⟩
    ⟨0, 0x113, 0, rate, 0⟩ (some (expiredAt rate)) Reachable.create ⟨by decide, by decide⟩ (by
      have hpos : ¬ rate.toNat < 1 := by omega
      simp [setWinTimer, freeId, findTimer, create, all, setTimer, linkTimer, setNextTimer,
        expiredAt, hpos])
  exact @Reachable.timerCallback _ (oneExpired rate) true hset rfl rfl

end TimerQueue

end Wine.Timers
