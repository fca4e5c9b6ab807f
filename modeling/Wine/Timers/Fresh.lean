import Wine.Timers.Progress

/-!
# The ids of windowless timers

The search for a free id goes round the ids from 1 to 65535, and ends when one of them is free.
-/

namespace Wine.Timers.TimerQueue

variable {queue : TimerQueue}

theorem isSome_findTimer {win msg id : ℕ} : (queue.findTimer win msg id).isSome ↔
    ∃ timer ∈ queue.all, timer.win = win ∧ timer.msg = msg ∧ timer.id = id := by
  simp [findTimer, and_assoc]

theorem findTimer_eq_none {win msg id : ℕ} : queue.findTimer win msg id = none ↔
    ∀ timer ∈ queue.all, ¬ (timer.win = win ∧ timer.msg = msg ∧ timer.id = id) := by
  rw [← Option.not_isSome_iff_eq_none, isSome_findTimer]
  simp only [not_exists, not_and]

/-- The search ends at the latest when it comes to the free id: `distance` is the number of ids
before it. -/
theorem freeId_ends {msg id : ℕ} (hid : 1 ≤ id ∧ id ≤ 0xffff)
    (hfree : queue.findTimer 0 msg id = none)
    (hnext : 1 ≤ queue.nextTimerId ∧ queue.nextTimerId ≤ 0xffff) (distance : ℕ)
    (hd : distance = (id + 0xffff - queue.nextTimerId) % 0xffff) :
    (queue.freeId msg (distance + 1)).isSome := by
  induction distance generalizing queue with
  | zero =>
    have he : queue.nextTimerId = id := by omega
    unfold freeId
    dsimp only
    have hnot : ¬ (TimerQueue.findTimer { queue with
        nextTimerId := if 0x10000 ≤ queue.nextTimerId + 1 then 1 else queue.nextTimerId + 1 }
        0 msg queue.nextTimerId).isSome = true := by
      rw [he]
      exact fun h => by
        change (queue.findTimer 0 msg id).isSome = true at h
        rw [hfree] at h
        cases h
    rw [if_neg hnot]
    rfl
  | succ distance ih =>
    unfold freeId
    dsimp only
    generalize hn : (if 0x10000 ≤ queue.nextTimerId + 1 then 1 else queue.nextTimerId + 1) =
      next
    have hrange : (1 ≤ next ∧ next ≤ 0xffff) ∧
        distance = (id + 0xffff - next) % 0xffff := by
      rw [← hn]
      by_cases hc : 0x10000 ≤ queue.nextTimerId + 1
      · rw [if_pos hc]
        omega
      · rw [if_neg hc]
        omega
    by_cases hf : (TimerQueue.findTimer { queue with nextTimerId := next } 0 msg
        queue.nextTimerId).isSome = true
    · rw [if_pos hf]
      exact @ih { queue with nextTimerId := next } hfree hrange.1 hrange.2
    · rw [if_neg hf]
      rfl

/-- `set_next_timer` leaves the lists and the next id alone. -/
theorem lists_ite_setNextTimer (c : Prop) [Decidable c] (granted : Bool) (queue : TimerQueue) :
    (if c then setNextTimer granted queue else queue).pending = queue.pending ∧
      (if c then setNextTimer granted queue else queue).all = queue.all ∧
      (if c then setNextTimer granted queue else queue).nextTimerId = queue.nextTimerId := by
  by_cases hc : c
  · rw [if_pos hc]
    exact ⟨rfl, rfl, rfl⟩
  · rw [if_neg hc]
    exact ⟨rfl, rfl, rfl⟩

/-- What a successful `set_timer` leaves in the lists. -/
theorem setTimer_granted {mem : ℕ → Bool} (hmem : mem 0 = true) (now : Timeval)
    (req : SetTimerReq) (id : ℕ) :
    ∃ timer, (queue.setTimer mem now req id).1 = some timer ∧
      (timer.addr = queue.addresses ∧ timer.win = req.win ∧ timer.msg = req.msg ∧
        timer.id = id) ∧
      timer ∈ (queue.setTimer mem now req id).2.pending ∧
      (queue.setTimer mem now req id).2.all.Perm (timer :: queue.all) ∧
      (queue.setTimer mem now req id).2.nextTimerId = queue.nextTimerId := by
  unfold setTimer
  rw [hmem, if_pos rfl]
  refine ⟨_, rfl, ⟨rfl, rfl, rfl, rfl⟩, ?_, ?_, ?_⟩
  · rw [(lists_ite_setNextTimer _ _ _).1]
    exact mem_linkTimer _ _
  · rw [(lists_ite_setNextTimer _ _ _).2.1]
    exact all_linkTimer _ _
  · rw [(lists_ite_setNextTimer _ _ _).2.2]
    rfl

theorem setTimer_denied {mem : ℕ → Bool} (hmem : mem 0 = false) (now : Timeval)
    (req : SetTimerReq) (id : ℕ) : (queue.setTimer mem now req id).1 = none := by
  simp [setTimer, hmem]

/-- The request ends, with an error or with a new timer whose id is in range and that of no other
windowless timer with the message. -/
def EndsFresh (mem : ℕ → Bool) (now : Timeval) (req : SetTimerReq) (queue : TimerQueue) : Prop :=
  ∃ fuel result queue', queue.setWinTimer fuel mem now req = some (result, queue') ∧
    ∀ timer, result = some timer →
      timer ∈ queue'.pending ∧ timer.addr ∉ queue.all.map (·.addr) ∧
      timer.win = 0 ∧ timer.msg = req.msg ∧ 1 ≤ timer.id ∧ timer.id ≤ 0xffff ∧
      ∀ other ∈ queue'.all, other.addr ≠ timer.addr →
        ¬ (other.win = 0 ∧ other.msg = req.msg ∧ other.id = timer.id)

/-- After `n` requests the timers have the ids from 1 to `n`. -/
theorem reachable_taken (msg n : ℕ) (hn : n ≤ 0xffff) :
    ∃ queue, Reachable queue ∧ queue.nextTimerId = (if n = 0xffff then 1 else n + 1) ∧
      (∀ id, 1 ≤ id → id ≤ n → (queue.findTimer 0 msg id).isSome) ∧
      (∀ timer ∈ queue.all, timer.id ≤ n) := by
  induction n with
  | zero =>
    refine ⟨create, Reachable.create, rfl, ?_, ?_⟩
    · intro id h1 h2
      omega
    · intro timer h
      cases h
  | succ n ih =>
    obtain ⟨queue, hq, hnext, htaken, hle⟩ := ih (Nat.le_of_succ_le hn)
    rw [if_neg (by omega)] at hnext
    have hfree : queue.findTimer 0 msg (n + 1) = none := by
      rw [findTimer_eq_none]
      rintro timer hm ⟨-, -, hid⟩
      have := hle timer hm
      omega
    generalize hnew : (if n + 1 = 0xffff then 1 else n + 1 + 1) = next
    have hid : queue.freeId msg 1 = some (n + 1, { queue with nextTimerId := next }) := by
      unfold freeId
      dsimp only
      have hn' : (if 0x10000 ≤ queue.nextTimerId + 1 then 1 else queue.nextTimerId + 1) =
          next := by
        rw [← hnew, hnext]
        by_cases hc : n + 1 = 0xffff
        · rw [if_pos hc, if_pos (by omega)]
        · rw [if_neg hc, if_neg (by omega)]
      have hnot : ¬ (TimerQueue.findTimer { queue with nextTimerId := next } 0 msg
          queue.nextTimerId).isSome = true := by
        rw [hnext]
        change ¬ (queue.findTimer 0 msg (n + 1)).isSome = true
        rw [hfree]
        simp
      rw [hn', if_neg hnot, hnext]
    obtain ⟨timer, ht, ⟨-, hw, hm, hi⟩, -, hperm, hkept⟩ := @setTimer_granted
      { queue with nextTimerId := next } (fun _ => true) rfl ⟨0, 0⟩
      ⟨0, msg, 0, 10, 0⟩ (n + 1)
    generalize hs : setTimer (fun _ => true) ⟨0, 0⟩ ⟨0, msg, 0, 10, 0⟩ (n + 1)
      { queue with nextTimerId := next } = after at ht hperm hkept
    have hreach : Reachable after.2 := by
      apply Reachable.setWinTimer 1 (fun _ => true) ⟨0, 0⟩ ⟨0, msg, 0, 10, 0⟩ after.1 hq
        ⟨by decide, by decide⟩
      rw [setWinTimer, if_neg (by simp), hid, Option.map_some, hs]
    refine ⟨after.2, hreach, hkept, ?_, ?_⟩
    · intro id h1 h2
      rw [isSome_findTimer]
      by_cases he : id = n + 1
      · exact ⟨timer, hperm.symm.subset (List.mem_cons_self ..), hw, hm, hi.trans he.symm⟩
      · obtain ⟨old, hold, hfound⟩ := isSome_findTimer.1 (htaken id h1 (by omega))
        exact ⟨old, hperm.symm.subset (List.mem_cons_of_mem _ hold), hfound⟩
    · intro t hmem
      cases List.mem_cons.1 (hperm.subset hmem) with
      | inl he => rw [he, hi]
      | inr hold => exact Nat.le_succ_of_le (hle t hold)

end Wine.Timers.TimerQueue
