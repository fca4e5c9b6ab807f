import Wine.Timers.Timeval

/-!
# The server's timeouts

The list of timeouts, sorted by expiry, and `get_next_timeout`: the expired timeouts are taken
from its front, their callbacks run, and the time to the first timeout that is left is returned
in milliseconds.
-/

namespace Wine.Timers

/-- A time as `gettimeofday` and the callers of `add_timeout_user` give it. -/
structure Instant extends Timeval where
  normal : toTimeval.Normal

structure TimeoutUser where
  id : ℕ
  when : Instant

def Sorted (users : List TimeoutUser) : Prop :=
  users.Pairwise fun earlier later => later.when.micros ≥ earlier.when.micros

/-- The walk of `add_timeout_user`. -/
def insertTimeout (user : TimeoutUser) : List TimeoutUser → List TimeoutUser
  | [] => [user]
  | timeout :: rest =>
    if timeBefore timeout.when.toTimeval user.when.toTimeval then
      timeout :: insertTimeout user rest
    else
      user :: timeout :: rest

theorem mem_insertTimeout {user other : TimeoutUser} {users : List TimeoutUser} :
    other ∈ insertTimeout user users ↔ other = user ∨ other ∈ users := by
  induction users with
  | nil => simp [insertTimeout]
  | cons timeout rest ih =>
    rw [insertTimeout]
    cases timeBefore timeout.when.toTimeval user.when.toTimeval with
    | true =>
      rw [if_pos rfl, List.mem_cons, ih, List.mem_cons]
      exact or_left_comm
    | false => simp

theorem sorted_insertTimeout (user : TimeoutUser) {users : List TimeoutUser}
    (h : Sorted users) : Sorted (insertTimeout user users) := by
  induction users with
  | nil => exact List.pairwise_singleton _ _
  | cons timeout rest ih =>
    have hhead : ∀ {other}, other ∈ rest → timeout.when.micros ≤ other.when.micros :=
      List.rel_of_pairwise_cons h
    rw [insertTimeout]
    cases hb : timeBefore timeout.when.toTimeval user.when.toTimeval with
    | true =>
      have hle := (timeBefore_iff timeout.when.normal user.when.normal).1 hb
      rw [if_pos rfl]
      apply List.Pairwise.cons _ (ih h.of_cons)
      intro other hother
      cases mem_insertTimeout.1 hother with
      | inl he => exact he ▸ Int.le_of_lt hle
      | inr hm => exact hhead hm
    | false =>
      have hle := (timeBefore_eq_false_iff timeout.when.normal user.when.normal).1 hb
      rw [if_neg (by simp)]
      apply List.Pairwise.cons _ h
      intro other hother
      cases List.mem_cons.1 hother with
      | inl he => exact he ▸ hle
      | inr hm => exact Int.le_trans hle (hhead hm)

/-- `timeout_list`, sorted, and the local list of expired timeouts. -/
structure Timeouts where
  pending : List TimeoutUser
  expired : List TimeoutUser
  sorted : Sorted pending

/-- What a callback does with timeouts: `add_timeout_user` and `remove_timeout_user`, the latter
on an entry of either list. -/
inductive TimeoutOp where
  | add (user : TimeoutUser)
  | remove (id : ℕ)

def TimeoutOp.apply (s : Timeouts) : TimeoutOp → Timeouts
  | .add user => ⟨insertTimeout user s.pending, s.expired, sorted_insertTimeout user s.sorted⟩
  | .remove id => ⟨s.pending.eraseP (·.id = id), s.expired.eraseP (·.id = id),
      s.sorted.sublist List.eraseP_sublist⟩

def isExpired (now : Instant) (user : TimeoutUser) : Bool :=
  !timeBefore now.toTimeval user.when.toTimeval

/-- The first loop: the expired timeouts at the front of the list. -/
def takeExpired (now : Instant) (s : Timeouts) : Timeouts :=
  ⟨s.pending.dropWhile (isExpired now), s.pending.takeWhile (isExpired now),
    s.sorted.sublist (List.dropWhile_sublist _)⟩

/-- The second loop: `calls` is what the callback of a timeout does in a given state. -/
def runCallbacks (calls : Timeouts → TimeoutUser → List TimeoutOp) : ℕ → Timeouts → Timeouts
  | 0, s => s
  | fuel + 1, s =>
    match s.expired with
    | [] => s
    | user :: rest =>
      let s := { s with expired := rest }
      runCallbacks calls fuel ((calls s user).foldl TimeoutOp.apply s)

/-- The value converted to an `int`. -/
def nextDelay (now : Instant) (when : Instant) : ℤ :=
  let diff := Int.bmod ((when.sec - now.sec) * 1000 +
    (when.usec - now.usec + 999).tdiv 1000) (2 ^ 32)
  if diff < 0 then 0 else diff

/-- The state after the expired callbacks. -/
def runExpired (now : Instant) (calls : Timeouts → TimeoutUser → List TimeoutOp)
    (s : Timeouts) : Timeouts :=
  let s := takeExpired now s
  runCallbacks calls s.expired.length s

def getNextTimeout (now : Instant) (calls : Timeouts → TimeoutUser → List TimeoutOp)
    (s : Timeouts) : ℤ × Timeouts :=
  if s.pending.isEmpty then (-1, s)
  else
    let s := runExpired now calls s
    match s.pending with
    | [] => (-1, s)
    | user :: _ => (nextDelay now user.when, s)

/-! ## The callbacks all run -/

theorem head_le {s : Timeouts} {user other : TimeoutUser} (h : s.pending.head? = some user)
    (hm : other ∈ s.pending) : user.when.micros ≤ other.when.micros := by
  have hs := s.sorted
  cases hp : s.pending with
  | nil =>
    rw [hp] at hm
    cases hm
  | cons first rest =>
    rw [hp] at h hm hs
    cases h
    cases List.mem_cons.1 hm with
    | inl he => exact he ▸ Int.le_refl _
    | inr hrest => exact List.rel_of_pairwise_cons hs hrest

/-! ## The delay -/

/-- The smallest number of milliseconds after which the deadline is no longer ahead. -/
def IsLeastDelay (now when : Timeval) (d : ℤ) : Prop :=
  0 ≤ d ∧ when.micros ≤ now.micros + d * 1000 ∧
    ∀ e, 0 ≤ e → when.micros ≤ now.micros + e * 1000 → d ≤ e

/-- Less than `2^31` milliseconds away, in either direction. -/
def Near (now when : Timeval) : Prop :=
  when.micros - now.micros < 2147483648 * 1000 ∧ now.micros - when.micros < 2147483648 * 1000

/-- The deadline is a millisecond past, or it is at most `2^31 - 1` milliseconds ahead and the
microseconds do not have to be rounded below zero. -/
def RoundsRight (now when : Timeval) : Prop :=
  when.micros + 1000 ≤ now.micros ∨
  (-999 ≤ when.usec - now.usec ∨ (when.usec - now.usec + 999) % 1000 = 0) ∧
    when.micros - now.micros ≤ 2147483647 * 1000

/-- The division rounds up, except below zero. -/
theorem tdiv_round (u : ℤ) :
    (u + 999).tdiv 1000 =
      if -999 ≤ u ∨ (u + 999) % 1000 = 0 then (u + 999) / 1000 else (u + 999) / 1000 + 1 := by
  by_cases h : 0 ≤ u + 999
  · rw [Int.tdiv_eq_ediv_of_nonneg h, if_pos (Or.inl (by omega))]
  · rw [Int.tdiv_eq_ediv]
    by_cases hd : (u + 999) % 1000 = 0
    · rw [if_pos (Or.inr hd), if_pos (Or.inr (Int.dvd_of_emod_eq_zero hd))]
      omega
    · have hn : ¬ (0 ≤ u + 999 ∨ (1000 : ℤ) ∣ u + 999) := by
        rintro (h0 | h0)
        · exact h h0
        · exact hd (Int.emod_eq_zero_of_dvd h0)
      rw [if_neg hn, if_neg (by omega)]
      rfl

/-- The exact number of milliseconds, rounded up and possibly negative. -/
theorem isLeastDelay_iff (now when : Timeval) (d : ℤ) :
    IsLeastDelay now when d ↔
      d = max 0 ((when.sec - now.sec) * 1000 + (when.usec - now.usec + 999) / 1000) := by
  unfold IsLeastDelay Timeval.micros
  constructor
  · rintro ⟨h0, hle, hleast⟩
    have := hleast (max 0 ((when.sec - now.sec) * 1000 + (when.usec - now.usec + 999) / 1000))
    omega
  · intro h
    refine ⟨by omega, by omega, ?_⟩
    intro e he hle
    omega

theorem nextDelay_right_iff {now when : Instant}
    (hnear : Near now.toTimeval when.toTimeval) :
    IsLeastDelay now.toTimeval when.toTimeval (nextDelay now when) ↔
      RoundsRight now.toTimeval when.toTimeval := by
  have hn := now.normal
  have hw := when.normal
  rw [isLeastDelay_iff]
  unfold nextDelay
  rw [tdiv_round]
  unfold Near Timeval.micros at hnear
  unfold RoundsRight Timeval.micros
  unfold Timeval.Normal at hn hw
  generalize hs : when.sec - now.sec = s
  generalize hu : when.usec - now.usec = u
  by_cases hc : -999 ≤ u ∨ (u + 999) % 1000 = 0
  · rw [if_pos hc]
    simp only [hc, true_and]
    rw [Int.bmod_def]
    omega
  · rw [if_neg hc]
    simp only [hc, false_and, or_false]
    rw [Int.bmod_def]
    omega

/-! ## The value returned -/

/-- After the expired callbacks, `-1` says that nothing is pending; otherwise the value is the
time in milliseconds to the first deadline, rounded up. -/
def ReturnsNextTimeout (now : Instant) (calls : Timeouts → TimeoutUser → List TimeoutOp)
    (s : Timeouts) : Prop :=
  ((getNextTimeout now calls s).1 = -1 ↔ (getNextTimeout now calls s).2.pending = []) ∧
  ∀ user, (getNextTimeout now calls s).2.pending.head? = some user →
    (∀ other ∈ (getNextTimeout now calls s).2.pending, user.when.micros ≤ other.when.micros) ∧
    (Near now.toTimeval user.when.toTimeval →
      IsLeastDelay now.toTimeval user.when.toTimeval (getNextTimeout now calls s).1)

theorem nextDelay_nonneg (now when : Instant) : 0 ≤ nextDelay now when := by
  unfold nextDelay
  dsimp only
  generalize Int.bmod _ _ = diff
  by_cases h : diff < 0
  · exact Int.le_of_eq (if_pos h).symm
  · rw [if_neg h]
    exact Int.not_lt.1 h

/-- With nothing pending at the start nothing runs. -/
theorem runExpired_of_empty (now : Instant) (calls : Timeouts → TimeoutUser → List TimeoutOp)
    {s : Timeouts} (hp : s.pending = []) : (runExpired now calls s).pending = [] := by
  obtain ⟨pending, expired, sorted⟩ := s
  cases hp
  rfl

theorem getNextTimeout_pending (now : Instant)
    (calls : Timeouts → TimeoutUser → List TimeoutOp) (s : Timeouts) :
    (getNextTimeout now calls s).2.pending = (runExpired now calls s).pending := by
  unfold getNextTimeout
  by_cases hp : s.pending = []
  · rw [runExpired_of_empty now calls hp, hp]
    exact hp
  · rw [if_neg (by simpa using hp)]
    dsimp only
    cases h : (runExpired now calls s).pending <;> exact h

theorem getNextTimeout_value (now : Instant)
    (calls : Timeouts → TimeoutUser → List TimeoutOp) (s : Timeouts) :
    (getNextTimeout now calls s).1 =
      (((runExpired now calls s).pending.head?).map fun user =>
        nextDelay now user.when).getD (-1) := by
  unfold getNextTimeout
  by_cases hp : s.pending = []
  · rw [runExpired_of_empty now calls hp, hp]
    rfl
  · rw [if_neg (by simpa using hp)]
    dsimp only
    cases (runExpired now calls s).pending <;> rfl

/-- The value is right exactly when the first deadline is rounded right. -/
theorem returnsNextTimeout_iff (now : Instant)
    (calls : Timeouts → TimeoutUser → List TimeoutOp) (s : Timeouts) :
    ReturnsNextTimeout now calls s ↔
      ∀ user, (runExpired now calls s).pending.head? = some user →
        Near now.toTimeval user.when.toTimeval →
        RoundsRight now.toTimeval user.when.toTimeval := by
  unfold ReturnsNextTimeout
  rw [getNextTimeout_pending, getNextTimeout_value]
  generalize runExpired now calls s = r
  cases hp : r.pending with
  | nil => simp
  | cons first rest =>
    have hne : nextDelay now first.when ≠ -1 := by
      have := nextDelay_nonneg now first.when
      omega
    have hfirst : r.pending.head? = some first := by rw [hp]; rfl
    constructor
    · rintro ⟨-, h⟩ user hu hnear
      cases hu
      exact (nextDelay_right_iff hnear).1 ((h first rfl).2 hnear)
    · intro h
      refine ⟨by simp [hne], ?_⟩
      intro user hu
      cases hu
      refine ⟨?_, fun hnear => (nextDelay_right_iff hnear).2 (h first rfl hnear)⟩
      intro other hother
      rw [← hp] at hother
      exact head_le hfirst hother

/-- 900 ms after a full second. -/
def lateInstant : Instant := ⟨⟨0, 900000⟩, by decide, by decide⟩

/-- 998.5 ms after `lateInstant`. -/
def nextSecond : TimeoutUser := ⟨0, ⟨⟨1, 898500⟩, by decide, by decide⟩⟩

def onePending : Timeouts := ⟨[nextSecond], [], List.pairwise_singleton _ _⟩

/-- The value is 1000, one more than needed. -/
theorem not_returnsNextTimeout_late :
    ¬ ReturnsNextTimeout lateInstant (fun _ _ => []) onePending := by
  rintro ⟨-, h⟩
  have hleast := (h nextSecond rfl).2 ⟨by decide, by decide⟩
  have hvalue : (getNextTimeout lateInstant (fun _ _ => []) onePending).1 = 1000 := by decide
  rw [hvalue] at hleast
  have := hleast.2.2 999 (by decide) (by decide)
  omega

end Wine.Timers
