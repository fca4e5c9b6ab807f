import Mathlib.Tactic.Linarith

/-!
# Times and their fields

`RtlTimeToTimeFields` and `RtlTimeFieldsToTime`. A `long int` and an `int` have 32 bits; every
operation that could leave their range is checked, and gives no result if it does.
-/

namespace Wine.Ntdll

def TICKSPERSEC : ℤ := 10000000
def TICKSPERMSEC : ℤ := 10000
def SECSPERDAY : ℤ := 86400
def SECSPERHOUR : ℤ := 3600
def SECSPERMIN : ℤ := 60
def MINSPERHOUR : ℤ := 60
def HOURSPERDAY : ℤ := 24
def EPOCHWEEKDAY : ℤ := 1
def DAYSPERWEEK : ℤ := 7
def DAYSPERQUADRICENTENNIUM : ℤ := 365 * 400 + 97
def DAYSPERNORMALQUADRENNIUM : ℤ := 365 * 4 + 1

def monthLengths : List (List ℤ) :=
  [[31, 28, 31, 30, 31, 30, 31, 31, 30, 31, 30, 31],
    [31, 29, 31, 30, 31, 30, 31, 31, 30, 31, 30, 31]]

def isLeapYear (year : ℤ) : ℤ :=
  if year.tmod 4 = 0 ∧ (year.tmod 100 ≠ 0 ∨ year.tmod 400 = 0) then 1 else 0

/-- The conversion to a `CSHORT`. -/
def cshort (x : ℤ) : ℤ := x.bmod (2 ^ 16)

/-- The value of an `int` or `long int` operation, which must not overflow. -/
def long (x : ℤ) : Option ℤ := if -2 ^ 31 ≤ x ∧ x < 2 ^ 31 then some x else none

/-- The value of a `LONGLONG` operation, which must not overflow. -/
def longlong (x : ℤ) : Option ℤ := if -2 ^ 63 ≤ x ∧ x < 2 ^ 63 then some x else none

structure TimeFields where
  year : ℤ
  month : ℤ
  day : ℤ
  hour : ℤ
  minute : ℤ
  second : ℤ
  milliseconds : ℤ
  weekday : ℤ
  deriving DecidableEq, Repr

/-- Year, month and day of month of the day number `days`. -/
def dayToDate (days : ℤ) : Option (ℤ × ℤ × ℤ) := do
  let x ← long (4 * days)
  let x ← long (x + 1227)
  let x ← long (3 * x.tdiv DAYSPERQUADRICENTENNIUM)
  let x ← long (x + 3)
  let cleaps := x.tdiv 4
  let x ← long (28188 + cleaps)
  let days ← long (days + x)
  let x ← long (20 * days)
  let x ← long (x - 2442)
  let years := x.tdiv (5 * DAYSPERNORMALQUADRENNIUM)
  let x ← long (years * DAYSPERNORMALQUADRENNIUM)
  let yearday ← long (days - x.tdiv 4)
  let x ← long (64 * yearday)
  let months := x.tdiv 1959
  let x ← long (1959 * months)
  let day ← long (yearday - x.tdiv 64)
  if months < 14 then
    let month ← long (months - 1)
    let year ← long (years + 1524)
    return (year, month, day)
  else
    let month ← long (months - 13)
    let year ← long (years + 1525)
    return (year, month, day)

def rtlTimeToTimeFields (liTime : ℤ) : Option TimeFields := do
  let milliseconds := (liTime.tmod TICKSPERSEC).tdiv TICKSPERMSEC
  let time := liTime.tdiv TICKSPERSEC
  let days ← long (time.tdiv SECSPERDAY)
  let secondsInDay := time.tmod SECSPERDAY
  let hour := secondsInDay.tdiv SECSPERHOUR
  let secondsInDay := secondsInDay.tmod SECSPERHOUR
  let minute := secondsInDay.tdiv SECSPERMIN
  let second := secondsInDay.tmod SECSPERMIN
  let x ← long (EPOCHWEEKDAY + days)
  let weekday := x.tmod DAYSPERWEEK
  let (year, month, day) ← dayToDate days
  return {
    year := cshort year
    month := cshort month
    day := cshort day
    hour := cshort hour
    minute := cshort minute
    second := cshort second
    milliseconds := cshort milliseconds
    weekday := cshort weekday }

/-- The check of the fields; the month is in its range when the length of the month is read. -/
def TimeFields.Rejected (tf : TimeFields) : Prop :=
  tf.milliseconds < 0 ∨ 999 < tf.milliseconds ∨ tf.second < 0 ∨ 59 < tf.second ∨
  tf.minute < 0 ∨ 59 < tf.minute ∨ tf.hour < 0 ∨ 23 < tf.hour ∨ tf.month < 1 ∨ 12 < tf.month ∨
  tf.day < 1 ∨
  ((monthLengths.getD (if tf.month = 2 ∨ isLeapYear tf.year ≠ 0 then 1 else 0) []).getD
    (tf.month - 1).toNat 0) < tf.day ∨
  tf.year < 1601

instance : DecidablePred TimeFields.Rejected := fun tf => by
  unfold TimeFields.Rejected
  infer_instance

/-- The day number of a date. -/
def dateToDay (tf : TimeFields) : Option ℤ := do
  let month ← long (if tf.month < 3 then tf.month + 13 else tf.month + 1)
  let year ← long (if tf.month < 3 then tf.year - 1 else tf.year)
  let x ← long (3 * year.tdiv 100)
  let x ← long (x + 3)
  let cleaps := x.tdiv 4
  let x ← long (36525 * year)
  let x ← long (x.tdiv 100 - cleaps)
  let y ← long (1959 * month)
  let x ← long (x + y.tdiv 64)
  let x ← long (x + tf.day)
  long (x - 584817)

/-- The time of the fields, or `some none` for `FALSE`. -/
def rtlTimeFieldsToTime (tf : TimeFields) : Option (Option ℤ) :=
  if tf.Rejected then some none
  else do
    let day ← dateToDay tf
    let x ← longlong (day * HOURSPERDAY)
    let x ← longlong (x + tf.hour)
    let x ← longlong (x * MINSPERHOUR)
    let x ← longlong (x + tf.minute)
    let x ← longlong (x * SECSPERMIN)
    let x ← longlong (x + tf.second)
    let x ← longlong (x * 1000)
    let x ← longlong (x + tf.milliseconds)
    let x ← longlong (x * TICKSPERMSEC)
    return some x

end Wine.Ntdll

/-!
## Deadlines for the server

`NTDLL_get_server_abstime` turns a timeout into seconds and microseconds since 1970. An operation that
overflows, and a division whose quotient does not fit, give no result.
-/

namespace Wine.Ntdll

def INT_MAX : ℤ := 2147483647

def SECS_1601_TO_1970 : ℤ := (369 * 365 + 89) * SECSPERDAY

def TICKS_1601_TO_1970 : ℤ := SECS_1601_TO_1970 * TICKSPERSEC

/-- The last tick that can be represented as Unix time. -/
def TICKS_1601_TO_UNIX_MAX : ℤ := (SECS_1601_TO_1970 + INT_MAX) * TICKSPERSEC

/-- `abs_time_t` -/
structure AbsTime where
  sec : ℤ
  usec : ℤ
  deriving DecidableEq

/-- What `gettimeofday` returns: the time since 1970. -/
structure Timeval where
  sec : ℤ
  usec : ℤ
  sec_bounds : 0 ≤ sec ∧ sec ≤ INT_MAX
  usec_bounds : 0 ≤ usec ∧ usec < 1000000

def AbsTime.never : AbsTime := ⟨INT_MAX, INT_MAX⟩

def AbsTime.zero : AbsTime := ⟨0, 0⟩

/-- `RtlEnlargedUnsignedDivide`: the `div` instruction faults if the quotient does not fit. -/
def rtlEnlargedUnsignedDivide (a b : ℤ) : Option (ℤ × ℤ) :=
  if a / b < 2 ^ 32 then some (a / b, a % b) else none

/-- `NTDLL_get_server_abstime` -/
def getServerAbstime (now : Timeval) : Option ℤ → Option AbsTime
  | none => some .zero
  | some timeout =>
    if timeout ≤ 0 then do
      let interval ← longlong (-timeout)
      if INT_MAX * TICKSPERSEC < interval then return .never
      else
        let (sec, remainder) ← rtlEnlargedUnsignedDivide interval TICKSPERSEC
        -- the sum is unsigned, and is stored in an int
        let whenSec := (now.sec + sec).bmod (2 ^ 32)
        let usec := now.usec + remainder / 10
        let result ←
          if 1000000 ≤ usec then do
            let carried ← long (whenSec + 1)
            pure (⟨carried, usec - 1000000⟩ : AbsTime)
          else pure ⟨whenSec, usec⟩
        if result.sec < now.sec then return .never else return result
    else if timeout < TICKS_1601_TO_1970 then some .zero
    else if TICKS_1601_TO_UNIX_MAX < timeout then some .never
    else do
      let (sec, remainder) ← rtlEnlargedUnsignedDivide (timeout - TICKS_1601_TO_1970) TICKSPERSEC
      return ⟨sec, remainder / 10⟩

/-! ## Instants -/

/-- The requested instant, in ticks since 1970. -/
def instant (now : Timeval) (timeout : ℤ) : ℤ :=
  if timeout ≤ 0 then (now.sec * 1000000 + now.usec) * 10 - timeout
  else timeout - TICKS_1601_TO_1970

/-- The deadline is less than a microsecond before the instant, unless the instant cannot be
represented. -/
inductive Near (instant : ℤ) (when : AbsTime) : Prop
  | never (h : when = .never) (hlate : INT_MAX * TICKSPERSEC < instant)
  | zero (h : when = .zero) (hearly : instant < 0)
  | deadline (hsec : 0 ≤ when.sec ∧ when.sec ≤ INT_MAX) (husec : 0 ≤ when.usec ∧ when.usec < 1000000)
      (hlow : (when.sec * 1000000 + when.usec) * 10 ≤ instant)
      (hhigh : instant < (when.sec * 1000000 + when.usec) * 10 + 10)

/-- The order of deadlines. -/
def AbsTime.Le (a b : AbsTime) : Prop := a.sec < b.sec ∨ a.sec = b.sec ∧ a.usec ≤ b.usec

/-- The timeout gives the deadline that it should, and a later one of its kind gives no earlier one. -/
def Converts (now : Timeval) (timeout : ℤ) : Prop := ∃ when,
  getServerAbstime now (some timeout) = some when ∧ Near (instant now timeout) when ∧
    ∀ later when', (timeout ≤ 0 ↔ later ≤ 0) → instant now timeout ≤ instant now later →
      getServerAbstime now (some later) = some when' → when.Le when'

/-- The microseconds carry over into the last second of an `int`. -/
def Carries (now : Timeval) (timeout : ℤ) : Prop :=
  timeout ≤ 0 ∧ -timeout ≤ INT_MAX * TICKSPERSEC ∧ now.sec + -timeout / TICKSPERSEC = INT_MAX ∧
    1000000 ≤ now.usec + -timeout % TICKSPERSEC / 10

instance (now : Timeval) (timeout : ℤ) : Decidable (Carries now timeout) := by
  unfold Carries
  infer_instance

/-! ## Relative timeouts -/

/-- Seconds and microseconds of a number of microseconds, if the seconds fit. -/
def ofMicros (micros : ℤ) : AbsTime :=
  if INT_MAX < micros / 1000000 then .never else ⟨micros / 1000000, micros % 1000000⟩

variable {now : Timeval} {timeout later : ℤ} {when when' : AbsTime}

theorem never_of_relative (h : timeout ≤ 0) (hmin : -2 ^ 63 < timeout)
    (hmax : INT_MAX * TICKSPERSEC < -timeout) :
    getServerAbstime now (some timeout) = some .never := by
  rw [getServerAbstime, if_pos h, longlong, if_pos (by omega)]
  exact if_pos hmax

theorem divide_interval (h : timeout ≤ 0) (hmax : -timeout ≤ INT_MAX * TICKSPERSEC) :
    rtlEnlargedUnsignedDivide (-timeout) TICKSPERSEC =
      some (-timeout / TICKSPERSEC, -timeout % TICKSPERSEC) := by
  unfold INT_MAX TICKSPERSEC at *
  exact if_pos (by omega)

/-- The sum is stored in an `int`, and its overflow is seen unless it comes from the carry. -/
theorem of_relative (h : timeout ≤ 0) (hmax : -timeout ≤ INT_MAX * TICKSPERSEC)
    (hcarry : ¬Carries now timeout) : getServerAbstime now (some timeout) =
      some (ofMicros (now.sec * 1000000 + now.usec + -timeout / 10)) := by
  have hno : ¬INT_MAX * TICKSPERSEC < -timeout := Int.not_lt.mpr hmax
  obtain ⟨hsec, hsec'⟩ := now.sec_bounds
  obtain ⟨husec, husec'⟩ := now.usec_bounds
  have hfits : -2 ^ 63 ≤ -timeout ∧ -timeout < 2 ^ 63 := by
    unfold INT_MAX TICKSPERSEC at hmax
    omega
  rw [getServerAbstime, if_pos h, longlong, if_pos hfits]
  dsimp only [Option.bind_eq_bind, Option.bind_some]
  rw [if_neg hno, divide_interval h hmax]
  dsimp only [Option.bind_some]
  unfold Carries at hcarry
  unfold ofMicros AbsTime.never
  unfold INT_MAX TICKSPERSEC at *
  obtain ⟨secs, hsecs⟩ : ∃ x, x = -timeout / 10000000 := ⟨_, rfl⟩
  obtain ⟨rem, hrem⟩ : ∃ x, x = -timeout % 10000000 / 10 := ⟨_, rfl⟩
  have hmicros : now.sec * 1000000 + now.usec + -timeout / 10 =
      (now.sec + secs) * 1000000 + (now.usec + rem) := by omega
  have hrembounds : 0 ≤ rem ∧ rem < 1000000 ∧ 0 ≤ secs ∧ secs ≤ 2147483647 := by omega
  rw [hmicros, ← hsecs, ← hrem]
  rw [← hsecs, ← hrem] at hcarry
  by_cases hfit : now.sec + secs ≤ 2147483647
  · have hbmod : (now.sec + secs).bmod (2 ^ 32) = now.sec + secs :=
      Int.bmod_eq_of_le (by omega) (by omega)
    rw [hbmod]
    by_cases husecs : 1000000 ≤ now.usec + rem
    · have hlt : now.sec + secs + 1 ≤ 2147483647 := by omega
      rw [if_pos husecs, long, if_pos (by omega)]
      dsimp only [Option.bind_some, Option.pure_def]
      rw [if_neg (by omega), if_neg (by omega)]
      have hdiv : ((now.sec + secs) * 1000000 + (now.usec + rem)) / 1000000 = now.sec + secs + 1 := by
        omega
      have hmod : ((now.sec + secs) * 1000000 + (now.usec + rem)) % 1000000 =
          now.usec + rem - 1000000 := by omega
      rw [hdiv, hmod]
    · rw [if_neg husecs]
      dsimp only [Option.bind_some, Option.pure_def]
      rw [if_neg (by omega), if_neg (by omega)]
      have hdiv : ((now.sec + secs) * 1000000 + (now.usec + rem)) / 1000000 = now.sec + secs := by
        omega
      have hmod : ((now.sec + secs) * 1000000 + (now.usec + rem)) % 1000000 = now.usec + rem := by
        omega
      rw [hdiv, hmod]
  · have hbmod : (now.sec + secs).bmod (2 ^ 32) = now.sec + secs - 2 ^ 32 := by
      rw [Int.bmod_neg _ _ (by omega)]
      omega
    have hlate : 2147483647 < ((now.sec + secs) * 1000000 + (now.usec + rem)) / 1000000 := by omega
    rw [hbmod, if_pos hlate]
    by_cases husecs : 1000000 ≤ now.usec + rem
    · rw [if_pos husecs, long, if_pos (by omega)]
      dsimp only [Option.bind_some, Option.pure_def]
      exact if_pos (by omega)
    · rw [if_neg husecs]
      dsimp only [Option.bind_some, Option.pure_def]
      exact if_pos (by omega)

/-- At the smallest timeout and at the carry into the last second there is no result. -/
theorem none_of_relative (h : timeout ≤ 0) (hmin : -2 ^ 63 ≤ timeout)
    (hfault : timeout = -2 ^ 63 ∨ Carries now timeout) :
    getServerAbstime now (some timeout) = none := by
  rcases hfault with rfl | ⟨-, hmax, hsec, husec⟩
  · rw [getServerAbstime, if_pos h]
    rfl
  · have hfits : -2 ^ 63 ≤ -timeout ∧ -timeout < 2 ^ 63 := by
      unfold INT_MAX TICKSPERSEC at hmax
      omega
    rw [getServerAbstime, if_pos h, longlong, if_pos hfits]
    dsimp only [Option.bind_eq_bind, Option.bind_some]
    rw [if_neg (Int.not_lt.mpr hmax), divide_interval h hmax]
    dsimp only [Option.bind_some]
    rw [hsec, if_pos husec]
    rfl

theorem instant_relative (h : timeout ≤ 0) :
    instant now timeout = (now.sec * 1000000 + now.usec) * 10 - timeout :=
  if_pos h

theorem near_ofMicros {instant micros : ℤ} (hpos : 0 ≤ micros) (hlow : micros * 10 ≤ instant)
    (hhigh : instant < micros * 10 + 10) : Near instant (ofMicros micros) := by
  unfold ofMicros
  split
  · next h =>
    refine .never rfl ?_
    unfold INT_MAX TICKSPERSEC at *
    omega
  · refine .deadline ⟨?_, ?_⟩ ⟨?_, ?_⟩ ?_ ?_
    all_goals
      dsimp only
      omega

theorem ofMicros_mono {m n : ℤ} (h : m ≤ n) : (ofMicros m).Le (ofMicros n) := by
  unfold ofMicros AbsTime.Le AbsTime.never INT_MAX
  split <;> split
  all_goals
    dsimp only
    omega

theorem ofMicros_le_never (m : ℤ) : (ofMicros m).Le .never := by
  unfold ofMicros AbsTime.Le AbsTime.never INT_MAX
  split
  all_goals
    dsimp only
    omega

theorem converts_relative (h : timeout ≤ 0) (hmin : -2 ^ 63 < timeout)
    (hcarry : ¬Carries now timeout) : Converts now timeout := by
  obtain ⟨hsec, -⟩ := now.sec_bounds
  obtain ⟨husec, -⟩ := now.usec_bounds
  by_cases hmax : INT_MAX * TICKSPERSEC < -timeout
  · refine ⟨.never, never_of_relative h hmin hmax, .never rfl ?_, ?_⟩
    · rw [instant_relative h]
      omega
    · intro later when' hkind hle hlater
      have hrel := hkind.mp h
      rw [instant_relative h, instant_relative hrel] at hle
      by_cases hlatermin : later < -2 ^ 63
      · -- such a timeout is not a 64-bit number
        rw [getServerAbstime, if_pos hrel, longlong, if_neg (by omega)] at hlater
        exact nomatch hlater
      by_cases hfault : later = -2 ^ 63
      · rw [none_of_relative hrel (by omega) (Or.inl hfault)] at hlater
        exact nomatch hlater
      rw [never_of_relative hrel (by omega) (by omega)] at hlater
      rw [← Option.some.inj hlater]
      exact Or.inr ⟨rfl, Int.le_refl _⟩
  · have hmax' := Int.not_lt.mp hmax
    refine ⟨_, of_relative h hmax' hcarry, ?_, ?_⟩
    · rw [instant_relative h]
      refine near_ofMicros ?_ ?_ ?_
      · omega
      · omega
      · omega
    · intro later when' hkind hle hlater
      have hrel := hkind.mp h
      rw [instant_relative h, instant_relative hrel] at hle
      by_cases hlatermin : later < -2 ^ 63
      · rw [getServerAbstime, if_pos hrel, longlong, if_neg (by omega)] at hlater
        exact nomatch hlater
      by_cases hfault : later = -2 ^ 63 ∨ Carries now later
      · rw [none_of_relative hrel (by omega) hfault] at hlater
        exact nomatch hlater
      obtain ⟨hnotmin, hnocarry⟩ := not_or.mp hfault
      by_cases hlatermax : INT_MAX * TICKSPERSEC < -later
      · rw [never_of_relative hrel (by omega) hlatermax] at hlater
        rw [← Option.some.inj hlater]
        exact ofMicros_le_never _
      · rw [of_relative hrel (Int.not_lt.mp hlatermax) hnocarry] at hlater
        rw [← Option.some.inj hlater]
        exact ofMicros_mono (by omega)

/-! ## Absolute times -/

/-- A time before 1970 is zero, and one that does not fit is never. -/
theorem of_absolute (h : 0 < timeout) : getServerAbstime now (some timeout) =
    some (if timeout < TICKS_1601_TO_1970 then .zero
      else if TICKS_1601_TO_UNIX_MAX < timeout then .never
      else ⟨(timeout - TICKS_1601_TO_1970) / 10000000,
        (timeout - TICKS_1601_TO_1970) % 10000000 / 10⟩) := by
  rw [getServerAbstime, if_neg (Int.not_le.mpr h)]
  split
  · rfl
  · split
    · rfl
    · next hlow hhigh =>
      have hfits : (timeout - TICKS_1601_TO_1970) / TICKSPERSEC < 2 ^ 32 := by
        unfold TICKS_1601_TO_1970 TICKS_1601_TO_UNIX_MAX SECS_1601_TO_1970 INT_MAX TICKSPERSEC
          SECSPERDAY at *
        omega
      rw [rtlEnlargedUnsignedDivide, if_pos hfits]
      rfl

theorem converts_absolute (h : 0 < timeout) : Converts now timeout := by
  have hinstant {t : ℤ} (ht : 0 < t) : instant now t = t - TICKS_1601_TO_1970 :=
    if_neg (Int.not_le.mpr ht)
  refine ⟨_, of_absolute h, ?_, ?_⟩
  · rw [hinstant h]
    split
    · next hlow => exact .zero rfl (by omega)
    · split
      · next hhigh =>
        refine .never rfl ?_
        unfold TICKS_1601_TO_UNIX_MAX at hhigh
        unfold TICKS_1601_TO_1970
        linarith
      · next hlow hhigh =>
        refine .deadline ?_ ?_ ?_ ?_
        all_goals
          unfold TICKS_1601_TO_1970 TICKS_1601_TO_UNIX_MAX SECS_1601_TO_1970 INT_MAX TICKSPERSEC
            SECSPERDAY at *
          dsimp only
          omega
  · intro later when' hkind hle hlater
    have hlater' : 0 < later := by omega
    rw [hinstant h, hinstant hlater'] at hle
    rw [of_absolute hlater'] at hlater
    rw [← Option.some.inj hlater]
    unfold AbsTime.Le AbsTime.zero AbsTime.never TICKS_1601_TO_1970 TICKS_1601_TO_UNIX_MAX
      SECS_1601_TO_1970 INT_MAX TICKSPERSEC SECSPERDAY at *
    split_ifs
    all_goals
      dsimp only
      omega

/-- A timeout is converted as it should be unless it is the smallest one or the microseconds carry over into
the last second. -/
theorem converts_iff (now : Timeval) (timeout : ℤ) (hmin : -2 ^ 63 ≤ timeout) (hmax : timeout < 2 ^ 63) :
    Converts now timeout ↔ timeout ≠ -2 ^ 63 ∧ ¬Carries now timeout := by
  constructor
  · rintro ⟨when, hwhen, -⟩
    by_contra hnot
    have hfault : timeout = -2 ^ 63 ∨ Carries now timeout := by
      by_contra hno
      exact hnot (not_or.mp hno)
    have hrel : timeout ≤ 0 := by
      rcases hfault with rfl | hcarry
      · decide
      · exact hcarry.1
    rw [none_of_relative hrel hmin hfault] at hwhen
    exact nomatch hwhen
  · rintro ⟨hne, hcarry⟩
    rcases Int.lt_or_le 0 timeout with habs | hrel
    · exact converts_absolute habs
    · exact converts_relative hrel (by omega) hcarry

theorem sec_sample : 0 ≤ (1000000000 : ℤ) ∧ (1000000000 : ℤ) ≤ INT_MAX := by decide

theorem usec_sample : 0 ≤ (999999 : ℤ) ∧ (999999 : ℤ) < 1000000 := by decide

/-- In September 2001. -/
def nowSample : Timeval := ⟨1000000000, 999999, sec_sample, usec_sample⟩

theorem converts_sample : Converts nowSample (-25) ↔
    (-25 : ℤ) ≠ -2 ^ 63 ∧ ¬Carries nowSample (-25) :=
  converts_iff nowSample (-25) (by decide) (by decide)

/-- The division of the smallest timeout faults, and the sum of the last second and a carry overflows. -/
theorem not_converts_smallest :
    ¬Converts nowSample (-2 ^ 63) ∧ ¬Converts nowSample (-11474836470000010) := by
  refine ⟨?_, ?_⟩
  all_goals
    rintro ⟨when, hwhen, -⟩
    exact nomatch hwhen

end Wine.Ntdll
