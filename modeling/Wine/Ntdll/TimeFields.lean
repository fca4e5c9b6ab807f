import Wine.Lib.Calendar
import Wine.Ntdll.Time

/-!
# Times, dates and back

The day formulas of `RtlTimeToTimeFields` and `RtlTimeFieldsToTime` against the calendar that is
given by the day after each day. Both count years from March, and so does `Date.number`.
-/

namespace Wine.Ntdll
open Lib

/-! ## Checked operations -/

theorem long_bind {α : Type} {x : ℤ} (f : ℤ → Option α) (h : 0 ≤ x) (h' : x < 2 ^ 31) :
    (long x >>= f) = f x := by
  rw [long, if_pos ⟨by omega, h'⟩]
  rfl

theorem longlong_bind {α : Type} {x : ℤ} (f : ℤ → Option α) (h : 0 ≤ x) (h' : x < 2 ^ 63) :
    (longlong x >>= f) = f x := by
  rw [longlong, if_pos ⟨by omega, h'⟩]
  rfl

theorem some_bind {α : Type} (x : ℤ) (f : ℤ → Option α) : (some x >>= f) = f x := rfl

theorem long_eq {x : ℤ} (h : 0 ≤ x) (h' : x < 2 ^ 31) : long x = some x :=
  if_pos ⟨by omega, h'⟩

theorem cshort_eq {x : ℤ} (h : 0 ≤ x) (h' : x < 2 ^ 15) : cshort x = x := by
  rw [cshort, Int.bmod_eq_of_le (by omega) (by omega)]

/-! ## Days -/

/-- 1601-01-01, a Monday. -/
theorem valid_epoch : 1 ≤ 1 ∧ 1 ≤ 12 ∧ 1 ≤ 1 ∧ 1 ≤ monthLength 1601 1 := by decide

def epoch : Date := .ofValid 1601 1 1 valid_epoch

theorem number_epoch : epoch.number = 584695 := by decide

theorem number_of_day (n : ℕ) : (Date.next^[n] epoch).number = 584695 + n := by
  rw [Date.number_iterate_next, number_epoch]

theorem epoch_year_le (n : ℕ) : 1601 ≤ (Date.next^[n] epoch).year :=
  Date.year_le_iterate_next epoch n

theorem marchYear_cases (d : Date) :
    (d.month < 3 ∧ d.marchYear = d.year - 1 ∧ d.marchMonth = d.month + 12) ∨
    (3 ≤ d.month ∧ d.marchYear = d.year ∧ d.marchMonth = d.month) := by
  by_cases h : d.month < 3
  · exact .inl ⟨h, if_pos h, if_pos h⟩
  · exact .inr ⟨not_lt.mp h, if_neg h, if_neg h⟩

/-- The days of a year from 1601 on are numbers that the `long int` operations can hold. -/
theorem number_lt {d : Date} (h : d.year ≤ 30827) : d.number < 11259800 := by
  have hday := d.marchDay_bounds
  unfold Date.number
  obtain ⟨-, hy, -⟩ | ⟨-, hy, -⟩ := marchYear_cases d <;> omega

/-- A leap day ends a century only before a year that is divisible by 400. -/
theorem leap_century {y : ℤ} (h : y % 100 ≠ 99 ∨ y % 400 = 399) :
    y ≤ 100 * (y / 100) + 98 ∨ y / 100 = 4 * (y / 400) + 3 := by
  rcases h with h | h
  · left
    omega
  · right
    omega

/-- The century days that the Julian calendar would have counted since 1601. -/
theorem cleaps_eq (d : Date) (n : ℤ) (hn : d.number = 584695 + n) :
    (3 * ((4 * n + 1227) / 146097) + 3) / 4 = d.marchYear / 100 - d.marchYear / 400 - 12 := by
  obtain ⟨hpos, hle, hleap⟩ := d.marchDay_bounds
  unfold Date.number at hn
  have hquad : 25 * (d.marchYear / 100) ≤ d.marchYear / 4 ∧
      d.marchYear / 4 ≤ 25 * (d.marchYear / 100) + 24 := by omega
  have hquadri : 4 * (d.marchYear / 400) ≤ d.marchYear / 100 ∧
      d.marchYear / 100 ≤ 4 * (d.marchYear / 400) + 3 := by omega
  have hyear : 100 * (d.marchYear / 100) ≤ d.marchYear ∧
      d.marchYear ≤ 100 * (d.marchYear / 100) + 99 := by omega
  have hlow : 146097 * (d.marchYear / 100 - 16) ≤ 4 * n + 1227 := by
    linarith only [hn, hpos, hquad.1, hquadri.2, hyear.1]
  have hhigh : 4 * n + 1227 < 146097 * (d.marchYear / 100 - 15) := by
    by_cases h : d.marchDay = 366
    · rcases leap_century (hleap h).2 with hlast | hlast
      · linarith only [hn, hle, hquad.2, hquadri.1, hlast]
      · linarith only [hn, hle, hquad.2, hyear.2, hlast]
    · have hlt : d.marchDay ≤ 365 := by omega
      linarith
  have hcentury : (4 * n + 1227) / 146097 = d.marchYear / 100 - 16 := by omega
  rw [hcentury]
  omega

theorem years_eq (d : Date) :
    (20 * (365 * d.marchYear + d.marchYear / 4 + d.marchDay - 556519) - 2442) / 7305 =
      d.marchYear - 1524 := by
  obtain ⟨hpos, hle, hleap⟩ := d.marchDay_bounds
  by_cases h : d.marchDay = 366
  · have := hleap h
    omega
  · omega

theorem marchMonth_bounds (d : Date) : 3 ≤ d.marchMonth ∧ d.marchMonth ≤ 14 := by
  have := d.one_le_month
  have := d.month_le
  obtain ⟨h, -, hm⟩ | ⟨h, -, hm⟩ := marchYear_cases d <;> omega

theorem day_le_31 (d : Date) : d.day ≤ 31 := by
  refine d.day_le.trans ?_
  unfold monthLength
  split_ifs <;> decide

theorem months_eq (d : Date) : 64 * (d.marchDay + 122) / 1959 = d.marchMonth + 1 ∧
    d.marchDay + 122 - 1959 * (d.marchMonth + 1) / 64 = d.day := by
  obtain ⟨hlow, hhigh⟩ := marchMonth_bounds d
  have hpos := d.one_le_day
  have hlen : d.day ≤ 31 ∧ (d.marchMonth ∈ [4, 6, 9, 11] → d.day ≤ 30) ∧
      (d.marchMonth = 14 → d.day ≤ 29) := by
    have hle := d.day_le
    have hmonth := d.month_le
    unfold monthLength at hle
    obtain ⟨h, -, hm⟩ | ⟨h, -, hm⟩ := marchYear_cases d <;> split_ifs at hle <;>
      simp only [List.mem_cons, List.not_mem_nil, or_false] <;> omega
  unfold Date.marchDay
  generalize d.marchMonth = m at *
  interval_cases m <;> simp at hlen ⊢ <;> omega

/-- The day formulas of `RtlTimeToTimeFields` give the date, within 32 bits. -/
theorem dayToDate_eq (d : Date) (n : ℤ) (hn : d.number = 584695 + n) (hpos : 0 ≤ n)
    (hyear : d.year ≤ 30827) : dayToDate n = some ((d.year : ℤ), (d.month : ℤ), (d.day : ℤ)) := by
  have hlt := number_lt hyear
  have hcleaps := cleaps_eq d n hn
  have hyears := years_eq d
  obtain ⟨hmonths, hday⟩ := months_eq d
  obtain ⟨hmlow, hmhigh⟩ := marchMonth_bounds d
  obtain ⟨hdlow, hdhigh, -⟩ := d.marchDay_bounds
  have hcpos : 0 ≤ d.marchYear / 100 - d.marchYear / 400 - 12 := by rw [← hcleaps]; omega
  -- the day number of a calendar that has all the century days
  have hjulian : n + (28188 + (d.marchYear / 100 - d.marchYear / 400 - 12)) =
      365 * d.marchYear + d.marchYear / 4 + d.marchDay - 556519 := by
    unfold Date.number at hn
    omega
  have hypos : 1524 ≤ d.marchYear := by
    rw [← sub_nonneg, ← hyears]
    omega
  have hyearday : 365 * d.marchYear + d.marchYear / 4 + d.marchDay - 556519 -
      (d.marchYear - 1524) * 1461 / 4 = d.marchDay + 122 := by omega
  have hymax : d.marchYear ≤ 30827 := by
    obtain ⟨-, hy, -⟩ | ⟨-, hy, -⟩ := marchYear_cases d <;> omega
  simp only [dayToDate, DAYSPERQUADRICENTENNIUM, DAYSPERNORMALQUADRENNIUM]
  norm_num only
  rw [long_bind _ (by omega) (by omega), long_bind _ (by omega) (by omega),
    Int.tdiv_eq_ediv_of_nonneg (by omega), long_bind _ (by omega) (by omega),
    long_bind _ (by omega) (by omega), Int.tdiv_eq_ediv_of_nonneg (by omega), hcleaps,
    long_bind _ (by omega) (by omega), hjulian, long_bind _ (by omega) (by omega),
    long_bind _ (by omega) (by omega), long_bind _ (by omega) (by omega),
    Int.tdiv_eq_ediv_of_nonneg (by omega), hyears, long_bind _ (by omega) (by omega),
    Int.tdiv_eq_ediv_of_nonneg (by omega), hyearday, long_bind _ (by omega) (by omega),
    long_bind _ (by omega) (by omega), Int.tdiv_eq_ediv_of_nonneg (by omega), hmonths,
    long_bind _ (by omega) (by omega), Int.tdiv_eq_ediv_of_nonneg (by omega), hday,
    long_bind _ (by omega) (by omega)]
  have hone := d.one_le_month
  have htwelve := d.month_le
  obtain ⟨h, hy, hm⟩ | ⟨h, hy, hm⟩ := marchYear_cases d
  · rw [if_neg (by omega), long_bind _ (by omega) (by omega), long_bind _ (by omega) (by omega)]
    simp only [Option.pure_def, Option.some.injEq, Prod.mk.injEq, and_true]
    omega
  · rw [if_pos (by omega), long_bind _ (by omega) (by omega), long_bind _ (by omega) (by omega)]
    simp only [Option.pure_def, Option.some.injEq, Prod.mk.injEq, and_true]
    omega

/-! ## From the fields to the day -/

theorem isLeapYear_eq (y : ℕ) : isLeapYear y = if IsLeap y then 1 else 0 := by
  unfold isLeapYear IsLeap
  rw [Int.tmod_eq_emod_of_nonneg (by omega), Int.tmod_eq_emod_of_nonneg (by omega),
    Int.tmod_eq_emod_of_nonneg (by omega)]
  norm_cast

theorem monthLengths_ge (d : Date) :
    (d.day : ℤ) ≤ (monthLengths.getD
      (if (d.month : ℤ) = 2 ∨ isLeapYear d.year ≠ 0 then 1 else 0) []).getD
        ((d.month : ℤ) - 1).toNat 0 := by
  have hlen := d.day_le
  have hone := d.one_le_month
  have htwelve := d.month_le
  rw [isLeapYear_eq]
  generalize d.month = m at *
  by_cases hleap : IsLeap d.year <;> simp only [monthLength, hleap] at hlen ⊢ <;>
    interval_cases m <;> simp [monthLengths] at hlen ⊢ <;> omega

theorem dateToDay_eq (d : Date) (n : ℤ) (tf : TimeFields) (hn : d.number = 584695 + n)
    (hpos : 0 ≤ n) (hfirst : 1601 ≤ d.year) (hyear : d.year ≤ 30827) (hy : tf.year = d.year)
    (hm : tf.month = d.month) (hd : tf.day = d.day) : dateToDay tf = some n := by
  have hlt := number_lt hyear
  obtain ⟨hmonths, hday⟩ := months_eq d
  obtain ⟨hmlow, hmhigh⟩ := marchMonth_bounds d
  obtain ⟨hdlow, hdhigh, -⟩ := d.marchDay_bounds
  have hmonth : (if tf.month < 3 then tf.month + 13 else tf.month + 1) = (d.marchMonth + 1 : ℤ) := by
    rw [hm]
    obtain ⟨h, -, h'⟩ | ⟨h, -, h'⟩ := marchYear_cases d <;> split_ifs <;> omega
  have hmarch : (if tf.month < 3 then tf.year - 1 else tf.year) = d.marchYear := by
    rw [hm, hy]
    obtain ⟨h, h', -⟩ | ⟨h, h', -⟩ := marchYear_cases d <;> split_ifs <;> omega
  have hybounds : 1600 ≤ d.marchYear ∧ d.marchYear ≤ 30827 := by
    obtain ⟨-, h, -⟩ | ⟨-, h, -⟩ := marchYear_cases d <;> omega
  have hcleaps : (3 * (d.marchYear / 100) + 3) / 4 = d.marchYear / 100 - d.marchYear / 400 := by
    omega
  have hdays : 36525 * d.marchYear / 100 = 365 * d.marchYear + d.marchYear / 4 := by omega
  have hsum : 365 * d.marchYear + d.marchYear / 4 - (d.marchYear / 100 - d.marchYear / 400) +
      1959 * (d.marchMonth + 1) / 64 + d.day - 584817 = n := by
    unfold Date.number at hn
    omega
  simp only [dateToDay, hmonth, hmarch]
  rw [long_bind _ (by omega) (by omega), long_bind _ (by omega) (by omega),
    Int.tdiv_eq_ediv_of_nonneg (by omega), long_bind _ (by omega) (by omega),
    long_bind _ (by omega) (by omega), Int.tdiv_eq_ediv_of_nonneg (by omega), hcleaps,
    long_bind _ (by omega) (by omega), Int.tdiv_eq_ediv_of_nonneg (by omega), hdays,
    long_bind _ (by omega) (by omega), long_bind _ (by omega) (by omega),
    Int.tdiv_eq_ediv_of_nonneg (by omega), long_bind _ (by omega) (by omega), hd,
    long_bind _ (by omega) (by omega), hsum, long_eq hpos (by omega)]

/-! ## Whole times -/

/-- The number of the day of a time: there are `SECSPERDAY * TICKSPERSEC` ticks in a day. -/
def dayOf (t : ℤ) : ℕ := (t / 864000000000).toNat

def dateOf (t : ℤ) : Date := Date.next^[dayOf t] epoch

/-- The fields of a time: its date, its day of the week counted from Monday 1601-01-01, and the
hours, minutes, seconds and milliseconds since midnight. -/
structure FieldsOf (t : ℤ) (tf : TimeFields) : Prop where
  year : tf.year = (dateOf t).year
  month : tf.month = (dateOf t).month
  day : tf.day = (dateOf t).day
  weekday : tf.weekday = (1 + dayOf t) % 7
  hour : 0 ≤ tf.hour ∧ tf.hour < 24
  minute : 0 ≤ tf.minute ∧ tf.minute < 60
  second : 0 ≤ tf.second ∧ tf.second < 60
  milliseconds : 0 ≤ tf.milliseconds ∧ tf.milliseconds < 1000
  time : t - t % 10000 =
    ((((dayOf t * 24 + tf.hour) * 60 + tf.minute) * 60 + tf.second) * 1000 + tf.milliseconds) *
      10000

theorem FieldsOf.not_rejected {t : ℤ} {tf : TimeFields} (h : FieldsOf t tf) : ¬tf.Rejected := by
  obtain ⟨hy, hm, hd, -, hhour, hmin, hsec, hms, -⟩ := h
  have hmonth := (dateOf t).one_le_month
  have hmonth' := (dateOf t).month_le
  have hday := (dateOf t).one_le_day
  have hfirst : 1601 ≤ (dateOf t).year := epoch_year_le (dayOf t)
  have hlen := monthLengths_ge (dateOf t)
  rw [← hy, ← hm, ← hd] at hlen
  unfold TimeFields.Rejected
  -- the length of the month is one number
  generalize (monthLengths.getD _ _).getD _ 0 = len at hlen ⊢
  omega

theorem milliseconds_bounds (t : ℤ) :
    0 ≤ t % 10000000 / 10000 ∧ t % 10000000 / 10000 < 1000 := by
  omega

/-- The seconds since midnight in hours, minutes and seconds. -/
theorem seconds_split (s : ℤ) :
    (s / 3600 * 60 + s % 3600 / 60) * 60 + s % 3600 % 60 = s := by
  omega

theorem ticks_split (t : ℤ) :
    (t / 10000000 * 1000 + t % 10000000 / 10000) * 10000 = t - t % 10000 := by
  omega

theorem rtlTimeToTimeFields_eq {t : ℤ} (h : 0 ≤ t) (hyear : (dateOf t).year ≤ 30827) :
    ∃ tf, rtlTimeToTimeFields t = some tf ∧ FieldsOf t tf := by
  have hnum : (dateOf t).number = 584695 + dayOf t := number_of_day (dayOf t)
  have hlt := number_lt hyear
  have hday : (dayOf t : ℤ) = t / 864000000000 := Int.toNat_of_nonneg (by omega)
  have hdays : t / 10000000 / 86400 = dayOf t := by omega
  have hdate := dayToDate_eq (dateOf t) (dayOf t) hnum (by omega) hyear
  have hmonth' := (dateOf t).month_le
  have hday' := day_le_31 (dateOf t)
  simp only [rtlTimeToTimeFields, TICKSPERSEC, TICKSPERMSEC, SECSPERDAY, SECSPERHOUR, SECSPERMIN,
    EPOCHWEEKDAY, DAYSPERWEEK]
  rw [Int.tmod_eq_emod_of_nonneg h, Int.tdiv_eq_ediv_of_nonneg h,
    Int.tdiv_eq_ediv_of_nonneg (Int.emod_nonneg t (by decide)),
    Int.tdiv_eq_ediv_of_nonneg (Int.ediv_nonneg h (by decide)),
    Int.tmod_eq_emod_of_nonneg (Int.ediv_nonneg h (by decide)), hdays,
    long_bind _ (by omega) (by omega), long_bind _ (by omega) (by omega), hdate]
  have hsec : 0 ≤ t / 10000000 % 86400 := Int.emod_nonneg _ (by decide)
  rw [Int.tdiv_eq_ediv_of_nonneg hsec, Int.tmod_eq_emod_of_nonneg hsec]
  have hsec' : 0 ≤ t / 10000000 % 86400 % 3600 := Int.emod_nonneg _ (by decide)
  rw [Int.tdiv_eq_ediv_of_nonneg hsec', Int.tmod_eq_emod_of_nonneg hsec',
    Int.tmod_eq_emod_of_nonneg (by omega)]
  refine ⟨_, rfl, ?_⟩
  have hfields : cshort (dateOf t).year = (dateOf t).year ∧ cshort (dateOf t).month = (dateOf t).month ∧
      cshort (dateOf t).day = (dateOf t).day := by
    refine ⟨?_, ?_, ?_⟩ <;> exact cshort_eq (by omega) (by omega)
  have hhour : cshort (t / 10000000 % 86400 / 3600) = t / 10000000 % 86400 / 3600 :=
    cshort_eq (by omega) (by omega)
  have hmin : cshort (t / 10000000 % 86400 % 3600 / 60) = t / 10000000 % 86400 % 3600 / 60 :=
    cshort_eq (by omega) (by omega)
  have hsecond : cshort (t / 10000000 % 86400 % 3600 % 60) = t / 10000000 % 86400 % 3600 % 60 :=
    cshort_eq (by omega) (by omega)
  have hms : cshort (t % 10000000 / 10000) = t % 10000000 / 10000 :=
    cshort_eq (by omega) (by omega)
  have hweek : cshort ((1 + dayOf t) % 7 : ℤ) = (1 + dayOf t) % 7 :=
    cshort_eq (by omega) (by omega)
  rw [hfields.1, hfields.2.1, hfields.2.2, hhour, hmin, hsecond, hms, hweek]
  refine ⟨rfl, rfl, rfl, rfl, ?_, ?_, ?_, milliseconds_bounds t, ?_⟩
  · simp only
    omega
  · simp only
    omega
  · simp only
    omega
  · have hseconds := seconds_split (t / 10000000 % 86400)
    have htime := Int.mul_ediv_add_emod (t / 10000000) 86400
    rw [hdays] at htime
    simp only
    linarith only [hseconds, htime, ticks_split t]

theorem rtlTimeFieldsToTime_eq {t : ℤ} {tf : TimeFields} (h : 0 ≤ t)
    (hyear : (dateOf t).year ≤ 30827) (htf : FieldsOf t tf) :
    rtlTimeFieldsToTime tf = some (some (t - t % 10000)) := by
  have hnum : (dateOf t).number = 584695 + dayOf t := number_of_day (dayOf t)
  have hlt := number_lt hyear
  have hday := dateToDay_eq (dateOf t) (dayOf t) tf hnum (by omega) (epoch_year_le (dayOf t)) hyear
    htf.year htf.month htf.day
  rw [rtlTimeFieldsToTime, if_neg htf.not_rejected, hday]
  obtain ⟨-, -, -, -, hhour, hmin, hsec, hms, htime⟩ := htf
  simp only [HOURSPERDAY, MINSPERHOUR, SECSPERMIN, TICKSPERMSEC]
  rw [some_bind, longlong_bind _ (by omega) (by omega), longlong_bind _ (by omega) (by omega),
    longlong_bind _ (by omega) (by omega), longlong_bind _ (by omega) (by omega),
    longlong_bind _ (by omega) (by omega), longlong_bind _ (by omega) (by omega),
    longlong_bind _ (by omega) (by omega), longlong_bind _ (by omega) (by omega),
    longlong_bind _ (by omega) (by omega), ← htime]
  rfl

/-- Every time from 1601 through 30827 has fields, computed within 32 bits: those of its date in
the Gregorian calendar, its day of the week and its time of day. The fields give back the time,
rounded down to a millisecond. -/
theorem time_fields_round_trip (t : ℤ) (h : 0 ≤ t) (hyear : (dateOf t).year ≤ 30827) :
    ∃ tf, rtlTimeToTimeFields t = some tf ∧ FieldsOf t tf ∧
      rtlTimeFieldsToTime tf = some (some (t - t % 10000)) := by
  obtain ⟨tf, heq, htf⟩ := rtlTimeToTimeFields_eq h hyear
  exact ⟨tf, heq, htf, rtlTimeFieldsToTime_eq h hyear htf⟩

/-- The first of March of 1601, a Thursday. -/
theorem time_fields_round_trip_march :
    0 ≤ (51001201234567 : ℤ) ∧ (dateOf 51001201234567).year ≤ 30827 ∧
    ∃ tf, rtlTimeToTimeFields 51001201234567 = some tf ∧ FieldsOf 51001201234567 tf ∧
      rtlTimeFieldsToTime tf = some (some (51001201234567 - 51001201234567 % 10000)) :=
  ⟨by decide, by decide +kernel, time_fields_round_trip 51001201234567 (by decide)
    (by decide +kernel)⟩

end Wine.Ntdll
