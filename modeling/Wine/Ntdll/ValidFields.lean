import Wine.Ntdll.TimeFields

/-!
# The dates that are accepted

`RtlTimeFieldsToTime` accepts the times of the days of the calendar, and the 29th of February of every
year.
-/

namespace Wine.Ntdll
open Lib

variable {d d' : Date} {tf : TimeFields}

/-- The leap days before a year do not get fewer. -/
theorem leapDays_mono {y z : ℤ} (h : y ≤ z) : y / 4 - y / 100 + y / 400 ≤ z / 4 - z / 100 + z / 400 := by
  have hquarter : y / 4 ≤ z / 4 := by omega
  have hquadri : y / 400 ≤ z / 400 := by omega
  have hcentury : 25 * (z / 100) ≤ z / 4 ∧ y / 4 ≤ 25 * (y / 100) + 24 := by omega
  have hle : y / 100 ≤ z / 100 := by omega
  generalize y / 4 = a at *
  generalize y / 100 = b at *
  generalize y / 400 = c at *
  generalize z / 4 = a' at *
  generalize z / 100 = b' at *
  generalize z / 400 = c' at *
  omega

theorem number_lt_of_marchYear_lt (h : d.marchYear < d'.marchYear) : d.number < d'.number := by
  obtain ⟨-, hle, hleap⟩ := d.marchDay_bounds
  obtain ⟨hpos, -, -⟩ := d'.marchDay_bounds
  have hmono := leapDays_mono (Int.add_one_le_iff.mpr h)
  unfold Date.number
  generalize d'.marchYear / 4 = a at *
  generalize d'.marchYear / 100 = b at *
  generalize d'.marchYear / 400 = c at *
  have hstep := leapDays_mono (show d.marchYear ≤ d.marchYear + 1 by omega)
  by_cases hday : d.marchDay = 366
  · -- the leap day belongs to the next year
    obtain ⟨hfour, hcentury⟩ := hleap hday
    have hquarter : (d.marchYear + 1) / 4 = d.marchYear / 4 + 1 := by omega
    rcases hcentury with hno | hquadri
    · have hsame : (d.marchYear + 1) / 100 = d.marchYear / 100 := by omega
      omega
    · have hsame : (d.marchYear + 1) / 100 = d.marchYear / 100 + 1 ∧
          (d.marchYear + 1) / 400 = d.marchYear / 400 + 1 := by omega
      omega
  · omega

/-- The number of a day determines the date. -/
theorem number_injective (h : d.number = d'.number) : d = d' := by
  have hyear : d.marchYear = d'.marchYear := by
    rcases lt_trichotomy d.marchYear d'.marchYear with hlt | heq | hgt
    · exact absurd h (number_lt_of_marchYear_lt hlt).ne
    · exact heq
    · exact absurd h (number_lt_of_marchYear_lt hgt).ne'
  have hmarch : d.marchDay = d'.marchDay := by
    unfold Date.number at h
    rw [hyear] at h
    omega
  obtain ⟨hmonth, hday⟩ := months_eq d
  obtain ⟨hmonth', hday'⟩ := months_eq d'
  rw [hmarch] at hmonth hday
  have hmonths : d.marchMonth = d'.marchMonth := by omega
  have hbounds := And.intro d.one_le_month d.month_le
  have hbounds' := And.intro d'.one_le_month d'.month_le
  have hdays : d.day = d'.day := by
    rw [hmonths] at hday
    omega
  have hall : d.year = d'.year ∧ d.month = d'.month := by
    obtain ⟨hm, hy, hmm⟩ | ⟨hm, hy, hmm⟩ := marchYear_cases d <;>
      obtain ⟨hm', hy', hmm'⟩ | ⟨hm', hy', hmm'⟩ := marchYear_cases d' <;> omega
  cases d
  cases d'
  simp only at hall hdays
  obtain ⟨rfl, rfl⟩ := hall
  subst hdays
  rfl

/-- A time of the day. -/
structure TimeFields.OfDay (tf : TimeFields) : Prop where
  hour : 0 ≤ tf.hour ∧ tf.hour < 24
  minute : 0 ≤ tf.minute ∧ tf.minute < 60
  second : 0 ≤ tf.second ∧ tf.second < 60
  milliseconds : 0 ≤ tf.milliseconds ∧ tf.milliseconds < 1000

/-- A real day of the calendar. -/
def TimeFields.IsDate (tf : TimeFields) (d : Date) : Prop :=
  tf.year = d.year ∧ tf.month = d.month ∧ tf.day = d.day

/-- The fields but for the day of the week. -/
def TimeFields.Same (tf tf' : TimeFields) : Prop := { tf with weekday := tf'.weekday } = tf'

/-- The fields are accepted if they are those of a real time, and then the time gives them back. -/
structure ExactFields (tf : TimeFields) : Prop where
  accepts : ∀ d, tf.IsDate d → tf.OfDay → ∃ t, rtlTimeFieldsToTime tf = some (some t) ∧
    ∃ tf', rtlTimeToTimeFields t = some tf' ∧ tf.Same tf'
  rejects : (¬∃ d, tf.IsDate d ∧ tf.OfDay) → rtlTimeFieldsToTime tf = some none

/-- The 29th of February of a year that has none. -/
def TimeFields.NoLeapDay (tf : TimeFields) : Prop :=
  tf.month = 2 ∧ tf.day = 29 ∧ ¬IsLeap tf.year.toNat ∧ tf.OfDay

theorem ofDay_of_not_rejected (h : ¬tf.Rejected) : tf.OfDay := by
  unfold TimeFields.Rejected at h
  generalize (monthLengths.getD _ _).getD _ 0 = len at h
  constructor <;> omega

/-- What is not rejected is a date or the 29th of February. -/
theorem date_of_not_rejected (h : ¬tf.Rejected) (hleap : ¬tf.NoLeapDay) : ∃ d, tf.IsDate d := by
  have hofDay := ofDay_of_not_rejected h
  unfold TimeFields.Rejected at h
  obtain ⟨year, hyear⟩ : ∃ n : ℕ, tf.year = n := ⟨tf.year.toNat, by omega⟩
  obtain ⟨month, hmonth⟩ : ∃ n : ℕ, tf.month = n := ⟨tf.month.toNat, by omega⟩
  obtain ⟨day, hday⟩ : ∃ n : ℕ, tf.day = n := ⟨tf.day.toNat, by omega⟩
  have hbounds : 1 ≤ month ∧ month ≤ 12 ∧ 1 ≤ day := by omega
  have hlen : (day : ℤ) ≤ (monthLengths.getD (if (month : ℤ) = 2 ∨ isLeapYear year ≠ 0 then 1 else 0)
      []).getD ((month : ℤ) - 1).toNat 0 := by
    rw [← hday, ← hmonth, ← hyear]
    omega
  have hno : month = 2 → day = 29 → IsLeap year := by
    intro hm hd
    by_contra hnot
    refine hleap ⟨by omega, by omega, ?_, hofDay⟩
    rw [hyear, Int.toNat_natCast]
    exact hnot
  have hle : day ≤ monthLength year month := by
    rw [isLeapYear_eq] at hlen
    obtain ⟨hone, htwelve, hpos⟩ := hbounds
    clear h hmonth hyear
    by_cases hy : IsLeap year <;> simp only [monthLength, hy] at hlen hno ⊢ <;>
      interval_cases month <;> simp [monthLengths] at hlen hno ⊢ <;> omega
  exact ⟨.ofValid year month day ⟨hbounds.1, hbounds.2.1, hbounds.2.2, hle⟩, hyear, hmonth, hday⟩

theorem rejected_of_result (h : rtlTimeFieldsToTime tf = some none) : tf.Rejected := by
  by_contra hnot
  rw [rtlTimeFieldsToTime, if_neg hnot] at h
  simp only [Option.bind_eq_bind, Option.bind_eq_some_iff, Option.pure_def, Option.some.injEq,
    reduceCtorEq, and_false, exists_false] at h

/-- The day of a date, counted from 1601-01-01. -/
theorem exists_day (hfirst : 1601 ≤ d.year) : ∃ n : ℕ, d.number = 584695 + n := by
  obtain ⟨hpos, -, -⟩ := d.marchDay_bounds
  have hlow : 584695 ≤ d.number := by
    unfold Date.number
    obtain ⟨hm, hy, hmm⟩ | ⟨hm, hy, hmm⟩ := marchYear_cases d
    · have hone := d.one_le_day
      have hmonth := d.one_le_month
      have hmarch : 307 ≤ d.marchDay := by
        unfold Date.marchDay
        omega
      omega
    · omega
  exact ⟨(d.number - 584695).toNat, by omega⟩

/-- A number of milliseconds has one hour, minute, second and millisecond. -/
theorem digits_eq {n t h h' m m' s s' ms ms' : ℤ}
    (ht : t = ((((n * 24 + h) * 60 + m) * 60 + s) * 1000 + ms) * 10000)
    (hms : 0 ≤ ms ∧ ms < 1000) (hms' : 0 ≤ ms' ∧ ms' < 1000) (hs : 0 ≤ s ∧ s < 60)
    (hs' : 0 ≤ s' ∧ s' < 60) (hm : 0 ≤ m ∧ m < 60) (hm' : 0 ≤ m' ∧ m' < 60)
    (ht' : t = ((((n * 24 + h') * 60 + m') * 60 + s') * 1000 + ms') * 10000) :
    ms = ms' ∧ s = s' ∧ m = m' ∧ h = h' := by
  have hmsEq : ms = ms' := by omega
  have hsEq : s = s' := by omega
  have hmEq : m = m' := by omega
  exact ⟨hmsEq, hsEq, hmEq, by omega⟩

/-- The fields of a real time give the time, and the time gives the fields. -/
theorem accepted (hd : tf.IsDate d) (hofDay : tf.OfDay) (hfirst : 1601 ≤ d.year)
    (hyear : d.year ≤ 30827) : ∃ t, rtlTimeFieldsToTime tf = some (some t) ∧
      ∃ tf', rtlTimeToTimeFields t = some tf' ∧ tf.Same tf' := by
  obtain ⟨n, hn⟩ := exists_day hfirst
  obtain ⟨hhour, hminute, hsecond, hms⟩ := hofDay
  obtain ⟨t, ht⟩ : ∃ t : ℤ, t = ((((n * 24 + tf.hour) * 60 + tf.minute) * 60 + tf.second) * 1000 +
    tf.milliseconds) * 10000 := ⟨_, rfl⟩
  have hday : dayOf t = n := by
    unfold dayOf
    omega
  have hdate : dateOf t = d := by
    apply number_injective
    rw [dateOf, number_of_day, hday, hn]
  have hfields : FieldsOf t { tf with weekday := (1 + dayOf t) % 7 } := by
    refine ⟨?_, ?_, ?_, rfl, hhour, hminute, hsecond, hms, ?_⟩
    · rw [hdate]
      exact hd.1
    · rw [hdate]
      exact hd.2.1
    · rw [hdate]
      exact hd.2.2
    · rw [hday]
      dsimp only
      omega
  have hround : t - t % 10000 = t := by omega
  have hyear' : (dateOf t).year ≤ 30827 := hdate ▸ hyear
  have hresult := rtlTimeFieldsToTime_eq (by omega) hyear' hfields
  rw [hround] at hresult
  refine ⟨t, hresult, ?_⟩
  obtain ⟨tf', htf', hfields'⟩ := rtlTimeToTimeFields_eq (show 0 ≤ t by omega) hyear'
  refine ⟨tf', htf', ?_⟩
  obtain ⟨hy, hm, hdd, -, hhour', hminute', hsecond', hms', htime⟩ := hfields'
  rw [hdate] at hy hm hdd
  rw [hround, hday] at htime
  obtain ⟨hty, htm, htd⟩ := hd
  obtain ⟨hmsEq, hsecondEq, hminuteEq, hhourEq⟩ := digits_eq ht hms hms' hsecond hsecond' hminute
    hminute' htime
  have hyearEq : tf.year = tf'.year := hty.trans hy.symm
  have hmonthEq : tf.month = tf'.month := htm.trans hm.symm
  have hdayEq : tf.day = tf'.day := htd.trans hdd.symm
  rw [TimeFields.Same, hyearEq, hmonthEq, hdayEq, hhourEq, hminuteEq, hsecondEq, hmsEq]

/-- The fields are treated as they should be unless they are those of a 29th of February that does not
exist. -/
theorem rtlTimeFieldsToTime_exact_iff (tf : TimeFields) (hfirst : 1601 ≤ tf.year)
    (hyear : tf.year ≤ 30827) : ExactFields tf ↔ ¬tf.NoLeapDay := by
  constructor
  · rintro ⟨-, hrejects⟩ hleap
    obtain ⟨hm, hd, hno, hofDay⟩ := hleap
    have hdate : ¬∃ d, tf.IsDate d ∧ tf.OfDay := by
      rintro ⟨d, ⟨hy, hm', hd'⟩, -⟩
      have hle := d.day_le
      have hmonth : d.month = 2 := by omega
      rw [hmonth] at hle
      rw [hy, Int.toNat_natCast] at hno
      simp only [monthLength, hno] at hle
      simp at hle
      omega
    have hrejected := rejected_of_result (hrejects hdate)
    obtain ⟨hhour, hminute, hsecond, hms⟩ := hofDay
    unfold TimeFields.Rejected at hrejected
    rw [hm, hd] at hrejected
    simp [monthLengths] at hrejected
    omega
  · intro hleap
    refine ⟨fun d hd hofDay => ?_, fun hnone => ?_⟩
    · have hy := hd.1
      exact accepted hd hofDay (by omega) (by omega)
    · by_cases hrejected : tf.Rejected
      · exact if_pos hrejected
      · obtain ⟨d, hd⟩ := date_of_not_rejected hrejected hleap
        exact absurd ⟨d, hd, ofDay_of_not_rejected hrejected⟩ hnone

/-- The last leap day of the century. -/
theorem rtlTimeFieldsToTime_exact_leap :
    ExactFields ⟨2000, 2, 29, 23, 59, 59, 999, 0⟩ ↔
      ¬TimeFields.NoLeapDay ⟨2000, 2, 29, 23, 59, 59, 999, 0⟩ :=
  rtlTimeFieldsToTime_exact_iff _ (by decide) (by decide)

theorem not_exactFields_noLeapDay : ¬ExactFields ⟨2001, 2, 29, 0, 0, 0, 0, 0⟩ := by
  intro h
  have hnot : ¬∃ d, TimeFields.IsDate ⟨2001, 2, 29, 0, 0, 0, 0, 0⟩ d ∧
      TimeFields.OfDay ⟨2001, 2, 29, 0, 0, 0, 0, 0⟩ := by
    rintro ⟨d, ⟨hy, hm, hd⟩, -⟩
    have hle := d.day_le
    have hyear : d.year = 2001 := Int.ofNat_inj.mp hy.symm
    have hmonth : d.month = 2 := Int.ofNat_inj.mp hm.symm
    have hday : d.day = 29 := Int.ofNat_inj.mp hd.symm
    rw [hyear, hmonth, hday] at hle
    exact absurd hle (by decide)
  exact absurd (rejected_of_result (h.rejects hnot)) (by decide)

end Wine.Ntdll
