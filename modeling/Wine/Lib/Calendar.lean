import Mathlib.Tactic.IntervalCases

/-!
# The proleptic Gregorian calendar

A date is a day that exists. `Date.next` is the day after it, and everything else is measured by it:
`Date.number` counts days, with the years starting in March so that the leap day comes last.
-/

namespace Wine.Lib

def IsLeap (year : ℕ) : Prop := year % 4 = 0 ∧ (year % 100 ≠ 0 ∨ year % 400 = 0)

instance : DecidablePred IsLeap := fun year =>
  inferInstanceAs (Decidable (year % 4 = 0 ∧ (year % 100 ≠ 0 ∨ year % 400 = 0)))

def monthLength (year month : ℕ) : ℕ :=
  if month = 2 then if IsLeap year then 29 else 28
  else if month = 4 ∨ month = 6 ∨ month = 9 ∨ month = 11 then 30
  else 31

theorem one_le_monthLength (year month : ℕ) : 1 ≤ monthLength year month := by
  unfold monthLength
  split_ifs <;> decide

structure Date where
  year : ℕ
  month : ℕ
  day : ℕ
  one_le_month : 1 ≤ month
  month_le : month ≤ 12
  one_le_day : 1 ≤ day
  day_le : day ≤ monthLength year month

namespace Date

def ofValid (year month day : ℕ)
    (h : 1 ≤ month ∧ month ≤ 12 ∧ 1 ≤ day ∧ day ≤ monthLength year month) : Date :=
  ⟨year, month, day, h.1, h.2.1, h.2.2.1, h.2.2.2⟩

/-- The day after. -/
def next (d : Date) : Date :=
  if h : d.day < monthLength d.year d.month then
    ⟨d.year, d.month, d.day + 1, d.one_le_month, d.month_le, Nat.le_add_left 1 _, h⟩
  else if h' : d.month < 12 then
    ⟨d.year, d.month + 1, 1, Nat.le_add_left 1 _, h', le_rfl, one_le_monthLength _ _⟩
  else ⟨d.year + 1, 1, 1, le_rfl, by decide, le_rfl, one_le_monthLength _ _⟩

/-- The year that starts in March. -/
def marchYear (d : Date) : ℤ := if d.month < 3 then d.year - 1 else d.year

/-- The month of the year that starts in March, from 3 to 14. -/
def marchMonth (d : Date) : ℕ := if d.month < 3 then d.month + 12 else d.month

/-- The day of the year that starts in March, from 1 on. -/
def marchDay (d : Date) : ℤ := ((153 * (d.marchMonth - 3) + 2) / 5 : ℕ) + d.day

/-- The number of a day, by the leap days before it. -/
def number (d : Date) : ℤ :=
  365 * d.marchYear + d.marchYear / 4 - d.marchYear / 100 + d.marchYear / 400 + d.marchDay

theorem number_next (d : Date) : d.next.number = d.number + 1 := by
  obtain ⟨year, month, day, hpos, hle, hday, hlen⟩ := d
  unfold next
  split_ifs with h h'
  · simp only [number, marchYear, marchDay, marchMonth]
    omega
  · have hlast : day = monthLength year month := le_antisymm hlen (not_lt.mp h)
    simp only at hpos h'
    simp only [number, marchYear, marchDay, marchMonth]
    clear hlen h
    -- only the length of February depends on the year
    by_cases hleap : IsLeap year <;> simp only [monthLength, hleap] at hlast <;>
      simp only [IsLeap] at hleap <;> interval_cases month <;> simp at hlast ⊢ <;> omega
  · have hlast : day = monthLength year month := le_antisymm hlen (not_lt.mp h)
    obtain rfl : month = 12 := le_antisymm hle (not_lt.mp h')
    simp only [number, marchYear, marchDay, marchMonth]
    simp [monthLength] at hlast ⊢
    omega

theorem number_iterate_next (d : Date) (n : ℕ) : (next^[n] d).number = d.number + n := by
  induction n with
  | zero => simp
  | succ n ih =>
      rw [Function.iterate_succ_apply', number_next, ih]
      push_cast
      omega

theorem year_le_next (d : Date) : d.year ≤ d.next.year := by
  unfold next
  split_ifs <;> simp

theorem year_le_iterate_next (d : Date) (n : ℕ) : d.year ≤ (next^[n] d).year := by
  induction n with
  | zero => exact le_rfl
  | succ n ih =>
      rw [Function.iterate_succ_apply']
      exact ih.trans (year_le_next _)

/-- A day of the year that starts in March is at most the 366th, which is a leap day. -/
theorem marchDay_bounds (d : Date) : 1 ≤ d.marchDay ∧ d.marchDay ≤ 366 ∧
    (d.marchDay = 366 →
      d.marchYear % 4 = 3 ∧ (d.marchYear % 100 ≠ 99 ∨ d.marchYear % 400 = 399)) := by
  obtain ⟨year, month, day, hpos, hle, hday, hlen⟩ := d
  simp only [marchYear, marchDay, marchMonth]
  by_cases hleap : IsLeap year <;> simp only [monthLength, hleap] at hlen <;>
    simp only [IsLeap] at hleap <;> interval_cases month <;> simp at hlen ⊢ <;> omega

end Date

end Wine.Lib
