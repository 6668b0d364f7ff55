import Mathlib.Order.Monotone.Basic

/-!
# The Gregorian calendar

The proleptic Gregorian calendar.  Days are numbered from January 1 of the year 0 on, and
months from 0 on.

Main results:

- Theorem `daysTo_eq`: the day that a year begins with, in closed form.
- Theorem `Date.eq_of_number`: a day has one date.
- Theorem `Date.number_next`: the date of the next day.
-/

namespace Xinu
namespace Foundations

/-! ## Years and months -/

def IsLeap (year : Nat) : Prop :=
  year % 4 = 0 ∧ (year % 100 ≠ 0 ∨ year % 400 = 0)

instance (year : Nat) : Decidable (IsLeap year) :=
  inferInstanceAs (Decidable (_ ∧ _))

def yearLength (year : Nat) : Nat :=
  if IsLeap year then 366 else 365

/-- The days of a month, whose number is below 12. -/
def monthLength (year month : Nat) : Nat :=
  match month with
  | 1 => if IsLeap year then 29 else 28
  | 3 | 5 | 8 | 10 => 30
  | _ => 31

/-- The number of the day that a year begins with. -/
def daysTo : Nat → Nat
  | 0 => 0
  | year + 1 => daysTo year + yearLength year

/-- The days of a year that are before a month. -/
def monthStart (year : Nat) : Nat → Nat
  | 0 => 0
  | month + 1 => monthStart year month + monthLength year month

theorem daysTo_eq (year : Nat) :
    daysTo year + (year + 99) / 100 = 365 * year + (year + 3) / 4 + (year + 399) / 400 := by
  induction year with
  | zero => rfl
  | succ year ih =>
      rw [daysTo, yearLength]
      split_ifs with hleap
      all_goals
        unfold IsLeap at hleap
        omega

theorem monthStart_twelve (year : Nat) : monthStart year 12 = yearLength year := by
  simp only [monthStart, monthLength, yearLength]
  split_ifs <;> rfl

/-- A number is between two successive values of a sum of lengths in one place only. -/
theorem eq_of_between {f : Nat → Nat} (hf : Monotone f) {a b n : Nat} (ha : f a ≤ n)
    (ha' : n < f (a + 1)) (hb : f b ≤ n) (hb' : n < f (b + 1)) : a = b := by
  rcases Nat.lt_trichotomy a b with hlt | heq | hgt
  · have hle : f (a + 1) ≤ f b := hf hlt
    omega
  · exact heq
  · have hle : f (b + 1) ≤ f a := hf hgt
    omega

theorem daysTo_mono : Monotone daysTo :=
  monotone_nat_of_le_succ fun year => Nat.le_add_right _ (yearLength year)

theorem monthStart_mono (year : Nat) : Monotone (monthStart year) :=
  monotone_nat_of_le_succ fun month => Nat.le_add_right _ (monthLength year month)

theorem monthLength_pos (year month : Nat) : 0 < monthLength year month := by
  unfold monthLength
  split <;> (try split_ifs) <;> omega

/-! ## Dates -/

/-- A date of the calendar.  Months are numbered from 0 on, days from 1 on. -/
@[ext]
structure Date where
  year : Nat
  month : Nat
  day : Nat
  month_lt : month < 12
  day_pos : 0 < day
  day_le : day ≤ monthLength year month

namespace Date

/-- The days of the year that are before the date. -/
def yearDay (d : Date) : Nat :=
  monthStart d.year d.month + (d.day - 1)

/-- The number of the day. -/
def number (d : Date) : Nat :=
  daysTo d.year + d.yearDay

theorem yearDay_lt (d : Date) : d.yearDay < monthStart d.year (d.month + 1) := by
  have hpos := d.day_pos
  have hle := d.day_le
  rw [yearDay, monthStart]
  omega

theorem number_lt (d : Date) : d.number < daysTo (d.year + 1) := by
  have hlt := d.yearDay_lt
  have hle : monthStart d.year (d.month + 1) ≤ monthStart d.year 12 :=
    monthStart_mono d.year d.month_lt
  rw [monthStart_twelve] at hle
  rw [number, daysTo]
  omega

/-- A day has one date. -/
theorem eq_of_number {d e : Date} (h : d.number = e.number) : d = e := by
  have hyear : d.year = e.year := by
    refine eq_of_between daysTo_mono (n := d.number) (Nat.le_add_right _ _) d.number_lt ?_ ?_
    · rw [h]
      exact Nat.le_add_right _ _
    · rw [h]
      exact e.number_lt
  have hyearDay : d.yearDay = e.yearDay := by
    rw [number, number, hyear] at h
    exact Nat.add_left_cancel h
  have hmonth : d.month = e.month := by
    refine eq_of_between (monthStart_mono d.year) (n := d.yearDay) (Nat.le_add_right _ _)
      d.yearDay_lt ?_ ?_
    · rw [hyearDay, hyear]
      exact Nat.le_add_right _ _
    · rw [hyearDay, hyear]
      exact e.yearDay_lt
  have hday : d.day = e.day := by
    have hd := d.day_pos
    have he := e.day_pos
    rw [yearDay, yearDay, hyear, hmonth] at hyearDay
    omega
  exact Date.ext hyear hmonth hday

/-- The date of the next day. -/
def next (d : Date) : Date :=
  if hday : d.day < monthLength d.year d.month then
    ⟨d.year, d.month, d.day + 1, d.month_lt, Nat.succ_pos _, hday⟩
  else if hmonth : d.month + 1 < 12 then
    ⟨d.year, d.month + 1, 1, hmonth, Nat.one_pos, monthLength_pos _ _⟩
  else ⟨d.year + 1, 0, 1, by decide, Nat.one_pos, monthLength_pos _ _⟩

theorem number_next (d : Date) : d.next.number = d.number + 1 := by
  have hpos := d.day_pos
  have hle := d.day_le
  unfold next
  split_ifs with hday hmonth
  · simp only [number, yearDay]
    omega
  · simp only [number, yearDay, monthStart]
    omega
  · have hlast : d.month = 11 := by
      have hlt := d.month_lt
      omega
    have hyear := monthStart_twelve d.year
    rw [monthStart] at hyear
    simp only [number, yearDay, daysTo, hlast, monthStart] at *
    omega

end Date

/-! ## Weekdays -/

/-- The day of the week, Sunday being 0.  January 1 of the year 0 was a Saturday. -/
def weekday (n : Nat) : Nat :=
  (n + 6) % 7

/-- The date is the `n`-th Sunday of its month. -/
def Date.IsSunday (d : Date) (n : Nat) : Prop :=
  weekday d.number = 0 ∧ 7 * n < d.day + 7 ∧ d.day ≤ 7 * n

/-- The day of the first Sunday of a month. -/
def firstSunday (year month : Nat) : Nat :=
  let first := weekday (daysTo year + monthStart year month)
  if first = 0 then 1 else 8 - first

theorem firstSunday_bounds (year month : Nat) :
    0 < firstSunday year month ∧ firstSunday year month ≤ 7 := by
  unfold firstSunday weekday
  dsimp only
  split_ifs <;> omega

theorem Date.isSunday_iff {d : Date} {n : Nat} :
    d.IsSunday n ↔ d.day + 7 = 7 * n + firstSunday d.year d.month := by
  have hpos := d.day_pos
  unfold Date.IsSunday firstSunday weekday Date.number Date.yearDay
  dsimp only
  split_ifs <;> omega

end Foundations
end Xinu
