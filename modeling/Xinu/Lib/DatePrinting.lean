import Xinu.Foundations.Calendar
import Xinu.Foundations.CountedLoop
import Xinu.Kernel.State
import Xinu.Lib.FormattedPrint

/-!
# Printing dates

Embedding of `system/ascdate.c` and of the part of `include/date.h` that it uses.  Values
that are never negative are natural numbers; none of them gets too large for its type.

Main results:

- Theorem `breakDown_date`: the date and the weekday of the standard time.
- Theorem `summer_iff`: when the code applies daylight time by itself.
- Theorem `ascdate_iff`: for which times the string is right.
-/

namespace Xinu
namespace Lib

open Foundations

/-! ## date.h -/

def dateDstOn : Int := 1

def dateDstAuto : Int := 2

/-- `isleap` -/
def Isleap (x : Nat) : Prop :=
  x % 4 = 0

instance (x : Nat) : Decidable (Isleap x) :=
  inferInstanceAs (Decidable (_ = _))

def secperdy : Nat := 60 * 60 * 24

def secperhr : Nat := 60 * 60

def secpermn : Nat := 60

/-- `TIMEZONE`, which is `ZONE_EST` -/
def timezone : Nat := 5

/-- `Date.dt_msize` -/
def dtMsize (month : Nat) : Nat :=
  [31, 28, 31, 30, 31, 30, 31, 31, 30, 31, 30, 31].getD month 0

/-- `Date.dt_mnam` -/
def dtMnam : List (List UInt8) :=
  [['J', 'a', 'n'], ['F', 'e', 'b'], ['M', 'a', 'r'], ['A', 'p', 'r'], ['M', 'a', 'y'],
    ['J', 'u', 'n'], ['J', 'u', 'l'], ['A', 'u', 'g'], ['S', 'e', 'p'], ['O', 'c', 't'],
    ['N', 'o', 'v'], ['D', 'e', 'c']].map (List.map code)

/-- `Date.dt_dnam` -/
def dtDnam : List (List UInt8) :=
  [['S', 'u', 'n'], ['M', 'o', 'n'], ['T', 'u', 'e'], ['W', 'e', 'd'], ['T', 'h', 'u'],
    ['F', 'r', 'i'], ['S', 'a', 't']].map (List.map code)

/-! ## ascdate.c -/

def zones : List (List UInt8) :=
  [['E', 'S', 'T'], ['C', 'S', 'T'], ['M', 'S', 'T'], ['P', 'S', 'T']].map (List.map code)

def dzones : List (List UInt8) :=
  [['E', 'D', 'T'], ['C', 'D', 'T'], ['M', 'D', 'T'], ['P', 'D', 'T']].map (List.map code)

/-- Where the string literals are in memory. -/
structure Literals where
  address : List UInt8 → BitVec 32
  /-- The string that an address points to. -/
  deref : BitVec 32 → List UInt8
  stored : ∀ s ∈ dtMnam ++ dtDnam ++ zones ++ dzones, address s ≠ 0 ∧ deref (address s) = s

/-- `for (year=1970 ; TRUE ; year++)`: the year, and what is left of `now`. -/
def yearLoop (year now : Nat) : Nat × Nat :=
  let days := if Isleap year then 366 else 365
  let tmp := days * secperdy
  if tmp > now then (year, now) else yearLoop (year + 1) (now - tmp)
termination_by now
decreasing_by
  have hpos : 0 < days * secperdy := by
    show 0 < (if Isleap year then 366 else 365) * secperdy
    split_ifs <;> decide
  have hle : ¬ days * secperdy > now := by assumption
  exact Nat.sub_lt (Nat.lt_of_lt_of_le hpos (Nat.le_of_not_lt hle)) hpos

/-- `for (month=0 ; month<12 ; month++)`, with so many turns left. -/
def monthLoop (year : Nat) : Nat → Nat → Nat → Nat × Nat
  | 0, month, now => (month, now)
  | left + 1, month, now =>
      let tmp := dtMsize month * secperdy
      let tmp := if month = 1 ∧ Isleap year then tmp + secperdy else tmp
      if tmp > now then (month, now) else monthLoop year left (month + 1) (now - tmp)

/-- The automatic calculation of `dst`. -/
def automatic (year month day hour jan1 : Nat) : Bool :=
  let leap := if Isleap year then 1 else 0
  let mar1 := (jan1 + dtMsize 0 + dtMsize 1 + leap) % 7
  let marss := if mar1 = 0 then 8 else 15 - mar1
  let nov1 := (forRange 0 10 (fun i nov1 => nov1 + dtMsize i) jan1 + leap) % 7
  let novfs := if nov1 = 0 then 1 else 8 - nov1
  if month = 11 ∨ month = 0 ∨ month = 1 then false
  else if month > 2 ∧ month < 10 then true
  else if month = 2 then decide (day > marss ∨ day = marss ∧ hour ≥ 2)
  else if month = 10 then !decide (day > novfs ∨ day = novfs ∧ hour ≥ 1)
  else false

/-- What is printed. -/
structure Shown where
  dayofweek : Nat
  month : Nat
  day : Nat
  hour : Nat
  minute : Nat
  second : Nat
  dst : Bool
  year : Nat

/-- One hour ahead. -/
def Shown.ahead (t : Shown) : Shown :=
  if t.hour + 1 > 23 then
    if t.day + 1 > dtMsize t.month then { t with hour := 0, day := 1, month := t.month + 1 }
    else { t with hour := 0, day := t.day + 1 }
  else { t with hour := t.hour + 1 }

/-- What `ascdate` computes before the daylight savings time. -/
def standard (now : Nat) : Shown × Nat :=
  let y := yearLoop 1970 now
  let days := y.2 / secperdy
  let m := monthLoop y.1 12 0 y.2
  let day := m.2 / secperdy + 1
  let now := m.2 % secperdy
  let hour := now / secperhr
  let now := now % secperhr
  let leapyrs := (y.1 - 1969) / 4
  let shift := 4 + (y.1 - 1970) + leapyrs
  ({ dayofweek := (shift + days) % 7, month := m.1, day, hour, minute := now / secpermn,
     second := now % secpermn, dst := false, year := y.1 }, shift % 7)

/-- The values that `ascdate` prints.  The argument `daylight` is `Date.dt_daylight`. -/
def breakDown (daylight : Int) (now : Nat) : Shown :=
  let t := (standard now).1
  let dst :=
    if daylight = dateDstOn then true
    else if daylight = dateDstAuto then
      automatic t.year t.month t.day t.hour (standard now).2
    else false
  if dst then { t.ahead with dst := true } else t

/-- `"%3s  %3s %2d  %2d:%02d:%02d %s %d"` -/
def dateFormat : List UInt8 :=
  ['%', '3', 's', ' ', ' ', '%', '3', 's', ' ', '%', '2', 'd', ' ', ' ', '%', '2', 'd', ':',
    '%', '0', '2', 'd', ':', '%', '0', '2', 'd', ' ', '%', 's', ' ', '%', 'd'].map code

/-- The arguments of `sprintf` after the format.  The array `dt_dnam` follows `dt_mnam` in
`struct dateinfo`, so that it is read when the month is 12. -/
def Shown.args (lit : Literals) (t : Shown) : VaList := fun i =>
  [lit.address (dtDnam.getD t.dayofweek []), lit.address ((dtMnam ++ dtDnam).getD t.month []),
    BitVec.ofNat 32 t.day, BitVec.ofNat 32 t.hour, BitVec.ofNat 32 t.minute,
    BitVec.ofNat 32 t.second,
    lit.address (if t.dst then dzones.getD (timezone - 5) [] else zones.getD (timezone - 5) []),
    BitVec.ofNat 32 t.year].getD i 0

/-- `ascdate`: the status, and the memory from `str` on.  What `str` and the buffer of
`sprintf` held before is arbitrary. -/
def ascdate (lit : Literals) (daylight : Int) (string : List UInt8) (now : Nat) (str : Chars) :
    Int × Chars :=
  (ok, sprintf lit.deref string str dateFormat ((breakDown daylight now).args lit))

/-! ## What is claimed -/

/-- The number of January 1, 1970. -/
def epoch : Nat := daysTo 1970

/-- A full hour of a day, in seconds of which those of the day 0 are the first. -/
def instant (d : Date) (hour : Nat) : Nat :=
  86400 * d.number + 3600 * hour

/-- From 2:00 on the second Sunday of March until 1:00 on the first Sunday of November, in
standard time. -/
def Summer (time : Nat) : Prop :=
  ∃ first last : Date, first.year = last.year ∧ (first.month = 2 ∧ first.IsSunday 2) ∧
    (last.month = 10 ∧ last.IsSunday 1) ∧ instant first 2 ≤ time ∧ time < instant last 1

/-- Daylight time applies. -/
def Daylight (daylight : Int) (now : Nat) : Prop :=
  daylight = dateDstOn ∨ daylight = dateDstAuto ∧ Summer (86400 * epoch + now)

/-- How a date is laid out. -/
def layout (weekdayName monthName : List UInt8) (day hour minute second : Nat)
    (zone : List UInt8) (year : Nat) : List UInt8 :=
  weekdayName ++ [code ' ', code ' '] ++ monthName ++ [code ' '] ++
    padded (code ' ') 2 (decimal day) ++ [code ' ', code ' '] ++
    padded (code ' ') 2 (decimal hour) ++ [code ':'] ++
    padded (code '0') 2 (decimal minute) ++ [code ':'] ++
    padded (code '0') 2 (decimal second) ++ [code ' '] ++ zone ++ [code ' '] ++ decimal year

/-- The text for a date and so many seconds of the day. -/
def dateText (d : Date) (s : Nat) (zone : List UInt8) : List UInt8 :=
  layout (dtDnam.getD (weekday d.number) []) (dtMnam.getD d.month []) d.day (s / 3600)
    (s % 3600 / 60) (s % 60) zone d.year

/-- The string is that of the time. -/
def ShowsTime (time : Nat) (zone : List UInt8) (str : Chars) : Prop :=
  ∀ d : Date, d.number = time / 86400 → Spells str (dateText d (time % 86400) zone)

/-- The string is that of the time plus one hour if daylight time applies, and of the time
otherwise. -/
def PrintsRight (daylight : Int) (now : Nat) (str : Chars) : Prop :=
  (Daylight daylight now →
    ShowsTime (86400 * epoch + now + 3600) (['E', 'D', 'T'].map code) str) ∧
  (¬ Daylight daylight now → ShowsTime (86400 * epoch + now) (['E', 'S', 'T'].map code) str)

/-! ## The date of the standard time -/

theorem epoch_eq : epoch = 719528 := by
  have hclosed := daysTo_eq 1970
  unfold epoch
  omega

theorem daysTo_2100 : daysTo 2100 = 767010 := by
  have hclosed := daysTo_eq 2100
  omega

/-- Every fourth year is a leap year, from 1970 to 2099. -/
theorem isleap_iff {year : Nat} (h : 1970 ≤ year) (h' : year < 2100) :
    Isleap year ↔ IsLeap year := by
  unfold Isleap IsLeap
  omega

/-- The days before a year, with the leap years that the code counts. -/
theorem daysTo_recent {year : Nat} (h : 1970 ≤ year) (h' : year < 2100) :
    daysTo year = 365 * year + (year - 1969) / 4 + 478 := by
  have hclosed := daysTo_eq year
  have hfour : (year + 3) / 4 = (year - 1969) / 4 + 493 := by omega
  rcases Nat.lt_or_ge year 2001 with hold | hnew
  · have hhundred : (year + 99) / 100 = 20 := by omega
    have hfourhundred : (year + 399) / 400 = 5 := by omega
    omega
  · have hhundred : (year + 99) / 100 = 21 := by omega
    have hfourhundred : (year + 399) / 400 = 6 := by omega
    omega

theorem yearLoop_spec {year now : Nat} (h : 1970 ≤ year)
    (hnow : 86400 * daysTo year + now < 86400 * 767010) :
    year ≤ (yearLoop year now).1 ∧ (yearLoop year now).1 < 2100 ∧
      86400 * daysTo (yearLoop year now).1 + (yearLoop year now).2 =
        86400 * daysTo year + now ∧
      (yearLoop year now).2 < 86400 * yearLength (yearLoop year now).1 := by
  have hlt : year < 2100 := by
    by_contra hge
    have hmono : daysTo 2100 ≤ daysTo year := daysTo_mono (Nat.le_of_not_lt hge)
    rw [daysTo_2100] at hmono
    omega
  obtain ⟨tmp, htmp⟩ : ∃ tmp, tmp = 86400 * yearLength year := ⟨_, rfl⟩
  have hlength : (if Isleap year then 366 else 365) * secperdy = tmp := by
    simp only [htmp, yearLength, isleap_iff h hlt]
    exact Nat.mul_comm _ 86400
  rw [yearLoop]
  simp only [hlength]
  clear hlength
  by_cases hstop : tmp > now
  · simp only [if_pos hstop]
    exact ⟨Nat.le_refl _, hlt, trivial, htmp ▸ hstop⟩
  · simp only [if_neg hstop]
    have hstep : daysTo (year + 1) = daysTo year + yearLength year := daysTo.eq_2 year
    obtain ⟨hle, hbound, hsum, hrest⟩ :=
      @yearLoop_spec (year + 1) (now - tmp) (by omega) (by omega)
    exact ⟨by omega, hbound, by omega, hrest⟩
termination_by now
decreasing_by
  have hpos : 0 < yearLength year := by
    unfold yearLength
    split_ifs <;> decide
  omega

/-- The table of month lengths has 28 days for February. -/
theorem monthLength_eq {year month : Nat} (h : month < 12) :
    monthLength year month =
      if month = 1 ∧ IsLeap year then dtMsize month + 1 else dtMsize month := by
  interval_cases month <;> simp [monthLength, dtMsize]

theorem monthLoop_spec {year : Nat} (h : 1970 ≤ year) (h' : year < 2100) (left : Nat)
    {month now : Nat} (hleft : left + month = 12)
    (hnow : 86400 * monthStart year month + now < 86400 * yearLength year) :
    (monthLoop year left month now).1 < 12 ∧
      86400 * monthStart year (monthLoop year left month now).1 +
        (monthLoop year left month now).2 = 86400 * monthStart year month + now ∧
      (monthLoop year left month now).2 <
        86400 * monthLength year (monthLoop year left month now).1 := by
  induction left generalizing month now with
  | zero =>
      have hmonth : month = 12 := by omega
      rw [hmonth, monthStart_twelve] at hnow
      omega
  | succ left ih =>
      obtain ⟨tmp, htmp⟩ : ∃ tmp, tmp = 86400 * monthLength year month := ⟨_, rfl⟩
      have hlength : (if month = 1 ∧ Isleap year then dtMsize month * secperdy + secperdy
          else dtMsize month * secperdy) = tmp := by
        rw [htmp, monthLength_eq (by omega)]
        simp only [isleap_iff h h']
        split_ifs
        · rw [Nat.mul_add, Nat.mul_comm]
          rfl
        · exact Nat.mul_comm _ _
      rw [monthLoop]
      simp only [hlength]
      clear hlength
      by_cases hstop : tmp > now
      · simp only [if_pos hstop]
        exact ⟨by omega, trivial, htmp ▸ hstop⟩
      · simp only [if_neg hstop]
        have hstep : monthStart year (month + 1) =
            monthStart year month + monthLength year month := monthStart.eq_2 year month
        obtain ⟨hbound, hsum, hrest⟩ := @ih (month + 1) (now - tmp) (by omega) (by omega)
        exact ⟨hbound, by omega, hrest⟩

/-- The fields of a date and of so many seconds of the day. -/
def Shown.of (d : Date) (s : Nat) : Shown where
  dayofweek := weekday d.number
  month := d.month
  day := d.day
  hour := s / 3600
  minute := s % 3600 / 60
  second := s % 60
  dst := false
  year := d.year

/-- The date and the weekday of the standard time, and the weekday of January 1. -/
theorem standard_date {now : Nat} (h : now < 4102444800) :
    ∃ d : Date, 1970 ≤ d.year ∧ d.year < 2100 ∧ d.number = epoch + now / 86400 ∧
      standard now = (Shown.of d (now % 86400), weekday (daysTo d.year)) := by
  have hepoch := epoch_eq
  have hstart : daysTo 1970 = 719528 := epoch_eq
  obtain ⟨hlow, hhigh, hyear, hrest⟩ := @yearLoop_spec 1970 now (Nat.le_refl _) (by omega)
  generalize hy : yearLoop 1970 now = y at *
  obtain ⟨year, rest⟩ := y
  simp only at hlow hhigh hyear hrest
  obtain ⟨hmonth, hday, hlast⟩ := monthLoop_spec hlow hhigh 12 (Nat.add_zero 12)
    (show 86400 * monthStart year 0 + rest < 86400 * yearLength year by simpa [monthStart])
  generalize hm : monthLoop year 12 0 rest = m at *
  obtain ⟨month, left⟩ := m
  have hfirst : monthStart year 0 = 0 := rfl
  simp only [hfirst] at hmonth hday hlast
  have hclosed := daysTo_recent hlow hhigh
  refine ⟨⟨year, month, left / 86400 + 1, hmonth, Nat.succ_pos _, by omega⟩, hlow, hhigh, ?_, ?_⟩
  · simp only [Date.number, Date.yearDay]
    omega
  · simp only [standard, hy, hm, Shown.of, Date.number, Date.yearDay, weekday, secperdy,
      secperhr, secpermn, Prod.mk.injEq, Shown.mk.injEq, and_true, true_and]
    have hdays : rest / 86400 = monthStart year month + left / 86400 := by omega
    have hleft : left % 86400 = now % 86400 := by omega
    have hshift : 4 + (year - 1970) + (year - 1969) / 4 + 7 * (52 * year + 350) =
        daysTo year + 6 := by omega
    refine ⟨⟨?_, ?_, ?_, ?_⟩, ?_⟩
    · omega
    · omega
    · omega
    · omega
    · omega

/-! ## Daylight time -/

theorem monthStart_march {year : Nat} (h : 1970 ≤ year) (h' : year < 2100) :
    monthStart year 2 = 59 + if Isleap year then 1 else 0 := by
  simp only [monthStart, monthLength, isleap_iff h h']
  split_ifs <;> rfl

theorem monthStart_november {year : Nat} (h : 1970 ≤ year) (h' : year < 2100) :
    monthStart year 10 = 304 + if Isleap year then 1 else 0 := by
  simp only [monthStart, monthLength, isleap_iff h h']
  split_ifs <;> rfl

/-- The code, by the Sundays that it finds. -/
theorem automatic_eq {year month : Nat} (day hour : Nat) (h : 1970 ≤ year) (h' : year < 2100) :
    automatic year month day hour (weekday (daysTo year)) =
      if month = 11 ∨ month = 0 ∨ month = 1 then false
      else if month > 2 ∧ month < 10 then true
      else if month = 2 then
        decide (day > 7 + firstSunday year 2 ∨ day = 7 + firstSunday year 2 ∧ hour ≥ 2)
      else if month = 10 then
        !decide (day > firstSunday year 10 ∨ day = firstSunday year 10 ∧ hour ≥ 1)
      else false := by
  have hmarch := monthStart_march h h'
  have hnovember := monthStart_november h h'
  have hsum : forRange 0 10 (fun i nov1 => nov1 + dtMsize i) (weekday (daysTo year)) =
      weekday (daysTo year) + 304 := rfl
  have hmar1 : (weekday (daysTo year) + dtMsize 0 + dtMsize 1 +
      if Isleap year then 1 else 0) % 7 = weekday (daysTo year + monthStart year 2) := by
    show (weekday (daysTo year) + 31 + 28 + _) % 7 = _
    rw [hmarch]
    unfold weekday
    omega
  have hnov1 : (weekday (daysTo year) + 304 + if Isleap year then 1 else 0) % 7 =
      weekday (daysTo year + monthStart year 10) := by
    rw [hnovember]
    unfold weekday
    omega
  have hmarss : (if weekday (daysTo year + monthStart year 2) = 0 then 8
      else 15 - weekday (daysTo year + monthStart year 2)) = 7 + firstSunday year 2 := by
    unfold firstSunday weekday
    dsimp only
    split_ifs <;> omega
  simp only [automatic, hsum, hmar1, hnov1, hmarss]
  rfl

/-- Between two dates of a year is a time of that year only. -/
theorem summer_iff (d : Date) {s : Nat} (hs : s < 86400) :
    Summer (86400 * d.number + s) ↔
      86400 * (daysTo d.year + monthStart d.year 2 + 6 + firstSunday d.year 2) + 7200 ≤
          86400 * d.number + s ∧
        86400 * d.number + s + 86400 <
          86400 * (daysTo d.year + monthStart d.year 10 + firstSunday d.year 10) + 3600 := by
  constructor
  · rintro ⟨first, last, hyear, ⟨hmarch, hsecond⟩, ⟨hnovember, hfirst⟩, hlow, hhigh⟩
    rw [Date.isSunday_iff] at hsecond hfirst
    unfold instant at hlow hhigh
    have hdays : first.number ≤ d.number ∧ d.number ≤ last.number := by omega
    have hfirstYear : daysTo first.year ≤ first.number := Nat.le_add_right _ _
    have hsame : d.year = first.year := by
      refine eq_of_between daysTo_mono (n := d.number) (Nat.le_add_right _ _) d.number_lt
        (by omega) ?_
      rw [hyear]
      exact Nat.lt_of_le_of_lt hdays.2 last.number_lt
    have hlastYear : last.year = d.year := hyear.symm.trans hsame.symm
    have hn₂ : first.number = daysTo d.year + (monthStart d.year 2 + (first.day - 1)) := by
      rw [Date.number, Date.yearDay, hmarch, hsame]
    have hn₁ : last.number = daysTo d.year + (monthStart d.year 10 + (last.day - 1)) := by
      rw [Date.number, Date.yearDay, hnovember, hlastYear]
    have hpos₂ := first.day_pos
    have hpos₁ := last.day_pos
    rw [hmarch, ← hsame] at hsecond
    rw [hnovember, hlastYear] at hfirst
    omega
  · rintro ⟨hlow, hhigh⟩
    obtain ⟨hpos₂, hle₂⟩ := firstSunday_bounds d.year 2
    obtain ⟨hpos₁, hle₁⟩ := firstSunday_bounds d.year 10
    have hmarch : monthLength d.year 2 = 31 := rfl
    have hnovember : monthLength d.year 10 = 30 := rfl
    refine ⟨⟨d.year, 2, 7 + firstSunday d.year 2, by decide, by omega, by omega⟩,
      ⟨d.year, 10, firstSunday d.year 10, by decide, by omega, by omega⟩, rfl,
      ⟨rfl, ?_⟩, ⟨rfl, ?_⟩, ?_, ?_⟩
    · rw [Date.isSunday_iff]
      show 7 + firstSunday d.year 2 + 7 = 7 * 2 + firstSunday d.year 2
      omega
    · rw [Date.isSunday_iff]
      show firstSunday d.year 10 + 7 = 7 * 1 + firstSunday d.year 10
      omega
    · show 86400 * (daysTo d.year + (monthStart d.year 2 + (7 + firstSunday d.year 2 - 1))) +
        3600 * 2 ≤ 86400 * d.number + s
      omega
    · show 86400 * d.number + s <
        86400 * (daysTo d.year + (monthStart d.year 10 + (firstSunday d.year 10 - 1))) + 3600 * 1
      omega

/-- The code applies daylight time by itself in summer only. -/
theorem automatic_iff (d : Date) (h : 1970 ≤ d.year) (h' : d.year < 2100) {s : Nat}
    (hs : s < 86400) :
    automatic d.year d.month d.day (s / 3600) (weekday (daysTo d.year)) = true ↔
      Summer (86400 * d.number + s) := by
  have hpos := d.day_pos
  have hmonth := d.month_lt
  have hend : d.yearDay < monthStart d.year (d.month + 1) := d.yearDay_lt
  have hday : d.yearDay = monthStart d.year d.month + (d.day - 1) := rfl
  obtain ⟨hpos₂, hle₂⟩ := firstSunday_bounds d.year 2
  obtain ⟨hpos₁, hle₁⟩ := firstSunday_bounds d.year 10
  have hthree : monthStart d.year 3 = monthStart d.year 2 + 31 := rfl
  have heleven : monthStart d.year 11 = monthStart d.year 10 + 30 := rfl
  have hten : monthStart d.year 3 ≤ monthStart d.year 10 := monthStart_mono d.year (by decide)
  rw [automatic_eq d.day (s / 3600) h h', summer_iff d hs, Date.number]
  split_ifs with hwinter hsummer hmarch hnovember
  · -- December, January, February
    have hout : d.month = 11 ∨ d.month + 1 ≤ 2 := by omega
    rcases hout with hdecember | hearly
    · rw [hdecember] at hday
      simp only [false_iff]
      omega
    · have hle : monthStart d.year (d.month + 1) ≤ monthStart d.year 2 :=
        monthStart_mono d.year hearly
      simp only [false_iff]
      omega
  · have hlow : monthStart d.year 3 ≤ monthStart d.year d.month :=
      monthStart_mono d.year hsummer.1
    have hhigh : monthStart d.year (d.month + 1) ≤ monthStart d.year 10 :=
      monthStart_mono d.year hsummer.2
    simp only [true_iff]
    omega
  · rw [hmarch] at hday hend
    have hbefore : d.yearDay < monthStart d.year 3 := hend
    rw [decide_eq_true_iff]
    omega
  · rw [hnovember] at hday
    rw [Bool.not_eq_true', decide_eq_false_iff_not]
    omega
  · omega

/-! ## The string -/

/-- All names have three letters, none of which is null. -/
theorem name_length : ∀ s ∈ dtMnam ++ dtDnam ++ zones ++ dzones, s.length = 3 ∧ 0 ∉ s := by
  decide

theorem getD_mem {l : List (List UInt8)} {i : Nat} (hi : i < l.length) : l.getD i [] ∈ l := by
  rw [List.getD_eq_getElem l [] hi]
  exact List.getElem_mem hi

theorem padded_name {s : List UInt8} (h : s.length = 3) : padded (code ' ') 3 s = s := by
  rw [padded, h]
  rfl

/-- The zone that is printed. -/
def Shown.zone (t : Shown) : List UInt8 :=
  if t.dst then dzones.getD (timezone - 5) [] else zones.getD (timezone - 5) []

/-- The values that `ascdate` prints are in the tables and not too large. -/
structure Shown.Fits (t : Shown) : Prop where
  dayofweek : t.dayofweek < 7
  month : t.month < 13
  day : t.day < 0x80000000
  hour : t.hour < 0x80000000
  minute : t.minute < 0x80000000
  second : t.second < 0x80000000
  year : t.year < 0x80000000

section

variable {lit : Literals} {string : List UInt8} {t : Shown}

theorem Shown.names (h : t.Fits) :
    dtDnam.getD t.dayofweek [] ∈ dtMnam ++ dtDnam ++ zones ++ dzones ∧
    (dtMnam ++ dtDnam).getD t.month [] ∈ dtMnam ++ dtDnam ++ zones ++ dzones ∧
    t.zone ∈ dtMnam ++ dtDnam ++ zones ++ dzones := by
  have hdayofweek := h.dayofweek
  have hmonth := h.month
  have hweekday : dtDnam.getD t.dayofweek [] ∈ dtDnam := getD_mem hdayofweek
  have hname : (dtMnam ++ dtDnam).getD t.month [] ∈ dtMnam ++ dtDnam :=
    getD_mem (Nat.lt_of_lt_of_le hmonth (by decide))
  refine ⟨?_, ?_, ?_⟩
  · exact List.mem_append_left _ (List.mem_append_left _ (List.mem_append_right _ hweekday))
  · exact List.mem_append_left _ (List.mem_append_left _ hname)
  · unfold Shown.zone
    split <;> decide

/-- What the format prints. -/
theorem fdoprnt_date (h : t.Fits) :
    fdoprnt lit.deref dateFormat (t.args lit) string =
      layout (dtDnam.getD t.dayofweek []) ((dtMnam ++ dtDnam).getD t.month []) t.day t.hour
        t.minute t.second t.zone t.year := by
  obtain ⟨hweekday, hmonth, hzone⟩ := Shown.names h
  obtain ⟨hweekday₀, hweekday₁⟩ := lit.stored _ hweekday
  obtain ⟨hmonth₀, hmonth₁⟩ := lit.stored _ hmonth
  obtain ⟨hzone₀, hzone₁⟩ := lit.stored _ hzone
  have hnum : ∀ n : Nat, n < 0x80000000 → (BitVec.ofNat 32 n).toNat = n := by
    intro n hn
    rw [BitVec.toNat_ofNat, Nat.mod_eq_of_lt (by omega)]
  have hthree : clip (digitWord (code '3')) = (3 : Nat) := by decide
  have htwo : clip (digitWord (code '2')) = (2 : Nat) := by decide
  have hecho : code ' ' ≠ code '%' ∧ code ':' ≠ code '%' := by decide
  have hday : ((t.args lit).rest.rest 0).toNat = t.day := hnum t.day h.day
  have hhour : ((t.args lit).rest.rest.rest 0).toNat = t.hour := hnum t.hour h.hour
  have hminute : ((t.args lit).rest.rest.rest.rest 0).toNat = t.minute :=
    hnum t.minute h.minute
  have hsecond : ((t.args lit).rest.rest.rest.rest.rest 0).toNat = t.second :=
    hnum t.second h.second
  have hyear : ((t.args lit).rest.rest.rest.rest.rest.rest.rest 0).toNat = t.year :=
    hnum t.year h.year
  have hfirst : lit.deref (t.args lit 0) = dtDnam.getD t.dayofweek [] := hweekday₁
  have hnext : lit.deref ((t.args lit).rest 0) = (dtMnam ++ dtDnam).getD t.month [] := hmonth₁
  have hlast : lit.deref ((t.args lit).rest.rest.rest.rest.rest.rest 0) = t.zone := hzone₁
  simp only [dateFormat, List.map_cons, List.map_nil]
  rw [fdoprnt_string_width (by decide) (by decide) hthree (by decide) hweekday₀,
    fdoprnt_echo hecho.1, fdoprnt_echo hecho.1,
    fdoprnt_string_width (by decide) (by decide) hthree (by decide) hmonth₀,
    fdoprnt_echo hecho.1,
    fdoprnt_decimal_width (by decide) (by decide) htwo (by decide) (by rw [hday]; exact h.day),
    fdoprnt_echo hecho.1, fdoprnt_echo hecho.1,
    fdoprnt_decimal_width (by decide) (by decide) htwo (by decide) (by rw [hhour]; exact h.hour),
    fdoprnt_echo hecho.2,
    fdoprnt_decimal_zeros (by decide) htwo (by decide) (by rw [hminute]; exact h.minute),
    fdoprnt_echo hecho.2,
    fdoprnt_decimal_zeros (by decide) htwo (by decide) (by rw [hsecond]; exact h.second),
    fdoprnt_echo hecho.1, fdoprnt_string hzone₀, fdoprnt_echo hecho.1,
    fdoprnt_decimal (by rw [hyear]; exact h.year), fdoprnt_nil]
  rw [hfirst, hnext, hlast, hday, hhour, hminute, hsecond, hyear,
    padded_name (name_length _ hweekday).1, padded_name (name_length _ hmonth).1]
  simp [layout]

theorem zero_notMem_padded {fill : UInt8} (hfill : fill ≠ 0) (n : Nat) :
    0 ∉ padded fill 2 (decimal n) := by
  intro hmem
  rcases List.mem_append.mp hmem with hmem | hmem
  · exact hfill (List.eq_of_mem_replicate hmem).symm
  · exact (isDigit_of_mem_decimal hmem).ne_zero rfl

/-- The text has no null character. -/
theorem zero_notMem_layout {w m zone : List UInt8} (hw : 0 ∉ w) (hm : 0 ∉ m) (hzone : 0 ∉ zone)
    (day hour minute second year : Nat) :
    0 ∉ layout w m day hour minute second zone year := by
  have hdecimal : 0 ∉ decimal year := fun hmem => (isDigit_of_mem_decimal hmem).ne_zero rfl
  have hblank : (0 : UInt8) ≠ code ' ' ∧ (0 : UInt8) ≠ code ':' := by decide
  have hfill : code ' ' ≠ 0 ∧ code '0' ≠ 0 := by decide
  have hday := zero_notMem_padded hfill.1 day
  have hhour := zero_notMem_padded hfill.1 hour
  have hminute := zero_notMem_padded hfill.2 minute
  have hsecond := zero_notMem_padded hfill.2 second
  simp only [layout, List.mem_append, List.mem_cons, List.not_mem_nil, not_or, or_false]
  exact ⟨⟨⟨⟨⟨⟨⟨⟨⟨⟨⟨⟨⟨⟨hw, hblank.1, hblank.1⟩, hm⟩, hblank.1⟩, hday⟩, hblank.1, hblank.1⟩, hhour⟩,
    hblank.2⟩, hminute⟩, hblank.2⟩, hsecond⟩, hblank.1⟩, hzone⟩, hblank.1⟩, hdecimal⟩

/-- The string is that of the values which are printed. -/
theorem spells_ascdate {daylight : Int} {now : Nat} {str : Chars} (ht : breakDown daylight now = t)
    (h : t.Fits) :
    Spells (ascdate lit daylight string now str).2
      (layout (dtDnam.getD t.dayofweek []) ((dtMnam ++ dtDnam).getD t.month []) t.day t.hour
        t.minute t.second t.zone t.year) := by
  obtain ⟨hweekday, hmonth, hzone⟩ := Shown.names h
  have htext : fdoprnt lit.deref dateFormat (t.args lit) string = _ := fdoprnt_date h
  rw [ascdate, ht, ← htext]
  refine spells_sprintf ?_
  rw [htext]
  exact zero_notMem_layout (name_length _ hweekday).2 (name_length _ hmonth).2
    (name_length _ hzone).2 _ _ _ _ _

end

/-- What is printed is the standard time, or one hour more while daylight time applies. -/
theorem breakDown_eq (daylight : Int) {now : Nat} (h : now < 4102444800) :
    ∃ d : Date, d.year < 2100 ∧ d.number = epoch + now / 86400 ∧
      (Daylight daylight now →
        breakDown daylight now = { (Shown.of d (now % 86400)).ahead with dst := true }) ∧
      (¬ Daylight daylight now → breakDown daylight now = Shown.of d (now % 86400)) := by
  obtain ⟨d, hlow, hhigh, hnumber, hstandard⟩ := standard_date h
  have hs : now % 86400 < 86400 := Nat.mod_lt now (by decide)
  have htime : 86400 * d.number + now % 86400 = 86400 * epoch + now := by omega
  have hauto := automatic_iff d hlow hhigh hs
  rw [htime] at hauto
  have hdst : (if daylight = dateDstOn then true
      else if daylight = dateDstAuto then
        automatic d.year d.month d.day (now % 86400 / 3600) (weekday (daysTo d.year))
      else false) = true ↔ Daylight daylight now := by
    unfold Daylight
    split_ifs with hon hautomatic
    · simp [hon]
    · simp only [hautomatic, hauto, true_and]
      exact ⟨Or.inr, fun hyes => hyes.resolve_left (by decide)⟩
    · simp [hon, hautomatic]
  refine ⟨d, hhigh, hnumber, fun hday => ?_, fun hday => ?_⟩
  · simp only [breakDown, hstandard]
    exact if_pos (hdst.mpr hday)
  · simp only [breakDown, hstandard]
    exact if_neg fun hyes => hday (hdst.mp hyes)

theorem monthLength_le (year month : Nat) : monthLength year month ≤ 31 := by
  unfold monthLength
  split <;> (try split_ifs) <;> decide

theorem Shown.fits_of (d : Date) (h : d.year < 2100) {s : Nat} (hs : s < 86400) :
    (Shown.of d s).Fits := by
  have hle := Nat.le_trans d.day_le (monthLength_le d.year d.month)
  have hmonth := d.month_lt
  constructor <;> simp only [Shown.of, weekday] <;> omega

theorem Shown.fits_ahead (d : Date) (h : d.year < 2100) {s : Nat} (hs : s < 86400) :
    ({ (Shown.of d s).ahead with dst := true } : Shown).Fits := by
  obtain ⟨hweekday, -, hday, hhour, hminute, hsecond, hyear⟩ := Shown.fits_of d h hs
  have hle := Nat.le_trans d.day_le (monthLength_le d.year d.month)
  have hmonth : (Shown.of d s).month < 12 := d.month_lt
  have hsmall : (Shown.of d s).day ≤ 31 := hle
  unfold Shown.ahead
  split_ifs <;> constructor <;> dsimp only <;> omega

theorem Shown.ahead_dayofweek (t : Shown) : t.ahead.dayofweek = t.dayofweek := by
  unfold Shown.ahead
  split_ifs <;> rfl

theorem Shown.ahead_of_hour {t : Shown} (h : t.hour + 1 ≤ 23) :
    t.ahead = { t with hour := t.hour + 1 } :=
  if_neg (Nat.not_lt.mpr h)

/-- The weekday comes first. -/
theorem take_layout {w m zone : List UInt8} (hw : w.length = 3)
    {day hour minute second year : Nat} :
    (layout w m day hour minute second zone year).take 3 = w := by
  simp only [layout, List.append_assoc]
  rw [← hw, List.take_left]

theorem weekday_name (n : Nat) :
    dtDnam.getD (weekday n) [] ∈ dtMnam ++ dtDnam ++ zones ++ dzones := by
  have hlt : weekday n < 7 := Nat.mod_lt _ (by decide)
  generalize weekday n = w at hlt
  decide +revert

theorem weekday_succ_name (n : Nat) :
    dtDnam.getD (weekday n) [] ≠ dtDnam.getD (weekday (n + 1)) [] := by
  have hsucc : weekday (n + 1) = (weekday n + 1) % 7 := by
    unfold weekday
    omega
  have hlt : weekday n < 7 := Nat.mod_lt _ (by decide)
  rw [hsucc]
  generalize weekday n = w at hlt
  decide +revert

/-- In the last hour of a day of standard time the date is that of the next day when daylight
time applies, the weekday is not. -/
theorem not_printsRight {lit : Literals} {daylight : Int} {string : List UInt8} {now : Nat}
    {str : Chars} (h : now < 4102444800) (hday : Daylight daylight now)
    (hlast : now % 86400 / 3600 = 23) :
    ¬ PrintsRight daylight now (ascdate lit daylight string now str).2 := by
  intro hright
  obtain ⟨d, hyear, hnumber, hahead, -⟩ := breakDown_eq daylight h
  have hfits : ({ (Shown.of d (now % 86400)).ahead with dst := true } : Shown).Fits :=
    Shown.fits_ahead d hyear (Nat.mod_lt now (by decide))
  have hspells : Spells (ascdate lit daylight string now str).2 _ :=
    spells_ascdate (hahead hday) hfits
  have hnext : d.next.number = (86400 * epoch + now + 3600) / 86400 := by
    rw [Date.number_next]
    omega
  have hsame := hspells.unique (hright.1 hday d.next hnext)
  have hnames := congrArg (List.take 3) hsame
  rw [dateText, take_layout (name_length _ (Shown.names hfits).1).1,
    take_layout (name_length _ (weekday_name d.next.number)).1, Shown.ahead_dayofweek,
    Date.number_next] at hnames
  exact weekday_succ_name d.number hnames

/-- From 1970 to 2099 the string is right unless daylight time applies in the last hour of a
day of standard time. -/
theorem ascdate_iff (lit : Literals) (daylight : Int) (string : List UInt8) (now : Nat)
    (str : Chars) (h : now < 4102444800) :
    PrintsRight daylight now (ascdate lit daylight string now str).2 ↔
      ¬ (Daylight daylight now ∧ now % 86400 / 3600 = 23) := by
  refine ⟨fun hright hboth => not_printsRight h hboth.1 hboth.2 hright, fun hnot => ?_⟩
  obtain ⟨d, hyear, hnumber, hahead, hstandard⟩ := breakDown_eq daylight h
  have hs : now % 86400 < 86400 := Nat.mod_lt now (by decide)
  have hmonth : (dtMnam ++ dtDnam).getD d.month [] = dtMnam.getD d.month [] :=
    List.getD_append _ _ _ _ d.month_lt
  constructor
  · intro hday e he
    have hhour : now % 86400 / 3600 + 1 ≤ 23 := by
      have hlast : ¬ now % 86400 / 3600 = 23 := fun hlast => hnot ⟨hday, hlast⟩
      omega
    have hspells : Spells (ascdate lit daylight string now str).2 _ :=
      spells_ascdate (hahead hday) (Shown.fits_ahead d hyear hs)
    rw [Shown.ahead_of_hour hhour] at hspells
    have hsame : e = d := Date.eq_of_number (by omega)
    have htime : (86400 * epoch + now + 3600) % 86400 = now % 86400 + 3600 := by omega
    have hhours : (now % 86400 + 3600) / 3600 = now % 86400 / 3600 + 1 := by omega
    have hminute : (now % 86400 + 3600) % 3600 = now % 86400 % 3600 := by omega
    have hsecond : (now % 86400 + 3600) % 60 = now % 86400 % 60 := by omega
    rw [hsame, htime, dateText, hhours, hminute, hsecond, ← hmonth]
    exact hspells
  · intro hday e he
    have hspells : Spells (ascdate lit daylight string now str).2 _ :=
      spells_ascdate (hstandard hday) (Shown.fits_of d hyear hs)
    have hsame : e = d := Date.eq_of_number (by omega)
    have htime : (86400 * epoch + now) % 86400 = now % 86400 := by omega
    rw [hsame, htime, dateText, ← hmonth]
    exact hspells

/-- The literals one after another, at addresses from 1 on. -/
def rowOfLiterals : Literals where
  address s := BitVec.ofNat 32 ((dtMnam ++ dtDnam ++ zones ++ dzones).idxOf s + 1)
  deref a := (dtMnam ++ dtDnam ++ zones ++ dzones).getD (a.toNat - 1) []
  stored := by decide

/-- The first second of 1970. -/
theorem ascdate_iff_first :
    PrintsRight 0 0 (ascdate rowOfLiterals 0 [] 0 fun _ => 0).2 := by
  refine (ascdate_iff rowOfLiterals 0 [] 0 (fun _ => 0) (by decide)).mpr fun hboth => ?_
  exact absurd hboth.2 (by decide)

/-- January 1, 1970, 23:00, when daylight time is on: the string has January 2, a Thursday. -/
theorem weekday_stays : ¬ ∀ (lit : Literals) (daylight : Int) (string : List UInt8) (now : Nat)
    (str : Chars), now < 4102444800 →
      PrintsRight daylight now (ascdate lit daylight string now str).2 := by
  intro hclaim
  exact not_printsRight (by decide) (Or.inl rfl) (by decide)
    (hclaim rowOfLiterals dateDstOn [] 82800 (fun _ => 0) (by decide))

end Lib
end Xinu
