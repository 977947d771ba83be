/-!
# Instants

An instant is a calendar date and a time of day at the prime meridian, to the nanosecond. A minute
may have a second 60, which follows its second 59. Dates are those of the Gregorian calendar,
extended to all years.
-/

namespace ReactiveReach

/-- Whether February has a twenty-ninth day. -/
def isLeapYear (year : Int) : Bool := year % 4 = 0 && (year % 100 ≠ 0 || year % 400 = 0)

/-- The number of days of a month, counted from January as 1. -/
def daysIn (year : Int) (month : Nat) : Nat :=
  if month = 2 then (if isLeapYear year then 29 else 28)
  else if month = 4 ∨ month = 6 ∨ month = 9 ∨ month = 11 then 30
  else 31

theorem daysIn_pos (year : Int) (month : Nat) : 1 ≤ daysIn year month := by
  unfold daysIn
  repeat' split
  all_goals omega

structure Date where
  year : Int
  month : Nat
  day : Nat
  month_valid : 1 ≤ month ∧ month ≤ 12
  day_valid : 1 ≤ day ∧ day ≤ daysIn year month
  deriving DecidableEq

namespace Date

/-- The day of a year, month and day that exist. -/
def ofParts? (year : Int) (month day : Nat) : Option Date :=
  if h : (1 ≤ month ∧ month ≤ 12) ∧ 1 ≤ day ∧ day ≤ daysIn year month then
    some ⟨year, month, day, h.1, h.2⟩
  else none

def next (date : Date) : Date :=
  if h : date.day < daysIn date.year date.month then
    ⟨date.year, date.month, date.day + 1, date.month_valid, by omega, h⟩
  else if h : date.month < 12 then
    ⟨date.year, date.month + 1, 1, by omega, by omega, daysIn_pos _ _⟩
  else ⟨date.year + 1, 1, 1, by omega, by omega, daysIn_pos _ _⟩

def previous (date : Date) : Date :=
  if h : 1 < date.day then
    ⟨date.year, date.month, date.day - 1, date.month_valid, by omega, by
      have := date.day_valid; omega⟩
  else if h : 1 < date.month then
    ⟨date.year, date.month - 1, daysIn date.year (date.month - 1), by
      have := date.month_valid; omega, daysIn_pos _ _, by omega⟩
  else ⟨date.year - 1, 12, 31, by omega, by simp [daysIn]⟩

end Date

structure TimeOfDay where
  hour : Nat
  minute : Nat
  second : Nat
  nanosecond : Nat
  hour_lt : hour < 24
  minute_lt : minute < 60
  second_le : second ≤ 60
  nanosecond_lt : nanosecond < 1000000000
  deriving DecidableEq

namespace TimeOfDay

/-- The time of an hour, minute, second and nanosecond that exist. -/
def ofParts? (hour minute second nanosecond : Nat) : Option TimeOfDay :=
  if h : (hour < 24 ∧ minute < 60) ∧ second ≤ 60 ∧ nanosecond < 1000000000 then
    some ⟨hour, minute, second, nanosecond, h.1.1, h.1.2, h.2.1, h.2.2⟩
  else none

end TimeOfDay

/-- A date and a time of day at the prime meridian. -/
structure Instant where
  date : Date
  time : TimeOfDay
  deriving DecidableEq

namespace Instant

/-- The instant at which clocks `ahead` minutes east of the prime meridian show a date and time.
An offset is less than a day, so the date changes by one day at most. -/
def ofLocal (date : Date) (time : TimeOfDay) (ahead : Int) : Instant :=
  let minutes : Int := 60 * time.hour + time.minute - ahead
  let date := if minutes < 0 then date.previous else if 1440 ≤ minutes then date.next else date
  let minuteOfDay := (minutes % 1440).toNat
  ⟨date, {
    hour := minuteOfDay / 60
    minute := minuteOfDay % 60
    second := time.second
    nanosecond := time.nanosecond
    hour_lt := by omega
    minute_lt := by omega
    second_le := time.second_le
    nanosecond_lt := time.nanosecond_lt }⟩

end Instant
end ReactiveReach
