/-!
# The proleptic Gregorian calendar

Days are numbered from 1970-01-01. A date is found by cutting the day number into cycles of 400,
100, 4 and 1 years that begin in March, so that the leap day is the last of its year and every
step is one division; `Calendar.dayNumber` adds the same parts up again.
-/

namespace GraphCodec

namespace Calendar

/-- A date of the calendar. -/
structure Date where
  year : Int
  /-- From 1 for January to 12 for December. -/
  month : Nat
  day : Nat
  deriving DecidableEq, Repr

/-- Whether a year has a 29 February. -/
def isLeapYear (year : Int) : Bool :=
  year % 4 = 0 ∧ (year % 100 ≠ 0 ∨ year % 400 = 0)

/-- The number of days of a month. -/
def daysInMonth (year : Int) (month : Nat) : Nat :=
  if month = 2 then (if isLeapYear year then 29 else 28)
  else if month = 4 ∨ month = 6 ∨ month = 9 ∨ month = 11 then 30
  else 31

/-- Whether a date exists. -/
def Date.exists? (d : Date) : Bool :=
  1 ≤ d.month ∧ d.month ≤ 12 ∧ 1 ≤ d.day ∧ d.day ≤ daysInMonth d.year d.month

/-- The day number of 1 March of year 0. -/
def marchZero : Int := -719468

/-- The day number of a date. Years are counted from March, months from 0 for March. -/
def dayNumber (d : Date) : Int :=
  let year := if d.month ≤ 2 then d.year - 1 else d.year
  let month := (d.month + 9) % 12
  marchZero + 365 * year + year / 4 - year / 100 + year / 400 +
    ((153 * month + 2) / 5 : Nat) + ((d.day : Int) - 1)

/-- The date with a given day number. -/
def date (dayNumber : Int) : Date :=
  let n := dayNumber - marchZero
  let cycle := n / 146097
  let inCycle := (n % 146097).toNat
  let century := min (inCycle / 36524) 3
  let inCentury := inCycle - century * 36524
  let quad := inCentury / 1461
  let inQuad := inCentury - quad * 1461
  let single := min (inQuad / 365) 3
  let inYear := inQuad - single * 365
  let month := (5 * inYear + 2) / 153
  let year := 400 * cycle + (100 * century + 4 * quad + single : Nat)
  { year := if month < 10 then year else year + 1
    month := if month < 10 then month + 3 else month - 9
    day := inYear - (153 * month + 2) / 5 + 1 }

/-- The day of the week, from 0 for Sunday. -/
def weekday (dayNumber : Int) : Nat :=
  ((dayNumber + 4) % 7).toNat

/-- Three-letter names of the days of the week, from Sunday. -/
def weekdayNames : List String :=
  ["Sun", "Mon", "Tue", "Wed", "Thu", "Fri", "Sat"]

/-- Three-letter names of the months, from January. -/
def monthNames : List String :=
  ["Jan", "Feb", "Mar", "Apr", "May", "Jun", "Jul", "Aug", "Sep", "Oct", "Nov", "Dec"]

end Calendar

end GraphCodec
