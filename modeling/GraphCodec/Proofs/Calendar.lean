import GraphCodec.Instant.Calendar
import Mathlib

/-!
# Days and dates

The date with a given day number exists and has that day number again (`exists_date`,
`dayNumber_date`). Both rest on one fact about the way in which `Calendar.date` takes a day number
apart: every part lies in its range, the parts add up, and a year has a 366th day only where the
calendar gives it one (`Split`).
-/

namespace GraphCodec

namespace Calendar

/-- A count of days from 1 March of year 0, taken apart into cycles of 400, 100, 4 and 1 years and
the day within the year. -/
structure Split (n cycle : Int) (century quad single inYear : Nat) : Prop where
  century_le : century ≤ 3
  quad_le : quad ≤ 24
  single_le : single ≤ 3
  inYear_le : inYear ≤ 365
  /-- Only the last of four years has a 366th day, and the last of a hundred only at the end of a
  cycle. -/
  leap : inYear = 365 → single = 3 ∧ (quad = 24 → century = 3)
  sum_eq : n = 146097 * cycle + 36524 * century + 1461 * quad + 365 * single + inYear

/-- The date of the parts. The months of a year that begins in March are as long as the multiples
of 30.6 days are apart. -/
def dateOfParts (cycle : Int) (century quad single inYear : Nat) : Date :=
  let month := (5 * inYear + 2) / 153
  let year := 400 * cycle + (100 * century + 4 * quad + single : Nat)
  { year := if month < 10 then year else year + 1
    month := if month < 10 then month + 3 else month - 9
    day := inYear - (153 * month + 2) / 5 + 1 }

/-- A date is the date of the parts of its day number. -/
theorem exists_split (n : Int) :
    ∃ cycle century quad single inYear,
      Split (n - marchZero) cycle century quad single inYear ∧
        date n = dateOfParts cycle century quad single inYear := by
  set m := n - marchZero with hm
  set inCycle := (m % 146097).toNat with hinCycle
  set century := min (inCycle / 36524) 3 with hcentury
  set inCentury := inCycle - century * 36524 with hinCentury
  set quad := inCentury / 1461 with hquad
  set inQuad := inCentury - quad * 1461 with hinQuad
  set single := min (inQuad / 365) 3 with hsingle
  set inYear := inQuad - single * 365 with hinYear
  have hcycleSum : m = 146097 * (m / 146097) + (inCycle : Int) ∧ inCycle < 146097 := by
    omega
  have hcenturySum : century ≤ 3 ∧ inCycle = century * 36524 + inCentury ∧
      inCentury ≤ 36524 ∧ (inCentury = 36524 → century = 3) := by
    omega
  have hquadSum : quad ≤ 24 ∧ inCentury = quad * 1461 + inQuad ∧ inQuad ≤ 1460 := by
    omega
  have hsingleSum : single ≤ 3 ∧ inQuad = single * 365 + inYear ∧ inYear ≤ 365 ∧
      (inYear = 365 → single = 3) := by
    omega
  refine ⟨m / 146097, century, quad, single, inYear, ⟨hcenturySum.1, hquadSum.1, hsingleSum.1,
    hsingleSum.2.2.1, fun h ↦ ⟨hsingleSum.2.2.2 h, fun hq ↦ hcenturySum.2.2.2 ?_⟩, by omega⟩, rfl⟩
  have hthree := hsingleSum.2.2.2 h
  omega

/-- **A date has the day number that it was found by.** -/
theorem dayNumber_date (n : Int) : dayNumber (date n) = n := by
  obtain ⟨cycle, century, quad, single, inYear, hsplit, hdate⟩ := exists_split n
  obtain ⟨hcentury, hquad, hsingle, hinYear, -, hsum⟩ := hsplit
  rw [hdate, dateOfParts, dayNumber]
  have hmonth : (5 * inYear + 2) / 153 ≤ 11 := by omega
  have hday : (153 * ((5 * inYear + 2) / 153) + 2) / 5 ≤ inYear := by omega
  generalize (5 * inYear + 2) / 153 = month at *
  -- counting from January and back to March gives the same year and month
  have hback : (if (if month < 10 then month + 3 else month - 9) ≤ 2 then
      (if month < 10 then 400 * cycle + (100 * century + 4 * quad + single : Nat)
        else 400 * cycle + (100 * century + 4 * quad + single : Nat) + 1) - 1
      else if month < 10 then 400 * cycle + (100 * century + 4 * quad + single : Nat)
        else 400 * cycle + (100 * century + 4 * quad + single : Nat) + 1) =
      400 * cycle + (100 * century + 4 * quad + single : Nat) := by
    split_ifs <;> omega
  have hmarch : ((if month < 10 then month + 3 else month - 9) + 9) % 12 = month := by
    split_ifs <;> omega
  simp only [hback, hmarch]
  generalize (153 * month + 2) / 5 = before at *
  have hfour : (400 * cycle + (100 * century + 4 * quad + single : Nat)) / 4 =
      100 * cycle + 25 * century + quad := by omega
  have hhundred : (400 * cycle + (100 * century + 4 * quad + single : Nat)) / 100 =
      4 * cycle + century := by omega
  have hcycle : (400 * cycle + (100 * century + 4 * quad + single : Nat)) / 400 = cycle := by
    omega
  rw [hfour, hhundred, hcycle]
  omega

/-- Leap years by the usual rule. -/
theorem isLeapYear_iff {year : Int} :
    isLeapYear year = true ↔ year % 4 = 0 ∧ (year % 100 ≠ 0 ∨ year % 400 = 0) := by
  unfold isLeapYear
  rw [decide_eq_true_iff]

/-- **The date of a day exists.** -/
theorem exists_date (n : Int) : (date n).exists? = true := by
  obtain ⟨cycle, century, quad, single, inYear, hsplit, hdate⟩ := exists_split n
  obtain ⟨hcentury, hquad, hsingle, hinYear, hleap, -⟩ := hsplit
  rw [hdate, dateOfParts, Date.exists?, decide_eq_true_iff]
  -- the 366th day is 29 February of a leap year
  have hfeb : inYear = 365 →
      isLeapYear (400 * cycle + (100 * century + 4 * quad + single : Nat) + 1) = true := by
    intro h
    obtain ⟨hthree, hlast⟩ := hleap h
    rw [isLeapYear_iff]
    omega
  generalize 400 * cycle + (100 * century + 4 * quad + single : Nat) = year at *
  have hmonth : (5 * inYear + 2) / 153 ≤ 11 := by omega
  obtain ⟨month, hm⟩ : ∃ month, month = (5 * inYear + 2) / 153 := ⟨_, rfl⟩
  rw [← hm] at hmonth ⊢
  by_cases hlong : inYear = 365
  · have hlast : month = 11 := by omega
    have hyear := hfeb hlong
    subst hlast hlong
    simp [daysInMonth, hyear]
  · have hshort : 28 ≤ if isLeapYear (year + 1) = true then 29 else 28 := by
      split_ifs <;> omega
    interval_cases month <;> simp [daysInMonth] <;> omega

end Calendar

end GraphCodec
