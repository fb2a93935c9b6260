import GraphCodec.Instant.Calendar
import GraphCodec.Number.Digits

/-!
# Instants

An instant is a count of seconds since the beginning of 1970 in UTC together with the nanoseconds
into that second. A leap second has no number of its own: it is the second half of a second 59
that lasts two seconds, so its nanoseconds run from `10 ^ 9` on. The type admits nothing else.
-/

namespace GraphCodec

/-- A point of time in UTC, to the nanosecond. -/
structure Instant where
  /-- Whole seconds since 1970-01-01T00:00:00Z. -/
  seconds : Int
  /-- Nanoseconds into that second; from `10 ^ 9` on they lie in a leap second. -/
  nanos : Nat
  nanos_lt : nanos < 2000000000
  /-- Only the last second of a minute is followed by a leap second. -/
  leap_at_59 : 1000000000 ≤ nanos → seconds % 60 = 59
  deriving DecidableEq

namespace Instant

/-- The instant with the given parts, if there is one. -/
def ofParts? (seconds : Int) (nanos : Nat) : Option Instant :=
  if h : nanos < 2000000000 ∧ (1000000000 ≤ nanos → seconds % 60 = 59) then
    some ⟨seconds, nanos, h.1, h.2⟩
  else none

/-- The instant of a local time of day that is `offset` minutes ahead of UTC. Second 60 is a leap
second. -/
def ofLocal (day : Int) (hour minute second fraction : Nat) (offset : Int) : Instant :=
  let minutes := (day * 24 + hour) * 60 + minute - offset
  if h : second = 60 then
    { seconds := minutes * 60 + 59
      nanos := 1000000000 + fraction % 1000000000
      nanos_lt := by omega
      leap_at_59 := by omega }
  else
    { seconds := minutes * 60 + second
      nanos := fraction % 1000000000
      nanos_lt := by omega
      leap_at_59 := by omega }

/-- The number of the UTC day. -/
def day (i : Instant) : Int :=
  i.seconds / 86400

/-- The second of the UTC day, from 0. -/
def secondOfDay (i : Instant) : Nat :=
  (i.seconds % 86400).toNat

/-- The UTC date. -/
def date (i : Instant) : Calendar.Date :=
  Calendar.date i.day

/-- Hours on the UTC clock. -/
def hour (i : Instant) : Nat :=
  i.secondOfDay / 3600

/-- Minutes on the UTC clock. -/
def minute (i : Instant) : Nat :=
  i.secondOfDay / 60 % 60

/-- Seconds on the UTC clock, 60 in a leap second. -/
def second (i : Instant) : Nat :=
  i.secondOfDay % 60 + i.nanos / 1000000000

/-- Nanoseconds into the second that the clock shows. -/
def fraction (i : Instant) : Nat :=
  i.nanos % 1000000000

/-- A year as it is shown: four digits from 0 to 9999, else with a sign. -/
def yearText (year : Int) : List Char :=
  if 0 ≤ year ∧ year ≤ 9999 then Digits.fixed 4 year.toNat
  else (if year < 0 then '-' else '+') :: Digits.atLeast 4 year.natAbs

/-- The time of day as `hh:mm:ss`. -/
def clockText (i : Instant) : List Char :=
  Digits.fixed 2 i.hour ++ ':' :: Digits.fixed 2 i.minute ++ ':' :: Digits.fixed 2 i.second

/-- The instant in the fixed-column style of a time stamp, such as `Fri Mar  1 12:00:00 2024`. -/
def stamp (i : Instant) : String :=
  let d := i.date
  let dayOfMonth := (if d.day < 10 then [' '] else []) ++ Nat.toDigits 10 d.day
  String.ofList <|
    ((Calendar.weekdayNames[Calendar.weekday i.day]?).getD "").toList ++ ' ' ::
      ((Calendar.monthNames[d.month - 1]?).getD "").toList ++ ' ' :: dayOfMonth ++ ' ' ::
      i.clockText ++ ' ' :: yearText d.year

end Instant

end GraphCodec
