import GraphCodec.Instant.Basic

/-!
# Date text

The stored form of an instant is its RFC 3339 text in UTC, with a year of four digits. Three
digits of fraction are always shown, six or nine only when the instant needs them, so the text
determines the instant.

Reading accepts any RFC 3339 text: a fraction of any length, of which nine digits count, and any
offset below a day. A text is refused for the first fault met from left to right, with one
exception: the clock is checked against its range only after the fraction.
-/

namespace GraphCodec

namespace Rfc3339

/-! ### Writing -/

/-- The digits after the point: the fewest of three, six or nine that lose nothing. -/
def fractionText (nanos : Nat) : List Char :=
  if nanos % 1000000 = 0 then Digits.fixed 3 (nanos / 1000000)
  else if nanos % 1000 = 0 then Digits.fixed 6 (nanos / 1000)
  else Digits.fixed 9 nanos

/-- The characters of the stored form. -/
def chars (i : Instant) : List Char :=
  let d := i.date
  Instant.yearText d.year ++ '-' :: Digits.fixed 2 d.month ++ '-' :: Digits.fixed 2 d.day ++
    'T' :: i.clockText ++ '.' :: fractionText i.fraction ++ ['Z']

/-- The stored form of an instant. -/
def format (i : Instant) : String :=
  String.ofList (chars i)

/-! ### Reading -/

/-- Why a text is not a date. -/
inductive Fault where
  /-- The text ends where more is needed. -/
  | short
  /-- A character that cannot stand where it is. -/
  | invalid
  /-- A date, time or offset that does not exist. -/
  | outOfRange
  /-- Characters after the offset. -/
  | trailing
  deriving DecidableEq, Repr

/-- The wording of a fault. -/
def Fault.message : Fault → String
  | .short => "premature end of input"
  | .invalid => "input contains invalid characters"
  | .outOfRange => "input is out of range"
  | .trailing => "trailing input"

/-- What a step reads from the front of a text, and the rest. -/
abbrev Step (α : Type) := List Char → Except Fault (α × List Char)

/-- A field of exactly `width` digits. -/
def field (width : Nat) : Step Nat := fun cs ↦
  match Digits.value? (cs.take width) with
  | some n => if (cs.take width).length = width then .ok (n, cs.drop width) else .error .invalid
  | none => .error .invalid

/-- A character that has to satisfy `p`. -/
def mark (p : Char → Bool) : Step Unit := fun
  | c :: cs => if p c then .ok ((), cs) else .error .invalid
  | [] => .error .invalid

-- The empty sum is the literal zero, whatever structure `Nat` has where this is read.
attribute [local instance (high)] Zero.ofOfNat0

/-- The number of bytes in which the characters are stored. -/
def byteCount (cs : List Char) : Nat :=
  (cs.map Char.utf8Size).sum

/-- Nanoseconds from the digits after the point; those after the ninth do not count. -/
def nanosOfDigits (digits : List Char) : Nat :=
  (Digits.value? ((digits ++ List.replicate 9 '0').take 9)).getD 0

/-- The fraction of a second, when there is one. -/
def fraction : Step Nat := fun
  | '.' :: cs =>
    match cs.takeWhile Char.isDigit with
    | [] => .error (if cs.isEmpty then .short else .invalid)
    | digits => .ok (nanosOfDigits digits, cs.dropWhile Char.isDigit)
  | cs => .ok (0, cs)

/-- The minutes of an offset, which are below 60. -/
def offsetMinutes : Step Nat := fun cs ↦
  if byteCount cs < 2 then .error .short
  else
    match cs with
    | a :: b :: rest =>
      match Digits.digit? a, Digits.digit? b with
      | some a, some b => if a < 6 then .ok (10 * a + b, rest) else .error .outOfRange
      | _, _ => .error .invalid
    | _ => .error .invalid

/-- Hours and minutes of an offset after its sign, in minutes. -/
def offsetSize : Step Nat := fun cs ↦ do
  if byteCount cs < 2 then throw .short
  let (hours, cs) ← field 2 cs
  if cs.isEmpty then throw .short
  let (_, cs) ← mark (· == ':') cs
  let (minutes, cs) ← offsetMinutes cs
  return (60 * hours + minutes, cs)

/-- The offset from UTC in minutes: `Z`, or a sign, hyphen or minus, with hours and minutes. -/
def offset : Step Int := fun
  | [] => .error .short
  | c :: cs =>
    if c = 'Z' ∨ c = 'z' then .ok (0, cs)
    else if c = '+' then (offsetSize cs).map fun r ↦ ((r.1 : Int), r.2)
    else if c = '-' ∨ c = '\u2212' then (offsetSize cs).map fun r ↦ (-(r.1 : Int), r.2)
    else .error .invalid

/-- The instant that the characters describe. -/
def parseChars (cs : List Char) : Except Fault Instant := do
  if byteCount cs < 19 then throw .short
  let (year, cs) ← field 4 cs
  let (_, cs) ← mark (· == '-') cs
  let (month, cs) ← field 2 cs
  let (_, cs) ← mark (· == '-') cs
  let (day, cs) ← field 2 cs
  let date : Calendar.Date := ⟨year, month, day⟩
  if !date.exists? then throw .outOfRange
  let (_, cs) ← mark (fun c ↦ c == 'T' || c == 't' || c == ' ') cs
  let (hour, cs) ← field 2 cs
  let (_, cs) ← mark (· == ':') cs
  let (minute, cs) ← field 2 cs
  let (_, cs) ← mark (· == ':') cs
  let (second, cs) ← field 2 cs
  let (nanos, cs) ← fraction cs
  if 23 < hour ∨ 59 < minute ∨ 60 < second then throw .outOfRange
  let (minutes, cs) ← offset cs
  if !cs.isEmpty then throw .trailing
  if 1440 ≤ minutes.natAbs then throw .outOfRange
  return .ofLocal (Calendar.dayNumber date) hour minute second nanos minutes

/-- The instant that a text describes. -/
def parse (text : String) : Except Fault Instant :=
  parseChars text.toList

end Rfc3339

end GraphCodec
