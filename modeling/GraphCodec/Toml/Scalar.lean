import GraphCodec.Instant.Calendar
import GraphCodec.Number.Binary
import GraphCodec.Toml.Token

/-!
# TOML scalars

The booleans, integers, floats and dates that a bare run of characters can denote. Digits may be
separated by single underscores. A date or time has to exist; the second and its fraction may be
missing.
-/

namespace GraphCodec

namespace Toml

namespace Scalar

/-- Whether a character is a digit of a base. -/
def isDigitOf (base : Nat) (c : Char) : Bool :=
  match Json.Token.hexDigit? c with
  | some d => d < base
  | none => false

/-- The digits of a run in which single underscores stand between digits. -/
def digits? (base : Nat) : List Char → Option (List Char)
  | [] => none
  | [c] => if isDigitOf base c then some [c] else none
  | c :: '_' :: cs => if isDigitOf base c then (digits? base cs).map (c :: ·) else none
  | c :: cs => if isDigitOf base c then (digits? base cs).map (c :: ·) else none

/-- The number with the given digits of a base. -/
def valueOf (base : Nat) (ds : List Char) : Nat :=
  ds.foldl (fun n c ↦ base * n + (Json.Token.hexDigit? c).getD 0) 0

/-- A decimal run without a superfluous zero in front. -/
def whole? (cs : List Char) : Option Nat :=
  match digits? 10 cs with
  | some ds => if 1 < ds.length ∧ ds.head? = some '0' then none else some (valueOf 10 ds)
  | none => none

/-- A sign, if there is one, and what follows. -/
def sign : List Char → Bool × List Char
  | '-' :: cs => (true, cs)
  | '+' :: cs => (false, cs)
  | cs => (false, cs)

/-- The integer that a run denotes. -/
def integer? (cs : List Char) : Option Int :=
  match cs with
  | '0' :: 'x' :: cs => (digits? 16 cs).map fun ds ↦ (valueOf 16 ds : Int)
  | '0' :: 'o' :: cs => (digits? 8 cs).map fun ds ↦ (valueOf 8 ds : Int)
  | '0' :: 'b' :: cs => (digits? 2 cs).map fun ds ↦ (valueOf 2 ds : Int)
  | cs =>
    let (negative, rest) := sign cs
    (whole? rest).map fun n ↦ if negative then -(n : Int) else n

/-! ### Floats -/

/-- The exponent that a run without its mark denotes. -/
def exponent? (cs : List Char) : Option Int :=
  let (negative, rest) := sign cs
  (digits? 10 rest).map fun ds ↦
    if negative then -(valueOf 10 ds : Int) else valueOf 10 ds

/-- The digits and the exponent of the decimal that a run without a sign denotes. A fraction or an
exponent makes it one. -/
def decimal? (cs : List Char) : Option (Nat × Int) := do
  let isMark (c : Char) : Bool := c == 'e' || c == 'E'
  let mantissa := cs.takeWhile fun c ↦ !isMark c
  let marked := cs.dropWhile fun c ↦ !isMark c
  let pointed := mantissa.dropWhile (· ≠ '.')
  let whole ← whole? (mantissa.takeWhile (· ≠ '.'))
  let fraction ←
    match pointed with
    | [] => some []
    | _ :: ds => digits? 10 ds
  let exponent ←
    match marked with
    | [] => some 0
    | _ :: es => exponent? es
  if pointed.isEmpty && marked.isEmpty then none
  else some (whole * 10 ^ fraction.length + valueOf 10 fraction, exponent - fraction.length)

/-- The float that a run denotes. -/
def float? (cs : List Char) : Option Toml :=
  let rest := (sign cs).2
  if rest = ['i', 'n', 'f'] ∨ rest = ['n', 'a', 'n'] then some .float
  else
    (decimal? rest).map fun (digits, exponent) ↦
      if (Binary.ofDecimal? false digits exponent).isSome then .float else .outOfRange

/-! ### Dates and times -/

/-- The number of two digits, and what follows. -/
def twoDigits? : List Char → Option (Nat × List Char)
  | a :: b :: cs => (Digits.value? [a, b]).map (·, cs)
  | _ => none

/-- A date that exists, and what follows. -/
def date? : List Char → Option (List Char)
  | y₁ :: y₂ :: y₃ :: y₄ :: '-' :: cs => do
    let year ← Digits.value? [y₁, y₂, y₃, y₄]
    let (month, cs) ← twoDigits? cs
    match cs with
    | '-' :: cs => do
      let (day, cs) ← twoDigits? cs
      let d : Calendar.Date := ⟨year, month, day⟩
      if d.exists? then some cs else none
    | _ => none
  | _ => none

/-- The digits after the point of a second, and what follows. -/
def afterFraction? : List Char → Option (List Char)
  | '.' :: cs =>
    if (cs.takeWhile Char.isDigit).isEmpty then none else some (cs.dropWhile Char.isDigit)
  | cs => some cs

/-- A time that exists, and what follows. -/
def time? (cs : List Char) : Option (List Char) := do
  let (hour, cs) ← twoDigits? cs
  match cs with
  | ':' :: cs => do
    let (minute, cs) ← twoDigits? cs
    if 23 < hour ∨ 59 < minute then none
    else
      match cs with
      | ':' :: cs => do
        let (second, cs) ← twoDigits? cs
        if 60 < second then none else afterFraction? cs
      | cs => some cs
  | _ => none

/-- Whether a run is an offset from UTC. -/
def isOffset : List Char → Bool
  | ['Z'] | ['z'] => true
  | s :: cs =>
    (s == '+' || s == '-') &&
      match twoDigits? cs with
      | some (hours, ':' :: cs) =>
        match twoDigits? cs with
        | some (minutes, []) => hours ≤ 23 && minutes ≤ 59
        | _ => false
      | _ => false
  | [] => false

/-- Whether a run denotes a date, a time, or both. -/
def isDateTime (cs : List Char) : Bool :=
  match date? cs with
  | some [] => true
  | some (t :: cs) =>
    (t == 'T' || t == 't' || t == ' ') &&
      match time? cs with
      | some rest => rest.isEmpty || isOffset rest
      | none => false
  | none =>
    match time? cs with
    | some rest => rest.isEmpty
    | none => false

/-- The value that a bare run denotes. -/
def value? (cs : List Char) : Option Toml :=
  if cs = ['t', 'r', 'u', 'e'] then some (.boolean true)
  else if cs = ['f', 'a', 'l', 's', 'e'] then some (.boolean false)
  else
    match integer? cs with
    | some v => some (.ofInteger v)
    | none => if isDateTime cs then some .dateTime else float? cs

/-- Whether a bare run is a date to which a time may be added after a blank. -/
def isDate (cs : List Char) : Bool :=
  date? cs == some []

end Scalar

end Toml

end GraphCodec
