import GraphCodec.Number.Binary

/-!
# The shortest decimal form of a `double`

Every `double` is the only one inside a small interval of numbers that round to it. Among the
decimal grids `10 ^ t`, from coarse to fine, the first that has a point in that interval gives the
decimals with the fewest digits that read back; of two points on it the nearer is taken, and the
even one when they are equally near.

If some point of a grid lies in the interval, one of the two neighbours of the number on that grid
does, so only these two are tested.
-/

namespace GraphCodec

namespace Binary

/-- A decimal `digits · 10 ^ exponent`. -/
structure Decimal where
  digits : Nat
  exponent : Int
  deriving DecidableEq, Repr

/-- The interval of numbers that round to a positive `double`, in quarters of its last place:
`low · unit .. high · unit` around `mid · unit`, where `unit` is `2 ^ exponent`. -/
structure Interval where
  low : Nat
  mid : Nat
  high : Nat
  exponent : Int
  /-- Whether the ends themselves round to the number. -/
  closed : Bool
  deriving DecidableEq, Repr

/-- The rounding interval of `significand · 2 ^ exponent`. Below a power of two the neighbours are
twice as close. -/
def Interval.ofFinite (significand : Nat) (exponent : Int) : Interval where
  low := 4 * significand -
    (if significand = 2 ^ double.fractionBits ∧ double.minExponent < exponent then 1 else 2)
  mid := 4 * significand
  high := 4 * significand + 2
  exponent := exponent - 2
  closed := significand % 2 = 0

namespace Interval

/-- The point of the grid `10 ^ t` that stands for the number, if the interval has one. -/
def point? (i : Interval) (t : Int) : Option Nat :=
  let grid := 10 ^ t.toNat * 2 ^ (-i.exponent).toNat
  let unit := 2 ^ i.exponent.toNat * 10 ^ (-t).toNat
  let inside (d : Nat) : Bool :=
    if i.closed then i.low * unit ≤ d * grid && d * grid ≤ i.high * unit
    else i.low * unit < d * grid && d * grid < i.high * unit
  let below := i.mid * unit / grid
  let rest := 2 * (i.mid * unit - below * grid)
  let nearestIsBelow := rest < grid || (rest == grid && below % 2 == 0)
  match inside below, inside (below + 1) with
  | true, true => some (if nearestIsBelow then below else below + 1)
  | true, false => some below
  | false, true => some (below + 1)
  | false, false => none

/-- The first grid that has a point, from `10 ^ t` down. -/
def search (i : Interval) : (steps : Nat) → (t : Int) → Decimal
  | 0, t => ⟨i.mid, t⟩
  | steps + 1, t =>
    match i.point? t with
    | some digits => ⟨digits, t⟩
    | none => i.search steps (t - 1)

end Interval

/-- A power of ten that no number of `bits` bits times `2 ^ exponent` reaches. -/
def powerAbove (bits : Nat) (exponent : Int) : Int :=
  (bits + exponent) * 30103 / 100000 + 2

/-- The shortest decimal that reads back as `significand · 2 ^ exponent`. Seventeen digits always
suffice, and the search starts at most three powers of ten too high. -/
def shortest (significand : Nat) (exponent : Int) : Decimal :=
  (Interval.ofFinite significand exponent).search 24
    (powerAbove (significand.log2 + 1) exponent)

end Binary

end GraphCodec
