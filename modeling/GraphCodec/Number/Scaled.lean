import GraphCodec.Number.Binary

/-!
# Decimals read by scaling

The quick way from decimal digits to a `double`: the leading digits, as many as a 64-bit word holds,
are rounded to a `double`, which is then multiplied or divided by a power of ten that is itself a
`double`. Each of these steps rounds to the nearest, so the result may differ from the nearest
`double` in its last place.

Numbers here are the bits of `double`s without a sign.
-/

namespace GraphCodec

namespace Binary

/-- The exact value of a finite number as a fraction. -/
def fractionOf (bits : Nat) : Nat × Nat :=
  match double.datum bits with
  | .finite _ significand exponent => (significand * 2 ^ exponent.toNat, 2 ^ (-exponent).toNat)
  | .infinite _ | .nan _ _ => (0, 1)

/-- The product of two finite numbers. -/
def product (a b : Nat) : Nat :=
  double.nearest ((fractionOf a).1 * (fractionOf b).1) ((fractionOf a).2 * (fractionOf b).2)

/-- The quotient of two finite numbers, of which the second is positive. -/
def quotient (a b : Nat) : Nat :=
  double.nearest ((fractionOf a).1 * (fractionOf b).2) ((fractionOf a).2 * (fractionOf b).1)

/-- The greatest power of ten that is finite. -/
def maxPower : Nat := 308

/-- The number nearest to a power of ten. -/
def powerOfTen (k : Nat) : Nat :=
  double.nearest (10 ^ k) 1

/-- A number times a power of ten, or `none` when that is infinite. A power that is too small is
approached in steps of the greatest finite one. -/
def scale? (bits : Nat) (exponent : Int) : Option Nat :=
  if exponent < -(maxPower : Int) then
    if bits = 0 then some 0 else scale? (quotient bits (powerOfTen maxPower)) (exponent + maxPower)
  else if exponent < 0 then some (quotient bits (powerOfTen (-exponent).toNat))
  else if exponent ≤ maxPower then
    let scaled := product bits (powerOfTen exponent.toNat)
    if scaled = double.infinity then none else some scaled
  else if bits = 0 then some 0
  else none
  termination_by (-exponent).toNat
  decreasing_by
    simp only [maxPower] at *
    omega

/-- The number with digits from the front of a run, after those that gave `start`, as far as a
64-bit word holds it, and the digits left over. -/
def leading (start : Nat) : List Char → Nat × List Char
  | [] => (start, [])
  | c :: cs =>
    let next := 10 * start + (c.toNat - '0'.toNat)
    if next < 2 ^ 64 then leading next cs else (start, c :: cs)

/-- The `double` that the digits before and after the point denote, times a power of ten, or `none`
when that is infinite. -/
def ofDigits? (negative : Bool) (whole fraction : List Char) (exponent : Int) : Option UInt64 :=
  let (start, wholeLeft) := leading 0 whole
  let (significand, fractionLeft) := leading start fraction
  let taken : Int := (fraction.length : Int) - fractionLeft.length
  (scale? (double.nearest significand 1) (wholeLeft.length - taken + exponent)).map fun bits ↦
    .ofNat ((if negative then double.signWeight else 0) + bits)

end Binary

end GraphCodec
