import GraphCodec.Number.Power

/-!
# Binary floating-point numbers as bit patterns

A `float` or `double` is kept as the bits of its IEEE 754 interchange form, because bits are what
a file stores and what two equal files share. This module gives the bits a meaning, `Datum`, and
goes back from an exact non-negative fraction to the nearest bits, `Format.nearest`, with ties to
the even neighbour. Conversions between integers, `float`, `double` and decimal literals are all
one step through an exact fraction, so a single rounding rule serves them.
-/

namespace GraphCodec

namespace Binary

/-- A binary interchange format: a sign bit, `exponentBits` and `fractionBits`. -/
structure Format where
  exponentBits : Nat
  fractionBits : Nat
  deriving DecidableEq, Repr

/-- The four-byte format of a `float`. -/
def single : Format := ⟨8, 23⟩

/-- The eight-byte format of a `double`. -/
def double : Format := ⟨11, 52⟩

/-- The number that a bit pattern stands for. A finite one is `± significand · 2 ^ exponent`. -/
inductive Datum where
  | nan (negative : Bool) (fraction : Nat)
  | infinite (negative : Bool)
  | finite (negative : Bool) (significand : Nat) (exponent : Int)
  deriving DecidableEq, Repr

namespace Format

/-- The least exponent of a finite number. -/
def minExponent (f : Format) : Int :=
  2 - 2 ^ (f.exponentBits - 1) - f.fractionBits

/-- The bits of positive infinity, which is also the number of finite magnitudes. -/
def infinity (f : Format) : Nat :=
  (2 ^ f.exponentBits - 1) * 2 ^ f.fractionBits

/-- The weight of the sign bit. -/
def signWeight (f : Format) : Nat :=
  2 ^ (f.exponentBits + f.fractionBits)

/-- The meaning of a bit pattern. -/
def datum (f : Format) (bits : Nat) : Datum :=
  let negative := f.signWeight ≤ bits
  let fraction := bits % 2 ^ f.fractionBits
  let exponent := bits / 2 ^ f.fractionBits % 2 ^ f.exponentBits
  if exponent = 2 ^ f.exponentBits - 1 then
    if fraction = 0 then .infinite negative else .nan negative fraction
  else if exponent = 0 then
    .finite negative fraction f.minExponent
  else
    .finite negative (2 ^ f.fractionBits + fraction) (f.minExponent + (exponent - 1 : Nat))

/-- The quotient of two naturals, rounded to the nearest with ties to the even neighbour. -/
def roundHalfEven (num den : Nat) : Nat :=
  let q := num / den
  let twice := 2 * (num % den)
  if twice < den then q else if den < twice then q + 1 else q + q % 2

/-- The bits of the non-negative number nearest to `num / den`, ties to even. Magnitudes beyond
the largest finite number become infinity. Consecutive magnitudes have consecutive bits, so a
significand that rounds up to the next power of two needs no case of its own. -/
def nearest (f : Format) (num den : Nat) : Nat :=
  if num = 0 then 0
  else
    let low : Int := (num.log2 : Int) - den.log2 - (f.fractionBits + 1)
    let scaled (q : Int) : Nat × Nat := (num * 2 ^ (-q).toNat, den * 2 ^ q.toNat)
    let fits := (scaled low).1 / (scaled low).2 < 2 ^ (f.fractionBits + 1)
    let q := max f.minExponent (if fits then low else low + 1)
    let significand := roundHalfEven (scaled q).1 (scaled q).2
    min f.infinity ((q - f.minExponent).toNat * 2 ^ f.fractionBits + significand)

/-- The bits of a number nearest to `± num / den`. -/
def nearestSigned (f : Format) (negative : Bool) (num den : Nat) : Nat :=
  (if negative then f.signWeight else 0) + f.nearest num den

/-- The bits nearest to a datum. What is not a number keeps its sign and the leading part of its
fraction, and becomes quiet. -/
def ofDatum (f : Format) (source : Format) : Datum → Nat
  | .nan negative fraction =>
    let quiet := 2 ^ (f.fractionBits - 1)
    let moved := fraction * 2 ^ f.fractionBits / 2 ^ source.fractionBits
    (if negative then f.signWeight else 0) + f.infinity + quiet + moved % quiet
  | .infinite negative => (if negative then f.signWeight else 0) + f.infinity
  | .finite negative significand exponent =>
    f.nearestSigned negative (significand * 2 ^ exponent.toNat) (2 ^ (-exponent).toNat)

end Format

/-! ### Conversions -/

/-- The `double` with the value of a `float`. -/
def widen (bits : UInt32) : UInt64 :=
  .ofNat (double.ofDatum single (single.datum bits.toNat))

/-- The `float` nearest to a `double`. -/
def narrow (bits : UInt64) : UInt32 :=
  .ofNat (single.ofDatum double (double.datum bits.toNat))

/-- The `double` nearest to an integer. -/
def ofInt (v : Int) : UInt64 :=
  .ofNat (double.nearestSigned (v < 0) v.natAbs 1)

/-- The `double` nearest to `± digits · 10 ^ exponent`, or `none` when that is too large to be a
finite number. Exponents out of all proportion are settled without computing the power. -/
def ofDecimal? (negative : Bool) (digits : Nat) (exponent : Int) : Option UInt64 :=
  let magnitude : Int := (Nat.toDigits 10 digits).length + exponent
  let bits :=
    if digits = 0 ∨ magnitude < -400 then 0
    else if 400 < magnitude then double.infinity
    else double.nearest (digits * 10 ^ exponent.toNat) (10 ^ (-exponent).toNat)
  if bits = double.infinity then none
  else some (.ofNat ((if negative then double.signWeight else 0) + bits))

/-- Whether a `float` is neither infinite nor a NaN. -/
def isFinite32 (bits : UInt32) : Bool :=
  bits.toNat % single.signWeight < single.infinity

/-- Whether a `double` is neither infinite nor a NaN. -/
def isFinite64 (bits : UInt64) : Bool :=
  bits.toNat % double.signWeight < double.infinity

/-- Equality of numbers: a NaN equals nothing, and the two zeros are equal. -/
def Format.sameNumber (f : Format) (a b : Nat) : Bool :=
  let magnitude (x : Nat) := x % f.signWeight
  if f.infinity < magnitude a || f.infinity < magnitude b then false
  else a == b || (magnitude a == 0 && magnitude b == 0)

end Binary

end GraphCodec
