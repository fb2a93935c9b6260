import GraphCodec.Number.Power

/-!
# Decimal digits

Fixed-width decimal fields, as dates use them: `Digits.fixed w n` writes the last `w` digits of
`n`, and `Digits.value?` reads a run of digits back (`value?_fixed`).
-/

namespace GraphCodec

namespace Digits

/-- The digit for a number below ten. -/
def char (d : Nat) : Char :=
  Char.ofNat (48 + d)

/-- The last `width` decimal digits of `n`, with leading zeros. -/
def fixed : (width : Nat) → (n : Nat) → List Char
  | 0, _ => []
  | width + 1, n => fixed width (n / 10) ++ [char (n % 10)]

/-- The decimal digits of `n`, with leading zeros up to `width` characters. -/
def atLeast (width n : Nat) : List Char :=
  let digits := Nat.toDigits 10 n
  List.replicate (width - digits.length) '0' ++ digits

/-- The number that a digit stands for. -/
def digit? (c : Char) : Option Nat :=
  if '0' ≤ c ∧ c ≤ '9' then some (c.toNat - 48) else none

/-- The number with the given digits, after those that gave `start`. -/
def valueFrom? (start : Nat) : List Char → Option Nat
  | [] => some start
  | c :: cs => (digit? c).bind fun d ↦ valueFrom? (10 * start + d) cs

/-- The number with the given digits. -/
def value? (cs : List Char) : Option Nat :=
  valueFrom? 0 cs

@[simp] theorem length_fixed (width n : Nat) : (fixed width n).length = width := by
  induction width generalizing n with
  | zero => rfl
  | succ width ih => simp [fixed, ih]

theorem digit?_char {d : Nat} (h : d < 10) : digit? (char d) = some d := by
  match d, h with
  | 0, _ | 1, _ | 2, _ | 3, _ | 4, _ | 5, _ | 6, _ | 7, _ | 8, _ | 9, _ => rfl

theorem valueFrom?_append (start : Nat) (as bs : List Char) :
    valueFrom? start (as ++ bs) = (valueFrom? start as).bind fun n ↦ valueFrom? n bs := by
  induction as generalizing start with
  | nil => rfl
  | cons a as ih =>
    rw [List.cons_append, valueFrom?, valueFrom?]
    cases digit? a with
    | none => rfl
    | some d => simp [ih]

theorem valueFrom?_fixed (start width n : Nat) :
    valueFrom? start (fixed width n) = some (start * 10 ^ width + n % 10 ^ width) := by
  induction width generalizing n with
  | zero => simp [fixed, valueFrom?, Nat.mod_one]
  | succ width ih =>
    rw [fixed, valueFrom?_append, ih, Option.bind_some, valueFrom?,
      digit?_char (Nat.mod_lt n (by decide)), Option.bind_some, valueFrom?]
    congr 1
    rw [Nat.pow_succ', Nat.mod_mul, Nat.mul_add, ← Nat.mul_assoc, Nat.mul_left_comm start 10,
      ← Nat.mul_assoc]
    omega

/-- **A fixed-width field is read back**, up to the digits that did not fit. -/
theorem value?_fixed (width n : Nat) : value? (fixed width n) = some (n % 10 ^ width) := by
  rw [value?, valueFrom?_fixed, Nat.zero_mul, Nat.zero_add]

end Digits

end GraphCodec
