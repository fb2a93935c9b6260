import GraphCodec.Json.Basic
import GraphCodec.Number.Digits
import GraphCodec.Number.Shortest

/-!
# JSON text, written

A document is written on one line without blanks (`Json.compact`) or over several lines with two
blanks of indentation a level (`Json.pretty`). Strings escape the quotation mark, the backslash
and control characters only. A `double` is written with the fewest digits that read back: in
positional notation from `1e-5` to below `1e16`, always with a point, and with an exponent
otherwise.
-/

namespace GraphCodec

namespace Json

/-! ### Numbers -/

/-- How a decimal is laid out: the exponents between which it is positional, counting from the
first digit. -/
structure DecimalLayout where
  /-- The least exponent that is written positionally. -/
  leastPositional : Int
  /-- The greatest exponent that is written positionally. -/
  greatestPositional : Int
  deriving DecidableEq, Repr

/-- Doubles are positional from `1e-5` to below `1e16`. -/
def doubleLayout : DecimalLayout :=
  ⟨-5, 15⟩

/-- The characters of a positive decimal. -/
def decimalChars (layout : DecimalLayout) (d : Binary.Decimal) : List Char :=
  let digits := Nat.toDigits 10 d.digits
  let exponent : Int := d.exponent + digits.length - 1
  if layout.leastPositional ≤ exponent ∧ exponent ≤ layout.greatestPositional then
    if 0 ≤ d.exponent then
      digits ++ List.replicate d.exponent.toNat '0' ++ ['.', '0']
    else if 0 ≤ exponent then
      digits.take (exponent.toNat + 1) ++ '.' :: digits.drop (exponent.toNat + 1)
    else
      '0' :: '.' :: List.replicate ((-exponent).toNat - 1) '0' ++ digits
  else
    let mantissa :=
      match digits with
      | [c] => [c]
      | c :: cs => c :: '.' :: cs
      | [] => []
    mantissa ++ 'e' :: (if 0 ≤ exponent then '+' else '-') :: Nat.toDigits 10 exponent.natAbs

/-- The characters of a finite `double`. -/
def doubleChars (bits : UInt64) : List Char :=
  match Binary.double.datum bits.toNat with
  | .finite negative significand exponent =>
    let magnitude :=
      if significand = 0 then ['0', '.', '0']
      else decimalChars doubleLayout (Binary.shortest significand exponent)
    if negative then '-' :: magnitude else magnitude
  | _ => ['n', 'u', 'l', 'l']

/-- The text of an integer. -/
def integerText (v : Int) : String :=
  String.ofList ((if v < 0 then ['-'] else []) ++ Nat.toDigits 10 v.natAbs)

/-! ### Strings -/

/-- The characters that stand for `c` inside a string. -/
def escape (c : Char) : List Char :=
  match c with
  | '"' => ['\\', '"']
  | '\\' => ['\\', '\\']
  | '\x08' => ['\\', 'b']
  | '\x0c' => ['\\', 'f']
  | '\n' => ['\\', 'n']
  | '\r' => ['\\', 'r']
  | '\t' => ['\\', 't']
  | c =>
    if c.toNat < 32 then
      '\\' :: 'u' :: '0' :: '0' :: Nat.digitChar (c.toNat / 16) :: [Nat.digitChar (c.toNat % 16)]
    else [c]

/-- A string between quotation marks. -/
def quoted (s : String) : String :=
  String.ofList ('"' :: s.toList.flatMap escape ++ ['"'])

/-! ### Documents -/

/-- The text of a document that holds no other. -/
def leafText : Json → String
  | null => "null"
  | bool b => if b then "true" else "false"
  | integer v => integerText v
  | double bits => String.ofList (doubleChars bits)
  | string s => quoted s
  | array _ => "[]"
  | object _ => "\x7b\x7d"

theorem sizeOf_snd_lt_of_mem {entries : List (String × Json)} {e : String × Json}
    (h : e ∈ entries) : sizeOf e.2 < sizeOf entries := by
  have hmem := List.sizeOf_lt_of_mem h
  have : sizeOf e = 1 + sizeOf e.1 + sizeOf e.2 := by cases e; rfl
  omega

/-- A document on one line. -/
def compact : Json → String
  | array items =>
    "[" ++ ",".intercalate (items.attach.map fun ⟨v, _⟩ ↦ compact v) ++ "]"
  | object entries =>
    "\x7b" ++ ",".intercalate (entries.attach.map fun ⟨e, _⟩ ↦
      quoted e.1 ++ ":" ++ compact e.2) ++ "\x7d"
  | leaf => leafText leaf
  termination_by j => sizeOf j
  decreasing_by
    · rename_i h
      have := List.sizeOf_lt_of_mem h
      simp only [array.sizeOf_spec]
      omega
    · rename_i h
      have := sizeOf_snd_lt_of_mem h
      simp only [object.sizeOf_spec]
      omega

/-- The blanks at the beginning of a line at a given level. -/
def indentation (level : Nat) : String :=
  String.ofList (List.replicate (2 * level) ' ')

/-- Items on lines of their own between two brackets. -/
def block (opening closing : String) (level : Nat) (items : List String) : String :=
  let separator := ",\n" ++ indentation (level + 1)
  opening ++ "\n" ++ indentation (level + 1) ++ separator.intercalate items ++ "\n" ++
    indentation level ++ closing

/-- A document over several lines, of which the first is already indented to `level`. -/
def prettyAt (level : Nat) : Json → String
  | array (i :: is) =>
    block "[" "]" level ((i :: is).attach.map fun ⟨v, _⟩ ↦ prettyAt (level + 1) v)
  | object (e :: es) =>
    block "\x7b" "\x7d" level ((e :: es).attach.map fun ⟨e, _⟩ ↦
      quoted e.1 ++ ": " ++ prettyAt (level + 1) e.2)
  | leaf => leafText leaf
  termination_by j => sizeOf j
  decreasing_by
    · rename_i h
      have := List.sizeOf_lt_of_mem h
      simp only [array.sizeOf_spec]
      omega
    · rename_i h
      have := sizeOf_snd_lt_of_mem h
      simp only [object.sizeOf_spec]
      omega

/-- A document over several lines. -/
def pretty (j : Json) : String :=
  prettyAt 0 j

end Json

end GraphCodec
