import GraphCodec.Kind
import GraphCodec.Matlab.Syntax

/-!
# Kinds in MATLAB

For each kind, the precision in which it is stored, the class that holds it without loss, and the
value that marks an absent scalar. Numbers become `double` unless a field asks to keep their
class.
-/

namespace GraphCodec

namespace Matlab

/-- The precision of the stored form of a kind. Text is stored as bytes. -/
def precision : Kind → String
  | .boolean | .char => "uint8"
  | .byte => "int8"
  | .short => "int16"
  | .int => "int32"
  | .long => "int64"
  | .float => "float32"
  | .double => "float64"
  | .string | .date | .enum => "uint8"

/-- The class that holds the values of a kind. -/
def nativeClass : Kind → String
  | .boolean => "logical"
  | .byte => "int8"
  | .short => "int16"
  | .int => "int32"
  | .long => "int64"
  | .float => "single"
  | .double => "double"
  | .char | .string | .date | .enum => "char"

/-- A reading precision: the stored form and the class of the result. -/
def conversion (stored result : String) : String :=
  stored ++ "=>" ++ result

/-- The reading precision of array items. Characters are always characters. -/
def arrayPrecision (k : Kind) (preserve : Bool) : String :=
  conversion (precision k) (if preserve || k == .char then nativeClass k else "double")

/-- The reading precision of a scalar. A `boolean` that keeps its class is read as a number first,
because the sentinel is no truth value. -/
def scalarPrecision (k : Kind) (preserve : Bool) : String :=
  if preserve && k == .boolean then conversion "uint8" "uint8" else arrayPrecision k preserve

/-- A call with a class name as its argument. -/
def ofClass (function className : String) : Expr :=
  .call function [.text className]

/-- The sentinel as a scalar that has just been read is compared with it. -/
def readSentinel (k : Kind) (preserve : Bool) : Expr :=
  let inClass (e : Expr) : Expr := if preserve then e else .call "double" [e]
  match k with
  | .boolean => .number 2
  | .byte | .short => .number (-1)
  | .char => .number 255
  | .int => inClass (ofClass "intmax" "int32")
  | .long => inClass (ofClass "intmax" "int64")
  | .float => inClass (ofClass "realmax" "single")
  | .double => .name "realmax"
  | .string | .date | .enum => .text ""

/-- The sentinel as it is written in the place of an empty scalar. -/
def writeSentinel : Kind → Expr
  | .boolean => .number 2
  | .byte | .short => .number (-1)
  | .char => .call "char" [.number 255]
  | .int => ofClass "intmax" "int32"
  | .long => ofClass "intmax" "int64"
  | .float => ofClass "realmax" "single"
  | .double => .name "realmax"
  | .string | .date | .enum => .text ""

end Matlab

end GraphCodec
