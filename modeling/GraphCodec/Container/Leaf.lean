import GraphCodec.Container.Tree
import GraphCodec.Value.Basic

/-!
# The trees of primitives

A number or truth value becomes a matrix of one double, and text, a date, a constant or a
character a row of characters. An array of numbers becomes a column of doubles, one of bytes a
column of their bit patterns, one of characters a single row, and one of texts a row of cells.
-/

namespace GraphCodec

namespace Tree

/-- The fault that a value does not fit a field of a kind. -/
def misfit (field : String) (k : Kind) (v : Value) : Fault :=
  .typeMismatch field k.name v.sort

/-- A character of one byte as a character. -/
def charOfByte (c : UInt8) : Char :=
  Char.ofNat c.toNat

/-- The `double` of a number or truth value. -/
def numeric (field : String) (k : Kind) : Value → Except Fault UInt64
  | .boolean b => .ok (Binary.ofInt (if b then 1 else 0))
  | .byte v => .ok (Binary.ofInt v.toInt)
  | .short v => .ok (Binary.ofInt v.toInt)
  | .int v => .ok (Binary.ofInt v.toInt)
  | .long v => .ok (Binary.ofInt v.toInt)
  | .float bits => .ok (Binary.widen bits)
  | .double bits => .ok bits
  | v => .error (misfit field k v)

/-- The row of characters of a text. -/
def textual (field : String) (k : Kind) (v : Value) : Except Fault Tree :=
  match v.text? with
  | some s => .ok (char s)
  | none => .error (misfit field k v)

/-- The tree of a scalar. -/
def ofScalar (field : String) (k : Kind) : Value → Except Fault Tree
  | .null => .ok empty
  | .char c => .ok (char (String.singleton (charOfByte c)))
  | v => if k.isTextual then textual field k v else (numeric field k v).map scalar

/-- The cell of an item of an array of texts. -/
def textItem (field : String) (k : Kind) : Value → Except Fault Tree
  | .null => .ok empty
  | v => textual field k v

/-- The character of an item of an array of characters. -/
def charItem (field : String) (k : Kind) : Value → Except Fault Char
  | .char c => .ok (charOfByte c)
  | v => .error (misfit field k v)

/-- The bit pattern of an item of an array of bytes. -/
def byteItem (field : String) (k : Kind) : Value → Except Fault UInt8
  | .byte v => .ok v.toUInt8
  | v => .error (misfit field k v)

/-- The tree of the innermost dimension of an array of primitives. -/
def ofPrimitives (field : String) (k : Kind) (vs : List Value) : Except Fault Tree :=
  if vs.isEmpty then .ok empty
  else
    match k with
    | .string | .date | .enum => (vs.mapM (textItem field k)).map cell
    | .char => (vs.mapM (charItem field k)).map fun cs ↦ char (String.ofList cs)
    | .byte => (vs.mapM (byteItem field k)).map fun bs ↦ uint8 bs.length 1 bs
    | _ => (vs.mapM (numeric field k)).map column

end Tree

end GraphCodec
