import GraphCodec.Image.Cursor
import GraphCodec.Image.Sink
import GraphCodec.Value.Json

/-!
# Stored primitives

A primitive of a kind with a fixed width is stored as a word of that width, and one of the other
kinds as text with its length in front. An absent scalar has no bytes of its own: it is stored as
its kind's *sentinel*, an ordinary word set aside for the purpose, or as the empty text.

Reading a scalar field gives the sentinel back as absence, so a number that happens to equal the
sentinel of its kind is lost. The items of arrays are never absent, and there the sentinels of
numbers are numbers. The empty text is a text for strings and constants; only a date has no such
text, so that an empty date is absent everywhere.
-/

namespace GraphCodec

namespace Sentinel

/-- The byte of an absent `boolean`. -/
def boolean : UInt8 := 2

/-- The absent `byte`. -/
def byte : Int8 := -1

/-- The absent `short`. -/
def short : Int16 := -1

/-- The absent `int`, the greatest of its kind. -/
def int : Int32 := 0x7FFFFFFF

/-- The absent `long`, the greatest of its kind. -/
def long : Int64 := 0x7FFFFFFFFFFFFFFF

/-- The bits of the absent `float`, the greatest finite one. -/
def float : UInt32 := 0x7F7FFFFF

/-- The bits of the absent `double`, the greatest finite one. -/
def double : UInt64 := 0x7FEFFFFFFFFFFFFF

/-- The absent `char`. -/
def char : UInt8 := 0xFF

end Sentinel

/-! ### Writing -/

/-- The stored bytes of a value as a primitive of a kind. -/
def primitiveBytes (field : String) (k : Kind) (v : Value) : Except Fault (List UInt8) :=
  match k, v with
  | .boolean, .boolean b => .ok [if b then 1 else 0]
  | .boolean, .null => .ok [Sentinel.boolean]
  | .byte, .byte v => .ok [v.toUInt8]
  | .byte, .null => .ok [Sentinel.byte.toUInt8]
  | .char, .char c => .ok [c]
  | .char, .null => .ok [Sentinel.char]
  | .short, .short v => .ok (Word.ofInt16 v)
  | .short, .null => .ok (Word.ofInt16 Sentinel.short)
  | .int, .int v => .ok (Word.ofInt32 v)
  | .int, .null => .ok (Word.ofInt32 Sentinel.int)
  | .long, .long v => .ok (Word.ofInt64 v)
  | .long, .null => .ok (Word.ofInt64 Sentinel.long)
  | .float, .float bits => .ok (Word.ofUInt32 bits)
  | .float, .null => .ok (Word.ofUInt32 Sentinel.float)
  | .double, .double bits => .ok (Word.ofUInt64 bits)
  | .double, .null => .ok (Word.ofUInt64 Sentinel.double)
  | .string, .string s | .enum, .enum s => textBytes s
  | .date, .date d => textBytes (Rfc3339.format d)
  | .string, .null | .enum, .null | .date, .null => textBytes ""
  | k, v => .error (.typeMismatch field k.name v.sort)

/-! ### Reading -/

namespace Decoder

/-- A value of a word, or absence where the word is a sentinel that counts as one. -/
def orAbsent (isSentinel : Bool) (v : Value) : Value :=
  if isSentinel then .null else v

/-- A `boolean`. -/
def boolean (sentinels : Bool) : Decoder Value := do
  let b ← uint8
  if sentinels && b == Sentinel.boolean then return .null
  else if b = 0 then return .boolean false
  else if b = 1 then return .boolean true
  else fail (.invalidBoolean b)

/-- A date, absent if its text is empty. -/
def date : Decoder Value := do
  let s ← text
  if s = "" then return .null
  else
    match Rfc3339.parse s with
    | .ok d => return .date d
    | .error e => fail (.invalidDate s e)

/-- A primitive of a kind. `sentinels` says whether the sentinel of the kind is absence. -/
def primitive (k : Kind) (sentinels : Bool) : Decoder Value :=
  match k with
  | .boolean => boolean sentinels
  | .byte => do
    let v ← int8
    return orAbsent (sentinels && v == Sentinel.byte) (.byte v)
  | .char => do
    let c ← uint8
    return orAbsent (sentinels && c == Sentinel.char) (.char c)
  | .short => do
    let v ← int16
    return orAbsent (sentinels && v == Sentinel.short) (.short v)
  | .int => do
    let v ← int32
    return orAbsent (sentinels && v == Sentinel.int) (.int v)
  | .long => do
    let v ← int64
    return orAbsent (sentinels && v == Sentinel.long) (.long v)
  | .float => do
    let bits ← float
    return orAbsent (sentinels && bits == Sentinel.float) (.float bits)
  | .double => do
    let bits ← double
    return orAbsent (sentinels && bits == Sentinel.double) (.double bits)
  | .string => return .string (← text)
  | .enum => return .enum (← text)
  | .date => date

end Decoder

end GraphCodec
