import GraphCodec.Fault
import GraphCodec.Word

/-!
# Reading stored bytes

A cursor stands in a run of bytes and knows how many are left. A decoder takes what it needs from
the front and fails when there is too little; the steps here are the words and texts of which
every stored form is made.

A count is refused at once when the bytes that are left cannot hold so many elements. The elements
themselves would run out of bytes anyway; the early test keeps a short input from announcing a
long result.
-/

namespace GraphCodec

/-- A place in a run of bytes. -/
structure Cursor where
  /-- The bytes still to be read. -/
  rest : List UInt8
  /-- The number of bytes read. -/
  position : Nat
  /-- The number of bytes still to be read. -/
  remaining : Nat
  remaining_eq : remaining = rest.length

/-- A step that reads from a cursor. -/
abbrev Decoder (α : Type) := StateT Cursor (Except Fault) α

namespace Cursor

/-- The beginning of a run of bytes. -/
def ofBytes (bs : List UInt8) : Cursor :=
  ⟨bs, 0, bs.length, rfl⟩

/-- The place `n` bytes further on. -/
def advance (c : Cursor) (n : Nat) : Cursor :=
  ⟨c.rest.drop n, c.position + n, c.remaining - n, by simp [c.remaining_eq]⟩

end Cursor

namespace Decoder

/-- The decoder that fails. -/
def fail {α : Type} (e : DataFault) : Decoder α := fun _ ↦ .error (.data e)

/-- The next `n` bytes; `what` says for which purpose. -/
def take (what : String) (n : Nat) : Decoder (List UInt8) := fun c ↦
  if n ≤ c.remaining then .ok (c.rest.take n, c.advance n)
  else .error (.data (.truncated what))

/-- The number of bytes left. -/
def remaining : Decoder Nat := fun c ↦ .ok (c.remaining, c)

/-! ### Words -/

/-- An unsigned byte. -/
def uint8 : Decoder UInt8 := do
  return .ofNat (Word.value (← take "u8" 1))

/-- A signed byte. -/
def int8 : Decoder Int8 := do
  return (UInt8.ofNat (Word.value (← take "i8" 1))).toInt8

/-- A signed 16-bit word. -/
def int16 : Decoder Int16 := do
  return Word.toInt16 (← take "i16" 2)

/-- A signed 32-bit word. -/
def int32 : Decoder Int32 := do
  return Word.toInt32 (← take "i32" 4)

/-- A signed 64-bit word. -/
def int64 : Decoder Int64 := do
  return Word.toInt64 (← take "i64" 8)

/-- The bits of a `float`. -/
def float : Decoder UInt32 := do
  return .ofNat (Word.value (← take "f32" 4))

/-- The bits of a `double`. -/
def double : Decoder UInt64 := do
  return .ofNat (Word.value (← take "f64" 8))

/-! ### Counts and texts -/

/-- A count of elements that take at least `minWidth` bytes each. -/
def length (minWidth : Nat) : Decoder Nat := do
  let n ← int32
  if n < 0 then fail (.negativeLength n)
  else
    let left ← remaining
    if left < n.toNatClampNeg * minWidth then fail (.lengthBeyondInput n.toNatClampNeg left)
    else return n.toNatClampNeg

/-- A text with its length in front. -/
def text : Decoder String := do
  let n ← length 1
  let bs ← take "string" n
  match Utf8.decode bs with
  | .ok s => return s
  | .error e => fail (.notUtf8 e)

/-! ### Repetition -/

/-- Read `n` times, after what was read before, which is in reverse. -/
def repeatFrom {α : Type} (read : Decoder α) : (n : Nat) → (done : List α) → Decoder (List α)
  | 0, done => fun c ↦ .ok (done.reverse, c)
  | n + 1, done => fun c ↦
    match read c with
    | .ok (a, c) => repeatFrom read n (a :: done) c
    | .error e => .error e

/-- Read `n` times. -/
def times {α : Type} (n : Nat) (read : Decoder α) : Decoder (List α) :=
  repeatFrom read n []

/-- Read once for every member of a list, after what was read before, which is in reverse. -/
def eachFrom {α β : Type} (read : β → Decoder α) :
    (bs : List β) → (done : List α) → Decoder (List α)
  | [], done => fun c ↦ .ok (done.reverse, c)
  | b :: bs, done => fun c ↦
    match read b c with
    | .ok (a, c) => eachFrom read bs (a :: done) c
    | .error e => .error e

/-- Read once for every member of a list. -/
def each {α β : Type} (bs : List β) (read : β → Decoder α) : Decoder (List α) :=
  eachFrom read bs []

end Decoder

end GraphCodec
