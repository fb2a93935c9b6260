import GraphCodec.Dictionary.Basic
import GraphCodec.Image.Cursor
import GraphCodec.Image.Sink

/-!
# The dictionary section of a file

The stored form of a dictionary is the number of types and, for each, its tag, its name, the
number of its fields and for each field its name, tag and dimensions. Reading it back checks the
limits on counts, that names and tags are distinct, that composite types do not use reserved tags,
and that a field is of a primitive kind or of a type listed before; the last also rules out types
that contain themselves.
-/

namespace GraphCodec

namespace Dictionary

/-! ### Writing -/

/-- The bytes of a field. -/
def fieldBytes (f : FieldEntry) : Except Fault (List UInt8) := do
  return (← textBytes f.name) ++ Word.ofInt32 f.tag ++ Word.ofInt32 f.dims

/-- The bytes of a type. -/
def typeBytes (t : TypeEntry) : Except Fault (List UInt8) := do
  let name ← textBytes t.name
  let count ← lengthBytes t.fields.length
  let fields ← t.fields.mapM fieldBytes
  return Word.ofInt32 t.tag ++ name ++ count ++ fields.flatten

/-- The bytes of the dictionary section. -/
def headerBytes (d : Dictionary) : Except Fault (List UInt8) := do
  let count ← lengthBytes d.types.size
  let types ← d.types.toList.mapM typeBytes
  return count ++ types.flatten

/-! ### Reading -/

/-- Whether a dictionary has a type with a given tag. -/
def hasTag (d : Dictionary) (tag : Tag) : Bool :=
  d.types.any fun t ↦ t.tag == tag

/-- A field of the type `owner`, given the types listed before. -/
def readField (known : Dictionary) (owner : String) : Decoder FieldEntry := do
  let name ← Decoder.text
  let tag ← Decoder.int32
  let dims ← Decoder.int32
  if dims < 0 ∨ maxDimensions < dims.toNatClampNeg then
    Decoder.fail (.invalidDimensions owner name dims)
  else if !Tag.isPrimitive tag && !known.hasTag tag then
    Decoder.fail (.unknownFieldTag owner name tag)
  else return ⟨name, tag, dims⟩

/-- The least size of a stored field: an empty name, a tag and the dimensions. -/
def minFieldWidth : Nat := 12

/-- The least size of a stored type: a tag, an empty name and the number of fields. -/
def minTypeWidth : Nat := 12

/-- Read a type and add it to those listed before. -/
def readType (known : Dictionary) : Decoder Dictionary := do
  let tag ← Decoder.int32
  if tag < firstCompositeTag then Decoder.fail (.reservedTag tag)
  else
    let name ← Decoder.text
    let count ← Decoder.length minFieldWidth
    if maxFields < count then Decoder.fail (.tooManyFields name count)
    else
      let fields ← Decoder.times count (readField known name)
      if (known.tagFor? name).isSome || known.hasTag tag then
        Decoder.fail (.duplicateType name tag)
      else
        return { types := known.types.push ⟨tag, name, fields⟩, lastTag := max known.lastTag tag }

/-- Read `n` types and add them to those listed before. -/
def readTypes : (n : Nat) → (known : Dictionary) → Decoder Dictionary
  | 0, known => fun c ↦ .ok (known, c)
  | n + 1, known => fun c ↦
    match readType known c with
    | .ok (known, c) => readTypes n known c
    | .error e => .error e

/-- Read a dictionary section. -/
def readHeader : Decoder Dictionary := do
  let count ← Decoder.length minTypeWidth
  if maxTypes < count then Decoder.fail (.tooManyTypes count)
  else readTypes count empty

end Dictionary

end GraphCodec
