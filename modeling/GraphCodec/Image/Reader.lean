import GraphCodec.Dictionary.Header
import GraphCodec.Dictionary.Listing
import GraphCodec.Image.Primitive

/-!
# Reading file images

An image is read with nothing but the dictionary that it carries. The body is read slot by slot: a
slot is described by a tag and a number of dimensions and holds a primitive, a record of a listed
type, or an array of slots with one dimension less.

The reader counts down the levels of nesting that it may still enter, which both bounds the depth
of the result and makes the reader terminate. Before it reads the items of an array it checks
that enough bytes are left for their number; items that take no bytes are limited by their number
alone.
-/

namespace GraphCodec

namespace Dictionary

/-- The least number of bytes of a field, given those of the types listed before. -/
def fieldWidth (known : List (Tag × Nat)) (f : FieldEntry) : Nat :=
  if 0 < f.dims then 4
  else
    match Kind.ofTag? f.tag with
    | some k => k.minWidth
    | none => (known.lookup f.tag).getD 0

-- The empty sum is the literal zero, whatever structure `Nat` has where this is read.
attribute [local instance (high)] Zero.ofOfNat0

/-- The least number of bytes of a type, given those of the types listed before. -/
def typeWidth (known : List (Tag × Nat)) (t : TypeEntry) : Nat :=
  (t.fields.map (fieldWidth known)).sum

/-- The least numbers of bytes of the types. Since a type comes after those that its fields name,
one pass finds them all. -/
def widths (d : Dictionary) : List (Tag × Nat) :=
  d.types.toList.foldl (fun known t ↦ (t.tag, typeWidth known t) :: known) []

end Dictionary

namespace Image

/-- What an image holds. -/
structure Content where
  dictionary : Dictionary
  root : Record

/-- The document of an image: its dictionary and its root. -/
def Content.toJson (c : Content) : Json :=
  .object [("dictionary", c.dictionary.toJson), ("root", c.root.toJson)]

/-- The least number of bytes of a value with a given tag. -/
def minWidth (widths : List (Tag × Nat)) (tag : Tag) : Nat :=
  match Kind.ofTag? tag with
  | some k => k.minWidth
  | none => (widths.lookup tag).getD 0

/-- The type that a tag stands for. -/
def readType (d : Dictionary) (tag : Tag) : Decoder TypeEntry :=
  match d.descriptor? tag with
  | some t => pure t
  | none => Decoder.fail (.unknownTag tag)

/-- The number of items of an array, each of which takes at least `width` bytes. -/
def readCount (tag : Tag) (width : Nat) : Decoder Nat := do
  let count ← Decoder.length width
  if width = 0 ∧ maxWeightless < count then Decoder.fail (.tooManyWeightless count tag)
  else return count

/-- Read a slot with a given tag and number of dimensions, with `levels` of nesting left to enter.
`inRecord` tells a field from an item of an array. -/
def readSlot (d : Dictionary) (widths : List (Tag × Nat)) (levels : Nat) (tag : Tag) (dims : Nat)
    (inRecord : Bool) : Decoder Value :=
  match dims with
  | 0 =>
    match Kind.ofTag? tag with
    | some k => Decoder.primitive k inRecord
    | none => do
      let t ← readType d tag
      match levels with
      | 0 => Decoder.fail .nestedTooDeep
      | levels + 1 =>
        let fields ← Decoder.each t.fields fun f ↦ do
          return (f.name, ← readSlot d widths levels f.tag f.dims.toNatClampNeg true)
        return .record t.name fields
  | dims + 1 =>
    match levels with
    | 0 => Decoder.fail .nestedTooDeep
    | levels + 1 => do
      let count ← readCount tag (if dims = 0 then minWidth widths tag else 4)
      let items ← Decoder.times count (readSlot d widths levels tag dims false)
      return .array items

/-- Read the root, which is a record of the type `t`. -/
def readRoot (d : Dictionary) (t : TypeEntry) : Decoder Record := do
  let widths := d.widths
  let fields ← Decoder.each t.fields fun f ↦ do
    return (f.name, ← readSlot d widths maxNesting f.tag f.dims.toNatClampNeg true)
  return ⟨t.name, fields⟩

/-- Read an image and what follows it. -/
def readContent : Decoder Content := do
  let found ← Decoder.int32
  if found ≠ magic then Decoder.fail (.badMagic found)
  else
    let d ← Dictionary.readHeader
    let rootTag ← Decoder.int32
    let t ← readType d rootTag
    let root ← readRoot d t
    return ⟨d, root⟩

/-- Read a complete image. -/
def decode (bs : List UInt8) : Except Fault Content := do
  let (content, rest) ← readContent (Cursor.ofBytes bs)
  if rest.remaining = 0 then return content
  else throw (.data (.trailingBytes rest.remaining))

end Image

end GraphCodec
