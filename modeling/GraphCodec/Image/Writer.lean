import GraphCodec.Dictionary.Header
import GraphCodec.Dictionary.OfSchema
import GraphCodec.Image.Primitive
import GraphCodec.Walk.ValueWalk

/-!
# Writing file images

A file image is the magic number, the dictionary of the types that the root reaches, the tag of
the root type and the body. The body is written by a listener to the walk over the root record:
records have no bytes of their own, every dimension of an array begins with the number of its
items, and primitives are their stored bytes.

The writer also keeps the records and arrays that are open and checks that each is closed by an
end of its own sort and name. An end that does not fit still closes what was opened last. Nesting
has no influence on the bytes.
-/

namespace GraphCodec

namespace Image

/-- Something that has been opened and not yet closed. -/
inductive Frame where
  /-- A record, in a field or at the root. -/
  | record (field : Option String)
  /-- One dimension of an array. -/
  | array (field : String)
  deriving DecidableEq, Repr

/-- A frame as messages name it. -/
def Frame.describe : Frame → String
  | record (some field) => s!"composite '{field}'"
  | record none => "root composite"
  | array field => s!"array '{field}'"

/-- An image being written. -/
structure Writer where
  sink : Sink
  /-- What is open, innermost first. -/
  frames : List Frame

namespace Writer

/-- The writer that has written nothing. -/
def empty : Writer :=
  ⟨Sink.empty, []⟩

/-- The bytes written so far. -/
def bytes (w : Writer) : List UInt8 :=
  w.sink.bytes

/-- Append bytes, or fail without a change. -/
def append (bs : Except Fault (List UInt8)) : EStateM Fault Writer Unit := fun w ↦
  match bs with
  | .ok bs => .ok () { w with sink := w.sink.write bs }
  | .error e => .error e w

/-- Open a frame. -/
def openFrame (f : Frame) : EStateM Fault Writer Unit := fun w ↦
  .ok () { w with frames := f :: w.frames }

/-- Close the innermost frame, which has to be `f`. -/
def closeFrame (f : Frame) : EStateM Fault Writer Unit := fun w ↦
  match w.frames with
  | [] => .error (.frameMismatch f.describe "empty stack") w
  | g :: gs =>
    if g = f then .ok () { w with frames := gs }
    else .error (.frameMismatch f.describe g.describe) { w with frames := gs }

/-- Append primitives in order, up to the first that does not fit. -/
def appendPrimitives (field : String) (k : Kind) : List Value → EStateM Fault Writer Unit
  | [] => fun w ↦ .ok () w
  | v :: vs => fun w ↦
    match append (primitiveBytes field k v) w with
    | .ok () w => appendPrimitives field k vs w
    | .error e w => .error e w

/-- Check that a record can stand in a slot: its type is in the dictionary and is the one that the
slot declares. -/
def checkType (d : Dictionary) (field : Option String) (declared : String) (t : TypeDef) :
    Except Fault Unit :=
  if (d.tagFor? t.name).isNone then .error (.unregisteredType t.name)
  else if t.name ≠ declared then .error (.polymorphicValue (field.getD declared) declared t.name)
  else .ok ()

/-- The writer as a listener. -/
def listener (d : Dictionary) : Listener ValueEvent Writer
  | .beginRecord field declared t => fun w ↦
    match checkType d field declared t with
    | .ok () => openFrame (.record field) w
    | .error e => .error e w
  | .endRecord field => closeFrame (.record field)
  | .beginArray field _ _ length => do
    append (lengthBytes length)
    openFrame (.array field)
  | .endArray field => closeFrame (.array field)
  | .primitive field k v => append (primitiveBytes field k v)
  | .primitives field k vs => do
    append (lengthBytes vs.length)
    appendPrimitives field k vs
  | .emptyComposite field _ => fun w ↦ .error (.emptyComposite field) w

/-- The bytes of a finished body, in which everything has been closed. -/
def finish (w : Writer) : Except Fault (List UInt8) :=
  match w.frames with
  | [] => .ok w.bytes
  | frames => .error (.unbalanced 0 frames.length)

end Writer

/-- The bytes before the body: the magic number, the dictionary and the tag of the root type. -/
def preamble (d : Dictionary) (rootTag : Tag) : Except Fault (List UInt8) := do
  let header ← d.headerBytes
  return Word.ofInt32 magic ++ header ++ Word.ofInt32 rootTag

/-- The file image of a record of a type of the schema. -/
def encode (s : Schema) (r : Record) : Except Fault (List UInt8) := do
  match s.get? r.typeName with
  | none => throw (.unregisteredType r.typeName)
  | some t =>
    let d ← Dictionary.ofSchema s t
    match d.tagFor? t.name with
    | none => throw (.unregisteredType t.name)
    | some rootTag =>
      let front ← preamble d rootTag
      let w : Writer := ⟨Sink.empty.write front, []⟩
      let (_, w) ← Trace.outcomeFrom (Writer.listener d) w (s.walkRoot r)
      w.finish

end Image

end GraphCodec
