import GraphCodec.Container.Leaf
import GraphCodec.Walk.ValueWalk

/-!
# Building container trees

A listener to the walk over a record builds its tree. The fields of the root go into a struct that
is always there; every other record and every dimension of an array that is entered gets a frame
of its own, and when it is left, what the frame holds goes into the frame around it: under the name
of the field in a record, and in the next slot in an array.

An end that does not fit the innermost frame drops it. A slot is used up even when what should go
into it does not fit.
-/

namespace GraphCodec

namespace Container

/-- The field under which the elements of an outer dimension hold the inner one. -/
def innerField : String := "array"

/-- A container being built. -/
inductive Frame where
  /-- A record. -/
  | composite (field : String) (s : StructArray Tree)
  /-- An array of records; `index` is the next slot. -/
  | composites (field : String) (s : StructArray Tree) (index : Nat)
  /-- An outer dimension of an array. -/
  | nested (field : String) (s : StructArray Tree) (index : Nat)
  /-- An array of texts, or an outer dimension of one. -/
  | texts (field : String) (items : Array Tree) (index : Nat)

namespace Frame

/-- The field that a frame was opened for. -/
def field : Frame → String
  | composite field _ => field
  | composites field _ _ => field
  | nested field _ _ => field
  | texts field _ _ => field

/-- Whether a frame is a dimension of an array. -/
def isArray : Frame → Bool
  | composite .. => false
  | _ => true

/-- A frame as messages name it. -/
def describe : Frame → String
  | composite field _ => s!"Composite '{field}'"
  | composites field _ _ => s!"CompositeArray '{field}'"
  | nested field _ _ => s!"NestedArray '{field}'"
  | texts field _ _ => s!"TextArray '{field}'"

/-- What a frame holds. -/
def tree : Frame → Tree
  | composite _ s => .struct s
  | composites _ s _ => .struct s
  | nested _ s _ => .struct s
  | texts _ items _ => .cell items.toList

end Frame

/-- A tree being built: the struct of the root, and the frames that are open, innermost first. -/
structure Builder where
  root : StructArray Tree
  frames : List Frame

namespace Builder

/-- The builder that has been told nothing. -/
def start : Builder :=
  ⟨StructArray.ofSize 1, []⟩

/-- Open a frame. -/
def openFrame (f : Frame) : EStateM Fault Builder Unit := fun b ↦
  .ok () { b with frames := f :: b.frames }

/-- Close the innermost frame, which has to have been opened for `field`, and return it. -/
def closeFrame (field : String) (isArray : Bool) : EStateM Fault Builder Frame := fun b ↦
  match b.frames with
  | [] => .error (.frameMismatch field "root") b
  | f :: fs =>
    if f.field = field ∧ f.isArray = isArray then .ok f { b with frames := fs }
    else .error (.frameMismatch field f.describe) { b with frames := fs }

/-- Set values of one element in order, up to the first that cannot be set. -/
def splice (s : StructArray Tree) (index : Nat) :
    List (String × Tree) → StructArray Tree × Except Fault Unit
  | [] => (s, .ok ())
  | (name, v) :: vs =>
    match s.set Tree.empty name index v with
    | (s, .ok ()) => splice s index vs
    | (s, .error e) => (s, .error e)

/-- A frame after an attempt to put a tree into it, under a field name or in the next slot. -/
def put (field : String) (v : Tree) : Frame → Frame × Except Fault Unit
  | .composite name s =>
    let (s, result) := s.set Tree.empty field 0 v
    (.composite name s, result)
  | .nested name s index =>
    let (s, result) := s.set Tree.empty innerField index v
    (.nested name s (index + 1), result)
  | .composites name s index =>
    match v with
    | .struct element =>
      let (s, result) := splice s index element.firstElement
      (.composites name s (index + 1), result)
    | v => (.composites name s (index + 1), .error (.typeMismatch field "struct" v.className))
  | .texts name items index =>
    if index < items.size then (.texts name (items.setIfInBounds index v) (index + 1), .ok ())
    else (.texts name items (index + 1), .error (.unbalanced items.size (index + 1)))

/-- Put a finished tree into the innermost frame. -/
def attach (field : String) (v : Tree) : EStateM Fault Builder Unit := fun b ↦
  match b.frames with
  | [] =>
    match b.root.set Tree.empty field 0 v with
    | (root, .ok ()) => .ok () { b with root }
    | (root, .error e) => .error e { b with root }
  | f :: fs =>
    match put field v f with
    | (f, .ok ()) => .ok () { b with frames := f :: fs }
    | (f, .error e) => .error e { b with frames := f :: fs }

/-- Put a tree that may not exist into the innermost frame. -/
def attachOrFail (field : String) : Except Fault Tree → EStateM Fault Builder Unit
  | .ok v => attach field v
  | .error e => fun b ↦ .error e b

/-- The frame of an array. -/
def arrayFrame (field : String) (element : ElementType) (dims length : Nat) : Frame :=
  if element.isTextual then .texts field (Array.replicate length Tree.empty) 0
  else if 1 < dims then .nested field (StructArray.withNames Tree.empty length [innerField]) 0
  else
    let names :=
      match element with
      | .primitive _ => []
      | .composite t => t.fieldNames
    .composites field (StructArray.withNames Tree.empty length names) 0

/-- A finished array; one without items is the placeholder. -/
def finishedArray (f : Frame) : Tree :=
  if f.tree.dims.2 = 0 then Tree.empty else f.tree

/-- Skip a slot of an array of records, which already holds placeholders, or put the placeholder
into any other frame. -/
def attachEmpty (field : String) : EStateM Fault Builder Unit := fun b ↦
  match b.frames with
  | .composites name s index :: fs =>
    .ok () { b with frames := .composites name s (index + 1) :: fs }
  | _ => attach field Tree.empty b

/-- The builder as a listener. -/
def listener : Listener ValueEvent Builder
  | .beginRecord field declared t => fun b ↦
    if t.name ≠ declared then
      .error (.polymorphicValue (field.getD declared) declared t.name) b
    else
      match field with
      | none => .ok () b
      | some field =>
        openFrame (.composite field (StructArray.withNames Tree.empty 1 t.fieldNames)) b
  | .endRecord none => fun b ↦ .ok () b
  | .endRecord (some field) => do
    let f ← closeFrame field false
    attach field f.tree
  | .beginArray field element dims length => openFrame (arrayFrame field element dims length)
  | .endArray field => do
    let f ← closeFrame field true
    attach field (finishedArray f)
  | .primitive field k v => attachOrFail field (Tree.ofScalar field k v)
  | .primitives field k vs => attachOrFail field (Tree.ofPrimitives field k vs)
  | .emptyComposite field _ => attachEmpty field

/-- The finished tree, when every frame has been closed. -/
def finish (b : Builder) : Except Fault Tree :=
  match b.frames with
  | [] => .ok (.struct b.root)
  | frames => .error (.unbalanced 1 (frames.length + 1))

end Builder

/-- The tree of a record of a type of the schema: a struct with its fields. -/
def ofRecord (s : Schema) (r : Record) : Except Fault Tree := do
  let (_, b) ← Trace.outcomeFrom Builder.listener Builder.start (s.walkRoot r)
  b.finish

end Container

end GraphCodec
