import GraphCodec.Dictionary.Basic
import GraphCodec.Walk.SchemaWalk

/-!
# The dictionary of a schema

The dictionary of a root type lists the types that it reaches. A listener to the walk over the
types collects the fields of every type that is being walked and registers a type when its walk
ends; hence a type comes after those that its fields name, and the root is the last.
-/

namespace GraphCodec

namespace Dictionary

/-- A dictionary in the making. -/
structure Draft where
  dictionary : Dictionary
  /-- The types being walked with their fields so far, innermost first. -/
  pending : List (String × List FieldEntry)
  deriving Repr

namespace Draft

/-- The draft without types. -/
def empty : Draft :=
  ⟨Dictionary.empty, []⟩

/-- Add a field to the type being walked. -/
def pushField (d : Draft) (f : FieldEntry) : Except Fault Draft :=
  match d.pending with
  | (owner, fields) :: outer => .ok { d with pending := (owner, fields ++ [f]) :: outer }
  | [] => .error (.unbalanced 1 0)

/-- The stored number of dimensions of a field. -/
def checkDims (d : Draft) (name : String) (dims : Nat) : Except Fault Int32 :=
  if dims ≤ maxDimensions then .ok (Int32.ofNat dims)
  else .error (.schema (.tooManyDimensions ((d.pending.head?.map Prod.fst).getD "") name dims))

/-- The tag of a type that has been walked. -/
def compositeTag (d : Draft) (t : TypeDef) : Except Fault Tag :=
  match d.dictionary.tagFor? t.name with
  | some tag => .ok tag
  | none => .error (.unregisteredType t.name)

/-- Add fields to a type in order. -/
def addFields (dictionary : Dictionary) (tag : Tag) (fields : List FieldEntry) :
    Except Fault Dictionary :=
  fields.foldlM (fun d f ↦ d.addField tag f) dictionary

/-- Register the innermost type being walked. -/
def finishType (d : Draft) : Except Fault Draft :=
  match d.pending with
  | (name, fields) :: outer => do
    let (tag, dictionary) ← d.dictionary.register name
    let dictionary ← addFields dictionary tag fields
    return ⟨dictionary, outer⟩
  | [] => .error (.unbalanced 1 0)

/-- Take in an event. -/
def step (event : SchemaEvent) (d : Draft) : Except Fault Draft :=
  match event with
  | .beginType _ t => .ok { d with pending := (t.name, []) :: d.pending }
  | .endType _ => d.finishType
  | .primitive name k _ => d.pushField ⟨name, k.tag, 0⟩
  | .primitiveArray name k dims _ => do
    let dims ← d.checkDims name dims
    d.pushField ⟨name, k.tag, dims⟩
  | .composite name t => do
    let tag ← d.compositeTag t
    d.pushField ⟨name, tag, 0⟩
  | .compositeArray name t dims => do
    let tag ← d.compositeTag t
    let dims ← d.checkDims name dims
    d.pushField ⟨name, tag, dims⟩
  | .unknown owner f => .error (unsupportedField owner f)

/-- The draft as a listener. -/
def listener : Listener SchemaEvent Draft := fun event d ↦
  match step event d with
  | .ok d => .ok () d
  | .error e => .error e d

end Draft

/-- The dictionary of the types that `root` reaches. -/
def ofSchema (s : Schema) (root : TypeDef) : Except Fault Dictionary :=
  match Trace.outcomeFrom Draft.listener Draft.empty (s.walk root) with
  | .error e => .error e
  | .ok (_, d) =>
    match d.pending with
    | [] => .ok d.dictionary
    | pending => .error (.unbalanced 0 pending.length)

end Dictionary

end GraphCodec
