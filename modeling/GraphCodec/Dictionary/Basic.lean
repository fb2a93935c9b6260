import GraphCodec.Fault

/-!
# Type dictionaries

A dictionary lists the composite types of one file, each with its tag, its name and its fields.
Types are found by name or by tag. New types get the tag after the greatest in use; a section from
elsewhere may use the greatest tag that there is, and then there can be no new types.

A look-up by tag first tries the place that the tag has in a dictionary whose tags are numbered
without gaps, and searches the list only when another type stands there; `Dictionary.scan?` is the
plain search.
-/

namespace GraphCodec

/-- A field of a type in a dictionary. -/
structure FieldEntry where
  name : String
  tag : Tag
  /-- The number of array dimensions, 0 for a scalar. -/
  dims : Int32
  deriving DecidableEq, Repr

/-- A composite type in a dictionary. -/
structure TypeEntry where
  tag : Tag
  name : String
  fields : List FieldEntry
  deriving DecidableEq, Repr

/-- The first field with a given name. -/
def TypeEntry.field? (t : TypeEntry) (name : String) : Option FieldEntry :=
  t.fields.find? fun f ↦ f.name == name

/-- The composite types of one file, in the order in which they are stored. -/
structure Dictionary where
  types : Array TypeEntry
  /-- The greatest tag in use; the next type gets the one after it. -/
  lastTag : Tag
  deriving DecidableEq, Repr

namespace Dictionary

/-- The dictionary without types. -/
def empty : Dictionary :=
  ⟨#[], firstCompositeTag - 1⟩

/-- The tag of the type with a given name. -/
def tagFor? (d : Dictionary) (name : String) : Option Tag :=
  (d.types.find? fun t ↦ t.name == name).map TypeEntry.tag

/-- The first type with a given tag. -/
def scan? (d : Dictionary) (tag : Tag) : Option TypeEntry :=
  d.types.find? fun t ↦ t.tag == tag

/-- The place of the type with a given tag when tags are numbered without gaps. -/
def denseIndex? (tag : Tag) : Option Nat :=
  if firstCompositeTag ≤ tag then some (tag - firstCompositeTag).toNatClampNeg else none

/-- The type with a given tag. -/
def descriptor? (d : Dictionary) (tag : Tag) : Option TypeEntry :=
  match (denseIndex? tag).bind fun i ↦ d.types[i]? with
  | some t => if t.tag = tag then some t else d.scan? tag
  | none => d.scan? tag

/-- The name that a tag stands for. -/
def typeName (d : Dictionary) (tag : Tag) : String :=
  match Kind.ofTag? tag with
  | some k => k.name
  | none =>
    match d.descriptor? tag with
    | some t => t.name
    | none => s!"<tag {tag.toInt}>"

/-- Register a type by name; a type that is known already keeps its tag. After the greatest tag
there is none for another type. -/
def register (d : Dictionary) (name : String) : Except Fault (Tag × Dictionary) :=
  match d.tagFor? name with
  | some tag => .ok (tag, d)
  | none =>
    if d.lastTag = Int32.maxValue then .error .overflow
    else
      let tag := d.lastTag + 1
      .ok (tag, { types := d.types.push ⟨tag, name, []⟩, lastTag := tag })

/-- Add a field to the first type with a given tag. -/
def addField (d : Dictionary) (tag : Tag) (f : FieldEntry) : Except Fault Dictionary :=
  match d.types.findIdx? fun t ↦ t.tag == tag with
  | some i =>
    .ok { d with types := d.types.modify i fun t ↦ { t with fields := t.fields ++ [f] } }
  | none => .error (.unregisteredType s!"tag {tag.toInt}")

/-- The reserved tag of the kind with a given name. -/
def primitiveTag (name : String) : Except Fault Tag :=
  match Kind.ofName? name with
  | some k => .ok k.tag
  | none => .error (.unknownPrimitive name)

end Dictionary

end GraphCodec
