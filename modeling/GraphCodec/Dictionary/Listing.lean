import GraphCodec.Dictionary.Basic
import GraphCodec.Json.Printer

/-!
# Showing dictionaries

A dictionary is shown to people as a listing, one line for every type and one for every field, and
to programs as a document.
-/

namespace GraphCodec

/-! ### Columns -/

/-- A text moved to the right edge of a column. -/
def rightAligned (width : Nat) (s : String) : String :=
  "".pushn ' ' (width - s.length) ++ s

/-- A text at the left edge of a column. -/
def leftAligned (width : Nat) (s : String) : String :=
  s.pushn ' ' (width - s.length)

namespace Dictionary

/-! ### The listing -/

/-- The line of a field. -/
def fieldLine (d : Dictionary) (f : FieldEntry) : String :=
  let brackets := String.join (List.replicate f.dims.toNatClampNeg "[]")
  s!"        {leftAligned 20 f.name} {d.typeName f.tag}{brackets} (tag {f.tag.toInt})\n"

/-- The lines of a type and its fields. -/
def typeLines (d : Dictionary) (t : TypeEntry) : String :=
  let fields := String.join (t.fields.map d.fieldLine)
  s!"{rightAligned 4 (Json.integerText t.tag.toInt)}  {t.name} ({t.fields.length} fields)\n{fields}"

/-- The listing of a dictionary with the given root. -/
def listing (d : Dictionary) (root : String) : String :=
  s!"Type Dictionary (root: {root})\n========================\n" ++
    String.join (d.types.toList.map d.typeLines)

/-! ### The document -/

/-- The document of a tag. -/
def tagJson (tag : Tag) : Json :=
  .integer tag.toInt

/-- The document of a field. -/
def fieldJson (f : FieldEntry) : Json :=
  .object [("name", .string f.name), ("type_tag", tagJson f.tag),
    ("array_dimensions", .integer f.dims.toInt)]

/-- The document of a type. -/
def typeJson (t : TypeEntry) : Json :=
  .object [("type_tag", tagJson t.tag), ("name", .string t.name),
    ("fields", .array (t.fields.map fieldJson))]

/-- The document of a dictionary. -/
def toJson (d : Dictionary) : Json :=
  .object [("types", .array (d.types.toList.map typeJson))]

end Dictionary

end GraphCodec
