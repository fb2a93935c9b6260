/-!
# Primitive kinds

The eleven kinds of values that are not composite. Each has a name, which schemas use, and a type
tag, which files use and which determines the kind (`ofTag?_eq_some_iff`). Eight kinds have a fixed
stored width and the other three are stored as text with a length in front.
-/

namespace GraphCodec

/-- A kind of primitive value. -/
inductive Kind where
  | boolean
  | byte
  | short
  | int
  | long
  | float
  | double
  | string
  | char
  | date
  | enum
  deriving DecidableEq, Repr

/-- The tag of a type within one file: a reserved one for each kind, and numbers from
`firstCompositeTag` on for the composite types. -/
abbrev Tag := Int32

/-- The first tag that a composite type may have. -/
def firstCompositeTag : Tag := 12

namespace Kind

/-- All kinds, in the order of their tags. -/
def all : List Kind :=
  [.boolean, .byte, .short, .int, .long, .float, .double, .string, .char, .date, .enum]

/-- The reserved tag of a kind. -/
def tag : Kind → Tag
  | .boolean => 1
  | .byte => 2
  | .short => 3
  | .int => 4
  | .long => 5
  | .float => 6
  | .double => 7
  | .string => 8
  | .char => 9
  | .date => 10
  | .enum => 11

/-- The name of a kind in schemas. -/
def name : Kind → String
  | .boolean => "boolean"
  | .byte => "byte"
  | .short => "short"
  | .int => "int"
  | .long => "long"
  | .float => "float"
  | .double => "double"
  | .string => "string"
  | .char => "char"
  | .date => "date"
  | .enum => "enum"

/-- The kind with a given name. -/
def ofName? (name : String) : Option Kind :=
  all.find? fun k ↦ k.name == name

/-- The kind with a given tag. -/
def ofTag? (tag : Tag) : Option Kind :=
  all.find? fun k ↦ k.tag == tag

/-- The stored size of a scalar, or `none` for the kinds that are stored as text. -/
def width? : Kind → Option Nat
  | .boolean | .byte | .char => some 1
  | .short => some 2
  | .int | .float => some 4
  | .long | .double => some 8
  | .string | .date | .enum => none

/-- Whether a kind is stored as text with its length in front. -/
def isTextual (k : Kind) : Bool :=
  k.width?.isNone

/-- The least number of bytes in which a value of a kind is stored: its width, or the four bytes
of the length of an empty text. -/
def minWidth (k : Kind) : Nat :=
  k.width?.getD 4

/-- Different kinds have different tags. -/
theorem ofTag?_eq_some_iff {t : Tag} {k : Kind} : ofTag? t = some k ↔ k.tag = t := by
  constructor
  · intro h
    simpa using List.find?_some h
  · rintro rfl
    cases k <;> decide

@[simp] theorem ofTag?_tag (k : Kind) : ofTag? k.tag = some k :=
  ofTag?_eq_some_iff.2 rfl

end Kind

/-- Whether a tag is reserved for a kind. -/
def Tag.isPrimitive (t : Tag) : Bool :=
  1 ≤ t && t < firstCompositeTag

end GraphCodec
