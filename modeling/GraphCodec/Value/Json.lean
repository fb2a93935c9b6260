import GraphCodec.Json.Basic
import GraphCodec.Schema.Basic
import GraphCodec.Value.Basic

/-!
# Object graphs and JSON documents

`Value.toJson` writes a graph as a document and `Record.ofJson` reads a document as a record of a
type of a schema. Reading follows the fields of the type: a missing key is an absent value, and
keys that are not fields mean nothing. The key `$type` of an object names its type and overrides
the one that the schema expects, so that a document can describe a graph that does not fit; a name
that the schema does not know changes the name of the record and not its fields.
-/

namespace GraphCodec

/-- The key under which an object names its own type. -/
def typeKey : String := "$type"

namespace Value

/-- The document of a value: `null` for what is absent or not finite, text for dates,
characters and constants. -/
def toJson : Value → Json
  | boolean b => .bool b
  | byte v => .integer v.toInt
  | short v => .integer v.toInt
  | int v => .integer v.toInt
  | long v => .integer v.toInt
  | float bits => Json.ofDouble (Binary.widen bits)
  | double bits => Json.ofDouble bits
  | char c => .string (String.singleton (Char.ofNat c.toNat))
  | string s => .string s
  | enum s => .string s
  | date d => .string (Rfc3339.format d)
  | null => .null
  | array items => .array (items.attach.map fun ⟨v, _h⟩ ↦ toJson v)
  | record _ fields => Json.ofEntries (fields.attach.map fun ⟨f, _h⟩ ↦ (f.1, toJson f.2))
  termination_by v => sizeOf v
  decreasing_by
    · have := List.sizeOf_lt_of_mem _h
      simp only [array.sizeOf_spec]
      omega
    · have := sizeOf_snd_lt_of_mem _h
      simp only [record.sizeOf_spec]
      omega

/-- The fault that a document does not fit a field. -/
def misfit (f : FieldDef) (expected : String) (json : Json) : Fault :=
  .typeMismatch f.name expected json.sort

/-- The integer of a document, which has to lie from `low` to `high`. -/
def integerOf (f : FieldDef) (json : Json) (low high : Int) : Except Fault Int :=
  match json.asInt? with
  | some v => if low ≤ v ∧ v ≤ high then .ok v else .error (misfit f f.typeName json)
  | none => .error (misfit f f.typeName json)

/-- The text of a document. -/
def textOf (f : FieldDef) (expected : String) (json : Json) : Except Fault String :=
  match json.asString? with
  | some s => .ok s
  | none => .error (misfit f expected json)

/-- The `double` of a document. -/
def doubleOf (f : FieldDef) (expected : String) (json : Json) : Except Fault UInt64 :=
  match json.asDouble? with
  | some bits => .ok bits
  | none => .error (misfit f expected json)

/-- The instant of a stored date text. -/
def instantOf (text : String) : Except Fault Instant :=
  match Rfc3339.parse text with
  | .ok d => .ok d
  | .error e => .error (.data (.invalidDate text e))

/-- The value of a primitive kind that a document describes. -/
def primitiveOfJson (f : FieldDef) (json : Json) : Kind → Except Fault Value
  | .boolean =>
    match json with
    | .bool b => .ok (boolean b)
    | _ => .error (misfit f "boolean" json)
  | .byte => (integerOf f json (-2 ^ 7) (2 ^ 7 - 1)).map fun v ↦ byte (.ofInt v)
  | .short => (integerOf f json (-2 ^ 15) (2 ^ 15 - 1)).map fun v ↦ short (.ofInt v)
  | .int => (integerOf f json (-2 ^ 31) (2 ^ 31 - 1)).map fun v ↦ int (.ofInt v)
  | .long => (integerOf f json (-2 ^ 63) (2 ^ 63 - 1)).map fun v ↦ long (.ofInt v)
  | .float => (doubleOf f "float" json).map fun bits ↦ float (Binary.narrow bits)
  | .double => (doubleOf f "double" json).map double
  | .char => do
    let s ← textOf f "char" json
    match Utf8.bytes s with
    | [b] => .ok (char b)
    | _ => .error (misfit f "single-byte char" json)
  | .string => (textOf f "string" json).map string
  | .date => do
    let s ← textOf f "date" json
    (instantOf s).map date
  | .enum => (textOf f "enum" json).map enum

/-- The type name that an object gives itself, or else the one that is expected. -/
def ownTypeName (expected : String) (entries : List (String × Json)) : String :=
  ((Json.entry? entries typeKey).bind Json.asString?).getD expected

mutual

/-- The record of type `t` that a document describes. -/
def recordOfJson (s : Schema) (t : TypeDef) (json : Json) : Except Fault Record :=
  match json with
  | .object entries => do
    let typeName := ownTypeName t.name entries
    let fields ← ((s.get? typeName).getD t).fields.mapM fun f ↦
      match _h : Json.entry? entries f.name with
      | some v => (ofJson s f f.dims v).map fun v ↦ (f.name, v)
      | none => .ok (f.name, null)
    return ⟨typeName, fields⟩
  | json => .error (.typeMismatch t.name "object" json.sort)
  termination_by (sizeOf json, 0)
  decreasing_by
    have := Json.sizeOf_lt_of_entry?_eq_some _h
    apply Prod.Lex.left
    simp only [Json.object.sizeOf_spec]
    omega

/-- The value of the field `f`, of which `dims` dimensions are left, that a document describes. -/
def ofJson (s : Schema) (f : FieldDef) (dims : Nat) (json : Json) : Except Fault Value :=
  match dims, json with
  | _, .null => .ok null
  | dims + 1, .array items =>
    (items.attach.mapM fun (v : { v // v ∈ items }) ↦ ofJson s f dims v.1).map array
  | _ + 1, json => .error (misfit f "array" json)
  | 0, json =>
    match s.resolve f with
    | .primitive k => primitiveOfJson f json k
    | .composite t => (recordOfJson s t json).map Record.toValue
    | .unknown => .error (.unsupportedType f.name f.typeName)
  termination_by (sizeOf json, 1)
  decreasing_by
    · have := List.sizeOf_lt_of_mem v.2
      apply Prod.Lex.left
      simp only [Json.array.sizeOf_spec]
      omega
    · apply Prod.Lex.right
      decide

end

end Value

namespace Record

/-- The document of a record. -/
def toJson (r : Record) : Json :=
  r.toValue.toJson

/-- The record of type `t` that a document describes. -/
def ofJson (s : Schema) (t : TypeDef) (json : Json) : Except Fault Record :=
  Value.recordOfJson s t json

end Record

end GraphCodec
