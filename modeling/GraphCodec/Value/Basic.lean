import GraphCodec.Fault
import GraphCodec.Number.Binary

/-!
# Object graphs

A value is a primitive, an array, a record or absent. Floating-point numbers are their bits. A
record names its type and has a list of fields; a look-up by name finds the first, so later fields
of the same name are hidden but kept.

`Value.same` is the equality of graphs as data: it compares field lists in order and numbers as
numbers, so a NaN differs from itself and the two zeros are the same.
-/

namespace GraphCodec

/-- A node of an object graph. -/
inductive Value where
  | boolean (b : Bool)
  | byte (v : Int8)
  | short (v : Int16)
  | int (v : Int32)
  | long (v : Int64)
  /-- The bits of a `float`. -/
  | float (bits : UInt32)
  /-- The bits of a `double`. -/
  | double (bits : UInt64)
  /-- A character of one byte. -/
  | char (c : UInt8)
  | string (s : String)
  | date (d : Instant)
  /-- A constant of an enumeration, by name. -/
  | enum (name : String)
  /-- An absent value. -/
  | null
  | array (items : List Value)
  | record (typeName : String) (fields : List (String × Value))

/-- A composite value: the name of its type and its fields. -/
structure Record where
  typeName : String
  fields : List (String × Value)

instance : Inhabited Value := ⟨.null⟩

/-- A record as a node. -/
def Record.toValue (r : Record) : Value :=
  .record r.typeName r.fields

namespace Value

/-- The name of the sort of a value. -/
def sort : Value → String
  | boolean _ => "boolean"
  | byte _ => "byte"
  | short _ => "short"
  | int _ => "int"
  | long _ => "long"
  | float _ => "float"
  | double _ => "double"
  | char _ => "char"
  | string _ => "string"
  | date _ => "date"
  | enum _ => "enum"
  | null => "null"
  | array _ => "array"
  | record .. => "record"

/-- Whether a value can stand for a scalar of a kind. An absent one can stand for any. -/
def matchesKind : Value → Kind → Bool
  | null, _ => true
  | boolean _, .boolean => true
  | byte _, .byte => true
  | short _, .short => true
  | int _, .int => true
  | long _, .long => true
  | float _, .float => true
  | double _, .double => true
  | char _, .char => true
  | string _, .string => true
  | date _, .date => true
  | enum _, .enum => true
  | _, _ => false

/-- The text of a value of a textual kind; an absent one has the empty text. -/
def text? : Value → Option String
  | string s => some s
  | enum s => some s
  | date d => some (Rfc3339.format d)
  | null => some ""
  | _ => none

/-- Whether a value is absent or an array without items. -/
def isEmpty : Value → Bool
  | null => true
  | array items => items.isEmpty
  | _ => false

/-- The value of the first field with a given name. -/
def lookup? (fields : List (String × Value)) (name : String) : Option Value :=
  (fields.find? fun f ↦ f.1 == name).map Prod.snd

/-- The value of a field; a field that is not there is absent. -/
def fieldOf (fields : List (String × Value)) (name : String) : Value :=
  (lookup? fields name).getD null

/-- A value is never larger than the field list in which it is looked up. -/
theorem sizeOf_fieldOf_le (fields : List (String × Value)) (name : String) :
    sizeOf (fieldOf fields name) ≤ sizeOf fields := by
  unfold fieldOf lookup?
  cases h : fields.find? fun f ↦ f.1 == name with
  | none =>
    cases fields with
    | nil => simp
    | cons f fs =>
      simp
      omega
  | some f =>
    have hmem := List.sizeOf_lt_of_mem (List.mem_of_find?_eq_some h)
    have : sizeOf f = 1 + sizeOf f.1 + sizeOf f.2 := by cases f; rfl
    simp only [Option.map_some, Option.getD_some]
    omega

/-! ### Equality as data -/

mutual

/-- Equality of graphs, with numbers compared as numbers. -/
def same : Value → Value → Bool
  | boolean a, boolean b => a == b
  | byte a, byte b => a == b
  | short a, short b => a == b
  | int a, int b => a == b
  | long a, long b => a == b
  | float a, float b => Binary.single.sameNumber a.toNat b.toNat
  | double a, double b => Binary.double.sameNumber a.toNat b.toNat
  | char a, char b => a == b
  | string a, string b => a == b
  | date a, date b => a == b
  | enum a, enum b => a == b
  | null, null => true
  | array as, array bs => sameItems as bs
  | record t as, record u bs => t == u && sameFields as bs
  | _, _ => false

/-- Equality of arrays, item by item. -/
def sameItems : List Value → List Value → Bool
  | [], [] => true
  | a :: as, b :: bs => same a b && sameItems as bs
  | _, _ => false

/-- Equality of field lists, in order. -/
def sameFields : List (String × Value) → List (String × Value) → Bool
  | [], [] => true
  | (n, a) :: as, (m, b) :: bs => n == m && same a b && sameFields as bs
  | _, _ => false

end

/-! ### Size -/

theorem sizeOf_snd_lt_of_mem {fields : List (String × Value)} {f : String × Value}
    (h : f ∈ fields) : sizeOf f.2 < sizeOf fields := by
  have hmem := List.sizeOf_lt_of_mem h
  have : sizeOf f = 1 + sizeOf f.1 + sizeOf f.2 := by cases f; rfl
  omega

-- The empty sum is the literal zero, whatever structure `Nat` has where this is read.
attribute [local instance (high)] Zero.ofOfNat0

/-- The number of nodes of a graph: every record, array, scalar and absent value counts one. -/
def nodeCount : Value → Nat
  | array items => 1 + (items.attach.map fun ⟨v, _h⟩ ↦ nodeCount v).sum
  | record _ fields => 1 + (fields.attach.map fun ⟨f, _h⟩ ↦ nodeCount f.2).sum
  | _ => 1
  termination_by v => sizeOf v
  decreasing_by
    · have := List.sizeOf_lt_of_mem _h
      simp only [array.sizeOf_spec]
      omega
    · have := sizeOf_snd_lt_of_mem _h
      simp only [record.sizeOf_spec]
      omega

end Value

namespace Record

/-- The value of the first field with a given name. -/
def get? (r : Record) (name : String) : Option Value :=
  Value.lookup? r.fields name

/-- Set the value of a field: the first of its name, or a new one at the end. -/
def setField : (fields : List (String × Value)) → String → Value → List (String × Value)
  | [], name, v => [(name, v)]
  | f :: fs, name, v => if f.1 = name then (name, v) :: fs else f :: setField fs name v

/-- Set the value of a field: the first of its name, or a new one at the end. -/
def set (r : Record) (name : String) (v : Value) : Record :=
  { r with fields := setField r.fields name v }

end Record

end GraphCodec
