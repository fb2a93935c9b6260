import GraphCodec.Schema.Basic
import GraphCodec.Toml.Parser

/-!
# Schemas as TOML documents

A schema document names the root and lists the types with their fields. Unknown keys mean nothing,
although the numbers under them have to be in range; a key that is missing, unless it is optional,
or whose value has the wrong sort, makes the document unfit. A type or field is usually a table,
but may as well be an array of its values in the order of their declaration.
-/

namespace GraphCodec

namespace Schema

/-- The value of a part of a type or field: under its key in a table, or at its place in an
array. The outer option is empty when the value is neither. -/
def part? (key : String) (place : Nat) : Toml → Option (Option Toml)
  | .array items => some items[place]?
  | .table entries => some (Toml.get? key (.table entries))
  | _ => none

/-- A part that has to be there. -/
def needed? {α : Type} (read : Toml → Option α) (key : String) (place : Nat) (t : Toml) :
    Option α :=
  match part? key place t with
  | some (some v) => read v
  | _ => none

/-- A part that may be missing. -/
def optional? {α : Type} (read : Toml → Option α) (default : α) (key : String) (place : Nat)
    (t : Toml) : Option α :=
  match part? key place t with
  | some (some v) => read v
  | some none => some default
  | none => none

/-- Whether the values of a table under other keys than the given ones can be held. An array has no
other keys; items after the last place are not looked at. -/
def othersAreHeld (keys : List String) : Toml → Bool
  | .table entries => entries.all fun e ↦ keys.contains e.1 || e.2.isHeld
  | _ => true

/-- A number of dimensions, which is below `2 ^ 32`. -/
def dims? (t : Toml) : Option Nat :=
  t.asInteger?.bind fun v ↦ if 0 ≤ v ∧ v < 2 ^ 32 then some v.toNat else none

/-- The items of an array, each read as a part of the schema. -/
def list? {α : Type} (read : Toml → Option α) (t : Toml) : Option (List α) :=
  t.asArray?.bind fun items ↦ items.mapM read

/-- The field that a part of the document describes. -/
def field? (t : Toml) : Option FieldDef := do
  let name ← needed? Toml.asString? "name" 0 t
  let typeName ← needed? Toml.asString? "type" 1 t
  let dims ← optional? dims? 0 "dims" 2 t
  let preserve ← optional? Toml.asBoolean? false "preserve_precision" 3 t
  guard (othersAreHeld ["name", "type", "dims", "preserve_precision"] t)
  return { name, typeName, dims, preserve }

/-- The type that a part of the document describes. -/
def type? (t : Toml) : Option TypeDef := do
  let name ← needed? Toml.asString? "name" 0 t
  let fields ← optional? (list? field?) [] "fields" 1 t
  guard (othersAreHeld ["name", "fields"] t)
  return { name, fields }

/-- The root and the types that a document describes. -/
def parts? (t : Toml) : Option (Option String × List TypeDef) := do
  let root ← optional? (fun v ↦ v.asString?.map some) none "root" 0 t
  let types ← optional? (list? type?) [] "types" 1 t
  guard (othersAreHeld ["root", "types"] t)
  return (root, types)

/-- The well-formed schema with the given text. -/
def ofText (text : String) : Except Fault Schema :=
  match Toml.parse? text with
  | none => .error (.schema (.document "the text is not a TOML document"))
  | some t =>
    match parts? t with
    | none => .error (.schema (.document "the document does not describe a schema"))
    | some (root, types) => build root types

end Schema

end GraphCodec
