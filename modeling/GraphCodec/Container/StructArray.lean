import GraphCodec.Fault

/-!
# Struct arrays

A struct array is a table: one row for every element, and in every row one value for every field
name. The names keep their order and grow only at the end; a new name gives every other row a
placeholder, so that the rows stay aligned with the names. A name may occur twice among those that
an array is made with, and then only its first place is ever used.
-/

namespace GraphCodec

/-- A table of values by element and field name. -/
structure StructArray (α : Type) where
  names : List String
  /-- For every element its values, in the order of the names. -/
  rows : Array (List α)

namespace StructArray

variable {α : Type}

/-- The number of elements. -/
def size (s : StructArray α) : Nat :=
  s.rows.size

/-- `size` elements that hold `blank` under every name. -/
def withNames (blank : α) (size : Nat) (names : List String) : StructArray α :=
  ⟨names, Array.replicate size (names.map fun _ ↦ blank)⟩

/-- `size` elements without fields. -/
def ofSize (size : Nat) : StructArray α :=
  ⟨[], Array.replicate size []⟩

/-- The place of a field name. -/
def position? (s : StructArray α) (name : String) : Option Nat :=
  s.names.findIdx? fun n ↦ n == name

/-- The value of an element under a name. -/
def get? (s : StructArray α) (name : String) (index : Nat) : Option α := do
  let i ← s.position? name
  let row ← s.rows[index]?
  row[i]?

/-- Set the value of an element of the array under a name. A new name is added to every element,
with `blank` in the others. -/
def put (blank : α) (s : StructArray α) (name : String) (index : Nat) (v : α) : StructArray α :=
  match s.position? name with
  | some i => { s with rows := s.rows.modify index fun row ↦ row.set i v }
  | none =>
    ⟨s.names ++ [name],
      s.rows.mapIdx fun i row ↦ row ++ [if i = index then v else blank]⟩

/-- Set the value of an element under a name. If there is no such element, the array stays as it
is. -/
def set (blank : α) (s : StructArray α) (name : String) (index : Nat) (v : α) :
    StructArray α × Except Fault Unit :=
  if index < s.size then (s.put blank name index v, .ok ())
  else (s, .error (.unbalanced s.size (index + 1)))

/-- The values of the first element with their names. -/
def firstElement (s : StructArray α) : List (String × α) :=
  s.names.zip s.rows.toList.flatten

/-! ### Size -/

@[simp] theorem size_ofSize (n : Nat) : (ofSize n : StructArray α).size = n := by
  simp [ofSize, size]

@[simp] theorem size_withNames (blank : α) (n : Nat) (names : List String) :
    (withNames blank n names).size = n := by
  simp [withNames, size]

@[simp] theorem size_put (blank : α) (s : StructArray α) (name : String) (index : Nat) (v : α) :
    (s.put blank name index v).size = s.size := by
  unfold put
  split <;> simp [size]

@[simp] theorem size_set (blank : α) (s : StructArray α) (name : String) (index : Nat) (v : α) :
    (s.set blank name index v).1.size = s.size := by
  unfold set
  split <;> simp

end StructArray

end GraphCodec
