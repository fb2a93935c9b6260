import GraphCodec.Fault

/-!
# Schemas

A schema is an ordered list of composite types with distinct names, and perhaps the name of a
default root. A field declares its type by name; the name is resolved only when it is needed, so a
schema may name types that it does not have. A primitive name always means the primitive kind,
whatever composite types there are.

`Schema.validate` holds what a schema must satisfy on its own. Types that are missing or contain
themselves are no concern of it: they are faults of the walk that meets them.
-/

namespace GraphCodec

/-- A declared field of a composite type. -/
structure FieldDef where
  name : String
  /-- The name of a primitive kind or of a composite type. -/
  typeName : String
  /-- The number of array dimensions, 0 for a scalar. -/
  dims : Nat
  /-- Whether generated code keeps the stored width instead of converting to `double`. -/
  preserve : Bool
  deriving DecidableEq, Repr

/-- Whether a field is an array. -/
def FieldDef.isArray (f : FieldDef) : Bool :=
  0 < f.dims

/-- A composite type: a name and its fields in the order in which they are stored. -/
structure TypeDef where
  name : String
  fields : List FieldDef
  deriving DecidableEq, Repr

namespace TypeDef

/-- The first field with a given name. -/
def field? (t : TypeDef) (name : String) : Option FieldDef :=
  t.fields.find? fun f ↦ f.name == name

/-- The names of the fields. -/
def fieldNames (t : TypeDef) : List String :=
  t.fields.map FieldDef.name

/-- From the reversed characters of a name, those before a double colon. -/
def untilDoubleColon : List Char → List Char
  | ':' :: ':' :: _ => []
  | c :: cs => c :: untilDoubleColon cs
  | [] => []

/-- The part of a qualified name after its last `::`, and in that after its last `.`. -/
def unqualified (name : String) : String :=
  String.ofList ((untilDoubleColon name.toList.reverse).takeWhile (· ≠ '.')).reverse

/-- The name of a type without its qualification. -/
def simpleName (t : TypeDef) : String :=
  unqualified t.name

end TypeDef

/-- Composite types with distinct names, in declaration order. -/
structure Schema where
  /-- The name of the default root type. -/
  root : Option String
  types : List TypeDef
  nodup_names : (types.map TypeDef.name).Nodup

/-- What the declared type of a field refers to. -/
inductive FieldType where
  | primitive (kind : Kind)
  | composite (type : TypeDef)
  | unknown
  deriving DecidableEq, Repr

namespace Schema

/-- The schema without types and without a root. -/
def empty : Schema :=
  ⟨none, [], List.nodup_nil⟩

/-- The type with a given name. -/
def get? (s : Schema) (name : String) : Option TypeDef :=
  s.types.find? fun t ↦ t.name == name

/-- The type with a given name, or the fault that there is none. -/
def require (s : Schema) (name : String) : Except Fault TypeDef :=
  match s.get? name with
  | some t => .ok t
  | none => .error (.schema (.unknownType name))

/-- The default root type. -/
def rootType (s : Schema) : Except Fault TypeDef :=
  match s.root with
  | some name => s.require name
  | none => .error (.schema .noRoot)

/-- The chosen root type: the named one, or the default. -/
def selectRoot (s : Schema) : (name : Option String) → Except Fault TypeDef
  | some name => s.require name
  | none => s.rootType

/-- What a field's declared type refers to. Primitive names come first. -/
def resolve (s : Schema) (f : FieldDef) : FieldType :=
  match Kind.ofName? f.typeName with
  | some k => .primitive k
  | none =>
    match s.get? f.typeName with
    | some t => .composite t
    | none => .unknown

/-! ### Adding types -/

/-- Put a type in the place of the one with its name, or at the end. -/
def insertType (types : List TypeDef) (t : TypeDef) : List TypeDef :=
  if types.any fun u ↦ u.name == t.name then
    types.map fun u ↦ if u.name == t.name then t else u
  else types ++ [t]

theorem nodup_insertType {types : List TypeDef} (h : (types.map TypeDef.name).Nodup)
    (t : TypeDef) : ((insertType types t).map TypeDef.name).Nodup := by
  unfold insertType
  split
  · have hname : (types.map fun u ↦ if u.name == t.name then t else u).map TypeDef.name =
        types.map TypeDef.name := by
      rw [List.map_map]
      refine List.map_congr_left fun u _ ↦ ?_
      by_cases hu : u.name = t.name <;> simp [hu]
    rwa [hname]
  · rename_i hnew
    rw [List.map_append, List.nodup_append]
    refine ⟨h, by simp, ?_⟩
    intro a ha b hb
    obtain ⟨u, hu, rfl⟩ := List.mem_map.1 ha
    obtain rfl : b = t.name := by simpa using hb
    intro heq
    exact hnew (List.any_eq_true.2 ⟨u, hu, by simpa using heq⟩)

/-- Add a type, in the place of an earlier one of the same name if there is one. -/
def add (s : Schema) (t : TypeDef) : Schema :=
  ⟨s.root, insertType s.types t, nodup_insertType s.nodup_names t⟩

/-- Choose the default root. -/
def withRoot (s : Schema) (root : Option String) : Schema :=
  { s with root }

/-! ### Well-formedness -/

/-- Check the fields of the type `owner`, given the names of those before them. -/
def checkFields (owner : String) (seen : List String) : List FieldDef → Except Fault Unit
  | [] => .ok ()
  | f :: fs =>
    if f.name = "" then .error (.schema (.emptyFieldName owner))
    else if f.name ∈ seen then .error (.schema (.duplicateField f.name owner))
    else if maxDimensions < f.dims then
      .error (.schema (.tooManyDimensions owner f.name f.dims))
    else checkFields owner (f.name :: seen) fs

/-- Check one type. -/
def checkType (t : TypeDef) : Except Fault Unit :=
  if t.name = "" then .error (.schema .emptyTypeName)
  else if (Kind.ofName? t.name).isSome then .error (.schema (.primitiveTypeName t.name))
  else checkFields t.name [] t.fields

/-- Check types in order. -/
def checkTypes : List TypeDef → Except Fault Unit
  | [] => .ok ()
  | t :: ts =>
    match checkType t with
    | .ok () => checkTypes ts
    | .error e => .error e

/-- Check that a schema is well formed: no empty name, no composite type with the name of a kind,
distinct fields in each type, no more dimensions than are allowed, and a root that exists. -/
def validate (s : Schema) : Except Fault Unit :=
  match checkTypes s.types with
  | .error e => .error e
  | .ok () =>
    match s.root with
    | none => .ok ()
    | some name =>
      match s.require name with
      | .ok _ => .ok ()
      | .error e => .error e

/-- The schema with the given types in order, which must have distinct names. -/
def ofTypes (s : Schema) : List TypeDef → Except Fault Schema
  | [] => .ok s
  | t :: ts =>
    if (s.get? t.name).isSome then .error (.schema (.duplicateType t.name))
    else (s.add t).ofTypes ts

/-- The well-formed schema with the given root and types. -/
def build (root : Option String) (types : List TypeDef) : Except Fault Schema := do
  let s ← empty.ofTypes types
  let s := s.withRoot root
  s.validate
  return s

/-! ### Lookups -/

theorem mem_of_get?_eq_some {s : Schema} {name : String} {t : TypeDef} (h : s.get? name = some t) :
    t ∈ s.types :=
  List.mem_of_find?_eq_some h

theorem name_of_get?_eq_some {s : Schema} {name : String} {t : TypeDef}
    (h : s.get? name = some t) : t.name = name := by
  simpa using List.find?_some h

/-- A look-up finds the type with the name, which is the only one. -/
theorem get?_eq_some_iff {s : Schema} {name : String} {t : TypeDef} :
    s.get? name = some t ↔ t ∈ s.types ∧ t.name = name := by
  refine ⟨fun h ↦ ⟨mem_of_get?_eq_some h, name_of_get?_eq_some h⟩, ?_⟩
  rintro ⟨hmem, rfl⟩
  have key : ∀ {ts : List TypeDef}, (ts.map TypeDef.name).Nodup → t ∈ ts →
      (ts.find? fun u ↦ u.name == t.name) = some t := by
    intro ts
    induction ts with
    | nil => simp
    | cons u us ih =>
      intro hnd hm
      rw [List.map_cons, List.nodup_cons] at hnd
      rcases List.mem_cons.1 hm with rfl | hm'
      · simp
      · have hne : u.name ≠ t.name := fun h ↦ hnd.1 (h ▸ List.mem_map.2 ⟨t, hm', rfl⟩)
        simp [hne, ih hnd.2 hm']
  exact key s.nodup_names hmem

theorem get?_of_resolve_eq_composite {s : Schema} {f : FieldDef} {t : TypeDef}
    (h : s.resolve f = .composite t) : s.get? f.typeName = some t := by
  unfold resolve at h
  cases hk : Kind.ofName? f.typeName with
  | some k => simp [hk] at h
  | none =>
    cases hg : s.get? f.typeName with
    | some t' => simpa [hk, hg] using h
    | none => simp [hk, hg] at h

end Schema

end GraphCodec
