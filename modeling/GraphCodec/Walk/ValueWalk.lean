import GraphCodec.Schema.Basic
import GraphCodec.Value.Basic
import GraphCodec.Walk.SchemaWalk

/-!
# The walk over a record

The walk visits the fields of a record in the order of its type, whatever the order in the record;
a field that the record does not have is absent, and one that its type does not have is not
visited. Records report the type that they have beside the one that their slot declares, and the
comparison is left to the listener.

An array reports one dimension at a time; the innermost dimension of primitives is reported whole.
What the walk itself checks is the sort of every value: a scalar has to be of its field's kind or
absent, the items of a primitive array likewise, except that only text may be absent there, and a
composite slot holds a record or is empty.
-/

namespace GraphCodec

/-- What the items of an array are. -/
inductive ElementType where
  | primitive (kind : Kind)
  | composite (type : TypeDef)
  deriving DecidableEq, Repr

/-- Whether the innermost items of an array are stored as text. -/
def ElementType.isTextual : ElementType → Bool
  | primitive k => k.isTextual
  | composite _ => false

/-- What a walk over a value reports. A field name is missing for the root. -/
inductive ValueEvent where
  /-- A record in a slot that declares the type `declared` and of type `type`. -/
  | beginRecord (field : Option String) (declared : String) (type : TypeDef)
  | endRecord (field : Option String)
  /-- A dimension of an array with `length` items; `dims` counts it and those within it. -/
  | beginArray (field : String) (element : ElementType) (dims length : Nat)
  | endArray (field : String)
  /-- A scalar, which may be absent. -/
  | primitive (field : String) (kind : Kind) (value : Value)
  /-- The innermost dimension of an array of primitives. -/
  | primitives (field : String) (kind : Kind) (values : List Value)
  /-- A composite slot that is absent or an array without items. -/
  | emptyComposite (field : String) (declared : TypeDef)

namespace Schema

/-- The fault that a value does not fit a field. -/
def misfit (f : FieldDef) (expected : String) (v : Value) : Fault :=
  .typeMismatch f.name expected v.sort

/-- Whether a value can be an item of an array of a primitive kind. -/
def isItemOf (k : Kind) : Value → Bool
  | .null => k.isTextual
  | v => v.matchesKind k

/-- The walk over the innermost dimension of an array of primitives. -/
def walkPrimitives (f : FieldDef) (k : Kind) (items : List Value) : Trace ValueEvent Unit :=
  match items.find? fun v ↦ !isItemOf k v with
  | some v => Trace.fail (misfit f k.name v)
  | none => Trace.emit (.primitives f.name k items)

mutual

/-- The walk over a record with type `t` in a slot of the declared type. -/
def walkRecord (s : Schema) (field : Option String) (declared : String) (t : TypeDef)
    (fields : List (String × Value)) : Trace ValueEvent Unit := do
  Trace.emit (.beginRecord field declared t)
  Trace.sequence <| t.fields.map fun f ↦
    match s.resolve f with
    | .primitive k => walkValue s f (.primitive k) f.dims (Value.fieldOf fields f.name)
    | .composite c => walkValue s f (.composite c) f.dims (Value.fieldOf fields f.name)
    | .unknown => Trace.fail (unsupportedField t f)
  Trace.emit (.endRecord field)
  termination_by sizeOf fields + 1
  decreasing_by
    all_goals
      have := Value.sizeOf_fieldOf_le fields f.name
      omega

/-- The walk over a value in a slot of the field `f` in which `dims` dimensions are left. -/
def walkValue (s : Schema) (f : FieldDef) (element : ElementType) (dims : Nat) (v : Value) :
    Trace ValueEvent Unit :=
  match dims, element with
  | 0, .primitive k =>
    if v.matchesKind k then Trace.emit (.primitive f.name k v)
    else Trace.fail (misfit f k.name v)
  | 0, .composite c =>
    match v with
    | .record typeName fields =>
      match s.get? typeName with
      | some t => walkRecord s (some f.name) c.name t fields
      | none => Trace.fail (.unregisteredType typeName)
    | v =>
      if v.isEmpty then Trace.emit (.emptyComposite f.name c)
      else Trace.fail (misfit f c.name v)
  | dims + 1, element =>
    match v with
    | .null =>
      match dims, element with
      | 0, .primitive k => walkPrimitives f k []
      | dims, element => do
        Trace.emit (.beginArray f.name element (dims + 1) 0)
        Trace.emit (.endArray f.name)
    | .array items =>
      match dims, element with
      | 0, .primitive k => walkPrimitives f k items
      | dims, element => do
        Trace.emit (.beginArray f.name element (dims + 1) items.length)
        Trace.sequence <| items.attach.map fun ⟨item, _h⟩ ↦ walkValue s f element dims item
        Trace.emit (.endArray f.name)
    | v => Trace.fail (misfit f "array" v)
  termination_by sizeOf v
  decreasing_by
    · simp only [Value.record.sizeOf_spec]
      have : 0 < sizeOf typeName := by
        cases typeName
        simp only [String.ofByteArray.sizeOf_spec]
        omega
      omega
    · have := List.sizeOf_lt_of_mem _h
      simp only [Value.array.sizeOf_spec]
      omega

end

/-- The walk over a record of a type of the schema. -/
def walkRoot (s : Schema) (r : Record) : Trace ValueEvent Unit :=
  match s.get? r.typeName with
  | some t => s.walkRecord none t.name t r.fields
  | none => Trace.fail (.unregisteredType r.typeName)

/-! ### The walk over an array -/

section

variable (s : Schema) (f : FieldDef)

/-- The dimensions of an array are rows of primitives or are walked item by item. -/
theorem row_cases (element : ElementType) (dims : Nat) :
    (∃ k, element = .primitive k ∧ dims = 0) ∨ (dims = 0 → ∃ c, element = .composite c) := by
  cases dims with
  | zero =>
    cases element with
    | primitive k => exact .inl ⟨k, rfl, rfl⟩
    | composite c => exact .inr fun _ ↦ ⟨c, rfl⟩
  | succ dims => exact .inr fun h ↦ absurd h (Nat.succ_ne_zero dims)

theorem walkValue_row (k : Kind) (items : List Value) :
    s.walkValue f (.primitive k) 1 (.array items) = walkPrimitives f k items := by
  rw [walkValue.eq_def]
  rfl

theorem walkValue_array {element : ElementType} {dims : Nat}
    (row : dims = 0 → ∃ c, element = .composite c) (items : List Value) :
    s.walkValue f element (dims + 1) (.array items) = (do
      Trace.emit (.beginArray f.name element (dims + 1) items.length)
      Trace.sequence (items.map (s.walkValue f element dims))
      Trace.emit (.endArray f.name)) := by
  have hmap : items.attach.map (fun x ↦ s.walkValue f element dims x.1) =
      items.map (s.walkValue f element dims) := by simp
  rw [← hmap, walkValue.eq_def]
  cases dims with
  | zero =>
    obtain ⟨c, rfl⟩ := row rfl
    rfl
  | succ dims => rfl

/-- An absent array is walked like one without items. -/
theorem walkValue_null (element : ElementType) (dims : Nat) :
    s.walkValue f element (dims + 1) .null = s.walkValue f element (dims + 1) (.array []) := by
  rw [walkValue.eq_def, walkValue.eq_def]
  cases dims with
  | zero => cases element <;> rfl
  | succ dims => rfl

/-- Nothing else is taken for an array. -/
theorem walkValue_misfit (element : ElementType) (dims : Nat) {v : Value} (hnull : v ≠ .null)
    (harray : ∀ items, v ≠ .array items) :
    s.walkValue f element (dims + 1) v = Trace.fail (misfit f "array" v) := by
  rw [walkValue.eq_def]
  cases v with
  | null => exact absurd rfl hnull
  | array items => exact absurd rfl (harray items)
  | _ => rfl

end

end Schema

end GraphCodec
