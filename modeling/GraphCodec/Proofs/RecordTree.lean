import GraphCodec.Container.Builder
import GraphCodec.Proofs.SchemaTypes

/-!
# The tree of the value in a slot

What the container tree of a record is, said by recursion over the record and not by the walk
(`Schema.tree`): a record is a struct with the fields of its type in order, an array of records a
struct array with one element for each of them, an outer dimension of an array a struct array whose
elements hold the inner one under a name of its own, or a row of cells if its items are text. What
is absent or has no items is always `Tree.empty`.

A record has a tree if every slot that is met holds what it demands; other than in the stored form,
a record may be absent (`Schema.Exports`).
-/

namespace GraphCodec

/-! ### Primitives -/

namespace Value

/-- The `double` of a number or truth value. -/
def toDouble : Value → UInt64
  | boolean b => Binary.ofInt (if b then 1 else 0)
  | byte v => Binary.ofInt v.toInt
  | short v => Binary.ofInt v.toInt
  | int v => Binary.ofInt v.toInt
  | long v => Binary.ofInt v.toInt
  | float bits => Binary.widen bits
  | double bits => bits
  | _ => 0

/-- The bit pattern of a byte. -/
def toUInt8 : Value → UInt8
  | byte v => v.toUInt8
  | _ => 0

/-- The character of a character of one byte. -/
def toChar : Value → Char
  | char c => Tree.charOfByte c
  | _ => 'A'

end Value

namespace Tree

/-- The tree of a scalar: a row of characters for text and characters, and a matrix of one double
for everything else. -/
def leaf : Value → Tree
  | .null => empty
  | .char c => char (String.singleton (charOfByte c))
  | v =>
    match v.text? with
    | some text => char text
    | none => scalar v.toDouble

/-- The tree of an array of primitives that has items. -/
def ofItems (k : Kind) (vs : List Value) : Tree :=
  match k with
  | .string | .date | .enum => cell (vs.map leaf)
  | .char => char (String.ofList (vs.map Value.toChar))
  | .byte => uint8 vs.length 1 (vs.map Value.toUInt8)
  | _ => column (vs.map Value.toDouble)

/-- A scalar of the right kind has a tree, and it is the leaf. -/
theorem ofScalar_eq_leaf (field : String) {k : Kind} {v : Value} (h : v.matchesKind k = true) :
    ofScalar field k v = .ok (leaf v) := by
  cases v <;> cases k <;> first | rfl | cases h

/-! Every item of a kind is taken by the reader of the items of its kind. -/

section

variable (field : String) {k : Kind} {v : Value} (h : Schema.isItemOf k v = true)
include h

/-- A number that is an item of its kind is not refused. -/
theorem numeric_of_isItemOf (htext : k.isTextual = false) (hchar : k ≠ .char) :
    numeric field k v = .ok v.toDouble := by
  cases v <;> cases k <;>
    first | rfl | (cases h; done) | (cases htext; done) | exact absurd rfl hchar

theorem textItem_of_isItemOf (htext : k.isTextual = true) :
    textItem field k v = .ok (leaf v) := by
  cases v <;> cases k <;> first | rfl | (cases h; done) | cases htext

end

/-- A character has one byte if it is an item. -/
theorem charItem_of_isItemOf (field : String) {v : Value} (h : Schema.isItemOf .char v = true) :
    charItem field .char v = .ok v.toChar := by
  cases v <;> first | rfl | cases h

theorem byteItem_of_isItemOf (field : String) {v : Value} (h : Schema.isItemOf .byte v = true) :
    byteItem field .byte v = .ok v.toUInt8 := by
  cases v <;> first | rfl | cases h

/-- **Items of a kind** always have the tree of their array. -/
theorem ofPrimitives_eq_ofItems (field : String) {k : Kind} {vs : List Value} (hne : vs ≠ [])
    (h : ∀ v ∈ vs, Schema.isItemOf k v = true) :
    ofPrimitives field k vs = .ok (ofItems k vs) := by
  have htext : k.isTextual = true → vs.mapM (textItem field k) = .ok (vs.map leaf) :=
    fun hk ↦ mapM_eq_ok_map fun v hv ↦ textItem_of_isItemOf field (h v hv) hk
  have hnumeric : k.isTextual = false → k ≠ .char →
      vs.mapM (numeric field k) = .ok (vs.map Value.toDouble) :=
    fun hk hchar ↦ mapM_eq_ok_map fun v hv ↦ numeric_of_isItemOf field (h v hv) hk hchar
  unfold ofPrimitives
  rw [if_neg (by rwa [List.isEmpty_iff])]
  cases k with
  | string | date | enum =>
    show Except.map cell (vs.mapM (textItem field _)) = _
    rw [htext rfl]
    rfl
  | char =>
    show Except.map _ (vs.mapM (charItem field .char)) = _
    rw [mapM_eq_ok_map fun v hv ↦ charItem_of_isItemOf field (h v hv)]
    rfl
  | byte =>
    show Except.map (fun bs ↦ uint8 bs.length 1 bs) (vs.mapM (byteItem field .byte)) = _
    rw [mapM_eq_ok_map fun v hv ↦ byteItem_of_isItemOf field (h v hv)]
    show Except.ok (uint8 (vs.map Value.toUInt8).length 1 _) = _
    rw [List.length_map]
    rfl
  | _ =>
    show Except.map column (vs.mapM (numeric field _)) = _
    rw [hnumeric rfl (by decide)]
    rfl

end Tree

/-! ### The recursion -/

/-- Whether the innermost items of a slot are stored as text. -/
def Slot.isTextual : Slot → Bool
  | primitive k _ => k.isTextual
  | record _ => false
  | array item => item.isTextual

/-- Dimensions around text are text. -/
theorem Slot.isTextual_ofElement (element : ElementType) (dims : Nat) (inRecord : Bool) :
    (ofElement element dims inRecord).isTextual = element.isTextual := by
  induction dims generalizing inRecord with
  | zero => cases element <;> rfl
  | succ dims ih => exact ih false

/-- The values of an absent record of a type. -/
def TypeDef.blanks (t : TypeDef) : List Tree :=
  t.fieldNames.map fun _ ↦ Tree.empty

@[simp] theorem TypeDef.length_fieldNames (t : TypeDef) : t.fieldNames.length = t.fields.length :=
  List.length_map _

@[simp] theorem TypeDef.length_blanks (t : TypeDef) : t.blanks.length = t.fields.length := by
  rw [blanks, List.length_map, length_fieldNames]

namespace Schema

mutual

/-- The trees of the fields of a record, in the order of its type. -/
def row (s : Schema) (t : TypeDef) (v : Value) : List Tree :=
  match v with
  | .record _ fields => t.fields.map fun f ↦
    match s.slot? f with
    | some inner => s.tree inner (Value.fieldOf fields f.name)
    | none => Tree.empty
  | _ => t.blanks
  termination_by (sizeOf v, 0)
  decreasing_by
    have := Value.sizeOf_fieldOf_le fields f.name
    apply Prod.Lex.left
    simp only [Value.record.sizeOf_spec]
    omega

/-- The tree of the value in a slot. -/
def tree (s : Schema) (slot : Slot) (v : Value) : Tree :=
  match slot, v with
  | .primitive _ _, v => Tree.leaf v
  | .record t, .record typeName fields =>
    .struct ⟨t.fieldNames, #[s.row t (.record typeName fields)]⟩
  | .array _, .array [] => Tree.empty
  | .array (.primitive k _), .array items => Tree.ofItems k items
  | .array (.record t), .array items =>
    .struct ⟨t.fieldNames, (items.attach.map fun ⟨v, _h⟩ ↦ s.row t v).toArray⟩
  | .array (.array item), .array items =>
    let trees := items.attach.map fun ⟨v, _h⟩ ↦ s.tree (.array item) v
    if item.isTextual then .cell trees
    else .struct ⟨[Container.innerField], (trees.map fun t ↦ [t]).toArray⟩
  | _, _ => Tree.empty
  termination_by (sizeOf v, 1)
  decreasing_by
    · apply Prod.Lex.right
      decide
    all_goals
      have := List.sizeOf_lt_of_mem _h
      apply Prod.Lex.left
      simp only [Value.array.sizeOf_spec]
      omega

end

section

variable (s : Schema)

/-- The row of a record, field by field. A field without a known type has the placeholder. -/
theorem row_record (t : TypeDef) (typeName : String) (fields : List (String × Value)) :
    s.row t (.record typeName fields) = t.fields.map fun f ↦
      match s.slot? f with
      | some inner => s.tree inner (Value.fieldOf fields f.name)
      | none => Tree.empty := by
  rw [row]

/-- What is no record has the row of an absent one. -/
theorem row_absent (t : TypeDef) {v : Value} (h : ∀ typeName fields, v ≠ .record typeName fields) :
    s.row t v = t.blanks := by
  rw [row]
  exact h

/-- Rows are as long as the type has fields, so elements of one array are aligned. -/
@[simp] theorem length_row (t : TypeDef) (v : Value) : (s.row t v).length = t.fields.length := by
  rw [row.eq_def]
  split
  · rw [List.length_map]
  · exact t.length_blanks

@[simp] theorem tree_primitive (k : Kind) (inRecord : Bool) (v : Value) :
    s.tree (.primitive k inRecord) v = Tree.leaf v := by
  rw [tree]

/-- The tree of a record is a struct with its row. -/
theorem tree_record (t : TypeDef) (typeName : String) (fields : List (String × Value)) :
    s.tree (.record t) (.record typeName fields) =
      .struct ⟨t.fieldNames, #[s.row t (.record typeName fields)]⟩ := by
  rw [tree]

/-- An absent record has the placeholder. -/
theorem tree_record_absent (t : TypeDef) {v : Value}
    (h : ∀ typeName fields, v ≠ .record typeName fields) : s.tree (.record t) v = Tree.empty := by
  cases v with
  | record typeName fields => exact absurd rfl (h typeName fields)
  | _ => rw [tree.eq_def]

/-- So has an absent array. -/
theorem tree_array_absent (item : Slot) {v : Value} (h : ∀ items, v ≠ .array items) :
    s.tree (.array item) v = Tree.empty := by
  cases v with
  | array items => exact absurd rfl (h items)
  | _ => cases item <;> rw [tree.eq_def]

@[simp] theorem tree_array_nil (item : Slot) : s.tree (.array item) (.array []) = Tree.empty := by
  cases item <;> rw [tree.eq_def]

variable {items : List Value} (hne : items ≠ [])
include hne

theorem tree_array_primitive (k : Kind) (inRecord : Bool) :
    s.tree (.array (.primitive k inRecord)) (.array items) = Tree.ofItems k items := by
  rw [tree]
  exact fun h ↦ hne h

/-- Records that are items are the rows of one struct array. -/
theorem tree_array_record (t : TypeDef) : s.tree (.array (.record t)) (.array items) =
    .struct ⟨t.fieldNames, (items.map (s.row t)).toArray⟩ := by
  rw [tree]
  · simp
  · exact fun h ↦ hne h

/-- Inner arrays are in cells or under a name of their own, as their items demand. -/
theorem tree_array_array (item : Slot) : s.tree (.array (.array item)) (.array items) =
    if item.isTextual then .cell (items.map (s.tree (.array item)))
    else .struct ⟨[Container.innerField],
      (items.map fun v ↦ [s.tree (.array item) v]).toArray⟩ := by
  rw [tree]
  · simp [Function.comp_def]
  · exact fun h ↦ hne h

end

end Schema

/-! ### Which values have a tree -/

/-- Whether the value in a slot is of the sort that its tree demands, whatever is inside it: a
record of the declared type, all of whose fields have known types, or an absent one. -/
def Slot.Admits (s : Schema) : Slot → Value → Prop
  | record t, .record typeName _ => typeName = t.name ∧ ∀ f ∈ t.fields, (s.slot? f).isSome
  | record _, v => v.isEmpty = true
  | slot, v => slot.Fits v

namespace Schema

/-- Whether every slot that is met is of the sort that its tree demands. -/
def Exports (s : Schema) (slot : Slot) (v : Value) : Prop :=
  s.EverySlot (fun _ ↦ Slot.Admits s) 0 slot v

section

variable {s : Schema}

/-- What has a tree is of the sort that the tree demands. -/
theorem Exports.admits {slot : Slot} {v : Value} (h : s.Exports slot v) : slot.Admits s v :=
  h.here

/-- A primitive has a tree exactly if its kind fits. -/
theorem exports_primitive_iff {k : Kind} {inRecord : Bool} {v : Value} :
    s.Exports (.primitive k inRecord) v ↔ Slot.Fits (.primitive k inRecord) v := by
  rw [Exports, everySlot_primitive_iff]
  rfl

/-- A record has a tree exactly if it is of the declared type and each field has one. -/
theorem exports_record_iff {t : TypeDef} {typeName : String} {fields : List (String × Value)} :
    s.Exports (.record t) (.record typeName fields) ↔ typeName = t.name ∧
      ∀ f ∈ t.fields, ∃ inner, s.slot? f = some inner ∧
        s.Exports inner (Value.fieldOf fields f.name) := by
  rw [Exports, everySlot_record_const_iff]
  -- the name is checked first, then each slot
  constructor
  · rintro ⟨⟨hname, hknown⟩, hfields⟩
    refine ⟨hname, fun f hf ↦ ?_⟩
    obtain ⟨inner, hinner⟩ := Option.isSome_iff_exists.1 (hknown f hf)
    exact ⟨inner, hinner, hfields f hf inner hinner⟩
  · rintro ⟨hname, hfields⟩
    refine ⟨⟨hname, fun f hf ↦ ?_⟩, fun f hf inner hinner ↦ ?_⟩
    · obtain ⟨inner, hinner, -⟩ := hfields f hf
      rw [hinner, Option.isSome_some]
    · obtain ⟨inner', hinner', hexports⟩ := hfields f hf
      obtain rfl : inner' = inner := Option.some.inj (hinner'.symm.trans hinner)
      exact hexports

/-- Anything else in the slot of a record has to be empty. -/
theorem exports_absent_iff {t : TypeDef} {v : Value}
    (h : ∀ typeName fields, v ≠ .record typeName fields) :
    s.Exports (.record t) v ↔ v.isEmpty = true := by
  cases v with
  | record typeName fields => exact absurd rfl (h typeName fields)
  | _ =>
    rw [Exports, EverySlot.eq_def]
    exact and_iff_left trivial

/-- An array has a tree exactly if each item has one. -/
theorem exports_array_iff {item : Slot} {items : List Value} :
    s.Exports (.array item) (.array items) ↔ ∀ v ∈ items, s.Exports item v :=
  everySlot_array_const_iff.trans (and_iff_right trivial)

theorem exports_array_absent (item : Slot) : s.Exports (.array item) .null :=
  everySlot_absent_iff.2 trivial

end

end Schema

end GraphCodec
