import GraphCodec.Image.Primitive
import GraphCodec.Proofs.Decoding
import GraphCodec.Walk.ValueWalk

/-!
# Slots of a graph

A *slot* is a place for a value as the schema describes it: a primitive, a record of a type, or an
array of slots. Following the schema from a record one meets its fields, in them the items of
arrays and the fields of records, and so on. What is said here of a graph is said of all the slots
that are met (`Schema.EverySlot`), each with its level: the root is at level 0, and what stands in
a record or in an array is one level deeper than it.

Two functions recurse over the same slots: `Schema.stored` gives the bytes of the value in a slot,
and `Schema.restored` the value as it is read back from them.
-/

namespace GraphCodec

/-- A place for a value. -/
inductive Slot where
  /-- A primitive. One in a record may be absent, which is stored as the sentinel of its kind; an
  item of an array may not. -/
  | primitive (kind : Kind) (inRecord : Bool)
  | record (type : TypeDef)
  | array (item : Slot)

namespace Slot

/-- The slot of an array of `dims` dimensions, or of a single value if there are none. -/
def ofElement (element : ElementType) : (dims : Nat) → (inRecord : Bool) → Slot
  | 0, inRecord =>
    match element with
    | .primitive k => primitive k inRecord
    | .composite t => record t
  | dims + 1, _ => array (ofElement element dims false)

@[simp] theorem ofElement_primitive_zero (k : Kind) (inRecord : Bool) :
    ofElement (.primitive k) 0 inRecord = primitive k inRecord := rfl

@[simp] theorem ofElement_composite_zero (t : TypeDef) (inRecord : Bool) :
    ofElement (.composite t) 0 inRecord = record t := rfl

@[simp] theorem ofElement_succ (element : ElementType) (dims : Nat) (inRecord : Bool) :
    ofElement element (dims + 1) inRecord = array (ofElement element dims false) := rfl

/-- Only the slots of scalars differ in a record and in an array. -/
theorem ofElement_of_row {element : ElementType} {dims : Nat}
    (row : dims = 0 → ∃ c, element = .composite c) :
    ofElement element dims false = ofElement element dims true := by
  cases dims with
  | zero =>
    obtain ⟨c, rfl⟩ := row rfl
    rfl
  | succ dims => rfl

/-! ### What may stand in a slot -/

/-- Whether a value is of the sort that a slot demands, whatever is inside it: an absent array is
one without items, and only text may be absent in an array. -/
def Fits : Slot → Value → Prop
  | primitive k true, v => v.matchesKind k = true
  | primitive k false, .null => k.isTextual = true
  | primitive k false, v => v.matchesKind k = true
  | record t, .record typeName _ => typeName = t.name
  | array _, .null => True
  | array _, .array _ => True
  | _, _ => False

/-- Whether the lengths at the front of a slot can be stored: that of a text, and the number of
items of an array. -/
def Storable : Slot → Value → Prop
  | primitive k _, v => k.isTextual = true → Utf8.size (v.text?.getD "") ≤ maxLength
  | array _, .array items => items.length ≤ maxLength
  | _, _ => True

/-- A primitive fits by its kind; only where there is a stored form for nothing it may be absent. -/
theorem fits_primitive_iff {k : Kind} {inRecord : Bool} {v : Value} :
    Fits (primitive k inRecord) v ↔
      v.matchesKind k = true ∧ (v = .null → inRecord = true ∨ k.isTextual = true) := by
  cases inRecord <;> cases v <;> simp [Fits, Value.matchesKind]

end Slot

/-- The test for items of arrays is that of slots outside records. -/
theorem Schema.isItemOf_iff {k : Kind} {v : Value} :
    isItemOf k v = true ↔ Slot.Fits (.primitive k false) v := by
  cases v <;> rfl

/-! ### Primitives -/

/-- The stored form of a primitive: a word of the width of its kind, which is the sentinel if the
value is absent, or text. -/
def scalarForm : Kind → Value → List UInt8
  | .boolean, .boolean b => [if b then 1 else 0]
  | .boolean, _ => [Sentinel.boolean]
  | .byte, .byte v => [v.toUInt8]
  | .byte, _ => [Sentinel.byte.toUInt8]
  | .char, .char c => [c]
  | .char, _ => [Sentinel.char]
  | .short, .short v => Word.ofInt16 v
  | .short, _ => Word.ofInt16 Sentinel.short
  | .int, .int v => Word.ofInt32 v
  | .int, _ => Word.ofInt32 Sentinel.int
  | .long, .long v => Word.ofInt64 v
  | .long, _ => Word.ofInt64 Sentinel.long
  | .float, .float bits => Word.ofUInt32 bits
  | .float, _ => Word.ofUInt32 Sentinel.float
  | .double, .double bits => Word.ofUInt64 bits
  | .double, _ => Word.ofUInt64 Sentinel.double
  | .string, v | .enum, v | .date, v => textForm (v.text?.getD "")

/-- Whether a value is stored in the same way as an absent one of its kind. No truth value is, and
no text. -/
def Value.isSentinel : Value → Bool
  | byte v => v == Sentinel.byte
  | char c => c == Sentinel.char
  | short v => v == Sentinel.short
  | int v => v == Sentinel.int
  | long v => v == Sentinel.long
  | float bits => bits == Sentinel.float
  | double bits => bits == Sentinel.double
  | _ => false

/-- A primitive as it is read back: a sentinel in a record is absent, and absent text is empty. An
absent date remains absent. -/
def restoredScalar (k : Kind) (inRecord : Bool) (v : Value) : Value :=
  match k, v with
  | .string, .null => .string ""
  | .enum, .null => .enum ""
  | _, v => if inRecord && v.isSentinel then .null else v

namespace Value

/-- Induction over a graph, with the look-ups in the fields of a record for its parts. -/
@[elab_as_elim]
theorem lookupInduction {motive : Value → Prop}
    (leaf : ∀ v, (∀ items, v ≠ array items) → (∀ typeName fields, v ≠ record typeName fields) →
      motive v)
    (array : ∀ items, (∀ v ∈ items, motive v) → motive (array items))
    (record : ∀ typeName fields, (∀ name, motive (fieldOf fields name)) →
      motive (record typeName fields)) (v : Value) : motive v := by
  -- the induction is on the size, since a look-up need not be a part
  induction hn : sizeOf v using Nat.strongRecOn generalizing v with
  | _ n ih =>
    subst hn
    cases v with
    | array items =>
      refine array items fun v hv ↦ ih _ ?_ v rfl
      have := List.sizeOf_lt_of_mem hv
      simp only [Value.array.sizeOf_spec]
      omega
    | record typeName fields =>
      refine record typeName fields fun name ↦ ih _ ?_ _ rfl
      have := sizeOf_fieldOf_le fields name
      simp only [Value.record.sizeOf_spec]
      omega
    | _ => exact leaf _ (fun _ h ↦ nomatch h) fun _ _ h ↦ nomatch h

end Value

namespace Schema

/-- What the items of a field are, when its type is known. -/
def element? (s : Schema) (f : FieldDef) : Option ElementType :=
  match s.resolve f with
  | .primitive k => some (.primitive k)
  | .composite t => some (.composite t)
  | .unknown => none

/-- The slot of a field of a record, when its type is known. -/
def slot? (s : Schema) (f : FieldDef) : Option Slot :=
  (s.element? f).map fun element ↦ .ofElement element f.dims true

/-- The slot of a field with a known type. -/
theorem slot?_eq_some {s : Schema} {f : FieldDef} {element : ElementType}
    (h : s.element? f = some element) :
    s.slot? f = some (.ofElement element f.dims true) := by
  rw [slot?, h, Option.map_some]

/-! ### All slots of a graph -/

/-- Whether `Q` holds at a slot of a given level and at all that are met in it. -/
def EverySlot (s : Schema) (Q : Nat → Slot → Value → Prop) (level : Nat) (slot : Slot)
    (v : Value) : Prop :=
  Q level slot v ∧
    match slot, v with
    | .record t, .record _ fields => ∀ f ∈ t.fields, ∀ inner, s.slot? f = some inner →
      s.EverySlot Q (level + 1) inner (Value.fieldOf fields f.name)
    | .array item, .array items => ∀ v, (_h : v ∈ items) → s.EverySlot Q (level + 1) item v
    | _, _ => True
  termination_by sizeOf v
  decreasing_by
    · have := Value.sizeOf_fieldOf_le fields f.name
      simp only [Value.record.sizeOf_spec]
      omega
    · have := List.sizeOf_lt_of_mem _h
      simp only [Value.array.sizeOf_spec]
      omega

section

variable {s : Schema} {Q : Nat → Slot → Value → Prop} {level : Nat}

/-- A primitive is all that there is in its slot. -/
theorem everySlot_primitive_iff {k : Kind} {inRecord : Bool} {v : Value} :
    s.EverySlot Q level (.primitive k inRecord) v ↔ Q level (.primitive k inRecord) v := by
  rw [EverySlot.eq_def, and_true]

/-- A record and the slots of its fields, which are one level below. -/
theorem everySlot_record_iff {t : TypeDef} {typeName : String} {fields : List (String × Value)} :
    s.EverySlot Q level (.record t) (.record typeName fields) ↔
      Q level (.record t) (.record typeName fields) ∧ ∀ f ∈ t.fields, ∀ inner,
        s.slot? f = some inner → s.EverySlot Q (level + 1) inner (Value.fieldOf fields f.name) := by
  rw [EverySlot]

/-- An array and the slots of its items. -/
theorem everySlot_array_iff {item : Slot} {items : List Value} :
    s.EverySlot Q level (.array item) (.array items) ↔
      Q level (.array item) (.array items) ∧ ∀ v ∈ items, s.EverySlot Q (level + 1) item v := by
  rw [EverySlot]

theorem everySlot_absent_iff {item : Slot} :
    s.EverySlot Q level (.array item) .null ↔ Q level (.array item) .null := by
  rw [EverySlot.eq_def, and_true]

/-- The slot itself is one of all slots. -/
theorem EverySlot.here {slot : Slot} {v : Value} (h : s.EverySlot Q level slot v) :
    Q level slot v := by
  rw [EverySlot.eq_def] at h
  exact h.1

/-- **What follows at each slot** follows at all that are met, also from another level on. -/
theorem EverySlot.imp₂ {Q R S : Nat → Slot → Value → Prop} {level other : Nat} {slot : Slot}
    {v : Value} (himp : ∀ n slot v, Q (level + n) slot v → R (level + n) slot v →
      S (other + n) slot v) :
    s.EverySlot Q level slot v → s.EverySlot R level slot v → s.EverySlot S other slot v := by
  induction v using Value.lookupInduction generalizing slot level other with
  | leaf v harray hrecord =>
    intro hQ hR
    rw [EverySlot.eq_def] at hQ hR ⊢
    refine ⟨himp 0 slot v hQ.1 hR.1, ?_⟩
    split
    · exact absurd rfl (hrecord _ _)
    · exact absurd rfl (harray _)
    · trivial
  | array items ih =>
    intro hQ hR
    cases slot with
    | array item =>
      rw [everySlot_array_iff] at hQ hR ⊢
      refine ⟨himp 0 _ _ hQ.1 hR.1, fun v hv ↦ ih v hv (fun n slot v ↦ ?_) (hQ.2 v hv) (hR.2 v hv)⟩
      rw [Nat.add_assoc, Nat.add_assoc]
      exact himp (1 + n) slot v
    | _ =>
      rw [EverySlot.eq_def] at hQ hR ⊢
      exact ⟨himp 0 _ _ hQ.1 hR.1, trivial⟩
  | record typeName fields ih =>
    intro hQ hR
    cases slot with
    | record t =>
      rw [everySlot_record_iff] at hQ hR ⊢
      refine ⟨himp 0 _ _ hQ.1 hR.1, fun f hf inner hinner ↦ ih f.name (fun n slot v ↦ ?_)
        (hQ.2 f hf inner hinner) (hR.2 f hf inner hinner)⟩
      rw [Nat.add_assoc, Nat.add_assoc]
      exact himp (1 + n) slot v
    | _ =>
      rw [EverySlot.eq_def] at hQ hR ⊢
      exact ⟨himp 0 _ _ hQ.1 hR.1, trivial⟩

/-- What holds of every slot may be weakened, and the level does not matter if it is not used. -/
theorem EverySlot.imp {P R : Slot → Value → Prop} {other : Nat} {slot : Slot} {v : Value}
    (himp : ∀ slot v, P slot v → R slot v) (h : s.EverySlot (fun _ ↦ P) level slot v) :
    s.EverySlot (fun _ ↦ R) other slot v :=
  h.imp₂ (fun _ slot v hP _ ↦ himp slot v hP) h

/-- What does not speak of levels holds from any level on. -/
theorem everySlot_level {P : Slot → Value → Prop} {slot : Slot} {v : Value} (other : Nat) :
    s.EverySlot (fun _ ↦ P) level slot v → s.EverySlot (fun _ ↦ P) other slot v :=
  EverySlot.imp fun _ _ ↦ id

/-- A record, for what does not speak of levels. -/
theorem everySlot_record_const_iff {P : Slot → Value → Prop} {t : TypeDef} {typeName : String}
    {fields : List (String × Value)} :
    s.EverySlot (fun _ ↦ P) level (.record t) (.record typeName fields) ↔
      P (.record t) (.record typeName fields) ∧ ∀ f ∈ t.fields, ∀ inner,
        s.slot? f = some inner →
          s.EverySlot (fun _ ↦ P) level inner (Value.fieldOf fields f.name) := by
  rw [everySlot_record_iff]
  refine and_congr Iff.rfl ⟨fun h f hf inner hinner ↦ ?_, fun h f hf inner hinner ↦ ?_⟩
  · exact everySlot_level level (h f hf inner hinner)
  · exact everySlot_level (level + 1) (h f hf inner hinner)

/-- An array, for what does not speak of levels. -/
theorem everySlot_array_const_iff {P : Slot → Value → Prop} {item : Slot} {items : List Value} :
    s.EverySlot (fun _ ↦ P) level (.array item) (.array items) ↔
      P (.array item) (.array items) ∧ ∀ v ∈ items, s.EverySlot (fun _ ↦ P) level item v := by
  rw [everySlot_array_iff]
  refine and_congr Iff.rfl ⟨fun h v hv ↦ ?_, fun h v hv ↦ ?_⟩
  · exact everySlot_level level (h v hv)
  · exact everySlot_level (level + 1) (h v hv)

end

/-- Whether every slot that is met holds what it demands. -/
def Conforms (s : Schema) (slot : Slot) (v : Value) : Prop :=
  s.EverySlot (fun _ ↦ Slot.Fits) 0 slot v

/-- Whether the length of every text and array that is met can be stored. -/
def Storable (s : Schema) (slot : Slot) (v : Value) : Prop :=
  s.EverySlot (fun _ ↦ Slot.Storable) 0 slot v

section

variable {s : Schema}

/-- A record conforms if it is of the declared type and its fields conform. -/
theorem conforms_record_iff {t : TypeDef} {typeName : String} {fields : List (String × Value)} :
    s.Conforms (.record t) (.record typeName fields) ↔ typeName = t.name ∧
      ∀ f ∈ t.fields, ∀ inner, s.slot? f = some inner →
        s.Conforms inner (Value.fieldOf fields f.name) :=
  everySlot_record_const_iff

theorem conforms_array_iff {item : Slot} {items : List Value} :
    s.Conforms (.array item) (.array items) ↔ ∀ v ∈ items, s.Conforms item v :=
  everySlot_array_const_iff.trans (and_iff_right trivial)

/-- A record is storable if its fields are; it has no length of its own. -/
theorem storable_record_iff {t : TypeDef} {typeName : String} {fields : List (String × Value)} :
    s.Storable (.record t) (.record typeName fields) ↔
      ∀ f ∈ t.fields, ∀ inner, s.slot? f = some inner →
        s.Storable inner (Value.fieldOf fields f.name) :=
  everySlot_record_const_iff.trans (and_iff_right trivial)

/-- An array is storable if its length is and its items are. -/
theorem storable_array_iff {item : Slot} {items : List Value} :
    s.Storable (.array item) (.array items) ↔
      items.length ≤ maxLength ∧ ∀ v ∈ items, s.Storable item v :=
  everySlot_array_const_iff

/-- Induction over a graph that conforms to its slot. -/
@[elab_as_elim]
theorem conformsInduction {motive : (slot : Slot) → (v : Value) → s.Conforms slot v → Prop}
    (primitive : ∀ k inRecord v h, motive (.primitive k inRecord) v h)
    (record : ∀ t fields h, (∀ f (hf : f ∈ t.fields) inner (hinner : s.slot? f = some inner),
      motive inner (Value.fieldOf fields f.name) ((conforms_record_iff.1 h).2 f hf inner hinner)) →
        motive (.record t) (.record t.name fields) h)
    (absent : ∀ item h, motive (.array item) .null h)
    (array : ∀ item items h, (∀ v (hv : v ∈ items), motive item v (conforms_array_iff.1 h v hv)) →
      motive (.array item) (.array items) h)
    {slot : Slot} {v : Value} (h : s.Conforms slot v) : motive slot v h := by
  induction v using Value.lookupInduction generalizing slot with
  | leaf v harray hrecord =>
    have hfits := h.here
    cases slot with
    | primitive k inRecord => exact primitive k inRecord v h
    | record t =>
      cases v with
      | record typeName fields => exact absurd rfl (hrecord typeName fields)
      | _ => exact hfits.elim
    | array item =>
      cases v with
      | null => exact absent item h
      | array items => exact absurd rfl (harray items)
      | _ => exact hfits.elim
  | array items ih =>
    have hfits := h.here
    cases slot with
    | primitive k inRecord => exact primitive k inRecord _ h
    | record t => exact hfits.elim
    | array item => exact array item items h fun v hv ↦ ih v hv _
  | record typeName fields ih =>
    have hfits := h.here
    cases slot with
    | primitive k inRecord => exact primitive k inRecord _ h
    | record t =>
      obtain rfl : typeName = t.name := hfits
      exact record t fields h fun f _ _ _ ↦ ih f.name _
    | array item => exact hfits.elim

end

/-! ### Bytes and values -/

/-- The stored form of the value in a slot: a record is its fields one after the other, in the
order of its type, and an array the number of its items and then the items. -/
def stored (s : Schema) (slot : Slot) (v : Value) : List UInt8 :=
  match slot, v with
  | .primitive k _, v => scalarForm k v
  | .record t, .record _ fields => t.fields.flatMap fun f ↦
    match s.slot? f with
    | some inner => s.stored inner (Value.fieldOf fields f.name)
    | none => []
  | .array item, .array items =>
    lengthWord items.length ++ items.attach.flatMap fun ⟨v, _h⟩ ↦ s.stored item v
  | .array _, _ => lengthWord 0
  | .record _, _ => []
  termination_by sizeOf v
  decreasing_by
    · have := Value.sizeOf_fieldOf_le fields f.name
      simp only [Value.record.sizeOf_spec]
      omega
    · have := List.sizeOf_lt_of_mem _h
      simp only [Value.array.sizeOf_spec]
      omega

/-- The value in a slot as it is read back: the fields of a record are those of its type, in order,
and an absent array is one without items. -/
def restored (s : Schema) (slot : Slot) (v : Value) : Value :=
  match slot, v with
  | .primitive k inRecord, v => restoredScalar k inRecord v
  | .record t, .record _ fields => .record t.name <| t.fields.map fun f ↦
    match s.slot? f with
    | some inner => (f.name, s.restored inner (Value.fieldOf fields f.name))
    | none => (f.name, .null)
  | .array item, .array items => .array (items.attach.map fun ⟨v, _h⟩ ↦ s.restored item v)
  | .array _, _ => .array []
  | .record _, v => v
  termination_by sizeOf v
  decreasing_by
    · have := Value.sizeOf_fieldOf_le fields f.name
      simp only [Value.record.sizeOf_spec]
      omega
    · have := List.sizeOf_lt_of_mem _h
      simp only [Value.array.sizeOf_spec]
      omega

@[simp] theorem stored_primitive (s : Schema) (k : Kind) (inRecord : Bool) (v : Value) :
    s.stored (.primitive k inRecord) v = scalarForm k v := by
  rw [stored]

@[simp] theorem stored_absent (s : Schema) (item : Slot) :
    s.stored (.array item) .null = lengthWord 0 := by
  rw [stored]
  simp

/-- An array is stored as its length and then its items. -/
theorem stored_array (s : Schema) (item : Slot) (items : List Value) :
    s.stored (.array item) (.array items) =
      lengthWord items.length ++ items.flatMap (s.stored item) := by
  rw [stored]
  simp [List.flatMap]

/-- A record is stored as its fields, in the order of the type. -/
theorem stored_record (s : Schema) (t : TypeDef) (typeName : String)
    (fields : List (String × Value)) :
    s.stored (.record t) (.record typeName fields) = t.fields.flatMap fun f ↦
      match s.slot? f with
      | some inner => s.stored inner (Value.fieldOf fields f.name)
      | none => [] := by
  rw [stored]

@[simp] theorem restored_primitive (s : Schema) (k : Kind) (inRecord : Bool) (v : Value) :
    s.restored (.primitive k inRecord) v = restoredScalar k inRecord v := by
  rw [restored]

/-- An absent array comes back as one without items. -/
@[simp] theorem restored_absent (s : Schema) (item : Slot) :
    s.restored (.array item) .null = .array [] := by
  rw [restored]
  simp

/-- Items come back one by one. -/
theorem restored_array (s : Schema) (item : Slot) (items : List Value) :
    s.restored (.array item) (.array items) = .array (items.map (s.restored item)) := by
  rw [restored]
  simp

/-- A record comes back with the fields of its type in order, and with nothing else. -/
theorem restored_record (s : Schema) (t : TypeDef) (typeName : String)
    (fields : List (String × Value)) :
    s.restored (.record t) (.record typeName fields) = .record t.name (t.fields.map fun f ↦
      match s.slot? f with
      | some inner => (f.name, s.restored inner (Value.fieldOf fields f.name))
      | none => (f.name, .null)) := by
  rw [restored]

end Schema

end GraphCodec
