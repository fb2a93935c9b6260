import GraphCodec.Proofs.Documents
import GraphCodec.Proofs.Listening

/-!
# Records from documents

Whatever record is read from a document fits the type for which it was read: `Json.Describes` says
which value a document describes in a slot, with one rule for each way to describe one, and reading
returns no other values (`Value.describes_of_ofJson`). A record has the fields of the type that it
names, or of the expected type if the schema does not know the name; and everything may be absent,
even where the type of the field is unknown.

The walk over such a record can therefore find but one value of the wrong sort. An item of an array
of primitives may be absent in a document, but in a walk only text may (`Schema.Lacks`). Since
neither the writer of images nor the builder of containers finds fault with a value that the walk
let pass, neither do they (`Record.typed_of_ofJson`).
-/

namespace GraphCodec

/-! ### Values that documents describe -/

/-- The number of bits of an integer kind. -/
def Kind.integerBits? : Kind → Option Nat
  | .byte => some 8
  | .short => some 16
  | .int => some 32
  | .long => some 64
  | _ => none

/-- The integer that a value is. -/
def Value.integer? : Value → Option Int
  | byte v => some v.toInt
  | short v => some v.toInt
  | int v => some v.toInt
  | long v => some v.toInt
  | _ => none

namespace Json

/-- Whether a document describes a scalar of a kind. -/
structure DescribesScalar (k : Kind) (json : Json) (v : Value) : Prop where
  sort : v.matchesKind k = true
  present : v ≠ .null
  /-- An integer is described only by itself, and only if it is in the range of the kind. -/
  integer : ∀ bits, k.integerBits? = some bits → ∃ n, json = .integer n ∧ v.integer? = some n ∧
    -2 ^ (bits - 1) ≤ n ∧ n < 2 ^ (bits - 1)

/-- Whether a document describes a value with `dims` dimensions of a type. -/
inductive Describes (s : Schema) : FieldType → (dims : Nat) → Json → Value → Prop
  | absent (type : FieldType) (dims : Nat) : Describes s type dims .null .null
  | array {type : FieldType} {dims : Nat} {items : List Json} {vs : List Value}
      (length : items.length = vs.length)
      (each : ∀ p ∈ items.zip vs, Describes s type dims p.1 p.2) :
    Describes s type (dims + 1) (.array items) (.array vs)
  | scalar {k : Kind} {json : Json} {v : Value} (scalar : DescribesScalar k json v) :
    Describes s (.primitive k) 0 json v
  /-- The fields are those of the type that an object names, or else of the expected one. -/
  | record {t own : TypeDef} {typeName : String} {entries : List (String × Json)}
      {fields : List (String × Value)} (named : typeName = Value.ownTypeName t.name entries)
      (known : own = (s.get? typeName).getD t) (names : fields.map Prod.fst = own.fieldNames)
      (each : ∀ f ∈ own.fields, Describes s (s.resolve f) f.dims
        ((Json.entry? entries f.name).getD .null) (Value.fieldOf fields f.name)) :
    Describes s (.composite t) 0 (.object entries) (.record typeName fields)

end Json

namespace Value

/-! ### Reading scalars -/

/-- A number that was read is within the range of its kind. -/
theorem integerOf_eq_ok {f : FieldDef} {json : Json} {low high n : Int}
    (h : integerOf f json low high = .ok n) : json = .integer n ∧ low ≤ n ∧ n ≤ high := by
  unfold integerOf at h
  split at h
  · rename_i v hint
    split at h
    · cases h
      unfold Json.asInt? at hint
      split at hint
      · cases (Option.ite_none_right_eq_some.1 hint).2
        exact ⟨rfl, ‹_›⟩
      · cases hint
    · cases h
  · cases h

/-- An integer of `bits` bits. -/
theorem describesScalar_integer {f : FieldDef} {json : Json} {k : Kind} {bits : Nat} {n : Int}
    {v : Value} (hbits : k.integerBits? = some bits)
    (h : integerOf f json (-2 ^ (bits - 1)) (2 ^ (bits - 1) - 1) = .ok n)
    (hsort : v.matchesKind k = true)
    (hv : -2 ^ (bits - 1) ≤ n → n < 2 ^ (bits - 1) → v.integer? = some n) :
    json.DescribesScalar k v := by
  obtain ⟨rfl, hlow, hhigh⟩ := integerOf_eq_ok h
  have hint := hv hlow (Int.lt_of_le_sub_one hhigh)
  refine ⟨hsort, ?_, fun bits' hbits' ↦ ?_⟩
  · rintro rfl
    cases hint
  · obtain rfl := Option.some.inj (hbits.symm.trans hbits')
    exact ⟨n, rfl, hint, hlow, Int.lt_of_le_sub_one hhigh⟩

/-- **What is read as a primitive** is a scalar of its kind. -/
theorem describesScalar_of_primitiveOfJson {f : FieldDef} {json : Json} {k : Kind} {v : Value}
    (h : primitiveOfJson f json k = .ok v) : json.DescribesScalar k v := by
  cases k with
  | boolean =>
    cases json with
    | bool b =>
      cases h
      exact ⟨rfl, by simp, fun bits h ↦ nomatch h⟩
    | _ => cases h
  | byte =>
    obtain ⟨n, hn, rfl⟩ := map_eq_ok_iff.1 h
    have hbits : Kind.byte.integerBits? = some 8 := rfl
    exact describesScalar_integer hbits hn rfl fun hlow hhigh ↦
      congrArg some (Int8.toInt_ofInt_of_le hlow hhigh)
  | short =>
    obtain ⟨n, hn, rfl⟩ := map_eq_ok_iff.1 h
    have hbits : Kind.short.integerBits? = some 16 := rfl
    exact describesScalar_integer hbits hn rfl fun hlow hhigh ↦
      congrArg some (Int16.toInt_ofInt_of_le hlow hhigh)
  | int =>
    obtain ⟨n, hn, rfl⟩ := map_eq_ok_iff.1 h
    have hbits : Kind.int.integerBits? = some 32 := rfl
    exact describesScalar_integer hbits hn rfl fun hlow hhigh ↦
      congrArg some (Int32.toInt_ofInt_of_le hlow hhigh)
  | long =>
    obtain ⟨n, hn, rfl⟩ := map_eq_ok_iff.1 h
    have hbits : Kind.long.integerBits? = some 64 := rfl
    exact describesScalar_integer hbits hn rfl fun hlow hhigh ↦
      congrArg some (Int64.toInt_ofInt_of_le hlow hhigh)
  | float | double | string | enum =>
    obtain ⟨a, -, rfl⟩ := map_eq_ok_iff.1 h
    exact ⟨rfl, by simp, fun bits h ↦ nomatch h⟩
  | char =>
    obtain ⟨text, -, h⟩ := bind_eq_ok_iff.1 h
    split at h
    · cases h
      exact ⟨rfl, by simp, fun bits h ↦ nomatch h⟩
    · cases h
  | date =>
    obtain ⟨text, -, h⟩ := bind_eq_ok_iff.1 h
    obtain ⟨d, -, rfl⟩ := map_eq_ok_iff.1 h
    exact ⟨rfl, by simp, fun bits h ↦ nomatch h⟩

/-! ### Reading records -/

variable {s : Schema}

/-- A field is read by its name; what is not there is read like what is absent. -/
theorem fieldOfJson_eq (s : Schema) (entries : List (String × Json)) (f : FieldDef) :
    fieldOfJson s entries f =
      (ofJson s f f.dims ((Json.entry? entries f.name).getD .null)).map fun v ↦ (f.name, v) := by
  unfold fieldOfJson
  split
  · rename_i v hentry
    rw [hentry, Option.getD_some]
  · rename_i hentry
    rw [hentry, Option.getD_none, ofJson_null]
    rfl

/-- The value of a field that the entries of an object describe, if they describe one. -/
def fieldValue (s : Schema) (entries : List (String × Json)) (f : FieldDef) : Value :=
  (ofJson s f f.dims ((Json.entry? entries f.name).getD .null)).toOption.getD .null

theorem fieldOfJson_eq_ok {entries : List (String × Json)} {f : FieldDef} {p : String × Value} :
    fieldOfJson s entries f = .ok p ↔
      ofJson s f f.dims ((Json.entry? entries f.name).getD .null) =
          .ok (fieldValue s entries f) ∧ p = (f.name, fieldValue s entries f) := by
  rw [fieldOfJson_eq, fieldValue]
  cases ofJson s f f.dims ((Json.entry? entries f.name).getD .null) with
  | error e => simp [Except.map]
  | ok v => simp [Except.map, Except.toOption, eq_comm]

/-- The fields that are read are those of the type, with the values of their entries. -/
theorem fields_of_mapM {t : TypeDef} (hnodup : t.fieldNames.Nodup) {entries : List (String × Json)}
    {fields : List (String × Value)} (h : t.fields.mapM (fieldOfJson s entries) = .ok fields) :
    fields.map Prod.fst = t.fieldNames ∧ ∀ f ∈ t.fields,
      ofJson s f f.dims ((Json.entry? entries f.name).getD .null) =
        .ok (fieldOf fields f.name) := by
  obtain ⟨hread, rfl⟩ := (mapM_eq_ok_iff fun _ _ ↦ fieldOfJson_eq_ok).1 h
  refine ⟨?_, fun f hf ↦ ?_⟩
  · rw [List.map_map]
    rfl
  · rw [Schema.fieldOf_map hnodup _ hf]
    exact hread f hf

/-- The type that an object names has no field twice either. -/
theorem nodup_fieldNames_own (hs : s.Distinct) {t : TypeDef} (ht : t ∈ s.types)
    (typeName : String) : ((s.get? typeName).getD t).fieldNames.Nodup := by
  cases hget : s.get? typeName with
  | none => exact hs t ht
  | some u => exact hs u (Schema.mem_of_get?_eq_some hget)

mutual

/-- **What is read as a record** is described as one. -/
theorem describes_of_recordOfJson (hs : s.Distinct) {t : TypeDef} (ht : t ∈ s.types) (json : Json)
    {r : Record} (h : recordOfJson s t json = .ok r) :
    json.Describes s (.composite t) 0 r.toValue := by
  match json, h with
  | .object entries, h =>
    rw [recordOfJson_object] at h
    obtain ⟨fields, hfields, hr⟩ := bind_eq_ok_iff.1 h
    cases hr
    obtain ⟨hnames, hread⟩ := fields_of_mapM (nodup_fieldNames_own hs ht _) hfields
    refine .record rfl rfl hnames fun f hf ↦ ?_
    have hread := hread f hf
    cases hentry : Json.entry? entries f.name with
    | none =>
      rw [hentry, Option.getD_none, ofJson_null] at hread
      rw [Option.getD_none, ← Except.ok.inj hread]
      exact .absent _ _
    | some inner =>
      rw [hentry, Option.getD_some] at hread
      exact describes_of_ofJson hs inner hread
  | .null, h | .bool _, h | .integer _, h | .double _, h | .string _, h | .array _, h =>
    rw [recordOfJson.eq_def] at h
    cases h
  termination_by (sizeOf json, 0)
  decreasing_by
    have := Json.sizeOf_lt_of_entry?_eq_some hentry
    apply Prod.Lex.left
    simp only [Json.object.sizeOf_spec]
    omega

/-- **What is read for a field** is described as such. -/
theorem describes_of_ofJson (hs : s.Distinct) {f : FieldDef} {dims : Nat} (json : Json) {v : Value}
    (h : ofJson s f dims json = .ok v) : json.Describes s (s.resolve f) dims v := by
  match dims, json, h with
  | dims, .null, h =>
    rw [ofJson_null] at h
    cases h
    exact .absent _ _
  | dims + 1, .array items, h =>
    rw [ofJson_array] at h
    obtain ⟨vs, hvs, rfl⟩ := map_eq_ok_iff.1 h
    obtain ⟨hlength, hzip⟩ := List.forall₂_iff_zip.1 (mapM_eq_ok_iff_forall₂.1 hvs)
    exact .array hlength fun p hp ↦ describes_of_ofJson hs p.1 (hzip hp)
  | dims + 1, .bool _, h | dims + 1, .integer _, h | dims + 1, .double _, h
  | dims + 1, .string _, h | dims + 1, .object _, h =>
    rw [ofJson.eq_def] at h
    cases h
  | 0, json, h =>
    -- what is absent is so for every type
    by_cases hjson : json = .null
    · rw [hjson, ofJson_null] at h
      cases h
      exact hjson ▸ .absent _ _
    rw [ofJson_zero f hjson] at h
    split at h
    · rename_i k hk
      exact hk ▸ .scalar (describesScalar_of_primitiveOfJson h)
    · rename_i t ht
      obtain ⟨r, hr, rfl⟩ := map_eq_ok_iff.1 h
      exact ht ▸ describes_of_recordOfJson hs (Schema.mem_of_resolve_eq_composite ht) json hr
    · cases h
  termination_by (sizeOf json, 1)
  decreasing_by
    · have := List.sizeOf_lt_of_mem (List.of_mem_zip hp).1
      apply Prod.Lex.left
      simp only [Json.array.sizeOf_spec]
      omega
    · apply Prod.Lex.right
      decide

end

end Value

/-! ### Walking -/

/-- Whether an item is absent in an array of `dims` dimensions. -/
inductive Value.LacksItem : (dims : Nat) → Value → Prop
  | here {items : List Value} (mem : .null ∈ items) : LacksItem 1 (.array items)
  | inner {dims : Nat} {items : List Value} {v : Value} (mem : v ∈ items)
      (lacks : LacksItem dims v) : LacksItem (dims + 1) (.array items)

namespace Schema

/-- Whether a fault is that an item is absent in some record of a graph, in an array of a primitive
kind that is not textual. -/
inductive Lacks (s : Schema) (v : Value) : Fault → Prop
  | item {typeName : String} {fields : List (String × Value)} {t : TypeDef} {f : FieldDef}
      {k : Kind} (within : (Value.record typeName fields).Within v)
      (type : s.get? typeName = some t) (field : f ∈ t.fields)
      (kind : s.resolve f = .primitive k) (fixed : k.isTextual = false)
      (lacks : (Value.fieldOf fields f.name).LacksItem f.dims) :
    Lacks s v (.typeMismatch f.name k.name "null")

/-- The same of the value in a slot of a field in which `dims` dimensions are left. -/
inductive SlotLacks (s : Schema) (f : FieldDef) (element : ElementType) (dims : Nat) (v : Value) :
    Fault → Prop
  | here {k : Kind} (kind : element = .primitive k) (fixed : k.isTextual = false)
      (lacks : v.LacksItem dims) : SlotLacks s f element dims v (.typeMismatch f.name k.name "null")
  | inside {e : Fault} (lacks : s.Lacks v e) : SlotLacks s f element dims v e

end Schema

/-- What the type of a field with such items refers to. -/
def ElementType.declared : ElementType → FieldType
  | primitive k => .primitive k
  | composite t => .composite t

namespace Trace

variable {ε α β : Type} {Q : Fault → Prop}

/-- Walks one after the other fail as one of them does. -/
theorem failsOnly_bind {t : Trace ε α} {f : α → Trace ε β} (ht : FailsOnly Q t.outcome)
    (hf : ∀ a, FailsOnly Q (f a).outcome) : FailsOnly Q (t >>= f).outcome := by
  show FailsOnly Q (t.bind f).outcome
  unfold Trace.bind
  cases hout : t.outcome with
  | error e => exact failsOnly_error (ht e hout)
  | ok a => exact hf a

/-- A sequence of walks fails as one of them does. -/
theorem failsOnly_sequence {walk : α → Trace ε Unit} {as : List α}
    (h : ∀ a ∈ as, FailsOnly Q (walk a).outcome) :
    FailsOnly Q (sequence (as.map walk)).outcome := by
  induction as with
  | nil => exact failsOnly_ok ()
  | cons a as ih =>
    obtain ⟨ha, has⟩ := List.forall_mem_cons.1 h
    rw [List.map_cons, sequence_cons]
    exact failsOnly_bind ha fun _ ↦ ih has

theorem failsOnly_emit (event : ε) : FailsOnly Q (emit event).outcome :=
  failsOnly_ok ()

theorem failsOnly_fail {e : Fault} (h : e.ofSort = false) :
    FailsOnly (fun e ↦ e.ofSort = true → Q e) (fail e : Trace ε α).outcome :=
  failsOnly_error fun hsort ↦ absurd (h.symm.trans hsort) Bool.false_ne_true

end Trace

namespace Schema

variable {s : Schema} {f : FieldDef} {element : ElementType} {dims : Nat} {e : Fault}

/-- What is missing in a part is missing in the whole. -/
theorem Lacks.mono {v w : Value} (h : s.Lacks v e)
    (hvw : ∀ u : Value, u.Within v → u.Within w) : s.Lacks w e := by
  cases h with
  | item within type field kind fixed lacks =>
    exact .item (hvw _ within) type field kind fixed lacks

/-- What is missing in a field is missing in the record. -/
theorem Lacks.record {typeName : String} {fields : List (String × Value)} {name : String}
    (h : s.Lacks (Value.fieldOf fields name) e) : s.Lacks (.record typeName fields) e := by
  unfold Value.fieldOf Value.lookup? at h
  cases hfind : fields.find? fun g ↦ g.1 == name with
  | none =>
    -- there are no records in an absent value
    rw [hfind] at h
    cases h with
    | item within => cases within
  | some g =>
    rw [hfind] at h
    exact h.mono fun u hu ↦ .field (List.mem_of_find?_eq_some hfind) hu

/-- And what is missing in an item is missing in the array. -/
theorem SlotLacks.item {v : Value} {items : List Value} (hv : v ∈ items)
    (h : s.SlotLacks f element dims v e) : s.SlotLacks f element (dims + 1) (.array items) e := by
  cases h with
  | here kind fixed lacks => exact .here kind fixed (.inner hv lacks)
  | inside lacks => exact .inside (lacks.mono fun u hu ↦ .item hv hu)

theorem SlotLacks.field {typeName : String} {fields : List (String × Value)} {t : TypeDef}
    (ht : s.get? typeName = some t) (hf : f ∈ t.fields) (hresolve : s.resolve f = element.declared)
    (h : s.SlotLacks f element f.dims (Value.fieldOf fields f.name) e) :
    s.Lacks (.record typeName fields) e := by
  cases h with
  | here kind fixed lacks =>
    subst kind
    exact .item .here ht hf hresolve fixed lacks
  | inside lacks => exact lacks.record

/-- Whether a walk over the value in a slot finds a value of the wrong sort only where an item is
absent. -/
abbrev BlamesItems (s : Schema) (f : FieldDef) (element : ElementType) (dims : Nat) (v : Value) :
    Prop :=
  FailsOnly (fun e ↦ e.ofSort = true → s.SlotLacks f element dims v e)
    (s.walkValue f element dims v).outcome

theorem matchesKind_null (k : Kind) : Value.null.matchesKind k = true := by
  cases k <;> rfl

/-- A scalar of the right kind is not to blame. -/
theorem blamesItems_scalar (f : FieldDef) {k : Kind} {v : Value} (h : v.matchesKind k = true) :
    s.BlamesItems f (.primitive k) 0 v := by
  unfold BlamesItems
  rw [walkValue, if_pos h]
  exact failsOnly_ok ()

/-- Nor is what is absent. -/
theorem blamesItems_null (s : Schema) (f : FieldDef) (element : ElementType) (dims : Nat) :
    s.BlamesItems f element dims .null := by
  unfold BlamesItems
  match dims, element with
  | 0, .primitive k => exact blamesItems_scalar f (matchesKind_null k)
  | 0, .composite c =>
    rw [walkValue.eq_def]
    exact failsOnly_ok ()
  | dims + 1, element =>
    rw [walkValue_null]
    obtain ⟨k, rfl, rfl⟩ | row := row_cases element dims
    · rw [walkValue_row]
      exact failsOnly_ok ()
    · rw [walkValue_array s f row]
      exact failsOnly_ok ()

/-- A row of primitives, each of which is of its kind or absent. -/
theorem failsOnly_walkPrimitives (f : FieldDef) {k : Kind} {items : List Value}
    (h : ∀ v ∈ items, v.matchesKind k = true) :
    FailsOnly (fun e ↦ e.ofSort = true → s.SlotLacks f (.primitive k) 1 (.array items) e)
      (walkPrimitives f k items).outcome := by
  unfold walkPrimitives
  split
  · rename_i v hfind
    have hv := List.mem_of_find?_eq_some hfind
    have hitem : isItemOf k v = false := by simpa using List.find?_some hfind
    refine failsOnly_error fun _ ↦ ?_
    have hsort := h v hv
    cases v with
    | null => exact .here rfl hitem (.here hv)
    | _ => exact absurd (hsort.symm.trans hitem) (by decide)
  · exact failsOnly_ok ()

/-- An array is to blame for its items only. -/
theorem blamesItems_array (f : FieldDef) {items : List Value}
    (hkind : ∀ k, element = .primitive k → dims = 0 → ∀ v ∈ items, v.matchesKind k = true)
    (ih : ∀ v ∈ items, s.BlamesItems f element dims v) :
    s.BlamesItems f element (dims + 1) (.array items) := by
  unfold BlamesItems
  obtain ⟨k, rfl, rfl⟩ | row := row_cases element dims
  · rw [walkValue_row]
    exact failsOnly_walkPrimitives f (hkind k rfl rfl)
  · rw [walkValue_array s f row]
    exact Trace.failsOnly_bind (Trace.failsOnly_emit _) fun _ ↦
      Trace.failsOnly_bind (Trace.failsOnly_sequence fun v hv ↦
        (ih v hv).mono fun e he hsort ↦ (he hsort).item hv) fun _ ↦ Trace.failsOnly_emit _

/-- The walk over a record, given those over its fields. -/
theorem failsOnly_walkRecord {typeName : String} {fields : List (String × Value)} {t : TypeDef}
    (ht : s.get? typeName = some t) (ih : ∀ f ∈ t.fields, ∀ element,
      s.resolve f = element.declared →
        s.BlamesItems f element f.dims (Value.fieldOf fields f.name))
    (field : Option String) (declared : String) :
    FailsOnly (fun e ↦ e.ofSort = true → s.Lacks (.record typeName fields) e)
      (s.walkRecord field declared t fields).outcome := by
  rw [walkRecord]
  refine Trace.failsOnly_bind (Trace.failsOnly_emit _) fun _ ↦ Trace.failsOnly_bind
    (Trace.failsOnly_sequence fun f hf ↦ ?_) fun _ ↦ Trace.failsOnly_emit _
  split
  · rename_i k hk
    have hdeclared : s.resolve f = (ElementType.primitive k).declared := hk
    exact (ih f hf _ hdeclared).mono fun e he hsort ↦ (he hsort).field ht hf hdeclared
  · rename_i c hc
    have hdeclared : s.resolve f = (ElementType.composite c).declared := hc
    exact (ih f hf _ hdeclared).mono fun e he hsort ↦ (he hsort).field ht hf hdeclared
  · exact Trace.failsOnly_fail rfl

/-- A value that a document describes is of the kind that was asked for. -/
theorem matchesKind_of_describes {k : Kind} {json : Json} {v : Value}
    (h : json.Describes s (.primitive k) 0 v) : v.matchesKind k = true := by
  cases h with
  | absent => exact matchesKind_null k
  | scalar scalar => exact scalar.sort

/-- **The walk over a value that a document describes** finds nothing of the wrong sort but absent
items. -/
theorem blamesItems_of_describes {type : FieldType} {json : Json} {v : Value}
    (h : json.Describes s type dims v) : ∀ (f : FieldDef) (element : ElementType),
      type = element.declared → s.BlamesItems f element dims v := by
  induction h with
  | absent type dims => exact fun f element _ ↦ s.blamesItems_null f element dims
  | @array type dims items vs length each ih =>
    intro f element helement
    have hitem : ∀ v ∈ vs, ∃ p ∈ items.zip vs, p.2 = v := by
      intro v hv
      rwa [← List.map_snd_zip length.ge, List.mem_map] at hv
    refine blamesItems_array f (fun k hk hdims v hv ↦ ?_) fun v hv ↦ ?_
    · obtain ⟨p, hp, rfl⟩ := hitem v hv
      subst hk hdims helement
      exact matchesKind_of_describes (each p hp)
    · obtain ⟨p, hp, rfl⟩ := hitem v hv
      exact ih p hp f element helement
  | @scalar k json v scalar =>
    intro f element helement
    cases element with
    | primitive k =>
      cases helement
      exact blamesItems_scalar f scalar.sort
    | composite c => cases helement
  | @record t own typeName entries fields named known names each ih =>
    intro f element helement
    cases element with
    | primitive k => cases helement
    | composite c =>
      unfold BlamesItems
      rw [walkValue]
      split
      · rename_i u hget
        -- the type that the record names is the one by which it was read
        rw [hget, Option.getD_some] at known
        subst known
        exact (failsOnly_walkRecord hget (fun f hf element helement ↦ ih f hf f element helement)
          _ _).mono fun e he hsort ↦ .inside (he hsort)
      · exact Trace.failsOnly_fail rfl

/-- **A walk over what was read** fails for want of something that the document did not give. -/
theorem failsOnly_walkRoot {t : TypeDef} {json : Json} {r : Record}
    (h : json.Describes s (.composite t) 0 r.toValue) :
    FailsOnly (fun e ↦ e.ofSort = true → s.Lacks r.toValue e) (s.walkRoot r).outcome := by
  obtain ⟨typeName, fields⟩ := r
  unfold walkRoot
  split
  · rename_i u hget
    cases h with
    | record named known names each =>
      rw [hget, Option.getD_some] at known
      subst known
      exact failsOnly_walkRecord hget
        (fun f hf element helement ↦ blamesItems_of_describes (each f hf) f element helement) _ _
  · exact Trace.failsOnly_fail rfl

end Schema

/-! ### Records from documents -/

namespace Record

/-- **A record from a document is well-typed.** It has the fields of the type that it names, or of
the expected one if the schema does not know the name, in order and with values as the document
describes them. So neither the writer of images nor the builder of containers finds a value of the
wrong sort in it, except for an absent item in an array of primitives that are not text. -/
theorem typed_of_ofJson {s : Schema} (hs : s.validate = .ok ()) {t : TypeDef} (ht : t ∈ s.types)
    {json : Json} {r : Record} (h : ofJson s t json = .ok r) :
    json.Describes s (.composite t) 0 r.toValue ∧
      r.fields.map Prod.fst = ((s.get? r.typeName).getD t).fieldNames ∧
      FailsOnly (fun e ↦ e.ofSort = true → s.Lacks r.toValue e) (Image.encode s r) ∧
      FailsOnly (fun e ↦ e.ofSort = true → s.Lacks r.toValue e) (Container.ofRecord s r) := by
  have hdescribes := Value.describes_of_recordOfJson (Schema.distinct_of_validate hs) ht json h
  have hwalk := Schema.failsOnly_walkRoot hdescribes
  -- only the walk itself reports a fault of sort
  have hsave {α : Type} {x : Except Fault α}
      (hx : FailsOnly (fun e ↦ e.Material ∨ (s.walkRoot r).outcome = .error e) x) :
      FailsOnly (fun e ↦ e.ofSort = true → s.Lacks r.toValue e) x := by
    refine hx.mono fun e he hsort ↦ ?_
    rcases he with ⟨-, hmaterial⟩ | hout
    · exact absurd (hmaterial.symm.trans hsort) Bool.false_ne_true
    · exact hwalk e hout hsort
  refine ⟨hdescribes, ?_, hsave (Image.failsOnly_encode s r),
    hsave (Container.failsOnly_ofRecord s r)⟩
  obtain ⟨typeName, fields⟩ := r
  cases hdescribes with
  | record named known names each => exact known ▸ names

/-- A sample with an absent level. -/
def gapDocument : Json :=
  .object [("mark", .string "A"), ("levels", .array [.null])]

def gapSample : Record :=
  ⟨"Sample", [("mark", .char 0x41), ("levels", .array [.null])]⟩

theorem typed_of_ofJson_gap : Image.sampleSchema.validate = .ok () ∧
    Image.sampleType ∈ Image.sampleSchema.types ∧
    ofJson Image.sampleSchema Image.sampleType gapDocument = .ok gapSample ∧
    gapDocument.Describes Image.sampleSchema (.composite Image.sampleType) 0 gapSample.toValue ∧
    ∃ e, Image.encode Image.sampleSchema gapSample = .error e ∧
      Image.sampleSchema.Lacks gapSample.toValue e := by
  have hvalidate : Image.sampleSchema.validate = .ok () := by cbv
  have htype : Image.sampleType ∈ Image.sampleSchema.types := List.mem_singleton_self _
  have hread : ofJson Image.sampleSchema Image.sampleType gapDocument = .ok gapSample := by cbv
  have hencode : Image.encode Image.sampleSchema gapSample =
      .error (.typeMismatch "levels" "double" "null") := by cbv
  obtain ⟨hdescribes, -, hfails, -⟩ := typed_of_ofJson hvalidate htype hread
  exact ⟨hvalidate, htype, hread, hdescribes, _, hencode, hfails _ hencode rfl⟩

end Record

end GraphCodec
