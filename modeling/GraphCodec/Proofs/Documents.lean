import GraphCodec.Proofs.Restoring
import GraphCodec.Proofs.Rounding

/-!
# Graphs as documents

The document of a graph that was read back from an image describes this graph again, as far as
documents can: a number that is not finite has none, the document of a character is a text of one
byte only if it is ASCII, and a text in a field with the reserved name `$type` is taken for the name
of a type (`Value.NamesItself`). Apart from these every kind of value, at every depth of nesting,
comes back from its document (`ofJson_toJson_iff`).
-/

namespace GraphCodec

namespace Slot

variable {element : ElementType} {dims : Nat} {inRecord : Bool}

/-- A primitive slot has no dimensions. -/
theorem eq_of_primitive_eq_ofElement {k : Kind} {inRecord' : Bool}
    (h : primitive k inRecord' = ofElement element dims inRecord) :
    dims = 0 ∧ element = .primitive k := by
  cases dims with
  | zero => cases element <;> simp_all
  | succ dims => cases h

/-- Nor has that of a record. -/
theorem eq_of_record_eq_ofElement {t : TypeDef}
    (h : record t = ofElement element dims inRecord) : dims = 0 ∧ element = .composite t := by
  cases dims with
  | zero => cases element <;> simp_all
  | succ dims => cases h

/-- The slot of an array has one dimension more than that of its items. -/
theorem exists_of_array_eq_ofElement {item : Slot}
    (h : array item = ofElement element dims inRecord) :
    ∃ d, dims = d + 1 ∧ item = ofElement element d false := by
  cases dims with
  | zero => cases element <;> cases h
  | succ d => exact ⟨d, rfl, Slot.array.inj h⟩

end Slot

/-! ### Nodes of a graph -/

namespace Value

/-- Whether a node is in a graph. -/
inductive Within (v : Value) : Value → Prop
  | here : Within v v
  | item {w : Value} {items : List Value} (mem : w ∈ items) (inner : Within v w) :
    Within v (.array items)
  | field {f : String × Value} {typeName : String} {fields : List (String × Value)}
      (mem : f ∈ fields) (inner : Within v f.2) : Within v (.record typeName fields)

/-- Whether all nodes of a graph satisfy `P`. -/
def Everywhere (P : Value → Prop) (v : Value) : Prop :=
  ∀ w : Value, w.Within v → P w

section

variable {P : Value → Prop}

/-- The value itself is one of those in it. -/
theorem Everywhere.here {v : Value} (h : v.Everywhere P) : P v :=
  h v .here

/-- So are the values in its items. -/
theorem Everywhere.item {items : List Value} (h : (array items).Everywhere P) {v : Value}
    (hv : v ∈ items) : v.Everywhere P :=
  fun w hw ↦ h w (.item hv hw)

/-- And those in its fields. -/
theorem Everywhere.field {typeName : String} {fields : List (String × Value)}
    (h : (record typeName fields).Everywhere P) {f : String × Value} (hf : f ∈ fields) :
    f.2.Everywhere P :=
  fun w hw ↦ h w (.field hf hw)

/-- What is neither an array nor a record is its only node. -/
theorem everywhere_leaf_iff {v : Value} (harray : ∀ items, v ≠ array items)
    (hrecord : ∀ typeName fields, v ≠ record typeName fields) : v.Everywhere P ↔ P v := by
  refine ⟨Everywhere.here, fun h w hw ↦ ?_⟩
  match hw with
  | .here => exact h
  | .item _ _ => exact absurd rfl (harray _)
  | .field _ _ => exact absurd rfl (hrecord _ _)

theorem everywhere_null_iff : null.Everywhere P ↔ P null :=
  everywhere_leaf_iff (fun _ h ↦ nomatch h) fun _ _ h ↦ nomatch h

/-- A field that is not there is absent, so what holds of absent values is asked for. -/
theorem Everywhere.fieldOf {typeName : String} {fields : List (String × Value)}
    (h : (record typeName fields).Everywhere P) (hnull : P null) (name : String) :
    (fieldOf fields name).Everywhere P := by
  unfold Value.fieldOf lookup?
  cases hfind : fields.find? fun f ↦ f.1 == name with
  | none => exact everywhere_null_iff.2 hnull
  | some f => exact h.field (List.mem_of_find?_eq_some hfind)

/-- What holds everywhere in an array holds of it and everywhere in its items. -/
theorem everywhere_array_iff {items : List Value} :
    (array items).Everywhere P ↔ P (array items) ∧ ∀ v ∈ items, v.Everywhere P := by
  refine ⟨fun h ↦ ⟨h.here, fun v hv ↦ h.item hv⟩, fun ⟨hhere, hitems⟩ w hw ↦ ?_⟩
  rcases hw with _ | ⟨hv, hw⟩
  · exact hhere
  · exact hitems _ hv w hw

/-- And so with a record and its fields. -/
theorem everywhere_record_iff {typeName : String} {fields : List (String × Value)} :
    (record typeName fields).Everywhere P ↔
      P (record typeName fields) ∧ ∀ f ∈ fields, f.2.Everywhere P := by
  refine ⟨fun h ↦ ⟨h.here, fun f hf ↦ h.field hf⟩, fun ⟨hhere, hfields⟩ w hw ↦ ?_⟩
  rcases hw with _ | _ | ⟨hf, hw⟩
  · exact hhere
  · exact hfields _ hf w hw

end

/-- Whether a number is finite. -/
def IsFinite : Value → Prop
  | float bits => Binary.isFinite32 bits = true
  | double bits => Binary.isFinite64 bits = true
  | _ => True

/-- Whether a character is ASCII. -/
def IsAscii : Value → Prop
  | char c => c < 0x80
  | _ => True

/-- Whether the document of a record gives it no other type than its own: the document of a field
with the reserved name, if it is a text, is the name of the type. -/
def NamesItself : Value → Prop
  | record typeName fields =>
    ∀ text, (fieldOf fields typeKey).toJson = .string text → text = typeName
  | _ => True

/-- Whether a node comes back from its document when those in it do. -/
def ComesBack (v : Value) : Prop :=
  v.NamesItself ∧ v.IsAscii

theorem everywhere_comesBack_iff {v : Value} :
    v.Everywhere ComesBack ↔ v.Everywhere NamesItself ∧ v.Everywhere IsAscii :=
  ⟨fun h ↦ ⟨fun w hw ↦ (h w hw).1, fun w hw ↦ (h w hw).2⟩, fun h w hw ↦ ⟨h.1 w hw, h.2 w hw⟩⟩

/-- A scalar has no records in it. -/
theorem everywhere_comesBack_iff_of_matchesKind {k : Kind} {v : Value}
    (h : v.matchesKind k = true) : v.Everywhere ComesBack ↔ v.IsAscii := by
  cases v with
  | array => cases k <;> cases h
  | record => cases k <;> cases h
  | _ => exact (everywhere_leaf_iff (by simp) (by simp)).trans (and_iff_right trivial)

/-! ### Documents of scalars -/

/-- The character of a byte is stored as one byte exactly if it is ASCII, and then as this one. -/
theorem bytes_singleton_eq_iff {c b : UInt8} :
    Utf8.bytes (String.singleton (Char.ofNat c.toNat)) = [b] ↔ c < 0x80 ∧ b = c := by
  have hval : (Char.ofNat c.toNat).val.toNat = c.toNat :=
    (Char.toNat_ofNat c.toNat).trans (if_pos (.inl (c.toNat_lt.trans (by decide))))
  have hbyte : (Char.ofNat c.toNat).val.toUInt8 = c := by
    rw [← UInt8.toNat_inj, UInt32.toNat_toUInt8, hval, Nat.mod_eq_of_lt c.toNat_lt]
  have hbytes : Utf8.bytes (String.singleton (Char.ofNat c.toNat)) =
      String.utf8EncodeChar (Char.ofNat c.toNat) := by
    unfold Utf8.bytes
    rw [String.toByteArray_singleton, List.utf8Encode_singleton, List.data_toByteArray]
  have hone : (Char.ofNat c.toNat).utf8Size = 1 ↔ c < 0x80 := by
    rw [Char.utf8Size_eq_one_iff, UInt32.le_iff_toNat_le, hval]
    exact Nat.lt_succ_iff.symm
  rw [hbytes]
  constructor
  · intro h
    have hlt : c < 0x80 := hone.1 (by rw [← String.length_utf8EncodeChar, h]; rfl)
    rw [String.utf8EncodeChar_eq_singleton (hone.2 hlt), hbyte] at h
    exact ⟨hlt, (List.singleton_inj.1 h).symm⟩
  · rintro ⟨hlt, rfl⟩
    rw [String.utf8EncodeChar_eq_singleton (hone.2 hlt), hbyte]

/-- The integer of a document that is one, if it is in the range. -/
theorem integerOf_integer (f : FieldDef) {v low high : Int} (hlow : low ≤ v) (hhigh : v ≤ high)
    (hlong : -2 ^ 63 ≤ low ∧ high < 2 ^ 63) : integerOf f (.integer v) low high = .ok v := by
  have hrange : -2 ^ 63 ≤ v ∧ v < 2 ^ 63 := ⟨hlong.1.trans hlow, hhigh.trans_lt hlong.2⟩
  have hint : (Json.integer v).asInt? = some v := if_pos hrange
  unfold integerOf
  rw [hint]
  exact if_pos ⟨hlow, hhigh⟩

/-- **A scalar comes back** from its document, unless it is a character that is not ASCII. -/
theorem primitiveOfJson_toJson_iff (f : FieldDef) {k : Kind} {v : Value}
    (hk : v.matchesKind k = true) (hv : v ≠ .null) (hfinite : v.IsFinite)
    (hdate : ∀ i, v = .date i → i.HasFourDigitYear) :
    v.toJson ≠ .null ∧ (primitiveOfJson f v.toJson k = .ok v ↔ v.IsAscii) := by
  match k, v, hk with
  | _, .null, _ => exact absurd rfl hv
  | .boolean, .boolean b, _ =>
    rw [toJson]
    exact ⟨by simp, iff_of_true rfl trivial⟩
  | .byte, .byte v, _ =>
    rw [toJson, primitiveOfJson,
      integerOf_integer f v.le_toInt (Int.le_sub_one_of_lt v.toInt_lt) (by decide),
      Except.map, Int8.ofInt_toInt]
    exact ⟨by simp, iff_of_true rfl trivial⟩
  | .short, .short v, _ =>
    rw [toJson, primitiveOfJson,
      integerOf_integer f v.le_toInt (Int.le_sub_one_of_lt v.toInt_lt) (by decide),
      Except.map, Int16.ofInt_toInt]
    exact ⟨by simp, iff_of_true rfl trivial⟩
  | .int, .int v, _ =>
    rw [toJson, primitiveOfJson,
      integerOf_integer f v.le_toInt (Int.le_sub_one_of_lt v.toInt_lt) (by decide),
      Except.map, Int32.ofInt_toInt]
    exact ⟨by simp, iff_of_true rfl trivial⟩
  | .long, .long v, _ =>
    rw [toJson, primitiveOfJson,
      integerOf_integer f v.le_toInt (Int.le_sub_one_of_lt v.toInt_lt) (by decide),
      Except.map, Int64.ofInt_toInt]
    exact ⟨by simp, iff_of_true rfl trivial⟩
  | .float, .float bits, _ =>
    have hwiden := Binary.isFinite64_widen hfinite
    rw [toJson, Json.ofDouble, if_pos hwiden]
    refine ⟨by simp, iff_of_true ?_ trivial⟩
    show Except.ok (float (Binary.narrow (Binary.widen bits))) = _
    rw [Binary.narrow_widen hfinite]
  | .double, .double bits, _ =>
    have hbits : Binary.isFinite64 bits = true := hfinite
    rw [toJson, Json.ofDouble, if_pos hbits]
    exact ⟨by simp, iff_of_true rfl trivial⟩
  | .char, .char c, _ =>
    refine ⟨by simp [toJson], ?_⟩
    show _ ↔ c < 0x80
    -- the text of the character has one byte, or else it is refused
    rw [toJson, ← and_iff_left (a := c < 0x80) (rfl : c = c), ← bytes_singleton_eq_iff]
    generalize String.singleton (Char.ofNat c.toNat) = text
    rcases hbytes : Utf8.bytes text with _ | ⟨b, _ | ⟨b', bs⟩⟩ <;>
      simp [primitiveOfJson, textOf, Json.asString?, bind_eq_ok_iff, hbytes]
  | .string, .string s, _ =>
    rw [toJson]
    exact ⟨by simp, iff_of_true rfl trivial⟩
  | .date, .date i, _ =>
    refine ⟨by simp [toJson], iff_of_true ?_ trivial⟩
    refine bind_eq_ok_iff.2 ⟨Rfc3339.format i, by rw [toJson]; rfl, ?_⟩
    rw [instantOf, Rfc3339.parse_format (hdate i rfl)]
    rfl
  | .enum, .enum s, _ =>
    rw [toJson]
    exact ⟨by simp, iff_of_true rfl trivial⟩

/-! ### Documents of arrays and records -/

theorem toJson_array (items : List Value) : (array items).toJson = .array (items.map toJson) := by
  rw [toJson]
  simp

theorem toJson_record (typeName : String) (fields : List (String × Value)) :
    (record typeName fields).toJson = Json.ofEntries (fields.map fun f ↦ (f.1, f.2.toJson)) := by
  rw [toJson]
  exact congrArg Json.ofEntries
    (List.attach_map_val (f := fun f : String × Value ↦ (f.1, f.2.toJson)))

/-- Entries with distinct keys stay as they are. -/
theorem ofEntries_of_nodup {entries : List (String × Json)}
    (h : (entries.map Prod.fst).Nodup) : Json.ofEntries entries = .object entries := by
  have key : ∀ rest done : List (String × Json), ((done ++ rest).map Prod.fst).Nodup →
      rest.foldl (fun done e ↦ Json.insertEntry done e.1 e.2) done = done ++ rest := by
    intro rest
    induction rest with
    | nil =>
      intro done _
      exact (List.append_nil done).symm
    | cons e rest ih =>
      intro done hnodup
      have hnew : ¬(done.any fun e' ↦ e'.1 == e.1) = true := by
        rw [List.any_eq_true]
        rintro ⟨e', he', heq⟩
        rw [List.map_append, List.nodup_append] at hnodup
        exact hnodup.2.2 e'.1 (List.mem_map_of_mem he') e.1 (List.mem_map_of_mem List.mem_cons_self)
          (eq_of_beq heq)
      rw [List.append_cons] at hnodup ⊢
      rw [List.foldl_cons, Json.insertEntry, if_neg hnew]
      exact ih _ hnodup
  exact congrArg Json.object (key entries [] h)

/-- A look-up among the documents of fields is one among the fields. -/
theorem entry?_map_toJson (fields : List (String × Value)) (name : String) :
    Json.entry? (fields.map fun f ↦ (f.1, f.2.toJson)) name =
      (lookup? fields name).map toJson := by
  unfold Json.entry? lookup?
  rw [List.find?_map, Option.map_map, Option.map_map]
  rfl

/-- The look-up of a name that is there. -/
theorem lookup?_eq_some_fieldOf {fields : List (String × Value)} {name : String}
    (h : name ∈ fields.map Prod.fst) : lookup? fields name = some (fieldOf fields name) := by
  obtain ⟨f, hf, rfl⟩ := List.mem_map.1 h
  have hfind : (fields.find? fun g ↦ g.1 == f.1).isSome = true :=
    List.find?_isSome.2 ⟨f, hf, beq_self_eq_true f.1⟩
  unfold fieldOf lookup?
  rw [← Option.some_get hfind]
  rfl

/-- The name that the document of a record gives itself is that of its type exactly if the record
names itself. -/
theorem ownTypeName_eq_iff (typeName : String) (fields : List (String × Value)) :
    ownTypeName typeName (fields.map fun f ↦ (f.1, f.2.toJson)) = typeName ↔
      (record typeName fields).NamesItself := by
  show _ ↔ ∀ text, (fieldOf fields typeKey).toJson = .string text → text = typeName
  unfold ownTypeName fieldOf
  rw [entry?_map_toJson]
  cases hfind : lookup? fields typeKey with
  | none =>
    rw [Option.getD_none, toJson]
    exact ⟨fun _ _ h ↦ absurd h (by simp), fun _ ↦ rfl⟩
  | some v =>
    show ((v.toJson.asString?).getD typeName = typeName) ↔ ∀ text, v.toJson = .string text → _
    cases hjson : v.toJson with
    | string text =>
      exact ⟨fun h text' heq ↦ Json.string.inj heq ▸ h, fun h ↦ h text rfl⟩
    | _ => exact ⟨fun _ _ h ↦ absurd h (by simp), fun _ ↦ rfl⟩

/-- Fields that are those of a type, in order, by look-up. -/
theorem eq_map_fieldOf {names : List String} (hnodup : names.Nodup)
    {fields : List (String × Value)} (hnames : fields.map Prod.fst = names) :
    fields = names.map fun name ↦ (name, fieldOf fields name) := by
  subst hnames
  rw [List.map_map]
  refine (List.map_id fields).symm.trans (List.map_congr_left fun f hf ↦ ?_)
  exact Prod.ext rfl (fieldOf_of_mem hnodup hf).symm

section

variable {s : Schema}

theorem ofJson_null (f : FieldDef) (dims : Nat) : ofJson s f dims .null = .ok .null := by
  rw [ofJson.eq_def]

/-- A dimension is read item by item. -/
theorem ofJson_array (f : FieldDef) (dims : Nat) (items : List Json) :
    ofJson s f (dims + 1) (.array items) = (items.mapM (ofJson s f dims)).map array := by
  rw [ofJson.eq_def]
  simp

/-- Below the dimensions the type of the field decides. -/
theorem ofJson_zero (f : FieldDef) {json : Json} (h : json ≠ .null) :
    ofJson s f 0 json = match s.resolve f with
      | .primitive k => primitiveOfJson f json k
      | .composite t => (recordOfJson s t json).map Record.toValue
      | .unknown => .error (.unsupportedType f.name f.typeName) := by
  rw [ofJson.eq_def]
  cases json with
  | null => exact absurd rfl h
  | _ => rfl

/-- A record is never shown like an absent one. -/
theorem toJson_record_ne_null (typeName : String) (fields : List (String × Value)) :
    (record typeName fields).toJson ≠ .null := by
  rw [toJson_record]
  exact fun h ↦ nomatch h

/-- A value that was read as a record is this record. -/
theorem map_toValue_eq_ok_iff {x : Except Fault Record} {typeName : String}
    {fields : List (String × Value)} :
    x.map Record.toValue = .ok (record typeName fields) ↔ x = .ok ⟨typeName, fields⟩ := by
  cases x with
  | error e => exact ⟨fun h ↦ (nomatch h), fun h ↦ (nomatch h)⟩
  | ok r =>
    cases r
    simp [Except.map, Record.toValue]

theorem map_array_eq_ok_iff {x : Except Fault (List Value)} {items : List Value} :
    x.map array = .ok (array items) ↔ x = .ok items := by
  cases x <;> simp [Except.map]

theorem ofJson_of_element?_eq_primitive {f : FieldDef} {k : Kind}
    (h : s.element? f = some (.primitive k)) {json : Json} (hjson : json ≠ .null) :
    ofJson s f 0 json = primitiveOfJson f json k := by
  rw [ofJson_zero f hjson, Schema.element?_eq_primitive_iff.1 h]

theorem ofJson_of_element?_eq_composite {f : FieldDef} {t : TypeDef}
    (h : s.element? f = some (.composite t)) {json : Json} (hjson : json ≠ .null) :
    ofJson s f 0 json = (recordOfJson s t json).map Record.toValue := by
  rw [ofJson_zero f hjson, Schema.element?_eq_composite_iff.1 h]

/-- The field of a record that the entries of an object describe. -/
def fieldOfJson (s : Schema) (entries : List (String × Json)) (f : FieldDef) :
    Except Fault (String × Value) :=
  match Json.entry? entries f.name with
  | some v => (ofJson s f f.dims v).map fun v ↦ (f.name, v)
  | none => .ok (f.name, null)

/-- An object is read by the fields of the type that it names, or else of the declared type. -/
theorem recordOfJson_object (t : TypeDef) (entries : List (String × Json)) :
    recordOfJson s t (.object entries) =
      ((s.get? (ownTypeName t.name entries)).getD t).fields.mapM (fieldOfJson s entries) >>=
        fun fields ↦ .ok ⟨ownTypeName t.name entries, fields⟩ := by
  rw [recordOfJson]
  refine congrArg₂ _ (congrArg (fun g ↦ List.mapM g _) (funext fun f ↦ ?_)) rfl
  unfold fieldOfJson
  split <;> simp [*]

/-- A field that has an entry comes back if its value does. -/
theorem fieldOfJson_eq_ok_iff {entries : List (String × Json)} {f : FieldDef} {json : Json}
    (hentry : Json.entry? entries f.name = some json) {v : Value} :
    fieldOfJson s entries f = .ok (f.name, v) ↔ ofJson s f f.dims json = .ok v := by
  rw [fieldOfJson, hentry]
  show (ofJson s f f.dims json).map _ = _ ↔ _
  cases ofJson s f f.dims json <;> simp [Except.map]

/-- Fields that have entries come back if their values do. -/
theorem mapM_fieldOfJson_eq_ok_iff {entries : List (String × Json)} {fs : List FieldDef}
    {json : FieldDef → Json} (hentry : ∀ f ∈ fs, Json.entry? entries f.name = some (json f))
    (value : FieldDef → Value) :
    fs.mapM (fieldOfJson s entries) = .ok (fs.map fun f ↦ (f.name, value f)) ↔
      ∀ f ∈ fs, ofJson s f f.dims (json f) = .ok (value f) := by
  rw [mapM_eq_ok_iff_forall₂, List.forall₂_map_right_iff, List.forall₂_same]
  exact forall₂_congr fun f hf ↦ fieldOfJson_eq_ok_iff (hentry f hf)

/-- **A record comes back** from its document exactly if it names itself and all its fields come
back. -/
theorem recordOfJson_toJson_iff {t : TypeDef} (ht : s.get? t.name = some t)
    (hnodup : t.fieldNames.Nodup) {fields : List (String × Value)}
    (hnames : fields.map Prod.fst = t.fieldNames) :
    recordOfJson s t (record t.name fields).toJson = .ok ⟨t.name, fields⟩ ↔
      (record t.name fields).NamesItself ∧ ∀ f ∈ t.fields,
        ofJson s f f.dims (fieldOf fields f.name).toJson = .ok (fieldOf fields f.name) := by
  have hkeys : ((fields.map fun f ↦ (f.1, f.2.toJson)).map Prod.fst).Nodup := by
    rw [List.map_map]
    exact hnames.symm ▸ hnodup
  have hfields : fields = t.fields.map fun f ↦ (f.name, fieldOf fields f.name) := by
    refine (eq_map_fieldOf hnodup hnames).trans ?_
    rw [TypeDef.fieldNames, List.map_map]
    rfl
  -- every field of the type has an entry, which is the document of its value
  have hread : t.fields.mapM (fieldOfJson s (fields.map fun f ↦ (f.1, f.2.toJson))) = .ok fields ↔
      ∀ f ∈ t.fields,
        ofJson s f f.dims (fieldOf fields f.name).toJson = .ok (fieldOf fields f.name) := by
    have hentry (f : FieldDef) (hf : f ∈ t.fields) :
        Json.entry? (fields.map fun f ↦ (f.1, f.2.toJson)) f.name =
          some (fieldOf fields f.name).toJson := by
      rw [entry?_map_toJson, lookup?_eq_some_fieldOf]
      · rfl
      · exact hnames ▸ List.mem_map_of_mem hf
    have hmap := mapM_fieldOfJson_eq_ok_iff hentry (fun f ↦ fieldOf fields f.name) (s := s)
    rwa [← hfields] at hmap
  rw [toJson_record, ofEntries_of_nodup hkeys, recordOfJson_object, bind_eq_ok_iff,
    ← ownTypeName_eq_iff, ← hread]
  constructor
  · rintro ⟨fields', hmap, hok⟩
    obtain ⟨hown, rfl⟩ := Record.mk.inj (Except.ok.inj hok)
    rw [hown, ht] at hmap
    exact ⟨hown, hmap⟩
  · rintro ⟨hown, hmap⟩
    rw [hown, ht]
    exact ⟨fields, hmap, rfl⟩

/-! ### Documents of graphs -/

/-- An absent value comes back. -/
theorem ofJson_toJson_null_iff (f : FieldDef) (dims : Nat) :
    ofJson s f dims null.toJson = .ok null ↔ null.Everywhere ComesBack := by
  rw [toJson, ofJson_null]
  exact iff_of_true rfl (everywhere_null_iff.2 ⟨trivial, trivial⟩)

/-- The fields of a record that is as it is read back: those of its type, of which those of an
unknown type are absent, and the others as they are read back. -/
theorem fieldOf_of_restored {t : TypeDef} (hnodup : t.fieldNames.Nodup)
    {fields : List (String × Value)}
    (h : s.restored (.record t) (record t.name fields) = record t.name fields) :
    fields.map Prod.fst = t.fieldNames ∧ ∀ f ∈ t.fields,
      (s.slot? f = none → fieldOf fields f.name = null) ∧
        ∀ inner, s.slot? f = some inner →
          s.restored inner (fieldOf fields f.name) = fieldOf fields f.name := by
  rw [Schema.restored_record_eq_map] at h
  have hfields := (Value.record.inj h).2
  have hvalue (f : FieldDef) (hf : f ∈ t.fields) :
      fieldOf fields f.name = s.restoredField fields f := by
    rw [← Schema.fieldOf_map hnodup (s.restoredField fields) hf, hfields]
  refine ⟨?_, fun f hf ↦ ⟨fun hnone ↦ ?_, fun inner hinner ↦ ?_⟩⟩
  · rw [← hfields, List.map_map]
    rfl
  · rw [hvalue f hf, Schema.restoredField, hnone]
  · rw [← Schema.restoredField_of_slot?_eq_some hinner, hvalue f hf]

/-- A record that is as it is read back comes back exactly if all nodes in it do, provided that
this holds of its fields. -/
theorem recordOfJson_toJson_iff_everywhere {t : TypeDef} (ht : s.get? t.name = some t)
    (hnodup : t.fieldNames.Nodup) {fields : List (String × Value)}
    (hrestored : s.restored (.record t) (record t.name fields) = record t.name fields)
    (hfields : ∀ f ∈ t.fields, ∀ element, s.element? f = some element →
      s.restored (.ofElement element f.dims true) (fieldOf fields f.name) =
        fieldOf fields f.name →
      (ofJson s f f.dims (fieldOf fields f.name).toJson = .ok (fieldOf fields f.name) ↔
        (fieldOf fields f.name).Everywhere ComesBack)) :
    recordOfJson s t (record t.name fields).toJson = .ok ⟨t.name, fields⟩ ↔
      (record t.name fields).Everywhere ComesBack := by
  obtain ⟨hnames, hparts⟩ := fieldOf_of_restored hnodup hrestored
  have hback (f : FieldDef) (hf : f ∈ t.fields) :
      ofJson s f f.dims (fieldOf fields f.name).toJson = .ok (fieldOf fields f.name) ↔
        (fieldOf fields f.name).Everywhere ComesBack := by
    cases hinner : s.slot? f with
    | none =>
      rw [(hparts f hf).1 hinner]
      exact ofJson_toJson_null_iff f f.dims
    | some inner =>
      obtain ⟨element, helement, rfl⟩ := Option.map_eq_some_iff.1 hinner
      exact hfields f hf element helement ((hparts f hf).2 _ hinner)
  rw [recordOfJson_toJson_iff ht hnodup hnames, everywhere_record_iff]
  refine and_congr (and_iff_left trivial).symm ((forall₂_congr hback).trans ⟨fun h g hg ↦ ?_, fun h f hf ↦ ?_⟩)
  · obtain ⟨f, hf, hname⟩ := List.mem_map.1 (hnames ▸ List.mem_map_of_mem hg)
    rw [← fieldOf_of_mem (hnames ▸ hnodup) hg, ← hname]
    exact h f hf
  · obtain ⟨g, hg, hname⟩ : ∃ g ∈ fields, g.1 = f.name :=
      List.mem_map.1 (hnames ▸ List.mem_map_of_mem hf)
    rw [← hname, fieldOf_of_mem (hnames ▸ hnodup) hg]
    exact h g hg

/-- **The value in a slot comes back** from its document exactly if all records in it name
themselves and all characters are ASCII. -/
theorem ofJson_toJson_iff (hdistinct : s.Distinct) {slot : Slot} {v : Value}
    (hconforms : s.Conforms slot v) {f : FieldDef} {element : ElementType}
    (helement : s.element? f = some element) {dims : Nat} {inRecord : Bool}
    (hslot : slot = .ofElement element dims inRecord) {level : Nat}
    (hreadable : s.EverySlot s.Readable level slot v) (hrestored : s.restored slot v = v)
    (hfinite : v.Everywhere IsFinite) :
    ofJson s f dims v.toJson = .ok v ↔ v.Everywhere ComesBack := by
  induction hconforms using Schema.conformsInduction
      generalizing f element dims inRecord level with
  | primitive k inRecord' v hconforms =>
    obtain ⟨rfl, rfl⟩ := Slot.eq_of_primitive_eq_ofElement hslot
    have hkind := (Slot.fits_primitive_iff.1 hconforms.here).1
    by_cases hv : v = .null
    · subst hv
      exact ofJson_toJson_null_iff f 0
    · obtain ⟨hjson, hback⟩ :=
        primitiveOfJson_toJson_iff f hkind hv hfinite.here hreadable.here
      rw [ofJson_of_element?_eq_primitive helement hjson]
      exact hback.trans (everywhere_comesBack_iff_of_matchesKind hkind).symm
  | record t fields hconforms ih =>
    obtain ⟨rfl, rfl⟩ := Slot.eq_of_record_eq_ofElement hslot
    have hmem := Schema.mem_of_element?_eq_composite helement
    -- with two fields of a name only one would be in the object
    have hnodup := hdistinct t hmem
    rw [ofJson_of_element?_eq_composite helement (toJson_record_ne_null t.name fields),
      map_toValue_eq_ok_iff]
    refine recordOfJson_toJson_iff_everywhere (Schema.get?_eq_some_iff.2 ⟨hmem, rfl⟩) hnodup
      hrestored fun g hg element helement' hrestored' ↦ ?_
    -- each field is a slot of its own, one level below
    have hinner := Schema.slot?_eq_some helement'
    exact ih g hg _ hinner helement' rfl ((Schema.everySlot_record_iff.1 hreadable).2 g hg _ hinner)
      hrestored' (hfinite.fieldOf trivial g.name)
  | absent item hconforms => exact ofJson_toJson_null_iff f dims
  | array item items hconforms ih =>
    obtain ⟨dims, rfl, rfl⟩ := Slot.exists_of_array_eq_ofElement hslot
    rw [Schema.restored_array, Value.array.injEq] at hrestored
    have hback (v : Value) (hv : v ∈ items) :=
      ih v hv helement rfl ((Schema.everySlot_array_iff.1 hreadable).2 v hv)
        (List.map_inj_left.1 (hrestored.trans (List.map_id items).symm) v hv)
        (hfinite.item hv)
    rw [toJson_array, ofJson_array, everywhere_array_iff, map_array_eq_ok_iff,
      mapM_eq_ok_iff_forall₂, List.forall₂_map_left_iff, List.forall₂_same]
    exact (forall₂_congr hback).trans (and_iff_right ⟨trivial, trivial⟩).symm

end

end Value

namespace Image

variable {s : Schema} {r : Record} {b : List UInt8} {c : Content}

/-- **The document of what was read back is encoded into the same image**: the root that is decoded
from the image of a record is stored as this image, and, if the numbers in it are finite, it comes
back from its document exactly if all records in it name themselves and all characters in it are
ASCII. -/
theorem ofJson_toJson_root_iff (hs : s.validate = .ok ()) (hb : encode s r = .ok b)
    (hc : decode b = .ok c) (hfinite : c.root.toValue.Everywhere Value.IsFinite) :
    ∃ t, s.get? r.typeName = some t ∧ encode s c.root = .ok b ∧
      (Record.ofJson s t c.root.toJson = .ok c.root ↔
        c.root.toValue.Everywhere Value.NamesItself ∧
          c.root.toValue.Everywhere Value.IsAscii) := by
  obtain ⟨t, ht, hsettled⟩ := exists_settled hs hb hc
  have hdistinct := Schema.distinct_of_validate hs
  have hname := Schema.name_of_get?_eq_some ht
  refine ⟨t, ht, hsettled.encode, ?_⟩
  rw [← Value.everywhere_comesBack_iff]
  generalize c.root = root at hsettled hfinite ⊢
  obtain ⟨hroot, -, haccepts, hreadable, hrestored⟩ := hsettled
  obtain ⟨typeName, fields⟩ := root
  obtain rfl : typeName = t.name := hroot
  refine Value.recordOfJson_toJson_iff_everywhere (hname ▸ ht)
    (hdistinct t (Schema.mem_of_get?_eq_some ht)) hrestored
    fun f hf element helement hrestored' ↦ ?_
  have hinner := Schema.slot?_eq_some helement
  exact Value.ofJson_toJson_iff hdistinct
    ((Schema.conforms_record_iff.1 haccepts.1).2 f hf _ hinner) helement rfl
    ((Schema.everySlot_record_iff.1 hreadable).2 f hf _ hinner) hrestored'
    (hfinite.fieldOf trivial f.name)

/-- A type with a character and an array of numbers. -/
def sampleType : TypeDef :=
  ⟨"Sample", [⟨"mark", "char", 0, false⟩, ⟨"levels", "double", 1, false⟩]⟩

def sampleSchema : Schema :=
  ⟨none, [sampleType], by decide⟩

/-- A sample with the numbers 1 and -2. -/
def sample : Record :=
  ⟨"Sample", [("mark", .char 0x41),
    ("levels", .array [.double 0x3FF0000000000000, .double 0xC000000000000000])]⟩

def sampleDictionary : Dictionary :=
  ⟨#[⟨12, "Sample", [⟨"mark", 9, 0⟩, ⟨"levels", 7, 1⟩]⟩], 12⟩

/-- The image of the sample. -/
def sampleImage : List UInt8 :=
  imageForm sampleDictionary 12 (0x41 :: lengthWord 2 ++
    [0, 0, 0, 0, 0, 0, 0xF0, 0x3F] ++ [0, 0, 0, 0, 0, 0, 0, 0xC0])

theorem ofJson_toJson_root_iff_sample : (sampleSchema.validate = .ok () ∧
    encode sampleSchema sample = .ok sampleImage ∧
    decode sampleImage = .ok ⟨sampleDictionary, sample⟩ ∧
    sample.toValue.Everywhere Value.IsFinite) ∧
    ∃ t, sampleSchema.get? sample.typeName = some t ∧
      Record.ofJson sampleSchema t sample.toJson = .ok sample := by
  have hvalidate : sampleSchema.validate = .ok () := by cbv
  have hencode : encode sampleSchema sample = .ok sampleImage := by cbv
  have hdecode : decode sampleImage = .ok ⟨sampleDictionary, sample⟩ := by cbv
  have hlevels : Binary.isFinite64 0x3FF0000000000000 = true ∧
      Binary.isFinite64 0xC000000000000000 = true := by
    decide
  have hfinite : sample.toValue.Everywhere Value.IsFinite := by
    simp [sample, Record.toValue, Value.everywhere_record_iff, Value.everywhere_array_iff,
      Value.everywhere_leaf_iff, Value.IsFinite, hlevels]
  have hnames : sample.toValue.Everywhere Value.NamesItself := by
    simp [sample, Record.toValue, Value.everywhere_record_iff, Value.everywhere_array_iff,
      Value.everywhere_leaf_iff, Value.NamesItself, Value.fieldOf, Value.lookup?, typeKey,
      Value.toJson]
  have hascii : sample.toValue.Everywhere Value.IsAscii := by
    simp [sample, Record.toValue, Value.everywhere_record_iff, Value.everywhere_array_iff,
      Value.everywhere_leaf_iff, Value.IsAscii]
  obtain ⟨t, ht, -, hiff⟩ := ofJson_toJson_root_iff hvalidate hencode hdecode hfinite
  exact ⟨⟨hvalidate, hencode, hdecode, hfinite⟩, t, ht, hiff.2 ⟨hnames, hascii⟩⟩

/-! ### Documents that do not give the record back -/

/-- A type with a text in a field of the reserved name. -/
def taggedType : TypeDef :=
  ⟨"Tagged", [⟨typeKey, "string", 0, false⟩]⟩

def taggedSchema : Schema :=
  ⟨none, [taggedType], by decide⟩

def tagged : Record :=
  ⟨"Tagged", [(typeKey, .string "x")]⟩

def taggedDictionary : Dictionary :=
  ⟨#[⟨12, "Tagged", [⟨typeKey, 8, 0⟩]⟩], 12⟩

/-- A text in a field of the reserved name is taken for the name of the type. -/
theorem ofJson_toJson_tagged : ∃ b, taggedSchema.validate = .ok () ∧
    encode taggedSchema tagged = .ok b ∧ decode b = .ok ⟨taggedDictionary, tagged⟩ ∧
    tagged.toValue.Everywhere Value.IsFinite ∧
    taggedSchema.get? tagged.typeName = some taggedType ∧
    Record.ofJson taggedSchema taggedType tagged.toJson ≠ .ok tagged := by
  refine ⟨imageForm taggedDictionary 12 (textForm "x"), by cbv, by cbv, by cbv, ?_, by cbv, ?_⟩
  · simp [tagged, Record.toValue, Value.everywhere_record_iff, Value.everywhere_leaf_iff,
      Value.IsFinite]
  · have hjson : Record.ofJson taggedSchema taggedType tagged.toJson =
        .ok ⟨"x", [(typeKey, .string "x")]⟩ := by
      cbv
    rw [hjson]
    exact fun h ↦ absurd (congrArg Record.typeName (Except.ok.inj h)) (by decide)

/-- A sample whose character is not ASCII. -/
def accented : Record :=
  ⟨"Sample", [("mark", .char 0xE9), ("levels", .array [])]⟩

/-- A character that is not ASCII is one byte of the image and two of the text in the document. -/
theorem ofJson_toJson_accented : ∃ b, sampleSchema.validate = .ok () ∧
    encode sampleSchema accented = .ok b ∧ decode b = .ok ⟨sampleDictionary, accented⟩ ∧
    accented.toValue.Everywhere Value.IsFinite ∧
    sampleSchema.get? accented.typeName = some sampleType ∧
    Record.ofJson sampleSchema sampleType accented.toJson ≠ .ok accented := by
  refine ⟨imageForm sampleDictionary 12 (0xE9 :: lengthWord 0), by cbv, by cbv, by cbv, ?_, by cbv,
    ?_⟩
  · simp [accented, Record.toValue, Value.everywhere_record_iff, Value.everywhere_array_iff,
      Value.everywhere_leaf_iff, Value.IsFinite]
  · have hjson : Record.ofJson sampleSchema sampleType accented.toJson =
        .error (.typeMismatch "mark" "single-byte char" "string") := by
      cbv
    rw [hjson]
    intro h
    cases h

end Image

end GraphCodec
