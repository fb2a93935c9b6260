import GraphCodec.Command.Run
import GraphCodec.Proofs.DocumentTyping
import GraphCodec.Proofs.Encoding

/-!
# Documents that name types

An object of a document may name its own type, and then it is read as a record of this type and not
of the one that is expected of it. Nothing comes of this: writers refuse a record of another type
than its slot declares. So in whatever is written, every object that names its type names the one
that was expected, and it might as well have named none: without its type keys the document is read
as the same record (`Record.typeKeys_of_written`).

The two halves meet at one property of documents, `Json.NamesExpected`. It holds if the walk over
the record that was read is heard to its end by a listener that takes only records of their declared
types (`Listener.Strict`), as both writers are. Where it holds, the type keys make no difference to
reading.
-/

namespace GraphCodec

/-! ### Objects that are read as records -/

namespace Json

/-- The type that an object is read as, where the type `t` is expected. -/
def ownType (s : Schema) (t : TypeDef) (entries : List (String × Json)) : TypeDef :=
  (s.get? (Value.ownTypeName t.name entries)).getD t

/-- Whether an object is read as a record where `declared` is expected, somewhere in a document that
is read for a slot. -/
inductive Converts (s : Schema) (declared : TypeDef) (entries : List (String × Json)) :
    FieldType → (dims : Nat) → Json → Prop
  | here : Converts s declared entries (.composite declared) 0 (.object entries)
  | item {type : FieldType} {dims : Nat} {items : List Json} {json : Json} (mem : json ∈ items)
      (inner : Converts s declared entries type dims json) :
    Converts s declared entries type (dims + 1) (.array items)
  /-- The fields are those of the type that the outer object is read as. -/
  | field {t : TypeDef} {outer : List (String × Json)} {f : FieldDef} {json : Json}
      (mem : f ∈ (ownType s t outer).fields) (entry : entry? outer f.name = some json)
      (inner : Converts s declared entries (s.resolve f) f.dims json) :
    Converts s declared entries (.composite t) 0 (.object outer)

/-- Whether every object that is read as a record and names a type names the expected one. -/
def NamesExpected (s : Schema) (type : FieldType) (dims : Nat) (json : Json) : Prop :=
  ∀ declared entries, json.Converts s declared entries type dims →
    ∀ name, entry? entries typeKey = some (.string name) → name = declared.name

/-- Whether a key of an object means something other than the type of the object: a type may have a
field with the reserved name. -/
def isData (t : TypeDef) (key : String) : Bool :=
  key ≠ typeKey ∨ typeKey ∈ t.fieldNames

/-- A document without the type keys of the objects that are read as records. -/
def untagged (s : Schema) (type : FieldType) (dims : Nat) (json : Json) : Json :=
  match dims, type, json with
  | dims + 1, type, .array items =>
    .array (items.attach.map fun ⟨item, _h⟩ ↦ untagged s type dims item)
  | 0, .composite t, .object entries =>
    .object <| (entries.filter fun e ↦ isData (ownType s t entries) e.1).attach.map fun ⟨e, _h⟩ ↦
      (e.1, match (ownType s t entries).field? e.1 with
        | some f => untagged s (s.resolve f) f.dims e.2
        | none => e.2)
  | _, _, json => json
  termination_by sizeOf json
  decreasing_by
    · have := List.sizeOf_lt_of_mem _h
      simp only [Json.array.sizeOf_spec]
      omega
    · have := List.sizeOf_lt_of_mem (List.mem_of_mem_filter _h)
      have : sizeOf e = 1 + sizeOf e.1 + sizeOf e.2 := by cases e; rfl
      simp only [Json.object.sizeOf_spec]
      omega

/-! ### Removing type keys -/

section

variable (s : Schema)

/-- The entry of an object that is read as a record of type `t`, without the type keys in it. -/
def untaggedEntry (t : TypeDef) (e : String × Json) : String × Json :=
  (e.1, match t.field? e.1 with
    | some f => untagged s (s.resolve f) f.dims e.2
    | none => e.2)

/-- The entries of such an object. -/
def untaggedEntries (t : TypeDef) (entries : List (String × Json)) : List (String × Json) :=
  (entries.filter fun e ↦ isData t e.1).map (untaggedEntry s t)

theorem untagged_array (type : FieldType) (dims : Nat) (items : List Json) :
    untagged s type (dims + 1) (.array items) = .array (items.map (untagged s type dims)) := by
  rw [untagged.eq_def]
  simp

theorem untagged_object (t : TypeDef) (entries : List (String × Json)) :
    untagged s (.composite t) 0 (.object entries) =
      .object (untaggedEntries s (ownType s t entries) entries) := by
  rw [untagged.eq_def]
  exact congrArg object (List.attach_map_val (f := untaggedEntry s (ownType s t entries)))

/-- Whatever is neither an array in a slot for one nor an object in a slot for a record stays. -/
theorem untagged_eq_self {type : FieldType} {dims : Nat} {json : Json}
    (harray : ∀ items, json = .array items → dims = 0)
    (hobject : ∀ t entries, type = .composite t → json = .object entries → dims ≠ 0) :
    untagged s type dims json = json := by
  rw [untagged.eq_def]
  split
  · exact absurd (harray _ rfl) (Nat.succ_ne_zero _)
  · exact absurd rfl (hobject _ _ rfl rfl)
  · rfl

/-- Leaving out type names makes no text of anything and leaves every text as it is. -/
theorem asString?_untagged (type : FieldType) (dims : Nat) (json : Json) :
    (untagged s type dims json).asString? = json.asString? := by
  rw [untagged.eq_def]
  split <;> rfl

/-- What is absent is so before and after. -/
theorem untagged_eq_null_iff {type : FieldType} {dims : Nat} {json : Json} :
    untagged s type dims json = .null ↔ json = .null := by
  rw [untagged.eq_def]
  split <;> simp

/-- An array is what it was, item by item. -/
theorem untagged_eq_array_iff {type : FieldType} {dims : Nat} {json : Json} {left : List Json} :
    untagged s type (dims + 1) json = .array left ↔
      ∃ items, json = .array items ∧ left = items.map (untagged s type dims) := by
  cases json with
  | array items =>
    rw [untagged_array]
    simp [eq_comm]
  | _ => rw [untagged_eq_self s (by simp) (by simp)]; simp

/-- An object is what it was, less its own type name. -/
theorem untagged_eq_object_iff {t : TypeDef} {json : Json} {left : List (String × Json)} :
    untagged s (.composite t) 0 json = .object left ↔
      ∃ entries, json = .object entries ∧
        left = untaggedEntries s (ownType s t entries) entries := by
  cases json with
  | object entries =>
    rw [untagged_object]
    simp [eq_comm]
  | _ => rw [untagged_eq_self s (by simp) (by simp)]; simp

/-- A look-up among the entries without type keys. -/
theorem entry?_untaggedEntries (t : TypeDef) (entries : List (String × Json)) (name : String) :
    entry? (untaggedEntries s t entries) name =
      if isData t name then
        (Json.entry? entries name).map fun json ↦ (untaggedEntry s t (name, json)).2
      else none := by
  unfold untaggedEntries
  induction entries with
  | nil => simp [Json.entry?]
  | cons e entries ih =>
    obtain ⟨key, json⟩ := e
    by_cases hkey : key = name
    · subst hkey
      by_cases hdata : isData t key = true
      · simp [Json.entry?, hdata, untaggedEntry]
      · rw [List.filter_cons, if_neg hdata, ih, if_neg hdata, if_neg hdata]
    · have hlookup : entry? ((key, json) :: entries) name = entry? entries name := by
        simp [Json.entry?, hkey]
      rw [hlookup, ← ih, List.filter_cons]
      split
      · simp [Json.entry?, untaggedEntry, hkey]
      · rfl

/-- **A field without type keys** is described by what described it, without its type keys. -/
theorem entry?_untaggedEntries_field {t : TypeDef} (hnodup : t.fieldNames.Nodup)
    (entries : List (String × Json)) {f : FieldDef} (hf : f ∈ t.fields) :
    entry? (untaggedEntries s t entries) f.name =
      (Json.entry? entries f.name).map (untagged s (s.resolve f) f.dims) := by
  have hdata : isData t f.name = true := by
    have hmem : f.name ∈ t.fieldNames := List.mem_map_of_mem hf
    by_cases hname : f.name = typeKey
    · exact decide_eq_true (.inr (hname ▸ hmem))
    · exact decide_eq_true (.inl hname)
  have hfield : t.field? f.name = some f := Dictionary.find?_key hnodup hf
  rw [entry?_untaggedEntries, if_pos hdata]
  simp only [untaggedEntry, hfield]

/-- The text under the type key stays, unless the key is removed. -/
theorem text_untaggedEntries (t : TypeDef) (entries : List (String × Json)) :
    (Json.entry? (untaggedEntries s t entries) typeKey).bind asString? =
      if typeKey ∈ t.fieldNames then (Json.entry? entries typeKey).bind asString? else none := by
  have hdata : isData t typeKey = true ↔ typeKey ∈ t.fieldNames := by simp [isData]
  rw [entry?_untaggedEntries]
  simp only [hdata]
  split
  · cases entry? entries typeKey with
    | none => rfl
    | some json =>
      show asString? (untaggedEntry s t (typeKey, json)).2 = asString? json
      unfold untaggedEntry
      split
      · exact asString?_untagged s _ _ json
      · rfl
  · rfl

end

/-! ### Documents whose type keys say nothing new -/

section

variable {s : Schema}

/-- Items name what is expected if their array does. -/
theorem NamesExpected.item {type : FieldType} {dims : Nat} {items : List Json}
    (h : (array items).NamesExpected s type (dims + 1)) {json : Json} (mem : json ∈ items) :
    json.NamesExpected s type dims :=
  fun declared entries inner ↦ h declared entries (.item mem inner)

/-- So do the fields of an object, by the type that it names. -/
theorem NamesExpected.field {t : TypeDef} {outer : List (String × Json)}
    (h : (object outer).NamesExpected s (.composite t) 0) {f : FieldDef}
    (mem : f ∈ (ownType s t outer).fields) {json : Json}
    (entry : entry? outer f.name = some json) : json.NamesExpected s (s.resolve f) f.dims :=
  fun declared entries inner ↦ h declared entries (.field mem entry inner)

variable {t : TypeDef} {entries : List (String × Json)}

/-- An object that names what is expected is read by the declared type. -/
theorem NamesExpected.ownTypeName_eq (h : (object entries).NamesExpected s (.composite t) 0) :
    Value.ownTypeName t.name entries = t.name := by
  unfold Value.ownTypeName
  cases hentry : entry? entries typeKey with
  | none => rfl
  | some json =>
    cases json with
    | string name => exact h t entries .here name hentry
    | _ => rfl

theorem NamesExpected.ownType_eq (h : (object entries).NamesExpected s (.composite t) 0)
    (ht : t ∈ s.types) : ownType s t entries = t := by
  rw [ownType, h.ownTypeName_eq, Schema.get?_eq_some_iff.2 ⟨ht, rfl⟩, Option.getD_some]

/-- What is left of an object names the same type. -/
theorem NamesExpected.ownTypeName_untaggedEntries
    (h : (object entries).NamesExpected s (.composite t) 0) :
    Value.ownTypeName t.name (untaggedEntries s t entries) = t.name := by
  rw [Value.ownTypeName, text_untaggedEntries]
  split
  · exact h.ownTypeName_eq
  · rfl

/-- **No type keys are left**, except those that are data. -/
theorem NamesExpected.typeKey_of_converts_untagged (hs : s.Distinct) {type : FieldType} {dims : Nat}
    {json : Json} (hnames : json.NamesExpected s type dims)
    (htype : ∀ t, type = .composite t → t ∈ s.types) {declared : TypeDef}
    (h : (json.untagged s type dims).Converts s declared entries type dims) :
    entry? entries typeKey = none ∨ typeKey ∈ declared.fieldNames := by
  -- by the place of the object in what is left; each place has a document that it is left of
  generalize huntagged : json.untagged s type dims = left at h
  induction h generalizing json with
  | here =>
    obtain ⟨outer, rfl, rfl⟩ := (untagged_eq_object_iff s).1 huntagged
    rw [hnames.ownType_eq (htype _ rfl), entry?_untaggedEntries]
    by_cases hfield : typeKey ∈ declared.fieldNames
    · exact .inr hfield
    · exact .inl (if_neg fun hdata ↦ hfield ((of_decide_eq_true hdata).resolve_left (· rfl)))
  | item mem inner ih =>
    obtain ⟨items, rfl, rfl⟩ := (untagged_eq_array_iff s).1 huntagged
    obtain ⟨item, hitem, rfl⟩ := List.mem_map.1 mem
    exact ih (hnames.item hitem) htype rfl
  | @field t _ f _ mem entry inner ih =>
    obtain ⟨outer, rfl, rfl⟩ := (untagged_eq_object_iff s).1 huntagged
    have ht := htype t rfl
    have hown := hnames.ownType_eq ht
    rw [hown, ownType, hnames.ownTypeName_untaggedEntries, Schema.get?_eq_some_iff.2 ⟨ht, rfl⟩,
      Option.getD_some] at mem
    rw [hown, entry?_untaggedEntries_field s (hs t ht) outer mem] at entry
    obtain ⟨json, hentry, rfl⟩ := Option.map_eq_some_iff.1 entry
    exact ih (hnames.field (hown.symm ▸ mem) hentry)
      (fun u hu ↦ Schema.mem_of_resolve_eq_composite hu) rfl

end

end Json

/-! ### Reading documents without type keys -/

theorem mapM_congr_of_mem {α β : Type} {f g : α → Except Fault β} {as : List α}
    (h : ∀ a ∈ as, f a = g a) : as.mapM f = as.mapM g := by
  induction as with
  | nil => rfl
  | cons a as ih =>
    obtain ⟨ha, has⟩ := List.forall_mem_cons.1 h
    rw [List.mapM_cons, List.mapM_cons, ha, ih has]

namespace Value

variable {s : Schema}

mutual

/-- **A record is read without type keys** as with them, if they name the expected types. -/
theorem recordOfJson_untagged (hs : s.Distinct) {t : TypeDef} (ht : t ∈ s.types) (json : Json)
    (h : json.NamesExpected s (.composite t) 0) :
    recordOfJson s t (json.untagged s (.composite t) 0) = recordOfJson s t json := by
  match json, h with
  | .object entries, h =>
    have hget : s.get? t.name = some t := Schema.get?_eq_some_iff.2 ⟨ht, rfl⟩
    rw [Json.untagged_object, h.ownType_eq ht, recordOfJson_object, recordOfJson_object,
      h.ownTypeName_untaggedEntries, h.ownTypeName_eq, hget, Option.getD_some]
    refine congrArg (· >>= _) (mapM_congr_of_mem fun f hf ↦ ?_)
    rw [fieldOfJson_eq, fieldOfJson_eq, Json.entry?_untaggedEntries_field s (hs t ht) entries hf]
    cases hentry : Json.entry? entries f.name with
    | none => rfl
    | some inner =>
      have hinner := h.field ((h.ownType_eq ht).symm ▸ hf) hentry
      rw [Option.map_some, Option.getD_some, Option.getD_some,
        ofJson_untagged hs f f.dims inner hinner]
  | .null, h | .bool _, h | .integer _, h | .double _, h | .string _, h | .array _, h =>
    rw [Json.untagged_eq_self s (by simp) (by simp)]
  termination_by (sizeOf json, 0)
  decreasing_by
    have := Json.sizeOf_lt_of_entry?_eq_some hentry
    apply Prod.Lex.left
    simp only [Json.object.sizeOf_spec]
    omega

/-- **A value is read without type keys** as with them. -/
theorem ofJson_untagged (hs : s.Distinct) (f : FieldDef) (dims : Nat) (json : Json)
    (h : json.NamesExpected s (s.resolve f) dims) :
    ofJson s f dims (json.untagged s (s.resolve f) dims) = ofJson s f dims json := by
  match dims, json, h with
  | dims + 1, .array items, h =>
    rw [Json.untagged_array, ofJson_array, ofJson_array, List.mapM_map]
    exact congrArg (Except.map array) (mapM_congr_of_mem fun item hitem ↦
      ofJson_untagged hs f dims item (h.item hitem))
  | dims + 1, .null, h | dims + 1, .bool _, h | dims + 1, .integer _, h | dims + 1, .double _, h
  | dims + 1, .string _, h | dims + 1, .object _, h =>
    rw [Json.untagged_eq_self s (by simp) (by simp)]
  | 0, json, h =>
    by_cases hjson : json = .null
    · rw [hjson, Json.untagged_eq_self s (by simp) (by simp)]
    rw [ofJson_zero f hjson, ofJson_zero f (mt (Json.untagged_eq_null_iff s).1 hjson)]
    cases hresolve : s.resolve f with
    | composite t =>
      rw [hresolve] at h
      exact congrArg (Except.map Record.toValue)
        (recordOfJson_untagged hs (Schema.mem_of_resolve_eq_composite hresolve) json h)
    | primitive k | unknown => rw [Json.untagged_eq_self s (by simp) (by simp)]
  termination_by (sizeOf json, 1)
  decreasing_by
    · have := List.sizeOf_lt_of_mem hitem
      apply Prod.Lex.left
      simp only [Json.array.sizeOf_spec]
      omega
    · apply Prod.Lex.right
      decide

end

end Value

/-! ### Walks that are heard out -/

/-- Whether a listener hears a walk to its end, from some state. -/
def Listener.HearsOut {ε σ : Type} (listen : Listener ε σ) (t : Trace ε Unit) : Prop :=
  ∃ s s', Trace.run listen t s = .ok () s'

/-- Whether a listener takes only records of the types that their slots declare. -/
def Listener.Strict {σ : Type} (listen : Listener ValueEvent σ) : Prop :=
  ∀ field declared t s s', listen (.beginRecord field declared t) s = .ok () s' → t.name = declared

namespace Listener

variable {ε σ α : Type} {listen : Listener ε σ} {t : Trace ε Unit}

/-- A listener that hears out two walks hears out both. -/
theorem HearsOut.of_bind {f : Unit → Trace ε Unit} (h : listen.HearsOut (t >>= f)) :
    listen.HearsOut t ∧ listen.HearsOut (f ()) := by
  obtain ⟨s, s', hrun⟩ := h
  obtain ⟨_, between, ht, hf⟩ := Trace.run_bind_eq_ok_iff.1 hrun
  exact ⟨⟨s, between, ht⟩, between, s', hf⟩

/-- And each of a sequence. -/
theorem HearsOut.of_sequence {walk : α → Trace ε Unit} {as : List α}
    (h : listen.HearsOut (Trace.sequence (as.map walk))) {a : α} (ha : a ∈ as) :
    listen.HearsOut (walk a) := by
  induction as with
  | nil => exact absurd ha List.not_mem_nil
  | cons b as ih =>
    rw [List.map_cons, Trace.sequence_cons] at h
    rcases List.mem_cons.1 ha with rfl | ha
    · exact h.of_bind.1
    · exact ih h.of_bind.2 ha

theorem not_hearsOut_fail (e : Fault) : ¬listen.HearsOut (Trace.fail e) := by
  rintro ⟨s, s', hrun⟩
  cases hrun

end Listener

/-- The writer refuses records of other types than declared. -/
theorem Image.Writer.strict_listener (d : Dictionary) : (Writer.listener d).Strict := by
  intro field declared t w w' h
  simp only [Writer.listener] at h
  split at h
  · exact ((checkType_eq_ok_iff field).1 ‹_›).2
  · cases h

/-- So does the builder. -/
theorem Container.Builder.strict_listener : Builder.listener.Strict := by
  intro field declared t b b' h
  by_contra hname
  simp only [Builder.listener, if_pos hname] at h
  cases h

/-! ### What is written names the expected types -/

namespace Schema

variable {s : Schema} {σ : Type} {listen : Listener ValueEvent σ}

/-- The type of a record that is heard out is the declared one, and its fields are heard out. -/
theorem hearsOut_walkRecord (hstrict : listen.Strict) {field : Option String} {declared : String}
    {t : TypeDef} {fields : List (String × Value)}
    (h : listen.HearsOut (s.walkRecord field declared t fields)) :
    t.name = declared ∧ ∀ f ∈ t.fields, ∃ element : ElementType, s.resolve f = element.declared ∧
      listen.HearsOut (s.walkValue f element f.dims (Value.fieldOf fields f.name)) := by
  rw [walkRecord] at h
  obtain ⟨⟨state, state', hbegin⟩, hrest⟩ := h.of_bind
  rw [Trace.run_emit] at hbegin
  refine ⟨hstrict _ _ _ _ _ hbegin, fun f hf ↦ ?_⟩
  have hfield := hrest.of_bind.1.of_sequence hf
  cases hresolve : s.resolve f with
  | primitive k =>
    rw [hresolve] at hfield
    exact ⟨.primitive k, rfl, hfield⟩
  | composite c =>
    rw [hresolve] at hfield
    exact ⟨.composite c, rfl, hfield⟩
  | unknown =>
    rw [hresolve] at hfield
    exact absurd hfield (Listener.not_hearsOut_fail _)

/-- An object names the expected types if its record is heard out and the documents of the fields,
which are heard out with it, name theirs. -/
theorem namesExpected_of_walkRecord (hstrict : listen.Strict) {t : TypeDef}
    {entries : List (String × Json)} {fields : List (String × Value)} {field : Option String}
    {declared : String} (hname : Value.ownTypeName t.name entries = t.name)
    (h : listen.HearsOut (s.walkRecord field declared (Json.ownType s t entries) fields))
    (ih : ∀ f ∈ (Json.ownType s t entries).fields, ∀ element : ElementType,
      s.resolve f = element.declared →
      listen.HearsOut (s.walkValue f element f.dims (Value.fieldOf fields f.name)) →
      ((Json.entry? entries f.name).getD .null).NamesExpected s (s.resolve f) f.dims) :
    (Json.object entries).NamesExpected s (.composite t) 0 := by
  intro declared' entries' hconverts name hentry
  cases hconverts with
  | here =>
    rw [← hname, Value.ownTypeName, hentry]
    rfl
  | @field _ _ f json mem entry inner =>
    obtain ⟨element, helement, hfield⟩ := (hearsOut_walkRecord hstrict h).2 f mem
    have hnames := ih f mem element helement hfield
    rw [entry, Option.getD_some] at hnames
    exact hnames declared' entries' inner name hentry

/-- **A value that is heard out** was described by a document that names the expected types. -/
theorem namesExpected_of_walkValue (hstrict : listen.Strict) {type : FieldType} {dims : Nat}
    {json : Json} {v : Value} (h : json.Describes s type dims v) :
    ∀ (f : FieldDef) (element : ElementType), type = element.declared →
      listen.HearsOut (s.walkValue f element dims v) → json.NamesExpected s type dims := by
  induction h with
  | absent type dims =>
    intro f element _ _ declared entries hconverts
    cases hconverts
  | @array type dims items vs length each ih =>
    intro f element helement hwalk declared entries hconverts
    cases hconverts with
    | @item _ _ _ json mem inner =>
      obtain ⟨k, rfl, rfl⟩ | row := row_cases element dims
      · -- in a row of primitives nothing is read as a record
        subst helement
        cases inner
      · rw [walkValue_array s f row] at hwalk
        rw [← List.map_fst_zip length.le] at mem
        obtain ⟨⟨_, v⟩, hp, rfl⟩ := List.mem_map.1 mem
        exact ih _ hp f element helement
          (hwalk.of_bind.2.of_bind.1.of_sequence (List.of_mem_zip hp).2) declared entries inner
  | scalar scalar =>
    intro f element _ _ declared entries hconverts
    cases hconverts
  | @record t own typeName entries fields named known names each ih =>
    intro f element helement hwalk
    obtain rfl : element = .composite t := by cases element <;> simp_all [ElementType.declared]
    rw [walkValue] at hwalk
    split at hwalk
    · rename_i u hget
      have hown : Json.ownType s t entries = u := by
        rw [Json.ownType, ← named, hget, Option.getD_some]
      have hname : Value.ownTypeName t.name entries = t.name := by
        rw [← named, ← name_of_get?_eq_some hget]
        exact (hearsOut_walkRecord hstrict hwalk).1
      rw [← hown] at hwalk
      rw [known, named] at ih
      exact namesExpected_of_walkRecord hstrict hname hwalk fun g hg element helement ↦
        ih g hg g element helement
    · exact absurd hwalk (Listener.not_hearsOut_fail _)

/-- **A document that is written** names the expected types, provided that it names that of the
root. -/
theorem namesExpected_of_walkRoot (hstrict : listen.Strict) {t : TypeDef} (ht : t ∈ s.types)
    {json : Json} {r : Record} (hname : r.typeName = t.name)
    (hdescribes : json.Describes s (.composite t) 0 r.toValue)
    (h : listen.HearsOut (s.walkRoot r)) : json.NamesExpected s (.composite t) 0 := by
  obtain ⟨typeName, fields⟩ := r
  cases hdescribes with
  | @record _ own _ entries _ named known names each =>
    have hget : s.get? typeName = some t := get?_eq_some_iff.2 ⟨ht, hname.symm⟩
    have hown : Json.ownType s t entries = t := by
      rw [Json.ownType, ← named, hget, Option.getD_some]
    rw [known, named] at each
    simp only [walkRoot, hget] at h
    rw [← hown] at h
    exact namesExpected_of_walkRecord hstrict (named.symm.trans hname) h fun f hf element helement ↦
      namesExpected_of_walkValue hstrict (each f hf) f element helement

end Schema

/-! ### Documents that are written -/

/-- A record that has an image has been heard out by the writer. -/
theorem Image.hearsOut_of_encode {s : Schema} {r : Record} {b : List UInt8}
    (h : encode s r = .ok b) : ∃ d, (Writer.listener d).HearsOut (s.walkRoot r) := by
  obtain ⟨t, d, _, w, hget, -, -, -, hrun, -⟩ := encode_eq_ok_iff_walk.1 h
  have hwalk : s.walkRoot r = s.walkRecord none t.name t r.fields := by rw [Schema.walkRoot, hget]
  exact ⟨d, _, w, hwalk ▸ hrun⟩

/-- A record that has a tree has been heard out by the builder. -/
theorem Container.hearsOut_of_ofRecord {s : Schema} {r : Record} {tree : Tree}
    (h : ofRecord s r = .ok tree) : Builder.listener.HearsOut (s.walkRoot r) := by
  obtain ⟨⟨_, b⟩, hrun, -⟩ := bind_eq_ok_iff.1 h
  exact ⟨_, b, Trace.outcomeFrom_eq_ok_iff.1 hrun⟩

/-- The command takes a document only for a record of the type that was asked for. -/
theorem Command.recordOf_eq_ok_iff {s : Schema} {t : TypeDef} {json : Json} {r : Record} :
    recordOf s t json = .ok r ↔ Record.ofJson s t json = .ok r ∧ r.typeName = t.name := by
  unfold recordOf
  rw [bind_eq_ok_iff]
  constructor
  · rintro ⟨r', hread, hcheck⟩
    by_cases hname : r'.typeName = t.name
    · rw [if_neg (not_not.2 hname)] at hcheck
      cases hcheck
      exact ⟨hread, hname⟩
    · rw [if_pos hname] at hcheck
      cases hcheck
  · rintro ⟨hread, hname⟩
    refine ⟨r, hread, ?_⟩
    rw [if_neg (not_not.2 hname)]
    rfl

namespace Record

/-- **No document changes types.** If the record that a document describes is written, as an image
or as a container, then every object in the document that names its type names the one that is
expected of it. Without the type keys, of which only those are left that are fields of their types,
the document describes the same record, so that the same is written. -/
theorem typeKeys_of_written {s : Schema} (hs : s.validate = .ok ()) {t : TypeDef}
    (ht : t ∈ s.types) {json : Json} {r : Record} (hload : Command.recordOf s t json = .ok r)
    (hsave : (∃ b, Image.encode s r = .ok b) ∨ ∃ tree, Container.ofRecord s r = .ok tree) :
    json.NamesExpected s (.composite t) 0 ∧
    (∀ declared entries, (json.untagged s (.composite t) 0).Converts s declared entries
        (.composite t) 0 →
      Json.entry? entries typeKey = none ∨ typeKey ∈ declared.fieldNames) ∧
    Command.recordOf s t (json.untagged s (.composite t) 0) = .ok r := by
  have hdistinct := Schema.distinct_of_validate hs
  obtain ⟨hread, hname⟩ := Command.recordOf_eq_ok_iff.1 hload
  have hdescribes := Value.describes_of_recordOfJson hdistinct ht json hread
  have hnames : json.NamesExpected s (.composite t) 0 := by
    rcases hsave with ⟨b, hb⟩ | ⟨tree, htree⟩
    · obtain ⟨d, hears⟩ := Image.hearsOut_of_encode hb
      exact Schema.namesExpected_of_walkRoot (Image.Writer.strict_listener d) ht hname hdescribes
        hears
    · exact Schema.namesExpected_of_walkRoot Container.Builder.strict_listener ht hname hdescribes
        (Container.hearsOut_of_ofRecord htree)
  refine ⟨hnames, fun declared entries hconverts ↦ ?_, Command.recordOf_eq_ok_iff.2 ⟨?_, hname⟩⟩
  · refine hnames.typeKey_of_converts_untagged hdistinct (fun u hu ↦ ?_) hconverts
    cases hu
    exact ht
  · rw [ofJson, Value.recordOfJson_untagged hdistinct ht json hnames]
    exact hread

/-! The type key of a tray is one of its fields and stays; that of a sample on it goes. -/

def trayType : TypeDef :=
  ⟨"Tray", [⟨typeKey, "string", 0, false⟩, ⟨"samples", "Sample", 1, false⟩]⟩

def traySchema : Schema :=
  ⟨none, [trayType, Image.sampleType], by decide⟩

def trayDocument (sample : List (String × Json)) : Json :=
  .object [(typeKey, .string "Tray"), ("samples", .array [.object sample])]

def tray : Record :=
  ⟨"Tray", [(typeKey, .string "Tray"),
    ("samples", .array [.record "Sample" [("mark", .char 0x41), ("levels", .null)]])]⟩

theorem typeKeys_of_written_tray : traySchema.validate = .ok () ∧ trayType ∈ traySchema.types ∧
    Command.recordOf traySchema trayType
      (trayDocument [(typeKey, .string "Sample"), ("mark", .string "A")]) = .ok tray ∧
    (∃ b, Image.encode traySchema tray = .ok b) ∧
    (trayDocument [(typeKey, .string "Sample"), ("mark", .string "A")]).NamesExpected traySchema
      (.composite trayType) 0 ∧
    Command.recordOf traySchema trayType (trayDocument [("mark", .string "A")]) = .ok tray := by
  have hvalidate : traySchema.validate = .ok () := by cbv
  have htype : trayType ∈ traySchema.types := List.mem_cons_self
  have hload : Command.recordOf traySchema trayType
      (trayDocument [(typeKey, .string "Sample"), ("mark", .string "A")]) = .ok tray := by
    cbv
  have hsave : ∃ b, Image.encode traySchema tray = .ok b := ⟨_, by cbv⟩
  have huntagged : (trayDocument [(typeKey, .string "Sample"), ("mark", .string "A")]).untagged
      traySchema (.composite trayType) 0 = trayDocument [("mark", .string "A")] := by
    cbv
  obtain ⟨hnames, -, hsame⟩ := typeKeys_of_written hvalidate htype hload (.inl hsave)
  exact ⟨hvalidate, htype, hload, hsave, hnames, huntagged ▸ hsame⟩

end Record

end GraphCodec
