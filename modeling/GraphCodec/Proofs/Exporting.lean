import GraphCodec.Proofs.Building

/-!
# Exporting a record

The walk over the value in a slot puts a tree into whatever frame there is, if the value is
exported, and fails otherwise (`builds`). If the fields of each type have distinct names, it is the
tree of the slot; if they have not, a tree is put as well, but it need not be that one.

Hence the records that are exported are those of a known type whose slots all hold what they
demand, and in a well-formed schema the container is the tree that the recursion over the record
gives (`ofRecord_eq_ok_iff_tree`).
-/

namespace GraphCodec

/-- Whether elements are of a kind or of a type of the schema. -/
def Schema.HasElement (s : Schema) : ElementType → Prop
  | .primitive _ => True
  | .composite t => t ∈ s.types

/-- A field has an element of the schema. -/
theorem Schema.hasElement_of_element? {s : Schema} {f : FieldDef} {element : ElementType}
    (h : s.element? f = some element) : s.HasElement element := by
  cases element with
  | primitive k => trivial
  | composite t => exact mem_of_element?_eq_composite h

namespace Container

namespace Builder

/-- What is to be shown of the walk over a value: whatever slot it is in, there is a tree that the
walk puts into whatever frame takes it. -/
def Builds (s : Schema) (v : Value) : Prop :=
  ∀ (f : FieldDef) (element : ElementType) (dims : Nat), s.HasElement element → ∃ tree,
    (s.Distinct → tree = s.tree (.ofElement element dims true) v) ∧
    Shaped (.ofElement element dims true) v tree ∧
    ∀ {b b'}, place f.name (.ofElement element dims true) tree b = .ok () b' →
      Leads (s.walkValue f element dims v) (s.Exports (.ofElement element dims true) v) b b'

section

variable {s : Schema}

/-- A value that is refused in a slot is so whatever its tree should be. -/
theorem exists_tree_of_leads {slot : Slot} {v : Value} {field : String}
    {t : Trace ValueEvent Unit} {P : Prop}
    (h : ∀ {b b'}, place field slot (s.tree slot v) b = .ok () b' → Leads t P b b') :
    ∃ tree, (s.Distinct → tree = s.tree slot v) ∧ Shaped slot v tree ∧
      ∀ {b b'}, place field slot tree b = .ok () b' → Leads t P b b' :=
  ⟨_, fun _ ↦ rfl, shaped_tree s slot v, h⟩

/-- A scalar is told in one event, which stores its tree. -/
theorem builds_scalar (f : FieldDef) (k : Kind) (v : Value) {b b' : Builder}
    (h : place f.name (.primitive k true) (s.tree (.primitive k true) v) b = .ok () b') :
    Leads (s.walkValue f (.primitive k) 0 v) (s.Exports (.primitive k true) v) b b' := by
  rw [Schema.walkValue]
  have hiff : s.Exports (.primitive k true) v ↔ v.matchesKind k = true :=
    Schema.exports_primitive_iff
  split
  · rename_i hkind
    rw [s.tree_primitive] at h
    refine (leads_emit ?_).congr (iff_of_true trivial (hiff.2 hkind))
    show attachOrFail f.name (Tree.ofScalar f.name k v) b = _
    rw [Tree.ofScalar_eq_leaf f.name hkind]
    exact h
  · rename_i hkind
    exact leads_fail _ fun hexports ↦ hkind (hiff.1 hexports)

/-- **A field of a record** is put under its name. -/
theorem builds_field {fields : List (String × Value)}
    (ih : ∀ name, Builds s (Value.fieldOf fields name)) (t : TypeDef) (f : FieldDef) : ∃ tree,
    (s.Distinct → tree = match s.slot? f with
      | some inner => s.tree inner (Value.fieldOf fields f.name)
      | none => Tree.empty) ∧
    ∀ {wrap a}, Takes wrap → a.size = 1 →
      Leads (match s.resolve f with
        | .primitive k => s.walkValue f (.primitive k) f.dims (Value.fieldOf fields f.name)
        | .composite c => s.walkValue f (.composite c) f.dims (Value.fieldOf fields f.name)
        | .unknown => Trace.fail (unsupportedField t f))
      (∃ inner, s.slot? f = some inner ∧ s.Exports inner (Value.fieldOf fields f.name))
      (wrap a) (wrap (a.put Tree.empty f.name 0 tree)) := by
  have hknown : ∀ {element}, s.element? f = some element → ∃ tree,
      (s.Distinct → tree = s.tree (.ofElement element f.dims true) (Value.fieldOf fields f.name)) ∧
      ∀ {wrap a}, Takes wrap → a.size = 1 →
        Leads (s.walkValue f element f.dims (Value.fieldOf fields f.name))
          (∃ inner, s.slot? f = some inner ∧ s.Exports inner (Value.fieldOf fields f.name))
          (wrap a) (wrap (a.put Tree.empty f.name 0 tree)) := by
    intro element helement
    obtain ⟨tree, heq, hshaped, hleads⟩ :=
      ih f.name f element f.dims (Schema.hasElement_of_element? helement)
    refine ⟨tree, heq, fun hwrap ha ↦ (hleads (hwrap.place ha f.name hshaped)).congr ?_⟩
    rw [Schema.slot?_eq_some helement]
    simp only [Option.some.injEq, exists_eq_left']
  cases hresolve : s.resolve f with
  | primitive k =>
    have helement : s.element? f = some (.primitive k) := by rw [Schema.element?, hresolve]
    rw [Schema.slot?_eq_some helement] at hknown ⊢
    exact hknown helement
  | composite c =>
    have helement := Schema.element?_eq_composite_iff.2 hresolve
    rw [Schema.slot?_eq_some helement] at hknown ⊢
    exact hknown helement
  | unknown =>
    have hslot : s.slot? f = none := by rw [Schema.slot?, Schema.element?, hresolve]; rfl
    rw [hslot]
    exact ⟨Tree.empty, fun _ ↦ rfl, fun _ _ ↦ leads_fail _ fun ⟨_, h, _⟩ ↦ nomatch h⟩

/-- **The fields of a record** are put one after the other into whatever takes them. -/
theorem builds_fields {fields : List (String × Value)}
    (ih : ∀ name, Builds s (Value.fieldOf fields name)) (t : TypeDef) (typeName : String) :
    ∃ row : List Tree,
    row.length = t.fields.length ∧ (s.Distinct → row = s.row t (.record typeName fields)) ∧
    ∀ {wrap a}, Takes wrap → a.size = 1 →
      Leads (Trace.sequence <| t.fields.map fun f ↦
          match s.resolve f with
          | .primitive k => s.walkValue f (.primitive k) f.dims (Value.fieldOf fields f.name)
          | .composite c => s.walkValue f (.composite c) f.dims (Value.fieldOf fields f.name)
          | .unknown => Trace.fail (unsupportedField t f))
        (∀ f ∈ t.fields, ∃ inner, s.slot? f = some inner ∧
          s.Exports inner (Value.fieldOf fields f.name))
        (wrap a) (wrap (a.putAll Tree.empty 0 (t.fieldNames.zip row))) := by
  choose tree heq hleads using builds_field ih t
  refine ⟨t.fields.map tree, List.length_map _, fun hdistinct ↦ ?_, fun {wrap a} hwrap ha ↦ ?_⟩
  · rw [s.row_record]
    exact List.map_congr_left fun f _ ↦ heq f hdistinct
  · have hpairs : t.fieldNames.zip (t.fields.map tree) = t.fields.map fun f ↦ (f.name, tree f) :=
      List.zip_map'
    have hsequence := leads_sequence
      (fun done ↦ wrap (a.putAll Tree.empty 0 (done.map fun f ↦ (f.name, tree f))))
      fun done f (_ : done ++ [f] <+: t.fields) ↦ by
        rw [List.map_append, List.map_singleton, StructArray.putAll_append_singleton]
        exact hleads f hwrap ((StructArray.size_putAll _ _).trans ha)
    rw [hpairs]
    exact hsequence

/-- **A record of its declared type** becomes a struct. -/
theorem builds_record {t : TypeDef} (ht : t ∈ s.types) (f : FieldDef)
    {fields : List (String × Value)} (ih : ∀ name, Builds s (Value.fieldOf fields name)) :
    ∃ rows, (s.Distinct → (.struct ⟨t.fieldNames, rows⟩ : Tree) =
      s.tree (.record t) (.record t.name fields)) ∧
    ∀ {b b'}, attach f.name (.struct ⟨t.fieldNames, rows⟩) b = .ok () b' →
      Leads (s.walkRecord (some f.name) t.name t fields)
        (s.Exports (.record t) (.record t.name fields)) b b' := by
  obtain ⟨row, hlength, hrow, hleads⟩ := builds_fields ih t t.name
  have hnames : ∀ v ∈ t.fieldNames.zip row, v.1 ∈ t.fieldNames :=
    fun v hv ↦ (List.of_mem_zip hv).1
  refine ⟨#[StructArray.fill t.fieldNames (t.fieldNames.zip row) t.blanks], fun hdistinct ↦ ?_,
    fun {b b'} hattach ↦ ?_⟩
  · rw [fill_blanks (hdistinct t ht) hlength, s.tree_record, hrow hdistinct]
  · have hbegin : listener (.beginRecord (some f.name) t.name t) =
        openFrame (.composite f.name (StructArray.withNames Tree.empty 1 t.fieldNames)) :=
      funext fun _ ↦ if_neg (not_not.2 rfl)
    have hend : (StructArray.withNames Tree.empty 1 t.fieldNames).putAll Tree.empty 0
        (t.fieldNames.zip row) = ⟨t.fieldNames,
          #[StructArray.fill t.fieldNames (t.fieldNames.zip row) t.blanks]⟩ :=
      StructArray.putAll_of_subset hnames 0
    have hbody := hleads (takes_composite b f.name)
      (StructArray.size_withNames Tree.empty 1 t.fieldNames)
    rw [hend] at hbody
    rw [Schema.walkRecord]
    refine (hbody.framed hbegin ((endRecord_within _ _ b).trans hattach)).congr ?_
    rw [Schema.exports_record_iff, and_iff_right rfl]

/-- **A composite slot** takes records of its type and what is empty. -/
theorem builds_composite (f : FieldDef) {c : TypeDef} (hc : c ∈ s.types) {typeName : String}
    {fields : List (String × Value)} (ih : ∀ name, Builds s (Value.fieldOf fields name)) : ∃ tree,
    (s.Distinct → tree = s.tree (.record c) (.record typeName fields)) ∧
    Shaped (.record c) (.record typeName fields) tree ∧
    ∀ {b b'}, place f.name (.record c) tree b = .ok () b' →
      Leads (s.walkValue f (.composite c) 0 (.record typeName fields))
        (s.Exports (.record c) (.record typeName fields)) b b' := by
  by_cases hname : typeName = c.name
  · subst hname
    obtain ⟨rows, heq, hleads⟩ := builds_record hc f ih
    refine ⟨_, heq, ⟨rows, rfl⟩, fun {b b'} hplace ↦ ?_⟩
    rw [Schema.walkValue, Schema.get?_eq_some_iff.2 ⟨hc, rfl⟩]
    exact hleads hplace
  · have hnot : ¬s.Exports (.record c) (.record typeName fields) := fun h ↦ hname h.admits.1
    refine exists_tree_of_leads fun {b b'} _ ↦ ?_
    rw [Schema.walkValue]
    cases hget : s.get? typeName with
    | none => exact leads_fail _ hnot
    | some t =>
      -- the type of the record is known, but not the declared one
      have hne : t.name ≠ c.name := Schema.name_of_get?_eq_some hget ▸ hname
      show Leads (s.walkRecord _ _ _ _) _ _ _
      rw [Schema.walkRecord]
      exact leads_refused (if_pos hne) hnot

/-- A record that is absent is told in one event. -/
theorem builds_absent (f : FieldDef) (c : TypeDef) {v : Value}
    (hv : ∀ typeName fields, v ≠ .record typeName fields) {b b' : Builder}
    (h : place f.name (.record c) (s.tree (.record c) v) b = .ok () b') :
    Leads (s.walkValue f (.composite c) 0 v) (s.Exports (.record c) v) b b' := by
  rw [s.tree_record_absent c hv] at h
  rw [Schema.walkValue]
  · split
    · rename_i hempty
      have hevent : listener (.emptyComposite f.name c) b = .ok () b' := h
      have hexports : s.Exports (.record c) v := (Schema.exports_absent_iff hv).2 hempty
      exact (leads_emit hevent).congr (iff_of_true trivial hexports)
    · rename_i hempty
      exact leads_fail _ fun hexports ↦ hempty ((Schema.exports_absent_iff hv).1 hexports)
  · exact hv

/-- An array slot takes arrays; an absent one becomes the placeholder. -/
theorem builds_absentArray (f : FieldDef) (element : ElementType) (dims : Nat) {v : Value}
    (hv : ∀ items, v ≠ .array items) {b b' : Builder}
    (h : attach f.name (s.tree (.array (.ofElement element dims false)) v) b = .ok () b') :
    Leads (s.walkValue f element (dims + 1) v)
      (s.Exports (.array (.ofElement element dims false)) v) b b' := by
  rw [s.tree_array_absent _ hv] at h
  cases v with
  | array items => exact absurd rfl (hv items)
  | null =>
    have hexports := s.exports_array_absent (.ofElement element dims false)
    rw [Schema.walkValue_null]
    obtain ⟨k, rfl, rfl⟩ | row := Schema.row_cases element dims
    · rw [Schema.walkValue_row]
      have hevent : listener (.primitives f.name k []) b = .ok () b' := h
      exact (leads_emit hevent).congr (iff_of_true trivial hexports)
    · have hend := endArray_within (isArray_arrayFrame f.name element (dims + 1) 0) b
      rw [field_arrayFrame, finishedArray_arrayFrame_zero] at hend
      rw [Schema.walkValue_array s f row]
      exact ((leads_pure _).framed rfl (hend.trans h)).congr (iff_of_true trivial hexports)
  | _ =>
    rw [Schema.walkValue_misfit s f element dims (by simp) hv]
    exact leads_fail _ fun hexports ↦ hexports.admits

/-- **Items that are walked one by one** are put into the frame of their array. What the frame makes
of the tree of an item is its `cell`. -/
theorem builds_items {α : Type} (f : FieldDef) {element : ElementType} (he : s.HasElement element)
    (dims : Nat) (hslot : Slot.ofElement element dims false = .ofElement element dims true)
    {items : List Value} (ih : ∀ v ∈ items, Builds s v) (cell : Tree → α) (frame : List α → Frame)
    (hfirst : arrayFrame f.name element (dims + 1) items.length = frame [])
    (hframe : ∀ done, (frame done).field = f.name ∧ (frame done).isArray = true)
    (hplace : ∀ {done v tree}, done.length < items.length →
      Shaped (.ofElement element dims true) v tree → ∀ b,
        place f.name (.ofElement element dims true) tree (within b (frame done)) =
          .ok () (b.within (frame (done ++ [cell tree]))))
    (hfinished : s.Distinct → items ≠ [] →
      finishedArray (frame (items.map fun v ↦ cell (s.tree (.ofElement element dims true) v))) =
        s.tree (.ofElement element (dims + 1) true) (.array items)) : ∃ result,
    (s.Distinct → result = s.tree (.ofElement element (dims + 1) true) (.array items)) ∧
    ∀ {b b'}, attach f.name result b = .ok () b' →
      Leads (do
          Trace.emit (.beginArray f.name element (dims + 1) items.length)
          Trace.sequence (items.map (s.walkValue f element dims))
          Trace.emit (.endArray f.name))
        (s.Exports (.ofElement element (dims + 1) true) (.array items)) b b' := by
  -- each item has a tree by induction
  choose! tree heq hshaped hleads using fun v hv ↦ ih v hv f element dims he
  refine ⟨finishedArray (frame (items.map fun v ↦ cell (tree v))), fun hdistinct ↦ ?_,
    fun {b b'} h ↦ ?_⟩
  · by_cases hne : items = []
    · subst hne
      rw [Slot.ofElement_succ, s.tree_array_nil, List.map_nil, ← hfirst]
      exact finishedArray_arrayFrame_zero _ _ _
    · rw [← hfinished hdistinct hne]
      have hcells : (items.map fun v ↦ cell (tree v)) =
          items.map fun v ↦ cell (s.tree (.ofElement element dims true) v) :=
        List.map_congr_left fun v hv ↦ congrArg cell (heq v hv hdistinct)
      rw [hcells]
  -- after some items, the frame holds their cells
  · have hsequence := leads_sequence (fun done ↦ b.within (frame (done.map fun v ↦ cell (tree v))))
      fun done v (hbegins : done ++ [v] <+: items) ↦ by
        have hlength : (done.map fun v ↦ cell (tree v)).length < items.length := by
          have hle := hbegins.length_le
          rw [List.length_append] at hle
          rw [List.length_map]
          exact Nat.lt_of_succ_le hle
        have hv : v ∈ items := hbegins.subset (List.mem_append_right _ (List.mem_singleton_self v))
        have hstep := hleads v hv (hplace hlength (hshaped v hv) b)
        rwa [List.map_append, List.map_singleton]
    obtain ⟨hfield, harray⟩ := hframe (items.map fun v ↦ cell (tree v))
    have hend := endArray_within harray b
    rw [hfield] at hend
    have hopen : listener (.beginArray f.name element (dims + 1) items.length) =
        openFrame (frame []) := congrArg openFrame hfirst
    refine (hsequence.framed hopen (hend.trans h)).congr ?_
    rw [Slot.ofElement_succ, Schema.exports_array_iff, hslot]

/-- A dimension of primitives is told in one event. -/
theorem builds_primitives (f : FieldDef) (k : Kind) (items : List Value) {b b' : Builder}
    (h : attach f.name (s.tree (.array (.primitive k false)) (.array items)) b = .ok () b') :
    Leads (Schema.walkPrimitives f k items) (s.Exports (.array (.primitive k false)) (.array items))
      b b' := by
  have hitem : ∀ {v}, s.Exports (.primitive k false) v ↔ Schema.isItemOf k v = true :=
    Schema.exports_primitive_iff.trans Schema.isItemOf_iff.symm
  unfold Schema.walkPrimitives
  cases hfind : items.find? fun v ↦ !Schema.isItemOf k v with
  | some v =>
    have hmisfit : ¬Schema.isItemOf k v = true := by simpa using List.find?_some hfind
    refine leads_fail _ fun hexports ↦ hmisfit (hitem.1 ?_)
    exact Schema.exports_array_iff.1 hexports v (List.mem_of_find?_eq_some hfind)
  | none =>
    have hall : ∀ v ∈ items, Schema.isItemOf k v = true := by simpa using hfind
    have htree : Tree.ofPrimitives f.name k items =
        .ok (s.tree (.array (.primitive k false)) (.array items)) := by
      by_cases hne : items = []
      · rw [hne, s.tree_array_nil]
        rfl
      · rw [s.tree_array_primitive hne, Tree.ofPrimitives_eq_ofItems f.name hne hall]
    have hevent : listener (.primitives f.name k items) b = .ok () b' := by
      show attachOrFail f.name _ b = _
      rw [htree]
      exact h
    exact (leads_emit hevent).congr (iff_of_true trivial
      (Schema.exports_array_iff.2 fun v hv ↦ hitem.2 (hall v hv)))

/-- **The walk over an array** puts its tree into whatever frame takes it: that of a struct array
of records, that of a row of cells, or that of an outer dimension. -/
theorem builds_array (f : FieldDef) {element : ElementType} (he : s.HasElement element)
    (dims : Nat) {items : List Value} (ih : ∀ v ∈ items, Builds s v) : ∃ tree,
    (s.Distinct → tree = s.tree (.ofElement element (dims + 1) true) (.array items)) ∧
    Shaped (.ofElement element (dims + 1) true) (.array items) tree ∧
    ∀ {b b'}, place f.name (.ofElement element (dims + 1) true) tree b = .ok () b' →
      Leads (s.walkValue f element (dims + 1) (.array items))
        (s.Exports (.ofElement element (dims + 1) true) (.array items)) b b' := by
  have hlength : items ≠ [] → items.length ≠ 0 := fun hne h ↦ hne (List.length_eq_zero_iff.1 h)
  cases dims with
  | zero =>
    cases element with
    | primitive k =>
      rw [Schema.walkValue_row]
      exact ⟨_, fun _ ↦ rfl, trivial, builds_primitives f k items⟩
    | composite t =>
      -- records of one array are spliced into the elements that are there for them
      obtain ⟨tree, heq, hleads⟩ := builds_items f he 0 rfl ih (spliced t)
        (recordsFrame f.name t items.length) rfl (fun _ ↦ ⟨rfl, rfl⟩)
        (fun hdone hshaped b ↦ place_recordsFrame hdone hshaped b) fun hdistinct hne ↦ by
          show _ = s.tree (.array (.record t)) (.array items)
          rw [s.tree_array_record hne, finishedArray_recordsFrame (hlength hne) (List.length_map _)]
          simp only [Slot.ofElement_composite_zero, spliced_tree (hdistinct t he)]
      rw [Schema.walkValue_array s f fun _ ↦ ⟨t, rfl⟩]
      exact ⟨tree, heq, trivial, hleads⟩
  | succ dims =>
    have htree : items ≠ [] → s.tree (.ofElement element (dims + 2) true) (.array items) =
        if element.isTextual then
          .cell (items.map (s.tree (.ofElement element (dims + 1) true)))
        else .struct ⟨[innerField],
          (items.map fun v ↦ [s.tree (.ofElement element (dims + 1) true) v]).toArray⟩ := by
      intro hne
      rw [Slot.ofElement_succ, Slot.ofElement_succ, s.tree_array_array hne,
        Slot.isTextual_ofElement]
      rfl
    rw [Schema.walkValue_array s f fun h ↦ absurd h (Nat.succ_ne_zero dims)]
    by_cases htext : element.isTextual = true
    · obtain ⟨tree, heq, hleads⟩ := builds_items f he (dims + 1) rfl ih id
        (textsFrame f.name items.length) (if_pos htext) (fun _ ↦ ⟨rfl, rfl⟩)
        (fun hdone _ b ↦ attach_within (put_textsFrame hdone _) b)
        fun _ hne ↦ by
          rw [htree hne, if_pos htext]
          exact finishedArray_textsFrame (hlength hne) (List.length_map _)
      exact ⟨tree, heq, trivial, hleads⟩
    · have houter : 1 < dims + 2 := Nat.lt_add_left dims Nat.one_lt_two
      obtain ⟨tree, heq, hleads⟩ := builds_items f he (dims + 1) rfl ih (fun tree ↦ [tree])
        (nestedFrame f.name items.length) ((if_neg htext).trans (if_pos houter))
        (fun _ ↦ ⟨rfl, rfl⟩) (fun hdone _ b ↦ attach_within (put_nestedFrame hdone _) b)
        fun _ hne ↦ by
          rw [htree hne, if_neg htext]
          exact finishedArray_nestedFrame (hlength hne) (List.length_map _)
      exact ⟨tree, heq, trivial, hleads⟩

/-- **The walk over a value** puts its tree into whatever frame takes it, if the value is exported,
and fails otherwise. -/
theorem builds (s : Schema) (v : Value) : Builds s v := by
  -- a value is told by its own sort, which may not be that of the slot
  induction v using Value.lookupInduction with
  | leaf v harray hrecord =>
    intro f element dims he
    cases dims with
    | zero =>
      cases element with
      | primitive k => exact exists_tree_of_leads (builds_scalar f k v)
      | composite c => exact exists_tree_of_leads (builds_absent f c hrecord)
    | succ dims => exact exists_tree_of_leads (builds_absentArray f element dims harray)
  | array items ih =>
    intro f element dims he
    cases dims with
    | zero =>
      cases element with
      | primitive k => exact exists_tree_of_leads (builds_scalar f k _)
      | composite c => exact exists_tree_of_leads (builds_absent f c fun _ _ h ↦ (by cases h))
    | succ dims => exact builds_array f he dims ih
  | record typeName fields ih =>
    intro f element dims he
    cases dims with
    | zero =>
      cases element with
      | primitive k => exact exists_tree_of_leads (builds_scalar f k _)
      | composite c => exact builds_composite f he ih
    | succ dims =>
      exact exists_tree_of_leads (builds_absentArray f element dims fun _ h ↦ (by cases h))

end

end Builder

/-! ### The tree of a record -/

open Builder

variable {s : Schema} {r : Record} {t : TypeDef} {T : Tree}

/-- **The root** is built like any other record, but in a struct that is there from the start and
has no fields yet. -/
theorem exists_tree_of_root (ht : s.get? r.typeName = some t) : ∃ tree,
    (s.Distinct → tree = s.tree (.record t) r.toValue) ∧
    ∀ {T}, ofRecord s r = .ok T ↔ s.Exports (.record t) r.toValue ∧ T = tree := by
  obtain ⟨row, hlength, hrow, hleads⟩ :=
    builds_fields (fun name ↦ builds s (Value.fieldOf r.fields name)) t r.typeName
  have hwalk : Leads (s.walkRoot r) (s.Exports (.record t) r.toValue) start
      ⟨(StructArray.ofSize 1).putAll Tree.empty 0 (t.fieldNames.zip row), []⟩ := by
    have hbegin : listener (.beginRecord none t.name t) start = .ok () start :=
      if_neg (not_not.2 rfl)
    have hsize : (StructArray.ofSize 1 : StructArray Tree).size = 1 := StructArray.size_ofSize 1
    have hfields := hleads takes_root hsize
    rw [Schema.walkRoot, ht]
    show Leads (s.walkRecord _ _ _ _) _ _ _
    rw [Schema.walkRecord]
    refine ((leads_emit hbegin).bind (hfields.bind (leads_emit rfl))).congr ?_
    rw [Record.toValue, Schema.exports_record_iff, true_and, and_true,
      and_iff_right (Schema.name_of_get?_eq_some ht).symm]
  refine ⟨.struct ((StructArray.ofSize 1).putAll Tree.empty 0 (t.fieldNames.zip row)),
    fun hdistinct ↦ ?_, fun {T} ↦ ?_⟩
  · rw [StructArray.putAll_ofSize_one (hdistinct t (Schema.mem_of_get?_eq_some ht))
      (hlength.trans t.length_fieldNames.symm), Record.toValue, s.tree_record, hrow hdistinct]
  · unfold ofRecord
    rw [bind_eq_ok_iff]
    constructor
    · rintro ⟨⟨u, b⟩, hrun, hfinish⟩
      obtain ⟨hexports, rfl⟩ := (hwalk b).1 (Trace.outcomeFrom_eq_ok_iff.1 hrun)
      exact ⟨hexports, (Except.ok.inj hfinish).symm⟩
    · rintro ⟨hexports, rfl⟩
      exact ⟨((), _), Trace.outcomeFrom_eq_ok_iff.2 ((hwalk _).2 ⟨hexports, rfl⟩), rfl⟩

/-- A record that has a tree is of a type of the schema. -/
theorem exists_get?_of_ofRecord (h : ofRecord s r = .ok T) : ∃ t, s.get? r.typeName = some t := by
  rw [ofRecord, bind_eq_ok_iff] at h
  obtain ⟨⟨u, b⟩, hrun, -⟩ := h
  cases hget : s.get? r.typeName with
  | some t => exact ⟨t, rfl⟩
  | none =>
    have hwalk : s.walkRoot r = Trace.fail (.unregisteredType r.typeName) := by
      rw [Schema.walkRoot, hget]
    rw [hwalk, Trace.outcomeFrom_eq_ok_iff, Trace.run_fail] at hrun
    cases hrun

/-- Which records of a type are exported, whatever the names of its fields are. -/
theorem exists_ofRecord_iff (ht : s.get? r.typeName = some t) :
    (∃ T, ofRecord s r = .ok T) ↔ s.Exports (.record t) r.toValue := by
  obtain ⟨tree, -, hiff⟩ := exists_tree_of_root ht
  exact ⟨fun ⟨T, hT⟩ ↦ (hiff.1 hT).1, fun hexports ↦ ⟨tree, hiff.2 ⟨hexports, rfl⟩⟩⟩

/-- **The container is the tree of the record**: in a well-formed schema, exactly the records of a
known type whose slots all hold what they demand are exported, and the container that the builder
puts together of its frames is the one that the recursion over the record gives. -/
theorem ofRecord_eq_ok_iff_tree (hs : s.validate = .ok ()) :
    ofRecord s r = .ok T ↔ ∃ t, s.get? r.typeName = some t ∧
      s.Exports (.record t) r.toValue ∧ T = s.tree (.record t) r.toValue := by
  have hdistinct := Schema.distinct_of_validate hs
  constructor
  · intro h
    obtain ⟨t, ht⟩ := exists_get?_of_ofRecord h
    obtain ⟨tree, heq, hiff⟩ := exists_tree_of_root ht
    obtain ⟨hexports, rfl⟩ := hiff.1 h
    exact ⟨t, ht, hexports, heq hdistinct⟩
  · rintro ⟨t, ht, hexports, rfl⟩
    obtain ⟨tree, heq, hiff⟩ := exists_tree_of_root ht
    exact hiff.2 ⟨hexports, (heq hdistinct).symm⟩

/-! ### An example -/

/-- A type with text and bytes. -/
def partType : TypeDef :=
  ⟨"Part", [⟨"label", "string", 0, false⟩, ⟨"code", "byte", 1, false⟩]⟩

/-- A type with arrays of one and of two dimensions. -/
def deviceType : TypeDef :=
  ⟨"Device", [⟨"on", "boolean", 0, false⟩, ⟨"rate", "float", 0, false⟩, ⟨"key", "char", 1, false⟩,
    ⟨"tags", "enum", 2, false⟩, ⟨"grid", "boolean", 2, false⟩, ⟨"main", "Part", 0, false⟩,
    ⟨"spare", "Part", 0, false⟩, ⟨"parts", "Part", 1, false⟩, ⟨"racks", "Part", 2, false⟩]⟩

def deviceSchema : Schema :=
  ⟨none, [partType, deviceType], by decide⟩

/-- A device whose fields are not in the order of its type, and of which some are missing. -/
def device : Record :=
  ⟨"Device", [("racks", .array [.array [], .array [.record "Part" [("label", .string "c")]]]),
    ("parts", .array [.null,
      .record "Part" [("code", .array [.byte (-1)]), ("label", .string "b")]]),
    ("main", .record "Part" [("label", .string "a"), ("size", .int 3)]),
    ("grid", .array [.array [.boolean true, .boolean false], .null]),
    ("tags", .array [.array [.enum "x", .null], .array []]), ("spare", .array []),
    ("key", .array [.char 72, .char 233]), ("on", .boolean true)]⟩

/-- The number 1. -/
def one : UInt64 :=
  0x3FF0000000000000

def deviceTree : Tree :=
  .struct ⟨["on", "rate", "key", "tags", "grid", "main", "spare", "parts", "racks"],
    #[[.double 1 1 [one], .double 0 0 [], .char "Hé",
      .cell [.cell [.char "x", .double 0 0 []], .double 0 0 []],
      .struct ⟨["array"], #[[.double 2 1 [one, 0]], [.double 0 0 []]]⟩,
      .struct ⟨["label", "code"], #[[.char "a", .double 0 0 []]]⟩, .double 0 0 [],
      .struct ⟨["label", "code"],
        #[[.double 0 0 [], .double 0 0 []], [.char "b", .uint8 1 1 [255]]]⟩,
      .struct ⟨["array"], #[[.double 0 0 []],
        [.struct ⟨["label", "code"], #[[.char "c", .double 0 0 []]]⟩]]⟩]]⟩

theorem ofRecord_device : ofRecord deviceSchema device = .ok deviceTree := by
  cbv

theorem ofRecord_eq_ok_iff_tree_device : deviceSchema.validate = .ok () ∧
    ∃ t, deviceSchema.get? device.typeName = some t ∧
      deviceSchema.Exports (.record t) device.toValue ∧
        deviceTree = deviceSchema.tree (.record t) device.toValue := by
  have hvalid : deviceSchema.validate = .ok () := by cbv
  exact ⟨hvalid, (ofRecord_eq_ok_iff_tree hvalid).1 ofRecord_device⟩

end Container

end GraphCodec
