import GraphCodec.Proofs.Conformance
import GraphCodec.Proofs.Documents
import GraphCodec.Proofs.Likeness

/-!
# The fields that a dump shows

An image is shown as a document in which every record is an object. The reader keeps the fields of a
record in the order of its type and does not ask for their names; an object and a look-up go by the
names. Where names are distinct, an object has one entry for each field and a look-up finds each of
them (`Value.toJson_record_eq_iff`, `Value.lookup?_eq_iff`). A dictionary that is read may list a
name twice in a type, and then neither holds: an object keeps the first place and the last value of
a name (`Json.ofEntries_eq`), and a look-up finds the first one.

`Image.shown_of_decode` says it of every record in whatever has been decoded, and of the dump as a
whole.
-/

namespace GraphCodec

/-! ### Entries with repeated keys -/

namespace Json

variable {entries : List (String × Json)} {e : String × Json} {key : String}

/-- Every key in its first place, with its last value. -/
def merged (entries : List (String × Json)) : List (String × Json) :=
  (entries.map Prod.fst).eraseDups.map fun key ↦ (key, (Json.entry? entries.reverse key).getD null)

theorem fst_merged (entries : List (String × Json)) :
    (merged entries).map Prod.fst = (entries.map Prod.fst).eraseDups := by
  rw [merged, List.map_map]
  exact List.map_id _

theorem entry?_reverse_append_singleton (key : String) :
    entry? (entries ++ [e]).reverse key =
      if e.1 = key then some e.2 else entry? entries.reverse key := by
  rw [List.reverse_append, List.reverse_singleton, List.singleton_append, entry?, List.find?_cons]
  by_cases h : e.1 = key
  · simp [h]
  · rw [if_neg h, beq_false_of_ne h]
    rfl

/-- One more entry replaces that with its key, or comes last. -/
theorem insertEntry_merged (entries : List (String × Json)) (e : String × Json) :
    insertEntry (merged entries) e.1 e.2 = merged (entries ++ [e]) := by
  have hany : ((merged entries).any fun e' ↦ e'.1 == e.1) = true ↔ e.1 ∈ entries.map Prod.fst := by
    rw [← List.mem_eraseDups, ← fst_merged, List.any_eq_true, List.mem_map]
    simp
  unfold insertEntry
  split_ifs with h
  · have hmem := hany.1 h
    have hkeys : ((entries ++ [e]).map Prod.fst).eraseDups = (entries.map Prod.fst).eraseDups := by
      simp [List.eraseDups_append, List.removeAll, hmem]
    rw [merged, merged, hkeys, List.map_map]
    refine List.map_congr_left fun key _ ↦ ?_
    rw [entry?_reverse_append_singleton]
    by_cases hkey : key = e.1
    · simp [hkey]
    · simp [hkey, Ne.symm hkey]
  · have hnew : e.1 ∉ entries.map Prod.fst := fun hmem ↦ h (hany.2 hmem)
    have hkeys : ((entries ++ [e]).map Prod.fst).eraseDups =
        (entries.map Prod.fst).eraseDups ++ [e.1] := by
      simp [List.eraseDups_append, List.removeAll, hnew, List.eraseDups_cons]
    rw [merged, merged, hkeys, List.map_append]
    refine congrArg₂ _ (List.map_congr_left fun key hkey ↦ ?_) ?_
    · have hne : e.1 ≠ key := fun heq ↦ hnew (heq ▸ List.mem_eraseDups.1 hkey)
      rw [entry?_reverse_append_singleton, if_neg hne]
    · rw [List.map_singleton, entry?_reverse_append_singleton, if_pos rfl, Option.getD_some]

/-- **Repeated keys** keep the first place and the last value. -/
theorem ofEntries_eq (entries : List (String × Json)) :
    ofEntries entries = object (merged entries) := by
  refine congrArg object ?_
  induction entries using List.reverseRecOn with
  | nil => rfl
  | append_singleton entries e ih =>
    rw [List.foldl_append, ih]
    exact insertEntry_merged entries e

end Json

theorem nodup_eraseDups (names : List String) : names.eraseDups.Nodup := by
  match names with
  | [] => exact List.nodup_nil
  | name :: names =>
    rw [List.eraseDups_cons, List.nodup_cons, List.mem_eraseDups]
    exact ⟨by simp, nodup_eraseDups _⟩
  termination_by names.length
  decreasing_by exact Nat.lt_succ_of_le (List.length_filter_le _ _)

namespace Value

variable {fields : List (String × Value)}

/-- **The object of a record** has the names of its fields in the order in which they come first,
each with the last value of that name. -/
theorem toJson_record_eq (typeName : String) (fields : List (String × Value)) :
    (record typeName fields).toJson = .object ((fields.map Prod.fst).eraseDups.map fun name ↦
      (name, (fieldOf fields.reverse name).toJson)) := by
  rw [toJson_record, Json.ofEntries_eq, Json.merged, List.map_map, ← List.map_reverse]
  refine congrArg Json.object (List.map_congr_left fun name _ ↦ ?_)
  rw [entry?_map_toJson, fieldOf]
  cases lookup? fields.reverse name with
  | none => rw [Option.map_none, Option.getD_none, Option.getD_none, toJson]
  | some v => rfl

/-- An object has one entry for each field, with its own value, just if names are distinct. -/
theorem toJson_record_eq_iff (typeName : String) (fields : List (String × Value)) :
    (record typeName fields).toJson = .object (fields.map fun f ↦ (f.1, f.2.toJson)) ↔
      (fields.map Prod.fst).Nodup := by
  constructor
  · intro h
    rw [toJson_record_eq, Json.object.injEq] at h
    have hnames := congrArg (List.map Prod.fst) h
    rw [List.map_map, List.map_map] at hnames
    have hsame : (fields.map Prod.fst).eraseDups = fields.map Prod.fst :=
      (List.map_id _).symm.trans hnames
    rw [← hsame]
    exact nodup_eraseDups _
  · intro h
    rw [toJson_record, ofEntries_of_nodup]
    rwa [List.map_map]

/-- A look-up finds each field just if fields of one name have one value. -/
theorem lookup?_eq_iff (fields : List (String × Value)) :
    (∀ f ∈ fields, lookup? fields f.1 = some f.2) ↔
      ∀ f ∈ fields, ∀ g ∈ fields, f.1 = g.1 → f.2 = g.2 := by
  constructor
  · intro h f hf g hg heq
    have hfg := (h f hf).symm.trans (heq ▸ h g hg)
    exact Option.some.inj hfg
  · intro h f hf
    obtain ⟨v, hv⟩ := Option.isSome_iff_exists.1 (isSome_lookup?_of_mem (List.mem_map_of_mem hf))
    obtain ⟨g, hg, hgv⟩ := Option.map_eq_some_iff.1 hv
    have hname : g.1 = f.1 :=
      beq_iff_eq.1 (List.find?_some (p := fun g : String × Value ↦ g.1 == f.1) hg)
    rw [hv, ← hgv, h f hf g (List.mem_of_find?_eq_some hg) hname.symm]

/-! ### Documents that show every field -/

/-- Whether the names of the fields of a record are distinct. -/
def HasDistinctNames : Value → Prop
  | record _ fields => (fields.map Prod.fst).Nodup
  | _ => True

/-- The document in which every record shows all of its fields in order, also those with the name of
another one. -/
def fullJson : Value → Json
  | array items => .array (items.attach.map fun ⟨v, _h⟩ ↦ fullJson v)
  | record _ fields => .object (fields.attach.map fun ⟨f, _h⟩ ↦ (f.1, fullJson f.2))
  | v => v.toJson
  termination_by v => sizeOf v
  decreasing_by
    · have := List.sizeOf_lt_of_mem _h
      simp only [array.sizeOf_spec]
      omega
    · have := sizeOf_snd_lt_of_mem _h
      simp only [record.sizeOf_spec]
      omega

theorem fullJson_array (items : List Value) :
    (array items).fullJson = .array (items.map fullJson) := by
  rw [fullJson]
  simp

theorem fullJson_record (typeName : String) (fields : List (String × Value)) :
    (record typeName fields).fullJson = .object (fields.map fun f ↦ (f.1, f.2.fullJson)) := by
  rw [fullJson]
  exact congrArg Json.object
    (List.attach_map_val (f := fun f : String × Value ↦ (f.1, f.2.fullJson)))

theorem toJson_record_eq_fullJson_iff (typeName : String) (fields : List (String × Value)) :
    (record typeName fields).toJson = (record typeName fields).fullJson ↔
      (fields.map Prod.fst).Nodup ∧ ∀ f ∈ fields, f.2.toJson = f.2.fullJson := by
  constructor
  · intro h
    have hnodup : (fields.map Prod.fst).Nodup := by
      rw [toJson_record_eq, fullJson_record, Json.object.injEq] at h
      have hnames := congrArg (List.map Prod.fst) h
      rw [List.map_map, List.map_map] at hnames
      exact (List.map_id _).symm.trans hnames ▸ nodup_eraseDups _
    refine ⟨hnodup, fun f hf ↦ ?_⟩
    rw [(toJson_record_eq_iff typeName fields).2 hnodup, fullJson_record, Json.object.injEq] at h
    exact (Prod.mk.inj (List.map_inj_left.1 h f hf)).2
  · rintro ⟨hnodup, hfields⟩
    rw [(toJson_record_eq_iff typeName fields).2 hnodup, fullJson_record]
    exact congrArg Json.object (List.map_congr_left fun f hf ↦ by rw [hfields f hf])

/-- **A document shows every field** just if names are distinct in every record. -/
theorem toJson_eq_fullJson_iff (v : Value) :
    v.toJson = v.fullJson ↔ v.Everywhere HasDistinctNames := by
  match v with
  | array items =>
    rw [toJson_array, fullJson_array, Json.array.injEq, List.map_inj_left, everywhere_array_iff]
    exact (forall₂_congr fun w _ ↦ toJson_eq_fullJson_iff w).trans (and_iff_right trivial).symm
  | record typeName fields =>
    rw [toJson_record_eq_fullJson_iff, everywhere_record_iff]
    exact and_congr Iff.rfl (forall₂_congr fun f _ ↦ toJson_eq_fullJson_iff f.2)
  | boolean _ | byte _ | short _ | int _ | long _ | float _ | double _ | char _ | string _
  | date _ | enum _ | null =>
    refine iff_of_true ?_ ((everywhere_leaf_iff (by simp) (by simp)).2 trivial)
    rw [fullJson] <;> nofun
  termination_by sizeOf v
  decreasing_by
    · rename_i hw
      have := List.sizeOf_lt_of_mem hw
      simp only [array.sizeOf_spec]
      omega
    · rename_i hf
      have := sizeOf_snd_lt_of_mem hf
      simp only [record.sizeOf_spec]
      omega

end Value

/-! ### What is decoded -/

/-- A record in a value that conforms to a dictionary has the fields of a type in it. -/
theorem Dictionary.Holds.exists_type {ts : List TypeEntry} {level : Nat} {tag : Tag} {dims : Nat}
    {inRecord : Bool} {v : Value} (h : Holds ts level tag dims inRecord v) {typeName : String}
    {fields : List (String × Value)} (hwithin : (Value.record typeName fields).Within v) :
    ∃ t ∈ ts, t.name = typeName ∧ fields.map Prod.fst = t.fields.map FieldEntry.name := by
  induction hwithin generalizing level tag dims inRecord with
  | here =>
    cases h with
    | primitive present => cases present.kind
    | record mem _ names _ => exact ⟨_, mem, rfl, names⟩
  | item hmem _ ih =>
    cases h with
    | primitive present => cases present.kind
    | array _ _ items_hold => exact ih (items_hold _ hmem)
  | @field f _ parts hmem _ ih =>
    cases h with
    | primitive present => cases present.kind
    | @record _ t _ _ _ _ names fields_hold =>
      have hlength : parts.length = t.fields.length := by
        simpa using congrArg List.length names
      obtain ⟨i, hi, rfl⟩ := List.getElem_of_mem hmem
      have hzip : (t.fields[i], parts[i]) ∈ t.fields.zip parts := by
        rw [← List.getElem_zip (h := by rw [List.length_zip]; omega)]
        exact List.getElem_mem _
      exact ih (fields_hold _ hzip)

namespace Image

open Value Dictionary

/-- **What a dump shows.** A record in whatever has been decoded has the fields of the only type
with its name in the dictionary. It is shown with one entry for each of them just if their names are
distinct, and then a look-up finds each of them; otherwise a name keeps its first place and its last
value, and a look-up finds each of them just if fields of one name have one value. The dump as a
whole shows every field just if the names are distinct in every record. -/
theorem shown_of_decode {bs : List UInt8} {c : Content} (h : decode bs = .ok c) :
    (∀ typeName fields, (record typeName fields).Within c.root.toValue →
      ∃ t ∈ c.dictionary.types.toList, t.name = typeName ∧
        (∀ u ∈ c.dictionary.types.toList, u.name = typeName → u = t) ∧
        fields.map Prod.fst = t.fields.map FieldEntry.name ∧
        (record typeName fields).toJson = .object ((t.fields.map FieldEntry.name).eraseDups.map
          fun name ↦ (name, (fieldOf fields.reverse name).toJson)) ∧
        ((record typeName fields).toJson = .object (fields.map fun f ↦ (f.1, f.2.toJson)) ↔
          (t.fields.map FieldEntry.name).Nodup) ∧
        ((t.fields.map FieldEntry.name).Nodup →
          ∀ f ∈ fields, Record.get? ⟨typeName, fields⟩ f.1 = some f.2) ∧
        ((∀ f ∈ fields, Record.get? ⟨typeName, fields⟩ f.1 = some f.2) ↔
          ∀ f ∈ fields, ∀ g ∈ fields, f.1 = g.1 → f.2 = g.2)) ∧
      (c.root.toJson = c.root.toValue.fullJson ↔ c.root.toValue.Everywhere HasDistinctNames) := by
  obtain ⟨rest, hread, -⟩ := decode_eq_ok_iff.1 h
  obtain ⟨-, ⟨hd, t, ht, hroot⟩, -⟩ := returns_readContent hread
  refine ⟨fun typeName fields hwithin ↦ ?_, toJson_eq_fullJson_iff _⟩
  obtain ⟨t, ht, hname, hnames⟩ := hroot.exists_type hwithin
  have hunique : ∀ u ∈ c.dictionary.types.toList, u.name = typeName → u = t :=
    fun u hu hname' ↦ List.inj_on_of_nodup_map hd.nodup_names hu ht (hname'.trans hname.symm)
  refine ⟨t, ht, hname, hunique, hnames, ?_, ?_, fun hnodup f hf ↦ ?_, lookup?_eq_iff fields⟩
  · rw [← hnames]
    exact toJson_record_eq typeName fields
  · rw [← hnames]
    exact toJson_record_eq_iff typeName fields
  · rw [← hnames] at hnodup
    have hsome := lookup?_eq_some_fieldOf (List.mem_map_of_mem hf)
    rwa [fieldOf_of_mem hnodup hf] at hsome

/-- The point in the only row of a path. -/
theorem shown_of_decode_point :
    decode (imageForm pathDictionary 12 [1, 0, 0, 0, 1, 0, 0, 0, 3, 0, 4, 0, 2]) =
        .ok ⟨pathDictionary, pathRecord⟩ ∧
      (record "Point" [("x", .short 3), ("y", .short 4)]).toJson =
        .object [("x", .integer 3), ("y", .integer 4)] ∧
      Record.get? ⟨"Point", [("x", .short 3), ("y", .short 4)]⟩ "y" = some (.short 4) := by
  have hread : decode (imageForm pathDictionary 12 [1, 0, 0, 0, 1, 0, 0, 0, 3, 0, 4, 0, 2]) =
      .ok ⟨pathDictionary, pathRecord⟩ := by
    cbv
  have hwithin : (record "Point" [("x", .short 3), ("y", .short 4)]).Within pathRecord.toValue :=
    .field List.mem_cons_self (.item List.mem_cons_self (.item List.mem_cons_self .here))
  obtain ⟨hrecords, -⟩ := shown_of_decode hread
  obtain ⟨t, -, -, -, hnames, -, hentries, hfinds, -⟩ := hrecords _ _ hwithin
  have hnodup : (t.fields.map FieldEntry.name).Nodup := by
    rw [← hnames]
    decide
  refine ⟨hread, ?_, hfinds hnodup ("y", .short 4) (by simp)⟩
  rw [hentries.2 hnodup]
  simp [Value.toJson]

/-- A type with two fields of one name. -/
def twinDictionary : Dictionary :=
  ⟨#[⟨12, "A", [⟨"x", 2, 0⟩, ⟨"x", 2, 0⟩]⟩], 12⟩

def twinRecord : Record :=
  ⟨"A", [("x", .byte 1), ("x", .byte 2)]⟩

/-- The header with the name twice is read, and each of the two values is missing from one of the
ways to show it. -/
theorem decode_twin :
    decode (imageForm twinDictionary 12 [1, 2]) = .ok ⟨twinDictionary, twinRecord⟩ ∧
      twinRecord.toJson = .object [("x", .integer 2)] ∧
      twinRecord.get? "x" = some (.byte 1) ∧
      ¬∀ bs c, decode bs = .ok c → c.root.toJson = c.root.toValue.fullJson ∧
        ∀ f ∈ c.root.fields, c.root.get? f.1 = some f.2 := by
  have hread : decode (imageForm twinDictionary 12 [1, 2]) = .ok ⟨twinDictionary, twinRecord⟩ := by
    cbv
  have hfirst : twinRecord.get? "x" = some (.byte 1) := by
    cbv
  have hjson : twinRecord.toJson = .object [("x", .integer 2)] := by
    rw [Record.toJson, Record.toValue, toJson_record_eq]
    simp [twinRecord, fieldOf, lookup?, Value.toJson, List.eraseDups_cons]
  refine ⟨hread, hjson, hfirst, fun h ↦ ?_⟩
  have hsecond := (h _ _ hread).2 ("x", .byte 2) (List.mem_cons_of_mem _ List.mem_cons_self)
  cases hfirst.symm.trans hsecond

end Image

end GraphCodec
