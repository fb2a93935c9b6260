import GraphCodec.Proofs.Reencoding
import GraphCodec.Proofs.RoundTrip

/-!
# Storing what was restored

Reading an image back loses what the stored form cannot tell apart: sentinels become absent, absent
texts empty, absent arrays arrays without items. Nothing of this shows when the value is stored
again: the restored value of a slot has the stored form of the value that it comes from
(`stored_restored`), hence encoding what was decoded gives the same image, which is decoded to the
same root (`exists_settled`).
-/

namespace GraphCodec

namespace Schema

variable {s : Schema}

/-- Whether the records in a slot, also in the items of an array, have a type of the schema. -/
def Declares (s : Schema) : Slot → Prop
  | .primitive _ _ => True
  | .record t => t ∈ s.types
  | .array item => s.Declares item

/-- Dimensions are all of declared types if the element is. -/
theorem declares_ofElement {element : ElementType} (h : ∀ t, element = .composite t → t ∈ s.types)
    (dims : Nat) (inRecord : Bool) : s.Declares (.ofElement element dims inRecord) := by
  induction dims generalizing inRecord with
  | zero =>
    match element with
    | .primitive k => trivial
    | .composite t => exact h t rfl
  | succ dims ih => exact ih false

/-- The slots of fields have types of the schema. -/
theorem declares_of_slot?_eq_some {f : FieldDef} {inner : Slot} (h : s.slot? f = some inner) :
    s.Declares inner := by
  unfold slot? at h
  obtain ⟨element, helement, rfl⟩ := Option.map_eq_some_iff.1 h
  refine declares_ofElement (fun t ht ↦ ?_) f.dims true
  exact mem_of_element?_eq_composite (ht ▸ helement)

/-! ### Fields -/

/-- The values of fields with distinct names, by look-up. -/
theorem fieldOf_map {t : TypeDef} (hnodup : t.fieldNames.Nodup) (value : FieldDef → Value)
    {f : FieldDef} (hf : f ∈ t.fields) :
    Value.fieldOf (t.fields.map fun f ↦ (f.name, value f)) f.name = value f := by
  have hnames : ((t.fields.map fun f ↦ (f.name, value f)).map Prod.fst).Nodup := by
    rwa [List.map_map]
  exact Value.fieldOf_of_mem hnames (List.mem_map_of_mem (f := fun f ↦ (f.name, value f)) hf)

/-- The restored value of a field. -/
def restoredField (s : Schema) (fields : List (String × Value)) (f : FieldDef) : Value :=
  match s.slot? f with
  | some inner => s.restored inner (Value.fieldOf fields f.name)
  | none => .null

theorem restoredField_of_slot?_eq_some {fields : List (String × Value)} {f : FieldDef}
    {inner : Slot} (h : s.slot? f = some inner) :
    s.restoredField fields f = s.restored inner (Value.fieldOf fields f.name) := by
  rw [restoredField, h]

/-- The restored record, field by field. -/
theorem restored_record_eq_map (t : TypeDef) (typeName : String) (fields : List (String × Value)) :
    s.restored (.record t) (.record typeName fields) =
      .record t.name (t.fields.map fun f ↦ (f.name, s.restoredField fields f)) := by
  rw [restored_record]
  refine congrArg (Value.record t.name) (List.map_congr_left fun f _ ↦ ?_)
  unfold restoredField
  cases s.slot? f <;> rfl

/-! ### Scalars -/

/-- What a scalar can be restored to: itself, an empty text, or absence in the place of a
sentinel. -/
theorem restoredScalar_cases (k : Kind) (inRecord : Bool) (v : Value) :
    restoredScalar k inRecord v = v ∨
      v = .null ∧ (k = .string ∧ restoredScalar k inRecord v = .string "" ∨
        k = .enum ∧ restoredScalar k inRecord v = .enum "") ∨
      (inRecord = true ∧ v.isSentinel = true) ∧ restoredScalar k inRecord v = .null := by
  by_cases hv : v = .null
  · subst hv
    cases k with
    | string => exact .inr (.inl ⟨rfl, .inl ⟨rfl, rfl⟩⟩)
    | enum => exact .inr (.inl ⟨rfl, .inr ⟨rfl, rfl⟩⟩)
    | _ => exact .inl (by cases inRecord <;> rfl)
  · by_cases hsentinel : (inRecord && v.isSentinel) = true
    · refine .inr (.inr ⟨by simpa using hsentinel, ?_⟩)
      rw [restoredScalar]
      · exact if_pos hsentinel
      · exact fun _ h ↦ hv h
      · exact fun _ h ↦ hv h
    · refine .inl ?_
      rw [restoredScalar]
      · exact if_neg hsentinel
      · exact fun _ h ↦ hv h
      · exact fun _ h ↦ hv h

/-- A value that looks like nothing is stored like nothing. -/
theorem scalarForm_of_isSentinel {k : Kind} {v : Value} (hk : v.matchesKind k = true)
    (h : v.isSentinel = true) : scalarForm k .null = scalarForm k v := by
  cases v <;> cases k <;>
    first
      | (cases hk; done)
      | cases h
      | (rw [Value.isSentinel, beq_iff_eq] at h; rw [h]; rfl)

/-- A scalar is restored to one that its slot accepts, with the same stored form. -/
theorem accepts_restoredScalar {k : Kind} {inRecord : Bool} {v : Value}
    (h : s.Accepts (.primitive k inRecord) v) :
    s.Accepts (.primitive k inRecord) (restoredScalar k inRecord v) ∧
      scalarForm k (restoredScalar k inRecord v) = scalarForm k v := by
  have hk := (Slot.fits_primitive_iff.1 (accepts_primitive_iff.1 h).1).1
  rcases restoredScalar_cases k inRecord v with heq | ⟨rfl, ⟨rfl, heq⟩ | ⟨rfl, heq⟩⟩ |
    ⟨⟨rfl, hsentinel⟩, heq⟩
  · rw [heq]
    exact ⟨h, rfl⟩
  · rw [heq, accepts_primitive_iff, Slot.fits_primitive_iff]
    exact ⟨⟨⟨rfl, fun h ↦ nomatch h⟩, fun _ ↦ by decide⟩, rfl⟩
  · rw [heq, accepts_primitive_iff, Slot.fits_primitive_iff]
    exact ⟨⟨⟨rfl, fun h ↦ nomatch h⟩, fun _ ↦ by decide⟩, rfl⟩
  · rw [heq, accepts_primitive_iff, Slot.fits_primitive_iff]
    exact ⟨⟨⟨rfl, fun _ ↦ .inl rfl⟩, fun _ ↦ by decide⟩, scalarForm_of_isSentinel hk hsentinel⟩

/-- **What is restored is stored again** in the same form. -/
theorem accepts_restored (hdistinct : s.Distinct) {slot : Slot} {v : Value}
    (hslot : s.Declares slot) (h : s.Accepts slot v) :
    s.Accepts slot (s.restored slot v) ∧ s.stored slot (s.restored slot v) = s.stored slot v := by
  obtain ⟨hconforms, hstorable⟩ := h
  induction hconforms using conformsInduction with
  | primitive k inRecord v hconforms =>
    rw [restored_primitive, stored_primitive, stored_primitive]
    exact accepts_restoredScalar ⟨hconforms, hstorable⟩
  | record t fields hconforms ih =>
    have hnodup := hdistinct t hslot
    have hfield (f : FieldDef) (hf : f ∈ t.fields) (inner : Slot)
        (hinner : s.slot? f = some inner) :=
      ih f hf inner hinner (declares_of_slot?_eq_some hinner)
        (storable_record_iff.1 hstorable f hf inner hinner)
    rw [restored_record_eq_map, accepts_record_iff, stored_record, stored_record]
    refine ⟨⟨rfl, fun f hf inner hinner ↦ ?_⟩, List.flatMap_congr fun f hf ↦ ?_⟩
    · rw [fieldOf_map hnodup _ hf, restoredField_of_slot?_eq_some hinner]
      exact (hfield f hf inner hinner).1
    -- fields are looked up by name, so their names must not be shared
    · rw [fieldOf_map hnodup _ hf]
      cases hinner : s.slot? f with
      | none => rfl
      | some inner =>
        rw [restoredField_of_slot?_eq_some hinner]
        exact (hfield f hf inner hinner).2
  | absent item hconforms =>
    rw [restored_absent, stored_absent, stored_array, accepts_array_iff]
    exact ⟨⟨Nat.zero_le _, fun v hv ↦ absurd hv List.not_mem_nil⟩, List.append_nil _⟩
  | array item items hconforms ih =>
    obtain ⟨hlength, hitems⟩ := storable_array_iff.1 hstorable
    have hitem (v : Value) (hv : v ∈ items) := ih v hv hslot (hitems v hv)
    rw [restored_array, stored_array, stored_array, accepts_array_iff, List.length_map,
      List.flatMap_map]
    refine ⟨⟨hlength, fun w hw ↦ ?_⟩, congrArg _ (List.flatMap_congr fun v hv ↦ (hitem v hv).2)⟩
    obtain ⟨v, hv, rfl⟩ := List.mem_map.1 hw
    exact (hitem v hv).1

end Schema

namespace Image

variable {s : Schema} {r : Record} {b : List UInt8} {c : Content}

/-- Whether a record is as it is read back from an image: it is stored as the image `b`, and what
it is restored to is the record itself. -/
structure Settled (s : Schema) (t : TypeDef) (b : List UInt8) (root : Record) : Prop where
  typeName : root.typeName = t.name
  encode : Image.encode s root = .ok b
  accepts : s.Accepts (.record t) root.toValue
  readable : s.EverySlot s.Readable 0 (.record t) root.toValue
  restored : s.restored (.record t) root.toValue = root.toValue

/-- **A root that was decoded** from the image of a record is settled. -/
theorem exists_settled (hs : s.validate = .ok ()) (hb : encode s r = .ok b)
    (hc : decode b = .ok c) : ∃ t, s.get? r.typeName = some t ∧ Settled s t b c.root := by
  have hdistinct := Schema.distinct_of_validate hs
  obtain ⟨t, d, _, _, ht, hd, -⟩ := encode_eq_ok_iff_walk.1 hb
  obtain ⟨hread, hrefused⟩ := decode_of_encode hb ht hd
  have hlimits : WithinLimits s t d r := by
    by_contra h
    obtain ⟨e, he⟩ := hrefused h
    exact nomatch hc.symm.trans he
  obtain ⟨hstorable, haccepts, hrootTag⟩ := (encode_eq_ok_iff ht hd).1 hb
  obtain rfl : c = restoredContent s t d r := Except.ok.inj (hc.symm.trans (hread hlimits))
  have ht' : s.get? (restoredContent s t d r).root.typeName = some t := by
    rw [← ht, ← Schema.name_of_get?_eq_some ht]
    rfl
  obtain ⟨haccepts', hstored⟩ : s.Accepts (.record t) (s.restored (.record t) r.toValue) ∧ _ :=
    Schema.accepts_restored hdistinct (Schema.mem_of_get?_eq_some ht) haccepts
  rw [← toValue_restoredContent s t d r] at haccepts' hstored
  have hencode : encode s (restoredContent s t d r).root = .ok b :=
    (encode_eq_ok_iff ht' hd).2 ⟨hstorable, haccepts', hstored ▸ hrootTag⟩
  -- the image is that of its own root, so the limits and what is read are those of this root
  obtain ⟨hread', hrefused'⟩ := decode_of_encode hencode ht' hd
  have hlimits' : WithinLimits s t d (restoredContent s t d r).root := by
    by_contra h
    obtain ⟨e, he⟩ := hrefused' h
    exact nomatch hc.symm.trans he
  have hroot := congrArg Content.root (Except.ok.inj (hc.symm.trans (hread' hlimits')))
  refine ⟨t, ht, rfl, hencode, haccepts', hlimits'.slots, ?_⟩
  rw [← toValue_restoredContent s t d, ← hroot]

end Image

end GraphCodec
