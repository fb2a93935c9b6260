import GraphCodec.Proofs.Encoding
import GraphCodec.Proofs.Reading

/-!
# Decoding what was encoded

The decoder gives back the dictionary and the restored root of an image if the record is within the
limits of the reader, and refuses the image otherwise (`decode_of_encode`). Nothing on the side of
the encoder asks for these limits, so there are images that cannot be read.
-/

namespace GraphCodec

namespace Image

open Decoder

/-- Whether a record of type `t` with the dictionary `d` is within the limits of the reader. -/
structure WithinLimits (s : Schema) (t : TypeDef) (d : Dictionary) (r : Record) : Prop where
  types : d.types.size ≤ maxTypes
  fields : ∀ u ∈ d.types.toList, u.fields.length ≤ maxFields
  slots : s.EverySlot s.Readable 0 (.record t) r.toValue

variable {s : Schema} {r : Record} {t : TypeDef} {d : Dictionary} {b : List UInt8}

/-! ### Complete images -/

/-- The content of an image as it is read back. -/
def restoredContent (s : Schema) (t : TypeDef) (d : Dictionary) (r : Record) : Content :=
  ⟨d, t.name, t.fields.map fun f ↦ match s.slot? f with
    | some inner => (f.name, s.restored inner (Value.fieldOf r.fields f.name))
    | none => (f.name, .null)⟩

/-- The root of the restored content is the restored record. -/
theorem toValue_restoredContent (s : Schema) (t : TypeDef) (d : Dictionary) (r : Record) :
    (restoredContent s t d r).root.toValue = s.restored (.record t) r.toValue := by
  rw [Record.toValue, Record.toValue, Schema.restored_record]
  rfl

/-- **Reading an image.** The limits of the reader decide. -/
theorem readsWhen_content (ht : s.get? r.typeName = some t) (hd : Dictionary.ofSchema s t = .ok d)
    (hstorable : d.types.size ≤ maxLength ∧ d.Storable)
    (haccepts : s.Accepts (.record t) r.toValue) {rootTag : Tag}
    (htag : d.tagFor? t.name = some rootTag) :
    ReadsWhen readContent (WithinLimits s t d r)
      (imageForm d rootTag (s.stored (.record t) r.toValue)) (restoredContent s t d r) := by
  have hmem := Schema.mem_of_get?_eq_some ht
  have hof := Dictionary.OfSchema.of_eq_ok hmem hd
  have hdescribes := hof.describes
  have hordered := hdescribes.ordered (Array.length_toList ▸ hof.numbered)
  obtain ⟨u, hu, hname⟩ := hof.root
  obtain rfl : u.tag = rootTag := by
    rw [← hname, hordered.tagFor?_eq_some hu] at htag
    exact Option.some.inj htag
  have hvalue : r.toValue = .record t.name r.fields := by
    rw [Record.toValue, Schema.name_of_get?_eq_some ht]
  have hheader := readsWhen_header hstorable.1 hstorable.2 fun _ ↦ hordered
  rw [hof.ofTypes_eq] at hheader
  rw [hvalue] at haccepts
  have hroot := (readsWhen_fields hdescribes hmem hu hname (Nat.zero_add maxNesting)
    fun f hf inner hinner ↦ readsWhen_readSlot hdescribes hordered
      ((Schema.conforms_record_iff.1 haccepts.1).2 f hf inner hinner)
      (Schema.storable_record_iff.1 haccepts.2 f hf inner hinner)).map fun fields ↦
        (⟨d, u.name, fields⟩ : Content)
  -- the limits of the dictionary and those of the fields are all that a root has
  have hlimits : (((d.types.size ≤ maxTypes ∧ ∀ u ∈ d.types.toList, u.fields.length ≤ maxFields) ∧
      ∀ f ∈ t.fields, ∀ inner, s.slot? f = some inner →
        s.EverySlot s.Readable (0 + 1) inner (Value.fieldOf r.fields f.name)) ↔
      WithinLimits s t d r) := by
    have hslots : s.EverySlot s.Readable 0 (.record t) r.toValue ↔
        ∀ f ∈ t.fields, ∀ inner, s.slot? f = some inner →
          s.EverySlot s.Readable (0 + 1) inner (Value.fieldOf r.fields f.name) := by
      rw [hvalue, Schema.everySlot_record_iff]
      exact and_iff_right (Nat.zero_le maxNesting)
    constructor
    · rintro ⟨⟨htypes, hfields⟩, h⟩
      exact ⟨htypes, hfields, hslots.2 h⟩
    · intro h
      exact ⟨⟨h.types, h.fields⟩, hslots.1 h.slots⟩
  rw [hvalue, imageForm, frontForm, List.append_assoc, List.append_assoc]
  refine ReadsWhen.congr ?_ hlimits
  refine (reads_int32 magic).bindWhen ?_
  rw [if_neg (not_not.2 rfl)]
  refine hheader.bind ((reads_int32 u.tag).bindWhen ?_)
  rw [readType, hordered.descriptor?_eq_some hu]
  simp only [readRoot, bind_assoc, pure_bind]
  rw [hname] at hroot ⊢
  exact hroot

/-- **Decoding an image** gives the restored content if the record is within the limits of the
reader, and fails otherwise. -/
theorem decode_of_encode (hb : encode s r = .ok b) (ht : s.get? r.typeName = some t)
    (hd : Dictionary.ofSchema s t = .ok d) :
    (WithinLimits s t d r → decode b = .ok (restoredContent s t d r)) ∧
      (¬WithinLimits s t d r → ∃ e, decode b = .error e) := by
  obtain ⟨hstorable, haccepts, rootTag, htag, rfl⟩ := (encode_eq_ok_iff ht hd).1 hb
  have hread := readsWhen_content ht hd hstorable haccepts htag
  exact ⟨fun h ↦ decode_eq_of_reads (hread.reads h),
    fun h ↦ decode_eq_error_of_refuses (hread.refuses h)⟩

/-- **Decoding undoes encoding**: a record within the limits of the reader comes back, with the
dictionary of its type, as the restored record. -/
theorem decode_encode (hb : encode s r = .ok b) :
    ∃ t d, s.get? r.typeName = some t ∧ Dictionary.ofSchema s t = .ok d ∧
      (WithinLimits s t d r → ∃ root, decode b = .ok ⟨d, root⟩ ∧
        root.toValue = s.restored (.record t) r.toValue) := by
  obtain ⟨t, d, _, _, ht, hd, -⟩ := encode_eq_ok_iff_walk.1 hb
  refine ⟨t, d, ht, hd, fun h ↦ ⟨(restoredContent s t d r).root, ?_, ?_⟩⟩
  · exact (decode_of_encode hb ht hd).1 h
  · exact toValue_restoredContent s t d r

/-- The record of the example is within all limits. -/
theorem withinLimits_tour : WithinLimits tourSchema tourType tourDictionary tour := by
  have htitle : tourSchema.slot? ⟨"title", "string", 0, false⟩ = some (.primitive .string true) := by
    cbv
  have hlegs : tourSchema.slot? ⟨"legs", "Leg", 1, false⟩ = some (.array (.record legType)) := by
    cbv
  have hlast : tourSchema.slot? ⟨"last", "Leg", 0, false⟩ = some (.record legType) := by cbv
  have hrank : tourSchema.slot? ⟨"rank", "short", 0, false⟩ = some (.primitive .short true) := by
    cbv
  have hto : tourSchema.slot? ⟨"to", "string", 0, false⟩ = some (.primitive .string true) := by cbv
  have hstops : tourSchema.slot? ⟨"stops", "int", 1, false⟩ =
      some (.array (.primitive .int false)) := by
    cbv
  refine ⟨by decide, by decide, ?_⟩
  simp [Record.toValue, tour, tourType, legType, Schema.everySlot_record_iff,
    Schema.everySlot_array_iff, Schema.everySlot_absent_iff, Schema.everySlot_primitive_iff,
    Schema.Readable, htitle, hlegs, hlast, hrank, hto, hstops, Value.fieldOf, Value.lookup?,
    maxNesting, maxWeightless]

/-- What is absent comes back as the empty text, the array without items and, for the number, as
absent; every record has all the fields of its type, in their order. -/
theorem decode_encode_tour : ∃ root,
    decode (imageForm tourDictionary 13 tourBytes) = .ok ⟨tourDictionary, root⟩ ∧
    root.toValue = .record "Tour" [
      ("title", .string ""),
      ("legs", .array [
        .record "Leg" [("to", .string "Ulm"), ("stops", .array [.int 3, .int 5])],
        .record "Leg" [("to", .string ""), ("stops", .array [])]]),
      ("last", .record "Leg" [("to", .string "Köln"), ("stops", .array [.int 8])]),
      ("rank", .null)] := by
  obtain ⟨t, d, ht, hd, h⟩ := decode_encode encode_tour
  obtain rfl : tourType = t := Option.some.inj (get?_tour.symm.trans ht)
  obtain rfl : tourDictionary = d := Except.ok.inj (ofSchema_tour.symm.trans hd)
  obtain ⟨root, hroot, hvalue⟩ := h withinLimits_tour
  refine ⟨root, hroot, hvalue.trans ?_⟩
  cbv

/-- **Which images can be read**: those of records within the limits of the reader, and no others.
The encoder itself keeps to none of these limits. -/
theorem exists_decode_iff_withinLimits (hb : encode s r = .ok b) :
    ∃ t d, s.get? r.typeName = some t ∧ Dictionary.ofSchema s t = .ok d ∧
      ((∃ c, decode b = .ok c) ↔ WithinLimits s t d r) := by
  obtain ⟨t, d, _, _, ht, hd, -⟩ := encode_eq_ok_iff_walk.1 hb
  obtain ⟨hread, hrefused⟩ := decode_of_encode hb ht hd
  refine ⟨t, d, ht, hd, fun ⟨c, hc⟩ ↦ ?_, fun h ↦ ⟨_, hread h⟩⟩
  by_contra h
  obtain ⟨e, he⟩ := hrefused h
  rw [hc] at he
  cases he

theorem exists_decode_tour :
    ∃ c, decode (imageForm tourDictionary 13 tourBytes) = .ok c := by
  obtain ⟨t, d, ht, hd, h⟩ := exists_decode_iff_withinLimits encode_tour
  obtain rfl : tourType = t := Option.some.inj (get?_tour.symm.trans ht)
  obtain rfl : tourDictionary = d := Except.ok.inj (ofSchema_tour.symm.trans hd)
  exact h.2 withinLimits_tour

/-- An event at the beginning of the year 10000. -/
def lateEvent : Record :=
  ⟨"Event", [("at", .date ⟨253402300800, 0, by decide, by decide⟩)]⟩

theorem encode_lateEvent_not_decode :
    ∃ b, encode eventSchema lateEvent = .ok b ∧ ¬∃ c, decode b = .ok c := by
  refine ⟨imageForm eventDictionary 12
    ([255, 255, 255, 127] ++ textForm "+10000-01-01T00:00:00.000Z"), by cbv, ?_⟩
  rintro ⟨c, hc⟩
  have hrefused : decode (imageForm eventDictionary 12
      ([255, 255, 255, 127] ++ textForm "+10000-01-01T00:00:00.000Z")) =
        .error (.data (.invalidDate "+10000-01-01T00:00:00.000Z" .invalid)) := by
    cbv
  rw [hrefused] at hc
  cases hc

end Image

end GraphCodec
