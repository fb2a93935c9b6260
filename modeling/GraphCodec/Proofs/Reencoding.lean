import GraphCodec.Proofs.Encoding
import GraphCodec.Proofs.Reading
import GraphCodec.Proofs.StoredDates

/-!
# Encoding what was decoded

Whatever the reader accepts with the dictionary of a schema is the stored form of what it returns:
there is no second spelling of a value, except for dates. If the texts of the dates are canonical,
encoding the root that was decoded gives the image back byte for byte. The induction is on the
levels of nesting that the reader has left (`yields_readSlotTexts`).

The reader looks for the fields of a record by name, and so does the writer; hence the names of the
fields of a type have to be distinct, which `Schema.validate` checks.
-/

namespace GraphCodec

/-! ### Distinct names -/

/-- If names are not shared, every field is found by its own. -/
theorem Value.fieldOf_of_mem {fields : List (String × Value)}
    (hnodup : (fields.map Prod.fst).Nodup) {f : String × Value} (hf : f ∈ fields) :
    fieldOf fields f.1 = f.2 := by
  induction fields with
  | nil => cases hf
  | cons g gs ih =>
    rw [List.map_cons, List.nodup_cons] at hnodup
    rcases List.mem_cons.1 hf with rfl | hf'
    · simp [fieldOf, lookup?]
    · have hne : (g.1 == f.1) = false := by
        rw [beq_eq_false_iff_ne]
        exact fun h ↦ hnodup.1 (List.mem_map.2 ⟨f, hf', h.symm⟩)
      have hrest := ih hnodup.2 hf'
      unfold fieldOf lookup? at hrest ⊢
      rwa [List.find?_cons, hne]

/-! ### Dates -/

/-- Whether the text of a date is the one that is stored for the instant that it means. The empty
text is the only one of an absent date. -/
def CanonicalDate (text : String) : Prop :=
  text ≠ "" → ∃ i, Rfc3339.parse text = .ok i ∧ Rfc3339.format i = text

namespace Decoder

/-- A primitive that was read is spelled as it stands there, if its dates are canonical. -/
theorem yields_primitiveTexts (k : Kind) (inRecord : Bool) :
    Yields (primitiveTexts k inRecord) fun p bs ↦
      (∀ text ∈ p.2, CanonicalDate text) → Spells k inRecord p.1 bs := by
  by_cases hk : k = .date
  · subst hk
    refine (yields_text.bind (S := fun s p cs ↦ (p.2 = [s] ∧ cs = []) ∧
      (s = "" ∧ p.1 = .null ∨ s ≠ "" ∧ ∃ i, Rfc3339.parse s = .ok i ∧ p.1 = .date i))
      fun s _ _ ↦ ?_).mono ?_
    · split
      · rename_i hempty
        refine (yields_pure _).mono ?_
        rintro p bs ⟨rfl, rfl⟩
        exact ⟨⟨rfl, rfl⟩, .inl ⟨hempty, rfl⟩⟩
      · rename_i hne
        cases hparse : Rfc3339.parse s with
        | error e => exact yields_fail _ _
        | ok i =>
          refine (yields_pure _).mono ?_
          rintro p bs ⟨rfl, rfl⟩
          exact ⟨⟨rfl, rfl⟩, .inr ⟨hne, i, rfl, rfl⟩⟩
    · rintro ⟨v, texts⟩ bs ⟨s, _, _, ⟨hs, rfl⟩, ⟨⟨rfl, rfl⟩, hv⟩, rfl⟩ hcanonical
      rw [List.append_nil]
      rcases hv with ⟨rfl, rfl⟩ | ⟨hne, i, hparse, rfl⟩
      · exact ⟨by cases inRecord <;> rfl, fun _ ↦ hs, rfl⟩
      · obtain ⟨j, hj, rfl⟩ := hcanonical s List.mem_cons_self hne
        obtain rfl : j = i := Except.ok.inj (hj.symm.trans hparse)
        exact ⟨by cases inRecord <;> rfl, fun _ ↦ hs, rfl⟩
  · rw [primitiveTexts_of_ne_date hk]
    refine ((yields_primitive hk inRecord).map fun v ↦ (v, [])).mono ?_
    rintro p bs ⟨v, hv, rfl⟩ _
    exact hv

end Decoder

namespace Image

open Decoder

variable {s : Schema} {d : Dictionary}

/-! ### Slots -/

/-- What the bytes of a slot are, if the texts of the dates in it are canonical: the stored form of
a value that the slot accepts. -/
def SpellsSlot (s : Schema) (slot : Slot) (p : Value × List String) (bs : List UInt8) : Prop :=
  (∀ text ∈ p.2, CanonicalDate text) → s.Accepts slot p.1 ∧ bs = s.stored slot p.1

theorem yields_primitive_spellsSlot (k : Kind) (inRecord : Bool) :
    Yields (primitiveTexts k inRecord) (SpellsSlot s (.primitive k inRecord)) := by
  refine (yields_primitiveTexts k inRecord).mono ?_
  rintro ⟨v, texts⟩ bs h hcanonical
  obtain ⟨hfits, hstorable, hbytes⟩ := h hcanonical
  exact ⟨Schema.accepts_primitive_iff.2 ⟨hfits, hstorable⟩,
    hbytes.trans (Schema.stored_primitive s k inRecord v).symm⟩

/-- A record is spelled by its fields, if the names of these are distinct. -/
theorem stored_record_of_parts {t : TypeDef} (hnames : t.fieldNames.Nodup)
    {parts : List ((String × Value) × List UInt8)}
    (h : List.Forall₂ (fun f p ↦ f.name = p.1.1 ∧ ∃ inner, s.slot? f = some inner ∧
      s.Accepts inner p.1.2 ∧ p.2 = s.stored inner p.1.2) t.fields parts) :
    s.Accepts (.record t) (.record t.name (parts.map Prod.fst)) ∧
      parts.flatMap Prod.snd = s.stored (.record t) (.record t.name (parts.map Prod.fst)) := by
  have hmap : t.fieldNames = (parts.map Prod.fst).map Prod.fst := by
    rw [List.map_map]
    exact map_eq_map_of_forall₂ (h.imp fun _ _ hp ↦ hp.1)
  rw [hmap] at hnames
  -- the look-up of a field finds its own part
  have hlook : ∀ i (hf : i < t.fields.length) (hp : i < parts.length), ∃ inner,
      s.slot? t.fields[i] = some inner ∧
        s.Accepts inner (Value.fieldOf (parts.map Prod.fst) t.fields[i].name) ∧
          parts[i].2 = s.stored inner (Value.fieldOf (parts.map Prod.fst) t.fields[i].name) := by
    intro i hf hp
    obtain ⟨hname, inner, hinner, haccepts, hbytes⟩ := h.get hf hp
    have hfield : Value.fieldOf (parts.map Prod.fst) t.fields[i].name = parts[i].1.2 := by
      have hmem : parts[i].1 ∈ parts.map Prod.fst :=
        List.mem_map.2 ⟨parts[i], List.getElem_mem hp, rfl⟩
      rw [← Value.fieldOf_of_mem hnames hmem]
      exact congrArg _ hname
    rw [hfield]
    exact ⟨inner, hinner, haccepts, hbytes⟩
  rw [Schema.accepts_record_iff, Schema.stored_record, and_iff_right rfl]
  constructor
  · intro f hf inner hinner
    obtain ⟨i, hi, rfl⟩ := List.getElem_of_mem hf
    obtain ⟨inner', hinner', haccepts, -⟩ := hlook i hi (h.length_eq ▸ hi)
    obtain rfl : inner = inner' := Option.some.inj (hinner.symm.trans hinner')
    exact haccepts
  · rw [List.flatMap_def, List.flatMap_def]
    refine congrArg List.flatten (map_eq_map_of_forall₂ ?_).symm
    refine List.forall₂_iff_get.2 ⟨h.length_eq, fun i hf hp ↦ ?_⟩
    obtain ⟨inner, hinner, -, hbytes⟩ := hlook i hf hp
    simp only [List.get_eq_getElem, hinner]
    exact hbytes.symm

/-- The reader of the fields of a record and of the texts of the dates in them. -/
def readFieldsTexts (d : Dictionary) (levels : Nat) (u : TypeEntry) :
    Decoder (List ((String × Value) × List String)) :=
  Decoder.each u.fields fun f ↦
    readSlotTexts d d.widths levels f.tag f.dims.toNatClampNeg true >>= fun part ↦
      pure ((f.name, part.1), part.2)

/-- What is to be shown of the reader with some levels left. -/
def YieldsSlots (s : Schema) (d : Dictionary) (levels : Nat) : Prop :=
  ∀ {element dims inRecord tag}, s.Lists d.types.toList element →
    element.HasTag d.types.toList tag →
      Yields (readSlotTexts d d.widths levels tag dims inRecord)
        (SpellsSlot s (.ofElement element dims inRecord))

/-- The fields of a record that is read spell it. -/
theorem yields_fieldsTexts (hd : s.Describes d.types.toList)
    (hnames : s.Distinct) {levels : Nat} (hslots : YieldsSlots s d levels)
    {t : TypeDef} {u : TypeEntry} (ht : t ∈ s.types) (hu : u ∈ d.types.toList)
    (hname : u.name = t.name) :
    Yields (readFieldsTexts d levels u) fun parts bs ↦
      SpellsSlot s (.record t)
        (.record t.name (parts.map Prod.fst), parts.flatMap Prod.snd) bs := by
  have hfields : List.Forall₂ (fun f g ↦
      Yields (readSlotTexts d d.widths levels g.tag g.dims.toNatClampNeg true >>= fun part ↦
        pure ((g.name, part.1), part.2)) fun p bs ↦ f.name = p.1.1 ∧
          ∃ inner, s.slot? f = some inner ∧ SpellsSlot s inner (p.1.2, p.2) bs)
      t.fields u.fields := by
    refine (hd.fields_described ht hu hname).imp fun f g hg ↦ ?_
    obtain ⟨element, helement, htag⟩ := hg.element
    have hslot := Schema.slot?_eq_some helement
    rw [hg.toNatClampNeg_dims]
    refine ((hslots (hg.lists_of_eq helement) htag).map _).mono ?_
    rintro p bs ⟨part, hpart, rfl⟩
    exact ⟨hg.name.symm, _, hslot, hpart⟩
  refine (yields_zip hfields).mono ?_
  rintro fields bs ⟨parts, hparts, rfl, rfl⟩ hcanonical
  have hspelled : List.Forall₂ (fun f (p : (String × Value) × List UInt8) ↦ f.name = p.1.1 ∧
      ∃ inner, s.slot? f = some inner ∧ s.Accepts inner p.1.2 ∧ p.2 = s.stored inner p.1.2)
      t.fields (parts.map fun p ↦ (p.1.1, p.2)) := by
    rw [List.forall₂_map_right_iff]
    refine List.forall₂_iff_get.2 ⟨hparts.length_eq, fun i hf hp ↦ ?_⟩
    obtain ⟨hfield, inner, hinner, hspells⟩ := hparts.get hf hp
    refine ⟨hfield, inner, hinner, hspells fun text htext ↦ hcanonical text ?_⟩
    exact List.mem_flatMap.2 ⟨_, List.mem_map_of_mem (List.getElem_mem hp), htext⟩
  have hrecord := stored_record_of_parts (hnames t ht) hspelled
  simp only [List.map_map, List.flatMap_map] at hrecord ⊢
  exact hrecord

/-- A count that was read stands there as it is stored. -/
theorem yields_readCount (tag : Tag) (width : Nat) :
    Yields (readCount tag width) fun n bs ↦ n ≤ maxLength ∧ bs = lengthWord n := by
  refine ((yields_length width).bind (S := fun n m cs ↦ m = n ∧ cs = []) fun n _ _ ↦ ?_).mono ?_
  · split
    · exact yields_fail _ _
    · exact yields_pure n
  · rintro n bs ⟨_, _, _, hn, ⟨rfl, rfl⟩, rfl⟩
    rwa [List.append_nil]

/-- The items of an array that is read spell it. -/
theorem yields_arrayTexts {item : Slot} {read : Decoder (Value × List String)}
    (hitem : Yields read (SpellsSlot s item)) (tag : Tag) (width : Nat) :
    Yields (do
        let count ← readCount tag width
        let items ← Decoder.times count read
        return (.array (items.map Prod.fst), items.flatMap Prod.snd))
      (SpellsSlot s (.array item)) := by
  refine ((yields_readCount tag width).bind fun n _ _ ↦
    (yields_times hitem n).map _).mono ?_
  rintro p bs ⟨n, _, _, ⟨hn, rfl⟩, ⟨_, ⟨parts, rfl, hparts, rfl, rfl⟩, rfl⟩, rfl⟩ hcanonical
  have hitems : ∀ q ∈ parts, s.Accepts item q.1.1 ∧ q.2 = s.stored item q.1.1 := by
    refine fun q hq ↦ hparts q hq fun text htext ↦ hcanonical text ?_
    exact List.mem_flatMap.2 ⟨_, List.mem_map_of_mem hq, htext⟩
  simp only [List.map_map]
  rw [Schema.accepts_array_iff, Schema.stored_array, List.length_map, List.flatMap_map]
  refine ⟨⟨hn, fun v hv ↦ ?_⟩, congrArg _ (List.flatMap_congr fun q hq ↦ (hitems q hq).2)⟩
  obtain ⟨q, hq, rfl⟩ := List.mem_map.1 hv
  exact (hitems q hq).1

theorem readSlotTexts_primitive (widths : List (Tag × Nat)) (levels : Nat) (k : Kind)
    (inRecord : Bool) :
    readSlotTexts d widths levels k.tag 0 inRecord = primitiveTexts k inRecord := by
  cases levels <;> rw [readSlotTexts, Kind.ofTag?_tag]

/-- **Whatever is read in a slot** is spelled by the stored form of a value that it accepts. -/
theorem yields_readSlotTexts (hd : s.Describes d.types.toList) (ho : Ordered d.types.toList)
    (hnames : s.Distinct) (levels : Nat) : YieldsSlots s d levels := by
  induction levels with
  | zero =>
    intro element dims inRecord tag _ htag
    cases dims with
    | zero =>
      cases element with
      | primitive k =>
        rw [show tag = k.tag from htag, readSlotTexts_primitive]
        exact yields_primitive_spellsSlot k inRecord
      | composite t =>
        obtain ⟨u, hu, -, rfl⟩ := htag
        -- at the last level a record is refused before its fields are read
        rw [readSlotTexts, Kind.ofTag?_eq_none (ho.composite hu), readType,
          ho.descriptor?_eq_some hu]
        exact yields_fail _ _
    | succ dims =>
      rw [readSlotTexts]
      exact yields_fail _ _
  | succ levels ih =>
    intro element dims inRecord tag hlists htag
    cases dims with
    | zero =>
      cases element with
      | primitive k =>
        rw [show tag = k.tag from htag, readSlotTexts_primitive]
        exact yields_primitive_spellsSlot k inRecord
      | composite t =>
        obtain ⟨u, hu, hname, rfl⟩ := htag
        rw [readSlotTexts, Kind.ofTag?_eq_none (ho.composite hu), readType,
          ho.descriptor?_eq_some hu]
        refine ((yields_fieldsTexts hd hnames ih hlists.1 hu hname).map fun parts ↦
          (Value.record u.name (parts.map Prod.fst), parts.flatMap Prod.snd)).mono ?_
        rintro p bs ⟨parts, hparts, rfl⟩
        rw [hname]
        exact hparts
    | succ dims =>
      rw [readSlotTexts]
      exact yields_arrayTexts (ih hlists htag) tag _

/-! ### Images -/

/-- What the reader reads can be read with the texts of its dates. -/
theorem exists_readContentTexts {b : List UInt8} {c : Content} (h : decode b = .ok c) :
    ∃ texts e, readContentTexts (Cursor.ofBytes b) = .ok ((c, texts), e) ∧ e.rest = [] ∧
      dateTexts b = texts := by
  obtain ⟨e, hread, hrest⟩ := decode_eq_ok_iff.1 h
  rw [← map_fst_readContentTexts, map_eq_pure_bind, bind_apply_eq_ok_iff] at hread
  obtain ⟨⟨c, texts⟩, e', hread, hpure⟩ := hread
  cases hpure
  refine ⟨texts, e, hread, ?_, ?_⟩
  · rw [e.remaining_eq] at hrest
    exact List.length_eq_zero_iff.1 hrest
  · rw [dateTexts, hread]

/-- What an image that is read consists of. -/
theorem exists_parts_of_readContentTexts {c e : Cursor} {content : Content} {texts : List String}
    (h : readContentTexts c = .ok ((content, texts), e)) :
    ∃ u rootTag c₁ parts, (Ordered content.dictionary.types.toList ∧ content.dictionary.Storable ∧
        content.dictionary.types.size ≤ maxTypes) ∧
      (u ∈ content.dictionary.types.toList ∧ u.tag = rootTag) ∧
      c.rest = frontForm content.dictionary rootTag ++ c₁.rest ∧
      readFieldsTexts content.dictionary maxNesting u c₁ = .ok (parts, e) ∧
      content.root = ⟨u.name, parts.map Prod.fst⟩ ∧ texts = parts.flatMap Prod.snd := by
  unfold readContentTexts at h
  obtain ⟨found, c₁, hmagic, h⟩ := bind_apply_eq_ok_iff.1 h
  obtain ⟨_, rfl, hrest₁, -⟩ := yields_int32 hmagic
  by_cases hfound : found = magic
  · rw [if_neg (not_not.2 hfound)] at h
    obtain ⟨d, c₂, hheader, h⟩ := bind_apply_eq_ok_iff.1 h
    obtain ⟨_, ⟨hordered, hstorable, hsize, rfl⟩, hrest₂, -⟩ := yields_header hheader
    obtain ⟨rootTag, c₃, htag, h⟩ := bind_apply_eq_ok_iff.1 h
    obtain ⟨_, rfl, hrest₃, -⟩ := yields_int32 htag
    obtain ⟨u, c₄, htype, h⟩ := bind_apply_eq_ok_iff.1 h
    obtain ⟨root, c₅, hroot, h⟩ := bind_apply_eq_ok_iff.1 h
    obtain ⟨parts, c₆, hfields, hpure⟩ := bind_apply_eq_ok_iff.1 hroot
    cases hpure
    cases h
    have hu : c₄ = c₃ ∧ u ∈ d.types.toList ∧ u.tag = rootTag := by
      unfold readType at htype
      cases hdescriptor : d.descriptor? rootTag with
      | none =>
        rw [hdescriptor] at htype
        cases htype
      | some u' =>
        rw [hdescriptor] at htype
        cases htype
        exact ⟨rfl, Dictionary.mem_of_descriptor?_eq_some hdescriptor⟩
    obtain ⟨rfl, hu⟩ := hu
    refine ⟨u, rootTag, c₄, parts, ⟨hordered, hstorable, hsize⟩, hu, ?_, hfields, rfl, rfl⟩
    rw [hrest₁, hrest₂, hrest₃, hfound, frontForm, List.append_assoc, List.append_assoc]
  · rw [if_pos hfound] at h
    cases h

/-- **Encoding undoes decoding**: if the types in an image are those of a well-formed schema and
every date in it is written as the encoder writes it, encoding the root gives the image back. -/
theorem encode_decode {b : List UInt8} {c : Content} {t : TypeDef} (hs : s.validate = .ok ())
    (hb : decode b = .ok c) (ht : s.get? c.root.typeName = some t)
    (hd : Dictionary.ofSchema s t = .ok d) (htypes : c.dictionary.types = d.types)
    (hdates : ∀ text ∈ dateTexts b, text ≠ "" →
      ∃ i, Rfc3339.parse text = .ok i ∧ Rfc3339.format i = text) :
    encode s c.root = .ok b := by
  obtain ⟨texts, e, hread, hend, htexts⟩ := exists_readContentTexts hb
  obtain ⟨u, rootTag, c₁, parts, ⟨hordered, hstorable, hsize⟩, ⟨hu, rfl⟩, hfront, hfields, hroot,
    rfl⟩ := exists_parts_of_readContentTexts hread
  have hmem := Schema.mem_of_get?_eq_some ht
  have hname : u.name = t.name := by
    rw [Schema.name_of_get?_eq_some ht, hroot]
  have hof := Dictionary.OfSchema.of_eq_ok hmem hd
  have hdescribes : s.Describes c.dictionary.types.toList := by
    rw [htypes]
    exact hof.describes
  -- the root is read as the fields of its type, whose levels are the reader's
  have hyields := yields_fieldsTexts hdescribes (Schema.distinct_of_validate hs)
    (yields_readSlotTexts hdescribes hordered (Schema.distinct_of_validate hs) maxNesting)
    hmem hu hname
  obtain ⟨body, hbody, hrest, -⟩ := hyields hfields
  obtain ⟨haccepts, rfl⟩ := hbody (by rwa [← htexts])
  have hheader : d.headerForm = c.dictionary.headerForm := by
    rw [Dictionary.headerForm, Dictionary.headerForm, htypes]
  have hstorable' : d.Storable := by
    rw [Dictionary.Storable, ← htypes]
    exact hstorable
  have htag : d.tagFor? t.name = some u.tag := by
    rw [← hname]
    rw [htypes] at hordered hu
    exact hordered.tagFor?_eq_some hu
  have hvalue : c.root.toValue = .record t.name (parts.map Prod.fst) := by
    rw [hroot, Record.toValue, hname]
  rw [encode_eq_ok_iff ht hd, hvalue]
  refine ⟨⟨hof.size_le_maxLength, hstorable'⟩, haccepts, u.tag, htag, ?_⟩
  -- the image is the front, the fields, and nothing behind them
  have hbytes : b = (Cursor.ofBytes b).rest := rfl
  rw [hbytes, hfront, hrest, hend, List.append_nil, imageForm, frontForm, frontForm, hheader]

/-- An event with a date. -/
def datedEvent : Record :=
  ⟨"Event", [("id", .int 7), ("at", .date ⟨1714979289, 500000000, by decide, by decide⟩)]⟩

theorem encode_decode_datedEvent :
    decode (imageForm eventDictionary 12 ([7, 0, 0, 0] ++ textForm "2024-05-06T07:08:09.500Z")) =
      .ok ⟨eventDictionary, datedEvent⟩ ∧
    encode eventSchema datedEvent =
      .ok (imageForm eventDictionary 12 ([7, 0, 0, 0] ++ textForm "2024-05-06T07:08:09.500Z")) := by
  have hdecode : decode (imageForm eventDictionary 12
      ([7, 0, 0, 0] ++ textForm "2024-05-06T07:08:09.500Z")) =
        .ok ⟨eventDictionary, datedEvent⟩ := by
    cbv
  have htexts : dateTexts (imageForm eventDictionary 12
      ([7, 0, 0, 0] ++ textForm "2024-05-06T07:08:09.500Z")) = ["2024-05-06T07:08:09.500Z"] := by
    cbv
  refine ⟨hdecode, encode_decode (by cbv) hdecode get?_event ofSchema_event rfl ?_⟩
  rw [htexts]
  intro text htext _
  obtain rfl := List.mem_singleton.1 htext
  exact ⟨⟨1714979289, 500000000, by decide, by decide⟩, by cbv, by cbv⟩

end Image

end GraphCodec
