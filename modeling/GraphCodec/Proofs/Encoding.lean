import GraphCodec.Proofs.Writing

/-!
# The image of a record

An image is the magic number, the dictionary section, the tag of the root type and the stored form
of the root (`imageForm`). The encoder, which listens to two walks and keeps the frames that are
open, makes exactly this of exactly the records that conform to the schema
(`encode_eq_ok_iff`).
-/

namespace GraphCodec

namespace Image

/-- What stands in an image before the body. -/
def frontForm (d : Dictionary) (rootTag : Tag) : List UInt8 :=
  Word.ofInt32 magic ++ (d.headerForm ++ Word.ofInt32 rootTag)

/-- The form of an image. -/
def imageForm (d : Dictionary) (rootTag : Tag) (body : List UInt8) : List UInt8 :=
  frontForm d rootTag ++ body

/-- The front of an image is made exactly if the dictionary can be stored, whatever the tag of the
root. -/
theorem preamble_eq_ok_iff {d : Dictionary} {rootTag : Tag} {bs : List UInt8} :
    preamble d rootTag = .ok bs ↔
      (d.types.size ≤ maxLength ∧ d.Storable) ∧ bs = frontForm d rootTag := by
  unfold preamble frontForm
  simp only [bind_eq_ok_iff, Dictionary.headerBytes_eq_ok_iff]
  constructor
  · rintro ⟨_, ⟨hsize, hstorable, rfl⟩, h⟩
    cases h
    exact ⟨⟨hsize, hstorable⟩, List.append_assoc _ _ _⟩
  · rintro ⟨⟨hsize, hstorable⟩, rfl⟩
    exact ⟨_, ⟨hsize, hstorable, rfl⟩, congrArg Except.ok (List.append_assoc _ _ _)⟩

variable {s : Schema} {r : Record} {t : TypeDef} {d : Dictionary} {b : List UInt8}

/-- An image is encoded from a type, its dictionary and a walk over the record. -/
theorem encode_eq_ok_iff_walk : encode s r = .ok b ↔ ∃ t d rootTag w,
    s.get? r.typeName = some t ∧ Dictionary.ofSchema s t = .ok d ∧ d.tagFor? t.name = some rootTag ∧
      (d.types.size ≤ maxLength ∧ d.Storable) ∧
      Trace.run (Writer.listener d) (s.walkRecord none t.name t r.fields)
        (Writer.empty.write (frontForm d rootTag)) = .ok () w ∧ w.finish = .ok b := by
  have hwalk : ∀ {t}, s.get? r.typeName = some t →
      s.walkRoot r = s.walkRecord none t.name t r.fields := by
    intro t ht
    rw [Schema.walkRoot, ht]
  unfold encode
  cases hget : s.get? r.typeName with
  | none => exact ⟨fun h ↦ (by cases h), fun ⟨_, _, _, _, h, _⟩ ↦ (by cases h)⟩
  | some t =>
    simp only [bind_eq_ok_iff, Option.some.injEq, hwalk hget]
    constructor
    · rintro ⟨d, hd, h⟩
      cases htag : d.tagFor? t.name with
      | none =>
        rw [htag] at h
        cases h
      | some rootTag =>
        rw [htag] at h
        simp only [bind_eq_ok_iff, preamble_eq_ok_iff] at h
        obtain ⟨_, ⟨hfront, rfl⟩, ⟨u, w⟩, hrun, hfinish⟩ := h
        exact ⟨t, d, rootTag, w, rfl, hd, htag, hfront, Trace.outcomeFrom_eq_ok_iff.1 hrun, hfinish⟩
    · rintro ⟨_, d, rootTag, w, rfl, hd, htag, hfront, hrun, hfinish⟩
      refine ⟨d, hd, ?_⟩
      rw [htag]
      simp only [bind_eq_ok_iff, preamble_eq_ok_iff]
      exact ⟨_, ⟨hfront, rfl⟩, ((), w), Trace.outcomeFrom_eq_ok_iff.2 hrun, hfinish⟩

/-- What is written behind the front makes the image. -/
theorem finish_write_front (rootTag : Tag) (body : List UInt8) :
    ((Writer.empty.write (frontForm d rootTag)).write body).finish =
      .ok (imageForm d rootTag body) := by
  rw [← Writer.write_append]
  show Except.ok (Writer.empty.write (frontForm d rootTag ++ body)).bytes = _
  rw [Writer.bytes_write, Writer.bytes_empty, List.nil_append, imageForm]

/-- The root of a dictionary of a schema has a tag. -/
theorem isSome_tagFor?_root (ht : s.get? r.typeName = some t)
    (hd : Dictionary.ofSchema s t = .ok d) : (d.tagFor? t.name).isSome = true :=
  Decoder.isSome_tagFor?_iff.2
    (Dictionary.OfSchema.of_eq_ok (Schema.mem_of_get?_eq_some ht) hd).root

/-- **The image of a record** whose type has a dictionary. -/
theorem encode_eq_ok_iff (ht : s.get? r.typeName = some t)
    (hd : Dictionary.ofSchema s t = .ok d) :
    encode s r = .ok b ↔ (d.types.size ≤ maxLength ∧ d.Storable) ∧
      s.Accepts (.record t) r.toValue ∧ ∃ rootTag, d.tagFor? t.name = some rootTag ∧
        b = imageForm d rootTag (s.stored (.record t) r.toValue) := by
  have hmem := Schema.mem_of_get?_eq_some ht
  have hname := Schema.name_of_get?_eq_some ht
  have hof := Dictionary.OfSchema.of_eq_ok hmem hd
  have hdescribes := hof.describes
  have hwrites := writes_walkRecord hdescribes ⟨hmem, hof.root⟩ none fun name ↦
    writes_walkValue hdescribes (Value.fieldOf r.fields name)
  have hvalue : r.toValue = .record t.name r.fields := by rw [Record.toValue, hname]
  rw [encode_eq_ok_iff_walk, hvalue]
  constructor
  · rintro ⟨t', d', rootTag, w, ht', hd', htag, hfront, hrun, hfinish⟩
    obtain rfl : t = t' := Option.some.inj (ht.symm.trans ht')
    obtain rfl : d = d' := Except.ok.inj (hd.symm.trans hd')
    obtain ⟨haccepts, rfl⟩ := (hwrites _ w).1 hrun
    rw [finish_write_front] at hfinish
    exact ⟨hfront, haccepts, rootTag, htag, (Except.ok.inj hfinish).symm⟩
  · rintro ⟨hfront, haccepts, rootTag, htag, rfl⟩
    exact ⟨t, d, rootTag, _, ht, hd, htag, hfront, (hwrites _ _).2 ⟨haccepts, rfl⟩,
      finish_write_front rootTag _⟩

/-- Every image begins with the dictionary of its root. -/
theorem exists_imageForm_of_encode (hb : encode s r = .ok b) (ht : s.get? r.typeName = some t)
    (hd : Dictionary.ofSchema s t = .ok d) :
    (d.types.size ≤ maxLength ∧ d.Storable) ∧ ∃ rootTag body,
      d.tagFor? t.name = some rootTag ∧ b = imageForm d rootTag body := by
  obtain ⟨hstorable, -, rootTag, htag, hform⟩ := (encode_eq_ok_iff ht hd).1 hb
  exact ⟨hstorable, rootTag, _, htag, hform⟩

/-- **The encoder is a recursive function**: it takes exactly the records of a known type that has
a dictionary, that conform to this type, and all of whose lengths can be stored. The image is the
one that the recursion over the record gives. -/
theorem encode_eq_recursion (s : Schema) (r : Record) :
    ((∃ b, encode s r = .ok b) ↔ ∃ t d, s.get? r.typeName = some t ∧
      Dictionary.ofSchema s t = .ok d ∧ s.Conforms (.record t) r.toValue ∧
        d.Storable ∧ s.Storable (.record t) r.toValue) ∧
    ∀ b t d, encode s r = .ok b → s.get? r.typeName = some t → Dictionary.ofSchema s t = .ok d →
      ∃ rootTag, d.tagFor? t.name = some rootTag ∧
        b = Word.ofInt32 magic ++ (d.headerForm ++ Word.ofInt32 rootTag) ++
          s.stored (.record t) r.toValue := by
  refine ⟨⟨?_, ?_⟩, ?_⟩
  · rintro ⟨b, hb⟩
    obtain ⟨t, d, _, _, ht, hd, -⟩ := encode_eq_ok_iff_walk.1 hb
    obtain ⟨⟨-, hstorable⟩, haccepts, -⟩ := (encode_eq_ok_iff ht hd).1 hb
    exact ⟨t, d, ht, hd, haccepts.1, hstorable, haccepts.2⟩
  · rintro ⟨t, d, ht, hd, hconforms, hd', hlengths⟩
    have hof := Dictionary.OfSchema.of_eq_ok (Schema.mem_of_get?_eq_some ht) hd
    obtain ⟨rootTag, htag⟩ := Option.isSome_iff_exists.1 (isSome_tagFor?_root ht hd)
    exact ⟨_, (encode_eq_ok_iff ht hd).2
      ⟨⟨hof.size_le_maxLength, hd'⟩, ⟨hconforms, hlengths⟩, rootTag, htag, rfl⟩⟩
  · intro b t d hb ht hd
    exact ((encode_eq_ok_iff ht hd).1 hb).2.2

/-! ### Examples -/

/-- A leg of a tour, with the numbers of its stops. -/
def legType : TypeDef :=
  ⟨"Leg", [⟨"to", "string", 0, false⟩, ⟨"stops", "int", 1, false⟩]⟩

def tourType : TypeDef :=
  ⟨"Tour", [⟨"title", "string", 0, false⟩, ⟨"legs", "Leg", 1, false⟩, ⟨"last", "Leg", 0, false⟩,
    ⟨"rank", "short", 0, false⟩]⟩

def tourSchema : Schema :=
  ⟨none, [tourType, legType], by decide⟩

def tourDictionary : Dictionary :=
  ⟨#[⟨12, "Leg", [⟨"to", 8, 0⟩, ⟨"stops", 4, 1⟩]⟩,
    ⟨13, "Tour", [⟨"title", 8, 0⟩, ⟨"legs", 12, 1⟩, ⟨"last", 12, 0⟩, ⟨"rank", 3, 0⟩]⟩], 13⟩

/-- A tour without title and rank. Of one leg nothing is known, and the fields of another are not in
the order of the type. -/
def tour : Record :=
  ⟨"Tour", [
    ("legs", .array [
      .record "Leg" [("to", .string "Ulm"), ("stops", .array [.int 3, .int 5])],
      .record "Leg" []]),
    ("last", .record "Leg" [("stops", .array [.int 8]), ("to", .string "Köln")])]⟩

/-- The fields of the tour in the order of its type, with empty texts and arrays and a sentinel for
what is absent. -/
def tourBytes : List UInt8 :=
  textForm "" ++
    ([2, 0, 0, 0] ++ (textForm "Ulm" ++ [2, 0, 0, 0, 3, 0, 0, 0, 5, 0, 0, 0]) ++
      (textForm "" ++ [0, 0, 0, 0])) ++
    (textForm "Köln" ++ [1, 0, 0, 0, 8, 0, 0, 0]) ++ Word.ofInt16 Sentinel.short

theorem get?_tour : tourSchema.get? tour.typeName = some tourType := by
  cbv

theorem ofSchema_tour : Dictionary.ofSchema tourSchema tourType = .ok tourDictionary := by
  cbv

/-- The image of the example, byte by byte. -/
theorem encode_tour :
    encode tourSchema tour = .ok (imageForm tourDictionary 13 tourBytes) := by
  cbv

theorem encode_eq_recursion_tour :
    ∃ rootTag, tourDictionary.tagFor? tourType.name = some rootTag ∧
      imageForm tourDictionary 13 tourBytes =
        Word.ofInt32 magic ++ (tourDictionary.headerForm ++ Word.ofInt32 rootTag) ++
          tourSchema.stored (.record tourType) tour.toValue :=
  (encode_eq_recursion tourSchema tour).2 _ _ _ encode_tour get?_tour ofSchema_tour

/-- A type with a number and a date. -/
def eventType : TypeDef :=
  ⟨"Event", [⟨"id", "int", 0, false⟩, ⟨"at", "date", 0, false⟩]⟩

def eventSchema : Schema :=
  ⟨none, [eventType], by decide⟩

def eventDictionary : Dictionary :=
  ⟨#[⟨12, "Event", [⟨"id", 4, 0⟩, ⟨"at", 10, 0⟩]⟩], 12⟩

/-- An event without a date. -/
def event : Record :=
  ⟨"Event", [("id", .int 7)]⟩

theorem get?_event : eventSchema.get? event.typeName = some eventType := by
  cbv

theorem ofSchema_event : Dictionary.ofSchema eventSchema eventType = .ok eventDictionary := by
  cbv

theorem encode_event :
    encode eventSchema event = .ok (imageForm eventDictionary 12 [7, 0, 0, 0, 0, 0, 0, 0]) := by
  cbv

end Image

end GraphCodec
