import GraphCodec.Proofs.Encoding
import GraphCodec.Proofs.Exporting

/-!
# Which records are encoded and which exported

The encoder and the builder of containers listen to the same walk, and each makes checks of its
own. What they take is said here slot by slot: the encoder takes exactly what is exported, as long
as no record is absent, the dictionary exists, and all lengths can be stored
(`exists_encode_iff_exists_ofRecord`). A record in a slot of another type is taken by neither.
-/

namespace GraphCodec

namespace Slot

/-- Whether a slot for a record holds something that is not empty. -/
def Present : Slot → Value → Prop
  | record _, v => v.isEmpty = false
  | _, _ => True

/-- Whether a record stands in a slot of its own type. -/
def Declared : Slot → Value → Prop
  | record t, .record typeName _ => typeName = t.name
  | _, _ => True

variable {s : Schema} {slot : Slot} {v : Value}

/-- What is exported and not empty is what is stored. -/
theorem fits_of_admits (h : slot.Admits s v) (hpresent : slot.Present v) : slot.Fits v := by
  cases slot with
  | record t =>
    cases v with
    | record typeName fields => exact h.1
    | _ => exact absurd (h.symm.trans hpresent) (by decide)
  | _ => exact h

/-- What the stored form demands of a slot includes that it is not absent where it may not be. -/
theorem present_of_fits (h : slot.Fits v) : slot.Present v := by
  cases slot with
  | record t =>
    cases v with
    | record typeName fields => rfl
    | _ => exact h.elim
  | _ => trivial

/-- What a tree demands of a record includes that it is of the declared type. -/
theorem declared_of_admits (h : slot.Admits s v) : slot.Declared v := by
  cases slot with
  | record t =>
    cases v with
    | record typeName fields => exact h.1
    | _ => trivial
  | _ => trivial

/-- Whether the innermost items of a slot are of a kind or of a type listed in a dictionary. -/
def Listed (s : Schema) (ts : List TypeEntry) : Slot → Prop
  | primitive .. => True
  | record t => s.Lists ts (.composite t)
  | array item => item.Listed s ts

/-- Dimensions are of listed types if the element is. -/
theorem listed_ofElement {ts : List TypeEntry} {element : ElementType} (h : s.Lists ts element)
    (dims : Nat) (inRecord : Bool) : (ofElement element dims inRecord).Listed s ts := by
  induction dims generalizing inRecord with
  | zero =>
    cases element with
    | primitive k => trivial
    | composite t => exact h
  | succ dims ih => exact ih false

end Slot

namespace Schema

variable {s : Schema} {slot : Slot} {v : Value}

/-- **What conforms is exported**: the types of the fields of a type that a dictionary lists are
known. -/
theorem Conforms.exports {ts : List TypeEntry} (hd : s.Describes ts) (h : s.Conforms slot v)
    (hslot : slot.Listed s ts) : s.Exports slot v := by
  induction h using conformsInduction with
  | primitive k inRecord v h => exact exports_primitive_iff.2 h.here
  | record t fields h ih =>
    refine exports_record_iff.2 ⟨rfl, fun f hf ↦ ?_⟩
    obtain ⟨element, helement, hlists⟩ := hd.lists_field hslot hf
    have hinner := slot?_eq_some helement
    exact ⟨_, hinner, ih f hf _ hinner (Slot.listed_ofElement hlists f.dims true)⟩
  | absent item h => exact exports_array_absent item
  | array item items h ih => exact exports_array_iff.2 fun v hv ↦ ih v hv hslot

/-- **A graph is stored where it is exported** and no record in it is absent. -/
theorem conforms_iff_exports {ts : List TypeEntry} (hd : s.Describes ts)
    (hslot : slot.Listed s ts) :
    s.Conforms slot v ↔ s.Exports slot v ∧ s.EverySlot (fun _ ↦ Slot.Present) 0 slot v := by
  constructor
  · exact fun h ↦ ⟨h.exports hd hslot, EverySlot.imp (fun _ _ ↦ Slot.present_of_fits) h⟩
  · rintro ⟨hexports, hpresent⟩
    exact hexports.imp₂ (fun _ _ _ ↦ Slot.fits_of_admits) hpresent

end Schema

open Image Container

variable {s : Schema} {r : Record} {t : TypeDef}

/-- **A record has an image** exactly if its type can be written and it is accepted, slot by slot.
-/
theorem exists_encode_iff (ht : s.get? r.typeName = some t) :
    (∃ b, encode s r = .ok b) ↔ ∃ d, Dictionary.ofSchema s t = .ok d ∧ d.Storable ∧
      s.Accepts (.record t) r.toValue := by
  constructor
  · rintro ⟨b, hb⟩
    obtain ⟨t', d, _, _, ht', hd, -⟩ := encode_eq_ok_iff_walk.1 hb
    obtain rfl : t = t' := Option.some.inj (ht.symm.trans ht')
    obtain ⟨⟨-, hstorable⟩, haccepts, -⟩ := (encode_eq_ok_iff ht hd).1 hb
    exact ⟨d, hd, hstorable, haccepts⟩
  · rintro ⟨d, hd, hstorable, haccepts⟩
    have hof := Dictionary.OfSchema.of_eq_ok (Schema.mem_of_get?_eq_some ht) hd
    obtain ⟨rootTag, htag⟩ := Option.isSome_iff_exists.1 (isSome_tagFor?_root ht hd)
    exact ⟨_, (encode_eq_ok_iff ht hd).2
      ⟨⟨hof.size_le_maxLength, hstorable⟩, haccepts, rootTag, htag, rfl⟩⟩

/-- A record conforms exactly if it has a tree and nothing is absent that may not be. -/
theorem conforms_root_iff (ht : s.get? r.typeName = some t) {d : Dictionary}
    (hd : Dictionary.ofSchema s t = .ok d) :
    s.Conforms (.record t) r.toValue ↔ (∃ T, ofRecord s r = .ok T) ∧
      s.EverySlot (fun _ ↦ Slot.Present) 0 (.record t) r.toValue := by
  have hmem := Schema.mem_of_get?_eq_some ht
  have hof := Dictionary.OfSchema.of_eq_ok hmem hd
  rw [exists_ofRecord_iff ht]
  exact Schema.conforms_iff_exports hof.describes ⟨hmem, hof.root⟩

/-- **The encoder takes what is exported**, as long as the type has a dictionary, no slot for a
record is empty and all lengths can be stored: the lengths of arrays and texts, those of the names
in the dictionary, and the numbers of fields. So whatever is encoded can be exported, and with a
record in a slot of another type neither is possible. -/
theorem exists_encode_iff_exists_ofRecord (ht : s.get? r.typeName = some t) :
    ((∃ b, encode s r = .ok b) ↔ (∃ T, ofRecord s r = .ok T) ∧
      (∃ d, Dictionary.ofSchema s t = .ok d ∧ d.Storable) ∧
      s.EverySlot (fun _ ↦ Slot.Present) 0 (.record t) r.toValue ∧
      s.Storable (.record t) r.toValue) ∧
    ((∃ b, encode s r = .ok b) → ∃ T, ofRecord s r = .ok T) ∧
    (¬s.EverySlot (fun _ ↦ Slot.Declared) 0 (.record t) r.toValue →
      (∀ b, encode s r ≠ .ok b) ∧ ∀ T, ofRecord s r ≠ .ok T) := by
  have hiff : (∃ b, encode s r = .ok b) ↔ (∃ T, ofRecord s r = .ok T) ∧
      (∃ d, Dictionary.ofSchema s t = .ok d ∧ d.Storable) ∧
      s.EverySlot (fun _ ↦ Slot.Present) 0 (.record t) r.toValue ∧
      s.Storable (.record t) r.toValue := by
    rw [exists_encode_iff ht]
    constructor
    · rintro ⟨d, hd, hdictionary, hconforms, hstorable⟩
      obtain ⟨hexported, hpresent⟩ := (conforms_root_iff ht hd).1 hconforms
      exact ⟨hexported, ⟨d, hd, hdictionary⟩, hpresent, hstorable⟩
    · rintro ⟨hexported, ⟨d, hd, hdictionary⟩, hpresent, hstorable⟩
      have hconforms := (conforms_root_iff ht hd).2 ⟨hexported, hpresent⟩
      exact ⟨d, hd, hdictionary, hconforms, hstorable⟩
  refine ⟨hiff, fun h ↦ (hiff.1 h).1, fun hforeign ↦ ?_⟩
  have hnone : ¬∃ T, ofRecord s r = .ok T := by
    rw [exists_ofRecord_iff ht]
    exact fun hexports ↦ hforeign (hexports.imp fun _ _ ↦ Slot.declared_of_admits)
  exact ⟨fun b hb ↦ hnone (hiff.1 ⟨b, hb⟩).1, fun T hT ↦ hnone ⟨T, hT⟩⟩

/-- A tour is encoded, hence it is exported, and in it no record is absent and no length too great
to be stored. -/
theorem exists_encode_iff_exists_ofRecord_tour :
    tourSchema.get? tour.typeName = some tourType ∧
    (∃ T, ofRecord tourSchema tour = .ok T) ∧
    (∃ d, Dictionary.ofSchema tourSchema tourType = .ok d ∧ d.Storable) ∧
    tourSchema.EverySlot (fun _ ↦ Slot.Present) 0 (.record tourType) tour.toValue ∧
    tourSchema.Storable (.record tourType) tour.toValue :=
  ⟨get?_tour,
    (exists_encode_iff_exists_ofRecord get?_tour).1.1 ⟨_, encode_tour⟩⟩

end GraphCodec
