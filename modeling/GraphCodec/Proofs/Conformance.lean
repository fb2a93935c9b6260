import GraphCodec.Proofs.HeaderCode
import GraphCodec.Proofs.PrefixFree
import GraphCodec.Proofs.Scalar

/-!
# What is decoded conforms to its dictionary

An image from anywhere brings its own dictionary, and the reader believes it. What it returns is
nevertheless of a known shape: the dictionary is well-formed, and the root holds what the dictionary
says (`Dictionary.Holds`), slot by slot. A slot is, as for the reader, a tag and a number of
dimensions; the records and arrays in it are at levels up to `maxNesting`, and an array of records
that take no bytes has at most `maxWeightless` items.

That the reader counts such items by the least width of their type is the one thing here that rests
on the order of the types: a type takes no bytes (`Dictionary.Weightless`) if it has neither
primitives nor arrays, at any depth.
-/

namespace GraphCodec

/-- Whether a value can be one that was read as a primitive. Text is never absent, and as an item of
an array nothing but a date is. -/
structure Kind.Present (k : Kind) (inRecord : Bool) (v : Value) : Prop where
  kind : v.matchesKind k = true
  absent : v = .null → k ≠ .string ∧ k ≠ .enum ∧ (inRecord = true ∨ k = .date)

namespace Dictionary

/-- Whether a tag is that of a type whose records have neither primitives nor arrays in them. -/
inductive Weightless (ts : List TypeEntry) : Tag → Prop where
  | intro {t : TypeEntry} (mem : t ∈ ts) (scalar : ∀ f ∈ t.fields, f.dims = 0)
      (weightless : ∀ f ∈ t.fields, Weightless ts f.tag) : Weightless ts t.tag

/-- Whether a value at a level of nesting is what a tag and a number of dimensions demand, by the
types of a dictionary. `inRecord` tells a field from an item of an array. -/
inductive Holds (ts : List TypeEntry) : (level : Nat) → (tag : Tag) → (dims : Nat) →
    (inRecord : Bool) → Value → Prop where
  | primitive {level : Nat} {k : Kind} {inRecord : Bool} {v : Value}
      (present : k.Present inRecord v) : Holds ts level k.tag 0 inRecord v
  | record {level : Nat} {t : TypeEntry} {inRecord : Bool} {fields : List (String × Value)}
      (mem : t ∈ ts) (level_le : level ≤ maxNesting)
      (names : fields.map Prod.fst = t.fields.map FieldEntry.name)
      (fields_hold : ∀ p ∈ t.fields.zip fields,
        Holds ts (level + 1) p.1.tag p.1.dims.toNatClampNeg true p.2.2) :
      Holds ts level t.tag 0 inRecord (.record t.name fields)
  | array {level : Nat} {tag : Tag} {dims : Nat} {inRecord : Bool} {items : List Value}
      (level_le : level ≤ maxNesting)
      (length_le : dims = 0 → Weightless ts tag → items.length ≤ maxWeightless)
      (items_hold : ∀ v ∈ items, Holds ts (level + 1) tag dims false v) :
      Holds ts level tag (dims + 1) inRecord (.array items)

/-- The least width of a type without primitives and arrays is zero. -/
theorem minWidth_of_weightless {d : Dictionary} (h : Ordered d.types.toList) {tag : Tag}
    (hweightless : Weightless d.types.toList tag) : Image.minWidth d.widths tag = 0 := by
  induction hweightless with
  | intro mem scalar _ ih =>
    rw [h.minWidth_eq mem]
    refine List.sum_eq_zero fun n hn ↦ ?_
    obtain ⟨f, hf, rfl⟩ := List.mem_map.1 hn
    rw [fieldWidth_eq, scalar f hf, if_neg (by decide)]
    exact ih f hf

end Dictionary

namespace Decoder

variable {α β γ : Type}

/-! ### What a decoder returns -/

/-- Whatever the decoder returns has the property. -/
def Returns (p : Decoder α) (P : α → Prop) : Prop :=
  Yields p fun a _ ↦ P a

/-- What is known of the bytes is more than is asked for. -/
theorem Yields.returns {p : Decoder α} {R : α → List UInt8 → Prop} {P : α → Prop}
    (h : Yields p R) (hP : ∀ a bs, R a bs → P a) : Returns p P :=
  h.mono hP

theorem returns_fail (e : DataFault) (P : α → Prop) : Returns (fail e) P :=
  yields_fail e _

/-- One after the other, the second with what is known of the first. -/
theorem Returns.bind {p : Decoder α} {f : α → Decoder β} {P : α → Prop} {Q : β → Prop}
    (hp : Returns p P) (hf : ∀ a, P a → Returns (f a) Q) : Returns (p >>= f) Q := by
  refine (Yields.bind hp fun a _ ha ↦ hf a ha).mono ?_
  rintro b bs ⟨a, as, cs, -, hb, -⟩
  exact hb

/-- A conversion at the end. -/
theorem Returns.map {p : Decoder α} {P : α → Prop} {Q : β → Prop} (hp : Returns p P) {f : α → β}
    (hf : ∀ a, P a → Q (f a)) : Returns (p >>= fun a ↦ pure (f a)) Q := by
  refine (Yields.map hp f).mono ?_
  rintro b bs ⟨a, ha, rfl⟩
  exact hf a ha

/-- Lists return results one by one. -/
theorem returns_each {read : γ → Decoder α} {R : γ → α → Prop} {xs : List γ}
    (h : ∀ x ∈ xs, Returns (read x) (R x)) :
    Returns (each xs read) fun as ↦ List.Forall₂ R xs as := by
  refine (yields_zip (List.forall₂_same.2 h)).mono ?_
  rintro as bs ⟨parts, hparts, rfl, rfl⟩
  exact List.forall₂_map_right_iff.2 hparts

/-- So do counted elements, and they are as many as were counted. -/
theorem returns_times {read : Decoder α} {P : α → Prop} (h : Returns read P) (n : Nat) :
    Returns (times n read) fun as ↦ as.length = n ∧ ∀ a ∈ as, P a := by
  refine (yields_times h n).mono ?_
  rintro as bs ⟨parts, rfl, hparts, rfl, rfl⟩
  refine ⟨List.length_map _, fun a ha ↦ ?_⟩
  obtain ⟨p, hp, rfl⟩ := List.mem_map.1 ha
  exact hparts p hp

/-! ### Primitives -/

/-- A date that was read is one of the kind, or absent where it may be. -/
theorem returns_date (inRecord : Bool) : Returns date (Kind.Present .date inRecord) := by
  refine Returns.bind (yields_text.returns fun _ _ _ ↦ trivial) fun s (_ : True) ↦ ?_
  have habsent : Kind.Present .date inRecord .null :=
    ⟨rfl, fun _ ↦ ⟨by decide, by decide, .inr rfl⟩⟩
  split
  · exact (yields_pure _).returns fun v _ h ↦ h.1 ▸ habsent
  · cases Rfc3339.parse s with
    | error e => exact returns_fail _ _
    | ok i => exact (yields_pure _).returns fun v _ h ↦ h.1 ▸ ⟨rfl, fun h ↦ by cases h⟩

/-- **What is read as a primitive** is of its kind, or absent where the kind can be. -/
theorem returns_primitive (k : Kind) (inRecord : Bool) :
    Returns (primitive k inRecord) (k.Present inRecord) := by
  have hword : k.isTextual = false → Returns (primitive k inRecord) (k.Present inRecord) := by
    intro hk
    have hne : k ≠ .string ∧ k ≠ .enum ∧ k ≠ .date := by
      refine ⟨?_, ?_, ?_⟩ <;> rintro rfl <;> cases hk
    refine (yields_primitive hne.2.2 inRecord).returns fun v bs hspells ↦ ?_
    obtain ⟨hkind, hnull⟩ := Slot.fits_primitive_iff.1 hspells.1
    refine ⟨hkind, fun hv ↦ ⟨hne.1, hne.2.1, .inl ((hnull hv).resolve_right ?_)⟩⟩
    rw [hk]
    decide
  cases k with
  | string => exact (yields_text.returns fun _ _ _ ↦ trivial).map fun _ (_ : True) ↦
      ⟨rfl, fun h ↦ by cases h⟩
  | enum => exact (yields_text.returns fun _ _ _ ↦ trivial).map fun _ (_ : True) ↦
      ⟨rfl, fun h ↦ by cases h⟩
  | date => exact returns_date inRecord
  | _ => exact hword rfl

end Decoder

namespace Image

open Decoder Dictionary

variable {d : Dictionary}

/-! ### Records and arrays -/

/-- A type that was looked up is in the dictionary. -/
theorem returns_readType (d : Dictionary) (tag : Tag) :
    Returns (readType d tag) fun t ↦ t ∈ d.types.toList ∧ t.tag = tag := by
  unfold readType
  cases hdescriptor : d.descriptor? tag with
  | none => exact returns_fail _ _
  | some u =>
    exact (yields_pure u).returns fun t _ h ↦ h.1 ▸ mem_of_descriptor?_eq_some hdescriptor

/-- Items without bytes are limited in number. -/
theorem returns_readCount (tag : Tag) (width : Nat) :
    Returns (readCount tag width) fun n ↦ width = 0 → n ≤ maxWeightless := by
  refine Returns.bind ((yields_length width).returns fun _ _ _ ↦ trivial) fun n (_ : True) ↦ ?_
  split
  · exact returns_fail _ _
  · rename_i hfew
    exact (yields_pure n).returns fun m _ h hwidth ↦
      h.1 ▸ Nat.not_lt.1 fun hlt ↦ hfew ⟨hwidth, hlt⟩

/-- The fields of a record hold what its type says, if the reader of each does. -/
theorem returns_fields {read : FieldEntry → Decoder Value} {P : FieldEntry → Value → Prop}
    {fields : List FieldEntry} (h : ∀ f ∈ fields, Returns (read f) (P f)) :
    Returns (each fields fun f ↦ read f >>= fun v ↦ pure (f.name, v)) fun parts ↦
      parts.map Prod.fst = fields.map FieldEntry.name ∧
        ∀ p ∈ fields.zip parts, P p.1 p.2.2 := by
  have hpart : ∀ f ∈ fields, Returns (read f >>= fun v ↦ pure (f.name, v))
      fun part ↦ f.name = part.1 ∧ P f part.2 :=
    fun f hf ↦ (h f hf).map fun _ hv ↦ ⟨rfl, hv⟩
  refine (returns_each hpart).mono fun parts _ hparts ↦ ⟨?_, fun p hp ↦ ?_⟩
  · exact (map_eq_map_of_forall₂ (hparts.imp fun _ _ h ↦ h.1)).symm
  · exact ((List.forall₂_iff_zip.1 hparts).2 hp).2

/-- **The reader of slots** returns what the dictionary says, by the levels that it may still
enter. -/
theorem returns_readSlot (h : Ordered d.types.toList) (levels : Nat) :
    ∀ {level tag dims inRecord}, level + levels = maxNesting + 1 →
      Returns (readSlot d d.widths levels tag dims inRecord)
        (Holds d.types.toList level tag dims inRecord) := by
  -- primitives take no level, so they are the same in both cases
  have hprimitive : ∀ {level tag k inRecord}, Kind.ofTag? tag = some k →
      Returns (primitive k inRecord) (Holds d.types.toList level tag 0 inRecord) := by
    intro level tag k inRecord hk
    obtain rfl := Kind.ofTag?_eq_some_iff.1 hk
    exact (returns_primitive k inRecord).mono fun v _ hv ↦ .primitive hv
  induction levels with
  | zero =>
    intro level tag dims inRecord _
    cases dims with
    | zero =>
      rw [readSlot]
      cases hk : Kind.ofTag? tag with
      | some k => exact hprimitive hk
      | none => exact (returns_readType d tag).bind fun t _ ↦ returns_fail _ _
    | succ dims =>
      rw [readSlot]
      exact returns_fail _ _
  | succ levels ih =>
    intro level tag dims inRecord hlevels
    -- entering a record or an array takes one of the levels that are left
    have hle : level ≤ maxNesting := by omega
    have hbelow : level + 1 + levels = maxNesting + 1 := by omega
    cases dims with
    | zero =>
      rw [readSlot]
      cases hk : Kind.ofTag? tag with
      | some k => exact hprimitive hk
      | none =>
        refine (returns_readType d tag).bind ?_
        rintro t ⟨ht, rfl⟩
        exact (returns_fields fun f _ ↦ ih hbelow).map fun _ h ↦ .record ht hle h.1 h.2
    | succ dims =>
      rw [readSlot]
      refine (returns_readCount tag _).bind fun n hn ↦ ?_
      refine (returns_times (ih hbelow) n).map ?_
      rintro items ⟨rfl, hitems⟩
      refine .array hle (fun hdims hweightless ↦ hn ?_) hitems
      rw [if_pos hdims]
      exact minWidth_of_weightless h hweightless

/-- **The root** holds what its type says. -/
theorem returns_readRoot (h : Ordered d.types.toList) {t : TypeEntry} (ht : t ∈ d.types.toList) :
    Returns (readRoot d t) fun root ↦ Holds d.types.toList 0 t.tag 0 true root.toValue := by
  have hslots : ∀ tag dims, Returns (readSlot d d.widths maxNesting tag dims true)
      (Holds d.types.toList 1 tag dims true) :=
    fun _ _ ↦ returns_readSlot h maxNesting (Nat.add_comm 1 maxNesting)
  exact (returns_fields fun f _ ↦ hslots f.tag f.dims.toNatClampNeg).map fun _ h ↦
    .record ht (Nat.zero_le _) h.1 h.2

/-! ### Images -/

/-- The dictionary is well formed. -/
theorem returns_readHeader : Returns readHeader fun d ↦ WellFormed d.types.toList := by
  intro c d c' h
  obtain ⟨bs, -, hrest⟩ := yields_header h
  exact ⟨bs, wellFormed_of_readHeader h, hrest⟩

/-- **What was read** is a well-formed dictionary and a record of one of its types. -/
theorem returns_readContent :
    Returns readContent fun c ↦ WellFormed c.dictionary.types.toList ∧
      ∃ t ∈ c.dictionary.types.toList,
        Holds c.dictionary.types.toList 0 t.tag 0 true c.root.toValue := by
  refine Returns.bind (yields_int32.returns fun _ _ _ ↦ trivial) fun found (_ : True) ↦ ?_
  split
  · exact returns_fail _ _
  · refine returns_readHeader.bind fun d hd ↦ ?_
    refine Returns.bind (yields_int32.returns fun _ _ _ ↦ trivial) fun rootTag (_ : True) ↦ ?_
    refine (returns_readType d rootTag).bind fun t ht ↦ ?_
    exact (returns_readRoot (ordered_of_wellFormed hd) ht.1).map fun root hroot ↦
      ⟨hd, t, ht.1, hroot⟩

/-- **Whatever can be decoded** has a well-formed dictionary, in which no type contains itself, and
a root that is a record of one of its types and conforms to it throughout. -/
theorem decode_conforms {bs : List UInt8} {c : Content} (h : decode bs = .ok c) :
    WellFormed c.dictionary.types.toList ∧
      (∀ t ∈ c.dictionary.types.toList,
        ¬Relation.TransGen (TypeEntry.Refers c.dictionary.types.toList) t t) ∧
      ∃ t ∈ c.dictionary.types.toList,
        Holds c.dictionary.types.toList 0 t.tag 0 true c.root.toValue := by
  obtain ⟨rest, hread, -⟩ := decode_eq_ok_iff.1 h
  obtain ⟨-, ⟨hd, hroot⟩, -⟩ := returns_readContent hread
  exact ⟨hd, fun t ht ↦ (ordered_of_wellFormed hd).acyclic ht, hroot⟩

/-- A path of one row with one point, which does not say whether it is closed. -/
def pathRecord : Record :=
  ⟨"Path", [("points", .array [.array [.record "Point" [("x", .short 3), ("y", .short 4)]]]),
    ("closed", .null)]⟩

theorem decode_conforms_path :
    decode (imageForm pathDictionary 12 [1, 0, 0, 0, 1, 0, 0, 0, 3, 0, 4, 0, 2]) =
        .ok ⟨pathDictionary, pathRecord⟩ ∧
      WellFormed pathDictionary.types.toList ∧
      ∃ t ∈ pathDictionary.types.toList,
        Holds pathDictionary.types.toList 0 t.tag 0 true pathRecord.toValue := by
  have hread : decode (imageForm pathDictionary 12 [1, 0, 0, 0, 1, 0, 0, 0, 3, 0, 4, 0, 2]) =
      .ok ⟨pathDictionary, pathRecord⟩ := by
    cbv
  obtain ⟨hwellFormed, -, hroot⟩ := decode_conforms hread
  exact ⟨hread, hwellFormed, hroot⟩

end Image

end GraphCodec
