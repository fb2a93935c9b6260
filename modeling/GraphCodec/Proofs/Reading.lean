import GraphCodec.Proofs.Drafting
import GraphCodec.Proofs.Scalar

/-!
# Reading the body back

The reader goes through the dictionary, not the schema, and a slot is for it a tag and a number of
dimensions. If the dictionary describes the schema, it reads the stored form of a slot back to the
restored value (`readsWhen_readSlot`), provided that the value is within the limits of the reader:
no record and no array too deep, no date with a long year, and not too many items that take no bytes
(`Schema.Readable`).

Counts are compared with the bytes that are left. This refuses nothing that was written, because no
value is shorter than the least width of its tag (`slotWidth_le`).
-/

namespace GraphCodec

namespace Image

/-! ### Widths -/

/-- The least number of bytes of a slot. -/
def slotWidth (widths : List (Tag × Nat)) (tag : Tag) (dims : Nat) : Nat :=
  if dims = 0 then minWidth widths tag else 4

/-- A least width is met by a form, and is zero only if the form is empty. -/
def Meets (width : Nat) (form : List UInt8) : Prop :=
  width ≤ form.length ∧ (width = 0 → form = [])

theorem Meets.of_pos {width : Nat} {form : List UInt8} (hle : width ≤ form.length)
    (hpos : 0 < width) : Meets width form :=
  ⟨hle, fun h ↦ absurd h (Nat.ne_of_gt hpos)⟩

theorem meets_sum {α β : Type} {width : β → Nat} {form : α → List UInt8} {xs : List α}
    {ys : List β} (h : List.Forall₂ (fun x y ↦ Meets (width y) (form x)) xs ys) :
    Meets (ys.map width).sum (xs.flatMap form) := by
  induction h with
  | nil => exact ⟨Nat.le_refl 0, fun _ ↦ rfl⟩
  | @cons x y xs ys hx _ ih =>
    rw [List.map_cons, List.sum_cons, List.flatMap_cons]
    refine ⟨?_, fun h ↦ ?_⟩
    · rw [List.length_append]
      exact Nat.add_le_add hx.1 ih.1
    · rw [hx.2 (by omega), ih.2 (by omega), List.nil_append]

variable {s : Schema} {d : Dictionary}

theorem fieldWidth_eq_slotWidth {ts : List TypeEntry} {f : FieldDef} {g : FieldEntry}
    (h : s.FieldDescribed ts f g) (widths : List (Tag × Nat)) :
    Dictionary.fieldWidth widths g = slotWidth widths g.tag f.dims := by
  have hle : f.dims ≤ 16 := h.dims_le
  have hiff : 0 < g.dims ↔ ¬f.dims = 0 := by
    rw [h.dims, Int32.lt_iff_toInt_lt, Int32.toInt_ofNat_of_lt (by omega)]
    show (0 : Int) < _ ↔ _
    omega
  rw [Dictionary.fieldWidth_eq, slotWidth]
  by_cases hdims : f.dims = 0
  · rw [if_pos hdims, if_neg (fun h ↦ hiff.1 h hdims)]
  · rw [if_neg hdims, if_pos (hiff.2 hdims)]

/-- What the tag of a slot stands for, with the entry of its type. -/
theorem slot_cases {element : ElementType} {dims : Nat} {inRecord : Bool} {slot : Slot}
    (hslot : slot = .ofElement element dims inRecord) :
    (∃ k, dims = 0 ∧ element = .primitive k ∧ slot = .primitive k inRecord) ∨
      (∃ t, dims = 0 ∧ element = .composite t ∧ slot = .record t) ∨
        ∃ dims', dims = dims' + 1 ∧ slot = .array (.ofElement element dims' false) := by
  subst hslot
  cases dims with
  | zero =>
    cases element with
    | primitive k => exact .inl ⟨k, rfl, rfl, rfl⟩
    | composite t => exact .inr (.inl ⟨t, rfl, rfl, rfl⟩)
  | succ dims => exact .inr (.inr ⟨dims, rfl, rfl⟩)

/-- **No value is shorter than the least width of its slot.** -/
theorem meets_slotWidth (hd : s.Describes d.types.toList) (ho : Ordered d.types.toList)
    {slot : Slot} {v : Value} (hconforms : s.Conforms slot v) :
    ∀ {element dims inRecord tag}, slot = .ofElement element dims inRecord →
      s.Lists d.types.toList element → element.HasTag d.types.toList tag →
        Meets (slotWidth d.widths tag dims) (s.stored slot v) := by
  induction hconforms using Schema.conformsInduction with
  | primitive k inRecord v _ =>
    intro element dims inRecord' tag hslot _ htag
    rcases slot_cases hslot with ⟨k', rfl, rfl, hk⟩ | ⟨_, _, _, h⟩ | ⟨_, _, h⟩
    · cases hk
      have hwidth : slotWidth d.widths tag 0 = k.minWidth := by
        rw [slotWidth, if_pos rfl, minWidth, show tag = k.tag from htag, Kind.ofTag?_tag]
      rw [hwidth, Schema.stored_primitive]
      exact .of_pos (minWidth_le_length_scalarForm k v) (by cases k <;> decide)
    · cases h
    · cases h
  | record t fields _ ih =>
    intro element dims inRecord tag hslot hlists htag
    rcases slot_cases hslot with ⟨_, _, _, h⟩ | ⟨t', rfl, rfl, ht⟩ | ⟨_, _, h⟩
    · cases h
    · cases ht
      -- the width of a type is the sum over its fields, and so is what is stored
      obtain ⟨u, hu, hname, rfl⟩ := htag
      have hfields := hd.fields_described hlists.1 hu hname
      rw [slotWidth, if_pos rfl, ho.minWidth_eq hu, Schema.stored_record]
      refine meets_sum (((List.forall₂_and_left _ _).2 ⟨ih, hfields⟩).imp ?_)
      rintro f g ⟨hf, hg⟩
      obtain ⟨element, helement, htag'⟩ := hg.element
      have hslot' := Schema.slot?_eq_some helement
      rw [fieldWidth_eq_slotWidth hg, hslot']
      exact hf _ hslot' rfl (hg.lists_of_eq helement) htag'
    · cases h
  | absent item _ =>
    intro element dims inRecord tag hslot _ _
    rcases slot_cases hslot with ⟨_, _, _, h⟩ | ⟨_, _, _, h⟩ | ⟨dims', rfl, _⟩
    · cases h
    · cases h
    · rw [Schema.stored_absent, slotWidth, if_neg (Nat.succ_ne_zero _)]
      -- dimensions take a count at least, whatever is in them
      exact .of_pos (Nat.le_of_eq (length_lengthWord 0).symm) (by decide)
  | array item items _ _ =>
    intro element dims inRecord tag hslot _ _
    rcases slot_cases hslot with ⟨_, _, _, h⟩ | ⟨_, _, _, h⟩ | ⟨dims', rfl, _⟩
    · cases h
    · cases h
    · rw [Schema.stored_array, slotWidth, if_neg (Nat.succ_ne_zero _)]
      exact .of_pos (by rw [List.length_append, length_lengthWord]; omega) (by decide)

end Image

/-! ### Limits -/

/-- Whether a slot at a level of nesting is within the limits of the reader, whatever is inside it:
a date has a year of four digits, a record or array is not too deep, and an array of which no item
takes any bytes is not too long. -/
def Schema.Readable (s : Schema) (level : Nat) : Slot → Value → Prop
  | .primitive _ _, v => ∀ i, v = .date i → i.HasFourDigitYear
  | .record _, _ => level ≤ maxNesting
  | .array item, v => level ≤ maxNesting ∧ ∀ items, v = .array items →
    (∀ x ∈ items, s.stored item x = []) → items.length ≤ maxWeightless

namespace Image

open Decoder

variable {s : Schema} {d : Dictionary}

/-- The reader of an array, without the count as a step of its own. -/
theorem readSlot_array (widths : List (Tag × Nat)) (levels : Nat) (tag : Tag) (dims : Nat)
    (inRecord : Bool) :
    readSlot d widths (levels + 1) tag (dims + 1) inRecord =
      Decoder.length (slotWidth widths tag dims) >>= fun count ↦
        (if slotWidth widths tag dims = 0 ∧ maxWeightless < count then
          Decoder.fail (.tooManyWeightless count tag)
        else pure count) >>= fun count ↦
          Decoder.times count (readSlot d widths levels tag dims false) >>= fun items ↦
            pure (.array items) := by
  rw [readSlot, readCount, bind_assoc]
  rfl

theorem refuses_array (widths : List (Tag × Nat)) (tag : Tag) (dims : Nat) (inRecord : Bool)
    (bs : List UInt8) : Refuses (readSlot d widths 0 tag (dims + 1) inRecord) bs := by
  rw [readSlot]
  exact refuses_fail _ _

/-- The array of some items, if each of them is read. -/
theorem readsWhen_array (item : Slot) (items : List Value) {tag : Tag} {dims levels : Nat}
    (inRecord : Bool) {P : Value → Prop} (hlen : items.length ≤ maxLength)
    (hwidth : ∀ v ∈ items, Meets (slotWidth d.widths tag dims) (s.stored item v))
    (hitems : ∀ v ∈ items, ReadsWhen (readSlot d d.widths levels tag dims false) (P v)
      (s.stored item v) (s.restored item v)) :
    ReadsWhen (readSlot d d.widths (levels + 1) tag (dims + 1) inRecord)
      (((∀ x ∈ items, s.stored item x = []) → items.length ≤ maxWeightless) ∧ ∀ v ∈ items, P v)
      (lengthWord items.length ++ items.flatMap (s.stored item))
      (.array (items.map (s.restored item))) := by
  rw [readSlot_array]
  refine ReadsWhen.count hlen (length_mul_le_length_flatMap fun v hv ↦ (hwidth v hv).1) ?_
  have hread := (readsWhen_each hitems).map Value.array
  rw [← times_length_eq_each] at hread
  by_cases hmany : slotWidth d.widths tag dims = 0 ∧ maxWeightless < items.length
  · rw [if_pos hmany]
    refine ⟨fun h ↦ absurd (h.1 fun x hx ↦ (hwidth x hx).2 hmany.1) (Nat.not_le.2 hmany.2),
      fun _ ↦ ?_⟩
    exact (refuses_fail _ []).bind_left _
  · rw [if_neg hmany, pure_bind]
    refine hread.congr (and_iff_right fun hempty ↦ ?_).symm
    -- the items take no bytes, so if there is one, the least width is zero
    refine Nat.not_lt.1 fun hlt ↦ hmany ⟨?_, hlt⟩
    obtain ⟨x, hx⟩ := List.exists_mem_of_length_pos (Nat.zero_lt_of_lt hlt)
    have hle := (hwidth x hx).1
    rw [hempty x hx] at hle
    exact Nat.le_zero.1 hle

/-- The reader of the fields of a record. -/
def readFields (d : Dictionary) (levels : Nat) (u : TypeEntry) : Decoder (List (String × Value)) :=
  Decoder.each u.fields fun f ↦
    readSlot d d.widths levels f.tag f.dims.toNatClampNeg true >>= fun v ↦ pure (f.name, v)

/-- A tag of a listed type makes the reader enter a record of this type. -/
theorem readSlot_record (ho : Ordered d.types.toList) {u : TypeEntry} (hu : u ∈ d.types.toList)
    (levels : Nat) (inRecord : Bool) :
    readSlot d d.widths levels u.tag 0 inRecord =
      match levels with
      | 0 => Decoder.fail .nestedTooDeep
      | levels + 1 => readFields d levels u >>= fun fields ↦ pure (.record u.name fields) := by
  rw [readSlot, Kind.ofTag?_eq_none (ho.composite hu), readType, ho.descriptor?_eq_some hu]
  rfl

/-- What is to be shown of a value in a slot: the reader takes its stored form for the restored
value, if everything in it is within the limits, and refuses it otherwise. -/
def ReadsSlot (s : Schema) (d : Dictionary) (slot : Slot) (v : Value) : Prop :=
  ∀ {element dims inRecord tag level levels}, slot = .ofElement element dims inRecord →
    s.Lists d.types.toList element → element.HasTag d.types.toList tag →
      level + levels = maxNesting + 1 →
        ReadsWhen (readSlot d d.widths levels tag dims inRecord)
          (s.EverySlot s.Readable level slot v) (s.stored slot v) (s.restored slot v)

/-- The fields of a record are read back in the order of its type. -/
theorem readsWhen_fields (hd : s.Describes d.types.toList) {t : TypeDef} {u : TypeEntry}
    (ht : t ∈ s.types) (hu : u ∈ d.types.toList) (hname : u.name = t.name)
    {fields : List (String × Value)} {level levels : Nat} (hlevels : level + levels = maxNesting)
    (ih : ∀ f ∈ t.fields, ∀ inner, s.slot? f = some inner →
      ReadsSlot s d inner (Value.fieldOf fields f.name)) :
    ReadsWhen (readFields d levels u)
      (∀ f ∈ t.fields, ∀ inner, s.slot? f = some inner →
        s.EverySlot s.Readable (level + 1) inner (Value.fieldOf fields f.name))
      (s.stored (.record t) (.record t.name fields))
      (t.fields.map fun f ↦ match s.slot? f with
        | some inner => (f.name, s.restored inner (Value.fieldOf fields f.name))
        | none => (f.name, .null)) := by
  rw [Schema.stored_record]
  refine readsWhen_zip (((List.forall₂_and_left _ _).2
    ⟨ih, hd.fields_described ht hu hname⟩).imp ?_)
  rintro f g ⟨hf, hg⟩
  obtain ⟨element, helement, htag⟩ := hg.element
  have hslot := Schema.slot?_eq_some helement
  have hbelow : level + 1 + levels = maxNesting + 1 := by omega
  have hread := hf _ hslot rfl (hg.lists_of_eq helement) htag hbelow
  rw [hslot, hg.toNatClampNeg_dims, hg.name]
  simp only [Option.some.injEq, forall_eq']
  exact hread.map fun v ↦ (f.name, v)

/-- **Reading a slot back**, by the structure of the value. -/
theorem readsWhen_readSlot (hd : s.Describes d.types.toList) (ho : Ordered d.types.toList)
    {slot : Slot} {v : Value} (hconforms : s.Conforms slot v) (hstorable : s.Storable slot v) :
    ReadsSlot s d slot v := by
  induction hconforms using Schema.conformsInduction with
  | primitive k inRecord v h =>
    intro element dims inRecord' tag level levels hslot _ htag _
    rcases slot_cases hslot with ⟨k', rfl, rfl, hk⟩ | ⟨_, _, _, h⟩ | ⟨_, _, h⟩
    · cases hk
      have htag' : tag = k.tag := htag
      rw [readSlot, htag', Kind.ofTag?_tag, Schema.stored_primitive, Schema.restored_primitive]
      refine (readsWhen_primitive h.here hstorable.here).congr ?_
      rw [Schema.everySlot_primitive_iff]
      rfl
    · cases h
    · cases h
  | record t fields _ ih =>
    intro element dims inRecord tag level levels hslot hlists htag hlevels
    rcases slot_cases hslot with ⟨_, _, _, h⟩ | ⟨t', rfl, rfl, ht⟩ | ⟨_, _, h⟩
    · cases h
    · cases ht
      obtain ⟨u, hu, hname, rfl⟩ := htag
      rw [readSlot_record ho hu, Schema.restored_record, Schema.everySlot_record_iff]
      -- the reader is out of levels exactly where the level is too deep
      cases levels with
      | zero =>
        refine ⟨fun h ↦ absurd h.1 ?_, fun _ ↦ refuses_fail _ _⟩
        show ¬level ≤ maxNesting
        omega
      | succ levels =>
        have hle : level ≤ maxNesting := by omega
        have hparts := Schema.storable_record_iff.1 hstorable
        have hbelow : level + levels = maxNesting := by omega
        have hfields := (readsWhen_fields hd hlists.1 hu hname hbelow
          fun f hf inner hinner ↦ ih f hf inner hinner (hparts f hf inner hinner)).map
            (Value.record u.name)
        rw [hname] at hfields ⊢
        refine hfields.congr ?_
        rw [Schema.Readable, and_iff_right hle]
    · cases h
  | absent item _ =>
    intro element dims inRecord tag level levels hslot hlists htag hlevels
    rcases slot_cases hslot with ⟨_, _, _, h⟩ | ⟨_, _, _, h⟩ | ⟨dims', rfl, hitem⟩
    · cases h
    · cases h
    · rw [Schema.stored_absent, Schema.restored_absent, Schema.everySlot_absent_iff]
      cases levels with
      | zero =>
        refine ⟨fun h ↦ absurd h.1 ?_, fun _ ↦ refuses_array _ _ _ _ _⟩
        omega
      | succ levels =>
        have hle : level ≤ maxNesting := by omega
        refine (readsWhen_array (s := s) item [] (P := fun _ ↦ True) inRecord (Nat.zero_le _)
          (fun v hv ↦ absurd hv List.not_mem_nil) fun v hv ↦ absurd hv List.not_mem_nil).congr ?_
        exact iff_of_true ⟨fun _ ↦ Nat.zero_le _, fun _ _ ↦ trivial⟩
          ⟨hle, fun items h ↦ by cases h⟩
  | array item items h ih =>
    intro element dims inRecord tag level levels hslot hlists htag hlevels
    rcases slot_cases hslot with ⟨_, _, _, h⟩ | ⟨_, _, _, h⟩ | ⟨dims', rfl, hitem⟩
    · cases h
    · cases h
    · cases hitem
      obtain ⟨hlen, hitems⟩ := Schema.storable_array_iff.1 hstorable
      have hparts := Schema.conforms_array_iff.1 h
      rw [Schema.stored_array, Schema.restored_array, Schema.everySlot_array_iff]
      cases levels with
      | zero =>
        refine ⟨fun h ↦ absurd h.1.1 ?_, fun _ ↦ refuses_array _ _ _ _ _⟩
        omega
      | succ levels =>
        have hle : level ≤ maxNesting := by omega
        have hbelow : level + 1 + levels = maxNesting + 1 := by omega
        refine (readsWhen_array _ _ inRecord hlen
          (fun v hv ↦ meets_slotWidth hd ho (hparts v hv) rfl hlists htag)
          fun v hv ↦ ih v hv (hitems v hv) rfl hlists htag hbelow).congr ?_
        simp only [Schema.Readable, Value.array.injEq, forall_eq', and_iff_right hle]

end Image

end GraphCodec
