import GraphCodec.Proofs.HeaderCode
import GraphCodec.Proofs.Reencoding
import GraphCodec.Proofs.Restoring
import GraphCodec.Proofs.Skeleton

/-!
# The layout of an image

The *layout* of a slot is the skeleton of code that reads or writes it item by item
(`Slot.layout`): a primitive is one item of its stored form, or a text; a record is a call; and an
array is the number of its items and then the items. `Fills` says which bytes have a layout, given a
schema in which the calls are followed: an item takes the width of its form, and what is repeated
takes place as often as the number before it says.

Everything that the writer makes of a value fills the layout of its slot (`laysOut_walkValue`), and
so does everything that the reader takes for one (`yields_readSlotTexts_fills`).
-/

namespace GraphCodec

open Matlab (Io textOutline counted precision)

/-- The layout of what stands in a slot. -/
def Slot.layout : Slot → List Io
  | .primitive k _ => if k.isTextual then textOutline else [.one (precision k)]
  | .record t => [.record t.simpleName]
  | .array item => counted item.layout

namespace Schema

/-- The layout of a field. -/
def fieldLayout (s : Schema) (f : FieldDef) : List Io :=
  match s.slot? f with
  | some slot => slot.layout
  | none => []

/-- The layout of the fields of a record, in the order of its type. -/
def recordLayout (s : Schema) (t : TypeDef) : List Io :=
  t.fields.flatMap s.fieldLayout

theorem fieldLayout_of_slot?_eq_some {s : Schema} {f : FieldDef} {slot : Slot}
    (h : s.slot? f = some slot) : s.fieldLayout f = slot.layout := by
  rw [fieldLayout, h]

end Schema

/-- The number of bytes of an item of a stored form. -/
def formWidth? (form : String) : Option Nat :=
  if form = "uint8" ∨ form = "int8" then some 1
  else if form = "int16" then some 2
  else if form = "int32" ∨ form = "float32" then some 4
  else if form = "int64" ∨ form = "float64" then some 8
  else none

/-- **The stored form of a kind has its width.** -/
theorem formWidth?_precision {k : Kind} (hk : k.isTextual = false) :
    formWidth? (precision k) = k.width? := by
  cases k <;> first | rfl | exact absurd hk (by decide)

namespace Image

/-- Whether bytes have a layout. -/
inductive Fills (s : Schema) : List Io → List UInt8 → Prop
  | nil : Fills s [] []
  | one {form : String} {item : List UInt8} (width : formWidth? form = some item.length)
      {io : List Io} {bs : List UInt8} (rest : Fills s io bs) :
    Fills s (.one form :: io) (item ++ bs)
  /-- A record is the fields of a type with the identifier. -/
  | record {t : TypeDef} (known : t ∈ s.types) {body : List UInt8}
      (fields : Fills s (s.recordLayout t) body) {io : List Io} {bs : List UInt8}
      (rest : Fills s io bs) :
    Fills s (.record t.simpleName :: io) (body ++ bs)
  /-- A number, and as many parts. -/
  | counted {item : List Io} {parts : List (List UInt8)} (length : parts.length ≤ maxLength)
      (items : ∀ part ∈ parts, Fills s item part) {io : List Io} {bs : List UInt8}
      (rest : Fills s io bs) :
    Fills s (counted item ++ io) (lengthWord parts.length ++ parts.flatten ++ bs)

variable {s : Schema} {io io' item : List Io} {as bs : List UInt8}

/-- Layouts one after the other are filled one after the other. -/
theorem Fills.append (ha : Fills s io as) (hb : Fills s io' bs) :
    Fills s (io ++ io') (as ++ bs) := by
  induction ha with
  | nil => exact hb
  | one width _ ih =>
    rw [List.append_assoc]
    exact .one width ih
  | record known fields _ _ ih =>
    rw [List.append_assoc]
    exact .record known fields ih
  | counted length items _ _ ih =>
    rw [List.append_assoc, List.append_assoc]
    exact .counted length items ih

theorem fills_one {form : String} (h : formWidth? form = some as.length) :
    Fills s [.one form] as := by
  have hone := Fills.one h (.nil (s := s))
  rwa [List.append_nil] at hone

/-- A count and its items fill what is counted. -/
theorem fills_counted {parts : List (List UInt8)} (hlength : parts.length ≤ maxLength)
    (hitems : ∀ part ∈ parts, Fills s item part) :
    Fills s (counted item) (lengthWord parts.length ++ parts.flatten) := by
  have hcounted := Fills.counted hlength hitems (.nil (s := s))
  rwa [List.append_nil, List.append_nil] at hcounted

/-- A record fills its place by filling the layout of its type. -/
theorem fills_record {t : TypeDef} (ht : t ∈ s.types) (h : Fills s (s.recordLayout t) bs) :
    Fills s [.record t.simpleName] bs := by
  have hrecord := Fills.record ht h (.nil (s := s))
  rwa [List.append_nil] at hrecord

/-- Layouts in order are filled by parts in order. -/
theorem fills_flatMap {α : Type} {layout : α → List Io} {xs : List α} {parts : List (List UInt8)}
    (h : List.Forall₂ (fun x part ↦ Fills s (layout x) part) xs parts) :
    Fills s (xs.flatMap layout) parts.flatten := by
  induction h with
  | nil => exact .nil
  | cons hx _ ih => exact hx.append ih

/-! ### Primitives -/

/-- A text fills its outline. -/
theorem fills_text {text : String} (h : Utf8.size text ≤ maxLength) :
    Fills s textOutline (textForm text) := by
  have hbytes : ((Utf8.bytes text).map fun b ↦ [b]).flatten = Utf8.bytes text := by
    simp [← List.flatMap_def]
  have hlength : ((Utf8.bytes text).map fun b ↦ [b]).length = Utf8.size text := by
    rw [List.length_map, Utf8.length_bytes]
  have hitems : ∀ part ∈ (Utf8.bytes text).map fun b ↦ [b], Fills s [.one "uint8"] part := by
    intro part hpart
    obtain ⟨b, -, rfl⟩ := List.mem_map.1 hpart
    exact fills_one rfl
  have hfills := fills_counted (hlength ▸ h) hitems
  rwa [hbytes, hlength] at hfills

/-- Scalars of one kind are stored in the same width. -/
theorem length_scalarForm {k : Kind} (hk : k.isTextual = false) (v : Value) :
    k.width? = some (scalarForm k v).length := by
  cases k <;> first | (cases v <;> rfl) | exact absurd hk (by decide)

/-- A scalar fills its slot. -/
theorem fills_scalar (k : Kind) (inRecord : Bool) {v : Value}
    (h : Slot.Storable (.primitive k true) v) :
    Fills s (Slot.primitive k inRecord).layout (scalarForm k v) := by
  rw [Slot.layout]
  split
  · rename_i hk
    have hsize := h hk
    cases k <;> first | exact fills_text hsize | exact absurd hk (by decide)
  · rename_i hk
    have hk' : k.isTextual = false := Bool.eq_false_iff.2 hk
    exact fills_one ((formWidth?_precision hk').trans (length_scalarForm hk' v))

/-! ### The writer -/

variable {d : Dictionary}

/-- Whether all that the writer makes of a walk fills a layout. -/
def LaysOut (s : Schema) (d : Dictionary) (t : Trace ValueEvent Unit) (io : List Io) : Prop :=
  ∃ P bs, Writes d t P bs ∧ (P → Fills s io bs)

theorem laysOut_fail (e : Fault) (io : List Io) : LaysOut s d (Trace.fail e) io :=
  ⟨False, [], writes_fail e not_false, False.elim⟩

theorem laysOut_primitive (field : String) (k : Kind) (v : Value) :
    LaysOut s d (Trace.emit (.primitive field k v)) (Slot.primitive k true).layout :=
  ⟨_, _, writes_primitive field k v, fun h ↦ fills_scalar k true h.2⟩

/-- An array of primitives is laid out as its slot is. -/
theorem laysOut_primitives (field : String) (k : Kind) (vs : List Value) :
    LaysOut s d (Trace.emit (.primitives field k vs)) (Slot.array (.primitive k false)).layout := by
  refine ⟨_, _, writes_primitives field k vs, ?_⟩
  rintro ⟨hlength, hvs⟩
  have hparts : (vs.map (scalarForm k)).length = vs.length := List.length_map _
  rw [← hparts] at hlength ⊢
  rw [List.flatMap_def]
  refine fills_counted hlength fun part hpart ↦ ?_
  obtain ⟨v, hv, rfl⟩ := List.mem_map.1 hpart
  exact fills_scalar k false (hvs v hv).2

/-- **Walks in order** make parts in order. -/
theorem exists_parts_of_laysOut {α : Type} {walk : α → Trace ValueEvent Unit}
    {layout : α → List Io} {xs : List α} (h : ∀ x ∈ xs, LaysOut s d (walk x) (layout x)) :
    ∃ P parts, Writes d (Trace.sequence (xs.map walk)) P parts.flatten ∧
      (P → List.Forall₂ (fun x part ↦ Fills s (layout x) part) xs parts) := by
  induction xs with
  | nil => exact ⟨True, [], writes_pure, fun _ ↦ .nil⟩
  | cons x xs ih =>
    obtain ⟨P, bs, hx, hfills⟩ := h x List.mem_cons_self
    obtain ⟨Q, parts, hxs, hparts⟩ := ih fun y hy ↦ h y (List.mem_cons_of_mem x hy)
    refine ⟨P ∧ Q, bs :: parts, ?_, fun hPQ ↦ .cons (hfills hPQ.1) (hparts hPQ.2)⟩
    rw [List.map_cons, Trace.sequence_cons, List.flatten_cons]
    exact hx.bind hxs

/-- A dimension of an array, of which every item is laid out alike. -/
theorem laysOut_array {walk : Value → Trace ValueEvent Unit} {items : List Value}
    (h : ∀ v ∈ items, LaysOut s d (walk v) item) (field : String) (element : ElementType)
    (dims : Nat) :
    LaysOut s d (do
      Trace.emit (.beginArray field element dims items.length)
      Trace.sequence (items.map walk)
      Trace.emit (.endArray field)) (counted item) := by
  obtain ⟨P, parts, hwrites, hparts⟩ := exists_parts_of_laysOut h
  refine ⟨_, _, hwrites.array field element dims items.length, ?_⟩
  rintro ⟨hlength, hP⟩
  have hforall := hparts hP
  rw [hforall.length_eq] at hlength ⊢
  refine fills_counted hlength fun part hpart ↦ ?_
  obtain ⟨i, hi, rfl⟩ := List.getElem_of_mem hpart
  exact hforall.get (hforall.length_eq ▸ hi) hi

theorem laysOut_walkScalar (f : FieldDef) (k : Kind) (v : Value) :
    LaysOut s d (s.walkValue f (.primitive k) 0 v) (Slot.primitive k true).layout := by
  rw [Schema.walkValue]
  split
  · exact laysOut_primitive f.name k v
  · exact laysOut_fail _ _

/-- What is to be shown of the walk over a value. -/
def LaysOutValue (s : Schema) (d : Dictionary) (v : Value) : Prop :=
  ∀ (f : FieldDef) (element : ElementType) (dims : Nat),
    (∀ t, element = .composite t → t ∈ s.types) →
      LaysOut s d (s.walkValue f element dims v) (Slot.ofElement element dims true).layout

/-- A record is laid out like the walks over its fields. -/
theorem exists_writes_record {walk : FieldDef → Trace ValueEvent Unit} {t : TypeDef}
    (h : ∀ f ∈ t.fields, LaysOut s d (walk f) (s.fieldLayout f)) (field : Option String)
    (declared : String) :
    ∃ P bs, Writes d (do
        Trace.emit (.beginRecord field declared t)
        Trace.sequence (t.fields.map walk)
        Trace.emit (.endRecord field))
      (((d.tagFor? t.name).isSome = true ∧ t.name = declared) ∧ P) bs ∧
      (P → Fills s (s.recordLayout t) bs) := by
  obtain ⟨P, parts, hwrites, hparts⟩ := exists_parts_of_laysOut h
  exact ⟨P, parts.flatten, hwrites.record field declared t, fun hP ↦ fills_flatMap (hparts hP)⟩

/-- The fields of a record are laid out in the order of its type. -/
theorem exists_writes_walkRecord (field : Option String) (declared : String) (t : TypeDef)
    {fields : List (String × Value)} (ih : ∀ name, LaysOutValue s d (Value.fieldOf fields name)) :
    ∃ P bs, Writes d (s.walkRecord field declared t fields)
        (((d.tagFor? t.name).isSome = true ∧ t.name = declared) ∧ P) bs ∧
      (P → Fills s (s.recordLayout t) bs) := by
  rw [Schema.walkRecord]
  refine exists_writes_record (fun f _ ↦ ?_) field declared
  cases hresolve : s.resolve f with
  | primitive k =>
    have helement : s.element? f = some (.primitive k) := by rw [Schema.element?, hresolve]
    rw [Schema.fieldLayout_of_slot?_eq_some (Schema.slot?_eq_some helement)]
    refine ih f.name f (.primitive k) f.dims fun t ht ↦ ?_
    cases ht
  | composite c =>
    have helement := Schema.element?_eq_composite_iff.2 hresolve
    rw [Schema.fieldLayout_of_slot?_eq_some (Schema.slot?_eq_some helement)]
    refine ih f.name f (.composite c) f.dims ?_
    rintro _ ⟨⟩
    exact Schema.mem_of_element?_eq_composite helement
  | unknown => exact laysOut_fail _ _

/-- A composite slot that holds a record. -/
theorem laysOut_walkComposite (f : FieldDef) {c : TypeDef} (hc : c ∈ s.types) (typeName : String)
    {fields : List (String × Value)} (ih : ∀ name, LaysOutValue s d (Value.fieldOf fields name)) :
    LaysOut s d (s.walkValue f (.composite c) 0 (.record typeName fields))
      [.record c.simpleName] := by
  rw [Schema.walkValue]
  cases hget : s.get? typeName with
  | none => exact laysOut_fail _ _
  | some t =>
    obtain ⟨P, bs, hwrites, hfills⟩ := exists_writes_walkRecord (some f.name) c.name t ih
    refine ⟨_, bs, hwrites, ?_⟩
    rintro ⟨⟨-, hname⟩, hP⟩
    obtain rfl := Schema.eq_of_name_eq (Schema.mem_of_get?_eq_some hget) hc hname
    exact fills_record hc (hfills hP)

/-- A composite slot that holds no record. -/
theorem laysOut_walkAbsent (f : FieldDef) (c : TypeDef) {v : Value}
    (hv : ∀ typeName fields, v ≠ .record typeName fields) :
    LaysOut s d (s.walkValue f (.composite c) 0 v) [.record c.simpleName] :=
  ⟨_, _, writes_walkMisfit f c hv, fun h ↦ by
    have hfits := h.fits
    cases v with
    | record typeName fields => exact absurd rfl (hv typeName fields)
    | _ => exact hfits.elim⟩

/-- An array slot that holds no array. -/
theorem laysOut_walkAbsentArray (f : FieldDef) (element : ElementType) (dims : Nat) {v : Value}
    (hv : ∀ items, v ≠ .array items) :
    LaysOut s d (s.walkValue f element (dims + 1) v)
      (Slot.ofElement element (dims + 1) true).layout := by
  refine ⟨_, _, writes_walkAbsent f element dims hv, fun h ↦ ?_⟩
  have hfits := h.fits
  cases v with
  | null =>
    have hempty : Fills s (counted (Slot.ofElement element dims false).layout)
        (lengthWord ([] : List (List UInt8)).length ++ List.flatten []) :=
      fills_counted (Nat.zero_le _) fun part hpart ↦ absurd hpart List.not_mem_nil
    rw [Schema.stored_absent]
    exact hempty
  | array items => exact absurd rfl (hv items)
  | _ => exact hfits.elim

theorem laysOut_walkPrimitives (f : FieldDef) (k : Kind) (items : List Value) :
    LaysOut s d (Schema.walkPrimitives f k items) (Slot.array (.primitive k false)).layout := by
  unfold Schema.walkPrimitives
  split
  · exact laysOut_fail _ _
  · exact laysOut_primitives f.name k items

/-- The layout of an item does not depend on where it stands. -/
theorem layout_ofElement (element : ElementType) (dims : Nat) (inRecord inRecord' : Bool) :
    (Slot.ofElement element dims inRecord).layout =
      (Slot.ofElement element dims inRecord').layout := by
  cases dims <;> cases element <;> rfl

/-- **An array** is laid out as its slot is, by the dimensions. -/
theorem laysOut_walkArray (f : FieldDef) {element : ElementType}
    (helement : ∀ t, element = .composite t → t ∈ s.types) (dims : Nat) {items : List Value}
    (ih : ∀ v ∈ items, LaysOutValue s d v) :
    LaysOut s d (s.walkValue f element (dims + 1) (.array items))
      (Slot.ofElement element (dims + 1) true).layout := by
  obtain ⟨k, rfl, rfl⟩ | row := Schema.row_cases element dims
  · rw [Schema.walkValue_row]
    exact laysOut_walkPrimitives f k items
  · have hitems := laysOut_array (fun v hv ↦ ih v hv f element dims helement) f.name element
      (dims + 1)
    rw [layout_ofElement element dims true false] at hitems
    rw [Schema.walkValue_array s f row]
    exact hitems

/-- **Whatever the writer makes of a value** in a slot fills the layout of the slot. -/
theorem laysOut_walkValue (s : Schema) (d : Dictionary) (v : Value) : LaysOutValue s d v := by
  induction v using Value.lookupInduction with
  | leaf v harray hrecord =>
    intro f element dims helement
    match dims, element with
    | 0, .primitive k => exact laysOut_walkScalar f k v
    | 0, .composite c => exact laysOut_walkAbsent f c hrecord
    | dims + 1, element => exact laysOut_walkAbsentArray f element dims harray
  | array items ih =>
    intro f element dims helement
    match dims, element with
    | 0, .primitive k => exact laysOut_walkScalar f k _
    | 0, .composite c => exact laysOut_walkAbsent f c (by simp)
    | dims + 1, element => exact laysOut_walkArray f helement dims ih
  | record typeName fields ih =>
    intro f element dims helement
    match dims, element with
    | 0, .primitive k => exact laysOut_walkScalar f k _
    | 0, .composite c => exact laysOut_walkComposite f (helement c rfl) typeName ih
    | dims + 1, element => exact laysOut_walkAbsentArray f element dims (by simp)

/-! ### The reader -/

open Decoder

theorem yields_primitiveTexts_fills (k : Kind) (inRecord : Bool) :
    Yields (primitiveTexts k inRecord) fun _ bs ↦
      Fills s (Slot.primitive k inRecord).layout bs := by
  by_cases hk : k = .date
  · subst hk
    refine (yields_text.bind (S := fun _ _ cs ↦ cs = []) fun text _ _ ↦ ?_).mono ?_
    · split
      · exact (yields_pure _).mono fun _ _ h ↦ h.2
      · cases Rfc3339.parse text with
        | error e => exact yields_fail _ _
        | ok i => exact (yields_pure _).mono fun _ _ h ↦ h.2
    · rintro p bs ⟨text, _, _, ⟨hsize, rfl⟩, rfl, rfl⟩
      rw [List.append_nil]
      exact fills_text hsize
  · rw [primitiveTexts_of_ne_date hk]
    refine ((yields_primitive hk inRecord).map fun v ↦ (v, [])).mono ?_
    rintro p bs ⟨v, ⟨_, hstorable, rfl⟩, rfl⟩
    exact fills_scalar k inRecord hstorable

/-- What is to be shown of the reader with some levels left. -/
def YieldsFilling (s : Schema) (d : Dictionary) (levels : Nat) : Prop :=
  ∀ {element dims inRecord tag}, s.Lists d.types.toList element →
    element.HasTag d.types.toList tag →
      Yields (readSlotTexts d d.widths levels tag dims inRecord) fun _ bs ↦
        Fills s (Slot.ofElement element dims inRecord).layout bs

/-- The fields of a record are read in the order of its type. -/
theorem yields_fieldsTexts_fills (hd : s.Describes d.types.toList) {levels : Nat}
    (hslots : YieldsFilling s d levels) {t : TypeDef} {u : TypeEntry} (ht : t ∈ s.types)
    (hu : u ∈ d.types.toList) (hname : u.name = t.name) :
    Yields (readFieldsTexts d levels u) fun _ bs ↦ Fills s (s.recordLayout t) bs := by
  have hfields : List.Forall₂ (fun f g ↦
      Yields (readSlotTexts d d.widths levels g.tag g.dims.toNatClampNeg true >>= fun part ↦
        pure ((g.name, part.1), part.2)) fun _ bs ↦ Fills s (s.fieldLayout f) bs)
      t.fields u.fields := by
    refine (hd.fields_described ht hu hname).imp fun f g hg ↦ ?_
    obtain ⟨element, helement, htag⟩ := hg.element
    rw [hg.toNatClampNeg_dims, Schema.fieldLayout_of_slot?_eq_some (Schema.slot?_eq_some helement)]
    refine ((hslots (hg.lists_of_eq helement) htag).map _).mono ?_
    rintro p bs ⟨part, hpart, rfl⟩
    exact hpart
  refine (yields_zip hfields).mono ?_
  rintro _ bs ⟨parts, hparts, rfl, rfl⟩
  rw [List.flatMap_def]
  exact fills_flatMap (List.forall₂_map_right_iff.2 hparts)

theorem yields_arrayTexts_fills {read : Decoder (Value × List String)}
    (hitem : Yields read fun _ bs ↦ Fills s item bs) (tag : Tag) (width : Nat) :
    Yields (do
        let count ← readCount tag width
        let items ← Decoder.times count read
        return (Value.array (items.map Prod.fst), items.flatMap Prod.snd)) fun _ bs ↦
      Fills s (counted item) bs := by
  refine ((yields_readCount tag width).bind fun n _ _ ↦ (yields_times hitem n).map _).mono ?_
  rintro p bs ⟨n, _, _, ⟨hn, rfl⟩, ⟨_, ⟨parts, rfl, hparts, rfl, rfl⟩, rfl⟩, rfl⟩
  have hlength : (parts.map Prod.snd).length = parts.length := List.length_map _
  rw [← hlength] at hn ⊢
  rw [List.flatMap_def]
  refine fills_counted hn fun part hpart ↦ ?_
  obtain ⟨q, hq, rfl⟩ := List.mem_map.1 hpart
  exact hparts q hq

/-- **Whatever the reader takes for a value** in a slot fills the layout of the slot, by induction
on the levels of nesting that it may still enter. -/
theorem yields_readSlotTexts_fills (hd : s.Describes d.types.toList)
    (ho : Ordered d.types.toList) (levels : Nat) : YieldsFilling s d levels := by
  induction levels with
  | zero =>
    intro element dims inRecord tag _ htag
    match dims, element with
    | 0, .primitive k =>
      rw [show tag = k.tag from htag, readSlotTexts_primitive]
      exact yields_primitiveTexts_fills k inRecord
    | 0, .composite t =>
      obtain ⟨u, hu, -, rfl⟩ := htag
      rw [readSlotTexts, Kind.ofTag?_eq_none (ho.composite hu), readType,
        ho.descriptor?_eq_some hu]
      exact yields_fail _ _
    | dims + 1, element =>
      rw [readSlotTexts]
      exact yields_fail _ _
  | succ levels ih =>
    intro element dims inRecord tag hlists htag
    match dims, element with
    | 0, .primitive k =>
      rw [show tag = k.tag from htag, readSlotTexts_primitive]
      exact yields_primitiveTexts_fills k inRecord
    | 0, .composite t =>
      obtain ⟨u, hu, hname, rfl⟩ := htag
      rw [readSlotTexts, Kind.ofTag?_eq_none (ho.composite hu), readType,
        ho.descriptor?_eq_some hu]
      refine ((yields_fieldsTexts_fills hd ih hlists.1 hu hname).map fun parts ↦
        (Value.record u.name (parts.map Prod.fst), parts.flatMap Prod.snd)).mono ?_
      rintro p bs ⟨parts, hparts, rfl⟩
      exact fills_record hlists.1 hparts
    | dims + 1, element =>
      rw [readSlotTexts]
      exact yields_arrayTexts_fills (ih hlists htag) tag _

/-! ### Images -/

/-- **No front of an image begins with another.** -/
theorem frontForm_append_inj {d d' : Dictionary} {tag tag' : Tag} {rest rest' : List UInt8}
    (hd : d.types.size ≤ maxLength ∧ d.Storable) (hd' : d'.types.size ≤ maxLength ∧ d'.Storable)
    (h : frontForm d tag ++ rest = frontForm d' tag' ++ rest') :
    d.types = d'.types ∧ tag = tag' ∧ rest = rest' := by
  simp only [frontForm, List.append_assoc, List.append_cancel_left_eq] at h
  obtain ⟨htypes, hrest⟩ := Dictionary.headerForm_append_inj
    (Dictionary.headerBytes_eq_ok_iff.2 ⟨hd.1, hd.2, rfl⟩)
    (Dictionary.headerBytes_eq_ok_iff.2 ⟨hd'.1, hd'.2, rfl⟩) h
  obtain ⟨htag, hrest⟩ := (reads_int32 tag).append_inj (reads_int32 tag') hrest
  exact ⟨htypes, htag, hrest⟩

variable {t : TypeDef} {rootTag : Tag} {front : List UInt8}

/-- **Whatever is encoded** as a record of a type is laid out like the type behind the front. -/
theorem exists_body_of_encode {r : Record} {b : List UInt8} (ht : s.get? r.typeName = some t)
    (hd : Dictionary.ofSchema s t = .ok d) (htag : d.tagFor? t.name = some rootTag)
    (hfront : preamble d rootTag = .ok front) (hb : encode s r = .ok b) :
    ∃ body, b = front ++ body ∧ Fills s (s.recordLayout t) body := by
  obtain ⟨-, rfl⟩ := preamble_eq_ok_iff.1 hfront
  obtain ⟨t', d', rootTag', w, ht', hd', htag', -, hrun, hfinish⟩ := encode_eq_ok_iff_walk.1 hb
  obtain rfl : t = t' := Option.some.inj (ht.symm.trans ht')
  obtain rfl : d = d' := Except.ok.inj (hd.symm.trans hd')
  obtain rfl : rootTag = rootTag' := Option.some.inj (htag.symm.trans htag')
  obtain ⟨P, body, hwrites, hfills⟩ := exists_writes_walkRecord (d := d) none t.name t
    fun name ↦ laysOut_walkValue s d (Value.fieldOf r.fields name)
  obtain ⟨⟨-, hP⟩, rfl⟩ := (hwrites _ w).1 hrun
  rw [finish_write_front] at hfinish
  exact ⟨body, (Except.ok.inj hfinish).symm, hfills hP⟩

/-- **Whatever can be decoded** as a record of a type is laid out like the type behind the front. -/
theorem fills_of_decode {body : List UInt8} {c : Content} (ht : t ∈ s.types)
    (hd : Dictionary.ofSchema s t = .ok d) (htag : d.tagFor? t.name = some rootTag)
    (hfront : preamble d rootTag = .ok front) (hc : decode (front ++ body) = .ok c) :
    Fills s (s.recordLayout t) body := by
  obtain ⟨hstorable, rfl⟩ := preamble_eq_ok_iff.1 hfront
  obtain ⟨texts, e, hread, hend, -⟩ := exists_readContentTexts hc
  obtain ⟨u, _, c₁, parts, ⟨hordered, hstorable', hsize⟩, ⟨hu, rfl⟩, hrest, hfields, -⟩ :=
    exists_parts_of_readContentTexts hread
  -- the dictionary that is read is the one of the front
  obtain ⟨htypes, rfl, hbody⟩ := frontForm_append_inj hstorable
    ⟨Nat.le_trans hsize (by decide), hstorable'⟩ hrest
  have hof := Dictionary.OfSchema.of_eq_ok ht hd
  rw [← htypes] at hordered hsize hu
  have hdescribes : s.Describes c.dictionary.types.toList :=
    htypes ▸ hof.describes
  have hname : u.name = t.name := by
    obtain ⟨u', hu', hname⟩ := hof.root
    rw [← hname, hordered.tagFor?_eq_some hu'] at htag
    rwa [hordered.eq_of_tag_eq hu hu' (Option.some.inj htag).symm]
  rw [htypes] at hordered hu
  obtain ⟨bs, hfills, hrest', -⟩ := yields_fieldsTexts_fills hdescribes
    (yields_readSlotTexts_fills hdescribes hordered maxNesting) ht hu hname hfields
  rwa [hbody, hrest', hend, List.append_nil]

end Image

end GraphCodec
