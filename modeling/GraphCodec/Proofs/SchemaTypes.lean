import GraphCodec.Proofs.Header
import GraphCodec.Proofs.Slot

/-!
# The dictionary of a schema describes it

A dictionary describes a schema if each of its types has the name of a type of the schema and, in
order, an entry for each of its fields, and the types have the tags from `firstCompositeTag` on
(`Schema.Describes`). A field is described by its name, by its dimensions and by a tag, which stands
for a kind or for a type listed before.

Tags are words, so types have different tags only if there are not too many of them
(`Schema.Numbered`). Then a description is in order (`Schema.Describes.ordered`).
-/

namespace GraphCodec

/-- Whether a tag stands for elements, given the types of a dictionary. -/
def ElementType.HasTag (ts : List TypeEntry) : ElementType → Tag → Prop
  | .primitive k, tag => tag = k.tag
  | .composite t, tag => ∃ u ∈ ts, u.name = t.name ∧ u.tag = tag

theorem ElementType.hasTag_primitive (ts : List TypeEntry) (k : Kind) :
    (primitive k).HasTag ts k.tag := rfl

/-- A tag is still known when more types are. -/
theorem ElementType.HasTag.mono {ts us : List TypeEntry} (hsub : ts ⊆ us) {element : ElementType}
    {tag : Tag} (h : element.HasTag ts tag) : element.HasTag us tag := by
  cases element with
  | primitive k => exact h
  | composite t =>
    obtain ⟨u, hu, hname⟩ := h
    exact ⟨u, hsub hu, hname⟩

namespace Schema

/-- Whether an entry describes a field of a type, given the types of the dictionary. -/
structure FieldDescribed (s : Schema) (ts : List TypeEntry) (f : FieldDef) (g : FieldEntry) :
    Prop where
  name : g.name = f.name
  dims_le : f.dims ≤ maxDimensions
  dims : g.dims = Int32.ofNat f.dims
  element : ∃ element, s.element? f = some element ∧ element.HasTag ts g.tag

/-- A field is still described when more types are known. -/
theorem FieldDescribed.mono {s : Schema} {ts us : List TypeEntry} (hsub : ts ⊆ us) {f : FieldDef}
    {g : FieldEntry} (h : s.FieldDescribed ts f g) : s.FieldDescribed us f g := by
  obtain ⟨element, helement, htag⟩ := h.element
  exact ⟨h.name, h.dims_le, h.dims, element, helement, htag.mono hsub⟩

/-- The tag of the type at a place. -/
def placeTag (i : Nat) : Tag :=
  Int32.ofNat (12 + i)

/-- Types that describe types of a schema, each with the fields that it has there. -/
inductive Describes (s : Schema) : List TypeEntry → Prop where
  | nil : Describes s []
  | snoc {earlier : List TypeEntry} {t : TypeDef} {fields : List FieldEntry}
      (describes : Describes s earlier) (mem : t ∈ s.types) (fresh : ∀ u ∈ earlier, u.name ≠ t.name)
      (fields_described : List.Forall₂ (s.FieldDescribed earlier) t.fields fields) :
      Describes s (earlier ++ [⟨placeTag earlier.length, t.name, fields⟩])

/-- Whether places up to a number of types have tags of their own. -/
def Numbered (n : Nat) : Prop :=
  n + 12 ≤ 2 ^ 31

theorem Numbered.mono {m n : Nat} (hn : Numbered n) (hle : m ≤ n) : Numbered m :=
  Nat.le_trans (Nat.add_le_add_right hle 12) hn

/-- The last tag is the greatest of all when the places are used up. -/
theorem Numbered.succ_iff {n : Nat} (hn : Numbered n) :
    Numbered (n + 1) ↔ Int32.ofNat (11 + n) ≠ Int32.maxValue := by
  unfold Numbered at hn ⊢
  have hlast : (Int32.ofNat (11 + n)).toInt = 11 + n := by
    rw [Int32.toInt_ofNat_of_lt (by omega)]
    rfl
  have hmax : Int32.maxValue.toInt = 2 ^ 31 - 1 := rfl
  rw [ne_eq, ← Int32.toInt_inj, hlast, hmax]
  omega

/-- The reader's limit on types leaves room for all tags. -/
theorem numbered_of_le_maxTypes {n : Nat} (h : n ≤ maxTypes) : Numbered n := by
  have hle : n ≤ 65536 := h
  unfold Numbered
  omega

/-- The tag of the type at a place is the last tag once the type is there. -/
theorem placeTag_eq_last (n : Nat) : placeTag n = Int32.ofNat (11 + (n + 1)) :=
  congrArg Int32.ofNat (by omega)

/-- The tag after the last one is that of the next place. -/
theorem last_add_one (n : Nat) : Int32.ofNat (11 + n) + 1 = placeTag n := by
  rw [placeTag_eq_last, ← Nat.add_assoc, Int32.ofNat_add (11 + n) 1]
  rfl

/-- Tags of types are their places, counted from twelve. -/
theorem toInt_placeTag {i : Nat} (h : i + 12 < 2 ^ 31) : (placeTag i).toInt = 12 + i := by
  rw [placeTag, Int32.toInt_ofNat_of_lt (by omega)]
  rfl

/-- Different places have different tags, if there are not too many of them. -/
theorem placeTag_ne {i j : Nat} (h : i < j) (hj : j + 12 < 2 ^ 31) : placeTag i ≠ placeTag j := by
  intro heq
  have hint := congrArg Int32.toInt heq
  rw [toInt_placeTag (by omega), toInt_placeTag hj] at hint
  omega

variable {s : Schema} {ts : List TypeEntry}

/-- Types of a schema are known by their names. -/
theorem eq_of_name_eq {t u : TypeDef} (ht : t ∈ s.types) (hu : u ∈ s.types)
    (hname : t.name = u.name) : t = u :=
  List.inj_on_of_nodup_map s.nodup_names ht hu hname

namespace Describes

/-- Each described type is at its place. -/
theorem exists_place (h : s.Describes ts) {t : TypeEntry} (ht : t ∈ ts) :
    ∃ i < ts.length, t.tag = placeTag i := by
  induction h with
  | nil => cases ht
  | @snoc earlier t fields _ _ _ _ ih =>
    rw [List.length_append]
    rcases List.mem_append.1 ht with ht' | ht'
    · obtain ⟨i, hi, htag⟩ := ih ht'
      exact ⟨i, Nat.lt_add_right _ hi, htag⟩
    · obtain rfl := List.mem_singleton.1 ht'
      exact ⟨earlier.length, Nat.lt_succ_self _, rfl⟩

/-- Every entry describes a type of the schema, field by field. -/
theorem exists_type (h : s.Describes ts) {u : TypeEntry} (hu : u ∈ ts) :
    ∃ t ∈ s.types, t.name = u.name ∧ List.Forall₂ (s.FieldDescribed ts) t.fields u.fields := by
  induction h with
  | nil => cases hu
  | @snoc earlier t fields _ mem _ hfields ih =>
    have hsub : earlier ⊆ earlier ++ [⟨placeTag earlier.length, t.name, fields⟩] :=
      List.subset_append_left _ _
    rcases List.mem_append.1 hu with hu' | hu'
    · obtain ⟨t', ht', hname, hmatch⟩ := ih hu'
      exact ⟨t', ht', hname, hmatch.imp fun _ _ hf ↦ hf.mono hsub⟩
    · obtain rfl := List.mem_singleton.1 hu'
      exact ⟨t, mem, rfl, hfields.imp fun _ _ hf ↦ hf.mono hsub⟩

/-- The entries of a type of the schema are those of its fields. -/
theorem fields_described (h : s.Describes ts) {t : TypeDef} {u : TypeEntry} (ht : t ∈ s.types)
    (hu : u ∈ ts) (hname : u.name = t.name) :
    List.Forall₂ (s.FieldDescribed ts) t.fields u.fields := by
  obtain ⟨t', ht', hname', hfields⟩ := h.exists_type hu
  obtain rfl : t' = t := eq_of_name_eq ht' ht (hname'.trans hname)
  exact hfields

end Describes

/-- Whether elements are of a kind, or of a type of the schema that is among the types of a
dictionary. -/
def Lists (s : Schema) (ts : List TypeEntry) : ElementType → Prop
  | .primitive _ => True
  | .composite t => t ∈ s.types ∧ ∃ u ∈ ts, u.name = t.name

/-- Primitive fields are those that are resolved as such. -/
theorem element?_eq_primitive_iff {f : FieldDef} {k : Kind} :
    s.element? f = some (.primitive k) ↔ s.resolve f = .primitive k := by
  unfold element?
  cases s.resolve f <;> simp

/-- And so with fields of other types. -/
theorem element?_eq_composite_iff {f : FieldDef} {t : TypeDef} :
    s.element? f = some (.composite t) ↔ s.resolve f = .composite t := by
  unfold element?
  cases s.resolve f <;> simp

theorem mem_of_element?_eq_composite {f : FieldDef} {t : TypeDef}
    (h : s.element? f = some (.composite t)) : t ∈ s.types :=
  mem_of_resolve_eq_composite (element?_eq_composite_iff.1 h)

/-- A field that is described has a type that is listed. -/
theorem FieldDescribed.lists_of_eq {f : FieldDef} {g : FieldEntry} (h : s.FieldDescribed ts f g)
    {element : ElementType} (helement : s.element? f = some element) : s.Lists ts element := by
  obtain ⟨element', helement', htag⟩ := h.element
  obtain rfl : element = element' := Option.some.inj (helement.symm.trans helement')
  cases element with
  | primitive k => trivial
  | composite t =>
    obtain ⟨u, hu, hname, -⟩ := htag
    exact ⟨mem_of_element?_eq_composite helement, u, hu, hname⟩

/-- The fields of listed types are listed. -/
theorem Describes.lists_field (h : s.Describes ts) {t : TypeDef}
    (ht : s.Lists ts (.composite t)) {f : FieldDef} (hf : f ∈ t.fields) :
    ∃ element, s.element? f = some element ∧ s.Lists ts element := by
  obtain ⟨hmem, u, hu, hname⟩ := ht
  have hfields := h.fields_described hmem hu hname
  obtain ⟨i, hi, rfl⟩ := List.getElem_of_mem hf
  have hfield := hfields.get hi (hfields.length_eq ▸ hi)
  obtain ⟨element, helement, -⟩ := hfield.element
  exact ⟨element, helement, hfield.lists_of_eq helement⟩

theorem FieldDescribed.toNatClampNeg_dims {f : FieldDef} {g : FieldEntry}
    (h : s.FieldDescribed ts f g) : g.dims.toNatClampNeg = f.dims := by
  have hle : f.dims ≤ 16 := h.dims_le
  rw [h.dims, Int32.toNatClampNeg_ofNat_of_lt (by omega)]

/-- The field of a described type is of a known type and has dimensions within the limit. -/
theorem FieldDescribed.known {f : FieldDef} {g : FieldEntry} (h : s.FieldDescribed ts f g) :
    g.Known ts where
  dims_nonneg := by
    have hle : f.dims ≤ 16 := h.dims_le
    rw [h.dims, Int32.le_iff_toInt_le, Int32.toInt_ofNat_of_lt (by omega)]
    exact Int.natCast_nonneg _
  dims_le := by
    rw [h.toNatClampNeg_dims]
    exact h.dims_le
  tag := by
    obtain ⟨element, -, htag⟩ := h.element
    cases element with
    | primitive k =>
      have hg : g.tag = k.tag := htag
      rw [hg]
      exact .inl k.isPrimitive_tag
    | composite t =>
      obtain ⟨u, hu, -, htag⟩ := htag
      exact .inr ⟨u, hu, htag⟩

namespace Describes

/-- **A description is in order**, as long as the tags are different. -/
theorem ordered (h : s.Describes ts) (hn : Numbered ts.length) : Ordered ts := by
  induction h with
  | nil => exact .nil
  | @snoc earlier t fields describes mem fresh hfields ih =>
    rw [List.length_append, List.length_singleton] at hn
    have hlt : earlier.length + 12 < 2 ^ 31 := Nat.lt_of_succ_le (Nat.succ_add _ 12 ▸ hn)
    refine (ih (hn.mono (Nat.le_succ _))).snoc ⟨?_, fun u hu ↦ ?_, fresh, fun g hg ↦ ?_⟩
    · rw [Int32.le_iff_toInt_le, toInt_placeTag hlt]
      exact Int.le_add_of_nonneg_right (Int.natCast_nonneg _)
    · obtain ⟨i, hi, htag⟩ := describes.exists_place hu
      rw [htag]
      exact placeTag_ne hi hlt
    · obtain ⟨i, hi, rfl⟩ := List.getElem_of_mem hg
      have hi' : i < t.fields.length := by rwa [hfields.length_eq]
      exact (hfields.get hi' hi).known

/-- The greatest tag of a description is that of its last type. -/
theorem lastTag_ofTypes (h : s.Describes ts) (hn : Numbered ts.length) :
    (Dictionary.ofTypes ts).lastTag = Int32.ofNat (11 + ts.length) := by
  induction h with
  | nil => rfl
  | @snoc earlier t fields describes mem fresh hfields ih =>
    rw [List.length_append, List.length_singleton] at hn
    have hlt : earlier.length + 12 < 2 ^ 31 := Nat.lt_of_succ_le (Nat.succ_add _ 12 ▸ hn)
    have hle : Int32.ofNat (11 + earlier.length) ≤ placeTag earlier.length := by
      rw [Int32.le_iff_toInt_le, toInt_placeTag hlt, Int32.toInt_ofNat_of_lt (by omega)]
      omega
    rw [Dictionary.ofTypes_snoc, Dictionary.push, ih (hn.mono (Nat.le_succ _))]
    show (if Int32.ofNat (11 + earlier.length) ≤ placeTag earlier.length
      then placeTag earlier.length else _) = _
    rw [if_pos hle, placeTag_eq_last, List.length_append, List.length_singleton]

end Describes

/-! ### Distinct names of fields -/

/-- A type that passes the check has no field twice. -/
theorem nodup_of_checkFields {owner : String} {seen : List String} {fields : List FieldDef}
    (h : checkFields owner seen fields = .ok ()) :
    (fields.map FieldDef.name).Nodup ∧ ∀ f ∈ fields, f.name ∉ seen := by
  induction fields generalizing seen with
  | nil => exact ⟨List.nodup_nil, fun f hf ↦ absurd hf List.not_mem_nil⟩
  | cons f fs ih =>
    rw [checkFields] at h
    split_ifs at h with hempty hseen hdims
    obtain ⟨hnodup, hfresh⟩ := ih h
    refine ⟨List.nodup_cons.2 ⟨fun hmem ↦ ?_, hnodup⟩, List.forall_mem_cons.2 ⟨hseen, ?_⟩⟩
    · obtain ⟨g, hg, hname⟩ := List.mem_map.1 hmem
      exact hfresh g hg (hname ▸ List.mem_cons_self)
    · exact fun g hg hmem ↦ hfresh g hg (List.mem_cons_of_mem _ hmem)

/-- So has every type of a schema that passes it. -/
theorem nodup_of_checkTypes {types : List TypeDef} (h : checkTypes types = .ok ()) :
    ∀ t ∈ types, t.fieldNames.Nodup := by
  induction types with
  | nil => exact fun t ht ↦ absurd ht List.not_mem_nil
  | cons t ts ih =>
    rw [checkTypes] at h
    split at h
    · rename_i hcheck
      unfold checkType at hcheck
      split_ifs at hcheck
      exact List.forall_mem_cons.2 ⟨(nodup_of_checkFields hcheck).1, ih h⟩
    · cases h

/-- Whether the fields of each type have distinct names. -/
def Distinct (s : Schema) : Prop :=
  ∀ t ∈ s.types, t.fieldNames.Nodup

/-- The fields of the types of a well-formed schema have distinct names. -/
theorem distinct_of_validate {s : Schema} (h : s.validate = .ok ()) : s.Distinct := by
  unfold validate at h
  split at h
  · cases h
  · rename_i hcheck
    exact nodup_of_checkTypes hcheck

end Schema

end GraphCodec
