import GraphCodec.Proofs.SchemaTypes
import GraphCodec.Proofs.WellFormed

/-!
# The types that a type reaches

A type refers to the composite types of its fields, and reaches what it refers to in any number of
steps. Whether there is a dictionary for a type depends on what it reaches: all field types have to
be known there, no type may contain itself, and arrays may have no more dimensions than are allowed
(`Schema.Representable`).

In which order the types are listed is said without a walk (`Schema.Visits`): types are visited one
after the other, the first visit to a type visits the types of its fields and then lists the type,
and any other visit does nothing. That determines the list (`Visits.unique`). A dictionary with the
types of such a list has one entry for each, with the tags from 12 on (`Schema.ListedAs`).
-/

namespace GraphCodec

/-- The composite type that a declared type refers to, if it is one. -/
def FieldType.composite? : FieldType → Option TypeDef
  | .composite t => some t
  | .primitive _ => none
  | .unknown => none

theorem FieldType.composite?_eq_some_iff {r : FieldType} {t : TypeDef} :
    r.composite? = some t ↔ r = .composite t := by
  cases r <;> simp [composite?]

namespace Schema

/-- The composite types of fields, in order. -/
def fieldTypes (s : Schema) (fields : List FieldDef) : List TypeDef :=
  fields.filterMap fun f ↦ (s.resolve f).composite?

/-- Whether the type `u` is that of a field of `t`. -/
def Refers (s : Schema) (t u : TypeDef) : Prop :=
  u ∈ s.fieldTypes t.fields

/-- Whether one gets from `t` to `u` by following fields. A type reaches itself in no steps. -/
def Reaches (s : Schema) : TypeDef → TypeDef → Prop :=
  Relation.ReflTransGen s.Refers

/-- **What a dictionary can represent**: a root that reaches no field of an unknown type, no type
that contains itself, and no array with too many dimensions. -/
structure Representable (s : Schema) (root : TypeDef) : Prop where
  known : ∀ t, s.Reaches root t → ∀ f ∈ t.fields, s.resolve f ≠ .unknown
  acyclic : ∀ t, s.Reaches root t → ¬Relation.TransGen s.Refers t t
  dims_le : ∀ t, s.Reaches root t → ∀ f ∈ t.fields, f.dims ≤ maxDimensions

/-- Visiting types in order makes `listed'` of the types `listed` so far. -/
inductive Visits (s : Schema) :
    (ts : List TypeDef) → (listed listed' : List TypeDef) → Prop where
  | nil {listed : List TypeDef} : Visits s [] listed listed
  | again {t : TypeDef} {ts listed listed' : List TypeDef} (mem : t ∈ listed)
      (rest : Visits s ts listed listed') : Visits s (t :: ts) listed listed'
  | first {t : TypeDef} {ts listed below listed' : List TypeDef} (new : t ∉ listed)
      (fields : Visits s (s.fieldTypes t.fields) listed below)
      (rest : Visits s ts (below ++ [t]) listed') : Visits s (t :: ts) listed listed'

/-- Whether a dictionary has an entry for each type of a list, in order and without gaps in the
tags, and the tag of a field is that of its kind or of the entry of its type, which comes before. -/
structure ListedAs (s : Schema) (order : List TypeDef) (ts : List TypeEntry) : Prop where
  names : ts.map TypeEntry.name = order.map TypeDef.name
  tags : ∀ (i : Nat) u, ts[i]? = some u → u.tag.toInt = 12 + i
  fields : ∀ (i : Nat) t u, order[i]? = some t → ts[i]? = some u →
    List.Forall₂ (s.FieldDescribed (ts.take i)) t.fields u.fields

variable {s : Schema}

/-! ### Following fields -/

/-- The types of fields, one by one. -/
theorem fieldTypes_cons (f : FieldDef) (fs : List FieldDef) :
    s.fieldTypes (f :: fs) = (s.resolve f).composite?.toList ++ s.fieldTypes fs := by
  rw [fieldTypes, List.filterMap_cons]
  cases (s.resolve f).composite? <;> rfl

/-- A type refers to the types of its fields. -/
theorem refers_iff {t u : TypeDef} :
    s.Refers t u ↔ ∃ f ∈ t.fields, s.element? f = some (.composite u) := by
  simp only [Refers, fieldTypes, List.mem_filterMap, FieldType.composite?_eq_some_iff,
    element?_eq_composite_iff]

/-- A type that is referred to is one of the schema. -/
theorem Refers.mem {t u : TypeDef} (h : s.Refers t u) : u ∈ s.types := by
  obtain ⟨f, -, helement⟩ := refers_iff.1 h
  exact mem_of_element?_eq_composite helement

/-- So is one that is reached. -/
theorem Reaches.mem {t u : TypeDef} (h : s.Reaches t u) (ht : t ∈ s.types) : u ∈ s.types := by
  induction h with
  | refl => exact ht
  | tail _ hrefers _ => exact hrefers.mem

/-- What is reached from a representable type is representable. -/
theorem Representable.of_reaches {t u : TypeDef} (h : s.Representable t)
    (hreaches : s.Reaches t u) : s.Representable u where
  known v hv := h.known v (hreaches.trans hv)
  acyclic v hv := h.acyclic v (hreaches.trans hv)
  dims_le v hv := h.dims_le v (hreaches.trans hv)

/-! ### Visiting -/

namespace Visits

variable {t : TypeDef} {ts listed listed' : List TypeDef}

/-- **What a visit lists** is determined. -/
theorem unique {listed'' : List TypeDef} (h : s.Visits ts listed listed')
    (h' : s.Visits ts listed listed'') : listed' = listed'' := by
  induction h generalizing listed'' with
  | nil =>
    cases h'
    rfl
  | again mem _ ih =>
    cases h' with
    | again _ rest => exact ih rest
    | first new _ _ => exact absurd mem new
  | first new _ _ ihfields ihrest =>
    cases h' with
    | again mem _ => exact absurd mem new
    | first _ fields rest =>
      obtain rfl := ihfields fields
      exact ihrest rest

/-- What is listed is reached from what is visited. -/
theorem exists_reaches (h : s.Visits ts listed listed') {u : TypeDef} (hu : u ∈ listed') :
    u ∈ listed ∨ ∃ t ∈ ts, s.Reaches t u := by
  induction h with
  | nil => exact .inl hu
  | again _ _ ih =>
    refine (ih hu).imp_right ?_
    rintro ⟨v, hv, hreaches⟩
    exact ⟨v, List.mem_cons_of_mem _ hv, hreaches⟩
  | @first t _ _ _ _ _ _ _ ihfields ihrest =>
    rcases ihrest hu with hbelow | ⟨v, hv, hreaches⟩
    · rcases List.mem_append.1 hbelow with hbelow | htop
      · refine (ihfields hbelow).imp_right ?_
        rintro ⟨v, hrefers, hreaches⟩
        exact ⟨t, List.mem_cons_self, hreaches.head hrefers⟩
      · obtain rfl := List.mem_singleton.1 htop
        exact .inr ⟨u, List.mem_cons_self, .refl⟩
    · exact .inr ⟨v, List.mem_cons_of_mem _ hv, hreaches⟩

/-- Visits list types of the schema only. -/
theorem subset_types (h : s.Visits ts listed listed') (hts : ts ⊆ s.types)
    (hlisted : listed ⊆ s.types) : listed' ⊆ s.types := by
  intro u hu
  rcases h.exists_reaches hu with hu | ⟨t, ht, hreaches⟩
  · exact hlisted hu
  · exact hreaches.mem (hts ht)

end Visits

/-! ### Dictionaries -/

section

variable {ts : List TypeEntry}

/-- What one gets to from a listed type is listed. -/
theorem Describes.lists_of_reaches (h : s.Describes ts) {t u : TypeDef}
    (ht : s.Lists ts (.composite t)) (hreaches : s.Reaches t u) : s.Lists ts (.composite u) := by
  induction hreaches with
  | refl => exact ht
  | tail _ hrefers ih =>
    obtain ⟨f, hf, helement⟩ := refers_iff.1 hrefers
    obtain ⟨element, helement', hlists⟩ := h.lists_field ih hf
    obtain rfl := Option.some.inj (helement.symm.trans helement')
    exact hlists

/-- Where types refer to each other, so do their entries. -/
theorem Describes.exists_transGen (h : s.Describes ts) {t u : TypeDef} {e : TypeEntry}
    (ht : t ∈ s.types) (he : e ∈ ts) (hname : e.name = t.name)
    (hrefers : Relation.TransGen s.Refers t u) :
    ∃ e' ∈ ts, e'.name = u.name ∧ Relation.TransGen (TypeEntry.Refers ts) e e' := by
  have hstep : ∀ {t u e}, t ∈ s.types → e ∈ ts → e.name = t.name → s.Refers t u →
      ∃ e' ∈ ts, e'.name = u.name ∧ e.Refers ts e' := by
    intro t u e ht he hname hrefers
    obtain ⟨f, hf, helement⟩ := refers_iff.1 hrefers
    have hfields := h.fields_described ht he hname
    obtain ⟨i, hi, rfl⟩ := List.getElem_of_mem hf
    have hi' : i < e.fields.length := hfields.length_eq ▸ hi
    obtain ⟨element, helement', htag⟩ := (hfields.get hi hi').element
    obtain rfl := Option.some.inj (helement.symm.trans helement')
    obtain ⟨e', he', hname', htag⟩ := htag
    exact ⟨e', he', hname', he', e.fields[i], List.getElem_mem hi', htag.symm⟩
  induction hrefers with
  | single hrefers =>
    obtain ⟨e', he', hname', hrefers'⟩ := hstep ht he hname hrefers
    exact ⟨e', he', hname', .single hrefers'⟩
  | tail hpath hrefers ih =>
    obtain ⟨e', he', hname', hpath'⟩ := ih
    obtain ⟨v, -, hlast⟩ := Relation.TransGen.tail'_iff.1 hpath
    obtain ⟨e'', he'', hname'', hrefers'⟩ := hstep hlast.mem he' hname' hrefers
    exact ⟨e'', he'', hname'', hpath'.tail hrefers'⟩

/-- **A type that a dictionary describes** is representable. -/
theorem Describes.representable (h : s.Describes ts) (hn : Numbered ts.length) {root : TypeDef}
    (hroot : s.Lists ts (.composite root)) : s.Representable root := by
  refine ⟨fun t ht f hf hunknown ↦ ?_, fun t ht hcycle ↦ ?_, fun t ht f hf ↦ ?_⟩
  · obtain ⟨element, helement, -⟩ := h.lists_field (h.lists_of_reaches hroot ht) hf
    rw [element?, hunknown] at helement
    cases helement
  · -- the entries are in order, and a cycle of types would be one of entries
    obtain ⟨hmem, e, he, hname⟩ := h.lists_of_reaches hroot ht
    obtain ⟨e', he', hname', hcycle'⟩ := h.exists_transGen hmem he hname hcycle
    have hordered := h.ordered hn
    obtain rfl : e = e' :=
      hordered.eq_of_key_eq TypeEntry.Follows.name_ne he he' (hname.trans hname'.symm)
    exact hordered.acyclic he hcycle'
  · obtain ⟨hmem, e, he, hname⟩ := h.lists_of_reaches hroot ht
    have hfields := h.fields_described hmem he hname
    obtain ⟨i, hi, rfl⟩ := List.getElem_of_mem hf
    exact (hfields.get hi (hfields.length_eq ▸ hi)).dims_le

/-- What a description says of the entry at a place. -/
theorem Describes.exists_type_of_getElem? (h : s.Describes ts) {i : Nat} {u : TypeEntry}
    (hu : ts[i]? = some u) :
    u.tag = placeTag i ∧ ∃ t ∈ s.types, t.name = u.name ∧
      List.Forall₂ (s.FieldDescribed (ts.take i)) t.fields u.fields := by
  induction h with
  | nil => cases hu
  | @snoc earlier t fields _ mem _ hfields ih =>
    rcases Nat.lt_or_ge i earlier.length with hi | hi
    · rw [List.getElem?_append_left hi] at hu
      rw [List.take_append_of_le_length hi.le]
      exact ih hu
    · rw [List.getElem?_append_right hi, List.getElem?_singleton] at hu
      split at hu
      · obtain rfl : i = earlier.length := by omega
        cases hu
        rw [List.take_left]
        exact ⟨rfl, t, mem, rfl, hfields⟩
      · cases hu

/-- **A description lists the types** whose names its entries have. -/
theorem Describes.listedAs (h : s.Describes ts) (hn : Numbered ts.length) {order : List TypeDef}
    (horder : order ⊆ s.types) (hnames : ts.map TypeEntry.name = order.map TypeDef.name) :
    s.ListedAs order ts := by
  refine ⟨hnames, fun i u hu ↦ ?_, fun i t u ht hu ↦ ?_⟩
  · obtain ⟨hi, -⟩ := List.getElem?_eq_some_iff.1 hu
    rw [(h.exists_type_of_getElem? hu).1]
    exact toInt_placeTag (Nat.lt_of_lt_of_le (Nat.add_lt_add_right hi 12) hn)
  · obtain ⟨-, t', ht', hname, hfields⟩ := h.exists_type_of_getElem? hu
    have hsame := congrArg (·[i]?) hnames
    simp only [List.getElem?_map, ht, hu, Option.map_some, Option.some.injEq] at hsame
    obtain rfl := eq_of_name_eq (horder (List.mem_of_getElem? ht)) ht' (hsame.symm.trans hname.symm)
    exact hfields

end

end Schema

end GraphCodec
