import GraphCodec.Image.Reader
import Mathlib

/-!
# The order of types in a dictionary

Each type of a dictionary refers only to kinds and to types listed before it (`Ordered`). This is
what the reader of dictionaries checks, and what the walk over a schema brings about. In such a
dictionary a tag stands for one type (`Dictionary.descriptor?_eq_some`), and what one pass over the
list adds up for each type, such as its least width, is what the whole list determines
(`Ordered.lookup_weightsOf`).
-/

namespace GraphCodec

/-! ### Tags of kinds -/

theorem Kind.isPrimitive_tag (k : Kind) : Tag.isPrimitive k.tag = true := by
  cases k <;> decide

/-- Tags from the first composite one on are no tags of kinds. -/
theorem Kind.ofTag?_eq_none {tag : Tag} (h : firstCompositeTag ≤ tag) : ofTag? tag = none := by
  cases hk : ofTag? tag with
  | none => rfl
  | some k =>
    obtain rfl := ofTag?_eq_some_iff.1 hk
    cases k <;> exact absurd h (by decide)

/-- Every reserved tag is that of a kind. -/
theorem Tag.exists_of_isPrimitive {tag : Tag} (h : Tag.isPrimitive tag = true) :
    ∃ k, Kind.ofTag? tag = some k := by
  simp only [isPrimitive, Bool.and_eq_true, decide_eq_true_eq] at h
  obtain ⟨hlow, hhigh⟩ := h
  have hlow' : 1 ≤ tag.toInt := Int32.le_iff_toInt_le.1 hlow
  have hhigh' : tag.toInt < 12 := Int32.lt_iff_toInt_lt.1 hhigh
  rw [← Int32.ofInt_toInt tag]
  generalize tag.toInt = n at hlow' hhigh'
  interval_cases n
  exacts [⟨.boolean, rfl⟩, ⟨.byte, rfl⟩, ⟨.short, rfl⟩, ⟨.int, rfl⟩, ⟨.long, rfl⟩, ⟨.float, rfl⟩,
    ⟨.double, rfl⟩, ⟨.string, rfl⟩, ⟨.char, rfl⟩, ⟨.date, rfl⟩, ⟨.enum, rfl⟩]

/-! ### Order -/

/-- Whether a field is one that a type after `earlier` may have. -/
structure FieldEntry.Known (earlier : List TypeEntry) (f : FieldEntry) : Prop where
  dims_nonneg : 0 ≤ f.dims
  dims_le : f.dims.toNatClampNeg ≤ maxDimensions
  tag : Tag.isPrimitive f.tag = true ∨ ∃ u ∈ earlier, u.tag = f.tag

/-- Whether a type may come next after `earlier`. -/
structure TypeEntry.Follows (earlier : List TypeEntry) (t : TypeEntry) : Prop where
  composite : firstCompositeTag ≤ t.tag
  tag_ne : ∀ u ∈ earlier, u.tag ≠ t.tag
  name_ne : ∀ u ∈ earlier, u.name ≠ t.name
  known : ∀ f ∈ t.fields, f.Known earlier

/-- Types each of which refers only to kinds and to those before it. -/
inductive Ordered : List TypeEntry → Prop where
  | nil : Ordered []
  | snoc {earlier : List TypeEntry} {t : TypeEntry} (ordered : Ordered earlier)
      (follows : t.Follows earlier) : Ordered (earlier ++ [t])

namespace Ordered

variable {ts : List TypeEntry}

/-- Types that are in order have composite tags. -/
theorem composite (h : Ordered ts) {t : TypeEntry} (ht : t ∈ ts) : firstCompositeTag ≤ t.tag := by
  induction h with
  | nil => cases ht
  | snoc _ follows ih =>
    rcases List.mem_append.1 ht with ht | ht
    · exact ih ht
    · obtain rfl := List.mem_singleton.1 ht
      exact follows.composite

/-- What is fresh in each type is distinct in the list. -/
theorem nodup_map {β : Type} {key : TypeEntry → β}
    (hkey : ∀ {earlier t}, TypeEntry.Follows earlier t → ∀ u ∈ earlier, key u ≠ key t)
    (h : Ordered ts) : (ts.map key).Nodup := by
  induction h with
  | nil => exact List.nodup_nil
  | @snoc earlier t _ follows ih =>
    rw [List.map_append, List.nodup_append]
    refine ⟨ih, List.nodup_singleton _, fun a ha b hb ↦ ?_⟩
    obtain ⟨u, hu, rfl⟩ := List.mem_map.1 ha
    obtain rfl := List.mem_singleton.1 hb
    exact hkey follows u hu

/-- What is fresh in each type determines the type. -/
theorem eq_of_key_eq {β : Type} {key : TypeEntry → β}
    (hkey : ∀ {earlier t}, TypeEntry.Follows earlier t → ∀ u ∈ earlier, key u ≠ key t)
    (h : Ordered ts) {t u : TypeEntry} (ht : t ∈ ts) (hu : u ∈ ts) (heq : key t = key u) :
    t = u :=
  List.inj_on_of_nodup_map (h.nodup_map hkey) ht hu heq

/-- And different ones. -/
theorem eq_of_tag_eq (h : Ordered ts) {t u : TypeEntry} (ht : t ∈ ts) (hu : u ∈ ts)
    (htag : t.tag = u.tag) : t = u :=
  h.eq_of_key_eq TypeEntry.Follows.tag_ne ht hu htag

end Ordered

/-! ### Look-ups -/

namespace Dictionary

variable {d : Dictionary} {t : TypeEntry}

/-- A key that no two items share finds its item. -/
theorem find?_key {α β : Type} [BEq β] [LawfulBEq β] {key : α → β} {as : List α} {a : α}
    (h : (as.map key).Nodup) (ha : a ∈ as) : (as.find? fun b ↦ key b == key a) = some a := by
  cases hfind : as.find? fun b ↦ key b == key a with
  | none => exact absurd (beq_self_eq_true (key a)) (List.find?_eq_none.1 hfind a ha)
  | some b =>
    have heq : key b = key a := by simpa using List.find?_some hfind
    rw [List.inj_on_of_nodup_map h (List.mem_of_find?_eq_some hfind) ha heq]

/-- **A tag stands for its type**, whether it is looked up by place or by search. -/
theorem descriptor?_eq_some (h : (d.types.toList.map TypeEntry.tag).Nodup)
    (ht : t ∈ d.types.toList) : d.descriptor? t.tag = some t := by
  have hscan : d.scan? t.tag = some t := by
    rw [scan?, ← Array.find?_toList]
    exact find?_key h ht
  -- the place that a tag gives may hold another type, and then the list is searched
  unfold descriptor?
  cases hplace : (denseIndex? t.tag).bind fun i ↦ d.types[i]? with
  | none => exact hscan
  | some u =>
    obtain ⟨i, -, hi⟩ := Option.bind_eq_some_iff.1 hplace
    have hu : u ∈ d.types.toList := by
      rw [Array.mem_toList_iff]
      exact Array.mem_of_getElem? hi
    show (if u.tag = t.tag then some u else d.scan? t.tag) = some t
    split
    · rename_i htag
      rw [List.inj_on_of_nodup_map h hu ht htag]
    · exact hscan

theorem tagFor?_eq_some (h : (d.types.toList.map TypeEntry.name).Nodup)
    (ht : t ∈ d.types.toList) : d.tagFor? t.name = some t.tag := by
  rw [tagFor?, ← Array.find?_toList, find?_key h ht]
  rfl

/-- What a name stands for is the tag of the type that has it. -/
theorem tagFor?_eq_some_iff_of_nodup (h : (d.types.toList.map TypeEntry.name).Nodup)
    {name : String} {tag : Tag} :
    d.tagFor? name = some tag ↔ ∃ t ∈ d.types.toList, t.name = name ∧ t.tag = tag := by
  constructor
  · intro hfind
    rw [tagFor?, Option.map_eq_some_iff, ← Array.find?_toList] at hfind
    obtain ⟨t, ht, rfl⟩ := hfind
    exact ⟨t, List.mem_of_find?_eq_some ht, by simpa using List.find?_some ht, rfl⟩
  · rintro ⟨t, ht, rfl, rfl⟩
    exact tagFor?_eq_some h ht

end Dictionary

namespace Ordered

variable {d : Dictionary} {t : TypeEntry}

theorem descriptor?_eq_some (h : Ordered d.types.toList) (ht : t ∈ d.types.toList) :
    d.descriptor? t.tag = some t :=
  Dictionary.descriptor?_eq_some (h.nodup_map TypeEntry.Follows.tag_ne) ht

theorem tagFor?_eq_some (h : Ordered d.types.toList) (ht : t ∈ d.types.toList) :
    d.tagFor? t.name = some t.tag :=
  Dictionary.tagFor?_eq_some (h.nodup_map TypeEntry.Follows.name_ne) ht

end Ordered

theorem Dictionary.mem_of_descriptor?_eq_some {d : Dictionary} {tag : Tag} {t : TypeEntry}
    (h : d.descriptor? tag = some t) : t ∈ d.types.toList ∧ t.tag = tag := by
  have hscan : d.scan? tag = some t → t ∈ d.types.toList ∧ t.tag = tag := by
    intro hs
    rw [scan?, ← Array.find?_toList] at hs
    exact ⟨List.mem_of_find?_eq_some hs, by simpa using List.find?_some hs⟩
  unfold descriptor? at h
  cases hplace : (denseIndex? tag).bind fun i ↦ d.types[i]? with
  | none =>
    rw [hplace] at h
    exact hscan h
  | some u =>
    rw [hplace] at h
    replace h : (if u.tag = tag then some u else d.scan? tag) = some t := h
    split at h
    · rename_i htag
      cases h
      obtain ⟨i, -, hi⟩ := Option.bind_eq_some_iff.1 hplace
      exact ⟨Array.mem_toList_iff.2 (Array.mem_of_getElem? hi), htag⟩
    · exact hscan h

/-! ### Weights of types -/

namespace Dictionary

/-- What a weight makes of each type, given what it makes of those before it, the last one first. -/
def weightsOf (weight : List (Tag × Nat) → TypeEntry → Nat) (ts : List TypeEntry) :
    List (Tag × Nat) :=
  ts.foldl (fun known t ↦ (t.tag, weight known t) :: known) []

/-- Whether a weight asks only for the tags of the fields of a type. -/
def Local (weight : List (Tag × Nat) → TypeEntry → Nat) : Prop :=
  ∀ {known known' : List (Tag × Nat)} {t : TypeEntry},
    (∀ f ∈ t.fields, known.lookup f.tag = known'.lookup f.tag) → weight known t = weight known' t

variable {weight : List (Tag × Nat) → TypeEntry → Nat}

/-- The weight of the last type is made from those before. -/
theorem weightsOf_snoc (ts : List TypeEntry) (t : TypeEntry) :
    weightsOf weight (ts ++ [t]) =
      (t.tag, weight (weightsOf weight ts) t) :: weightsOf weight ts := by
  rw [weightsOf, List.foldl_append]
  rfl

/-- Types that come later have no influence on the weight of a type. -/
theorem Local.weightsOf_snoc (hweight : Local weight) {earlier : List TypeEntry} {t u : TypeEntry}
    (ht : t.Follows earlier) (hu : ∀ f ∈ u.fields, f.Known earlier) :
    weight (weightsOf weight (earlier ++ [t])) u = weight (weightsOf weight earlier) u := by
  refine hweight fun f hf ↦ ?_
  have hne : (f.tag == t.tag) = false := by
    rw [beq_eq_false_iff_ne]
    rcases (hu f hf).tag with htag | ⟨v, hv, htag⟩
    · intro h
      obtain ⟨k, hk⟩ := Tag.exists_of_isPrimitive htag
      rw [h, Kind.ofTag?_eq_none ht.composite] at hk
      cases hk
    · rw [← htag]
      exact ht.tag_ne v hv
  rw [Dictionary.weightsOf_snoc, List.lookup_cons, hne]

end Dictionary

namespace Ordered

/-- The fields of each type are of types that are known at the end. -/
theorem known {ts : List TypeEntry} (h : Ordered ts) {t : TypeEntry} (ht : t ∈ ts) :
    ∀ f ∈ t.fields, f.Known ts := by
  have hmono : ∀ {earlier : List TypeEntry} {u : TypeEntry} {f : FieldEntry}, f.Known earlier →
      f.Known (earlier ++ [u]) := fun hf ↦
    ⟨hf.dims_nonneg, hf.dims_le, hf.tag.imp_right fun ⟨v, hv, htag⟩ ↦
      ⟨v, List.mem_append_left _ hv, htag⟩⟩
  induction h with
  | nil => cases ht
  | snoc _ follows ih =>
    rcases List.mem_append.1 ht with ht | ht
    · exact fun f hf ↦ hmono (ih ht f hf)
    · obtain rfl := List.mem_singleton.1 ht
      exact fun f hf ↦ hmono (follows.known f hf)

/-- **One pass finds all weights**: that of each type is the one that the whole list gives it. -/
theorem lookup_weightsOf {weight : List (Tag × Nat) → TypeEntry → Nat}
    (hweight : Dictionary.Local weight) {ts : List TypeEntry} (h : Ordered ts) {t : TypeEntry}
    (ht : t ∈ ts) : (Dictionary.weightsOf weight ts).lookup t.tag =
      some (weight (Dictionary.weightsOf weight ts) t) := by
  induction h with
  | nil => cases ht
  | @snoc earlier u ordered follows ih =>
    -- the weight of an earlier type is looked up behind that of the last one
    rcases List.mem_append.1 ht with ht | ht
    · have hne : (t.tag == u.tag) = false := beq_eq_false_iff_ne.2 (follows.tag_ne t ht)
      rw [hweight.weightsOf_snoc follows (ordered.known ht), ← ih ht, Dictionary.weightsOf_snoc,
        List.lookup_cons, hne]
    · obtain rfl := List.mem_singleton.1 ht
      rw [hweight.weightsOf_snoc follows follows.known, Dictionary.weightsOf_snoc,
        List.lookup_cons, beq_self_eq_true]

end Ordered

/-! ### Widths -/

namespace Dictionary

/-- The width of a field is that of its slot. -/
theorem fieldWidth_eq (known : List (Tag × Nat)) (f : FieldEntry) :
    fieldWidth known f = if 0 < f.dims then 4 else Image.minWidth known f.tag := rfl

theorem widths_eq_weightsOf (d : Dictionary) : d.widths = weightsOf typeWidth d.types.toList := rfl

/-- The width of a type depends on the types before it only. -/
theorem local_typeWidth : Local typeWidth := by
  intro known known' t h
  unfold typeWidth
  congr 1
  refine List.map_congr_left fun f hf ↦ ?_
  rw [fieldWidth, fieldWidth, h f hf]

end Dictionary

namespace Ordered

/-- The least width of a tag that stands for a type is the sum over the fields of the type. -/
theorem minWidth_eq {d : Dictionary} (h : Ordered d.types.toList) {t : TypeEntry}
    (ht : t ∈ d.types.toList) :
    Image.minWidth d.widths t.tag = (t.fields.map (Dictionary.fieldWidth d.widths)).sum := by
  rw [Image.minWidth, Kind.ofTag?_eq_none (h.composite ht), Dictionary.widths_eq_weightsOf,
    h.lookup_weightsOf Dictionary.local_typeWidth ht]
  rfl

end Ordered

end GraphCodec
