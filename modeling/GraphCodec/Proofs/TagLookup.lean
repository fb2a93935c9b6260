import GraphCodec.Proofs.Drafting
import GraphCodec.Proofs.HeaderCode
import GraphCodec.Proofs.Nesting

/-!
# Looking up types by tag

A look-up by tag tries one place before it searches the list. The place is a guess: it is that of
the type with this tag if tags are numbered without gaps. The guess never changes the result,
because no two types have the same tag, and it does not matter which of them is tried first. For
this there are two reasons. The dictionary of a schema is numbered without gaps as long as there are
tags (`Dense`), and there is no dictionary for a schema with more types than that; and in a section
that is read, a tag that is there already is refused.
-/

namespace GraphCodec

namespace Dictionary

variable {d d' : Dictionary} {tag : Tag}

/-! ### The guess -/

/-- The search ends without a type if there is none. -/
theorem scan?_eq_none_iff : d.scan? tag = none ↔ ∀ t ∈ d.types.toList, t.tag ≠ tag := by
  rw [scan?, ← Array.find?_toList, List.find?_eq_none]
  simp

/-- **The guess changes nothing** where no two types have the same tag: a type in the place that is
tried is the one that the search would find. -/
theorem descriptor?_eq_scan? (h : (d.types.toList.map TypeEntry.tag).Nodup) (tag : Tag) :
    d.descriptor? tag = d.scan? tag := by
  unfold descriptor?
  split
  · rename_i t hplace
    obtain ⟨i, -, ht⟩ := Option.bind_eq_some_iff.1 hplace
    have hmem : t ∈ d.types.toList := Array.mem_toList_iff.2 (Array.mem_of_getElem? ht)
    split_ifs with htag
    · subst htag
      rw [scan?, ← Array.find?_toList]
      exact (find?_key h hmem).symm
    · rfl
  · rfl

/-! ### Numbered tags -/

/-- Whether the tags of the types are numbered without gaps, and the next type gets the next tag. -/
structure Dense (d : Dictionary) : Prop where
  numbered : Schema.Numbered d.types.size
  tags : d.types.toList.map TypeEntry.tag = (List.range d.types.size).map Schema.placeTag
  lastTag : d.lastTag = Int32.ofNat (11 + d.types.size)

theorem dense_empty : empty.Dense :=
  ⟨Schema.numbered_of_le_maxTypes (Nat.zero_le _), rfl, rfl⟩

/-- Registering keeps the numbering, because it needs a tag for a new name. -/
theorem Dense.register (h : d.Dense) {name : String} (hregister : d.register name = .ok (tag, d')) :
    d'.Dense := by
  have hnext : d.lastTag + 1 = Schema.placeTag d.types.size := by
    rw [h.lastTag, Schema.last_add_one]
  obtain ⟨-, rfl⟩ | ⟨-, hroom, rfl, rfl⟩ := register_eq_ok_iff.1 hregister
  · exact h
  · refine ⟨?_, ?_, ?_⟩
    · rw [Array.size_push]
      exact h.numbered.succ_iff.2 (h.lastTag ▸ hroom)
    · simp only [Array.toList_push, Array.size_push, List.map_append, List.range_succ, h.tags,
        hnext, List.map_cons, List.map_nil]
    · rw [Array.size_push, ← Schema.placeTag_eq_last]
      exact hnext

/-- Adding fields keeps tags where they are. -/
theorem Dense.addFields (h : d.Dense) {fields : List FieldEntry}
    (hadd : Draft.addFields d tag fields = .ok d') : d'.Dense := by
  obtain ⟨htags, hlast⟩ := map_addFields TypeEntry.tag (fun _ _ ↦ rfl) hadd
  have hsize : d'.types.size = d.types.size := by
    have hlength := congrArg List.length htags
    rwa [List.length_map, List.length_map, Array.length_toList, Array.length_toList] at hlength
  exact ⟨hsize ▸ h.numbered, by rw [htags, hsize, h.tags], by rw [hlast, hsize, h.lastTag]⟩

namespace Draft

/-- A field of a type that is open is not in the dictionary yet. -/
theorem dictionary_of_pushField {d d' : Draft} {f : FieldEntry} (h : d.pushField f = .ok d') :
    d'.dictionary = d.dictionary := by
  unfold pushField at h
  split at h <;> cases h
  rfl

/-- **Every event keeps the numbering**: only the end of a type touches the dictionary. -/
theorem dense_of_step {event : SchemaEvent} {d d' : Draft} (hd : d.dictionary.Dense)
    (h : step event d = .ok d') : d'.dictionary.Dense := by
  have hpush {f : FieldEntry} (h : d.pushField f = .ok d') : d'.dictionary.Dense :=
    dictionary_of_pushField h ▸ hd
  match event with
  | .beginType _ t =>
    cases h
    exact hd
  | .endType _ =>
    replace h : d.finishType = .ok d' := h
    unfold finishType at h
    split at h
    · rename_i name fields outer _
      obtain ⟨⟨tag, registered⟩, hregister, h⟩ := bind_eq_ok_iff.1 h
      obtain ⟨e, he, hpure⟩ := bind_eq_ok_iff.1 h
      cases hpure
      -- the new type has the next tag, and its fields change no tag
      exact (hd.register hregister).addFields he
    · cases h
  | .primitive .. => exact hpush h
  | .primitiveArray .. =>
    obtain ⟨_, -, h⟩ := bind_eq_ok_iff.1 h
    exact hpush h
  | .composite .. =>
    obtain ⟨_, -, h⟩ := bind_eq_ok_iff.1 h
    exact hpush h
  | .compositeArray .. =>
    obtain ⟨_, -, h⟩ := bind_eq_ok_iff.1 h
    obtain ⟨_, -, h⟩ := bind_eq_ok_iff.1 h
    exact hpush h
  | .unknown .. => cases h

end Draft

/-- **The dictionary of a schema** is numbered without gaps. -/
theorem dense_of_ofSchema {s : Schema} {root : TypeDef} (h : ofSchema s root = .ok d) :
    d.Dense := by
  unfold ofSchema at h
  split at h
  · cases h
  · rename_i u draft hwalk
    have hkept (event : SchemaEvent) : Carries (fun d : Draft ↦ d.dictionary.Dense) (fun _ ↦ True)
        (fun d ↦ d.dictionary.Dense) (Draft.listener event) := by
      refine ⟨fun d hd ↦ ?_⟩
      unfold Draft.listener
      split
      · rename_i d' hstep
        exact Draft.dense_of_step hd hstep
      · trivial
    have hrun := Listener.endsIn_run hkept (s.walk root) (s := Draft.empty) dense_empty
    rw [Trace.outcomeFrom_eq_ok_iff.1 hwalk] at hrun
    split at h
    · cases h
      exact hrun
    · cases h

/-- The tag of a type is its place. -/
theorem Dense.tag_eq (h : d.Dense) {i : Nat} {t : TypeEntry} (ht : d.types[i]? = some t) :
    t.tag = Schema.placeTag i := by
  have hmap := congrArg (fun ts ↦ ts[i]?) h.tags
  obtain ⟨hi, rfl⟩ := Array.getElem?_eq_some_iff.1 ht
  simpa [hi] using hmap

/-- Places have tags of their own. -/
theorem Dense.nodup_tags (h : d.Dense) : (d.types.toList.map TypeEntry.tag).Nodup := by
  have hplaces (i : Nat) (hi : i ∈ List.range d.types.size) : i + 12 < 2 ^ 31 :=
    Nat.lt_of_lt_of_le (Nat.add_lt_add_right (List.mem_range.1 hi) 12) h.numbered
  rw [h.tags]
  refine List.nodup_range.map_on fun i hi j hj heq ↦ ?_
  have hint := congrArg Int32.toInt heq
  rw [Schema.toInt_placeTag (hplaces i hi), Schema.toInt_placeTag (hplaces j hj)] at hint
  omega

theorem Dense.composite (h : d.Dense) {t : TypeEntry} (ht : t ∈ d.types.toList) :
    firstCompositeTag ≤ t.tag := by
  obtain ⟨i, hi⟩ := Array.mem_iff_getElem?.1 (Array.mem_toList_iff.1 ht)
  obtain ⟨hsize, -⟩ := Array.getElem?_eq_some_iff.1 hi
  have hbound : i + 12 < 2 ^ 31 := Nat.lt_of_lt_of_le (Nat.add_lt_add_right hsize 12) h.numbered
  have htwelve : firstCompositeTag.toInt = 12 := rfl
  rw [h.tag_eq hi, Int32.le_iff_toInt_le, Schema.toInt_placeTag hbound, htwelve]
  omega

/-! ### Both kinds of dictionaries -/

/-- How dictionaries come about: from a schema, or by reading a file. -/
inductive Made : Dictionary → Prop
  | ofSchema {s : Schema} {root : TypeDef} {d : Dictionary} (h : ofSchema s root = .ok d) : Made d
  | readHeader {c c' : Cursor} {d : Dictionary} (h : readHeader c = .ok (d, c')) : Made d

/-- However a dictionary has been made, its tags are distinct. -/
theorem Made.nodup_tags (h : d.Made) : (d.types.toList.map TypeEntry.tag).Nodup := by
  cases h with
  | ofSchema h => exact (dense_of_ofSchema h).nodup_tags
  | readHeader h => exact (headerBytes_of_readHeader h).1.nodup_map TypeEntry.Follows.tag_ne

/-- All tags of a made dictionary are composite. -/
theorem Made.composite (h : d.Made) {t : TypeEntry} (ht : t ∈ d.types.toList) :
    firstCompositeTag ≤ t.tag := by
  cases h with
  | ofSchema h => exact (dense_of_ofSchema h).composite ht
  | readHeader h => exact (headerBytes_of_readHeader h).1.composite ht

/-- What a tag stands for in a dictionary. -/
structure FindsTag (d : Dictionary) (tag : Tag) : Prop where
  /-- Looking up is searching the list from its beginning. -/
  eq_scan : d.descriptor? tag = d.scan? tag
  /-- The only type with the tag is found. -/
  eq_some : ∀ t ∈ d.types.toList, t.tag = tag → (∀ u ∈ d.types.toList, u.tag = tag → u = t) →
    d.descriptor? tag = some t
  /-- Nothing is found exactly if no type has the tag. -/
  eq_none_iff : d.descriptor? tag = none ↔ ∀ t ∈ d.types.toList, t.tag ≠ tag
  /-- A reserved tag is named after its kind. -/
  typeName_kind : ∀ k : Kind, k.tag = tag → d.typeName tag = k.name
  /-- Any other is named after the type that is found. -/
  typeName_type : (∀ k : Kind, k.tag ≠ tag) → ∀ t, d.descriptor? tag = some t →
    d.typeName tag = t.name
  /-- If nothing is found, the number stands for the name. -/
  typeName_unknown : (∀ k : Kind, k.tag ≠ tag) → d.descriptor? tag = none →
    d.typeName tag = s!"<tag {tag.toInt}>"

/-- **Looking up a tag** in a made dictionary finds its only type, by place or by search. -/
theorem findsTag (h : d.Made) (tag : Tag) : d.FindsTag tag := by
  have hscan := descriptor?_eq_scan? h.nodup_tags tag
  have hkind (hother : ∀ k : Kind, k.tag ≠ tag) : Kind.ofTag? tag = none := by
    rw [Option.eq_none_iff_forall_ne_some]
    exact fun k hk ↦ hother k (Kind.ofTag?_eq_some_iff.1 hk)
  refine ⟨hscan, fun t ht htag honly ↦ ?_, ?_, fun k hk ↦ ?_, fun hother t ht ↦ ?_,
    fun hother hnone ↦ ?_⟩
  · cases hfind : d.descriptor? tag with
    | none => exact absurd htag (scan?_eq_none_iff.1 (hscan ▸ hfind) t ht)
    | some u =>
      obtain ⟨hu, hutag⟩ := mem_of_descriptor?_eq_some hfind
      rw [honly u hu hutag]
  · rw [hscan]
    exact scan?_eq_none_iff
  · rw [typeName, ← hk, Kind.ofTag?_tag]
  · rw [typeName, hkind hother]
    simp only [ht]
  · rw [typeName, hkind hother]
    simp only [hnone]

/-- **Types are found by their tags**, in a dictionary that has been made from any schema or read
from any file, and for every tag, reserved, negative or unknown. No two types have the same tag and
none has a reserved one; so a type is what its tag stands for, and gives it its name. -/
theorem Made.findsTags (h : d.Made) :
    (∀ tag, d.FindsTag tag) ∧ (d.types.toList.map TypeEntry.tag).Nodup ∧
      (∀ tag t, d.descriptor? tag = some t ↔ t ∈ d.types.toList ∧ t.tag = tag) ∧
      ∀ t ∈ d.types.toList, firstCompositeTag ≤ t.tag ∧ d.typeName t.tag = t.name := by
  refine ⟨findsTag h, h.nodup_tags, fun tag t ↦ ⟨mem_of_descriptor?_eq_some, ?_⟩,
    fun t ht ↦ ⟨h.composite ht, ?_⟩⟩
  · rintro ⟨ht, rfl⟩
    exact descriptor?_eq_some h.nodup_tags ht
  · have hfind : d.descriptor? t.tag = some t := descriptor?_eq_some h.nodup_tags ht
    rw [typeName, Kind.ofTag?_eq_none (h.composite ht)]
    simp only [hfind]

/-- Types with tags in an order of their own: the place of each of the first two is that of the
other. -/
def shuffledDictionary : Dictionary :=
  ⟨#[⟨13, "Point", [⟨"x", 3, 0⟩]⟩, ⟨12, "Path", [⟨"points", 13, 1⟩]⟩,
    ⟨2147483647, "Map", [⟨"paths", 12, 2⟩]⟩], 2147483647⟩

theorem Made.findsTags_shuffled :
    shuffledDictionary.Made ∧
      shuffledDictionary.descriptor? 12 = some ⟨12, "Path", [⟨"points", 13, 1⟩]⟩ ∧
      shuffledDictionary.descriptor? (-1) = none ∧ shuffledDictionary.FindsTag 14 ∧
      shuffledDictionary.typeName 2147483647 = "Map" := by
  have hread : Dictionary.readHeader (.before shuffledDictionary.headerForm 0) =
      .ok (shuffledDictionary, .before [] 100) := by
    cbv
  obtain ⟨hfinds, -, htags, hnames⟩ := findsTags (.readHeader hread)
  have hpath : (⟨12, "Path", [⟨"points", 13, 1⟩]⟩ : TypeEntry) ∈
      shuffledDictionary.types.toList := by
    decide
  have hmap := hnames ⟨2147483647, "Map", [⟨"paths", 12, 2⟩]⟩ (by decide)
  exact ⟨.readHeader hread, (htags 12 _).2 ⟨hpath, rfl⟩,
    (hfinds (-1)).eq_none_iff.2 (by decide), hfinds 14, hmap.2⟩

end Dictionary

end GraphCodec
