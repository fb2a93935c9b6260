import GraphCodec.Dictionary.OfSchema
import GraphCodec.Proofs.SchemaTypes

/-!
# The walk that makes a dictionary

The dictionary of a schema comes out of a walk with a listener. The walk is followed event by event:
what the listener has when the walk has visited some types is faithful to them (`Draft.Faithful`),
the walk over the fields of a type collects their entries, and the walk over a type only extends
the draft (`Draft.Extends`). So the dictionary describes the types that the walk has visited
(`OfSchema.describes`).
-/

namespace GraphCodec

namespace Dictionary

/-! ### Adding a type -/

/-- **What registering does.** A known name changes nothing, and an unknown one gets the next tag,
if there is one. -/
theorem register_eq_ok_iff {d d' : Dictionary} {name : String} {tag : Tag} :
    d.register name = .ok (tag, d') ↔ d.tagFor? name = some tag ∧ d' = d ∨
      d.tagFor? name = none ∧ d.lastTag ≠ Int32.maxValue ∧ tag = d.lastTag + 1 ∧
        d' = ⟨d.types.push ⟨d.lastTag + 1, name, []⟩, d.lastTag + 1⟩ := by
  unfold register
  cases d.tagFor? name with
  | some known => simp [eq_comm]
  | none =>
    by_cases hlast : d.lastTag = Int32.maxValue
    · simp [hlast]
    · simp [hlast, eq_comm]

/-- There is only one reason not to register a name. -/
theorem register_eq_error_iff {d : Dictionary} {name : String} {e : Fault} :
    d.register name = .error e ↔
      d.tagFor? name = none ∧ d.lastTag = Int32.maxValue ∧ e = .overflow := by
  unfold register
  cases d.tagFor? name with
  | some known => simp
  | none =>
    by_cases hlast : d.lastTag = Int32.maxValue
    · simp [hlast, eq_comm]
    · simp [hlast]

theorem tagFor?_eq_none {d : Dictionary} {name : String}
    (hfresh : ∀ u ∈ d.types.toList, u.name ≠ name) : d.tagFor? name = none := by
  rw [← Option.not_isSome_iff_eq_none, Decoder.isSome_tagFor?_iff]
  rintro ⟨u, hu, hname⟩
  exact hfresh u hu hname

/-- Whether it is new or not, a type has a tag once it has been registered. -/
theorem mem_of_register {d d' : Dictionary} {name : String} {tag : Tag}
    (h : d.register name = .ok (tag, d')) : tag ∈ d'.types.toList.map TypeEntry.tag := by
  obtain ⟨hfind, rfl⟩ | ⟨-, -, rfl, rfl⟩ := register_eq_ok_iff.1 h
  · rw [tagFor?, Option.map_eq_some_iff, ← Array.find?_toList] at hfind
    obtain ⟨t, ht, rfl⟩ := hfind
    exact List.mem_map_of_mem (List.mem_of_find?_eq_some ht)
  · rw [Array.toList_push, List.map_append]
    exact List.mem_append_right _ (List.mem_singleton_self _)

/-- What is known of the types but their fields stays when a field is added. -/
theorem map_addField {β : Type} (key : TypeEntry → β)
    (hkey : ∀ t fields, key { t with fields } = key t) {d d' : Dictionary} {tag : Tag}
    {g : FieldEntry} (h : d.addField tag g = .ok d') :
    d'.types.toList.map key = d.types.toList.map key ∧ d'.lastTag = d.lastTag := by
  unfold addField at h
  split at h
  · rename_i i _
    cases h
    refine ⟨List.ext_getElem? fun j ↦ ?_, rfl⟩
    rw [Array.toList_modify, List.getElem?_map, List.getElem?_map, List.getElem?_modify]
    by_cases hij : i = j
    · simp only [if_pos hij, Option.map_eq_map, Option.map_map]
      exact congrArg (Option.map · _) (funext fun t ↦ hkey t _)
    · simp only [if_neg hij, id_map']
  · cases h

/-- Adding fields changes nothing of the types but their fields. -/
theorem map_addFields {β : Type} (key : TypeEntry → β)
    (hkey : ∀ t fields, key { t with fields } = key t) {tag : Tag} {fields : List FieldEntry}
    {d d' : Dictionary} (h : Draft.addFields d tag fields = .ok d') :
    d'.types.toList.map key = d.types.toList.map key ∧ d'.lastTag = d.lastTag := by
  unfold Draft.addFields at h
  induction fields generalizing d with
  | nil =>
    cases h
    exact ⟨rfl, rfl⟩
  | cons g fields ih =>
    rw [List.foldlM_cons, bind_eq_ok_iff] at h
    obtain ⟨e, he, hrest⟩ := h
    obtain ⟨hkeys, hlast⟩ := map_addField key hkey he
    obtain ⟨hkeys', hlast'⟩ := ih hrest
    exact ⟨hkeys'.trans hkeys, hlast'.trans hlast⟩

/-- Fields can be added to every type that there is. -/
theorem exists_addFields (fields : List FieldEntry) {tag : Tag} {d : Dictionary}
    (htag : tag ∈ d.types.toList.map TypeEntry.tag) :
    ∃ d', Draft.addFields d tag fields = .ok d' := by
  unfold Draft.addFields
  induction fields generalizing d with
  | nil => exact ⟨d, rfl⟩
  | cons g fields ih =>
    obtain ⟨e, he⟩ : ∃ e, d.addField tag g = .ok e := by
      obtain ⟨t, ht, rfl⟩ := List.mem_map.1 htag
      unfold addField
      split
      · exact ⟨_, rfl⟩
      · rename_i hnone
        exact absurd (beq_self_eq_true t.tag)
          (Bool.eq_false_iff.1 (Array.findIdx?_eq_none_iff.1 hnone t (Array.mem_toList_iff.1 ht)))
    obtain ⟨d', hd'⟩ := ih (d := e) (by rwa [(map_addField TypeEntry.tag (fun _ _ ↦ rfl) he).1])
    exact ⟨d', by rw [List.foldlM_cons, bind_eq_ok_iff]; exact ⟨e, he, hd'⟩⟩

/-- Fields are added to the last type, if no other type has its tag. -/
theorem addField_push {types : Array TypeEntry} {t : TypeEntry} {last : Tag}
    (hfresh : ∀ u ∈ types.toList, u.tag ≠ t.tag) (g : FieldEntry) :
    addField ⟨types.push t, last⟩ t.tag g =
      .ok ⟨types.push { t with fields := t.fields ++ [g] }, last⟩ := by
  have hnone : types.findIdx? (fun u ↦ u.tag == t.tag) = none := by
    rw [Array.findIdx?_eq_none_iff]
    intro u hu
    exact beq_eq_false_iff_ne.2 (hfresh u (Array.mem_toList_iff.2 hu))
  have hmodify : ∀ f : TypeEntry → TypeEntry,
      (types.push t).modify types.size f = types.push (f t) := by
    intro f
    apply Array.toList_inj.1
    rw [Array.toList_modify, Array.toList_push, Array.toList_push]
    exact List.modifyTailIdx_add (List.modifyHead f) 0 types.toList [t]
  rw [addField, Array.findIdx?_push, hnone, beq_self_eq_true, if_pos rfl, Option.none_or]
  simp only [hmodify]

/-- Fields are added to the last type if its tag is new. -/
theorem addFields_push {types : Array TypeEntry} {last : Tag} (fields : List FieldEntry)
    {t : TypeEntry} (hfresh : ∀ u ∈ types.toList, u.tag ≠ t.tag) :
    Draft.addFields ⟨types.push t, last⟩ t.tag fields =
      .ok ⟨types.push { t with fields := t.fields ++ fields }, last⟩ := by
  unfold Draft.addFields
  induction fields generalizing t with
  | nil =>
    rw [List.append_nil]
    rfl
  | cons g fields ih =>
    have hrest := ih (t := { t with fields := t.fields ++ [g] }) hfresh
    rw [List.append_assoc, List.singleton_append] at hrest
    rw [List.foldlM_cons, addField_push hfresh g, bind_eq_ok_iff]
    exact ⟨_, rfl, hrest⟩

namespace Draft

/-! ### What a draft holds -/

/-- The types registered so far. -/
def types (d : Draft) : List TypeEntry :=
  d.dictionary.types.toList

/-- Whether a draft is what it should be when the types with these names, the last one first, have
been visited. -/
structure Faithful (s : Schema) (visited : List String) (d : Draft) : Prop where
  names : d.types.map TypeEntry.name = visited.reverse
  nodup : visited.Nodup
  declared : ∀ n ∈ visited, ∃ t ∈ s.types, t.name = n
  numbered : Schema.Numbered visited.length
  lastTag : d.dictionary.lastTag = Int32.ofNat (11 + visited.length)
  describes : s.Describes d.types

/-- Whether the draft `d'` comes from `d` by visiting more types. -/
structure Extends (s : Schema) (visited : List String) (d : Draft) (visited' : List String)
    (d' : Draft) : Prop where
  faithful : Faithful s visited' d'
  visited : visited <:+ visited'
  types : d.types <+: d'.types

variable {s : Schema} {visited visited' visited'' : List String} {d d' d'' : Draft}

/-- There is one type for each that has been visited. -/
theorem Faithful.length_types (h : Faithful s visited d) : d.types.length = visited.length := by
  have hmap := congrArg List.length h.names
  rwa [List.length_map, List.length_reverse] at hmap

/-- The visited types are those with an entry. -/
theorem Faithful.mem_iff (h : Faithful s visited d) {name : String} :
    name ∈ visited ↔ ∃ u ∈ d.types, u.name = name := by
  rw [← List.mem_reverse, ← h.names, List.mem_map]

theorem Faithful.refl (h : Faithful s visited d) : Extends s visited d visited d :=
  ⟨h, List.suffix_refl _, List.prefix_refl _⟩

/-- Drafts grow step by step. -/
theorem Extends.trans (h : Extends s visited d visited' d')
    (h' : Extends s visited' d' visited'' d'') : Extends s visited d visited'' d'' :=
  ⟨h'.faithful, h.visited.trans h'.visited, h.types.trans h'.types⟩

/-- Only the registered types matter. -/
theorem Faithful.congr (h : Faithful s visited d) (hd : d'.dictionary = d.dictionary) :
    Faithful s visited d' := by
  obtain ⟨dictionary, pending⟩ := d'
  obtain rfl : dictionary = d.dictionary := hd
  exact ⟨h.names, h.nodup, h.declared, h.numbered, h.lastTag, h.describes⟩

/-- There is a tag for a type that has not been visited, if there is one for every type of the
schema. -/
theorem Faithful.lastTag_ne (h : Faithful s visited d) (hn : Schema.Numbered s.types.length)
    {t : TypeDef} (ht : t ∈ s.types) (hnew : t.name ∉ visited) :
    d.dictionary.lastTag ≠ Int32.maxValue := by
  have hsubset : t.name :: visited ⊆ s.types.map TypeDef.name := by
    refine List.cons_subset.2 ⟨List.mem_map_of_mem ht, fun n hmem ↦ ?_⟩
    obtain ⟨u, hu, rfl⟩ := h.declared n hmem
    exact List.mem_map_of_mem hu
  have hle := (List.nodup_cons.2 ⟨hnew, h.nodup⟩).length_le_of_subset hsubset
  rw [List.length_cons, List.length_map] at hle
  rw [h.lastTag]
  exact h.numbered.succ_iff.1 (hn.mono hle)

/-! ### Events -/

/-- A field goes to the type that is innermost. -/
theorem pushField_eq_ok {owner : String} {fields : List FieldEntry}
    {outer : List (String × List FieldEntry)} (hd : d.pending = (owner, fields) :: outer)
    (g : FieldEntry) :
    d.pushField g = .ok { d with pending := (owner, fields ++ [g]) :: outer } := by
  rw [pushField, hd]

/-- Dimensions are checked against the limit and kept in a word. -/
theorem checkDims_eq_ok_iff {name : String} {dims : Nat} {dims' : Int32} :
    d.checkDims name dims = .ok dims' ↔ dims ≤ maxDimensions ∧ dims' = Int32.ofNat dims := by
  unfold checkDims
  by_cases h : dims ≤ maxDimensions
  · simp [h, eq_comm]
  · simp [h]

/-- The tag that a type is given for a field is its own. -/
theorem hasTag_of_compositeTag {t : TypeDef} {tag : Tag} (h : d.compositeTag t = .ok tag) :
    (ElementType.composite t).HasTag d.types tag := by
  unfold compositeTag at h
  split at h
  · rename_i found hfound
    cases h
    rw [tagFor?, Option.map_eq_some_iff] at hfound
    obtain ⟨u, hu, rfl⟩ := hfound
    rw [← Array.find?_toList] at hu
    exact ⟨u, List.mem_of_find?_eq_some hu, by simpa using List.find?_some hu, rfl⟩
  · cases h

/-- The event of a field whose type is known. -/
def fieldEvent (f : FieldDef) : ElementType → SchemaEvent
  | .primitive k =>
    if f.isArray then .primitiveArray f.name k f.dims f.preserve
    else .primitive f.name k f.preserve
  | .composite t => if f.isArray then .compositeArray f.name t f.dims else .composite f.name t

/-- **Taking in a field** adds one entry to the type being walked, which describes the field. -/
theorem step_fieldEvent {f : FieldDef} {element : ElementType} {owner : String}
    {fields : List FieldEntry} {outer : List (String × List FieldEntry)}
    (hd : d.pending = (owner, fields) :: outer) (helement : s.element? f = some element)
    (h : step (fieldEvent f element) d = .ok d') :
    ∃ g, s.FieldDescribed d.types f g ∧
      d' = { d with pending := (owner, fields ++ [g]) :: outer } := by
  -- a field that is no array is described with no dimensions
  have hscalar : f.isArray = false → f.dims = 0 := fun h ↦ by simpa [FieldDef.isArray] using h
  unfold fieldEvent at h
  cases element with
  | primitive k =>
    cases harray : f.isArray with
    | true =>
      simp only [harray, if_true, step, bind_eq_ok_iff, checkDims_eq_ok_iff,
        pushField_eq_ok hd] at h
      obtain ⟨_, ⟨hle, rfl⟩, h⟩ := h
      cases h
      exact ⟨_, ⟨rfl, hle, rfl, _, helement, ElementType.hasTag_primitive _ k⟩, rfl⟩
    | false =>
      simp only [harray, Bool.false_eq_true, if_false, step, pushField_eq_ok hd] at h
      cases h
      have hdims := hscalar harray
      exact ⟨_, ⟨rfl, by rw [hdims]; decide, by rw [hdims]; rfl, _, helement,
        ElementType.hasTag_primitive _ k⟩, rfl⟩
  | composite t =>
    cases harray : f.isArray with
    | true =>
      simp only [harray, if_true, step, bind_eq_ok_iff, checkDims_eq_ok_iff,
        pushField_eq_ok hd] at h
      obtain ⟨tag, htag, _, ⟨hle, rfl⟩, h⟩ := h
      cases h
      exact ⟨_, ⟨rfl, hle, rfl, _, helement, hasTag_of_compositeTag htag⟩, rfl⟩
    | false =>
      simp only [harray, Bool.false_eq_true, if_false, step, bind_eq_ok_iff,
        pushField_eq_ok hd] at h
      obtain ⟨tag, htag, h⟩ := h
      cases h
      have hdims := hscalar harray
      exact ⟨_, ⟨rfl, by rw [hdims]; decide, by rw [hdims]; rfl, _, helement,
        hasTag_of_compositeTag htag⟩, rfl⟩

/-- A field can be taken in if it has no more dimensions than are allowed, and its type has been
visited. -/
theorem exists_step_fieldEvent (f : FieldDef) (element : ElementType) {owner : String}
    {fields : List FieldEntry} {outer : List (String × List FieldEntry)}
    (hd : d.pending = (owner, fields) :: outer) (hdims : f.dims ≤ maxDimensions)
    (helement : ∀ t, element = .composite t → ∃ u ∈ d.types, u.name = t.name) :
    ∃ d', step (fieldEvent f element) d = .ok d' := by
  have hcheck : d.checkDims f.name f.dims = .ok (Int32.ofNat f.dims) :=
    checkDims_eq_ok_iff.2 ⟨hdims, rfl⟩
  unfold fieldEvent
  cases element with
  | primitive k =>
    cases f.isArray with
    | true => exact ⟨_, bind_eq_ok_iff.2 ⟨_, hcheck, pushField_eq_ok hd _⟩⟩
    | false => exact ⟨_, pushField_eq_ok hd _⟩
  | composite t =>
    obtain ⟨tag, htag⟩ : ∃ tag, d.compositeTag t = .ok tag := by
      obtain ⟨tag, hfind⟩ := Option.isSome_iff_exists.1
        (Decoder.isSome_tagFor?_iff.2 (helement t rfl))
      exact ⟨tag, by rw [compositeTag, hfind]⟩
    cases f.isArray with
    | true =>
      exact ⟨_, bind_eq_ok_iff.2 ⟨_, htag, bind_eq_ok_iff.2 ⟨_, hcheck, pushField_eq_ok hd _⟩⟩⟩
    | false => exact ⟨_, bind_eq_ok_iff.2 ⟨_, htag, pushField_eq_ok hd _⟩⟩

/-- A type that is being walked is finished, unless all tags are used up. -/
theorem finishType_cases {name : String} {fields : List FieldEntry}
    {outer : List (String × List FieldEntry)} (hd : d.pending = (name, fields) :: outer) :
    d.dictionary.lastTag = Int32.maxValue ∧ d.finishType = .error .overflow ∨
      ∃ dictionary, d.finishType = .ok ⟨dictionary, outer⟩ := by
  simp only [finishType, hd]
  rcases hregister : d.dictionary.register name with e | ⟨tag, registered⟩
  · obtain ⟨-, hlast, rfl⟩ := register_eq_error_iff.1 hregister
    exact .inl ⟨hlast, rfl⟩
  · obtain ⟨dictionary, hfields⟩ := exists_addFields fields (mem_of_register hregister)
    exact .inr ⟨dictionary, bind_eq_ok_iff.2 ⟨_, rfl, bind_eq_ok_iff.2 ⟨_, hfields, rfl⟩⟩⟩

/-- **Finishing a type** registers it with the entries that have been collected. -/
theorem extends_finishType {t : TypeDef} {fields : List FieldEntry}
    {outer : List (String × List FieldEntry)} (hd : Faithful s visited d)
    (hpending : d.pending = (t.name, fields) :: outer) (hmem : t ∈ s.types)
    (hnew : t.name ∉ visited)
    (hfields : List.Forall₂ (s.FieldDescribed d.types) t.fields fields)
    (h : d.finishType = .ok d') :
    Extends s visited d (t.name :: visited) d' ∧ d'.pending = outer := by
  have hlen := hd.length_types
  have hfresh : ∀ u ∈ d.types, u.name ≠ t.name := by
    rintro u hu hname
    exact hnew (hname ▸ hd.mem_iff.2 ⟨u, hu, rfl⟩)
  have htag : d.dictionary.lastTag + 1 = Schema.placeTag visited.length := by
    rw [hd.lastTag, Schema.last_add_one]
  rw [finishType, hpending] at h
  simp only [bind_eq_ok_iff] at h
  obtain ⟨⟨tag, dictionary⟩, hregister, e, he, h⟩ := h
  cases h
  -- the name is new, so there was room for one more tag
  obtain ⟨hfind, -⟩ | ⟨-, hroom, rfl, rfl⟩ := register_eq_ok_iff.1 hregister
  · rw [tagFor?_eq_none hfresh] at hfind
    cases hfind
  have hnumbered : Schema.Numbered (visited.length + 1) :=
    hd.numbered.succ_iff.2 (hd.lastTag ▸ hroom)
  have hlt : visited.length + 12 < 2 ^ 31 := Nat.lt_of_succ_le (Nat.succ_add _ 12 ▸ hnumbered)
  -- with a tag of its own, the entries go to the new type
  have hother : ∀ u ∈ d.dictionary.types.toList, u.tag ≠ d.dictionary.lastTag + 1 := by
    intro u hu
    obtain ⟨i, hi, hu'⟩ := hd.describes.exists_place (t := u) hu
    rw [hu', htag, ← hlen]
    exact Schema.placeTag_ne hi (hlen ▸ hlt)
  rw [addFields_push fields (t := ⟨d.dictionary.lastTag + 1, t.name, []⟩) hother] at he
  cases he
  have htypes : (d.dictionary.types.push ⟨d.dictionary.lastTag + 1, t.name, [] ++ fields⟩).toList =
      d.types ++ [⟨Schema.placeTag d.types.length, t.name, fields⟩] := by
    rw [Array.toList_push, hlen, ← htag]
    rfl
  refine ⟨⟨⟨?_, ?_, ?_, hnumbered, ?_, ?_⟩, List.suffix_cons _ _, ?_⟩, rfl⟩
  · show List.map TypeEntry.name (Array.toList _) = _
    rw [htypes, List.map_append, List.reverse_cons, ← hd.names]
    rfl
  · exact List.nodup_cons.2 ⟨hnew, hd.nodup⟩
  · exact List.forall_mem_cons.2 ⟨⟨t, hmem, rfl⟩, hd.declared⟩
  · show d.dictionary.lastTag + 1 = _
    rw [htag, Schema.placeTag_eq_last, List.length_cons]
  · show s.Describes (Array.toList _)
    rw [htypes]
    exact hd.describes.snoc hmem hfresh hfields
  · show d.types <+: Array.toList _
    rw [htypes]
    exact List.prefix_append _ _

/-! ### The walk -/

theorem listener_eq_ok_iff {event : SchemaEvent} {u : Unit} :
    listener event d = .ok u d' ↔ step event d = .ok d' := by
  unfold listener
  cases step event d <;> simp

/-- What a walk does that is entered from the types `walking`: it extends the draft, and visits none
of these types. -/
structure Outside (s : Schema) (walking visited : List String) (d : Draft) (visited' : List String)
    (d' : Draft) : Prop where
  ext : Extends s visited d visited' d'
  outside : ∀ n ∈ walking, n ∉ visited'

mutual

/-- **The walk over a type** registers it after the types that it refers to. -/
theorem outside_walkType {walking visited visited' : List String} {field : Option String}
    {t : TypeDef} {d d' : Draft}
    (hd : Faithful s visited d) (hwalking : ∀ n ∈ walking, n ∉ visited) (hmem : t ∈ s.types)
    (hentered : t.name ∉ walking) (hnew : t.name ∉ visited)
    (h : Trace.run listener (s.walkType walking field t visited) d = .ok visited' d') :
    Outside s walking visited d visited' d' ∧ d'.pending = d.pending ∧ t.name ∈ visited' := by
  rw [Schema.walkType] at h
  simp only [Trace.run_bind_eq_ok_iff, Trace.run_emit, listener_eq_ok_iff] at h
  obtain ⟨_, d₁, hbegin, visited₂, d₂, hfields, _, d₃, hend, hpure⟩ := h
  cases hbegin
  cases hpure
  -- the fields are walked with the type itself among those that must not be entered again
  obtain ⟨new, ⟨hext, hout⟩, hpending, hmatch⟩ := outside_walkFields
    (d := { d with pending := (t.name, []) :: d.pending }) (hd.congr rfl) rfl
    (List.forall_mem_cons.2 ⟨hnew, hwalking⟩) hfields
  obtain ⟨hfresh, hother⟩ := List.forall_mem_cons.1 hout
  obtain ⟨hfinish, hrestored⟩ := extends_finishType hext.faithful hpending hmem hfresh hmatch hend
  refine ⟨⟨?_, fun n hn ↦ ?_⟩, hrestored, List.mem_cons_self⟩
  · exact Extends.trans ⟨hext.faithful, hext.visited, hext.types⟩ hfinish
  · rw [List.mem_cons, not_or]
    exact ⟨fun heq ↦ hentered (heq ▸ hn), hother n hn⟩
  termination_by (s.countOutside (t.name :: walking), 1, 0)
  decreasing_by
    apply Prod.Lex.right
    apply Prod.Lex.left
    decide

/-- **The walk over fields** collects an entry for each of them. -/
theorem outside_walkFields {walking visited visited' : List String} {owner : TypeDef}
    {fields : List FieldDef} {d d' : Draft} {name : String} {done : List FieldEntry}
    {outer : List (String × List FieldEntry)} (hd : Faithful s visited d)
    (hpending : d.pending = (name, done) :: outer) (hwalking : ∀ n ∈ walking, n ∉ visited)
    (h : Trace.run listener (s.walkFields walking owner fields visited) d = .ok visited' d') :
    ∃ new, Outside s walking visited d visited' d' ∧ d'.pending = (name, done ++ new) :: outer ∧
      List.Forall₂ (s.FieldDescribed d'.types) fields new := by
  match fields with
  | [] =>
    rw [Schema.walkFields] at h
    cases h
    refine ⟨[], ⟨hd.refl, hwalking⟩, ?_, .nil⟩
    rw [List.append_nil, hpending]
  | f :: fs =>
    -- once `f` has been followed, its entry comes before those of the other fields
    have hcons : ∀ (element) {visited₁ d₁}, Outside s walking visited d visited₁ d₁ →
        d₁.pending = (name, done) :: outer → s.element? f = some element →
        Trace.run listener (do
          Trace.emit (fieldEvent f element)
          s.walkFields walking owner fs visited₁) d₁ = .ok visited' d' →
        ∃ new, Outside s walking visited d visited' d' ∧
          d'.pending = (name, done ++ new) :: outer ∧
            List.Forall₂ (s.FieldDescribed d'.types) (f :: fs) new := by
      intro element visited₁ d₁ hfollowed hd₁ helement hrun
      simp only [Trace.run_bind_eq_ok_iff, Trace.run_emit, listener_eq_ok_iff] at hrun
      obtain ⟨_, d₂, hevent, hrest⟩ := hrun
      obtain ⟨g, hg, rfl⟩ := step_fieldEvent hd₁ helement hevent
      obtain ⟨new, hothers, hpending', hmatch⟩ := outside_walkFields
        (d := { d₁ with pending := (name, done ++ [g]) :: outer })
        (hfollowed.ext.faithful.congr rfl) rfl hfollowed.outside hrest
      have hext : Extends s visited₁ d₁ visited' d' :=
        ⟨hothers.ext.faithful, hothers.ext.visited, hothers.ext.types⟩
      refine ⟨g :: new, ⟨hfollowed.ext.trans hext, hothers.outside⟩, ?_, ?_⟩
      · rw [hpending', List.append_assoc, List.singleton_append]
      · exact .cons (hg.mono hext.types.subset) hmatch
    rw [Schema.walkFields] at h
    split at h
    · rename_i k hresolve
      exact hcons (.primitive k) ⟨hd.refl, hwalking⟩ hpending (by rw [Schema.element?, hresolve]) h
    · rename_i t hresolve
      split at h
      · cases h
      · rename_i hentered
        rw [Trace.run_bind_eq_ok_iff] at h
        obtain ⟨visited₁, d₁, hwalk, hrest⟩ := h
        obtain ⟨hout, hd₁⟩ : Outside s walking visited d visited₁ d₁ ∧
            d₁.pending = d.pending := by
          split at hwalk
          · cases hwalk
            exact ⟨⟨hd.refl, hwalking⟩, rfl⟩
          · rename_i hnew
            have hmem := Schema.mem_of_resolve_eq_composite hresolve
            obtain ⟨hout, hd₁, -⟩ := outside_walkType hd hwalking hmem hentered hnew hwalk
            exact ⟨hout, hd₁⟩
        exact hcons (.composite t) hout (hd₁.trans hpending) (by rw [Schema.element?, hresolve])
          hrest
    · rename_i hresolve
      rw [Trace.run_bind_eq_ok_iff] at h
      obtain ⟨_, _, _, hfail⟩ := h
      cases hfail
  termination_by (s.countOutside walking, 0, fields.length)
  decreasing_by
    · apply Prod.Lex.right
      apply Prod.Lex.right
      simp
    · apply Prod.Lex.left
      exact Schema.countOutside_cons_lt hmem ‹_›

end

theorem faithful_empty (s : Schema) : Faithful s [] empty :=
  ⟨rfl, List.nodup_nil, fun _ h ↦ absurd h List.not_mem_nil,
    Schema.numbered_of_le_maxTypes (by decide), rfl, .nil⟩

end Draft

/-! ### The dictionary -/

/-- What is known of the dictionary of a schema. There are no more types in it than there are
tags. -/
structure OfSchema (s : Schema) (root : TypeDef) (d : Dictionary) : Prop where
  root : ∃ u ∈ d.types.toList, u.name = root.name
  numbered : Schema.Numbered d.types.size
  describes : s.Describes d.types.toList
  lastTag : d.lastTag = Int32.ofNat (11 + d.types.size)

theorem OfSchema.of_eq_ok {s : Schema} {root : TypeDef} {d : Dictionary} (hroot : root ∈ s.types)
    (h : ofSchema s root = .ok d) : OfSchema s root d := by
  unfold ofSchema at h
  split at h
  · cases h
  · rename_i u draft hwalk
    rw [Trace.outcomeFrom_eq_ok_iff, Schema.walk, Trace.run_bind_eq_ok_iff] at hwalk
    obtain ⟨visited, draft', hrun, hpure⟩ := hwalk
    cases hpure
    split at h
    · cases h
      obtain ⟨⟨hext, -⟩, -, hvisited⟩ := Draft.outside_walkType (Draft.faithful_empty s)
        (fun _ h ↦ absurd h List.not_mem_nil) hroot List.not_mem_nil List.not_mem_nil hrun
      obtain ⟨-, -, -, hnumbered, hlast, hdescribes⟩ := hext.faithful
      have hlen : draft.dictionary.types.size = visited.length := by
        rw [← hext.faithful.length_types, Draft.types, Array.length_toList]
      refine ⟨?_, ?_, hdescribes, ?_⟩
      · exact hext.faithful.mem_iff.1 hvisited
      · rw [hlen]
        exact hnumbered
      · rw [hlen]
        exact hlast
    · cases h

/-- The number of types can be stored. -/
theorem OfSchema.size_le_maxLength {s : Schema} {root : TypeDef} {d : Dictionary}
    (h : OfSchema s root d) : d.types.size ≤ maxLength := by
  have hn := h.numbered
  unfold Schema.Numbered at hn
  unfold maxLength
  omega

/-- The dictionary of a schema is that of its types. -/
theorem OfSchema.ofTypes_eq {s : Schema} {root : TypeDef} {d : Dictionary}
    (h : OfSchema s root d) : ofTypes d.types.toList = d := by
  have hlast := h.describes.lastTag_ofTypes (Array.length_toList ▸ h.numbered)
  have htypes : (ofTypes d.types.toList).types = d.types := Array.toList_inj.1 (toList_ofTypes _)
  rw [Array.length_toList, ← h.lastTag] at hlast
  generalize ofTypes d.types.toList = d' at hlast htypes
  obtain ⟨types, lastTag⟩ := d'
  cases hlast
  cases htypes
  rfl

end Dictionary

end GraphCodec
