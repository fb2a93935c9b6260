import GraphCodec.Proofs.HeaderCode

/-!
# Runs of operations on a dictionary

A dictionary is changed by registering a name, by adding a field to a type, and by reading a
dictionary section in its place (`Dictionary.Op`); what is refused leaves it as it was. It keeps a
list of types, a map of names and the last tag apart from each other. Whatever the order of the
operations, they stay in step: each name stands for one type, look-ups and registrations by name go
by it, and an unknown name gets a type of its own at the end of the list (`Indexed.Named`); each tag
stands for one type, and what comes next is greater than all tags (`Indexed.Tagged`).

A dictionary section may bring the greatest tag that there is, and nothing comes after it. So a run
comes to its end exactly as long as no unknown name is registered in this state
(`Indexed.sound_run`).
-/

namespace GraphCodec

namespace Dictionary

/-- An operation on a dictionary. -/
inductive Op where
  | register (name : String)
  | addField (tag : Tag) (f : FieldEntry)
  /-- Read a dictionary section in place of the dictionary. -/
  | load (c : Cursor)

/-- The tags in use. -/
def tags (d : Dictionary) : List Tag :=
  d.types.toList.map TypeEntry.tag

/-- The names in use. -/
def names (d : Dictionary) : List String :=
  d.types.toList.map TypeEntry.name

/-- The dictionary in which the types with a given tag have one more field. -/
def withField (d : Dictionary) (tag : Tag) (f : FieldEntry) : Dictionary :=
  ⟨d.types.map fun t ↦ if t.tag = tag then { t with fields := t.fields ++ [f] } else t, d.lastTag⟩

/-- Whether the tags of a dictionary are those of different composite types, and the last one is
known. -/
structure Numbered (d : Dictionary) : Prop where
  nodup_tags : d.tags.Nodup
  tag_mem : ∀ tag ∈ d.tags, tag.toInt ∈ Set.Icc 12 (2 ^ 31 - 1)
  le_lastTag : ∀ tag ∈ d.tags, tag ≤ d.lastTag
  lastTag_mem : d.lastTag = firstCompositeTag - 1 ∨ d.lastTag ∈ d.tags

namespace Indexed

/-- The dictionary after an operation. A field that is refused and a section that is refused leave
it as it was; a name without a tag ends the run. -/
def apply (op : Op) (x : Indexed) : Except Fault Indexed :=
  match op with
  | .register name => (x.register name).map Prod.snd
  | .addField tag f => .ok ((x.addField tag f).toOption.getD x)
  | .load c => .ok ((readHeader c).toOption.elim x Prod.fst)

/-- The dictionary after some operations, of which the first is on the dictionary without types. -/
def run (ops : List Op) : Except Fault Indexed :=
  ops.foldlM (fun x op ↦ x.apply op) empty

/-- Whether names determine the types of a dictionary, for look-ups and for registration. -/
structure Named (x : Indexed) : Prop where
  nodup_names : x.names.Nodup
  tagFor_eq_some_iff : ∀ name tag, x.tagFor? name = some tag ↔
    ∃ t ∈ x.types.toList, t.name = name ∧ t.tag = tag
  tagFor_eq_none_iff : ∀ name, x.tagFor? name = none ↔ name ∉ x.names
  register_known : ∀ t ∈ x.types.toList, x.register t.name = .ok (t.tag, x)
  register_unknown : ∀ name, name ∉ x.names → Int32.maxValue ∉ x.tags →
    x.register name = .ok (x.lastTag + 1, x.push ⟨x.lastTag + 1, name, []⟩ (x.lastTag + 1))
  /-- Only for want of a tag, an unknown name is not registered. -/
  register_full : ∀ name, name ∉ x.names → Int32.maxValue ∈ x.tags →
    x.register name = .error .overflow

/-- Whether tags determine the types of a dictionary, for look-ups and for the addition of fields,
and the tag that comes next is greater than all. -/
structure Tagged (x : Indexed) : Prop extends Numbered x.toDictionary where
  lt_next : Int32.maxValue ∉ x.tags → ∀ tag ∈ x.tags, tag < x.lastTag + 1
  descriptor_eq_some_iff : ∀ tag t, x.descriptor? tag = some t ↔ t ∈ x.types.toList ∧ t.tag = tag
  addField_known : ∀ tag ∈ x.tags, ∀ f,
    x.addField tag f = .ok ⟨x.toDictionary.withField tag f, x.byName⟩
  addField_unknown : ∀ tag, tag ∉ x.tags → ∀ f,
    x.addField tag f = .error (.unregisteredType s!"tag {tag.toInt}")

/-- Whether no operation of a run registers an unknown name when the greatest tag is in use. -/
def HasRoom (ops : List Op) : Prop :=
  ∀ past name x, past ++ [.register name] <+: ops → run past = .ok x →
    Int32.maxValue ∈ x.tags → name ∈ x.names

end Indexed

variable {d d' : Dictionary}

/-! ### Names -/

theorem mem_names_iff {name : String} : name ∈ d.names ↔ ∃ t ∈ d.types.toList, t.name = name :=
  List.mem_map

theorem mem_tags_iff {tag : Tag} : tag ∈ d.tags ↔ ∃ t ∈ d.types.toList, t.tag = tag :=
  List.mem_map

/-- A name is in use exactly if the search finds it. -/
theorem tagFor?_eq_none_iff {name : String} : d.tagFor? name = none ↔ name ∉ d.names := by
  rw [mem_names_iff, ← Decoder.isSome_tagFor?_iff, Option.not_isSome_iff_eq_none]

/-- The names of a dictionary with one more type. -/
theorem names_push (t : TypeEntry) (last : Tag) :
    names ⟨d.types.push t, last⟩ = d.names ++ [t.name] := by
  rw [names, Array.toList_push, List.map_append]
  rfl

/-- The tags of a dictionary with one more type. -/
theorem tags_push (t : TypeEntry) (last : Tag) :
    tags ⟨d.types.push t, last⟩ = d.tags ++ [t.tag] := by
  rw [tags, Array.toList_push, List.map_append]
  rfl

/-! ### Tags -/

theorem toInt_succ {tag : Tag} (h : tag ≠ Int32.maxValue) : (tag + 1).toInt = tag.toInt + 1 := by
  have hle : tag.toInt ≤ 2 ^ 31 - 1 := tag.toInt_le
  have hge : -2 ^ 31 ≤ tag.toInt := tag.le_toInt
  have hne : tag.toInt ≠ 2 ^ 31 - 1 := fun htag ↦ h (Int32.toInt_inj.1 htag)
  rw [Int32.toInt_add, Int.bmod_eq_of_le]
  · rfl
  · show -(2 ^ 32 / 2) ≤ tag.toInt + 1
    omega
  · show tag.toInt + 1 < (2 ^ 32 + 1) / 2
    omega

/-- A field goes to the type with its tag, if no other type has it. -/
theorem addField_of_mem (h : d.tags.Nodup) {tag : Tag} (htag : tag ∈ d.tags) (f : FieldEntry) :
    d.addField tag f = .ok (d.withField tag f) := by
  obtain ⟨t, ht, rfl⟩ := mem_tags_iff.1 htag
  obtain ⟨i, hi⟩ : ∃ i, d.types.findIdx? (fun u ↦ u.tag == t.tag) = some i := by
    rw [← Option.isSome_iff_exists, Array.findIdx?_isSome, Array.any_eq_true']
    exact ⟨t, Array.mem_toList_iff.1 ht, beq_self_eq_true _⟩
  obtain ⟨hlt, hfound, -⟩ := Array.findIdx?_eq_some_iff_getElem.1 hi
  -- the place that is found is the only one with this tag
  have hplace : ∀ j (hj : j < d.types.size), i = j ↔ d.types[j].tag = t.tag := by
    intro j hj
    refine ⟨fun hij ↦ ?_, fun hj' ↦ ?_⟩
    · subst hij
      exact beq_iff_eq.1 hfound
    · have hi' : i < d.tags.length := by simpa [tags] using hlt
      have hj'' : j < d.tags.length := by simpa [tags] using hj
      have hsame : d.tags[i] = d.tags[j] := by simpa [tags, hj'] using hfound
      exact h.getElem_inj_iff.1 hsame
  rw [addField, hi]
  refine congrArg (fun types ↦ Except.ok (Dictionary.mk types d.lastTag)) ?_
  refine Array.ext (by rw [Array.size_modify, Array.size_map]) fun j hj hj' ↦ ?_
  rw [Array.getElem_modify, Array.getElem_map]
  exact if_congr (hplace j (by rwa [Array.size_map] at hj')) rfl rfl

theorem addField_of_notMem {tag : Tag} (h : tag ∉ d.tags) (f : FieldEntry) :
    d.addField tag f = .error (.unregisteredType s!"tag {tag.toInt}") := by
  have hnone : d.types.findIdx? (fun t ↦ t.tag == tag) = none := by
    rw [Array.findIdx?_eq_none_iff]
    intro t ht
    exact beq_eq_false_iff_ne.2 fun htag ↦ h (mem_tags_iff.2 ⟨t, Array.mem_toList_iff.2 ht, htag⟩)
  rw [addField, hnone]

/-- The state of a dictionary in which a run begins. -/
theorem numbered_empty : Numbered empty where
  nodup_tags := List.nodup_nil
  tag_mem _ h := absurd h List.not_mem_nil
  le_lastTag _ h := absurd h List.not_mem_nil
  lastTag_mem := .inl rfl

namespace Numbered

/-- Only the tags in use matter. -/
theorem congr (h : d.Numbered) (htags : d'.tags = d.tags) (hlast : d'.lastTag = d.lastTag) :
    d'.Numbered := by
  refine ⟨?_, ?_, ?_, ?_⟩
  · rw [htags]
    exact h.nodup_tags
  · rw [htags]
    exact h.tag_mem
  · rw [htags, hlast]
    exact h.le_lastTag
  · rw [htags, hlast]
    exact h.lastTag_mem

/-- A type with a tag of its own can be added, if the last tag keeps up. -/
theorem snoc (h : d.Numbered) {t : TypeEntry} {last : Tag} (hcomposite : firstCompositeTag ≤ t.tag)
    (hfresh : t.tag ∉ d.tags) (hle : d.lastTag ≤ last) (htag : t.tag ≤ last)
    (hlast : last = d.lastTag ∨ last = t.tag) : Numbered ⟨d.types.push t, last⟩ := by
  refine ⟨?_, ?_, ?_, ?_⟩
  · rw [tags_push, ← List.concat_eq_append]
    exact h.nodup_tags.concat hfresh
  · rw [tags_push, List.forall_mem_append, List.forall_mem_singleton]
    exact ⟨h.tag_mem, Int32.le_iff_toInt_le.1 hcomposite, t.tag.toInt_le⟩
  · rw [tags_push, List.forall_mem_append, List.forall_mem_singleton]
    exact ⟨fun tag hmem ↦ Int32.le_trans (h.le_lastTag tag hmem) hle, htag⟩
  · rw [tags_push, List.mem_append, List.mem_singleton]
    rcases hlast with rfl | rfl
    · exact h.lastTag_mem.imp_right .inl
    · exact .inr (.inr rfl)

/-- The next tag is greater than all in use, unless the greatest of all tags is in use. -/
theorem lt_next (h : d.Numbered) (hroom : d.lastTag ≠ Int32.maxValue) {tag : Tag}
    (htag : tag ∈ d.tags) : tag < d.lastTag + 1 := by
  have hle := Int32.le_iff_toInt_le.1 (h.le_lastTag tag htag)
  rw [Int32.lt_iff_toInt_lt, toInt_succ hroom]
  omega

theorem register (h : d.Numbered) (hroom : d.lastTag ≠ Int32.maxValue) (name : String) :
    Numbered ⟨d.types.push ⟨d.lastTag + 1, name, []⟩, d.lastTag + 1⟩ := by
  have hlast : 11 ≤ d.lastTag.toInt := by
    rcases h.lastTag_mem with hnone | hmem
    · rw [hnone]
      decide
    · exact Int.le_trans (by decide) (h.tag_mem _ hmem).1
  refine h.snoc ?_ (fun hmem ↦ ?_) ?_ (Int32.le_refl _) (.inr rfl)
  · rw [Int32.le_iff_toInt_le, toInt_succ hroom]
    exact Int.add_le_add_right hlast 1
  · exact Int32.lt_irrefl (h.lt_next hroom hmem)
  · rw [Int32.le_iff_toInt_le, toInt_succ hroom]
    omega

end Numbered

/-- Types in order are numbered. -/
theorem numbered_ofTypes {ts : List TypeEntry} (h : Ordered ts) : (ofTypes ts).Numbered := by
  induction h with
  | nil => exact numbered_empty
  | @snoc earlier t _ follows ih =>
    have hfresh : t.tag ∉ (ofTypes earlier).tags := by
      rw [mem_tags_iff, toList_ofTypes]
      rintro ⟨u, hu, hsame⟩
      exact follows.tag_ne u hu hsame
    rw [ofTypes_snoc]
    show Numbered ⟨_, if (ofTypes earlier).lastTag ≤ t.tag then t.tag else _⟩
    split
    · rename_i hle
      exact ih.snoc follows.composite hfresh hle (Int32.le_refl _) (.inr rfl)
    · rename_i hle
      exact ih.snoc follows.composite hfresh (Int32.le_refl _)
        (Int32.le_of_lt (Int32.not_le.1 hle)) (.inl rfl)

/-- The greatest tag is in use as soon as it is the last one. -/
theorem Numbered.lastTag_eq_iff (h : d.Numbered) :
    d.lastTag = Int32.maxValue ↔ Int32.maxValue ∈ d.tags := by
  constructor
  · intro hlast
    rw [← hlast]
    refine h.lastTag_mem.resolve_left fun hnone ↦ ?_
    exact absurd (hlast.symm.trans hnone) (by decide)
  · intro hmem
    refine Int32.le_antisymm (Int32.le_iff_toInt_le.2 d.lastTag.toInt_le) (h.le_lastTag _ hmem)

/-! ### Operations -/

namespace Indexed

variable {x x' : Indexed}

/-- What every operation keeps. -/
structure Kept (x : Indexed) : Prop where
  mirrors : x.Mirrors x.toDictionary
  nodup_names : x.names.Nodup
  numbered : x.toDictionary.Numbered

theorem kept_empty : Kept empty :=
  ⟨mirrors_empty, List.nodup_nil, numbered_empty⟩

/-- **Registering** keeps the list, the map and the last tag in step. -/
theorem Kept.register (h : x.Kept) {name : String} {tag : Tag}
    (hregister : x.register name = .ok (tag, x')) : x'.Kept := by
  obtain ⟨e, hx, -⟩ | ⟨_, _, d', hx, hd, hmirrors⟩ := h.mirrors.register name
  · cases hx.symm.trans hregister
  · cases hx.symm.trans hregister
    obtain rfl := hmirrors.toDictionary_eq
    obtain ⟨-, hsame⟩ | ⟨hnone, hroom, -, hpush⟩ := register_eq_ok_iff.1 hd
    · exact ⟨hmirrors, hsame ▸ h.nodup_names, hsame ▸ h.numbered⟩
    · refine ⟨hmirrors, ?_, hpush ▸ h.numbered.register hroom name⟩
      rw [hpush, names_push, ← List.concat_eq_append]
      exact h.nodup_names.concat (tagFor?_eq_none_iff.1 hnone)

/-- **Adding a field** changes neither tags nor names. -/
theorem Kept.addField (h : x.Kept) {tag : Tag} {f : FieldEntry}
    (hadd : x.addField tag f = .ok x') : x'.Kept := by
  obtain ⟨e, hx, -⟩ | ⟨_, d', hx, hd, hmirrors⟩ := h.mirrors.addField tag f
  · cases hx.symm.trans hadd
  · cases hx.symm.trans hadd
    obtain rfl := hmirrors.toDictionary_eq
    obtain ⟨htags, hlast⟩ := map_addField TypeEntry.tag (fun _ _ ↦ rfl) hd
    have hnames : names _ = x.names := (map_addField TypeEntry.name (fun _ _ ↦ rfl) hd).1
    exact ⟨hmirrors, by rw [hnames]; exact h.nodup_names, h.numbered.congr htags hlast⟩

/-- **What is read** is a dictionary of types in order, whatever the bytes are. -/
theorem kept_of_readHeader {c c' : Cursor} (hread : readHeader c = .ok (x, c')) : x.Kept := by
  obtain ⟨e, hx, -⟩ | ⟨_, d', _, hx, hd, hmirrors⟩ := parallel_readHeader c
  · cases hx.symm.trans hread
  · cases hx.symm.trans hread
    obtain rfl := hmirrors.toDictionary_eq
    obtain ⟨hordered, bs, hbytes, hrest, -⟩ := headerBytes_of_readHeader hd
    -- reading the same bytes again gives the dictionary of the types that were read
    have hagain := (readsWhen_headerBytes hbytes hordered).reads (wellFormed_of_readHeader hd)
      c'.rest c.position
    rw [← hrest, ← eq_before, hd] at hagain
    have hlist : x.toDictionary = ofTypes x.types.toList :=
      congrArg Prod.fst (Except.ok.inj hagain)
    exact ⟨hmirrors, hordered.nodup_map TypeEntry.Follows.name_ne,
      hlist ▸ numbered_ofTypes hordered⟩

/-- **Every operation** that does not end the run keeps the list, the map and the last tag in
step. -/
theorem Kept.apply (h : x.Kept) {op : Op} (happly : x.apply op = .ok x') : x'.Kept := by
  cases op with
  | register name =>
    obtain ⟨⟨tag, y⟩, hregister, rfl⟩ := map_eq_ok_iff.1 happly
    exact h.register hregister
  | addField tag f =>
    obtain rfl := Except.ok.inj happly
    rcases hadd : x.addField tag f with e | y
    · exact h
    · exact h.addField hadd
  | load c =>
    obtain rfl := Except.ok.inj happly
    rcases hread : readHeader c with e | ⟨y, c'⟩
    · exact h
    · exact kept_of_readHeader hread

/-! ### Runs -/

theorem run_snoc (ops : List Op) (op : Op) :
    run (ops ++ [op]) = run ops >>= fun x ↦ x.apply op := by
  rw [run, List.foldlM_append]
  exact bind_congr fun x ↦ bind_pure _

theorem kept_of_run {ops : List Op} (h : run ops = .ok x) : x.Kept := by
  induction ops using List.reverseRecOn generalizing x with
  | nil =>
    obtain rfl := Except.ok.inj h
    exact kept_empty
  | append_singleton ops op ih =>
    rw [run_snoc, bind_eq_ok_iff] at h
    obtain ⟨y, hy, happly⟩ := h
    exact (ih hy).apply happly

theorem Kept.named (h : x.Kept) : x.Named where
  nodup_names := h.nodup_names
  tagFor_eq_some_iff name tag := by
    rw [h.mirrors.tagFor?_eq]
    exact tagFor?_eq_some_iff_of_nodup h.nodup_names
  tagFor_eq_none_iff name := by
    rw [h.mirrors.tagFor?_eq]
    exact tagFor?_eq_none_iff
  register_known t ht := by
    rw [Indexed.register, h.mirrors.tagFor?_eq, tagFor?_eq_some h.nodup_names ht]
  register_unknown name hname hroom := by
    rw [Indexed.register, h.mirrors.tagFor?_eq, tagFor?_eq_none_iff.2 hname]
    exact if_neg (mt h.numbered.lastTag_eq_iff.1 hroom)
  register_full name hname hfull := by
    rw [Indexed.register, h.mirrors.tagFor?_eq, tagFor?_eq_none_iff.2 hname]
    exact if_pos (h.numbered.lastTag_eq_iff.2 hfull)

theorem Kept.tagged (h : x.Kept) : x.Tagged where
  toNumbered := h.numbered
  lt_next hroom _ := h.numbered.lt_next (mt h.numbered.lastTag_eq_iff.1 hroom)
  descriptor_eq_some_iff tag t := by
    refine ⟨mem_of_descriptor?_eq_some, ?_⟩
    rintro ⟨ht, rfl⟩
    exact descriptor?_eq_some h.numbered.nodup_tags ht
  addField_known _ htag f := by
    rw [Indexed.addField, addField_of_mem h.numbered.nodup_tags htag]
    rfl
  addField_unknown _ htag f := by
    rw [Indexed.addField, addField_of_notMem htag]
    rfl

/-- An operation ends a run exactly if it registers an unknown name and there is no tag for it. -/
theorem Kept.apply_eq_error_iff (h : x.Kept) {op : Op} {e : Fault} :
    x.apply op = .error e ↔ e = .overflow ∧
      ∃ name, op = .register name ∧ Int32.maxValue ∈ x.tags ∧ name ∉ x.names := by
  cases op with
  | register name =>
    have hnamed := h.named
    by_cases hname : name ∈ x.names
    · obtain ⟨t, ht, rfl⟩ := mem_names_iff.1 hname
      simp [Indexed.apply, hnamed.register_known t ht, Except.map, hname]
    · by_cases hfull : Int32.maxValue ∈ x.tags
      · simp [Indexed.apply, hnamed.register_full name hname hfull, Except.map, hname, hfull,
          eq_comm]
      · simp [Indexed.apply, hnamed.register_unknown name hname hfull, Except.map, hfull]
  | addField tag f => simp [Indexed.apply]
  | load c => simp [Indexed.apply]

/-- **Which runs come to their end.** -/
theorem exists_run_iff {ops : List Op} : (∃ x, run ops = .ok x) ↔ HasRoom ops := by
  induction ops using List.reverseRecOn with
  | nil =>
    refine ⟨fun _ past name x hpast ↦ ?_, fun _ ↦ ⟨empty, rfl⟩⟩
    exact absurd hpast.length_le (by simp)
  | append_singleton ops op ih =>
    constructor
    · rintro ⟨x, hx⟩ past name y hpast hy hfull
      rw [run_snoc, bind_eq_ok_iff] at hx
      obtain ⟨z, hz, happly⟩ := hx
      obtain hlast | hbefore := List.prefix_concat_iff.1 hpast
      · obtain ⟨rfl, hop⟩ := List.append_inj' hlast rfl
        obtain rfl := Except.ok.inj (hy.symm.trans hz)
        by_contra hname
        have herror := (kept_of_run hy).apply_eq_error_iff.2
          ⟨rfl, name, (List.singleton_inj.1 hop).symm, hfull, hname⟩
        cases happly.symm.trans herror
      · exact ih.1 ⟨z, hz⟩ past name y hbefore hy hfull
    · intro hroom
      obtain ⟨x, hx⟩ := ih.2 fun past name y hpast ↦
        hroom past name y (hpast.trans (List.prefix_append _ _))
      rcases happly : x.apply op with e | x'
      · obtain ⟨-, name, rfl, hfull, hname⟩ := (kept_of_run hx).apply_eq_error_iff.1 happly
        exact absurd (hroom ops name x (List.prefix_refl _) hx hfull) hname
      · exact ⟨x', by rw [run_snoc, bind_eq_ok_iff]; exact ⟨x, hx, happly⟩⟩

/-- **Dictionaries after any run.** Names determine types, and so do tags, at every point that a run
reaches; and it comes to its end exactly if no unknown name is registered when the greatest tag is
in use, which is the only way for it to break off. -/
theorem sound_run (ops : List Op) : (∀ x, run ops = .ok x → x.Named ∧ x.Tagged) ∧
    ((∃ x, run ops = .ok x) ↔ HasRoom ops) ∧ ∀ e, run ops = .error e → e = .overflow := by
  refine ⟨fun x hx ↦ ⟨(kept_of_run hx).named, (kept_of_run hx).tagged⟩, exists_run_iff, ?_⟩
  induction ops using List.reverseRecOn with
  | nil =>
    intro e h
    cases h
  | append_singleton ops op ih =>
    intro e h
    rw [run_snoc] at h
    rcases hrun : run ops with e' | x
    · rw [hrun] at h
      cases h
      exact ih e hrun
    · rw [hrun] at h
      exact ((kept_of_run hrun).apply_eq_error_iff.1 h).1

/-- A dictionary section from elsewhere, with one type, `A`. -/
def foreignHeader (tag : Tag) : List UInt8 :=
  headerForm ⟨#[⟨tag, "A", []⟩], tag⟩

/-- A name that is known, a new one, a field for its type and one for a type that there is not. -/
def foreignRun : List Op :=
  [.load (.ofBytes (foreignHeader 40)), .register "A", .register "B", .addField 41 ⟨"a", 40, 2⟩,
    .addField 13 ⟨"a", 40, 2⟩]

/-- The run comes to its end, with the new type after the one that was read. -/
theorem sound_run_foreign : HasRoom foreignRun ∧ ∃ x, run foreignRun = .ok x ∧
    x.toDictionary = ⟨#[⟨40, "A", []⟩, ⟨41, "B", [⟨"a", 40, 2⟩]⟩], 41⟩ ∧
    x.tagFor? "B" = some 41 ∧ x.tagFor? "C" = none ∧ x.Named ∧ x.Tagged := by
  have hshown : ((run foreignRun).map fun x ↦ (x.toDictionary, x.tagFor? "B", x.tagFor? "C")) =
      .ok (⟨#[⟨40, "A", []⟩, ⟨41, "B", [⟨"a", 40, 2⟩]⟩], 41⟩, some 41, none) := by cbv
  obtain ⟨x, hx, hparts⟩ := map_eq_ok_iff.1 hshown
  obtain ⟨htypes, hfind⟩ := Prod.mk.inj hparts
  obtain ⟨hknown, hnone⟩ := Prod.mk.inj hfind
  obtain ⟨hsound, hroom, -⟩ := sound_run foreignRun
  exact ⟨hroom.1 ⟨x, hx⟩, x, hx, htypes, hknown, hnone, hsound x hx⟩

/-- A new name for a dictionary in which the greatest tag is in use. -/
def greatestRun : List Op :=
  [.load (.ofBytes (foreignHeader Int32.maxValue)), .register "B"]

/-- There is a dictionary that was read, and in which an unknown name is not registered. -/
theorem not_registered_greatest : ∃ x, run (greatestRun.take 1) = .ok x ∧
    x.toDictionary = ⟨#[⟨Int32.maxValue, "A", []⟩], Int32.maxValue⟩ ∧ "B" ∉ x.names ∧
    x.register "B" = .error .overflow ∧ run greatestRun = .error .overflow := by
  have hshown : ((run (greatestRun.take 1)).map Indexed.toDictionary) =
      .ok ⟨#[⟨Int32.maxValue, "A", []⟩], Int32.maxValue⟩ := by cbv
  obtain ⟨x, hx, htypes⟩ := map_eq_ok_iff.1 hshown
  have hname : "B" ∉ x.names := by
    rw [htypes]
    decide
  have htag : Int32.maxValue ∈ x.tags := by
    rw [htypes]
    exact List.mem_singleton_self _
  have hregister := (kept_of_run hx).named.register_full "B" hname htag
  refine ⟨x, hx, htypes, hname, hregister, ?_⟩
  show run (greatestRun.take 1 ++ [.register "B"]) = _
  rw [run_snoc, hx]
  exact congrArg (Except.map Prod.snd) hregister

end Indexed

end Dictionary

end GraphCodec
