import GraphCodec.Proofs.Drafting

/-!
# Dictionaries with an index of names

A dictionary searches its types for a name. It can also keep the tags by name in a map beside the
types, and then whatever adds a type has to add to the map as well: registration, and the reader
of dictionary sections, which asks the map whether a name is there already. `Dictionary.Indexed`
is such a dictionary. Every operation leaves its map saying what the search says
(`Indexed.Mirrors`), so it registers, finds, reads and refuses the same as the dictionary without
the map.
-/

namespace GraphCodec

namespace Decoder

variable {α β γ δ : Type}

/-- Whether two decoders take the same bytes and fail alike, with results that are in relation
`R`. -/
def Parallel (R : α → β → Prop) (p : Decoder α) (q : Decoder β) : Prop :=
  ∀ c, (∃ e, p c = .error e ∧ q c = .error e) ∨
    ∃ a b c', p c = .ok (a, c') ∧ q c = .ok (b, c') ∧ R a b

theorem parallel_pure {R : α → β → Prop} {a : α} {b : β} (h : R a b) :
    Parallel R (pure a) (pure b) :=
  fun c ↦ .inr ⟨a, b, c, rfl, rfl, h⟩

/-- Both refuse for the same reason, and need to go on alike only where they do not. -/
theorem parallel_unless {R : α → β → Prop} {bad : Prop} [Decidable bad] (e : DataFault)
    {p : Decoder α} {q : Decoder β} (h : ¬bad → Parallel R p q) :
    Parallel R (if bad then fail e else p) (if bad then fail e else q) := by
  split_ifs with hbad
  · exact fun _ ↦ .inl ⟨.data e, rfl, rfl⟩
  · exact h hbad

theorem parallel_self (p : Decoder α) : Parallel Eq p p := by
  intro c
  rcases hp : p c with e | ⟨a, c'⟩
  · exact .inl ⟨e, rfl, rfl⟩
  · exact .inr ⟨a, a, c', rfl, rfl, rfl⟩

/-- Decoders that run in parallel do so one after the other. -/
theorem Parallel.bind {R : α → β → Prop} {S : γ → δ → Prop} {p : Decoder α} {q : Decoder β}
    {f : α → Decoder γ} {g : β → Decoder δ} (h : Parallel R p q)
    (hnext : ∀ a b, R a b → Parallel S (f a) (g b)) : Parallel S (p >>= f) (q >>= g) := by
  intro c
  rw [bind_apply, bind_apply]
  obtain ⟨e, hp, hq⟩ | ⟨a, b, c', hp, hq, hab⟩ := h c
  · rw [hp, hq]
    exact .inl ⟨e, rfl, rfl⟩
  · rw [hp, hq]
    exact hnext a b hab c'

/-- The same step before decoders that go on alike. -/
theorem Parallel.after {S : γ → δ → Prop} (p : Decoder α) {f : α → Decoder γ}
    {g : α → Decoder δ} (hnext : ∀ a, Parallel S (f a) (g a)) :
    Parallel S (p >>= f) (p >>= g) :=
  (parallel_self p).bind fun a _ hab ↦ hab ▸ hnext a

end Decoder

namespace Dictionary

/-- Fields have no part in a search for names. -/
theorem tagFor?_addField {d d' : Dictionary} {tag : Tag} {f : FieldEntry}
    (h : d.addField tag f = .ok d') (name : String) : d'.tagFor? name = d.tagFor? name := by
  have hsearch (e : Dictionary) : e.tagFor? name =
      ((e.types.toList.map fun t ↦ (t.name, t.tag)).find? fun entry ↦ entry.1 == name).map
        Prod.snd := by
    rw [tagFor?, List.find?_map, Option.map_map, ← Array.find?_toList]
    rfl
  rw [hsearch, hsearch, (map_addField (fun t ↦ (t.name, t.tag)) (fun _ _ ↦ rfl) h).1]

/-- A dictionary with a map from the names of its types to their tags. -/
structure Indexed extends Dictionary where
  byName : Std.TreeMap String Tag

namespace Indexed

open Decoder

/-! ### Operations -/

/-- The dictionary without types. -/
def empty : Indexed :=
  ⟨Dictionary.empty, ∅⟩

/-- The dictionary with one more type, which the map knows. -/
def push (x : Indexed) (t : TypeEntry) (last : Tag) : Indexed :=
  ⟨⟨x.types.push t, last⟩, x.byName.insert t.name t.tag⟩

/-- The tag of the type with a given name, which the map knows. -/
def tagFor? (x : Indexed) (name : String) : Option Tag :=
  x.byName[name]?

/-- Register a type by name; a type that the map knows already keeps its tag. -/
def register (x : Indexed) (name : String) : Except Fault (Tag × Indexed) :=
  match x.tagFor? name with
  | some tag => .ok (tag, x)
  | none =>
    if x.lastTag = Int32.maxValue then .error .overflow
    else .ok (x.lastTag + 1, x.push ⟨x.lastTag + 1, name, []⟩ (x.lastTag + 1))

/-- Add a field to the first type with a given tag; the map is not concerned. -/
def addField (x : Indexed) (tag : Tag) (f : FieldEntry) : Except Fault Indexed :=
  (x.toDictionary.addField tag f).map fun d ↦ ⟨d, x.byName⟩

/-- Read a type and add it to those listed before; names that are taken are found in the map. -/
def readType (known : Indexed) : Decoder Indexed := do
  let tag ← Decoder.int32
  if tag < firstCompositeTag then Decoder.fail (.reservedTag tag)
  else
    let name ← Decoder.text
    let count ← Decoder.length minFieldWidth
    if maxFields < count then Decoder.fail (.tooManyFields name count)
    else
      let fields ← Decoder.times count (readField known.toDictionary name)
      if known.byName.contains name || known.hasTag tag then
        Decoder.fail (.duplicateType name tag)
      else
        return known.push ⟨tag, name, fields⟩ (max known.lastTag tag)

/-- Read `n` types and add them to those listed before. -/
def readTypes : (n : Nat) → (known : Indexed) → Decoder Indexed
  | 0, known => pure known
  | n + 1, known => readType known >>= readTypes n

/-- Read a dictionary section. -/
def readHeader : Decoder Indexed := do
  let count ← Decoder.length minTypeWidth
  if maxTypes < count then Decoder.fail (.tooManyTypes count)
  else readTypes count empty

/-! ### The map and the search -/

/-- Whether a dictionary with a map is a given one, and finds the same by name. -/
structure Mirrors (x : Indexed) (d : Dictionary) : Prop where
  toDictionary_eq : x.toDictionary = d
  tagFor?_eq : ∀ name, x.tagFor? name = d.tagFor? name

variable {x : Indexed} {d : Dictionary}

theorem mirrors_empty : Mirrors empty Dictionary.empty where
  toDictionary_eq := rfl
  tagFor?_eq _ := Std.TreeMap.getElem?_emptyc

/-- **A new type** is found by its name, and all others as before. -/
theorem Mirrors.push (h : x.Mirrors d) {t : TypeEntry} (hnew : d.tagFor? t.name = none)
    (last : Tag) : (x.push t last).Mirrors ⟨d.types.push t, last⟩ := by
  obtain ⟨rfl, hknown⟩ := h
  refine ⟨rfl, fun name ↦ ?_⟩
  have hsearch : Dictionary.tagFor? ⟨x.types.push t, last⟩ name =
      (x.toDictionary.tagFor? name).or (if t.name = name then some t.tag else none) := by
    rw [Dictionary.tagFor?, Array.find?_push, Option.map_or, apply_ite (Option.map TypeEntry.tag)]
    simp only [beq_iff_eq, Option.map_some, Option.map_none, Dictionary.tagFor?]
  have hold : x.byName[name]? = x.toDictionary.tagFor? name := hknown name
  rw [hsearch, Indexed.push, Indexed.tagFor?, Std.TreeMap.getElem?_insert, hold]
  by_cases hname : t.name = name
  · subst hname
    rw [if_pos Std.ReflCmp.compare_self, hnew, if_pos rfl, Option.none_or]
  · rw [if_neg (mt Std.LawfulEqCmp.eq_of_compare hname), if_neg hname, Option.or_none]

/-- A name is registered in both, with the same tag, or in neither. -/
theorem Mirrors.register (h : x.Mirrors d) (name : String) :
    (∃ e, x.register name = .error e ∧ d.register name = .error e) ∨
      ∃ tag x' d', x.register name = .ok (tag, x') ∧ d.register name = .ok (tag, d') ∧
        x'.Mirrors d' := by
  have hlast : x.lastTag = d.lastTag := by rw [h.toDictionary_eq]
  rw [Indexed.register, h.tagFor?_eq, Dictionary.register]
  rcases hsearch : d.tagFor? name with _ | tag
  · rw [hlast]
    by_cases hfull : d.lastTag = Int32.maxValue
    · exact .inl ⟨.overflow, if_pos hfull, if_pos hfull⟩
    · exact .inr ⟨_, _, _, if_neg hfull, if_neg hfull, h.push hsearch _⟩
  · exact .inr ⟨tag, x, d, rfl, rfl, h⟩

/-- A field is added to both or to neither. -/
theorem Mirrors.addField (h : x.Mirrors d) (tag : Tag) (f : FieldEntry) :
    (∃ e, x.addField tag f = .error e ∧ d.addField tag f = .error e) ∨
      ∃ x' d', x.addField tag f = .ok x' ∧ d.addField tag f = .ok d' ∧ x'.Mirrors d' := by
  rw [Indexed.addField, h.toDictionary_eq]
  rcases hadd : d.addField tag f with e | d'
  · exact .inl ⟨e, rfl, rfl⟩
  · exact .inr ⟨⟨d', x.byName⟩, d', rfl, rfl, rfl,
      fun name ↦ (h.tagFor?_eq name).trans (tagFor?_addField hadd name).symm⟩

/-! ### Reading -/

/-- **One type is read alike**: the map refuses the names that the search refuses. -/
theorem Mirrors.readType (h : x.Mirrors d) : Parallel Mirrors x.readType d.readType := by
  obtain rfl := h.toDictionary_eq
  have htaken (name : String) : x.byName.contains name = (x.toDictionary.tagFor? name).isSome := by
    rw [Std.TreeMap.contains_eq_isSome_getElem?, ← h.tagFor?_eq, Indexed.tagFor?]
  unfold Indexed.readType Dictionary.readType
  simp only [htaken]
  refine .after _ fun tag ↦ parallel_unless _ fun _ ↦ ?_
  refine .after _ fun name ↦ .after _ fun count ↦ parallel_unless _ fun _ ↦ ?_
  refine .after _ fun fields ↦ parallel_unless _ fun hfresh ↦ ?_
  rw [Bool.or_eq_true, not_or, Option.not_isSome_iff_eq_none] at hfresh
  exact parallel_pure (h.push hfresh.1 _)

/-- Types are read into both dictionaries alike. -/
theorem Mirrors.readTypes (h : x.Mirrors d) (n : Nat) :
    Parallel Mirrors (Indexed.readTypes n x) (Dictionary.readTypes n d) := by
  induction n generalizing x d with
  | zero => exact parallel_pure h
  | succ n ih =>
    rw [readTypes_succ]
    exact h.readType.bind fun _ _ h' ↦ ih h'

/-- **The section is read into both alike**, or refused by both. -/
theorem parallel_readHeader : Parallel Mirrors Indexed.readHeader Dictionary.readHeader := by
  unfold Indexed.readHeader Dictionary.readHeader
  exact .after _ fun count ↦ parallel_unless _ fun _ ↦ mirrors_empty.readTypes count

/-- Wherever a section is read, it is read with a map as well. -/
theorem exists_readHeader {c c' : Cursor} (h : Dictionary.readHeader c = .ok (d, c')) :
    ∃ x, Indexed.readHeader c = .ok (x, c') ∧ x.Mirrors d := by
  obtain ⟨e, -, hfail⟩ | ⟨x, _, _, hx, hd, hmirrors⟩ := parallel_readHeader c
  · cases h.symm.trans hfail
  · cases h.symm.trans hd
    exact ⟨x, hx, hmirrors⟩

end Indexed

end Dictionary

end GraphCodec
