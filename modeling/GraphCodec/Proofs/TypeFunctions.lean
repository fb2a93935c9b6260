import GraphCodec.Proofs.FieldCode
import GraphCodec.Proofs.WalkEvents

/-!
# Which schemas have code

What a generator makes of a type depends on nothing but its fields and what they resolve to
(`TypeCode.ofType`), and the files of types come in the order in which the walk lists the types
(`Takes`). Whether it accepts what it is told is decided by the names alone: those of the types have
to give distinct identifiers and those of the fields have to be identifiers, and arrays of
characters have one dimension (`Schema.Codable`). So there is code for a root exactly if there is a
dictionary for it and what it reaches is codable (`exists_generate_iff`).
-/

namespace GraphCodec

open Dictionary.Draft (fieldEvent)

namespace Trace

variable {ε σ : Type} {listen : Listener ε σ} {s s'' : σ}

theorem deliver_cons_eq_ok_iff {event : ε} {events : List ε} :
    deliver listen (event :: events) s = .ok () s'' ↔
      ∃ s', listen event s = .ok () s' ∧ deliver listen events s' = .ok () s'' := by
  cases h : listen event s <;> simp [deliver, h]

/-- Events are delivered one after the other. -/
theorem deliver_append_eq_ok_iff {events events' : List ε} :
    deliver listen (events ++ events') s = .ok () s'' ↔
      ∃ s', deliver listen events s = .ok () s' ∧ deliver listen events' s' = .ok () s'' := by
  rw [deliver_append, Listener.bind_eq_ok_iff]
  exact ⟨fun ⟨_, s', h⟩ ↦ ⟨s', h⟩, fun ⟨s', h⟩ ↦ ⟨(), s', h⟩⟩

/-- A walk that ends well is heard to its end if its events are. -/
theorem run_eq_ok_iff {events : List ε} :
    run listen ⟨events, .ok ()⟩ s = .ok () s'' ↔ deliver listen events s = .ok () s'' := by
  unfold run
  dsimp only
  cases deliver listen events s <;> simp

end Trace

/-- The types that an event names. -/
def SchemaEvent.types : SchemaEvent → List TypeDef
  | .beginType _ t | .composite _ t | .compositeArray _ t _ => [t]
  | .endType _ | .primitive .. | .primitiveArray .. | .unknown .. => []

theorem SchemaEvent.types_fieldEvent (f : FieldDef) (element : ElementType) :
    (fieldEvent f element).types = element.types := by
  cases element <;> cases h : f.isArray <;> simp [fieldEvent, h, types, ElementType.types]

theorem Schema.types_typeEvents (field : Option String) (t : TypeDef) (inner : List SchemaEvent) :
    (typeEvents field t inner).flatMap SchemaEvent.types =
      t :: inner.flatMap SchemaEvent.types := by
  simp [typeEvents, SchemaEvent.types]

namespace Matlab

/-! ### Identifiers -/

/-- Whether a character may be part of an identifier. -/
def IsWordPart (c : Char) : Prop :=
  c.isAlphanum = true ∨ c = '_'

theorem utf8Size_of_isWordPart {c : Char} (h : IsWordPart c) : c.utf8Size = 1 := by
  rw [Char.utf8Size_eq_one_iff]
  rcases h with h | rfl
  · simp only [Char.isAlphanum, Char.isAlpha, Char.isUpper, Char.isLower, Char.isDigit,
      Bool.or_eq_true, Bool.and_eq_true, decide_eq_true_eq, ge_iff_le,
      UInt32.le_iff_toNat_le] at h ⊢
    simp at h ⊢
    omega
  · decide

/-- Characters of words have one byte each. -/
theorem size_of_forall_isWordPart {s : String} (h : ∀ c ∈ s.toList, IsWordPart c) :
    Utf8.size s = s.length := by
  have key : ∀ cs : List Char, (∀ c ∈ cs, IsWordPart c) → String.utf8Len cs = cs.length := by
    intro cs hcs
    induction cs with
    | nil => rfl
    | cons c cs ih =>
      obtain ⟨hc, hcs⟩ := List.forall_mem_cons.1 hcs
      rw [String.utf8Len_cons, ih hcs, utf8Size_of_isWordPart hc, List.length_cons]
  have hlist := key s.toList h
  rwa [← String.utf8ByteSize_ofList, String.ofList_toList, String.length_toList] at hlist

/-- **An identifier** begins with an ASCII letter, has no parts but letters, digits and underscores,
and no more than 63 of them. -/
theorem isIdentifier_iff {s : String} : isIdentifier s = true ↔
    (∃ c ∈ s.toList.head?, c.isAlpha = true) ∧ (∀ c ∈ s.toList, IsWordPart c) ∧ s.length ≤ 63 := by
  have halpha {c : Char} (h : c.isAlpha = true) : IsWordPart c :=
    .inl (by rw [Char.isAlphanum, h, Bool.true_or])
  unfold isIdentifier
  split
  · rename_i heq
    simp [heq]
  · rename_i c cs heq
    have hsize : (∀ c ∈ s.toList, IsWordPart c) → Utf8.size s = s.length :=
      size_of_forall_isWordPart
    simp only [heq, List.forall_mem_cons] at hsize ⊢
    simp only [Bool.and_eq_true, List.all_eq_true, Bool.or_eq_true, beq_iff_eq, maxIdentifier]
    constructor
    · rintro ⟨⟨hc, hcs⟩, hle⟩
      refine ⟨⟨c, rfl, hc⟩, ⟨halpha hc, hcs⟩, ?_⟩
      rw [← hsize ⟨halpha hc, hcs⟩]
      exact of_decide_eq_true hle
    · rintro ⟨⟨_, ⟨⟩, hc⟩, hcs, hle⟩
      refine ⟨⟨hc, hcs.2⟩, ?_⟩
      rw [hsize hcs]
      exact decide_eq_true hle

namespace Generator

variable {g g' g'' : Generator} {c : TypeCode} {cs : List TypeCode} {t : TypeDef}
  {ts : List TypeDef}

/-! ### What a generator does when it is told something -/

/-- A type is begun with its own name. -/
theorem listener_beginType_eq_ok_iff {field : Option String} :
    listener (.beginType field t) g = .ok () g' ↔ ∃ g₁, identFor t g = .ok t.simpleName g₁ ∧
      g' = { g₁ with pending := .start t t.simpleName :: g₁.pending } := by
  rw [listener, Listener.bind_eq_ok_iff]
  constructor
  · rintro ⟨ident, g₁, hident, hmodify⟩
    obtain ⟨rfl, -⟩ := named_of_identFor hident
    cases hmodify
    exact ⟨g₁, hident, rfl⟩
  · rintro ⟨g₁, hident, rfl⟩
    exact ⟨_, g₁, hident, rfl⟩

/-- A type that ends leaves its two files. -/
theorem listener_endType_eq_ok_iff {field : Option String} (hpending : g.pending = c :: cs) :
    listener (.endType field) g = .ok () g' ↔
      g' = { g with pending := cs, files := g.files ++ c.sources } := by
  rw [listener, finishType, hpending]
  simp [eq_comm]

/-! ### What a generator does with a walk -/

/-- What a generator has done that got from `g` to `g'` when it was told some events, of which those
of `fields` are the events of fields, and has finished the types `new` meanwhile. -/
structure Takes (s : Schema) (events : List SchemaEvent) (fields : List FieldDef)
    (new : List TypeDef) (g g' : Generator) : Prop where
  files : g'.files = g.files ++ new.flatMap fun t ↦ (TypeCode.ofType s t).sources
  code : ∀ f ∈ fields, s.HasCode f
  names : ∀ ts, g.HasNames (events.flatMap SchemaEvent.types ++ ts) ↔ g'.HasNames ts

section

variable {s : Schema} {events events' : List SchemaEvent} {fields fields' : List FieldDef}
  {new new' : List TypeDef}

/-- What events take, more events take on. -/
theorem Takes.trans (h : Takes s events fields new g g')
    (h' : Takes s events' fields' new' g' g'') :
    Takes s (events ++ events') (fields ++ fields') (new ++ new') g g'' where
  files := by rw [h'.files, h.files, List.flatMap_append, List.append_assoc]
  code := List.forall_mem_append.2 ⟨h.code, h'.code⟩
  names ts := by rw [List.flatMap_append, List.append_assoc, h.names, h'.names]

theorem Takes.of_subset (h : Takes s events fields new g g') (hfields : fields' ⊆ fields) :
    Takes s events fields' new g g' :=
  ⟨h.files, fun f hf ↦ h.code f (hfields hf), h.names⟩

/-- The begin of a type takes its name. -/
theorem takes_beginType {field : Option String}
    (h : listener (.beginType field t) g = .ok () g') :
    Takes s [.beginType field t] [] [] g g' ∧
      g'.pending = .start t t.simpleName :: g.pending := by
  obtain ⟨g₁, hident, rfl⟩ := listener_beginType_eq_ok_iff.1 h
  obtain ⟨-, hnamed⟩ := named_of_identFor hident
  refine ⟨⟨?_, fun _ h ↦ absurd h List.not_mem_nil, fun ts ↦ ?_⟩, ?_⟩
  · rw [List.flatMap_nil, List.append_nil]
    exact hnamed.files
  · exact hnamed.hasNames_cons_iff.trans (hasNames_congr rfl)
  · rw [← hnamed.pending]

/-- The end of a type takes its code into files. -/
theorem takes_endType {field : Option String}
    (hpending : g.pending = TypeCode.ofType s t :: cs)
    (h : listener (.endType field) g = .ok () g') :
    Takes s [.endType field] [] [t] g g' ∧ g'.pending = cs := by
  obtain rfl := (listener_endType_eq_ok_iff hpending).1 h
  refine ⟨⟨?_, fun _ h ↦ absurd h List.not_mem_nil, fun _ ↦ hasNames_congr rfl⟩, rfl⟩
  rw [List.flatMap_singleton]

/-- **A field that is taken in** can have code. -/
theorem takes_field {f : FieldDef} {element : ElementType} (helement : s.element? f = some element)
    (hpending : g.pending = c :: cs) (h : listener (fieldEvent f element) g = .ok () g') :
    Takes s [fieldEvent f element] [f] [] g g' ∧ g'.pending = c.withField f element :: cs := by
  have htypes : [fieldEvent f element].flatMap SchemaEvent.types = element.types := by
    rw [List.flatMap_singleton, SchemaEvent.types_fieldEvent]
  obtain ⟨hname, hchars, hpending', hfiles, hnames⟩ := of_listener_field hpending h
  refine ⟨⟨?_, List.forall_mem_singleton.2 ⟨hname, ⟨element, helement⟩, fun hk ↦ ?_⟩, ?_⟩,
    hpending'⟩
  · rw [List.flatMap_nil, List.append_nil]
    exact hfiles
  · exact hchars (Option.some.inj (helement.symm.trans hk))
  · rw [htypes]
    exact hnames

/-- **What a generator does with a type** is what it does with its fields, and then it has the files
of the type. -/
theorem takes_type {field : Option String} {inner : List SchemaEvent}
    (hinner : ∀ {g g' : Generator} {c : TypeCode} {cs : List TypeCode}, g.pending = c :: cs →
      Trace.deliver listener inner g = .ok () g' →
        Takes s inner fields new g g' ∧ g'.pending = c.withFields s t.fields :: cs)
    (h : Trace.deliver listener (Schema.typeEvents field t inner) g = .ok () g') :
    Takes s (Schema.typeEvents field t inner) fields (new ++ [t]) g g' ∧
      g'.pending = g.pending := by
  obtain ⟨g₁, hbegin, h₁⟩ := Trace.deliver_cons_eq_ok_iff.1 h
  obtain ⟨g₂, hfields, h₂⟩ := Trace.deliver_append_eq_ok_iff.1 h₁
  obtain ⟨_, hend, hnil⟩ := Trace.deliver_cons_eq_ok_iff.1 h₂
  cases hnil
  obtain ⟨hbegun, hpending₁⟩ := @takes_beginType _ _ _ s _ hbegin
  obtain ⟨hwalked, hpending₂⟩ := hinner hpending₁ hfields
  obtain ⟨hended, hpending'⟩ := takes_endType hpending₂ hend
  have hall := hbegun.trans (hwalked.trans hended)
  rw [List.append_nil] at hall
  exact ⟨hall, hpending'⟩

/-- A field, and then what follows it. -/
theorem takes_cons {f : FieldDef} {fs : List FieldDef} {element : ElementType}
    (helement : s.element? f = some element)
    (hrest : ∀ {g g' : Generator} {c : TypeCode} {cs : List TypeCode}, g.pending = c :: cs →
      Trace.deliver listener events g = .ok () g' →
        Takes s events fields new g g' ∧ g'.pending = c.withFields s fs :: cs)
    (hpending : g.pending = c :: cs)
    (h : Trace.deliver listener (fieldEvent f element :: events) g = .ok () g') :
    Takes s (fieldEvent f element :: events) (f :: fields) new g g' ∧
      g'.pending = c.withFields s (f :: fs) :: cs := by
  obtain ⟨g₁, hfield, h₁⟩ := Trace.deliver_cons_eq_ok_iff.1 h
  obtain ⟨htaken, hpending₁⟩ := takes_field helement hpending hfield
  obtain ⟨hothers, hpending'⟩ := hrest hpending₁ h₁
  rw [TypeCode.withFields_cons helement]
  exact ⟨htaken.trans hothers, hpending'⟩

/-- **What a generator does with a walk**, if it hears it to the end: the code of the type whose
fields are walked gets all of them, and every type that is new gets its files. -/
theorem takes_walks {listed : List TypeDef} (hwalks : s.Walks fields listed events new)
    (hpending : g.pending = c :: cs) (h : Trace.deliver listener events g = .ok () g') :
    Takes s events (fields ++ new.flatMap TypeDef.fields) new g g' ∧
      g'.pending = c.withFields s fields :: cs := by
  induction hwalks generalizing g g' c cs with
  | nil =>
    cases h
    refine ⟨⟨(List.append_nil _).symm, fun _ h ↦ absurd h List.not_mem_nil, fun _ ↦ Iff.rfl⟩, ?_⟩
    exact hpending
  | primitive resolve _ ih =>
    exact takes_cons (Schema.element?_eq_primitive_iff.2 resolve) ih hpending h
  | again resolve _ _ ih =>
    exact takes_cons (Schema.element?_eq_composite_iff.2 resolve) ih hpending h
  | @first f fs _ below new _ _ t resolve _ _ _ ihfields ihrest =>
    have helement := Schema.element?_eq_composite_iff.2 resolve
    -- the type of `f` is finished before `f` is taken in
    obtain ⟨g₁, htype, h₁⟩ := Trace.deliver_append_eq_ok_iff.1 h
    obtain ⟨hfinished, hpending₁⟩ := takes_type ihfields htype
    obtain ⟨hothers, hpending'⟩ := takes_cons helement ihrest (hpending₁.trans hpending) h₁
    rw [List.append_cons below t new]
    refine ⟨(hfinished.trans hothers).of_subset fun f' hf' ↦ ?_, hpending'⟩
    simp only [List.flatMap_append, List.flatMap_cons, List.flatMap_nil, List.mem_append,
      List.mem_cons] at hf' ⊢
    grind

/-- A type that may be named may be begun. -/
theorem exists_listener_beginType {field : Option String} (hnames : g.HasNames (t :: ts)) :
    ∃ g', listener (.beginType field t) g = .ok () g' ∧ g'.HasNames ts ∧
      g'.pending = .start t t.simpleName :: g.pending := by
  obtain ⟨g₁, hident⟩ := exists_identFor hnames
  obtain ⟨-, hnamed⟩ := named_of_identFor hident
  refine ⟨_, listener_beginType_eq_ok_iff.2 ⟨g₁, hident, rfl⟩, ?_, ?_⟩
  · obtain ⟨hident, hfree, hdistinct⟩ := hnamed.hasNames_cons_iff.1 hnames
    exact ⟨hident, hfree, hdistinct⟩
  · rw [← hnamed.pending]

/-- A type is heard to its end if its fields are. -/
theorem exists_deliver_type {field : Option String} {inner : List SchemaEvent}
    (hinner : ∀ {g : Generator} {c : TypeCode} {cs : List TypeCode} {ts : List TypeDef},
      g.pending = c :: cs → g.HasNames (inner.flatMap SchemaEvent.types ++ ts) →
        ∃ g', Trace.deliver listener inner g = .ok () g' ∧ g'.HasNames ts ∧
          g'.pending = c.withFields s t.fields :: cs)
    (hnames : g.HasNames ((Schema.typeEvents field t inner).flatMap SchemaEvent.types ++ ts)) :
    ∃ g', Trace.deliver listener (Schema.typeEvents field t inner) g = .ok () g' ∧
      g'.HasNames ts ∧ g'.pending = g.pending := by
  rw [Schema.types_typeEvents, List.cons_append] at hnames
  obtain ⟨g₁, hbegin, hnames₁, hpending₁⟩ := exists_listener_beginType hnames
  obtain ⟨g₂, hfields, hnames₂, hpending₂⟩ := hinner hpending₁ hnames₁
  have hend := (@listener_endType_eq_ok_iff _ _ _ _ field hpending₂).2 rfl
  refine ⟨_, Trace.deliver_cons_eq_ok_iff.2 ⟨g₁, hbegin, Trace.deliver_append_eq_ok_iff.2
    ⟨g₂, hfields, Trace.deliver_cons_eq_ok_iff.2 ⟨_, hend, rfl⟩⟩⟩, ?_, rfl⟩
  exact ⟨hnames₂.identifier, hnames₂.free, hnames₂.distinct⟩

/-- A field is heard, and then what follows it. -/
theorem exists_deliver_cons {f : FieldDef} {fs : List FieldDef} {element : ElementType}
    (helement : s.element? f = some element)
    (hrest : ∀ {g : Generator} {c : TypeCode} {cs : List TypeCode} {ts : List TypeDef},
      g.pending = c :: cs → g.HasNames (events.flatMap SchemaEvent.types ++ ts) →
        ∃ g', Trace.deliver listener events g = .ok () g' ∧ g'.HasNames ts ∧
          g'.pending = c.withFields s fs :: cs)
    (hf : s.HasCode f) (hpending : g.pending = c :: cs)
    (hnames : g.HasNames ((fieldEvent f element :: events).flatMap SchemaEvent.types ++ ts)) :
    ∃ g', Trace.deliver listener (fieldEvent f element :: events) g = .ok () g' ∧
      g'.HasNames ts ∧ g'.pending = c.withFields s (f :: fs) :: cs := by
  rw [List.flatMap_cons, List.append_assoc] at hnames
  rw [SchemaEvent.types_fieldEvent] at hnames
  obtain ⟨g₁, hfield⟩ := exists_listener_field hf helement hnames hpending
  obtain ⟨-, -, hpending₁, -, hiff⟩ := of_listener_field hpending hfield
  have hnames₁ := (hiff _).1 hnames
  obtain ⟨g', hothers, hg'⟩ := hrest hpending₁ hnames₁
  rw [TypeCode.withFields_cons helement]
  exact ⟨g', Trace.deliver_cons_eq_ok_iff.2 ⟨g₁, hfield, hothers⟩, hg'⟩

/-- **A walk is heard to its end** if there can be code for every field and names for all types. -/
theorem exists_deliver_of_walks {listed : List TypeDef}
    (hwalks : s.Walks fields listed events new) (hpending : g.pending = c :: cs)
    (hfields : ∀ f ∈ fields ++ new.flatMap TypeDef.fields, s.HasCode f)
    (hnames : g.HasNames (events.flatMap SchemaEvent.types ++ ts)) :
    ∃ g', Trace.deliver listener events g = .ok () g' ∧ g'.HasNames ts ∧
      g'.pending = c.withFields s fields :: cs := by
  induction hwalks generalizing g c cs ts with
  | nil => exact ⟨g, rfl, hnames, hpending⟩
  | primitive resolve _ ih =>
    obtain ⟨hf, hfs⟩ := List.forall_mem_cons.1 hfields
    exact exists_deliver_cons (Schema.element?_eq_primitive_iff.2 resolve)
      (fun hpending ↦ ih hpending hfs) hf hpending hnames
  | again resolve _ _ ih =>
    obtain ⟨hf, hfs⟩ := List.forall_mem_cons.1 hfields
    exact exists_deliver_cons (Schema.element?_eq_composite_iff.2 resolve)
      (fun hpending ↦ ih hpending hfs) hf hpending hnames
  | @first f fs _ below new _ _ t resolve _ _ _ ihfields ihrest =>
    have helement := Schema.element?_eq_composite_iff.2 resolve
    -- the fields of `f :: fs`, of the types below `t`, of `t` and of the types after it
    obtain ⟨hf, hothers⟩ := List.forall_mem_cons.1 hfields
    obtain ⟨hfs, hothers⟩ := List.forall_mem_append.1 hothers
    rw [List.flatMap_append, List.flatMap_cons] at hothers
    obtain ⟨hbelow, hothers⟩ := List.forall_mem_append.1 hothers
    obtain ⟨ht, hnew⟩ := List.forall_mem_append.1 hothers
    rw [List.flatMap_append, List.append_assoc] at hnames
    obtain ⟨g₁, htype, hnames₁, hpending₁⟩ := exists_deliver_type
      (fun hpending ↦ ihfields hpending (List.forall_mem_append.2 ⟨ht, hbelow⟩)) hnames
    obtain ⟨g', hafter, hg'⟩ := exists_deliver_cons helement
      (fun hpending ↦ ihrest hpending (List.forall_mem_append.2 ⟨hfs, hnew⟩)) hf
      (hpending₁.trans hpending) hnames₁
    exact ⟨g', Trace.deliver_append_eq_ok_iff.2 ⟨g₁, htype, hafter⟩, hg'⟩

end

end Generator

end Matlab

/-! ### Which roots have code -/

namespace Schema

open Matlab (isIdentifier)

variable {s : Schema} {root : TypeDef} {fields : List FieldDef} {listed new : List TypeDef}
  {events : List SchemaEvent}

/-- Whether there can be code for all that a root reaches. -/
structure Codable (s : Schema) (root : TypeDef) : Prop where
  /-- The longest name of a function of a type is an identifier. -/
  identifier : ∀ t, s.Reaches root t → isIdentifier ("write_" ++ t.simpleName) = true
  distinct : ∀ t u, s.Reaches root t → s.Reaches root u → t.simpleName = u.simpleName → t = u
  /-- A field is a field of a struct. -/
  fieldName : ∀ t, s.Reaches root t → ∀ f ∈ t.fields, isIdentifier f.name = true
  /-- Empty texts in an array of texts would be ambiguous. -/
  chars : ∀ t, s.Reaches root t → ∀ f ∈ t.fields, s.resolve f = .primitive .char → f.dims ≤ 1

namespace Walks

/-- All fields that are walked have known types. -/
theorem known (h : s.Walks fields listed events new) :
    ∀ f ∈ fields ++ new.flatMap TypeDef.fields, ∃ element, s.element? f = some element := by
  induction h with
  | nil => exact fun _ h ↦ absurd h List.not_mem_nil
  | primitive resolve _ ih =>
    exact List.forall_mem_cons.2 ⟨⟨_, element?_eq_primitive_iff.2 resolve⟩, ih⟩
  | again resolve _ _ ih =>
    exact List.forall_mem_cons.2 ⟨⟨_, element?_eq_composite_iff.2 resolve⟩, ih⟩
  | first resolve _ _ _ ihfields ihrest =>
    simp only [List.cons_append, List.forall_mem_cons, List.flatMap_append, List.flatMap_cons,
      List.forall_mem_append] at ihfields ihrest ⊢
    exact ⟨⟨_, element?_eq_composite_iff.2 resolve⟩, ihrest.1, ihfields.2, ihfields.1, ihrest.2⟩

/-- The types that are named have been listed in the end. -/
theorem types_subset (h : s.Walks fields listed events new) :
    events.flatMap SchemaEvent.types ⊆ listed ++ new := by
  induction h with
  | nil => exact List.nil_subset _
  | primitive _ _ ih => rwa [List.flatMap_cons, SchemaEvent.types_fieldEvent]
  | again _ mem _ ih =>
    rw [List.flatMap_cons, SchemaEvent.types_fieldEvent]
    exact List.cons_subset.2 ⟨List.mem_append_left _ mem, ih⟩
  | first _ _ _ _ ihfields ihrest =>
    rw [List.flatMap_append, types_typeEvents, List.flatMap_cons, SchemaEvent.types_fieldEvent,
      ElementType.types]
    grind

/-- All types that are new have been named. -/
theorem subset_types (h : s.Walks fields listed events new) :
    new ⊆ events.flatMap SchemaEvent.types := by
  induction h with
  | nil => exact List.nil_subset _
  | primitive _ _ ih | again _ _ _ ih =>
    rw [List.flatMap_cons]
    exact List.subset_append_of_subset_right _ ih
  | first _ _ _ _ ihfields ihrest =>
    rw [List.flatMap_append, types_typeEvents, List.flatMap_cons]
    grind

end Walks

end Schema

namespace Matlab

variable {s : Schema} {root : TypeDef} {order below ts us : List TypeDef}
  {inner : List SchemaEvent}

namespace Generator

/-- At the start types may be named if their names are identifiers and are not shared. -/
theorem hasNames_start_iff : start.HasNames ts ↔
    (∀ t ∈ ts, isIdentifier ("write_" ++ t.simpleName) = true) ∧
      ∀ t ∈ ts, ∀ u ∈ ts, t.simpleName = u.simpleName → t.name = u.name := by
  refine ⟨fun h ↦ ⟨h.identifier, h.distinct⟩, fun h ↦ ⟨h.1, fun t _ owner howner ↦ ?_, h.2⟩⟩
  cases howner

theorem HasNames.of_subset {g : Generator} (h : g.HasNames ts) (hsubset : us ⊆ ts) :
    g.HasNames us :=
  ⟨fun t ht ↦ h.identifier t (hsubset ht), fun t ht ↦ h.free t (hsubset ht),
    fun t ht u hu ↦ h.distinct t (hsubset ht) u (hsubset hu)⟩

/-- **A walk is heard to its end** exactly if the root is codable. -/
theorem codable_iff (hroot : root ∈ s.types) (hvisits : s.Visits [root] [] (below ++ [root]))
    (hwalks : s.Walks root.fields [] inner below) :
    s.Codable root ↔ start.HasNames (below ++ [root]) ∧
      ∀ f ∈ root.fields ++ below.flatMap TypeDef.fields, s.HasCode f := by
  have hmem {t : TypeDef} := hvisits.mem_iff_reaches (t := t)
  have hfields {f : FieldDef} : f ∈ root.fields ++ below.flatMap TypeDef.fields ↔
      ∃ t, s.Reaches root t ∧ f ∈ t.fields := by
    simp only [← hmem, List.mem_append, List.mem_flatMap, List.mem_singleton]
    grind
  rw [hasNames_start_iff]
  constructor
  · rintro ⟨hident, hdistinct, hname, hchars⟩
    refine ⟨⟨fun t ht ↦ hident t (hmem.1 ht), fun t ht u hu heq ↦ ?_⟩, fun f hf ↦ ?_⟩
    · rw [hdistinct t u (hmem.1 ht) (hmem.1 hu) heq]
    · obtain ⟨t, ht, hft⟩ := hfields.1 hf
      exact ⟨hname t ht f hft, hwalks.known f hf, fun h ↦
        hchars t ht f hft (Schema.element?_eq_primitive_iff.1 h)⟩
  · rintro ⟨⟨hident, hdistinct⟩, hcode⟩
    refine ⟨fun t ht ↦ hident t (hmem.2 ht), fun t u ht hu heq ↦ ?_,
      fun t ht f hf ↦ (hcode f (hfields.2 ⟨t, ht, hf⟩)).name, fun t ht f hf h ↦
        (hcode f (hfields.2 ⟨t, ht, hf⟩)).chars (Schema.element?_eq_primitive_iff.2 h)⟩
    have hname := hdistinct t (hmem.2 ht) u (hmem.2 hu) heq
    exact Schema.eq_of_name_eq (ht.mem hroot) (hu.mem hroot) hname

end Generator

/-- **What is generated** for a root with a dictionary: the files of the types that the root
reaches, in the order of the dictionary, and those that load and save file images. -/
theorem generate_eq_ok_iff_codable (hroot : root ∈ s.types) {sources : List Source} :
    generate s root = .ok sources ↔ ∃ d order rootTag, Dictionary.ofSchema s root = .ok d ∧
      s.Visits [root] [] order ∧ order.Nodup ∧
      d.types.toList.map TypeEntry.name = order.map TypeDef.name ∧
      d.tagFor? root.name = some rootTag ∧ s.Codable root ∧
      sources = (order.flatMap fun t ↦ (TypeCode.ofType s t).sources) ++
        [loadSource root.simpleName rootTag, saveSource root.simpleName rootTag d] := by
  rw [generate_eq_ok_iff]
  constructor
  · rintro ⟨g, d, rootTag, ident, g', hrun, -, hd, htag, hident, rfl⟩
    obtain ⟨inner, below, hwalk, hwalks, hvisits, hnodup, hnames⟩ :=
      Dictionary.exists_walks_of_ofSchema hroot hd
    rw [hwalk, Trace.run_eq_ok_iff] at hrun
    obtain ⟨htakes, -⟩ := Generator.takes_type (Generator.takes_walks hwalks) hrun
    obtain ⟨rfl, hnamed⟩ := Generator.named_of_identFor hident
    refine ⟨d, _, rootTag, hd, hvisits, hnodup, hnames, htag, ?_, ?_⟩
    · refine (Generator.codable_iff hroot hvisits hwalks).2 ⟨?_, htakes.code⟩
      refine ((htakes.names []).2 (Generator.hasNames_nil g)).of_subset ?_
      rw [Schema.types_typeEvents]
      have hnew := hwalks.subset_types
      grind
    · rw [hnamed.files, htakes.files]
      rfl
  · rintro ⟨d, order, rootTag, hd, horder, -, -, htag, hcodable, rfl⟩
    obtain ⟨inner, below, hwalk, hwalks, hvisits, -⟩ := Dictionary.exists_walks_of_ofSchema hroot hd
    obtain rfl := horder.unique hvisits
    obtain ⟨hnames, hcode⟩ := (Generator.codable_iff hroot hvisits hwalks).1 hcodable
    -- the root is named once more when all is done
    have hagain : Generator.start.HasNames
        ((Schema.typeEvents none root inner).flatMap SchemaEvent.types ++ [root]) := by
      refine hnames.of_subset ?_
      rw [Schema.types_typeEvents]
      have hlisted := hwalks.types_subset
      grind
    obtain ⟨g, hdeliver, hnames', hpending⟩ := Generator.exists_deliver_type
      (fun hpending hnames ↦ Generator.exists_deliver_of_walks hwalks hpending hcode hnames) hagain
    obtain ⟨htakes, -⟩ := Generator.takes_type (Generator.takes_walks hwalks) hdeliver
    obtain ⟨g', hident⟩ := Generator.exists_identFor hnames'
    refine ⟨g, d, rootTag, _, g', ?_, hpending, hd, htag, hident, ?_⟩
    · rw [hwalk, Trace.run_eq_ok_iff]
      exact hdeliver
    · rw [(Generator.named_of_identFor hident).2.files, htakes.files]
      rfl

/-- **The domain of the generator.** -/
theorem exists_generate_iff (hroot : root ∈ s.types) :
    (∃ sources, generate s root = .ok sources) ↔
      (∃ d, Dictionary.ofSchema s root = .ok d) ∧ s.Codable root := by
  constructor
  · rintro ⟨sources, h⟩
    obtain ⟨d, order, rootTag, hd, -, -, -, -, hcodable, -⟩ :=
      (generate_eq_ok_iff_codable hroot).1 h
    exact ⟨⟨d, hd⟩, hcodable⟩
  · rintro ⟨⟨d, hd⟩, hcodable⟩
    obtain ⟨inner, below, -, -, hvisits, hnodup, hnames⟩ :=
      Dictionary.exists_walks_of_ofSchema hroot hd
    obtain ⟨rootTag, htag⟩ := Option.isSome_iff_exists.1
      (Decoder.isSome_tagFor?_iff.2 (Dictionary.OfSchema.of_eq_ok hroot hd).root)
    exact ⟨_, (generate_eq_ok_iff_codable hroot).2
      ⟨d, _, rootTag, hd, hvisits, hnodup, hnames, htag, hcodable, rfl⟩⟩

/-- Among types that no field leads out of, each can be checked by itself. -/
theorem codable_of_closed (hroot : root ∈ ts)
    (hclosed : ∀ t ∈ ts, ∀ u ∈ s.fieldTypes t.fields, u ∈ ts)
    (hident : ∀ t ∈ ts, isIdentifier ("write_" ++ t.simpleName) = true)
    (hdistinct : ∀ t ∈ ts, ∀ u ∈ ts, t.simpleName = u.simpleName → t = u)
    (hfields : ∀ t ∈ ts, ∀ f ∈ t.fields,
      isIdentifier f.name = true ∧ (s.resolve f = .primitive .char → f.dims ≤ 1)) :
    s.Codable root := by
  have hmem {t : TypeDef} (ht : s.Reaches root t) : t ∈ ts := ht.mem_of_closed hroot hclosed
  exact ⟨fun t ht ↦ hident t (hmem ht), fun t u ht hu ↦ hdistinct t (hmem ht) u (hmem hu),
    fun t ht f hf ↦ (hfields t (hmem ht) f hf).1, fun t ht f hf ↦ (hfields t (hmem ht) f hf).2⟩

/-! A drawing has code. A pair of points has none if the points are of two types with one simple
name. -/

def flatPointType : TypeDef :=
  ⟨"a.P", [⟨"x", "double", 0, false⟩]⟩

def solidPointType : TypeDef :=
  ⟨"b.P", [⟨"z", "double", 0, false⟩]⟩

def pairType : TypeDef :=
  ⟨"Pair", [⟨"flat", "a.P", 0, false⟩, ⟨"solid", "b.P", 0, false⟩]⟩

def pairSchema : Schema :=
  ⟨none, [flatPointType, solidPointType, pairType], by decide⟩

def pairDictionary : Dictionary :=
  ⟨#[⟨12, "a.P", [⟨"x", 7, 0⟩]⟩, ⟨13, "b.P", [⟨"z", 7, 0⟩]⟩,
    ⟨14, "Pair", [⟨"flat", 12, 0⟩, ⟨"solid", 13, 0⟩]⟩], 14⟩

open Dictionary (drawingType drawingSchema drawingDictionary lineType pointType)

theorem ofSchema_drawing :
    Dictionary.ofSchema drawingSchema drawingType = .ok drawingDictionary := by
  cbv

theorem codable_drawing : drawingSchema.Codable drawingType := by
  have hroot : drawingType ∈ [pointType, lineType, drawingType] := by decide
  exact codable_of_closed hroot (by decide) (by decide) (by decide) (by decide)

theorem not_codable_pair : ¬pairSchema.Codable pairType := by
  intro h
  have hflat : flatPointType ∈ pairSchema.fieldTypes pairType.fields := by decide
  have hsolid : solidPointType ∈ pairSchema.fieldTypes pairType.fields := by decide
  exact absurd (h.distinct _ _ (.single hflat) (.single hsolid) (by decide)) (by decide)

theorem exists_generate_iff_drawing :
    drawingType ∈ drawingSchema.types ∧
      (∃ sources, generate drawingSchema drawingType = .ok sources) ∧
      pairType ∈ pairSchema.types ∧ (∃ d, Dictionary.ofSchema pairSchema pairType = .ok d) ∧
      ¬∃ sources, generate pairSchema pairType = .ok sources := by
  have hdrawing : drawingType ∈ drawingSchema.types := by decide
  have hpair : pairType ∈ pairSchema.types := by decide
  have hd : Dictionary.ofSchema pairSchema pairType = .ok pairDictionary := by cbv
  exact ⟨hdrawing, (exists_generate_iff hdrawing).2 ⟨⟨_, ofSchema_drawing⟩, codable_drawing⟩,
    hpair, ⟨_, hd⟩, fun h ↦ not_codable_pair ((exists_generate_iff hpair).1 h).2⟩

end Matlab

end GraphCodec
