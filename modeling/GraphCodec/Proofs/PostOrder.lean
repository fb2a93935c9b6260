import GraphCodec.Proofs.Drafting
import GraphCodec.Proofs.Reachability

/-!
# The dictionary of a schema, exactly

There is a dictionary for a root type exactly if the root is representable, and it lists the types
that the root reaches in the order in which visits list them.

One direction was seen in the draft: what comes out of the walk describes the types, and only
representable ones can be described. For the other, the walk is followed again from a type that is
representable. No field stops it, since the types that are being walked all reach the field and none
of them reaches itself, and the draft takes in every event (`Draft.exists_walkType`).
-/

namespace GraphCodec

namespace Schema

/-- The names of listed types, the last one first, as the walk keeps them. -/
def visitedNames (listed : List TypeDef) : List String :=
  (listed.map TypeDef.name).reverse

/-- The last type that was visited is the first on the list of names. -/
theorem visitedNames_snoc (listed : List TypeDef) (t : TypeDef) :
    visitedNames (listed ++ [t]) = t.name :: visitedNames listed := by
  rw [visitedNames, List.map_append, List.reverse_append]
  rfl

variable {s : Schema}

/-- A type has been visited if its name has, as names are not shared. -/
theorem mem_visitedNames_iff {listed : List TypeDef} (hlisted : listed ⊆ s.types) {t : TypeDef}
    (ht : t ∈ s.types) : t.name ∈ visitedNames listed ↔ t ∈ listed := by
  rw [visitedNames, List.mem_reverse, List.mem_map]
  constructor
  · rintro ⟨u, hu, hname⟩
    rwa [← eq_of_name_eq (hlisted hu) ht hname]
  · exact fun h ↦ ⟨t, h, rfl⟩

/-! ### The walk over fields, field by field -/

variable {walking visited : List String} {owner : TypeDef} {f : FieldDef} {fs : List FieldDef}

open Dictionary.Draft in
/-- A field of a primitive is told and nothing more. -/
theorem walkFields_primitive {k : Kind} (h : s.resolve f = .primitive k) :
    s.walkFields walking owner (f :: fs) visited = (do
      Trace.emit (fieldEvent f (.primitive k))
      s.walkFields walking owner fs visited) := by
  rw [walkFields]
  split
  · rename_i k' hk'
    obtain rfl : k = k' := by simpa [h] using hk'
    rfl
  · rename_i hk'
    simp [h] at hk'
  · rename_i hk'
    simp [h] at hk'

open Dictionary.Draft in
/-- A field of another type is told after this type, which is visited if it has not been. -/
theorem walkFields_composite {t : TypeDef} (h : s.resolve f = .composite t)
    (hnew : t.name ∉ walking) :
    s.walkFields walking owner (f :: fs) visited = (do
      let visited ← (if t.name ∈ visited then pure visited
        else s.walkType walking (some f.name) t visited)
      Trace.emit (fieldEvent f (.composite t))
      s.walkFields walking owner fs visited) := by
  rw [walkFields]
  split
  · rename_i ht'
    simp [h] at ht'
  · rename_i t' ht'
    obtain rfl : t = t' := by simpa [h] using ht'
    rw [dif_neg hnew]
    rfl
  · rename_i ht'
    simp [h] at ht'

end Schema

namespace Dictionary

namespace Draft

open Schema (visitedNames visitedNames_snoc mem_visitedNames_iff)

variable {s : Schema}

/-- Where a walk stands that has listed some types and is in, or about to enter, the type `t` from
the types `walking`: these reach `t` and have not been listed. -/
structure Stands (s : Schema) (walking : List String) (t : TypeDef) (listed : List TypeDef)
    (d : Draft) : Prop where
  faithful : Faithful s (visitedNames listed) d
  subset : listed ⊆ s.types
  outside : ∀ n ∈ walking, n ∉ visitedNames listed
  path : ∀ n ∈ walking, ∃ w ∈ s.types, w.name = n ∧ s.Reaches w t

namespace Stands

variable {walking : List String} {t u : TypeDef} {listed listed' : List TypeDef} {d d' : Draft}

/-- Only the dictionary of the builder matters. -/
theorem congr (h : Stands s walking t listed d) (hd : d'.dictionary = d.dictionary) :
    Stands s walking t listed d' :=
  ⟨h.faithful.congr hd, h.subset, h.outside, h.path⟩

/-- A type of a field may be entered next. -/
theorem follow (h : Stands s walking t listed d) (hrefers : s.Refers t u) :
    Stands s walking u listed d := by
  refine ⟨h.faithful, h.subset, h.outside, fun n hn ↦ ?_⟩
  obtain ⟨w, hw, hname, hreaches⟩ := h.path n hn
  exact ⟨w, hw, hname, hreaches.tail hrefers⟩

/-- A type that is new may be entered. -/
theorem enter (h : Stands s walking t listed d) (ht : t ∈ s.types) (hnew : t ∉ listed) :
    Stands s (t.name :: walking) t listed d where
  faithful := h.faithful
  subset := h.subset
  outside := List.forall_mem_cons.2 ⟨(mem_visitedNames_iff h.subset ht).not.2 hnew, h.outside⟩
  path := List.forall_mem_cons.2 ⟨⟨t, ht, rfl, .refl⟩, h.path⟩

/-- **No type is met within itself**, if none contains itself. -/
theorem name_not_mem (h : Stands s walking t listed d) (hrep : s.Representable t)
    (hrefers : s.Refers t u) : u.name ∉ walking := by
  intro hmem
  obtain ⟨w, hw, hname, hreaches⟩ := h.path _ hmem
  obtain rfl := Schema.eq_of_name_eq hw hrefers.mem hname
  exact hrep.acyclic w (.single hrefers) (Relation.TransGen.tail' hreaches hrefers)

/-- **A field is taken in** once its type is listed. -/
theorem exists_step (h : Stands s walking t listed d) (hrep : s.Representable t) {name : String}
    {done : List FieldEntry} {outer : List (String × List FieldEntry)}
    (hpending : d.pending = (name, done) :: outer) {f : FieldDef} (hf : f ∈ t.fields)
    {element : ElementType} (helement : s.element? f = some element)
    (hlisted : ∀ u, element = .composite u → u ∈ listed) :
    ∃ d' g, step (fieldEvent f element) d = .ok d' ∧ Stands s walking t listed d' ∧
      d'.pending = (name, done ++ [g]) :: outer := by
  have hentry : ∀ u, element = .composite u → ∃ e ∈ d.types, e.name = u.name := by
    intro u hu
    have hmem : u ∈ listed := hlisted u hu
    exact h.faithful.mem_iff.1 ((mem_visitedNames_iff h.subset (h.subset hmem)).2 hmem)
  obtain ⟨d', hevent⟩ :=
    exists_step_fieldEvent f element hpending (hrep.dims_le t .refl f hf) hentry
  obtain ⟨g, -, hd'⟩ := step_fieldEvent hpending helement hevent
  exact ⟨d', g, hevent, h.congr (by rw [hd']), by rw [hd']⟩

/-- **After the walk over the type of a field**, this type has been listed too. -/
theorem of_walkType (h : Stands s walking t listed d) (hrefers : s.Refers t u)
    (hentered : u.name ∉ walking) (hnew : u ∉ listed) {below : List TypeDef}
    (hvisits : s.Visits (s.fieldTypes u.fields) listed below) {field : Option String}
    (hwalk : Trace.run listener (s.walkType walking field u (visitedNames listed)) d =
      .ok (visitedNames (below ++ [u])) d') :
    Stands s walking t (below ++ [u]) d' ∧ d'.pending = d.pending := by
  have hname : u.name ∉ visitedNames listed :=
    (mem_visitedNames_iff h.subset hrefers.mem).not.2 hnew
  obtain ⟨⟨hext, hout⟩, hpending, -⟩ :=
    outside_walkType h.faithful h.outside hrefers.mem hentered hname hwalk
  have hvisit : s.Visits [u] listed (below ++ [u]) := .first hnew hvisits .nil
  have hsubset : below ++ [u] ⊆ s.types :=
    hvisit.subset_types (List.cons_subset.2 ⟨hrefers.mem, List.nil_subset _⟩) h.subset
  exact ⟨⟨hext.faithful, hsubset, hout, h.path⟩, hpending⟩

end Stands

mutual

/-- **The walk over a representable type** is heard to its end. -/
theorem exists_walkType (hn : Schema.Numbered s.types.length) {walking : List String}
    {listed : List TypeDef} {t : TypeDef} {d : Draft} (field : Option String)
    (hstands : Stands s walking t listed d) (ht : t ∈ s.types) (hnew : t ∉ listed)
    (hrep : s.Representable t) :
    ∃ below d', s.Visits (s.fieldTypes t.fields) listed below ∧
      Trace.run listener (s.walkType walking field t (visitedNames listed)) d =
        .ok (visitedNames (below ++ [t])) d' := by
  have hbegun : Stands s (t.name :: walking) t listed
      { d with pending := (t.name, []) :: d.pending } := (hstands.enter ht hnew).congr rfl
  obtain ⟨below, d₁, hvisits, hfields⟩ :=
    exists_walkFields hn hbegun rfl hrep (List.Subset.refl t.fields)
  obtain ⟨new, ⟨hext, hout⟩, hpending, -⟩ :=
    outside_walkFields hbegun.faithful rfl hbegun.outside hfields
  obtain ⟨hlast, -⟩ | ⟨dictionary, hend⟩ := finishType_cases hpending
  · exact absurd hlast (hext.faithful.lastTag_ne hn ht (hout _ List.mem_cons_self))
  refine ⟨below, ⟨dictionary, d.pending⟩, hvisits, ?_⟩
  rw [Schema.walkType]
  simp only [Trace.run_bind_eq_ok_iff, Trace.run_emit, listener_eq_ok_iff]
  exact ⟨(), _, rfl, _, _, hfields, (), _, hend, by rw [visitedNames_snoc]; rfl⟩
  termination_by (s.countOutside (t.name :: walking), 1, 0)
  decreasing_by
    apply Prod.Lex.right
    apply Prod.Lex.left
    decide

/-- **The walk over fields** of a representable type is heard to its end. -/
theorem exists_walkFields (hn : Schema.Numbered s.types.length) {walking : List String}
    {owner : TypeDef} {fields : List FieldDef} {listed : List TypeDef} {d : Draft} {name : String} {done : List FieldEntry}
    {outer : List (String × List FieldEntry)} (hstands : Stands s walking owner listed d)
    (hpending : d.pending = (name, done) :: outer) (hrep : s.Representable owner)
    (hfields : fields ⊆ owner.fields) :
    ∃ listed' d', s.Visits (s.fieldTypes fields) listed listed' ∧
      Trace.run listener (s.walkFields walking owner fields (visitedNames listed)) d =
        .ok (visitedNames listed') d' := by
  match fields with
  | [] =>
    refine ⟨listed, d, .nil, ?_⟩
    rw [Schema.walkFields]
    rfl
  | f :: fs =>
    have hf : f ∈ owner.fields := hfields List.mem_cons_self
    -- once the type of `f` is listed, `f` is taken in and the other fields are walked
    have hcons : ∀ (element) {listed₁ d₁}, s.element? f = some element →
        Stands s walking owner listed₁ d₁ → d₁.pending = (name, done) :: outer →
        (∀ t, element = .composite t → t ∈ listed₁) →
        ∃ listed' d', s.Visits (s.fieldTypes fs) listed₁ listed' ∧ Trace.run listener (do
          Trace.emit (fieldEvent f element)
          s.walkFields walking owner fs (visitedNames listed₁)) d₁ =
            .ok (visitedNames listed') d' := by
      intro element listed₁ d₁ helement hstands₁ hpending₁ hlisted
      obtain ⟨d₂, g, hevent, hstands₂, hpending₂⟩ :=
        hstands₁.exists_step hrep hpending₁ hf helement hlisted
      obtain ⟨listed', d', hvisits, hrest⟩ :=
        exists_walkFields hn hstands₂ hpending₂ hrep (List.subset_of_cons_subset hfields)
      refine ⟨listed', d', hvisits, ?_⟩
      simp only [Trace.run_bind_eq_ok_iff, Trace.run_emit, listener_eq_ok_iff]
      exact ⟨(), d₂, hevent, hrest⟩
    rw [Schema.fieldTypes_cons]
    cases hresolve : s.resolve f with
    | unknown => exact absurd hresolve (hrep.known owner .refl f hf)
    | primitive k =>
      rw [Schema.walkFields_primitive hresolve]
      exact hcons (.primitive k) (by rw [Schema.element?, hresolve]) hstands hpending
        fun t ht ↦ by cases ht
    | composite t =>
      have helement : s.element? f = some (.composite t) :=
        Schema.element?_eq_composite_iff.2 hresolve
      have hrefers : s.Refers owner t := Schema.refers_iff.2 ⟨f, hf, helement⟩
      have hentered : t.name ∉ walking := hstands.name_not_mem hrep hrefers
      rw [Schema.walkFields_composite hresolve hentered]
      simp only [mem_visitedNames_iff hstands.subset hrefers.mem]
      by_cases hmem : t ∈ listed
      · rw [if_pos hmem]
        obtain ⟨listed', d', hvisits, hrun⟩ := hcons (.composite t) helement hstands hpending
          fun u hu ↦ by cases hu; exact hmem
        exact ⟨listed', d', .again hmem hvisits, hrun⟩
      · rw [if_neg hmem]
        obtain ⟨below, d₁, hbelow, hwalk⟩ := exists_walkType hn (some f.name)
          (hstands.follow hrefers) hrefers.mem hmem (hrep.of_reaches (.single hrefers))
        obtain ⟨hstands₁, hpending₁⟩ := hstands.of_walkType hrefers hentered hmem hbelow hwalk
        obtain ⟨listed', d', hvisits, hrun⟩ := hcons (.composite t) helement hstands₁
          (hpending₁.trans hpending) fun u hu ↦ by
            cases hu
            exact List.mem_append_right _ (List.mem_singleton_self _)
        exact ⟨listed', d', .first hmem hbelow hvisits,
          Trace.run_bind_eq_ok_iff.2 ⟨_, d₁, hwalk, hrun⟩⟩
  termination_by (s.countOutside walking, 0, fields.length)
  decreasing_by
    · apply Prod.Lex.right
      apply Prod.Lex.right
      simp
    · apply Prod.Lex.left
      exact Schema.countOutside_cons_lt hrefers.mem hentered

end

end Draft

/-! ### The dictionary -/

variable {s : Schema} {root : TypeDef}

/-- **There is a dictionary for a representable root**, and it lists what visiting the root
lists. -/
theorem exists_ofSchema (hn : Schema.Numbered s.types.length) (hroot : root ∈ s.types)
    (hrep : s.Representable root) :
    ∃ below d, ofSchema s root = .ok d ∧ s.Visits [root] [] (below ++ [root]) ∧
      (below ++ [root]).Nodup ∧
      d.types.toList.map TypeEntry.name = (below ++ [root]).map TypeDef.name := by
  have hstands : Draft.Stands s [] root [] Draft.empty :=
    ⟨Draft.faithful_empty s, List.nil_subset _, fun _ h ↦ absurd h List.not_mem_nil,
      fun _ h ↦ absurd h List.not_mem_nil⟩
  obtain ⟨below, draft, hvisits, hrun⟩ :=
    Draft.exists_walkType hn none hstands hroot List.not_mem_nil hrep
  obtain ⟨⟨⟨hfaithful, -⟩, -⟩, hpending, -⟩ := Draft.outside_walkType hstands.faithful
    hstands.outside hroot List.not_mem_nil List.not_mem_nil hrun
  have hwalk : Trace.outcomeFrom Draft.listener Draft.empty (s.walk root) = .ok ((), draft) :=
    Trace.outcomeFrom_eq_ok_iff.2 (Trace.run_bind_eq_ok_iff.2 ⟨_, draft, hrun, rfl⟩)
  have hnames := hfaithful.names
  rw [Schema.visitedNames, List.reverse_reverse] at hnames
  refine ⟨below, draft.dictionary, ?_, .first List.not_mem_nil hvisits .nil, ?_, hnames⟩
  · unfold ofSchema
    simp only [hwalk, hpending]
    rfl
  · exact .of_map TypeDef.name (List.nodup_reverse.1 hfaithful.nodup)

/-- What is reached from the root of a dictionary is what is listed. -/
theorem mem_iff_reaches {ts : List TypeEntry} {order : List TypeDef} (h : s.Describes ts)
    (hroot : s.Lists ts (.composite root)) (hvisits : s.Visits [root] [] order)
    (hnames : ts.map TypeEntry.name = order.map TypeDef.name) {t : TypeDef} :
    t ∈ order ↔ s.Reaches root t := by
  constructor
  · intro ht
    rcases hvisits.exists_reaches ht with ht | ⟨u, hu, hreaches⟩
    · cases ht
    · rwa [List.mem_singleton.1 hu] at hreaches
  · intro hreaches
    -- what is reached has an entry with its name, and the name is that of only one type
    obtain ⟨hmem, e, he, hname⟩ := h.lists_of_reaches hroot hreaches
    have hlisted : t.name ∈ order.map TypeDef.name := by
      rw [← hnames, ← hname]
      exact List.mem_map_of_mem he
    obtain ⟨u, hu, huname⟩ := List.mem_map.1 hlisted
    have husub : u ∈ s.types :=
      hvisits.subset_types (List.cons_subset.2 ⟨hroot.1, List.nil_subset _⟩) (List.nil_subset _) hu
    rwa [← Schema.eq_of_name_eq husub hmem huname]

/-- **The dictionary of a schema.** There is one for a root exactly if what the root reaches is
known, without cycles and within the limit on dimensions. It then lists what the root reaches, and
nothing else, each type once and in the order in which visiting the root lists them, so the root is
the last; the tags are those from 12 on, and each type has its fields in order, with the name and
the dimensions that are declared and the tag of the kind or of the entry of the type, which comes
before. -/
theorem exists_ofSchema_iff (hn : Schema.Numbered s.types.length) (hroot : root ∈ s.types) :
    ((∃ d, ofSchema s root = .ok d) ↔ s.Representable root) ∧
      ∀ d, ofSchema s root = .ok d → ∃ order,
        (∀ order', s.Visits [root] [] order' ↔ order' = order) ∧ order.Nodup ∧
        (∀ t, t ∈ order ↔ s.Reaches root t) ∧ order.getLast? = some root ∧
        s.ListedAs order d.types.toList := by
  have hdescribes : ∀ d, ofSchema s root = .ok d → Schema.Numbered d.types.toList.length ∧
      s.Describes d.types.toList ∧ s.Lists d.types.toList (.composite root) := by
    intro d hd
    have hof := OfSchema.of_eq_ok hroot hd
    exact ⟨Array.length_toList ▸ hof.numbered, hof.describes, hroot, hof.root⟩
  have hrepresentable : ∀ d, ofSchema s root = .ok d → s.Representable root := by
    intro d hd
    obtain ⟨hn', hd', hlists⟩ := hdescribes d hd
    exact hd'.representable hn' hlists
  refine ⟨⟨?_, fun hrep ↦ ?_⟩, fun d hd ↦ ?_⟩
  · rintro ⟨d, hd⟩
    exact hrepresentable d hd
  · obtain ⟨-, d, hd, -⟩ := exists_ofSchema hn hroot hrep
    exact ⟨d, hd⟩
  -- what has been made is what the other direction makes
  · obtain ⟨below, d', hd', hvisits, hnodup, hnames⟩ := exists_ofSchema hn hroot (hrepresentable d hd)
    obtain rfl : d = d' := Except.ok.inj (hd.symm.trans hd')
    obtain ⟨hn', hdescribed, hlists⟩ := hdescribes d hd
    have hsubset : below ++ [root] ⊆ s.types :=
      hvisits.subset_types (List.cons_subset.2 ⟨hroot, List.nil_subset _⟩) (List.nil_subset _)
    refine ⟨below ++ [root], fun order' ↦ ⟨fun h ↦ h.unique hvisits, fun h ↦ h ▸ hvisits⟩, hnodup,
      fun t ↦ mem_iff_reaches hdescribed hlists hvisits hnames, List.getLast?_concat, ?_⟩
    exact hdescribed.listedAs hn' hsubset hnames

/-! A drawing has points of its own and in its lines, and nothing refers to notes. -/

def pointType : TypeDef :=
  ⟨"Point", [⟨"x", "double", 0, false⟩, ⟨"y", "double", 0, false⟩]⟩

def lineType : TypeDef :=
  ⟨"Line", [⟨"from", "Point", 0, false⟩, ⟨"to", "Point", 0, false⟩]⟩

def drawingType : TypeDef :=
  ⟨"Drawing", [⟨"lines", "Line", 2, false⟩, ⟨"origin", "Point", 0, false⟩]⟩

def drawingSchema : Schema :=
  ⟨none, [drawingType, ⟨"Note", [⟨"text", "string", 0, false⟩]⟩, lineType, pointType], by decide⟩

/-- The points come first, since the walk meets them in the lines. -/
def drawingDictionary : Dictionary :=
  ⟨#[⟨12, "Point", [⟨"x", 7, 0⟩, ⟨"y", 7, 0⟩]⟩, ⟨13, "Line", [⟨"from", 12, 0⟩, ⟨"to", 12, 0⟩]⟩,
    ⟨14, "Drawing", [⟨"lines", 13, 2⟩, ⟨"origin", 12, 0⟩]⟩], 14⟩

theorem exists_ofSchema_iff_drawing :
    Schema.Numbered drawingSchema.types.length ∧ drawingType ∈ drawingSchema.types ∧
      ofSchema drawingSchema drawingType = .ok drawingDictionary ∧
      drawingSchema.Representable drawingType ∧
      drawingSchema.ListedAs [pointType, lineType, drawingType]
        drawingDictionary.types.toList := by
  have hn : Schema.Numbered drawingSchema.types.length :=
    Schema.numbered_of_le_maxTypes (by decide)
  have hroot : drawingType ∈ drawingSchema.types := by decide
  have hd : ofSchema drawingSchema drawingType = .ok drawingDictionary := by cbv
  obtain ⟨hiff, hlists⟩ := exists_ofSchema_iff hn hroot
  obtain ⟨order, hvisits, -, -, -, hlisted⟩ := hlists _ hd
  have hpoint : pointType ∈ [pointType, lineType] := by decide
  have horder : drawingSchema.Visits [drawingType] [] [pointType, lineType, drawingType] :=
    .first (by decide)
      (.first (by decide) (.first (by decide) .nil (.again (by decide) .nil)) (.again hpoint .nil))
      .nil
  rw [← (hvisits _).1 horder] at hlisted
  exact ⟨hn, hroot, hd, hiff.1 ⟨_, hd⟩, hlisted⟩

end Dictionary

end GraphCodec
