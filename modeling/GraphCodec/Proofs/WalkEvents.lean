import GraphCodec.Proofs.Relevance

/-!
# What a walk over types reports

A walk over types that ends well is known event by event. It follows the fields of a type: a field
of a composite type that has not been listed is preceded by the begin of that type, what is reported
of its fields, and its end; every field is reported once (`Schema.Walks`). So what holds of a
listener after such a walk is proved by induction over the rules, with a case for each sort of field
and without a look at the walk itself.
-/

namespace GraphCodec

namespace Trace

variable {ε α β : Type} {t : Trace ε α} {f : α → Trace ε β}

/-- A walk that comes to its end is two walks that do, with their events one after the other. -/
theorem bind_eq_ok_iff {events : List ε} {b : β} :
    (t >>= f) = ⟨events, .ok b⟩ ↔ ∃ before a after,
      t = ⟨before, .ok a⟩ ∧ f a = ⟨after, .ok b⟩ ∧ events = before ++ after := by
  show t.bind f = _ ↔ _
  obtain ⟨before, outcome⟩ := t
  cases outcome with
  | error e => simp [Trace.bind]
  | ok a =>
    constructor
    · intro h
      obtain ⟨rfl, hout⟩ := Trace.mk.inj h
      exact ⟨before, a, (f a).events, rfl, congrArg (Trace.mk _) hout, rfl⟩
    · rintro ⟨_, _, after, ⟨⟩, hafter, rfl⟩
      simp only [Trace.bind, hafter]

/-- The same for a first walk of one event. -/
theorem emit_bind_eq_ok_iff {event : ε} {g : Unit → Trace ε β} {events : List ε} {b : β} :
    (emit event >>= g) = ⟨events, .ok b⟩ ↔
      ∃ after, g () = ⟨after, .ok b⟩ ∧ events = event :: after := by
  rw [bind_eq_ok_iff]
  constructor
  · rintro ⟨_, _, after, ⟨⟩, hafter, rfl⟩
    exact ⟨after, hafter, rfl⟩
  · rintro ⟨after, hafter, rfl⟩
    exact ⟨[event], (), after, rfl, hafter, rfl⟩

theorem pure_eq_ok_iff {a b : α} {events : List ε} :
    (pure a : Trace ε α) = ⟨events, .ok b⟩ ↔ a = b ∧ events = [] := by
  constructor
  · rintro ⟨⟩
    exact ⟨rfl, rfl⟩
  · rintro ⟨rfl, rfl⟩
    rfl

theorem fail_ne_ok {e : Fault} {a : α} {events : List ε} :
    (fail e : Trace ε α) ≠ ⟨events, .ok a⟩ :=
  fun h ↦ nomatch h

end Trace

namespace Schema

open Dictionary.Draft (fieldEvent)

/-- What is reported of a type, around what is reported of its fields. -/
def typeEvents (field : Option String) (t : TypeDef) (inner : List SchemaEvent) :
    List SchemaEvent :=
  .beginType field t :: (inner ++ [.endType field])

/-- What is reported of fields, in order, while the types `listed` have been listed, and which types
are new to the list afterwards. A type is listed when its own fields have been reported. -/
inductive Walks (s : Schema) : (fields : List FieldDef) → (listed : List TypeDef) →
    (events : List SchemaEvent) → (new : List TypeDef) → Prop where
  | nil {listed : List TypeDef} : Walks s [] listed [] []
  | primitive {f : FieldDef} {fs : List FieldDef} {listed new : List TypeDef}
      {events : List SchemaEvent} {k : Kind} (resolve : s.resolve f = .primitive k)
      (rest : Walks s fs listed events new) :
      Walks s (f :: fs) listed (fieldEvent f (.primitive k) :: events) new
  | again {f : FieldDef} {fs : List FieldDef} {listed new : List TypeDef}
      {events : List SchemaEvent} {t : TypeDef} (resolve : s.resolve f = .composite t)
      (mem : t ∈ listed) (rest : Walks s fs listed events new) :
      Walks s (f :: fs) listed (fieldEvent f (.composite t) :: events) new
  | first {f : FieldDef} {fs : List FieldDef} {listed below new : List TypeDef}
      {inner events : List SchemaEvent} {t : TypeDef} (resolve : s.resolve f = .composite t)
      (fresh : t ∉ listed) (fields : Walks s t.fields listed inner below)
      (rest : Walks s fs (listed ++ below ++ [t]) events new) :
      Walks s (f :: fs) listed
        (typeEvents (some f.name) t inner ++ fieldEvent f (.composite t) :: events)
        (below ++ t :: new)

variable {s : Schema} {fields : List FieldDef} {listed new : List TypeDef}
  {events : List SchemaEvent}

namespace Walks

/-- The types are listed in the order of visits. -/
theorem visits (h : s.Walks fields listed events new) :
    s.Visits (s.fieldTypes fields) listed (listed ++ new) := by
  induction h with
  | nil =>
    rw [List.append_nil]
    exact .nil
  | primitive resolve _ ih =>
    rw [fieldTypes_cons, resolve]
    exact ih
  | again resolve mem _ ih =>
    rw [fieldTypes_cons, resolve]
    exact .again mem ih
  | first resolve fresh _ _ ihfields ihrest =>
    rw [fieldTypes_cons, resolve, ← List.append_assoc, List.append_cons]
    exact .first fresh ihfields ihrest

end Walks

mutual

/-- **The walk over a type** that ends well reports what its fields demand, in brackets. -/
theorem exists_walks_of_walkType {walking : List String} {field : Option String} {t : TypeDef}
    {listed : List TypeDef} {events : List SchemaEvent} {visited : List String}
    (hlisted : listed ⊆ s.types) (ht : t ∈ s.types)
    (h : s.walkType walking field t (visitedNames listed) = ⟨events, .ok visited⟩) :
    ∃ inner below, events = typeEvents field t inner ∧
      visited = visitedNames (listed ++ below ++ [t]) ∧ listed ++ below ++ [t] ⊆ s.types ∧
      s.Walks t.fields listed inner below := by
  rw [walkType, Trace.emit_bind_eq_ok_iff] at h
  obtain ⟨_, h, rfl⟩ := h
  obtain ⟨inner, visited₁, after, hfields, hend, rfl⟩ := Trace.bind_eq_ok_iff.1 h
  obtain ⟨_, hpure, rfl⟩ := Trace.emit_bind_eq_ok_iff.1 hend
  obtain ⟨rfl, rfl⟩ := Trace.pure_eq_ok_iff.1 hpure
  obtain ⟨below, rfl, hbelow, hwalks⟩ := exists_walks_of_walkFields hlisted hfields
  refine ⟨inner, below, rfl, (visitedNames_snoc _ t).symm, ?_, hwalks⟩
  exact List.append_subset.2 ⟨hbelow, List.cons_subset.2 ⟨ht, List.nil_subset _⟩⟩
  termination_by (s.countOutside (t.name :: walking), 1, 0)
  decreasing_by
    apply Prod.Lex.right
    apply Prod.Lex.left
    decide

/-- **The walk over fields** that ends well follows the rules. -/
theorem exists_walks_of_walkFields {walking : List String} {owner : TypeDef}
    {fields : List FieldDef} {listed : List TypeDef} {events : List SchemaEvent}
    {visited : List String} (hlisted : listed ⊆ s.types)
    (h : s.walkFields walking owner fields (visitedNames listed) = ⟨events, .ok visited⟩) :
    ∃ new, visited = visitedNames (listed ++ new) ∧ listed ++ new ⊆ s.types ∧
      s.Walks fields listed events new := by
  match fields with
  | [] =>
    rw [walkFields, Trace.pure_eq_ok_iff] at h
    obtain ⟨rfl, rfl⟩ := h
    refine ⟨[], ?_, ?_, .nil⟩
    · rw [List.append_nil]
    · rwa [List.append_nil]
  | f :: fs =>
    cases hresolve : s.resolve f with
    | unknown =>
      rw [walkFields_unknown hresolve, Trace.emit_bind_eq_ok_iff] at h
      obtain ⟨_, hfail, -⟩ := h
      exact absurd hfail Trace.fail_ne_ok
    | primitive k =>
      rw [walkFields_primitive hresolve, Trace.emit_bind_eq_ok_iff] at h
      obtain ⟨_, hrest, rfl⟩ := h
      obtain ⟨new, hvisited, hsubset, hwalks⟩ := exists_walks_of_walkFields hlisted hrest
      exact ⟨new, hvisited, hsubset, .primitive hresolve hwalks⟩
    | composite t =>
      by_cases hentered : t.name ∈ walking
      · rw [walkFields_entered hresolve hentered] at h
        exact absurd h Trace.fail_ne_ok
      · have ht : t ∈ s.types := mem_of_resolve_eq_composite hresolve
        rw [walkFields_composite hresolve hentered, Trace.bind_eq_ok_iff] at h
        obtain ⟨before, visited₁, _, hwalk, hafter, rfl⟩ := h
        obtain ⟨_, hrest, rfl⟩ := Trace.emit_bind_eq_ok_iff.1 hafter
        -- the walk goes by names, the rules by types
        simp only [mem_visitedNames_iff hlisted ht] at hwalk
        split at hwalk
        · rename_i hmem
          obtain ⟨rfl, rfl⟩ := Trace.pure_eq_ok_iff.1 hwalk
          obtain ⟨new, hvisited, hsubset, hwalks⟩ := exists_walks_of_walkFields hlisted hrest
          exact ⟨new, hvisited, hsubset, .again hresolve hmem hwalks⟩
        · rename_i hfresh
          obtain ⟨inner, below, rfl, rfl, hbelow, hinner⟩ :=
            exists_walks_of_walkType hlisted ht hwalk
          obtain ⟨new, hvisited, hsubset, hwalks⟩ := exists_walks_of_walkFields hbelow hrest
          -- the type comes after what it reaches and before what the other fields reach
          refine ⟨below ++ t :: new, ?_, ?_, ?_⟩
          · rwa [← List.append_assoc, List.append_cons]
          · rwa [← List.append_assoc, List.append_cons]
          · exact .first hresolve hfresh hinner hwalks
  termination_by (s.countOutside walking, 0, fields.length)
  decreasing_by
    · apply Prod.Lex.right
      apply Prod.Lex.right
      simp
    · apply Prod.Lex.left
      exact countOutside_cons_lt ht hentered
    · apply Prod.Lex.right
      apply Prod.Lex.right
      simp
    · apply Prod.Lex.right
      apply Prod.Lex.right
      simp

end

/-! ### What is listed -/

variable {root : TypeDef}

/-- After a visit, the types of fields of what is listed are listed too. -/
theorem Visits.closed {ts listed listed' : List TypeDef} (h : s.Visits ts listed listed')
    (hlisted : ∀ t ∈ listed, s.fieldTypes t.fields ⊆ listed) :
    ts ⊆ listed' ∧ listed ⊆ listed' ∧ ∀ t ∈ listed', s.fieldTypes t.fields ⊆ listed' := by
  induction h with
  | nil => exact ⟨List.nil_subset _, List.Subset.refl _, hlisted⟩
  | again mem _ ih =>
    obtain ⟨hts, hsubset, hclosed⟩ := ih hlisted
    exact ⟨List.cons_subset.2 ⟨hsubset mem, hts⟩, hsubset, hclosed⟩
  | @first t _ _ below _ _ _ _ ihfields ihrest =>
    obtain ⟨hfields, hbelow, hclosed⟩ := ihfields hlisted
    have hleft : below ⊆ below ++ [t] := List.subset_append_left _ _
    have ht : t ∈ below ++ [t] := List.mem_append_right _ (List.mem_singleton_self t)
    obtain ⟨hts, hsubset, hclosed'⟩ := ihrest <| List.forall_mem_append.2
      ⟨fun u hu ↦ List.Subset.trans (hclosed u hu) hleft,
        List.forall_mem_singleton.2 (List.Subset.trans hfields hleft)⟩
    refine ⟨List.cons_subset.2 ⟨hsubset ht, hts⟩, ?_, hclosed'⟩
    exact List.Subset.trans (List.Subset.trans hbelow hleft) hsubset

/-- **Visiting a root** lists what it reaches. -/
theorem Visits.mem_iff_reaches {order : List TypeDef} (h : s.Visits [root] [] order)
    {t : TypeDef} : t ∈ order ↔ s.Reaches root t := by
  obtain ⟨hroot, -, hclosed⟩ := h.closed fun _ h ↦ absurd h List.not_mem_nil
  refine ⟨fun ht ↦ ?_, fun ht ↦ ?_⟩
  · rcases h.exists_reaches ht with ht | ⟨u, hu, hreaches⟩
    · cases ht
    · rwa [List.mem_singleton.1 hu] at hreaches
  · exact ht.mem_of_closed (hroot (List.mem_singleton_self root)) fun u hu v hv ↦ hclosed u hu hv

end Schema

namespace Dictionary

open Schema (visitedNames)

variable {s : Schema} {root : TypeDef} {d : Dictionary}

/-- **What the walk behind a dictionary reports**, and which types it lists: those with the names of
the entries. -/
theorem exists_walks_of_ofSchema (hroot : root ∈ s.types) (hd : ofSchema s root = .ok d) :
    ∃ inner below, s.walk root = ⟨Schema.typeEvents none root inner, .ok ()⟩ ∧
      s.Walks root.fields [] inner below ∧ s.Visits [root] [] (below ++ [root]) ∧
      (below ++ [root]).Nodup ∧
      d.types.toList.map TypeEntry.name = (below ++ [root]).map TypeDef.name := by
  unfold ofSchema at hd
  split at hd
  · cases hd
  · rename_i draft hrun
    split at hd
    · cases hd
      rw [Trace.outcomeFrom_eq_ok_iff, Schema.walk, Trace.run_bind_eq_ok_iff] at hrun
      obtain ⟨visited, _, hrun, hpure⟩ := hrun
      cases hpure
      obtain ⟨⟨⟨hfaithful, -⟩, -⟩, -⟩ := Draft.outside_walkType (Draft.faithful_empty s)
        (fun _ h ↦ absurd h List.not_mem_nil) hroot List.not_mem_nil List.not_mem_nil hrun
      -- the walk that was heard to its end ended well
      have hwalk : s.walkType [] none root (visitedNames []) =
          ⟨(s.walkType [] none root []).events, .ok visited⟩ :=
        congrArg (Trace.mk _) (Trace.outcome_of_run_eq_ok hrun)
      obtain ⟨inner, below, hevents, rfl, -, hwalks⟩ :=
        Schema.exists_walks_of_walkType (List.nil_subset _) hroot hwalk
      rw [hevents] at hwalk
      have hnames := hfaithful.names
      rw [visitedNames, List.reverse_reverse] at hnames
      refine ⟨inner, below, ?_, hwalks, .first List.not_mem_nil hwalks.visits .nil, ?_, hnames⟩
      · exact Trace.bind_eq_ok_iff.2 ⟨_, _, [], hwalk, rfl, (List.append_nil _).symm⟩
      · exact .of_map TypeDef.name (List.nodup_reverse.1 hfaithful.nodup)
    · cases hd

end Dictionary

end GraphCodec
