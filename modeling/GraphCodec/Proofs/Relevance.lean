import GraphCodec.Image.Writer
import GraphCodec.Matlab.Wrapper
import GraphCodec.Proofs.PostOrder

/-!
# Types that are not reached

What is made of a schema from a root depends only on the root and on the types that it reaches. Two
schemas *agree from* a type name if they have the same type with that name, and the same types for
all names that are declared in what it reaches (`Schema.AgreeFrom`). They then have the same walk
from it, and the dictionary, the code and the image of every record are the same or fail alike
(`Schema.SameOutput`).

The walk over types asks a schema for nothing else. The walk over a record does: a record in the
graph may name a type that only one of the schemas has. But a writer knows the types of the
dictionary, and these are all reached. It refuses a record of any other type with the fault that
the walk itself ends with when the type is missing (`Image.Writer.run_unregistered`).
-/

namespace GraphCodec

/-! ### Results of walks -/

/-- After a first part, only what it can return matters to the second. -/
theorem bind_congr_of_ok {α β : Type} {x : Except Fault α} {f g : α → Except Fault β}
    (h : ∀ a, x = .ok a → f a = g a) : (x >>= f) = (x >>= g) := by
  match x, h with
  | .error e, _ => rfl
  | .ok a, h => exact h a rfl

namespace Trace

variable {ε α β σ : Type} {t : Trace ε α} {f : α → Trace ε β}

/-- A walk after another comes to its end if both do. -/
theorem outcome_bind_eq_ok_iff {b : β} :
    (t >>= f).outcome = .ok b ↔ ∃ a, t.outcome = .ok a ∧ (f a).outcome = .ok b := by
  show (t.bind f).outcome = .ok b ↔ _
  unfold Trace.bind
  cases t.outcome with
  | error e => simp
  | ok a => simp

/-- Who hears a walk to its end hears its result. -/
theorem outcome_of_run_eq_ok {listen : Listener ε σ} {s s' : σ} {a : α}
    (h : run listen t s = .ok a s') : t.outcome = .ok a := by
  unfold run at h
  split at h
  · cases h
  · split at h
    · rename_i hout
      cases h
      exact hout
    · cases h

/-- Walks in order are heard alike if each of them is. -/
theorem run_sequence_map_congr {listen : Listener ε σ}
    {walk₁ walk₂ : α → Trace ε Unit} {as : List α}
    (h : ∀ a ∈ as, run listen (walk₁ a) = run listen (walk₂ a)) :
    run listen (sequence (as.map walk₁)) = run listen (sequence (as.map walk₂)) := by
  induction as with
  | nil => rfl
  | cons a as ih =>
    rw [List.map_cons, List.map_cons, sequence_cons, sequence_cons, run_bind, run_bind,
      h a List.mem_cons_self, ih fun b hb ↦ h b (List.mem_cons_of_mem a hb)]

end Trace

namespace Schema

/-! ### Agreement -/

/-- Whether two schemas have the same type with a given name, and the same type, or none, for each
name that a field of a type reached from it declares. Names of kinds are no concern of theirs. -/
structure AgreeFrom (s₁ s₂ : Schema) (name : String) : Prop where
  root : s₁.get? name = s₂.get? name
  declared : ∀ root t f, s₁.get? name = some root → s₁.Reaches root t → f ∈ t.fields →
    Kind.ofName? f.typeName = none → s₁.get? f.typeName = s₂.get? f.typeName

/-- Whether two schemas give the same from a root with a given name: the same events and, success
or fault, the same dictionary, the same code and the same image of every record. -/
structure SameOutput (s₁ s₂ : Schema) (name : String) : Prop where
  root : s₁.get? name = s₂.get? name
  walk : ∀ root, s₁.get? name = some root → s₁.walk root = s₂.walk root
  dictionary : ∀ root, s₁.get? name = some root →
    Dictionary.ofSchema s₁ root = Dictionary.ofSchema s₂ root
  code : ∀ root, s₁.get? name = some root → Matlab.generate s₁ root = Matlab.generate s₂ root
  image : ∀ r : Record, r.typeName = name → Image.encode s₁ r = Image.encode s₂ r

/-- Whether the fields of all types reached from a root mean the same in two schemas. -/
def SameFields (s₁ s₂ : Schema) (root : TypeDef) : Prop :=
  ∀ t, s₁.Reaches root t → ∀ f ∈ t.fields, s₁.resolve f = s₂.resolve f

variable {s s₁ s₂ : Schema} {name : String} {root t : TypeDef}

/-- A field is resolved alike if what its name stands for is; primitives come first. -/
theorem resolve_congr {f : FieldDef}
    (h : Kind.ofName? f.typeName = none → s₁.get? f.typeName = s₂.get? f.typeName) :
    s₁.resolve f = s₂.resolve f := by
  rw [resolve, resolve]
  cases hkind : Kind.ofName? f.typeName with
  | some k => rfl
  | none => rw [h hkind]

/-- The name of a composite type is no primitive one. -/
theorem ofName?_of_resolve_eq_composite {f : FieldDef} (h : s.resolve f = .composite t) :
    Kind.ofName? f.typeName = none := by
  rw [resolve] at h
  cases hkind : Kind.ofName? f.typeName with
  | some k => simp [hkind] at h
  | none => rfl

theorem refers_of_resolve {f : FieldDef} {u : TypeDef} (hf : f ∈ t.fields)
    (h : s.resolve f = .composite u) : s.Refers t u :=
  refers_iff.2 ⟨f, hf, element?_eq_composite_iff.2 h⟩

namespace AgreeFrom

/-- Schemas that agree from a root on have the same fields where the root reaches. -/
theorem sameFields (h : AgreeFrom s₁ s₂ name) (hroot : s₁.get? name = some root) :
    SameFields s₁ s₂ root :=
  fun t ht f hf ↦ resolve_congr (h.declared root t f hroot ht hf)

/-- **What is reached** is the same in both schemas. -/
theorem get?_of_reaches (h : AgreeFrom s₁ s₂ name) (hroot : s₁.get? name = some root)
    (ht : s₁.Reaches root t) : s₁.get? t.name = s₂.get? t.name := by
  rcases Relation.ReflTransGen.cases_tail ht with rfl | ⟨u, hu, hrefers⟩
  · rw [name_of_get?_eq_some hroot]
    exact h.root
  · obtain ⟨f, hf, helement⟩ := refers_iff.1 hrefers
    have hresolve : s₁.resolve f = .composite t := element?_eq_composite_iff.1 helement
    rw [name_of_get?_eq_some (get?_of_resolve_eq_composite hresolve)]
    exact h.declared root u f hroot hu hf (ofName?_of_resolve_eq_composite hresolve)

end AgreeFrom

/-! ### The walk over types -/

/-- A field of a type that is being walked ends the walk. -/
theorem walkFields_entered {walking visited : List String} {owner : TypeDef} {f : FieldDef}
    {fs : List FieldDef} (h : s.resolve f = .composite t) (hentered : t.name ∈ walking) :
    s.walkFields walking owner (f :: fs) visited = Trace.fail (.recursiveType t.name) := by
  rw [walkFields]
  split
  · rename_i hk
    simp [h] at hk
  · rename_i t' ht'
    obtain rfl : t = t' := by simpa [h] using ht'
    rw [dif_pos hentered]
  · rename_i hunknown
    simp [h] at hunknown

/-- A field of an unknown type ends the walk. -/
theorem walkFields_unknown {walking visited : List String} {owner : TypeDef} {f : FieldDef}
    {fs : List FieldDef} (h : s.resolve f = .unknown) :
    s.walkFields walking owner (f :: fs) visited = (do
      Trace.emit (.unknown owner f)
      Trace.fail (unsupportedField owner f)) := by
  rw [walkFields]
  split
  · rename_i hk
    simp [h] at hk
  · rename_i ht
    simp [h] at ht
  · rfl

mutual

/-- **The walk over a type** asks the schema for the types of fields only. -/
theorem SameFields.walkType_eq (h : SameFields s₁ s₂ root) {t : TypeDef}
    (ht : s₁.Reaches root t) (walking : List String) (field : Option String)
    (visited : List String) :
    s₁.walkType walking field t visited = s₂.walkType walking field t visited := by
  rw [walkType, walkType, h.walkFields_eq ht (List.Subset.refl t.fields)]
  termination_by (s₁.countOutside (t.name :: walking), 1, 0)
  decreasing_by
    apply Prod.Lex.right
    apply Prod.Lex.left
    decide

/-- The walk over fields of a type. -/
theorem SameFields.walkFields_eq (h : SameFields s₁ s₂ root) {owner : TypeDef}
    (howner : s₁.Reaches root owner) {fields : List FieldDef} (hfields : fields ⊆ owner.fields)
    (walking visited : List String) :
    s₁.walkFields walking owner fields visited = s₂.walkFields walking owner fields visited := by
  match fields with
  | [] => rw [walkFields, walkFields]
  | f :: fs =>
    have hf : f ∈ owner.fields := hfields List.mem_cons_self
    have hrest : ∀ visited, s₁.walkFields walking owner fs visited =
        s₂.walkFields walking owner fs visited := fun visited ↦
      h.walkFields_eq howner (List.subset_of_cons_subset hfields) walking visited
    have hsame : s₁.resolve f = s₂.resolve f := h owner howner f hf
    cases hresolve : s₁.resolve f with
    | primitive k =>
      rw [walkFields_primitive hresolve, walkFields_primitive (hsame.symm.trans hresolve), hrest]
    | unknown =>
      rw [walkFields_unknown hresolve, walkFields_unknown (hsame.symm.trans hresolve)]
    | composite u =>
      have hresolve' : s₂.resolve f = .composite u := hsame.symm.trans hresolve
      by_cases hentered : u.name ∈ walking
      · rw [walkFields_entered hresolve hentered, walkFields_entered hresolve' hentered]
      · have hu : s₁.Reaches root u := howner.tail (refers_of_resolve hf hresolve)
        rw [walkFields_composite hresolve hentered, walkFields_composite hresolve' hentered,
          h.walkType_eq hu]
        simp only [hrest]
  termination_by (s₁.countOutside walking, 0, fields.length)
  decreasing_by
    · apply Prod.Lex.right
      apply Prod.Lex.right
      simp
    · apply Prod.Lex.left
      exact countOutside_cons_lt (mem_of_resolve_eq_composite hresolve) hentered

end

/-- **The walk over a schema** depends on what the root reaches. -/
theorem SameFields.walk_eq (h : SameFields s₁ s₂ root) : s₁.walk root = s₂.walk root := by
  rw [walk, walk, h.walkType_eq .refl]

/-! ### What a dictionary lists -/

/-- The names of the types that a walk has visited, beside those visited before it, are names of
types that `root` reaches. -/
def VisitsReached (s : Schema) (root : TypeDef) (visited : List String)
    (walk : Trace SchemaEvent (List String)) : Prop :=
  ∀ visited', walk.outcome = .ok visited' → ∀ n ∈ visited', n ∈ visited ∨
    ∃ t, s.Reaches root t ∧ t.name = n

/-- Walks one after the other visit what is reached. -/
theorem VisitsReached.bind {visited : List String} {walk : Trace SchemaEvent (List String)}
    {f : List String → Trace SchemaEvent (List String)} (h : s.VisitsReached root visited walk)
    (hf : ∀ visited', s.VisitsReached root visited' (f visited')) :
    s.VisitsReached root visited (walk >>= f) := by
  intro visited'' hout n hn
  obtain ⟨visited', hwalk, hout⟩ := Trace.outcome_bind_eq_ok_iff.1 hout
  rcases hf visited' visited'' hout n hn with hn | hreached
  · exact h visited' hwalk n hn
  · exact .inr hreached

theorem visitsReached_pure (visited : List String) :
    s.VisitsReached root visited (pure visited) := by
  rintro _ ⟨⟩ n hn
  exact .inl hn

/-- An event visits nothing. -/
theorem VisitsReached.emit_bind {visited : List String} {event : SchemaEvent}
    {walk : Trace SchemaEvent (List String)} (h : s.VisitsReached root visited walk) :
    s.VisitsReached root visited (Trace.emit event >>= fun _ ↦ walk) := by
  intro visited' hout
  obtain ⟨_, -, hout⟩ := Trace.outcome_bind_eq_ok_iff.1 hout
  exact h visited' hout

mutual

/-- **A walk visits only what is reached**. -/
theorem visitsReached_walkType {t : TypeDef} (ht : s.Reaches root t) (walking : List String)
    (field : Option String) (visited : List String) :
    s.VisitsReached root visited (s.walkType walking field t visited) := by
  rw [walkType]
  refine VisitsReached.emit_bind <| VisitsReached.bind
    (visitsReached_walkFields ht (List.Subset.refl t.fields) (t.name :: walking) visited)
    fun visited' ↦ VisitsReached.emit_bind ?_
  rintro _ ⟨⟩ n hn
  rcases List.mem_cons.1 hn with rfl | hn
  · exact .inr ⟨t, ht, rfl⟩
  · exact .inl hn
  termination_by (s.countOutside (t.name :: walking), 1, 0)
  decreasing_by
    apply Prod.Lex.right
    apply Prod.Lex.left
    decide

/-- **The walk over fields** visits types that are reached through these, by the recursion of the
walk. -/
theorem visitsReached_walkFields {owner : TypeDef} (howner : s.Reaches root owner)
    {fields : List FieldDef} (hfields : fields ⊆ owner.fields) (walking visited : List String) :
    s.VisitsReached root visited (s.walkFields walking owner fields visited) := by
  match fields with
  | [] =>
    rw [walkFields]
    exact visitsReached_pure visited
  | f :: fs =>
    have hf : f ∈ owner.fields := hfields List.mem_cons_self
    have hrest : ∀ visited,
        s.VisitsReached root visited (s.walkFields walking owner fs visited) := fun visited ↦
      visitsReached_walkFields howner (List.subset_of_cons_subset hfields) walking visited
    cases hresolve : s.resolve f with
    | primitive k =>
      rw [walkFields_primitive hresolve]
      exact (hrest visited).emit_bind
    | unknown =>
      rw [walkFields_unknown hresolve]
      exact VisitsReached.emit_bind fun _ hout ↦ (by cases hout)
    | composite t =>
      by_cases hentered : t.name ∈ walking
      · rw [walkFields_entered hresolve hentered]
        exact fun _ hout ↦ (by cases hout)
      -- one step further than the owner
      · have ht : s.Reaches root t := howner.tail (refers_of_resolve hf hresolve)
        rw [walkFields_composite hresolve hentered]
        refine VisitsReached.bind ?_ fun visited' ↦ (hrest visited').emit_bind
        split
        · exact visitsReached_pure visited
        · exact visitsReached_walkType ht walking (some f.name) visited
  termination_by (s.countOutside walking, 0, fields.length)
  decreasing_by
    · apply Prod.Lex.right
      apply Prod.Lex.right
      simp
    · apply Prod.Lex.left
      exact countOutside_cons_lt (mem_of_resolve_eq_composite hresolve) hentered

end

/-- **A dictionary lists only what is reached**, however many types there are. -/
theorem exists_reaches_of_tagFor? {d : Dictionary} (hroot : root ∈ s.types)
    (hd : Dictionary.ofSchema s root = .ok d) {n : String} (hn : (d.tagFor? n).isSome = true) :
    ∃ t, s.Reaches root t ∧ t.name = n := by
  unfold Dictionary.ofSchema at hd
  split at hd
  · cases hd
  · rename_i u draft hwalk
    rw [Trace.outcomeFrom_eq_ok_iff, walk, Trace.run_bind_eq_ok_iff] at hwalk
    obtain ⟨visited, draft', hrun, hpure⟩ := hwalk
    cases hpure
    split at hd
    · cases hd
      obtain ⟨⟨hext, -⟩, -⟩ := Dictionary.Draft.outside_walkType
        (Dictionary.Draft.faithful_empty s) (fun _ h ↦ absurd h List.not_mem_nil) hroot
        List.not_mem_nil List.not_mem_nil hrun
      have hvisited : n ∈ visited :=
        hext.faithful.mem_iff.2 (Decoder.isSome_tagFor?_iff.1 hn)
      have hreached : s.VisitsReached root [] (s.walkType [] none root []) :=
        visitsReached_walkType .refl [] none []
      exact (hreached visited (Trace.outcome_of_run_eq_ok hrun) n hvisited).resolve_left
        List.not_mem_nil
    · cases hd

end Schema

/-! ### The walk over a record -/

namespace Image

namespace Writer

variable {s₁ s₂ : Schema} {d : Dictionary}

/-- **A record of a type that is not listed** is refused in the same way whether the schema has the
type or not, and before anything is written of it. -/
theorem run_unregistered (s : Schema) {typeName : String} (h : d.tagFor? typeName = none)
    (f : FieldDef) (c : TypeDef) (fields : List (String × Value)) :
    Trace.run (listener d) (s.walkValue f (.composite c) 0 (.record typeName fields)) =
      fun w ↦ .error (.unregisteredType typeName) w := by
  rw [Schema.walkValue]
  split
  · rename_i t ht
    have hcheck : checkType d (some f.name) c.name t = .error (.unregisteredType typeName) := by
      rw [checkType, Schema.name_of_get?_eq_some ht, h]
      rfl
    have hbegin : listener d (.beginRecord (some f.name) c.name t) =
        fun w ↦ .error (.unregisteredType typeName) w := by
      funext w
      simp only [listener, hcheck]
    rw [Schema.walkRecord, Trace.run_bind, Trace.run_emit, hbegin]
    rfl
  · rfl

/-- Whether a writer does the same with a value in a slot of two schemas. -/
def HearsAlike (d : Dictionary) (s₁ s₂ : Schema) (v : Value) : Prop :=
  ∀ (f : FieldDef) (element : ElementType) (dims : Nat),
    Trace.run (listener d) (s₁.walkValue f element dims v) =
      Trace.run (listener d) (s₂.walkValue f element dims v)

/-- A record of a type whose fields mean the same. -/
theorem run_walkRecord_congr {t : TypeDef} (ht : ∀ f ∈ t.fields, s₁.resolve f = s₂.resolve f)
    {fields : List (String × Value)}
    (ih : ∀ name, HearsAlike d s₁ s₂ (Value.fieldOf fields name)) (field : Option String)
    (declared : String) :
    Trace.run (listener d) (s₁.walkRecord field declared t fields) =
      Trace.run (listener d) (s₂.walkRecord field declared t fields) := by
  rw [Schema.walkRecord, Schema.walkRecord]
  simp only [Trace.run_bind]
  rw [Trace.run_sequence_map_congr fun f hf ↦ ?_]
  rw [ht f hf]
  split
  · exact ih f.name f _ f.dims
  · exact ih f.name f _ f.dims
  · rfl

/-- What is neither an array nor a record is walked without the schema. -/
theorem hearsAlike_leaf {v : Value} (harray : ∀ items, v ≠ .array items)
    (hrecord : ∀ typeName fields, v ≠ .record typeName fields) : HearsAlike d s₁ s₂ v := by
  intro f element dims
  congr 1
  rw [Schema.walkValue.eq_def, Schema.walkValue.eq_def]
  cases v with
  | array items => exact absurd rfl (harray items)
  | record typeName fields => exact absurd rfl (hrecord typeName fields)
  | _ => rfl

/-- An array is heard alike if its items are. -/
theorem hearsAlike_array {items : List Value} (ih : ∀ v ∈ items, HearsAlike d s₁ s₂ v) :
    HearsAlike d s₁ s₂ (.array items) := by
  intro f element dims
  match dims, element with
  | 0, .primitive k | 0, .composite c => rw [Schema.walkValue, Schema.walkValue] <;> simp
  | dims + 1, element =>
    obtain ⟨k, rfl, rfl⟩ | row := Schema.row_cases element dims
    · rw [Schema.walkValue_row, Schema.walkValue_row]
    · have hitems := Trace.run_sequence_map_congr fun v hv ↦ ih v hv f element dims
      rw [Schema.walkValue_array s₁ f row, Schema.walkValue_array s₂ f row]
      simp only [Trace.run_bind]
      rw [hitems]

/-- Whether two schemas agree on the types that a dictionary lists, and on their fields. -/
structure AgreeOnListed (d : Dictionary) (s₁ s₂ : Schema) : Prop where
  types : ∀ name, (d.tagFor? name).isSome = true → s₁.get? name = s₂.get? name
  fields : ∀ name t, (d.tagFor? name).isSome = true → s₁.get? name = some t →
    ∀ f ∈ t.fields, s₁.resolve f = s₂.resolve f

/-- A record in a slot: if its type is listed, the schemas agree on it, and otherwise it is
refused. -/
theorem AgreeOnListed.run_composite (h : AgreeOnListed d s₁ s₂) (f : FieldDef) (c : TypeDef)
    (typeName : String) {fields : List (String × Value)}
    (ih : ∀ name, HearsAlike d s₁ s₂ (Value.fieldOf fields name)) :
    Trace.run (listener d) (s₁.walkValue f (.composite c) 0 (.record typeName fields)) =
      Trace.run (listener d) (s₂.walkValue f (.composite c) 0 (.record typeName fields)) := by
  cases htag : d.tagFor? typeName with
  | none => rw [run_unregistered s₁ htag, run_unregistered s₂ htag]
  | some tag =>
    have hlisted : (d.tagFor? typeName).isSome = true := Option.isSome_iff_exists.2 ⟨tag, htag⟩
    rw [Schema.walkValue, Schema.walkValue, ← h.types typeName hlisted]
    cases hget : s₁.get? typeName with
    | none => rfl
    | some t => exact run_walkRecord_congr (h.fields typeName t hlisted hget) ih _ _

/-- **A writer does the same** with every value if the schemas agree on what its dictionary
lists. -/
theorem AgreeOnListed.hearsAlike (h : AgreeOnListed d s₁ s₂) (v : Value) :
    HearsAlike d s₁ s₂ v := by
  induction v using Value.lookupInduction with
  | leaf v harray hrecord => exact hearsAlike_leaf harray hrecord
  | array items ih => exact hearsAlike_array ih
  | record typeName fields ih =>
    intro f element dims
    match dims, element with
    | 0, .composite c => exact h.run_composite f c typeName ih
    | 0, .primitive k => rw [Schema.walkValue, Schema.walkValue]
    | dims + 1, element => rw [Schema.walkValue.eq_def, Schema.walkValue.eq_def]

/-- **What is heard of a record** depends on the types that the dictionary lists. -/
theorem AgreeOnListed.run_walkRoot (h : AgreeOnListed d s₁ s₂) {r : Record} {t : TypeDef}
    (ht : s₁.get? r.typeName = some t) (hlisted : (d.tagFor? r.typeName).isSome = true) :
    Trace.run (listener d) (s₁.walkRoot r) = Trace.run (listener d) (s₂.walkRoot r) := by
  rw [Schema.walkRoot, Schema.walkRoot, ← h.types r.typeName hlisted, ht]
  exact run_walkRecord_congr (h.fields r.typeName t hlisted ht) (fun name ↦ h.hearsAlike _) _ _

end Writer

end Image

/-! ### The same output -/

namespace Schema

variable {s s₁ s₂ : Schema} {name : String} {root : TypeDef}

namespace AgreeFrom

theorem walk_eq (h : AgreeFrom s₁ s₂ name) (hroot : s₁.get? name = some root) :
    s₁.walk root = s₂.walk root :=
  (h.sameFields hroot).walk_eq

/-- The dictionary depends on what the root reaches. -/
theorem ofSchema_eq (h : AgreeFrom s₁ s₂ name) (hroot : s₁.get? name = some root) :
    Dictionary.ofSchema s₁ root = Dictionary.ofSchema s₂ root := by
  rw [Dictionary.ofSchema, Dictionary.ofSchema, h.walk_eq hroot]

/-- So do the generated files. -/
theorem generate_eq (h : AgreeFrom s₁ s₂ name) (hroot : s₁.get? name = some root) :
    Matlab.generate s₁ root = Matlab.generate s₂ root := by
  rw [Matlab.generate, Matlab.generate, h.walk_eq hroot, h.ofSchema_eq hroot]

/-- The types in the dictionary of the root are reached, so the schemas agree on them. -/
theorem agreeOnListed (h : AgreeFrom s₁ s₂ name) (hroot : s₁.get? name = some root)
    {d : Dictionary} (hd : Dictionary.ofSchema s₁ root = .ok d) :
    Image.Writer.AgreeOnListed d s₁ s₂ where
  types n hn := by
    obtain ⟨t, ht, rfl⟩ := exists_reaches_of_tagFor? (mem_of_get?_eq_some hroot) hd hn
    exact h.get?_of_reaches hroot ht
  fields n u hn hu := by
    obtain ⟨t, ht, rfl⟩ := exists_reaches_of_tagFor? (mem_of_get?_eq_some hroot) hd hn
    obtain rfl : u = t := eq_of_name_eq (mem_of_get?_eq_some hu)
      (ht.mem (mem_of_get?_eq_some hroot)) (name_of_get?_eq_some hu)
    exact h.sameFields hroot u ht

/-- And so does the image of a record, or the error instead of one. -/
theorem encode_eq (h : AgreeFrom s₁ s₂ name) {r : Record} (hr : r.typeName = name) :
    Image.encode s₁ r = Image.encode s₂ r := by
  subst hr
  rw [Image.encode, Image.encode, ← h.root]
  cases hroot : s₁.get? r.typeName with
  | none => rfl
  | some t =>
    simp only
    rw [← h.ofSchema_eq hroot]
    refine bind_congr_of_ok fun d hd ↦ ?_
    have hlisted : (d.tagFor? r.typeName).isSome = true := by
      rw [← name_of_get?_eq_some hroot]
      exact Decoder.isSome_tagFor?_iff.2
        (Dictionary.OfSchema.of_eq_ok (mem_of_get?_eq_some hroot) hd).root
    have hrun := (h.agreeOnListed hroot hd).run_walkRoot hroot hlisted
    simp only [Trace.outcomeFrom, hrun]

/-- **All output depends on what the root reaches.** -/
theorem sameOutput (h : AgreeFrom s₁ s₂ name) : SameOutput s₁ s₂ name where
  root := h.root
  walk _ := h.walk_eq
  dictionary _ := h.ofSchema_eq
  code _ := h.generate_eq
  image _ := h.encode_eq

end AgreeFrom

/-- Leaving out types that are not reached, and putting the others into any order. -/
theorem agreeFrom_of_subset (hsubset : s₂.types ⊆ s₁.types)
    (hreached : ∀ root t, s₁.get? name = some root → s₁.Reaches root t → t ∈ s₂.types) :
    AgreeFrom s₁ s₂ name := by
  have hsame : ∀ n, (∀ t, s₁.get? n = some t → t ∈ s₂.types) → s₁.get? n = s₂.get? n := by
    intro n hkept
    refine Option.ext fun t ↦ ⟨fun ht ↦ ?_, fun ht ↦ ?_⟩
    · exact get?_eq_some_iff.2 ⟨hkept t ht, name_of_get?_eq_some ht⟩
    · exact get?_eq_some_iff.2
        ⟨hsubset (mem_of_get?_eq_some ht), name_of_get?_eq_some ht⟩
  refine ⟨hsame name fun root hroot ↦ hreached root root hroot .refl, ?_⟩
  intro root t f hroot ht hf hkind
  refine hsame f.typeName fun u hu ↦ hreached root u hroot (ht.tail (refers_of_resolve hf ?_))
  rw [resolve, hkind, hu]

/-- A type that is added is there, in place of the one with its name. -/
theorem mem_add (s : Schema) (t : TypeDef) : t ∈ (s.add t).types := by
  show t ∈ insertType s.types t
  unfold insertType
  split
  · rename_i hany
    obtain ⟨u, hu, hname⟩ := List.any_eq_true.1 hany
    exact List.mem_map.2 ⟨u, hu, if_pos hname⟩
  · exact List.mem_append_right _ (List.mem_singleton_self t)

/-- A type that is added takes the place of one of its name, and all others stay. -/
theorem mem_add_iff {t u : TypeDef} (h : u.name ≠ t.name) : u ∈ (s.add t).types ↔ u ∈ s.types := by
  have hother : ∀ v : TypeDef, v.name ≠ t.name → (if v.name == t.name then t else v) = v :=
    fun v hv ↦ if_neg fun hname ↦ hv (beq_iff_eq.1 hname)
  show u ∈ insertType s.types t ↔ _
  unfold insertType
  split
  · rw [List.mem_map]
    constructor
    · rintro ⟨v, hv, rfl⟩
      by_cases hname : v.name = t.name
      · rw [if_pos (beq_iff_eq.2 hname)] at h
        exact absurd rfl h
      · rwa [hother v hname]
    · exact fun hu ↦ ⟨u, hu, hother u h⟩
  · rw [List.mem_append, List.mem_singleton]
    refine or_iff_left ?_
    rintro rfl
    exact h rfl

/-- The added type is found. -/
theorem get?_add (s : Schema) (t : TypeDef) : (s.add t).get? t.name = some t :=
  get?_eq_some_iff.2 ⟨mem_add s t, rfl⟩

/-- Types of other names are found as before. -/
theorem get?_add_of_ne {n : String} {t : TypeDef} (h : n ≠ t.name) :
    (s.add t).get? n = s.get? n := by
  refine Option.ext fun u ↦ ?_
  rw [get?_eq_some_iff, get?_eq_some_iff]
  refine and_congr_left ?_
  rintro rfl
  exact mem_add_iff h

/-- Adding a type, or replacing one, that is not reached with it. -/
theorem agreeFrom_add {t : TypeDef}
    (h : ∀ root, (s.add t).get? name = some root → ¬(s.add t).Reaches root t) :
    AgreeFrom (s.add t) s name := by
  have hname : name ≠ t.name := by
    rintro rfl
    exact h t (get?_add s t) .refl
  refine ⟨get?_add_of_ne hname, fun root u f hroot hu hf hkind ↦ get?_add_of_ne ?_⟩
  intro hf'
  refine h root hroot (hu.tail (refers_of_resolve hf ?_))
  rw [resolve, hkind, hf', get?_add]

/-- **Only what is reached matters.** Schemas that agree from a type name give the same output from
it. So nothing of the output changes when types that are not reached are left out and the others
are put into any order, nor when such a type is added or takes the place of another. -/
theorem output_of_reached (s₁ s₂ : Schema) (name : String) :
    (AgreeFrom s₁ s₂ name → SameOutput s₁ s₂ name) ∧
      (s₂.types ⊆ s₁.types →
        (∀ root t, s₁.get? name = some root → s₁.Reaches root t → t ∈ s₂.types) →
          SameOutput s₁ s₂ name) ∧
      (∀ t, (∀ root, (s₁.add t).get? name = some root → ¬(s₁.add t).Reaches root t) →
        SameOutput (s₁.add t) s₁ name) :=
  ⟨AgreeFrom.sameOutput, fun hsubset hreached ↦ (agreeFrom_of_subset hsubset hreached).sameOutput,
    fun _ ht ↦ (agreeFrom_add ht).sameOutput⟩

/-- What is closed under following fields holds all that is reached. -/
theorem Reaches.mem_of_closed {ts : List TypeDef} (hroot : root ∈ ts)
    (hclosed : ∀ t ∈ ts, ∀ u ∈ s.fieldTypes t.fields, u ∈ ts) {t : TypeDef}
    (h : s.Reaches root t) : t ∈ ts := by
  induction h with
  | refl => exact hroot
  | tail _ hrefers ih => exact hclosed _ ih _ hrefers

/-! A drawing is the same with and without notes in the schema, and a note in its place is refused
in the same way. -/

def noteType : TypeDef :=
  ⟨"Note", [⟨"text", "string", 0, false⟩]⟩

/-- The types of drawings in another order. -/
def bareSchema : Schema :=
  ⟨none, [Dictionary.pointType, Dictionary.lineType, Dictionary.drawingType], by decide⟩

def strayRecord : Record :=
  ⟨"Drawing", [("origin", .record "Note" [])]⟩

theorem output_of_reached_drawing :
    AgreeFrom Dictionary.drawingSchema bareSchema "Drawing" ∧
      SameOutput Dictionary.drawingSchema bareSchema "Drawing" ∧
      SameOutput (bareSchema.add noteType) bareSchema "Drawing" ∧
      Image.encode Dictionary.drawingSchema strayRecord = .error (.unregisteredType "Note") ∧
      Image.encode bareSchema strayRecord = .error (.unregisteredType "Note") := by
  have hroot : ∀ s : Schema, ∀ root, s.get? "Drawing" = some root →
      s.get? "Drawing" = some Dictionary.drawingType → root = Dictionary.drawingType :=
    fun s root h h' ↦ Option.some.inj (h.symm.trans h')
  have hreached : ∀ root t, Dictionary.drawingSchema.get? "Drawing" = some root →
      Dictionary.drawingSchema.Reaches root t → t ∈ bareSchema.types := by
    intro root t h ht
    obtain rfl := hroot _ root h (by decide)
    exact ht.mem_of_closed (by decide) (by decide)
  have hsubset : bareSchema.types ⊆ Dictionary.drawingSchema.types := by decide
  have hnote : ∀ root, (bareSchema.add noteType).get? "Drawing" = some root →
      ¬(bareSchema.add noteType).Reaches root noteType := by
    intro root h hnote
    obtain rfl := hroot _ root h (by decide)
    have hmem : noteType ∈ bareSchema.types := hnote.mem_of_closed (by decide) (by decide)
    exact absurd hmem (by decide)
  have hagree := agreeFrom_of_subset hsubset hreached
  obtain ⟨hsame, hleft, -⟩ := output_of_reached Dictionary.drawingSchema bareSchema "Drawing"
  obtain ⟨-, -, hadd⟩ := output_of_reached bareSchema bareSchema "Drawing"
  have hstray : Image.encode Dictionary.drawingSchema strayRecord =
      .error (.unregisteredType "Note") := by cbv
  exact ⟨hagree, hleft hsubset hreached, hadd noteType hnote, hstray,
    ((hsame hagree).image strayRecord rfl).symm.trans hstray⟩

end Schema

end GraphCodec
