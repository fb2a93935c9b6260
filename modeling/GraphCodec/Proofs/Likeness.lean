import GraphCodec.Container.Builder
import GraphCodec.Proofs.PostOrder
import GraphCodec.Proofs.Reencoding

/-!
# Graphs that look alike

The walk over a record asks it for the fields of its type, by name, and for nothing else. So two
graphs look alike if they are the same as far as such look-ups go: the same scalars, arrays of as
many items that look alike, and records of one type that look alike in every field of it
(`Schema.Alike`). The walks over them are then the same event for event, faults included, and with
them whatever is made of the graphs (`Schema.output_of_alike`).

This covers each change that leaves all look-ups as they are (`Schema.Unseen`): fields in another
order, fields that the type does not have, fields that an earlier one of the same name hides, and
fields that are absent instead of missing, at any depth.
-/

namespace GraphCodec

/-! ### Look-ups -/

namespace Value

variable {fields others before after : List (String × Value)} {name : String}

theorem lookup?_of_notMem (h : name ∉ fields.map Prod.fst) : lookup? fields name = none := by
  rw [lookup?, Option.map_eq_none_iff, List.find?_eq_none]
  rintro f hf hname
  exact h (List.mem_map.2 ⟨f, hf, beq_iff_eq.1 hname⟩)

theorem isSome_lookup?_of_mem (h : name ∈ fields.map Prod.fst) :
    (lookup? fields name).isSome = true := by
  obtain ⟨f, hf, rfl⟩ := List.mem_map.1 h
  rw [lookup?, Option.isSome_map]
  exact List.find?_isSome.2 ⟨f, hf, beq_self_eq_true _⟩

/-- Earlier fields come first. -/
theorem lookup?_append (before after : List (String × Value)) (name : String) :
    lookup? (before ++ after) name = (lookup? before name).or (lookup? after name) := by
  rw [lookup?, List.find?_append, Option.map_or]
  rfl

/-- A field that is not there is absent. -/
theorem fieldOf_of_notMem (h : name ∉ fields.map Prod.fst) : fieldOf fields name = .null := by
  rw [fieldOf, lookup?_of_notMem h, Option.getD_none]

/-- The order of fields with distinct names does not matter. -/
theorem fieldOf_perm (hnodup : (fields.map Prod.fst).Nodup) (hperm : fields.Perm others)
    (name : String) : fieldOf fields name = fieldOf others name := by
  have hnames := hperm.map Prod.fst
  by_cases h : name ∈ fields.map Prod.fst
  · obtain ⟨f, hf, rfl⟩ := List.mem_map.1 h
    rw [fieldOf_of_mem hnodup hf, fieldOf_of_mem (hnames.nodup_iff.1 hnodup) (hperm.mem_iff.1 hf)]
  · rw [fieldOf_of_notMem h, fieldOf_of_notMem fun h' ↦ h (hnames.mem_iff.2 h')]

/-- The first field of a name is the one that is found. -/
theorem fieldOf_append_of_mem (h : name ∈ before.map Prod.fst) (after : List (String × Value)) :
    fieldOf (before ++ after) name = fieldOf before name := by
  rw [fieldOf, lookup?_append, Option.or_of_isSome (isSome_lookup?_of_mem h), fieldOf]

theorem fieldOf_append_of_notMem (h : name ∉ before.map Prod.fst)
    (after : List (String × Value)) : fieldOf (before ++ after) name = fieldOf after name := by
  rw [fieldOf, lookup?_append, lookup?_of_notMem h, Option.none_or, fieldOf]

theorem fieldOf_cons_self (f : String × Value) (after : List (String × Value)) :
    fieldOf (f :: after) f.1 = f.2 := by
  simp [fieldOf, lookup?]

theorem fieldOf_cons_of_ne {f : String × Value} (h : f.1 ≠ name)
    (after : List (String × Value)) : fieldOf (f :: after) name = fieldOf after name := by
  rw [fieldOf, lookup?, List.find?_cons_of_neg (by simpa using h)]
  rfl

end Value

namespace Schema

variable {s : Schema}

/-- Whether two values look alike to the walk over them. -/
inductive Alike (s : Schema) : Value → Value → Prop
  | same (v : Value) : Alike s v v
  | array {vs ws : List Value} (length : vs.length = ws.length)
      (each : ∀ p ∈ vs.zip ws, Alike s p.1 p.2) : Alike s (.array vs) (.array ws)
  /-- Only the fields of the type count, and none if the schema does not have it. -/
  | record {typeName : String} {fields others : List (String × Value)}
      (each : ∀ t, s.get? typeName = some t → ∀ f ∈ t.fields,
        Alike s (Value.fieldOf fields f.name) (Value.fieldOf others f.name)) :
    Alike s (.record typeName fields) (.record typeName others)

/-! ### The walk over values that look alike -/

/-- Values that are alike are of one sort. -/
theorem Alike.sort_eq {v w : Value} (h : s.Alike v w) : v.sort = w.sort := by
  cases h <;> rfl

/-- Items of an array of primitives that look alike are the same, or are no such items. -/
theorem Alike.isItemOf {v w : Value} (h : s.Alike v w) (k : Kind) :
    isItemOf k v = isItemOf k w ∧ (isItemOf k v = true → v = w) := by
  cases h with
  | same => exact ⟨rfl, fun _ ↦ rfl⟩
  | array => cases k <;> exact ⟨rfl, fun h ↦ nomatch h⟩
  | record => cases k <;> exact ⟨rfl, fun h ↦ nomatch h⟩

/-- The first items with no place in a row look alike; if there are none, the rows are equal. -/
theorem find?_congr {vs ws : List Value} (h : List.Forall₂ s.Alike vs ws) (k : Kind) :
    (∃ v w, s.Alike v w ∧ (vs.find? fun v ↦ !isItemOf k v) = some v ∧
      (ws.find? fun w ↦ !isItemOf k w) = some w) ∨
    (vs.find? fun v ↦ !isItemOf k v) = none ∧ vs = ws := by
  induction h with
  | nil => exact .inr ⟨rfl, rfl⟩
  | @cons v w vs ws hvw hrest ih =>
    obtain ⟨hsame, heq⟩ := hvw.isItemOf k
    by_cases hv : isItemOf k v = true
    · obtain rfl := heq hv
      simp only [List.find?_cons, hv, Bool.not_true, List.cons.injEq, true_and]
      exact ih
    · rw [Bool.not_eq_true] at hv
      refine .inl ⟨v, w, hvw, ?_, ?_⟩
      · rw [List.find?_cons, hv]
        rfl
      · rw [List.find?_cons, ← hsame, hv]
        rfl

/-- Dimensions of primitives that are alike are told alike. -/
theorem walkPrimitives_congr {vs ws : List Value} (h : List.Forall₂ s.Alike vs ws) (f : FieldDef)
    (k : Kind) : walkPrimitives f k vs = walkPrimitives f k ws := by
  obtain ⟨v, w, hvw, hv, hw⟩ | ⟨-, rfl⟩ := find?_congr h k
  · rw [walkPrimitives, walkPrimitives, hv, hw]
    simp only [misfit, hvw.sort_eq]
  · rfl

/-- Records are told alike if their declared fields are. -/
theorem walkRecord_congr {t : TypeDef} {fields others : List (String × Value)}
    (h : ∀ f ∈ t.fields, ∀ element, s.walkValue f element f.dims (Value.fieldOf fields f.name) =
      s.walkValue f element f.dims (Value.fieldOf others f.name))
    (field : Option String) (declared : String) :
    s.walkRecord field declared t fields = s.walkRecord field declared t others := by
  rw [walkRecord, walkRecord]
  refine bind_congr fun _ ↦ congrArg (· >>= _) (congrArg Trace.sequence
    (List.map_congr_left fun f hf ↦ ?_))
  cases s.resolve f with
  | primitive k => exact h f hf (.primitive k)
  | composite c => exact h f hf (.composite c)
  | unknown => rfl

/-- **The walks over values that look alike** are the same. -/
theorem walkValue_congr {v w : Value} (h : s.Alike v w) (f : FieldDef) (element : ElementType)
    (dims : Nat) : s.walkValue f element dims v = s.walkValue f element dims w := by
  induction h generalizing f element dims with
  | same v => rfl
  | @array vs ws length each ih =>
    match dims, element with
    | 0, .primitive k =>
      rw [walkValue, walkValue]
      cases k <;> rfl
    | 0, .composite c =>
      have hempty : (Value.array vs).isEmpty = (Value.array ws).isEmpty := by
        rw [Value.isEmpty, Value.isEmpty, Bool.eq_iff_iff, List.isEmpty_iff_length_eq_zero,
          List.isEmpty_iff_length_eq_zero, length]
      rw [walkValue.eq_def, walkValue.eq_def]
      simp only [hempty]
      rfl
    | dims + 1, element =>
      obtain ⟨k, rfl, rfl⟩ | row := row_cases element dims
      · rw [walkValue_row, walkValue_row]
        exact walkPrimitives_congr (List.forall₂_iff_zip.2 ⟨length, fun h ↦ each _ h⟩) f k
      · have hitems := calc
          vs.map (s.walkValue f element dims)
            = (vs.zip ws).map (s.walkValue f element dims ∘ Prod.fst) := by
              rw [← List.map_map, List.map_fst_zip length.le]
          _ = (vs.zip ws).map (s.walkValue f element dims ∘ Prod.snd) :=
              List.map_congr_left fun p hp ↦ ih p hp f element dims
          _ = ws.map (s.walkValue f element dims) := by
              rw [← List.map_map, List.map_snd_zip length.ge]
        rw [walkValue_array s f row, walkValue_array s f row, length, hitems]
  | @record typeName fields others each ih =>
    match dims, element with
    | 0, .primitive k =>
      rw [walkValue, walkValue]
      cases k <;> rfl
    | 0, .composite c =>
      rw [walkValue, walkValue]
      cases hget : s.get? typeName with
      | none => rfl
      | some t => exact walkRecord_congr (fun f hf element ↦ ih t hget f hf f element f.dims) _ _
    | dims + 1, element =>
      rw [walkValue.eq_def, walkValue.eq_def]
      rfl

theorem Alike.typeName_eq {r₁ r₂ : Record} (h : s.Alike r₁.toValue r₂.toValue) :
    r₁.typeName = r₂.typeName := by
  obtain ⟨n₁, fields₁⟩ := r₁
  obtain ⟨n₂, fields₂⟩ := r₂
  cases h <;> rfl

/-- **Records that are alike** are told alike. -/
theorem Alike.walkRoot_eq {r₁ r₂ : Record} (h : s.Alike r₁.toValue r₂.toValue) :
    s.walkRoot r₁ = s.walkRoot r₂ := by
  obtain ⟨n₁, fields₁⟩ := r₁
  obtain ⟨n₂, fields₂⟩ := r₂
  unfold walkRoot
  cases h with
  | same => rfl
  | record each =>
    cases hget : s.get? n₁ with
    | none => rfl
    | some t =>
      exact walkRecord_congr (fun f hf element ↦ walkValue_congr (each t hget f hf) f element _) _ _

/-! ### Changes that are not seen -/

/-- Whether a field makes no difference between others in a record: its type does not have it, an
earlier field hides it, or it is absent and would be missing. -/
def Idle (s : Schema) (typeName : String) (before after : List (String × Value))
    (f : String × Value) : Prop :=
  (∀ t, s.get? typeName = some t → f.1 ∉ t.fieldNames) ∨ f.1 ∈ before.map Prod.fst ∨
    f.2 = .null ∧ f.1 ∉ (before ++ after).map Prod.fst

/-- A change of a graph, in a single place, that leaves all look-ups as they are. -/
inductive Unseen (s : Schema) : Value → Value → Prop
  | permuted {typeName : String} {fields others : List (String × Value)}
      (distinct : (fields.map Prod.fst).Nodup) (perm : fields.Perm others) :
    Unseen s (.record typeName fields) (.record typeName others)
  | added {typeName : String} {before after : List (String × Value)} {f : String × Value}
      (idle : s.Idle typeName before after f) :
    Unseen s (.record typeName (before ++ after)) (.record typeName (before ++ f :: after))
  | field {typeName name : String} {before after : List (String × Value)} {v w : Value}
      (inner : Unseen s v w) :
    Unseen s (.record typeName (before ++ (name, v) :: after))
      (.record typeName (before ++ (name, w) :: after))
  | item {before after : List Value} {v w : Value} (inner : Unseen s v w) :
    Unseen s (.array (before ++ v :: after)) (.array (before ++ w :: after))

/-- An idle field is not looked up. -/
theorem Idle.fieldOf_eq {typeName : String} {before after : List (String × Value)}
    {f : String × Value} (h : s.Idle typeName before after f) {t : TypeDef}
    (ht : s.get? typeName = some t) {name : String} (hname : name ∈ t.fieldNames) :
    Value.fieldOf (before ++ after) name = Value.fieldOf (before ++ f :: after) name := by
  by_cases hbefore : name ∈ before.map Prod.fst
  · rw [Value.fieldOf_append_of_mem hbefore, Value.fieldOf_append_of_mem hbefore]
  rw [Value.fieldOf_append_of_notMem hbefore, Value.fieldOf_append_of_notMem hbefore]
  by_cases hf : f.1 = name
  · subst hf
    rcases h with hunknown | hhidden | ⟨habsent, hmissing⟩
    · exact absurd hname (hunknown t ht)
    · exact absurd hhidden hbefore
    · rw [Value.fieldOf_cons_self, habsent]
      rw [List.map_append, List.mem_append, not_or] at hmissing
      exact Value.fieldOf_of_notMem hmissing.2
  · rw [Value.fieldOf_cons_of_ne hf]

/-- A field that looks alike in its place. -/
theorem Alike.fieldOf_replace {v w : Value} (h : s.Alike v w) (before after : List (String × Value))
    (own name : String) : s.Alike (Value.fieldOf (before ++ (own, v) :: after) name)
      (Value.fieldOf (before ++ (own, w) :: after) name) := by
  by_cases hbefore : name ∈ before.map Prod.fst
  · rw [Value.fieldOf_append_of_mem hbefore, Value.fieldOf_append_of_mem hbefore]
    exact .same _
  rw [Value.fieldOf_append_of_notMem hbefore, Value.fieldOf_append_of_notMem hbefore]
  by_cases hown : own = name
  · subst hown
    rw [Value.fieldOf_cons_self (own, v), Value.fieldOf_cons_self (own, w)]
    exact h
  · rw [Value.fieldOf_cons_of_ne hown, Value.fieldOf_cons_of_ne hown]
    exact .same _

/-- An item that looks alike in its place. -/
theorem Alike.item {v w : Value} (h : s.Alike v w) (before after : List Value) :
    s.Alike (.array (before ++ v :: after)) (.array (before ++ w :: after)) := by
  have hitems : List.Forall₂ s.Alike (before ++ v :: after) (before ++ w :: after) := by
    induction before with
    | nil => exact .cons h (List.forall₂_same.2 fun u _ ↦ .same u)
    | cons u us ih => exact .cons (.same u) ih
  obtain ⟨hlength, hzip⟩ := List.forall₂_iff_zip.1 hitems
  exact .array hlength fun p hp ↦ hzip hp

/-- **What is not seen** looks alike. -/
theorem Unseen.alike {v w : Value} (h : s.Unseen v w) : s.Alike v w := by
  induction h with
  | permuted distinct perm =>
    refine .record fun t ht f hf ↦ ?_
    rw [Value.fieldOf_perm distinct perm]
    exact .same _
  | added idle =>
    refine .record fun t ht f hf ↦ ?_
    rw [idle.fieldOf_eq ht (List.mem_map_of_mem hf)]
    exact .same _
  | field inner ih => exact .record fun t _ f _ ↦ ih.fieldOf_replace _ _ _ f.name
  | item inner ih => exact ih.item _ _

/-! ### The same output -/

/-- Whether two records give the same: the same events and, success or fault, the same image and
the same tree. -/
structure GiveSame (s : Schema) (r₁ r₂ : Record) : Prop where
  walk : s.walkRoot r₁ = s.walkRoot r₂
  image : Image.encode s r₁ = Image.encode s r₂
  tree : Container.ofRecord s r₁ = Container.ofRecord s r₂

/-- **Only what is looked up matters.** Records that look alike give the same output. So nothing of
the output changes when fields are put into another order, when fields that are idle are added or
left out, nor when either is done within a field or an item. -/
theorem output_of_alike (s : Schema) (r₁ r₂ : Record) :
    (s.Alike r₁.toValue r₂.toValue → s.GiveSame r₁ r₂) ∧
      (s.Unseen r₁.toValue r₂.toValue → s.GiveSame r₁ r₂) := by
  have halike (h : s.Alike r₁.toValue r₂.toValue) : s.GiveSame r₁ r₂ := by
    refine ⟨h.walkRoot_eq, ?_, ?_⟩
    · rw [Image.encode, Image.encode, h.typeName_eq, h.walkRoot_eq]
    · rw [Container.ofRecord, Container.ofRecord, h.walkRoot_eq]
  exact ⟨halike, fun h ↦ halike h.alike⟩

/-! A drawing whose lines are absent instead of missing, and in which a field of the origin is
repeated and another is unknown, gives the same as the plain one. -/

def plainDrawing : Record :=
  ⟨"Drawing", [("origin", .record "Point" [("x", .double 1), ("y", .double 2)])]⟩

def turnedDrawing : Record :=
  ⟨"Drawing", [("origin", .record "Point" [("y", .double 2), ("x", .double 1)])]⟩

def clutteredDrawing : Record :=
  ⟨"Drawing", [("lines", .null), ("origin", .record "Point"
    [("y", .double 2), ("z", .null), ("x", .double 1), ("x", .string "hidden")])]⟩

theorem output_of_alike_drawing :
    Dictionary.drawingSchema.Unseen plainDrawing.toValue turnedDrawing.toValue ∧
      Dictionary.drawingSchema.GiveSame plainDrawing turnedDrawing ∧
      Dictionary.drawingSchema.Alike plainDrawing.toValue clutteredDrawing.toValue ∧
      Dictionary.drawingSchema.GiveSame plainDrawing clutteredDrawing ∧
      ∃ b, Image.encode Dictionary.drawingSchema plainDrawing = .ok b := by
  have hturned : Dictionary.drawingSchema.Unseen plainDrawing.toValue turnedDrawing.toValue :=
    @Unseen.field _ "Drawing" "origin" [] [] _ _ (.permuted (by decide) (.swap _ _ _))
  have horigin : Dictionary.drawingSchema.Alike
      (.record "Point" [("x", .double 1), ("y", .double 2)])
      (.record "Point" [("y", .double 2), ("z", .null), ("x", .double 1),
        ("x", .string "hidden")]) := by
    refine .record fun t ht f hf ↦ ?_
    obtain rfl : t = Dictionary.pointType := Option.some.inj (ht.symm.trans (by decide))
    fin_cases hf
    · exact .same _
    · exact .same _
  have hcluttered : Dictionary.drawingSchema.Alike plainDrawing.toValue
      clutteredDrawing.toValue := by
    refine .record fun t ht f hf ↦ ?_
    obtain rfl : t = Dictionary.drawingType := Option.some.inj (ht.symm.trans (by decide))
    fin_cases hf
    · exact .same _
    · exact horigin
  exact ⟨hturned, (output_of_alike _ _ _).2 hturned, hcluttered,
    (output_of_alike _ _ _).1 hcluttered, _, by cbv⟩

end Schema

end GraphCodec
