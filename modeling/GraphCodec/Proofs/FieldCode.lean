import GraphCodec.Proofs.Naming
import GraphCodec.Proofs.PostOrder
import GraphCodec.Proofs.Skeleton

/-!
# Code for fields

A generator that is told of a field adds statements to the function that reads records of a type
and to the one that writes them. They depend on the field and on what it resolves to, and nothing
else changes but the names in use (`of_listener_field`). So the code of a type can be told from the
type alone: it is that of its fields, one after the other (`TypeCode.withFields_eq`).
-/

namespace GraphCodec

open Matlab (isIdentifier)

/-- The types that a type of a field refers to. -/
def ElementType.types : ElementType → List TypeDef
  | .primitive _ => []
  | .composite t => [t]

namespace Schema

variable {s : Schema} {f : FieldDef} {element : ElementType}

/-- What a walk reports of fields with known types. -/
def fieldEvents (s : Schema) (fields : List FieldDef) : List SchemaEvent :=
  fields.filterMap fun f ↦ (s.element? f).map (Dictionary.Draft.fieldEvent f)

/-- The events of fields, one for each. -/
theorem fieldEvents_cons (h : s.element? f = some element) (fs : List FieldDef) :
    s.fieldEvents (f :: fs) = Dictionary.Draft.fieldEvent f element :: s.fieldEvents fs := by
  rw [fieldEvents, List.filterMap_cons, h]
  rfl

/-- And the types of fields, which are none for primitives. -/
theorem fieldTypes_cons_of_element? (h : s.element? f = some element) (fs : List FieldDef) :
    s.fieldTypes (f :: fs) = element.types ++ s.fieldTypes fs := by
  have hresolve : (s.resolve f).composite?.toList = element.types := by
    rw [element?] at h
    split at h <;> cases h
    · rename_i hk
      rw [hk]
      rfl
    · rename_i ht
      rw [ht]
      rfl
  rw [fieldTypes_cons, hresolve]

/-- Whether there can be code for a field: it has a name for a field of a struct and a known type,
and characters come in one dimension at most. -/
structure HasCode (s : Schema) (f : FieldDef) : Prop where
  name : isIdentifier f.name = true
  known : ∃ element, s.element? f = some element
  chars : s.element? f = some (.primitive .char) → f.dims ≤ 1

end Schema

namespace Matlab

/-! ### The code of a type -/

/-- What the items of a field are. -/
def fieldItems (f : FieldDef) : ElementType → Element
  | .primitive k => Generator.elementOf k f.preserve
  | .composite t => .composite t.simpleName

/-- How the heading of a field calls what the items are. -/
def itemName : ElementType → String
  | .primitive k => k.name
  | .composite t => t.simpleName

/-- The statements that read a field. -/
def fieldReads (f : FieldDef) (element : ElementType) : List Stmt :=
  if f.isArray then readArray f.name f.dims (fieldItems f element)
  else
    match element with
    | .primitive k => readScalar f.name k f.preserve
    | .composite t => readComposite f.name t.simpleName

/-- The statements that write a field of the type `owner`. -/
def fieldWrites (owner : String) (f : FieldDef) (element : ElementType) : List Stmt :=
  if f.isArray then writeArray f.name f.dims (fieldItems f element)
  else
    match element with
    | .primitive k => writeScalar f.name k
    | .composite t => writeComposite owner f.name t.simpleName

/-- The statements of a side for a field of the type `owner`. -/
def fieldCode (side : Side) (owner : String) (f : FieldDef) (element : ElementType) : List Stmt :=
  match side with
  | .reading => fieldReads f element
  | .writing => fieldWrites owner f element

namespace TypeCode

/-- The body of the function that reads or writes. -/
def body (c : TypeCode) : Side → List Stmt
  | .reading => c.reads
  | .writing => c.writes

/-- The heading of a field. -/
def heading (f : FieldDef) (element : ElementType) : String :=
  if f.isArray then s!"{itemName element}{Generator.brackets f.dims} {f.name}"
  else s!"{itemName element} {f.name}"

/-- The code with a field of a known type added. -/
def withField (c : TypeCode) (f : FieldDef) (element : ElementType) : TypeCode :=
  c.addField (heading f element) (fieldReads f element) (fieldWrites c.ident f element)

/-- The code with fields added in order, as far as their types are known. -/
def withFields (s : Schema) (c : TypeCode) (fields : List FieldDef) : TypeCode :=
  fields.foldl (fun c f ↦ (s.element? f).elim c (c.withField f)) c

/-- **The code of a type.** -/
def ofType (s : Schema) (t : TypeDef) : TypeCode :=
  (start t t.simpleName).withFields s t.fields

variable {s : Schema} {c : TypeCode}

theorem withFields_cons {f : FieldDef} {element : ElementType}
    (h : s.element? f = some element) (fs : List FieldDef) :
    c.withFields s (f :: fs) = (c.withField f element).withFields s fs := by
  rw [withFields, List.foldl_cons, h]
  rfl

@[simp] theorem ident_withField (c : TypeCode) (f : FieldDef) (element : ElementType) :
    (c.withField f element).ident = c.ident := rfl

@[simp] theorem ident_withFields (s : Schema) (c : TypeCode) (fields : List FieldDef) :
    (c.withFields s fields).ident = c.ident := by
  induction fields generalizing c with
  | nil => rfl
  | cons f fs ih =>
    rw [withFields, List.foldl_cons]
    cases s.element? f with
    | none => exact ih c
    | some element => exact (ih _).trans (ident_withField c f element)

/-- The statements for a field under its heading, if its type is known. -/
def fieldStatements (s : Schema) (side : Side) (owner : String) (f : FieldDef) : List Stmt :=
  (s.element? f).elim [] fun element ↦
    [.blank, .comment (" " ++ heading f element)] ++ fieldCode side owner f element

/-- **Fields add their statements** to both functions, and nothing else. -/
theorem withFields_eq (s : Schema) (c : TypeCode) (fields : List FieldDef) :
    c.withFields s fields = { c with
      reads := c.reads ++ fields.flatMap (fieldStatements s .reading c.ident)
      writes := c.writes ++ fields.flatMap (fieldStatements s .writing c.ident) } := by
  induction fields generalizing c with
  | nil => simp [withFields]
  | cons f fs ih =>
    rw [List.flatMap_cons, List.flatMap_cons]
    cases helement : s.element? f with
    | none =>
      rw [withFields, List.foldl_cons, helement]
      exact (ih c).trans (by simp [fieldStatements, helement])
    | some element =>
      rw [withFields_cons helement, ih]
      simp [withField, addField, fieldStatements, helement, fieldCode]

/-- **The code with some fields** is the code without them, and then the code of each. -/
theorem body_withFields (s : Schema) (c : TypeCode) (side : Side) (fields : List FieldDef) :
    (c.withFields s fields).body side =
      c.body side ++ fields.flatMap (fieldStatements s side c.ident) := by
  rw [withFields_eq]
  cases side <;> rfl

@[simp] theorem ident_ofType (s : Schema) (t : TypeDef) : (ofType s t).ident = t.simpleName :=
  ident_withFields s _ _

end TypeCode

namespace Generator

open Dictionary.Draft (fieldEvent)

variable {g g' : Generator} {c : TypeCode} {cs : List TypeCode} {t : TypeDef} {ts : List TypeDef}

/-! ### What a generator does when it is told of a field -/

/-- A field is added to the innermost type, if its name is an identifier. -/
theorem onCurrent_eq_ok_iff {name : String} {f : TypeCode → TypeCode}
    (hpending : g.pending = c :: cs) :
    onCurrent name f g = .ok () g' ↔
      isIdentifier name = true ∧ g' = { g with pending := f c :: cs } := by
  unfold onCurrent
  rw [hpending]
  cases isIdentifier name <;> simp [eq_comm]

/-- A field of a primitive adds its code. Characters have one dimension at most. -/
theorem listener_primitive_eq_ok_iff {f : FieldDef} {k : Kind} :
    listener (fieldEvent f (.primitive k)) g = .ok () g' ↔ (k = .char → f.dims ≤ 1) ∧
      onCurrent f.name (fun c ↦ c.withField f (.primitive k)) g = .ok () g' := by
  cases harray : f.isArray with
  | false =>
    have hdims : f.dims = 0 := by simpa [FieldDef.isArray] using harray
    simp [fieldEvent, listener, TypeCode.withField, TypeCode.heading, fieldReads, fieldWrites,
      itemName, harray, hdims]
  | true =>
    by_cases hchars : k = .char ∧ 1 < f.dims
    · have hnot : ¬f.dims ≤ 1 := Nat.not_le.2 hchars.2
      simp only [fieldEvent, harray, if_true, listener, hchars.1, decide_eq_true hchars.2]
      simp [hnot, throw, throwThe, MonadExceptOf.throw, EStateM.throw]
    · have hone : k = .char → f.dims ≤ 1 := fun hk ↦ Nat.not_lt.1 fun hlt ↦ hchars ⟨hk, hlt⟩
      have htest : (k == .char && decide (1 < f.dims)) = false := by simpa using hone
      rw [and_iff_right hone]
      simp [fieldEvent, listener, TypeCode.withField, TypeCode.heading, fieldReads, fieldWrites,
        itemName, fieldItems, addArray, harray, htest]

/-- A field of another type names this type and adds its code. -/
theorem listener_composite_eq_ok_iff {f : FieldDef} :
    listener (fieldEvent f (.composite t)) g = .ok () g' ↔
      ∃ g₁, identFor t g = .ok t.simpleName g₁ ∧
        onCurrent f.name (fun c ↦ c.withField f (.composite t)) g₁ = .ok () g' := by
  have hname {rest : String → EStateM Fault Generator Unit} :
      (identFor t >>= rest) g = .ok () g' ↔
        ∃ g₁, identFor t g = .ok t.simpleName g₁ ∧ rest t.simpleName g₁ = .ok () g' := by
    rw [Listener.bind_eq_ok_iff]
    constructor
    · rintro ⟨ident, g₁, hident, hrest⟩
      obtain ⟨rfl, -⟩ := named_of_identFor hident
      exact ⟨g₁, hident, hrest⟩
    · rintro ⟨g₁, hident, hrest⟩
      exact ⟨_, g₁, hident, hrest⟩
  cases harray : f.isArray <;>
    simp [fieldEvent, listener, TypeCode.withField, TypeCode.heading, fieldReads, fieldWrites,
      itemName, fieldItems, addArray, harray, hname]

section

variable {f : FieldDef} {element : ElementType}

/-- **What taking in a field does.** The code of the innermost type gets the statements for the
field, and the type of the field is named if it is composite. -/
theorem of_listener_field (hpending : g.pending = c :: cs)
    (h : listener (fieldEvent f element) g = .ok () g') :
    isIdentifier f.name = true ∧ (element = .primitive .char → f.dims ≤ 1) ∧
      g'.pending = c.withField f element :: cs ∧ g'.files = g.files ∧
      ∀ ts, g.HasNames (element.types ++ ts) ↔ g'.HasNames ts := by
  cases element with
  | primitive k =>
    obtain ⟨hchars, hcurrent⟩ := listener_primitive_eq_ok_iff.1 h
    obtain ⟨hname, rfl⟩ := (onCurrent_eq_ok_iff hpending).1 hcurrent
    exact ⟨hname, fun hk ↦ hchars (ElementType.primitive.inj hk), rfl, rfl,
      fun _ ↦ hasNames_congr rfl⟩
  | composite t =>
    obtain ⟨g₁, hident, hcurrent⟩ := listener_composite_eq_ok_iff.1 h
    obtain ⟨-, hnamed⟩ := named_of_identFor hident
    obtain ⟨hname, rfl⟩ := (onCurrent_eq_ok_iff (hnamed.pending.trans hpending)).1 hcurrent
    exact ⟨hname, fun hk ↦ absurd hk ElementType.noConfusion, rfl, hnamed.files,
      fun _ ↦ hnamed.hasNames_cons_iff.trans (hasNames_congr rfl)⟩

/-- **A field is taken in** if there can be code for it and its type can be named. -/
theorem exists_listener_field {s : Schema} (hf : s.HasCode f)
    (helement : s.element? f = some element) (hnames : g.HasNames (element.types ++ ts))
    (hpending : g.pending = c :: cs) : ∃ g', listener (fieldEvent f element) g = .ok () g' := by
  cases element with
  | primitive k =>
    have hchars : k = .char → f.dims ≤ 1 := by
      rintro rfl
      exact hf.chars helement
    exact ⟨_, listener_primitive_eq_ok_iff.2
      ⟨hchars, (onCurrent_eq_ok_iff hpending).2 ⟨hf.name, rfl⟩⟩⟩
  | composite t =>
    obtain ⟨g₁, hident⟩ := exists_identFor hnames
    have hpending₁ := (named_of_identFor hident).2.pending.trans hpending
    exact ⟨_, listener_composite_eq_ok_iff.2
      ⟨g₁, hident, (onCurrent_eq_ok_iff hpending₁).2 ⟨hf.name, rfl⟩⟩⟩

end

end Generator

end Matlab

end GraphCodec
