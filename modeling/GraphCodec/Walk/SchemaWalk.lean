import GraphCodec.Schema.Basic
import GraphCodec.Walk.Trace

/-!
# The walk over the types of a schema

From a root type the walk visits every composite type that it reaches, once, in depth-first order:
a field of a type that has not been visited is followed by the walk of that type before the field
itself is reported, so a listener knows every type that a field refers to. A type that would be
entered while it is still being walked contains itself, and a field whose type is unknown cannot
be represented; both end the walk.

The walk terminates because the types being walked are distinct types of the schema: entering one
leaves fewer to enter.
-/

namespace GraphCodec

/-- What a walk over types reports. A field name is missing for the root. -/
inductive SchemaEvent where
  | beginType (field : Option String) (type : TypeDef)
  | endType (field : Option String)
  | primitive (name : String) (kind : Kind) (preserve : Bool)
  | primitiveArray (name : String) (kind : Kind) (dims : Nat) (preserve : Bool)
  /-- A field of a composite type that has already been walked. -/
  | composite (name : String) (type : TypeDef)
  | compositeArray (name : String) (type : TypeDef) (dims : Nat)
  /-- A field whose type is neither primitive nor in the schema; the walk ends after it. -/
  | unknown (owner : TypeDef) (field : FieldDef)
  deriving DecidableEq, Repr

/-- The fault that a field has an unknown type. -/
def unsupportedField (owner : TypeDef) (f : FieldDef) : Fault :=
  .unsupportedType s!"{owner.name}.{f.name}" f.typeName

namespace Schema

/-- The number of types that are not among `names`. -/
def countOutside (s : Schema) (names : List String) : Nat :=
  s.types.countP fun t ↦ t.name ∉ names

theorem countP_lt_countP {α : Type} {p q : α → Bool} {a : α} {as : List α}
    (himp : ∀ b, p b → q b) (hmem : a ∈ as) (hp : p a = false) (hq : q a = true) :
    as.countP p < as.countP q := by
  induction as with
  | nil => cases hmem
  | cons b bs ih =>
    have hle : bs.countP p ≤ bs.countP q := List.countP_mono_left fun c _ ↦ himp c
    rw [List.countP_cons, List.countP_cons]
    rcases List.mem_cons.1 hmem with rfl | hmem'
    · rw [hp, hq]
      simp only [Bool.false_eq_true, if_false, if_true]
      omega
    · have hlt := ih hmem'
      have hb : (if p b then 1 else 0) ≤ if q b then 1 else 0 := by
        by_cases h : p b
        · simp [h, himp b h]
        · simp [h]
      omega

/-- Entering a type that is not being walked leaves fewer to enter. -/
theorem countOutside_cons_lt {s : Schema} {names : List String} {t : TypeDef}
    (hmem : t ∈ s.types) (hnew : t.name ∉ names) :
    s.countOutside (t.name :: names) < s.countOutside names := by
  refine countP_lt_countP (fun u hu ↦ ?_) hmem (by simp) (by simpa using hnew)
  simp only [List.mem_cons, not_or, decide_eq_true_eq] at hu ⊢
  exact hu.2

theorem mem_of_resolve_eq_composite {s : Schema} {f : FieldDef} {t : TypeDef}
    (h : s.resolve f = .composite t) : t ∈ s.types :=
  mem_of_get?_eq_some (get?_of_resolve_eq_composite h)

mutual

/-- The walk over the type `t`, which is entered through `field`. `walking` are the names of the
types being walked, `visited` those of the types that have been; the result is the latter after
the walk. -/
def walkType (s : Schema) (walking : List String) (field : Option String) (t : TypeDef)
    (visited : List String) : Trace SchemaEvent (List String) := do
  Trace.emit (.beginType field t)
  let visited ← walkFields s (t.name :: walking) t t.fields visited
  Trace.emit (.endType field)
  return t.name :: visited
  termination_by (s.countOutside (t.name :: walking), 1, 0)
  decreasing_by
    apply Prod.Lex.right
    apply Prod.Lex.left
    decide

/-- The walk over the remaining fields of the type `owner`. -/
def walkFields (s : Schema) (walking : List String) (owner : TypeDef) (fields : List FieldDef)
    (visited : List String) : Trace SchemaEvent (List String) :=
  match fields with
  | [] => pure visited
  | f :: fs =>
    match _h : s.resolve f with
    | .primitive k => do
      Trace.emit (if f.isArray then .primitiveArray f.name k f.dims f.preserve
        else .primitive f.name k f.preserve)
      walkFields s walking owner fs visited
    | .composite t =>
      if _hnew : t.name ∈ walking then Trace.fail (.recursiveType t.name)
      else do
        let visited ← (if t.name ∈ visited then pure visited
          else walkType s walking (some f.name) t visited)
        Trace.emit (if f.isArray then .compositeArray f.name t f.dims else .composite f.name t)
        walkFields s walking owner fs visited
    | .unknown => do
      Trace.emit (.unknown owner f)
      Trace.fail (unsupportedField owner f)
  termination_by (s.countOutside walking, 0, fields.length)
  decreasing_by
    · apply Prod.Lex.right
      apply Prod.Lex.right
      simp
    · apply Prod.Lex.left
      exact countOutside_cons_lt (mem_of_resolve_eq_composite _h) _hnew
    · apply Prod.Lex.right
      apply Prod.Lex.right
      simp

end

/-- The walk over the types that `root` reaches. -/
def walk (s : Schema) (root : TypeDef) : Trace SchemaEvent Unit := do
  let _ ← s.walkType [] none root []

end Schema

end GraphCodec
