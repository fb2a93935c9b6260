import GraphCodec.Proofs.Relevance

/-!
# Listeners that stop a walk

A walk is a value, and a listener is run over it afterwards. A walk can also be told: whoever walks
calls the listener at every event and goes on only if it agrees (`Schema.tell`, `Schema.tellRoot`).
Here the schema or the value is visited while the listener listens, so a refusal has to find its way
out of types within types and of items within arrays. Both come to the same, for every listener and
from every state (`Schema.run_walk`, `Schema.run_walkRoot`).

It follows that whoever stops a walk at an event hears what others hear up to this event and nothing
more, and that the walk ends with the fault of the listener instead of its own
(`Trace.record_refuseAt`).
-/

namespace GraphCodec

/-! ### Walks that are told -/

namespace Schema

variable {σ : Type}

mutual

/-- Tell a listener the type `t`, which is entered through `field`. What is being walked and what
has been visited are as in the walk over types. -/
def tellType (s : Schema) (listen : Listener SchemaEvent σ) (walking : List String)
    (field : Option String) (t : TypeDef) (visited : List String) :
    EStateM Fault σ (List String) := do
  listen (.beginType field t)
  let visited ← tellFields s listen (t.name :: walking) t t.fields visited
  listen (.endType field)
  return t.name :: visited
  termination_by (s.countOutside (t.name :: walking), 1, 0)
  decreasing_by
    apply Prod.Lex.right
    apply Prod.Lex.left
    decide

/-- Tell a listener the remaining fields of the type `owner`. -/
def tellFields (s : Schema) (listen : Listener SchemaEvent σ) (walking : List String)
    (owner : TypeDef) (fields : List FieldDef) (visited : List String) :
    EStateM Fault σ (List String) :=
  match fields with
  | [] => return visited
  | f :: fs =>
    match _h : s.resolve f with
    | .primitive k => do
      listen (if f.isArray then .primitiveArray f.name k f.dims f.preserve
        else .primitive f.name k f.preserve)
      tellFields s listen walking owner fs visited
    | .composite t =>
      if _hnew : t.name ∈ walking then throw (.recursiveType t.name)
      else do
        let visited ← (if t.name ∈ visited then pure visited
          else tellType s listen walking (some f.name) t visited)
        listen (if f.isArray then .compositeArray f.name t f.dims else .composite f.name t)
        tellFields s listen walking owner fs visited
    | .unknown => do
      listen (.unknown owner f)
      throw (unsupportedField owner f)
  termination_by (s.countOutside walking, 0, fields.length)
  decreasing_by
    · apply Prod.Lex.right
      apply Prod.Lex.right
      simp
    · apply Prod.Lex.left
      exact countOutside_cons_lt (mem_of_resolve_eq_composite _h) _hnew
    · apply Prod.Lex.right
      apply Prod.Lex.right
      simp

end

/-- Tell a listener the types that `root` reaches. -/
def tell (s : Schema) (listen : Listener SchemaEvent σ) (root : TypeDef) :
    EStateM Fault σ Unit := do
  let _ ← s.tellType listen [] none root []

mutual

/-- Tell a listener a record with type `t` in a slot of the declared type. -/
def tellRecord (s : Schema) (listen : Listener ValueEvent σ) (field : Option String)
    (declared : String) (t : TypeDef) (fields : List (String × Value)) :
    EStateM Fault σ Unit := do
  listen (.beginRecord field declared t)
  t.fields.forM fun f ↦
    match s.resolve f with
    | .primitive k => tellValue s listen f (.primitive k) f.dims (Value.fieldOf fields f.name)
    | .composite c => tellValue s listen f (.composite c) f.dims (Value.fieldOf fields f.name)
    | .unknown => throw (unsupportedField t f)
  listen (.endRecord field)
  termination_by sizeOf fields + 1
  decreasing_by
    all_goals
      have := Value.sizeOf_fieldOf_le fields f.name
      omega

/-- Tell a listener a value in a slot of the field `f` in which `dims` dimensions are left. -/
def tellValue (s : Schema) (listen : Listener ValueEvent σ) (f : FieldDef) (element : ElementType)
    (dims : Nat) (v : Value) : EStateM Fault σ Unit :=
  match dims, element with
  | 0, .primitive k =>
    if v.matchesKind k then listen (.primitive f.name k v) else throw (misfit f k.name v)
  | 0, .composite c =>
    match v with
    | .record typeName fields =>
      match s.get? typeName with
      | some t => tellRecord s listen (some f.name) c.name t fields
      | none => throw (.unregisteredType typeName)
    | v => if v.isEmpty then listen (.emptyComposite f.name c) else throw (misfit f c.name v)
  | dims + 1, element =>
    match v with
    | .null =>
      match dims, element with
      | 0, .primitive k => listen (.primitives f.name k [])
      | dims, element => do
        listen (.beginArray f.name element (dims + 1) 0)
        listen (.endArray f.name)
    | .array items =>
      match dims, element with
      | 0, .primitive k => do
        items.forM fun v ↦ if isItemOf k v then pure () else throw (misfit f k.name v)
        listen (.primitives f.name k items)
      | dims, element => do
        listen (.beginArray f.name element (dims + 1) items.length)
        items.attach.forM fun ⟨item, _h⟩ ↦ tellValue s listen f element dims item
        listen (.endArray f.name)
    | v => throw (misfit f "array" v)
  termination_by sizeOf v
  decreasing_by
    · simp only [Value.record.sizeOf_spec]
      have : 0 < sizeOf typeName := by
        cases typeName
        simp only [String.ofByteArray.sizeOf_spec]
        omega
      omega
    · have := List.sizeOf_lt_of_mem _h
      simp only [Value.array.sizeOf_spec]
      omega

end

/-- Tell a listener a record of a type of the schema. -/
def tellRoot (s : Schema) (listen : Listener ValueEvent σ) (r : Record) : EStateM Fault σ Unit :=
  match s.get? r.typeName with
  | some t => s.tellRecord listen none t.name t r.fields
  | none => throw (.unregisteredType r.typeName)

/-! ### Telling and running -/

end Schema

namespace Trace

variable {ε α σ : Type}

/-- Walks in order are heard one after the other. -/
theorem run_sequence_map (listen : Listener ε σ) (walk : α → Trace ε Unit) (as : List α) :
    run listen (sequence (as.map walk)) = as.forM fun a ↦ run listen (walk a) := by
  induction as with
  | nil => rfl
  | cons a as ih =>
    rw [List.map_cons, sequence_cons, run_bind, List.forM_eq_forM, List.forM_cons, ih]
    rfl

end Trace

namespace Schema

variable {σ : Type}

mutual

/-- Telling a type is running the listener over the walk. -/
theorem run_walkType (s : Schema) (listen : Listener SchemaEvent σ) (walking : List String)
    (field : Option String) (t : TypeDef) (visited : List String) :
    Trace.run listen (s.walkType walking field t visited) =
      s.tellType listen walking field t visited := by
  rw [walkType, tellType]
  simp only [Trace.run_bind, Trace.run_emit, Trace.run_pure,
    run_walkFields s listen (t.name :: walking) t t.fields visited]
  termination_by (s.countOutside (t.name :: walking), 1, 0)
  decreasing_by
    apply Prod.Lex.right
    apply Prod.Lex.left
    decide

/-- **The walk over fields** can be heard as it goes, by the recursion of the walk. -/
theorem run_walkFields (s : Schema) (listen : Listener SchemaEvent σ) (walking : List String)
    (owner : TypeDef) (fields : List FieldDef) (visited : List String) :
    Trace.run listen (s.walkFields walking owner fields visited) =
      s.tellFields listen walking owner fields visited := by
  match fields with
  | [] =>
    rw [walkFields, tellFields, Trace.run_pure]
  | f :: fs =>
    have hrest := run_walkFields s listen walking owner fs
    rw [tellFields]
    split
    · rename_i k hk
      rw [walkFields_primitive hk, Trace.run_bind, Trace.run_emit]
      simp only [hrest]
      rfl
    · rename_i t ht
      split
      · rename_i hentered
        rw [walkFields_entered ht hentered]
        rfl
      · rename_i hnew
        rw [walkFields_composite ht hnew]
        simp only [Trace.run_bind, Trace.run_emit, hrest]
        -- only the walk over the type of the field is left to be compared
        refine congrArg (· >>= _) ?_
        split
        · rfl
        · exact run_walkType s listen walking (some f.name) t visited
    · rename_i hunknown
      rw [walkFields_unknown hunknown, Trace.run_bind, Trace.run_emit]
      rfl
  termination_by (s.countOutside walking, 0, fields.length)
  decreasing_by
    · apply Prod.Lex.right
      apply Prod.Lex.right
      simp
    · apply Prod.Lex.left
      exact countOutside_cons_lt (mem_of_resolve_eq_composite ‹_›) ‹_›

end

/-- **Telling types** is running the listener over the walk. -/
theorem run_walk (s : Schema) (listen : Listener SchemaEvent σ) (root : TypeDef) :
    Trace.run listen (s.walk root) = s.tell listen root := by
  rw [walk, tell, Trace.run_bind, s.run_walkType]
  rfl

variable {s : Schema} {listen : Listener ValueEvent σ} {f : FieldDef}

/-- Whether telling a value is running the listener over the walk, in every slot. -/
def ToldAsRun (s : Schema) (listen : Listener ValueEvent σ) (v : Value) : Prop :=
  ∀ (f : FieldDef) (element : ElementType) (dims : Nat),
    Trace.run listen (s.walkValue f element dims v) = s.tellValue listen f element dims v

/-- A record is heard as it goes if its fields are. -/
theorem run_walkRecord {fields : List (String × Value)}
    (ih : ∀ name, s.ToldAsRun listen (Value.fieldOf fields name)) (field : Option String)
    (declared : String) (t : TypeDef) :
    Trace.run listen (s.walkRecord field declared t fields) =
      s.tellRecord listen field declared t fields := by
  rw [walkRecord, tellRecord]
  simp only [Trace.run_bind, Trace.run_emit, Trace.run_sequence_map]
  refine bind_congr fun _ ↦ congrArg (· >>= _) (congrArg t.fields.forM (funext fun f ↦ ?_))
  cases s.resolve f with
  | primitive k => exact ih f.name f (.primitive k) f.dims
  | composite c => exact ih f.name f (.composite c) f.dims
  | unknown => rfl

/-- Checking items in order finds the first that fails. -/
theorem forM_check (items : List Value) (k : Kind) (fault : Value → Fault) :
    (items.forM fun v ↦
        if isItemOf k v then (pure () : EStateM Fault σ Unit) else throw (fault v)) =
      match items.find? fun v ↦ !isItemOf k v with
      | some v => throw (fault v)
      | none => pure () := by
  induction items with
  | nil => rfl
  | cons v vs ih =>
    rw [List.forM_eq_forM, List.forM_cons, List.find?_cons]
    by_cases hv : isItemOf k v = true
    · simp only [hv, if_true, Bool.not_true]
      exact (pure_bind _ _).trans ih
    · simp only [Bool.not_eq_true] at hv
      simp only [hv, Bool.not_false]
      rfl

/-- A dimension of primitives is checked first and then told. -/
theorem run_walkPrimitives (f : FieldDef) (k : Kind) (items : List Value) :
    Trace.run listen (walkPrimitives f k items) = (do
      items.forM fun v ↦ if isItemOf k v then pure () else throw (misfit f k.name v)
      listen (.primitives f.name k items)) := by
  rw [forM_check, walkPrimitives]
  cases items.find? fun v ↦ !isItemOf k v with
  | some v => rfl
  | none => exact Trace.run_emit listen _

/-- A scalar is heard as it goes. -/
theorem toldAsRun_scalar (f : FieldDef) (k : Kind) (v : Value) :
    Trace.run listen (s.walkValue f (.primitive k) 0 v) =
      s.tellValue listen f (.primitive k) 0 v := by
  rw [walkValue, tellValue]
  split
  · exact Trace.run_emit listen _
  · rfl

/-- **An array** is heard as it goes if its items are. -/
theorem toldAsRun_array {items : List Value} (ih : ∀ v ∈ items, s.ToldAsRun listen v) :
    s.ToldAsRun listen (.array items) := by
  intro f element dims
  match dims, element with
  | 0, .primitive k => exact toldAsRun_scalar f k _
  | 0, .composite c =>
    rw [walkValue.eq_def, tellValue.eq_def]
    dsimp only
    split
    · exact Trace.run_emit listen _
    · rfl
  | dims + 1, element =>
    obtain ⟨k, rfl, rfl⟩ | row := row_cases element dims
    · rw [walkValue_row, run_walkPrimitives, tellValue]
    · have hitems : Trace.run listen (Trace.sequence (items.map (s.walkValue f element dims))) =
          items.attach.forM fun v ↦ s.tellValue listen f element dims v.1 := by
        conv_lhs => rw [← List.attach_map_subtype_val items, List.map_map, Trace.run_sequence_map]
        exact congrArg items.attach.forM (funext fun v ↦ ih v.1 v.2 f element dims)
      rw [walkValue_array s f row, Trace.run_bind, Trace.run_bind, hitems, tellValue.eq_def]
      simp only [Trace.run_emit]
      cases dims with
      | zero =>
        obtain ⟨c, rfl⟩ := row rfl
        rfl
      | succ dims => rfl

theorem toldAsRun_null : s.ToldAsRun listen .null := by
  intro f element dims
  match dims, element with
  | 0, .primitive k => exact toldAsRun_scalar f k _
  | 0, .composite c =>
    rw [walkValue.eq_def, tellValue.eq_def]
    exact Trace.run_emit listen _
  | 1, .primitive k =>
    rw [walkValue.eq_def, tellValue.eq_def]
    exact Trace.run_emit listen _
  | 1, .composite c | dims + 2, element =>
    rw [walkValue.eq_def, tellValue.eq_def]
    simp only [Trace.run_bind, Trace.run_emit]

/-- **Telling a value** is running the listener over the walk. -/
theorem toldAsRun (s : Schema) (listen : Listener ValueEvent σ) (v : Value) :
    s.ToldAsRun listen v := by
  induction v using Value.lookupInduction with
  | leaf v harray hrecord =>
    by_cases hnull : v = .null
    · exact hnull ▸ toldAsRun_null
    intro f element dims
    match dims, element with
    | 0, .primitive k => exact toldAsRun_scalar f k v
    | 0, .composite c | dims + 1, element =>
      -- neither empty nor composite, so that the fault is the same
      rw [walkValue.eq_def, tellValue.eq_def]
      cases v with
      | null => exact absurd rfl hnull
      | array items => exact absurd rfl (harray items)
      | record typeName fields => exact absurd rfl (hrecord typeName fields)
      | _ => rfl
  | array items ih => exact toldAsRun_array ih
  | record typeName fields ih =>
    intro f element dims
    match dims, element with
    | 0, .primitive k => exact toldAsRun_scalar f k _
    | 0, .composite c =>
      rw [walkValue, tellValue]
      cases s.get? typeName with
      | none => rfl
      | some t => exact run_walkRecord ih _ _ t
    | dims + 1, element =>
      rw [walkValue.eq_def, tellValue.eq_def]
      rfl

/-- **Telling a record** is running the listener over the walk. -/
theorem run_walkRoot (s : Schema) (listen : Listener ValueEvent σ) (r : Record) :
    Trace.run listen (s.walkRoot r) = s.tellRoot listen r := by
  rw [walkRoot, tellRoot]
  cases s.get? r.typeName with
  | none => rfl
  | some t => exact run_walkRecord (fun name ↦ s.toldAsRun listen _) none t.name t

end Schema

/-! ### Stopping -/

namespace Trace

variable {ε α : Type}

/-- What a listener has recorded that starts with nothing, and how it ends. -/
def recorded (act : EStateM Fault (Array ε) α) : List ε × Except Fault α :=
  match act #[] with
  | .ok a seen => (seen.toList, .ok a)
  | .error e seen => (seen.toList, .error e)

/-- The refusal of nothing. -/
def never (_ : Nat) (_ : ε) : Option Fault :=
  none

/-- The refusal of the event with the number `n`. -/
def refuseAt (n : Nat) (e : Fault) (number : Nat) (_ : ε) : Option Fault :=
  if number = n then some e else none

/-- The first `n` events of those that were recorded, and the fault `e` if there are so many. -/
def cutShort (n : Nat) (e : Fault) (whole : List ε × Except Fault α) : List ε × Except Fault α :=
  (whole.1.take n, if n ≤ whole.1.length then .error e else whole.2)

/-- A recorder that never refuses records all events. -/
theorem deliver_never (events : List ε) (seen : Array ε) :
    deliver (recorder never) events seen = .ok () (seen ++ events) := by
  induction events generalizing seen with
  | nil => simp [deliver]
  | cons event events ih =>
    simp only [deliver, recorder, never]
    rw [ih]
    simp

/-- Events are delivered up to the one that is refused. -/
theorem deliver_refuseAt {n : Nat} (e : Fault) (events : List ε) {seen : Array ε}
    (h : seen.size < n) : deliver (recorder (refuseAt n e)) events seen =
      if n ≤ seen.size + events.length then .error e (seen ++ events.take (n - seen.size))
      else .ok () (seen ++ events) := by
  induction events generalizing seen with
  | nil => simp [deliver, Nat.not_le.2 h]
  | cons event events ih =>
    by_cases hn : seen.size + 1 = n
    · have hlast : recorder (refuseAt n e) event seen = .error e (seen.push event) := by
        simp [recorder, refuseAt, hn]
      subst hn
      simp only [deliver, hlast]
      simp
    · have hnext : recorder (refuseAt n e) event seen = .ok () (seen.push event) := by
        simp [recorder, refuseAt, hn]
      have hrest : (event :: events).take (n - seen.size) =
          event :: events.take (n - (seen.size + 1)) := by
        rw [show n - seen.size = n - (seen.size + 1) + 1 by omega, List.take_succ_cons]
      simp only [deliver, hnext]
      rw [ih (by rw [Array.size_push]; omega), hrest]
      simp [Nat.add_assoc, Nat.add_comm 1]

/-- So it records the whole walk. -/
theorem record_never (t : Trace ε α) : record never t = (t.events, t.outcome) := by
  simp only [record, run, deliver_never]
  cases t.outcome <;> simp

/-- **Refusing an event** cuts a walk short and leaves the events before it as they are. -/
theorem record_refuseAt {n : Nat} (hn : 1 ≤ n) (e : Fault) (t : Trace ε α) :
    record (refuseAt n e) t = cutShort n e (record never t) := by
  have hstart : (#[] : Array ε).size < n := hn
  rw [record_never, cutShort]
  simp only [record, run, deliver_refuseAt e t.events hstart]
  by_cases h : n ≤ t.events.length
  · simp [h]
  · have htake : t.events.take n = t.events := List.take_of_length_le (by omega)
    rw [htake]
    cases t.outcome <;> simp [h]

end Trace

namespace Schema

open Trace (cutShort never recorded recorder refuseAt)

/-- **A listener that refuses an event stops the walk at once.** It has recorded what a listener
that refuses nothing records up to this event, and the walk ends with its fault; a walk with fewer
events is not changed at all. This is so when the walk is told to the listener, over types and over
records, and the recordings of a walk are those of telling it. -/
theorem recorded_refuseAt (s : Schema) {n : Nat} (hn : 1 ≤ n) (e : Fault) :
    (∀ root, recorded (s.tell (recorder (refuseAt n e)) root) =
      cutShort n e (recorded (s.tell (recorder never) root))) ∧
    (∀ r, recorded (s.tellRoot (recorder (refuseAt n e)) r) =
      cutShort n e (recorded (s.tellRoot (recorder never) r))) ∧
    (∀ refuse root, Trace.record refuse (s.walk root) =
      recorded (s.tell (recorder refuse) root)) ∧
    ∀ refuse r, Trace.record refuse (s.walkRoot r) =
      recorded (s.tellRoot (recorder refuse) r) := by
  have htypes (refuse : Nat → SchemaEvent → Option Fault) (root : TypeDef) :
      Trace.record refuse (s.walk root) = recorded (s.tell (recorder refuse) root) := by
    rw [← s.run_walk]
    rfl
  have hvalues (refuse : Nat → ValueEvent → Option Fault) (r : Record) :
      Trace.record refuse (s.walkRoot r) = recorded (s.tellRoot (recorder refuse) r) := by
    rw [← s.run_walkRoot]
    rfl
  refine ⟨fun root ↦ ?_, fun r ↦ ?_, htypes, hvalues⟩
  · rw [← htypes, ← htypes, Trace.record_refuseAt hn]
  · rw [← hvalues, ← hvalues, Trace.record_refuseAt hn]

/-! A listener that stops at the fourth event of a drawing hears of a point within a line within the
drawing and no more, and that the note in the place of the origin has begun. -/

def fourthRefused : Fault :=
  .data (.stopped 4)

theorem recorded_refuseAt_drawing : 1 ≤ 4 ∧
    recorded (Dictionary.drawingSchema.tell (recorder (refuseAt 4 fourthRefused))
        Dictionary.drawingType) =
      ([.beginType none Dictionary.drawingType, .beginType (some "lines") Dictionary.lineType,
        .beginType (some "from") Dictionary.pointType, .primitive "x" .double false],
        .error fourthRefused) ∧
    recorded (Dictionary.drawingSchema.tellRoot (recorder (refuseAt 4 fourthRefused))
        strayRecord) =
      ([.beginRecord none "Drawing" Dictionary.drawingType,
        .beginArray "lines" (.composite Dictionary.lineType) 2 0, .endArray "lines",
        .beginRecord (some "origin") "Point" noteType], .error fourthRefused) := by
  obtain ⟨htypes, hvalues, -, -⟩ := recorded_refuseAt Dictionary.drawingSchema
    (show 1 ≤ 4 by decide) fourthRefused
  refine ⟨by decide, ?_, ?_⟩
  · rw [htypes]
    cbv
  · rw [hvalues]
    cbv

end Schema

end GraphCodec
