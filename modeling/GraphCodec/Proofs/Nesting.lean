import GraphCodec.Proofs.Slot
import GraphCodec.Walk.SchemaWalk

/-!
# The nesting of events

The events of a walk come in an order that has nothing to do with who listens. Here that order is
told by rules: a relation says which event may come in which *context* and what the context is
afterwards, and `Trace.Follows` says of a walk that it keeps to the rules, from one context to
another, however early it ends.

For a walk over types the context is the number of types that are open (`TypeRule`). For a walk over
a value it is the stack of records and arrays that have been entered, each array with the items
that it still expects (`ValueRule`). Both walks keep to their rules whatever the schema and the
value are (`follows_walkType`, `nestsIn`).

A listener whose state *tracks* the context can be told anything that the rules allow. Once that is
known of a single event it is known of every walk (`Listener.Tracks.run`). What every event keeps,
whether it is allowed or not, holds after any walk (`Listener.endsIn_run`).
-/

namespace GraphCodec

/-! ### Faults of nesting and of sort -/

/-- Whether a fault says that events are not nested. -/
def Fault.ofNesting : Fault → Bool
  | frameMismatch .. | unbalanced .. => true
  | _ => false

/-- Whether a fault says that a value is not of the sort that a field demands. -/
def Fault.ofSort : Fault → Bool
  | typeMismatch .. => true
  | _ => false

/-- Whether a fault is about anything else. -/
def Fault.Material (e : Fault) : Prop :=
  e.ofNesting = false ∧ e.ofSort = false

theorem Fault.material_data (cause : DataFault) : (Fault.data cause).Material :=
  ⟨rfl, rfl⟩

theorem Fault.material_schema (cause : SchemaFault) : (Fault.schema cause).Material :=
  ⟨rfl, rfl⟩

theorem Fault.material_unregisteredType (name : String) : (unregisteredType name).Material :=
  ⟨rfl, rfl⟩

/-- Whether all the faults that a computation may end with are in `Q`. -/
def FailsOnly {α : Type} (Q : Fault → Prop) (x : Except Fault α) : Prop :=
  ∀ e, x = .error e → Q e

section

variable {α β : Type} {Q Q' : Fault → Prop}

theorem failsOnly_ok (a : α) : FailsOnly Q (.ok a) := by
  intro e h
  cases h

theorem failsOnly_error {e : Fault} (h : Q e) : FailsOnly Q (.error e : Except Fault α) := by
  intro e' he
  cases he
  exact h

/-- Less may be said of a failure. -/
theorem FailsOnly.mono {x : Except Fault α} (h : FailsOnly Q x) (hQ : ∀ e, Q e → Q' e) :
    FailsOnly Q' x :=
  fun e he ↦ hQ e (h e he)

/-- Computations one after the other fail as one of them does. -/
theorem FailsOnly.bind {x : Except Fault α} {f : α → Except Fault β} (hx : FailsOnly Q x)
    (hf : ∀ a, x = .ok a → FailsOnly Q (f a)) : FailsOnly Q (x >>= f) := by
  match x, hx, hf with
  | .error e, hx, _ => exact failsOnly_error (hx e rfl)
  | .ok a, _, hf => exact hf a rfl

theorem FailsOnly.map {x : Except Fault α} (h : FailsOnly Q x) (g : α → β) :
    FailsOnly Q (x.map g) := by
  cases x with
  | error e => exact failsOnly_error (h e rfl)
  | ok a => exact failsOnly_ok _

/-- A run of computations fails as one of them does. -/
theorem failsOnly_mapM {f : α → Except Fault β} {as : List α} (hf : ∀ a, FailsOnly Q (f a)) :
    FailsOnly Q (as.mapM f) := by
  induction as with
  | nil =>
    rw [List.mapM_nil]
    exact failsOnly_ok _
  | cons a as ih =>
    rw [List.mapM_cons]
    exact (hf a).bind fun b _ ↦ ih.bind fun bs _ ↦ failsOnly_ok _

end

/-! ### Rules -/

section

variable {κ ε σ α β : Type} {rule : κ → ε → κ → Prop} {Q : Fault → Prop} {c c' c'' : κ}

/-- Events that the rules allow one after the other, from one context to another. -/
inductive Allowed (rule : κ → ε → κ → Prop) : κ → List ε → κ → Prop
  | nil (c : κ) : Allowed rule c [] c
  | cons {c c' c'' : κ} {event : ε} {events : List ε} (first : rule c event c')
      (rest : Allowed rule c' events c'') : Allowed rule c (event :: events) c''

/-- Events that are allowed after each other are allowed together. -/
theorem Allowed.append {events events' : List ε} (h : Allowed rule c events c')
    (h' : Allowed rule c' events' c'') : Allowed rule c (events ++ events') c'' := by
  induction h with
  | nil => exact h'
  | cons first _ ih => exact .cons first (ih h')

/-- Whether a walk keeps to the rules: its events are allowed from the context `c` on, they lead to
`c'` if the walk ends well, and otherwise it ends with a fault in `Q`. -/
structure Trace.Follows (rule : κ → ε → κ → Prop) (Q : Fault → Prop) (t : Trace ε α) (c c' : κ) :
    Prop where
  allowed : ∃ last, Allowed rule c t.events last ∧ ∀ a, t.outcome = .ok a → last = c'
  fails : FailsOnly Q t.outcome

namespace Trace

theorem follows_pure (a : α) : (pure a : Trace ε α).Follows rule Q c c :=
  ⟨⟨c, .nil c, fun _ _ ↦ rfl⟩, failsOnly_ok a⟩

/-- One event follows the rule if the rule allows it here. -/
theorem follows_emit {event : ε} (h : rule c event c') : (emit event).Follows rule Q c c' :=
  ⟨⟨c', .cons h (.nil c'), fun _ _ ↦ rfl⟩, failsOnly_ok ()⟩

/-- A walk may end anywhere in a failure of the right kind. -/
theorem follows_fail {e : Fault} (h : Q e) : (fail e : Trace ε α).Follows rule Q c c' :=
  ⟨⟨c, .nil c, fun _ hok ↦ nomatch hok⟩, failsOnly_error h⟩

/-- **One walk after the other** follows the rule from where the first has led. -/
theorem Follows.bind {t : Trace ε α} {f : α → Trace ε β} (ht : t.Follows rule Q c c')
    (hf : ∀ a, (f a).Follows rule Q c' c'') : (t >>= f).Follows rule Q c c'' := by
  obtain ⟨⟨last, hlast, hend⟩, hfails⟩ := ht
  show (t.bind f).Follows rule Q c c''
  unfold Trace.bind
  cases hout : t.outcome with
  | error e => exact ⟨⟨last, hlast, fun _ hok ↦ nomatch hok⟩, failsOnly_error (hfails e hout)⟩
  | ok a =>
    obtain rfl := hend a hout
    obtain ⟨⟨last', hlast', hend'⟩, hfails'⟩ := hf a
    exact ⟨⟨last', hlast.append hlast', hend'⟩, hfails'⟩

/-- Walks in order keep to the rules if each of them leads from a context that depends on the number
of those left to the one for a walk less. -/
theorem follows_sequence {walk : α → Trace ε Unit} (context : Nat → κ) {as : List α}
    (h : ∀ a ∈ as, ∀ n, (walk a).Follows rule Q (context (n + 1)) (context n)) :
    (sequence (as.map walk)).Follows rule Q (context as.length) (context 0) := by
  induction as with
  | nil => exact follows_pure ()
  | cons a as ih =>
    rw [List.map_cons, sequence_cons]
    exact (h a List.mem_cons_self as.length).bind fun _ ↦
      ih fun b hb n ↦ h b (List.mem_cons_of_mem a hb) n

end Trace

/-! ### Listening by the rules -/

/-- Whether a step of a listener ends in a state with `P`, or is refused with a fault in `Q`. -/
def EndsIn (P : σ → Prop) (Q : Fault → Prop) : EStateM.Result Fault σ α → Prop
  | .ok _ s => P s
  | .error e _ => Q e

/-- One step after the other, for one state. -/
theorem EndsIn.bind {x : EStateM Fault σ α} {f : α → EStateM Fault σ β} {P P' : σ → Prop} {s : σ}
    (hx : EndsIn P Q (x s)) (hf : ∀ a s', x s = .ok a s' → P s' → EndsIn P' Q (f a s')) :
    EndsIn P' Q ((x >>= f) s) := by
  show EndsIn P' Q (EStateM.bind x f s)
  unfold EStateM.bind
  cases h : x s with
  | error e s' =>
    rw [h] at hx
    exact hx
  | ok a s' =>
    rw [h] at hx
    exact hf a s' h hx

/-- Whether a computation carries states with `P` to states with `P'`, or is refused with a fault
in `Q`. -/
structure Carries (P : σ → Prop) (Q : Fault → Prop) (P' : σ → Prop) (x : EStateM Fault σ α) :
    Prop where
  endsIn : ∀ s, P s → EndsIn P' Q (x s)

/-- One step after the other, for all states with a property. -/
theorem Carries.bind {x : EStateM Fault σ α} {f : α → EStateM Fault σ β} {P P' P'' : σ → Prop}
    (hx : Carries P Q P' x) (hf : ∀ a, Carries P' Q P'' (f a)) : Carries P Q P'' (x >>= f) := by
  refine ⟨fun s hs ↦ ?_⟩
  exact (hx.endsIn s hs).bind fun a s' _ hs' ↦ (hf a).endsIn s' hs'

/-- Whether a listener can be told whatever the rules allow: it keeps a state that goes with the
context, or refuses the event with a fault in `Q`. -/
def Listener.Tracks (listen : Listener ε σ) (rule : κ → ε → κ → Prop) (Q : Fault → Prop)
    (goesWith : κ → σ → Prop) : Prop :=
  ∀ c c' event s, rule c event c' → goesWith c s → EndsIn (goesWith c') Q (listen event s)

variable {listen : Listener ε σ} {goesWith : κ → σ → Prop}

/-- **From one event to all of them**: a listener that tracks the context refuses no sequence of
allowed events but with a fault in `Q`. -/
theorem Listener.Tracks.deliver (h : listen.Tracks rule Q goesWith) {events : List ε} {s : σ}
    (hevents : Allowed rule c events c') (hs : goesWith c s) :
    EndsIn (goesWith c') Q (Trace.deliver listen events s) := by
  induction hevents generalizing s with
  | nil => exact hs
  | cons first _ ih =>
    have hfirst := h _ _ _ _ first hs
    unfold Trace.deliver
    split
    · rename_i s' hok
      rw [hok] at hfirst
      exact ih hfirst
    · rename_i e s' herror
      rw [herror] at hfirst
      exact hfirst

/-- **A listener that tracks a walk** ends in a state that goes with its last context, or with a
refusal in `Q`, or with the fault of the walk itself. -/
theorem Listener.Tracks.run (h : listen.Tracks rule Q goesWith) {Q' : Fault → Prop}
    {t : Trace ε α} (ht : t.Follows rule Q' c c') {s : σ} (hs : goesWith c s) :
    EndsIn (goesWith c') (fun e ↦ Q e ∨ t.outcome = .error e) (Trace.run listen t s) := by
  obtain ⟨⟨last, hallowed, hlast⟩, -⟩ := ht
  have hdeliver := h.deliver hallowed hs
  unfold Trace.run
  split
  · rename_i e s' herror
    rw [herror] at hdeliver
    exact .inl hdeliver
  · rename_i s' hok
    rw [hok] at hdeliver
    split
    · rename_i a hout
      exact hlast a hout ▸ hdeliver
    · rename_i e hout
      exact .inr hout

/-- The same of the result without the state. -/
theorem Listener.Tracks.outcomeFrom (h : listen.Tracks rule Q goesWith) {Q' : Fault → Prop}
    {t : Trace ε α} (ht : t.Follows rule Q' c c') {s : σ} (hs : goesWith c s) :
    (∀ a s', Trace.outcomeFrom listen s t = .ok (a, s') → goesWith c' s') ∧
      FailsOnly (fun e ↦ Q e ∨ t.outcome = .error e) (Trace.outcomeFrom listen s t) := by
  have hrun := h.run ht hs
  unfold Trace.outcomeFrom
  split
  · rename_i a s' hok
    rw [hok] at hrun
    refine ⟨fun b s'' heq ↦ ?_, failsOnly_ok _⟩
    cases heq
    exact hrun
  · rename_i e s' herror
    rw [herror] at hrun
    exact ⟨fun _ _ heq ↦ (nomatch heq), failsOnly_error hrun⟩

/-- **What every event keeps, every walk keeps**, whatever its events are. -/
theorem Listener.endsIn_run {P : σ → Prop}
    (h : ∀ event, Carries P (fun _ ↦ True) P (listen event)) (t : Trace ε α) {s : σ} (hs : P s) :
    EndsIn P (fun _ ↦ True) (Trace.run listen t s) := by
  have hdeliver : EndsIn P (fun _ ↦ True) (Trace.deliver listen t.events s) := by
    generalize t.events = events
    induction events generalizing s with
    | nil => exact hs
    | cons event events ih =>
      have hfirst := (h event).endsIn s hs
      unfold Trace.deliver
      split
      · rename_i s' hok
        rw [hok] at hfirst
        exact ih hfirst
      · trivial
  unfold Trace.run
  split
  · trivial
  · rename_i s' hok
    rw [hok] at hdeliver
    split
    · exact hdeliver
    · trivial

end

/-! ### Types -/

/-- Which events may come while `n` types are open. -/
inductive TypeRule : Nat → SchemaEvent → Nat → Prop
  | beginType (n : Nat) (field : Option String) (t : TypeDef) :
    TypeRule n (.beginType field t) (n + 1)
  | endType (n : Nat) (field : Option String) : TypeRule (n + 1) (.endType field) n
  | primitive (n : Nat) (name : String) (k : Kind) (preserve : Bool) :
    TypeRule (n + 1) (.primitive name k preserve) (n + 1)
  | primitiveArray (n : Nat) (name : String) (k : Kind) (dims : Nat) (preserve : Bool) :
    TypeRule (n + 1) (.primitiveArray name k dims preserve) (n + 1)
  | composite (n : Nat) (name : String) (t : TypeDef) :
    TypeRule (n + 1) (.composite name t) (n + 1)
  | compositeArray (n : Nat) (name : String) (t : TypeDef) (dims : Nat) :
    TypeRule (n + 1) (.compositeArray name t dims) (n + 1)
  | unknown (n : Nat) (owner : TypeDef) (f : FieldDef) :
    TypeRule (n + 1) (.unknown owner f) (n + 1)

namespace Schema

variable (s : Schema)

mutual

/-- **The walk over a type** closes what it opens. -/
theorem follows_walkType (walking : List String) (field : Option String) (t : TypeDef)
    (visited : List String) (n : Nat) :
    (s.walkType walking field t visited).Follows TypeRule Fault.Material n n := by
  rw [walkType]
  exact (Trace.follows_emit (.beginType n field t)).bind fun _ ↦
    (follows_walkFields (t.name :: walking) t t.fields visited n).bind fun _ ↦
      (Trace.follows_emit (.endType n field)).bind fun _ ↦ Trace.follows_pure _
  termination_by (s.countOutside (t.name :: walking), 1, 0)
  decreasing_by
    apply Prod.Lex.right
    apply Prod.Lex.left
    decide

/-- The walk over fields stays within the type whose fields they are. -/
theorem follows_walkFields (walking : List String) (owner : TypeDef) (fields : List FieldDef)
    (visited : List String) (n : Nat) :
    (s.walkFields walking owner fields visited).Follows TypeRule Fault.Material (n + 1)
      (n + 1) := by
  match fields with
  | [] =>
    rw [walkFields]
    exact Trace.follows_pure visited
  | f :: fs =>
    rw [walkFields]
    split
    · refine (Trace.follows_emit ?_).bind fun _ ↦ follows_walkFields walking owner fs visited n
      split
      · exact .primitiveArray n f.name _ f.dims f.preserve
      · exact .primitive n f.name _ f.preserve
    · rename_i t hresolve
      split
      · exact Trace.follows_fail ⟨rfl, rfl⟩
      · rename_i hentered
        -- a type that has been visited is not told again
        have hinner : (if t.name ∈ visited then pure visited
            else s.walkType walking (some f.name) t visited).Follows TypeRule Fault.Material
              (n + 1) (n + 1) := by
          split
          · exact Trace.follows_pure visited
          · exact follows_walkType walking (some f.name) t visited (n + 1)
        refine hinner.bind fun visited' ↦
          (Trace.follows_emit ?_).bind fun _ ↦ follows_walkFields walking owner fs visited' n
        · split
          · exact .compositeArray n f.name t f.dims
          · exact .composite n f.name t
    · exact (Trace.follows_emit (.unknown n owner f)).bind fun _ ↦ Trace.follows_fail ⟨rfl, rfl⟩
  termination_by (s.countOutside walking, 0, fields.length)
  decreasing_by
    · apply Prod.Lex.right
      apply Prod.Lex.right
      simp
    · apply Prod.Lex.left
      exact countOutside_cons_lt (mem_of_resolve_eq_composite ‹_›) ‹_›
    · apply Prod.Lex.right
      apply Prod.Lex.right
      simp

end

/-- **The walk over a schema** follows the rule for types, and fails in material faults only. -/
theorem follows_walk (root : TypeDef) :
    (s.walk root).Follows TypeRule Fault.Material 0 0 := by
  unfold walk
  exact (s.follows_walkType [] none root [] 0).bind fun _ ↦ Trace.follows_pure ()

end Schema

/-! ### Values -/

/-- Something that a walk over a value has entered and not left. -/
inductive Level where
  | record (field : Option String)
  /-- A dimension of an array that expects `left` more items; `dims` counts it and those within
  it. -/
  | array (field : String) (element : ElementType) (dims left : Nat)

namespace Level

/-- Whether a value with `dims` dimensions may come next: anything in a record, and in an array an
item of it. -/
def Room (element : ElementType) (dims : Nat) : List Level → Prop
  | .array _ element' dims' left :: _ => element' = element ∧ dims' = dims + 1 ∧ 0 < left
  | _ => True

/-- What is open when the next value has come. -/
def fill : List Level → List Level
  | .array field element dims left :: outer => .array field element dims (left - 1) :: outer
  | levels => levels

end Level

/-- Which events may come while some records and arrays are open, innermost first. A primitive is of
its kind, the items of a row of primitives are, and only a row of records is walked item by item. -/
inductive ValueRule : List Level → ValueEvent → List Level → Prop
  | beginRoot (declared : String) (t : TypeDef) :
    ValueRule [] (.beginRecord none declared t) [.record none]
  | beginRecord {levels : List Level} {c : TypeDef} (room : Level.Room (.composite c) 0 levels)
      (field : String) (t : TypeDef) :
    ValueRule levels (.beginRecord (some field) c.name t) (.record (some field) :: levels)
  | endRecord (levels : List Level) (field : Option String) :
    ValueRule (.record field :: levels) (.endRecord field) (Level.fill levels)
  | beginArray {levels : List Level} {element : ElementType} {dims : Nat}
      (room : Level.Room element (dims + 1) levels)
      (row : dims = 0 → ∃ c, element = .composite c) (field : String) (length : Nat) :
    ValueRule levels (.beginArray field element (dims + 1) length)
      (.array field element (dims + 1) length :: levels)
  | endArray (levels : List Level) (field : String) (element : ElementType) (dims : Nat) :
    ValueRule (.array field element dims 0 :: levels) (.endArray field) (Level.fill levels)
  | primitive {levels : List Level} {k : Kind} {v : Value}
      (room : Level.Room (.primitive k) 0 levels) (sort : v.matchesKind k = true)
      (field : String) : ValueRule levels (.primitive field k v) (Level.fill levels)
  | primitives {levels : List Level} {k : Kind} {vs : List Value}
      (room : Level.Room (.primitive k) 1 levels)
      (sort : ∀ v ∈ vs, Schema.isItemOf k v = true) (field : String) :
    ValueRule levels (.primitives field k vs) (Level.fill levels)
  | emptyComposite {levels : List Level} {c : TypeDef} (room : Level.Room (.composite c) 0 levels)
      (field : String) : ValueRule levels (.emptyComposite field c) (Level.fill levels)

namespace Schema

variable {s : Schema} {levels : List Level}

/-- Whether a walk keeps to the rules for values, and ends with no fault of nesting. -/
abbrev Nests (t : Trace ValueEvent Unit) (levels levels' : List Level) : Prop :=
  t.Follows ValueRule (fun e ↦ e.ofNesting = false) levels levels'

/-- The items of an array of primitives are within the room for it. -/
theorem nests_walkPrimitives {k : Kind} (room : Level.Room (.primitive k) 1 levels) (f : FieldDef)
    (items : List Value) : Nests (walkPrimitives f k items) levels (Level.fill levels) := by
  unfold walkPrimitives
  split
  · exact Trace.follows_fail rfl
  · rename_i hnone
    refine Trace.follows_emit (.primitives room (fun v hv ↦ ?_) f.name)
    simpa using List.find?_eq_none.1 hnone v hv

/-- Whether the walk over a value keeps to the rules wherever there is room for it. -/
def NestsIn (s : Schema) (v : Value) : Prop :=
  ∀ (f : FieldDef) {element : ElementType} {dims : Nat} {levels : List Level},
    Level.Room element dims levels →
      Nests (s.walkValue f element dims v) levels (Level.fill levels)

/-- Brackets around the items of an array. -/
theorem nests_brackets {element : ElementType} {dims : Nat}
    (room : Level.Room element (dims + 1) levels) (row : dims = 0 → ∃ c, element = .composite c)
    (f : FieldDef) {items : List Value} (ih : ∀ v ∈ items, s.NestsIn v) :
    Nests (do
      Trace.emit (.beginArray f.name element (dims + 1) items.length)
      Trace.sequence (items.map (s.walkValue f element dims))
      Trace.emit (.endArray f.name)) levels (Level.fill levels) := by
  -- the context inside is the array with as many items as have not been walked
  have hitems : Nests (Trace.sequence (items.map (s.walkValue f element dims)))
      (.array f.name element (dims + 1) items.length :: levels)
      (.array f.name element (dims + 1) 0 :: levels) :=
    Trace.follows_sequence (fun n ↦ .array f.name element (dims + 1) n :: levels)
      fun v hv n ↦
        have hroom : Level.Room element dims (.array f.name element (dims + 1) (n + 1) :: levels) :=
          ⟨rfl, rfl, n.succ_pos⟩
        ih v hv f hroom
  exact (Trace.follows_emit (.beginArray room row f.name items.length)).bind fun _ ↦
    hitems.bind fun _ ↦ Trace.follows_emit (.endArray levels f.name element (dims + 1))

/-- A scalar fills its place. -/
theorem nests_walkScalar {k : Kind} (room : Level.Room (.primitive k) 0 levels) (f : FieldDef)
    (v : Value) : Nests (s.walkValue f (.primitive k) 0 v) levels (Level.fill levels) := by
  rw [walkValue]
  split
  · rename_i hsort
    exact Trace.follows_emit (.primitive room hsort f.name)
  · exact Trace.follows_fail rfl

/-- A composite slot without a record. -/
theorem nests_walkAbsent {c : TypeDef} (room : Level.Room (.composite c) 0 levels) (f : FieldDef)
    {v : Value} (hv : ∀ typeName fields, v ≠ .record typeName fields) :
    Nests (s.walkValue f (.composite c) 0 v) levels (Level.fill levels) := by
  rw [walkValue]
  · split
    · exact Trace.follows_emit (.emptyComposite room f.name)
    · exact Trace.follows_fail rfl
  · exact hv

/-- An array opens a level, and its items are within it by induction. -/
theorem nests_walkArray {element : ElementType} {dims : Nat}
    (room : Level.Room element (dims + 1) levels) (f : FieldDef) {items : List Value}
    (ih : ∀ v ∈ items, s.NestsIn v) :
    Nests (s.walkValue f element (dims + 1) (.array items)) levels (Level.fill levels) := by
  obtain ⟨k, rfl, rfl⟩ | row := row_cases element dims
  · rw [walkValue_row]
    exact nests_walkPrimitives room f items
  · rw [walkValue_array s f row]
    exact nests_brackets room row f ih

/-- An array slot that holds no array. -/
theorem nests_walkAbsentArray {element : ElementType} {dims : Nat}
    (room : Level.Room element (dims + 1) levels) (f : FieldDef) {v : Value}
    (hv : ∀ items, v ≠ .array items) :
    Nests (s.walkValue f element (dims + 1) v) levels (Level.fill levels) := by
  by_cases hnull : v = .null
  · rw [hnull, walkValue_null]
    exact nests_walkArray room f fun _ h ↦ absurd h List.not_mem_nil
  · rw [walkValue_misfit s f element dims hnull hv]
    exact Trace.follows_fail rfl

/-- The walk over a record, from the event that opens it. -/
theorem nests_walkRecord {field : Option String} {declared : String} {t : TypeDef}
    (hbegin : ValueRule levels (.beginRecord field declared t) (.record field :: levels))
    {fields : List (String × Value)} (ih : ∀ name, s.NestsIn (Value.fieldOf fields name)) :
    Nests (s.walkRecord field declared t fields) levels (Level.fill levels) := by
  rw [walkRecord]
  refine (Trace.follows_emit hbegin).bind fun _ ↦ Trace.Follows.bind ?_ fun _ ↦
    Trace.follows_emit (.endRecord levels field)
  refine Trace.follows_sequence (fun _ ↦ .record field :: levels) fun f _ _ ↦ ?_
  split
  · exact ih f.name f trivial
  · exact ih f.name f trivial
  · exact Trace.follows_fail rfl

/-- A record is walked between its begin and its end, which are for the same field. -/
theorem nests_walkComposite {c : TypeDef} (room : Level.Room (.composite c) 0 levels)
    (f : FieldDef) (typeName : String) {fields : List (String × Value)}
    (ih : ∀ name, s.NestsIn (Value.fieldOf fields name)) :
    Nests (s.walkValue f (.composite c) 0 (.record typeName fields)) levels
      (Level.fill levels) := by
  rw [walkValue]
  split
  · rename_i t _
    exact nests_walkRecord (.beginRecord room f.name t) ih
  · exact Trace.follows_fail rfl

/-- **The walk over a value** enters and leaves what it should, whatever the value is. -/
theorem nestsIn (s : Schema) (v : Value) : s.NestsIn v := by
  induction v using Value.lookupInduction with
  | leaf v harray hrecord =>
    intro f element dims levels room
    match element, dims with
    | .primitive k, 0 => exact nests_walkScalar room f v
    | .composite c, 0 => exact nests_walkAbsent room f hrecord
    | _, dims + 1 => exact nests_walkAbsentArray room f harray
  | array items ih =>
    intro f element dims levels room
    match element, dims with
    | .primitive k, 0 => exact nests_walkScalar room f _
    | .composite c, 0 => exact nests_walkAbsent room f fun _ _ h ↦ nomatch h
    | _, dims + 1 => exact nests_walkArray room f ih
  | record typeName fields ih =>
    intro f element dims levels room
    match element, dims with
    | .primitive k, 0 => exact nests_walkScalar room f _
    | .composite c, 0 => exact nests_walkComposite room f typeName ih
    | _, dims + 1 => exact nests_walkAbsentArray room f fun _ h ↦ nomatch h

/-- **The walk over a root** starts and ends with nothing open. -/
theorem nests_walkRoot (s : Schema) (r : Record) : Nests (s.walkRoot r) [] [] := by
  unfold walkRoot
  split
  · rename_i t _
    exact nests_walkRecord (.beginRoot t.name t) fun name ↦ s.nestsIn _
  · exact Trace.follows_fail rfl

end Schema

end GraphCodec
