import GraphCodec.Container.Builder
import GraphCodec.Proofs.Alignment
import GraphCodec.Proofs.Bracketing
import GraphCodec.Proofs.Decoding

/-!
# The stack of frames

A builder of container trees keeps the struct of the root apart from the frames, and what a frame
holds is of the type that its sort demands. Both could also be otherwise: on a *stack* of frames the
root is the outermost one, every frame holds any tree, and that the stack is empty or that a frame
holds a container of the wrong sort are faults like others (`StackFrame.noFrame`,
`StackFrame.wrongContainer`). Here this stack is given with all its checks, and it is shown to do
what the builder does, event by event (`mirrors_listener`), whatever it is told and whatever it
refuses.
-/

namespace GraphCodec

namespace Container

/-! ### Frames with their containers -/

/-- What a frame of the stack is there for. -/
inductive FrameSort where
  | root
  | composite
  | composites
  | nested
  | texts
  deriving DecidableEq, Repr

/-- A sort of frames as messages name it. -/
def FrameSort.name : FrameSort → String
  | root => "Root"
  | composite => "Composite"
  | composites => "CompositeArray"
  | nested => "NestedArray"
  | texts => "TextArray"

/-- The sort of the frame of an array. -/
def FrameSort.ofArray (element : ElementType) (dims : Nat) : FrameSort :=
  if element.isTextual then texts else if 1 < dims then nested else composites

/-- A frame that holds any tree; `index` is the next slot. -/
structure StackFrame where
  sort : FrameSort
  field : String
  value : Tree
  index : Nat

namespace StackFrame

/-- The frame of the root. -/
def root (s : StructArray Tree) : StackFrame :=
  ⟨.root, "s", .struct s, 0⟩

/-- A frame as messages name it. -/
def describe (f : StackFrame) : String :=
  s!"{f.sort.name} '{f.field}'"

/-- The fault that there is no frame at all. -/
def noFrame : Fault :=
  .unbalanced 1 0

/-- The fault that a frame does not hold what frames of its sort hold. -/
def wrongContainer (f : StackFrame) : Fault :=
  .frameMismatch s!"{f.sort.name} container" f.value.className

/-- The number of slots of what a frame holds. -/
def slots (f : StackFrame) : Nat :=
  f.value.dims.2

/-- Use up a slot. -/
def skip (f : StackFrame) : StackFrame :=
  { f with index := f.index + 1 }

/-- A frame after an attempt to store a tree in it, under a field name or in the next slot. -/
def store (field : String) (v : Tree) (f : StackFrame) : StackFrame × Except Fault Unit :=
  match f.sort, f.value with
  | .root, .struct s | .composite, .struct s =>
    let (s, result) := s.set Tree.empty field 0 v
    ({ f with value := .struct s }, result)
  | .nested, .struct s =>
    let (s, result) := s.set Tree.empty innerField f.index v
    ({ f.skip with value := .struct s }, result)
  | .composites, .struct s =>
    match v with
    | .struct element =>
      let (s, result) := Builder.splice s f.index element.firstElement
      ({ f.skip with value := .struct s }, result)
    | v => (f.skip, .error (.typeMismatch field "struct" v.className))
  | .texts, .cell items =>
    if f.index < items.length then ({ f.skip with value := .cell (items.set f.index v) }, .ok ())
    else (f.skip, .error (.unbalanced items.length (f.index + 1)))
  | _, _ => (f, .error f.wrongContainer)

end StackFrame

/-- The frames that are open, innermost first. -/
abbrev Stack := List StackFrame

namespace Stack

/-- The stack that has been told nothing. -/
def start : Stack :=
  [.root (StructArray.ofSize 1)]

def push (f : StackFrame) : EStateM Fault Stack Unit := fun stack ↦
  .ok () (f :: stack)

/-- Take the innermost frame off, unless it is the root. It has to have been opened for `field`. -/
def pop (field : String) (isArray : Bool) : EStateM Fault Stack StackFrame
  | [] => .error (.frameMismatch field "root") []
  | f :: outer =>
    if f.sort = .root then .error (.frameMismatch field "root") (f :: outer)
    else if f.field = field ∧ (f.sort != .composite) = isArray then .ok f outer
    else .error (.frameMismatch field f.describe) outer

/-- Store a finished tree in the innermost frame. -/
def attach (field : String) (v : Tree) : EStateM Fault Stack Unit
  | [] => .error StackFrame.noFrame []
  | f :: outer =>
    match f.store field v with
    | (f, .ok ()) => .ok () (f :: outer)
    | (f, .error e) => .error e (f :: outer)

/-- Store a tree that may not exist in the innermost frame. -/
def attachOrFail (field : String) : Except Fault Tree → EStateM Fault Stack Unit
  | .ok v => attach field v
  | .error e => fun stack ↦ .error e stack

/-- Skip a slot of an array of records, or store the placeholder in any other frame. -/
def attachEmpty (field : String) : EStateM Fault Stack Unit
  | [] => .error StackFrame.noFrame []
  | f :: outer =>
    if f.sort = .composites then .ok () (f.skip :: outer) else attach field Tree.empty (f :: outer)

/-- What the frame of an array holds at first. -/
def blankArray (element : ElementType) (dims length : Nat) : Tree :=
  match FrameSort.ofArray element dims, element with
  | .texts, _ => .cell (List.replicate length Tree.empty)
  | .nested, _ => .struct (StructArray.withNames Tree.empty length [innerField])
  | _, .primitive _ => .struct (StructArray.withNames Tree.empty length [])
  | _, .composite t => .struct (StructArray.withNames Tree.empty length t.fieldNames)

/-- The stack as a listener. -/
def listener : Listener ValueEvent Stack
  | .beginRecord field declared t => fun stack ↦
    if t.name ≠ declared then
      .error (.polymorphicValue (field.getD declared) declared t.name) stack
    else
      match field with
      | none => .ok () stack
      | some field =>
        push ⟨.composite, field, .struct (StructArray.withNames Tree.empty 1 t.fieldNames), 0⟩ stack
  | .endRecord none => fun stack ↦ .ok () stack
  | .endRecord (some field) => do
    let f ← pop field false
    attach field f.value
  | .beginArray field element dims length =>
    push ⟨.ofArray element dims, field, blankArray element dims length, 0⟩
  | .endArray field => do
    let f ← pop field true
    attach field (if f.slots = 0 then Tree.empty else f.value)
  | .primitive field k v => attachOrFail field (Tree.ofScalar field k v)
  | .primitives field k vs => attachOrFail field (Tree.ofPrimitives field k vs)
  | .emptyComposite field _ => attachEmpty field

/-- The finished tree, when there is one frame. -/
def finish : Stack → Except Fault Tree
  | [f] => .ok f.value
  | stack => .error (.unbalanced 1 stack.length)

end Stack

/-! ### Builders as stacks -/

/-- A frame of a builder on the stack. -/
def Frame.onStack : Frame → StackFrame
  | composite field s => ⟨.composite, field, .struct s, 0⟩
  | composites field s index => ⟨.composites, field, .struct s, index⟩
  | nested field s index => ⟨.nested, field, .struct s, index⟩
  | texts field items index => ⟨.texts, field, .cell items.toList, index⟩

/-- The stack of a builder. -/
def Builder.stack (b : Builder) : Stack :=
  b.frames.map Frame.onStack ++ [.root b.root]

namespace Frame

variable (f : Frame)

@[simp] theorem field_onStack : f.onStack.field = f.field := by
  cases f <;> rfl

@[simp] theorem value_onStack : f.onStack.value = f.tree := by
  cases f <;> rfl

@[simp] theorem describe_onStack : f.onStack.describe = f.describe := by
  cases f <;> rfl

@[simp] theorem isArray_onStack : (f.onStack.sort != .composite) = f.isArray := by
  cases f <;> rfl

theorem sort_onStack_ne : f.onStack.sort ≠ .root := by
  cases f <;> exact fun h ↦ nomatch h

/-- **Storing a tree** is the same on the stack, refused or not. -/
theorem store_onStack (field : String) (v : Tree) :
    f.onStack.store field v =
      ((Builder.put field v f).1.onStack, (Builder.put field v f).2) := by
  cases f with
  | composite | nested => rfl
  | composites name s index => cases v <;> rfl
  | texts name items index =>
    by_cases hindex : index < items.size <;>
      simp [onStack, StackFrame.store, StackFrame.skip, Builder.put, hindex]

end Frame

/-- Arrays are opened with the same container on both. -/
theorem onStack_arrayFrame (field : String) (element : ElementType) (dims length : Nat) :
    (Builder.arrayFrame field element dims length).onStack =
      ⟨.ofArray element dims, field, Stack.blankArray element dims length, 0⟩ := by
  unfold Builder.arrayFrame Stack.blankArray FrameSort.ofArray
  split_ifs
  · simp [Frame.onStack]
  · rfl
  · cases element <;> rfl

/-- An array without slots is finished as the placeholder on both. -/
theorem finishedArray_eq (f : Frame) :
    Builder.finishedArray f = if f.onStack.slots = 0 then Tree.empty else f.onStack.value := by
  rw [Frame.value_onStack, StackFrame.slots, Frame.value_onStack]
  rfl

/-- Whether a step of a stack is one of the builder with this stack, and returns what `g` makes of
its result. -/
def Mirrors {α β : Type} (x : EStateM Fault Stack α) (y : EStateM Fault Builder β) (g : β → α) :
    Prop :=
  ∀ b, x b.stack =
    match y b with
    | .ok a b => .ok (g a) b.stack
    | .error e b => .error e b.stack

section

variable {α β α' β' : Type} {x : EStateM Fault Stack α} {y : EStateM Fault Builder β} {g : β → α}

/-- Steps that mirror each other do so one after the other. -/
theorem Mirrors.bind (h : Mirrors x y g) {next : α → EStateM Fault Stack α'}
    {next' : β → EStateM Fault Builder β'} {g' : β' → α'}
    (hnext : ∀ a, Mirrors (next (g a)) (next' a) g') : Mirrors (x >>= next) (y >>= next') g' := by
  intro b
  show EStateM.bind x next b.stack = match EStateM.bind y next' b with
    | .ok a b => .ok (g' a) b.stack
    | .error e b => .error e b.stack
  unfold EStateM.bind
  rw [h b]
  cases y b with
  | ok a b' => exact hnext a b'
  | error e b' => rfl

theorem mirrors_push (f : Frame) : Mirrors (Stack.push f.onStack) (Builder.openFrame f) id :=
  fun _ ↦ rfl

/-- Frames are closed on the same conditions, and lost on the same. -/
theorem mirrors_pop (field : String) (isArray : Bool) :
    Mirrors (Stack.pop field isArray) (Builder.closeFrame field isArray) Frame.onStack := by
  rintro ⟨root, frames⟩
  -- the root is apart from the frames for the builder
  cases frames with
  | nil => rfl
  | cons f fs =>
    have hclosed : (f.onStack.field = field ∧ (f.onStack.sort != .composite) = isArray) ↔
        (f.field = field ∧ f.isArray = isArray) := by
      rw [Frame.field_onStack, Frame.isArray_onStack]
    simp only [Builder.stack, List.map_cons, List.cons_append, Stack.pop, Builder.closeFrame,
      if_neg f.sort_onStack_ne, hclosed, Frame.describe_onStack]
    split_ifs <;> rfl

/-- Trees go into the innermost frame, which is the root if no other is open. -/
theorem mirrors_attach (field : String) (v : Tree) :
    Mirrors (Stack.attach field v) (Builder.attach field v) id := by
  rintro ⟨root, frames⟩
  cases frames with
  | nil =>
    have hstore : (StackFrame.root root).store field v =
        (.root (root.set Tree.empty field 0 v).1, (root.set Tree.empty field 0 v).2) := rfl
    simp only [Builder.stack, List.map_nil, List.nil_append, Stack.attach, Builder.attach, hstore]
    rcases root.set Tree.empty field 0 v with ⟨s, ⟨⟩ | ⟨⟩⟩ <;> rfl
  | cons f fs =>
    simp only [Builder.stack, List.map_cons, List.cons_append, Stack.attach, Builder.attach,
      f.store_onStack]
    rcases Builder.put field v f with ⟨f', ⟨⟩ | ⟨⟩⟩ <;> rfl

theorem mirrors_attachOrFail (field : String) (out : Except Fault Tree) :
    Mirrors (Stack.attachOrFail field out) (Builder.attachOrFail field out) id := by
  cases out with
  | ok v => exact mirrors_attach field v
  | error e => exact fun _ ↦ rfl

/-- Skipped slots and placeholders go where the frame says. -/
theorem mirrors_attachEmpty (field : String) :
    Mirrors (Stack.attachEmpty field) (Builder.attachEmpty field) id := by
  rintro ⟨root, frames⟩
  match frames with
  | [] => exact mirrors_attach field Tree.empty ⟨root, []⟩
  | .composites .. :: fs => rfl
  | .composite name s :: fs => exact mirrors_attach field Tree.empty ⟨root, .composite name s :: fs⟩
  | .nested name s index :: fs =>
    exact mirrors_attach field Tree.empty ⟨root, .nested name s index :: fs⟩
  | .texts name items index :: fs =>
    exact mirrors_attach field Tree.empty ⟨root, .texts name items index :: fs⟩

/-- **The stack does what the builder does**, one event at a time. -/
theorem mirrors_listener (event : ValueEvent) :
    Mirrors (Stack.listener event) (Builder.listener event) id := by
  cases event with
  | beginRecord field declared t =>
    intro b
    simp only [Stack.listener, Builder.listener]
    split_ifs
    · rfl
    · cases field <;> rfl
  | endRecord field =>
    cases field with
    | none => exact fun _ ↦ rfl
    | some field =>
      refine (mirrors_pop field false).bind fun f ↦ ?_
      rw [f.value_onStack]
      exact mirrors_attach field f.tree
  | beginArray field element dims length =>
    have hpush := mirrors_push (Builder.arrayFrame field element dims length)
    rwa [onStack_arrayFrame] at hpush
  | endArray field =>
    refine (mirrors_pop field true).bind fun f ↦ ?_
    rw [← finishedArray_eq]
    exact mirrors_attach field _
  | primitive field k v => exact mirrors_attachOrFail field _
  | primitives field k vs => exact mirrors_attachOrFail field _
  | emptyComposite field t => exact mirrors_attachEmpty field

end

namespace Stack

/-- The answers to an event are the same on both. -/
theorem answer_listener (event : ValueEvent) (b : Builder) :
    listener.answer event b.stack =
      ((Builder.listener.answer event b).1, (Builder.listener.answer event b).2.stack) := by
  unfold Listener.answer
  rw [mirrors_listener event b]
  cases Builder.listener event b <;> rfl

/-- **The stack after any events** is that of the builder, and the answers are the same. -/
theorem after_listener (events : List ValueEvent) (b : Builder) :
    listener.after b.stack events = (Builder.listener.after b events).stack ∧
      listener.answers b.stack events = Builder.listener.answers b events := by
  induction events generalizing b with
  | nil => exact ⟨rfl, rfl⟩
  | cons event events ih =>
    obtain ⟨hafter, hanswers⟩ := ih (Builder.listener.answer event b).2
    simp only [Listener.after, Listener.answers, answer_listener, hafter, hanswers, and_self]

/-- So is the end, with its complaint about frames that are left. -/
theorem finish_stack (b : Builder) : b.stack.finish = b.finish := by
  obtain ⟨root, frames⟩ := b
  cases frames with
  | nil => rfl
  | cons f fs =>
    simp only [Builder.stack, List.map_cons, List.cons_append, Builder.finish]
    unfold finish
    split
    · rename_i heq
      simp at heq
    · simp

end Stack

end Container

end GraphCodec
