import GraphCodec.Proofs.FrameStack
import GraphCodec.Proofs.Nesting

/-!
# The shape of the stack

Events can be sent to a builder in any order, and it goes on after those that it refuses. What stays
true of its stack (`Stack.Sound`) is told with the events that have opened its frames (`openers`):
the root is the outermost frame and no other, frames hold what their sort demands, an array has as
many slots as it was opened with, and rows of struct arrays are whole.

An event that is refused may have closed a frame, used up a slot or put a part of an element into
its place. So a step is said to *settle* in a state, whether or not it refuses (`Settles`). The
builder settles in such states only (`Builder.settles_listener`), and what it refuses is never for
want of a frame or of the right container (`Builder.unbroken_listener`). Both are carried over to
the stack at the end (`Stack.sound_after`).
-/

namespace GraphCodec

/-! ### Trees that are stored -/

namespace StructArray

variable {α : Type} {blank v t : α} {s : StructArray α}

/-- Every value after one has been set was there, or is the one, or stands for none. -/
theorem exists_mem_of_mem_set {name : String} {index : Nat} {row : List α}
    (hrow : row ∈ (s.set blank name index v).1.rows) (ht : t ∈ row) :
    (∃ row ∈ s.rows, t ∈ row) ∨ t = v ∨ t = blank := by
  unfold set put at hrow
  -- the name may be new, and the index out of range
  split_ifs at hrow
  · split at hrow
    · obtain ⟨i, hi, rfl⟩ := Array.getElem_of_mem hrow
      rw [Array.getElem_modify] at ht
      have hi' : i < s.rows.size := by simpa using hi
      have hmem := Array.getElem_mem hi'
      split_ifs at ht
      · exact (List.mem_or_eq_of_mem_set ht).imp (fun h ↦ ⟨_, hmem, h⟩) .inl
      · exact .inl ⟨_, hmem, ht⟩
    · obtain ⟨i, hi, rfl⟩ := Array.mem_mapIdx.1 hrow
      obtain h | h := List.mem_append.1 ht
      · exact .inl ⟨_, Array.getElem_mem hi, h⟩
      · rw [List.mem_singleton] at h
        split_ifs at h
        · exact .inr (.inl h)
        · exact .inr (.inr h)
  · exact .inl ⟨row, hrow, ht⟩

end StructArray

namespace Tree

variable {field : String} {k : Kind} {v : Value} {t : Tree} {s : StructArray Tree}

theorem aligned_empty : empty.Aligned :=
  .double ..

theorem aligned_struct_ofSize (n : Nat) : (struct (StructArray.ofSize n)).Aligned := by
  refine .struct (StructArray.aligned_ofSize n) fun row hrow t ht ↦ ?_
  rw [(Array.mem_replicate.1 hrow).2] at ht
  exact absurd ht List.not_mem_nil

/-- Rows that are made with names are as long as these. -/
theorem aligned_struct_withNames (n : Nat) (names : List String) :
    (struct (StructArray.withNames empty n names)).Aligned := by
  refine .struct (StructArray.aligned_withNames empty n names) fun row hrow t ht ↦ ?_
  rw [(Array.mem_replicate.1 hrow).2] at ht
  obtain ⟨_, -, rfl⟩ := List.mem_map.1 ht
  exact aligned_empty

/-- Setting a field keeps rows whole: a new name makes all of them longer. -/
theorem Aligned.set (h : (Tree.struct s).Aligned) (ht : t.Aligned) (name : String) (index : Nat) :
    (Tree.struct (s.set empty name index t).1).Aligned := by
  cases h with
  | struct hrows hvalues =>
    refine .struct (StructArray.aligned_set hrows empty name index t) fun row hrow t' ht' ↦ ?_
    obtain ⟨row, hrow, hmem⟩ | rfl | rfl := StructArray.exists_mem_of_mem_set hrow ht'
    · exact hvalues row hrow t' hmem
    · exact ht
    · exact aligned_empty

/-- What is picked from a whole row is whole itself. -/
theorem Aligned.firstElement (h : (Tree.struct s).Aligned) : ∀ p ∈ s.firstElement, p.2.Aligned := by
  cases h with
  | struct _ hvalues =>
    intro p hp
    obtain ⟨row, hrow, hmem⟩ := List.mem_flatten.1 (List.of_mem_zip hp).2
    exact hvalues row (Array.mem_toList_iff.1 hrow) p.2 hmem

/-- Trees of text have no rows. -/
theorem aligned_textual (h : textual field k v = .ok t) : t.Aligned := by
  unfold textual at h
  split at h
  · cases h
    exact .char _
  · cases h

theorem aligned_textItem (h : textItem field k v = .ok t) : t.Aligned := by
  unfold textItem at h
  split at h
  · cases h
    exact aligned_empty
  · exact aligned_textual h

/-- The tree of a scalar has whole rows, whatever the field demands. -/
theorem aligned_ofScalar (h : ofScalar field k v = .ok t) : t.Aligned := by
  unfold ofScalar at h
  split at h
  · cases h
    exact aligned_empty
  · cases h
    exact .char _
  · split_ifs at h
    · exact aligned_textual h
    · obtain ⟨bits, -, rfl⟩ := map_eq_ok_iff.1 h
      exact .double ..

/-- So has the tree of a row of primitives. -/
theorem aligned_ofPrimitives {vs : List Value} (h : ofPrimitives field k vs = .ok t) :
    t.Aligned := by
  unfold ofPrimitives at h
  split_ifs at h
  · cases h
    exact aligned_empty
  · have hcell : ∀ k', (vs.mapM (textItem field k')).map cell = .ok t → t.Aligned := fun k' h ↦ by
      obtain ⟨items, hitems, rfl⟩ := map_eq_ok_iff.1 h
      have hmem := (mapM_eq_ok_iff_forall₂.1 hitems).flip.imp
        fun _ _ (h : textItem field k' _ = .ok _) ↦ And.intro (aligned_textItem h) h
      exact .cell ((List.forall₂_and_left _ _).1 hmem).1
    cases k with
    | string | date | enum => exact hcell _ h
    | char =>
      obtain ⟨_, -, rfl⟩ := map_eq_ok_iff.1 h
      exact .char _
    | byte =>
      obtain ⟨_, -, rfl⟩ := map_eq_ok_iff.1 h
      exact .uint8 ..
    | _ =>
      obtain ⟨_, -, rfl⟩ := map_eq_ok_iff.1 h
      exact .double ..

/-- Text is refused only for the sort of a value. -/
theorem failsOnly_textual (field : String) (k : Kind) (v : Value) :
    FailsOnly (·.ofSort = true) (textual field k v) := by
  unfold textual
  split
  · exact failsOnly_ok _
  · exact failsOnly_error rfl

theorem failsOnly_numeric (field : String) (k : Kind) (v : Value) :
    FailsOnly (·.ofSort = true) (numeric field k v) := by
  unfold numeric
  split
  case h_8 => exact failsOnly_error rfl
  all_goals exact failsOnly_ok _

/-- What is no tree of a scalar is of another sort. -/
theorem failsOnly_ofScalar (field : String) (k : Kind) (v : Value) :
    FailsOnly (·.ofSort = true) (ofScalar field k v) := by
  unfold ofScalar
  split
  · exact failsOnly_ok _
  · exact failsOnly_ok _
  · split_ifs
    · exact failsOnly_textual field k _
    · exact (failsOnly_numeric field k _).map scalar

/-- An array of primitives is refused only for the sort of one of its items, in all kinds. -/
theorem failsOnly_ofPrimitives (field : String) (k : Kind) (vs : List Value) :
    FailsOnly (·.ofSort = true) (ofPrimitives field k vs) := by
  have hitem : ∀ v, FailsOnly (·.ofSort = true) (textItem field k v) := fun v ↦ by
    unfold textItem
    split
    · exact failsOnly_ok _
    · exact failsOnly_textual field k _
  have hchar : ∀ v, FailsOnly (·.ofSort = true) (charItem field k v) := fun v ↦ by
    unfold charItem
    split
    · exact failsOnly_ok _
    · exact failsOnly_error rfl
  have hbyte : ∀ v, FailsOnly (·.ofSort = true) (byteItem field k v) := fun v ↦ by
    unfold byteItem
    split
    · exact failsOnly_ok _
    · exact failsOnly_error rfl
  unfold ofPrimitives
  split_ifs
  · exact failsOnly_ok _
  · cases k with
    | string | date | enum => exact (failsOnly_mapM hitem).map _
    | char => exact (failsOnly_mapM hchar).map _
    | byte => exact (failsOnly_mapM hbyte).map _
    | _ => exact (failsOnly_mapM (failsOnly_numeric field _)).map _

/-- The classes that trees are said to have. -/
theorem className_mem (t : Tree) :
    t.className ∈ ["struct", "cell", "double", "uint8", "char"] := by
  cases t <;> simp [className]

end Tree

namespace Container

/-! ### Events that open frames -/

/-- The events that have opened the frames that are open, innermost first, when one more event has
come. An end takes a frame off even if it is not its own. -/
def openersAfter (opened : List ValueEvent) (event : ValueEvent) : List ValueEvent :=
  match event with
  | .beginRecord (some _) declared t => if t.name = declared then event :: opened else opened
  | .beginArray .. => event :: opened
  | .endRecord (some _) | .endArray _ => opened.tail
  | _ => opened

/-- The events that have opened the frames that are open after some events. -/
def openers (events : List ValueEvent) : List ValueEvent :=
  events.foldl openersAfter []

/-- Whether a frame has the sort, the field and the slots that an event opens a frame with. -/
def StackFrame.OpenedBy (f : StackFrame) : ValueEvent → Prop
  | .beginRecord field _ _ => field = some f.field ∧ f.sort = .composite ∧ f.slots = 1
  | .beginArray field element dims length =>
    field = f.field ∧ f.sort = .ofArray element dims ∧ f.slots = length
  | _ => False

/-- What stays true of a stack whose frames, but for the root, have been opened by `opened`. -/
structure Stack.Sound (stack : Stack) (opened : List ValueEvent) : Prop where
  bottom : ∃ s : StructArray Tree, s.size = 1 ∧ stack.getLast? = some (.root s)
  one_root : ∀ f ∈ stack.dropLast, f.sort ≠ .root
  container : ∀ f ∈ stack,
    if f.sort = .texts then ∃ items, f.value = .cell items else ∃ s, f.value = .struct s
  opened_by : List.Forall₂ StackFrame.OpenedBy stack.dropLast opened
  aligned : ∀ f ∈ stack, f.value.Aligned

/-- Whether a fault says that there is no frame, or that one holds the wrong container. -/
def BreaksStack (e : Fault) : Prop :=
  e = StackFrame.noFrame ∨ ∃ f : StackFrame, e = f.wrongContainer

/-! ### Frames -/

/-- What stays true of a frame that an event has opened. -/
structure Frame.Sound (f : Frame) (event : ValueEvent) : Prop where
  opened_by : f.onStack.OpenedBy event
  aligned : f.tree.Aligned

section

variable {f : Frame} {event : ValueEvent} {v : Tree} {s : StructArray Tree}

/-- Values that are put into an element keep rows whole. -/
theorem aligned_splice (hs : (Tree.struct s).Aligned) (index : Nat) {vs : List (String × Tree)}
    (hvs : ∀ p ∈ vs, p.2.Aligned) : (Tree.struct (Builder.splice s index vs).1).Aligned := by
  induction vs generalizing s with
  | nil => exact hs
  | cons p vs ih =>
    obtain ⟨hp, hrest⟩ := List.forall_mem_cons.1 hvs
    have hset := hs.set hp p.1 index
    unfold Builder.splice
    split
    · rename_i s' heq
      rw [heq] at hset
      exact ih hset hrest
    · rename_i s' e heq
      rwa [heq] at hset

@[simp] theorem size_splice (s : StructArray Tree) (index : Nat) (vs : List (String × Tree)) :
    (Builder.splice s index vs).1.size = s.size := by
  induction vs generalizing s with
  | nil => rfl
  | cons p vs ih =>
    have hset := s.size_set Tree.empty p.1 index p.2
    unfold Builder.splice
    split
    · rename_i s' heq
      rw [heq] at hset
      exact (ih s').trans hset
    · rename_i s' e heq
      rwa [heq] at hset

/-- Storing a tree leaves a frame with its sort, its field and its slots. -/
theorem openedBy_put (h : f.onStack.OpenedBy event) (field : String) (v : Tree) :
    (Builder.put field v f).1.onStack.OpenedBy event := by
  have hframe : (Builder.put field v f).1.onStack.sort = f.onStack.sort ∧
      (Builder.put field v f).1.onStack.field = f.onStack.field ∧
      (Builder.put field v f).1.onStack.slots = f.onStack.slots := by
    cases f with
    | composite | nested =>
      simp [Builder.put, Frame.onStack, StackFrame.slots, Tree.dims]
    | composites name s index =>
      cases v <;> simp [Builder.put, Frame.onStack, StackFrame.slots, Tree.dims]
    | texts name items index =>
      by_cases hindex : index < items.size <;>
        simp [Builder.put, Frame.onStack, StackFrame.slots, Tree.dims, hindex]
  obtain ⟨hsort, hfield, hslots⟩ := hframe
  cases event with
  | beginRecord | beginArray =>
    unfold StackFrame.OpenedBy
    rw [hsort, hfield, hslots]
    exact h
  | _ => exact h

/-- Storing a tree keeps a frame sound, even if it is refused for a slot that there is not. -/
theorem Frame.Sound.put (h : f.Sound event) (hv : v.Aligned) (field : String) :
    (Builder.put field v f).1.Sound event := by
  refine ⟨openedBy_put h.opened_by field v, ?_⟩
  have haligned := h.aligned
  cases f with
  | composite name s => exact haligned.set hv field 0
  | nested name s index => exact haligned.set hv innerField index
  | composites name s index =>
    cases v with
    | struct element => exact aligned_splice haligned index hv.firstElement
    | _ => exact haligned
  | texts name items index =>
    simp only [Builder.put]
    split_ifs
    · cases haligned with
      | cell hitems =>
        refine .cell fun t ht ↦ ?_
        rw [Array.toList_setIfInBounds] at ht
        obtain ht | rfl := List.mem_or_eq_of_mem_set ht
        · exact hitems t ht
        · exact hv
    · exact haligned

/-- The frame of a record is sound when its begin has opened it. -/
theorem sound_composite (field declared : String) (t : TypeDef) :
    (Frame.composite field (StructArray.withNames Tree.empty 1 t.fieldNames)).Sound
      (.beginRecord (some field) declared t) :=
  ⟨⟨rfl, rfl, StructArray.size_withNames ..⟩, Tree.aligned_struct_withNames 1 t.fieldNames⟩

/-- So is the frame of an array, which has as many slots as items were announced. -/
theorem sound_arrayFrame (field : String) (element : ElementType) (dims length : Nat) :
    (Builder.arrayFrame field element dims length).Sound
      (.beginArray field element dims length) := by
  have hshape : (Stack.blankArray element dims length).dims.2 = length ∧
      (Stack.blankArray element dims length).Aligned := by
    unfold Stack.blankArray
    split
    · refine ⟨List.length_replicate, .cell fun t ht ↦ ?_⟩
      rw [List.eq_of_mem_replicate ht]
      exact Tree.aligned_empty
    all_goals exact ⟨StructArray.size_withNames .., Tree.aligned_struct_withNames ..⟩
  refine ⟨?_, ?_⟩
  · rw [onStack_arrayFrame]
    exact ⟨rfl, rfl, hshape.1⟩
  · rw [← Frame.value_onStack, onStack_arrayFrame]
    exact hshape.2

end

/-! ### Steps -/

/-- Whether a step ends in a state with `P`, whether or not it refuses. -/
def Settles {σ α : Type} (P : σ → Prop) : EStateM.Result Fault σ α → Prop
  | .ok _ s => P s
  | .error _ s => P s

/-- A step after another settles if both do; if the first refuses, it has settled already. -/
theorem Settles.bind {σ α β : Type} {P : σ → Prop} {x : EStateM Fault σ α}
    {f : α → EStateM Fault σ β} {s : σ} (h : Settles P (x s))
    (hf : ∀ a s', x s = .ok a s' → P s' → Settles P (f a s')) : Settles P ((x >>= f) s) := by
  show Settles P (EStateM.bind x f s)
  unfold EStateM.bind
  cases hx : x s with
  | ok a s' =>
    rw [hx] at h
    exact hf a s' hx h
  | error e s' =>
    rw [hx] at h
    exact h

namespace Builder

/-- What stays true of a builder whose frames have been opened by `opened`. -/
structure Sound (b : Builder) (opened : List ValueEvent) : Prop where
  size_root : b.root.size = 1
  aligned_root : (Tree.struct b.root).Aligned
  frames : List.Forall₂ Frame.Sound b.frames opened

variable {b b' : Builder} {opened : List ValueEvent} {event : ValueEvent} {f : Frame}
  {field : String} {isArray : Bool} {v : Tree}

/-- Nothing has been opened at the start. -/
theorem sound_start : start.Sound [] :=
  ⟨StructArray.size_ofSize 1, Tree.aligned_struct_ofSize 1, .nil⟩

theorem Sound.aligned (h : b.Sound opened) : ∀ f ∈ b.frames, f.tree.Aligned := by
  have hframes : List.Forall₂ (fun f event ↦ f.tree.Aligned ∧ Frame.Sound f event) b.frames
      opened :=
    h.frames.imp fun _ _ hf ↦ ⟨hf.aligned, hf⟩
  exact ((List.forall₂_and_left _ _).1 hframes).1

/-- A sound frame may be opened. -/
theorem Sound.openFrame (h : b.Sound opened) (hf : f.Sound event) :
    Settles (·.Sound (event :: opened)) (openFrame f b) :=
  ⟨h.size_root, h.aligned_root, .cons hf h.frames⟩

/-- A frame is taken off even where the end is refused. -/
theorem Sound.closeFrame (h : b.Sound opened) (field : String) (isArray : Bool) :
    Settles (·.Sound opened.tail) (closeFrame field isArray b) := by
  obtain ⟨root, frames⟩ := b
  obtain ⟨hsize, haligned, hframes⟩ := h
  cases hframes with
  | nil => exact ⟨hsize, haligned, .nil⟩
  | cons _ hrest =>
    simp only [Builder.closeFrame]
    split_ifs <;> exact ⟨hsize, haligned, hrest⟩

/-- What is closed was open. -/
theorem mem_of_closeFrame (h : closeFrame field isArray b = .ok f b') : f ∈ b.frames := by
  unfold closeFrame at h
  split at h
  · cases h
  · rename_i f' fs hframes
    split_ifs at h
    cases h
    exact hframes ▸ List.mem_cons_self

/-- Storing a tree settles in a sound state, whether it is stored as a whole, in part or not. -/
theorem Sound.attach (h : b.Sound opened) (hv : v.Aligned) (field : String) :
    Settles (·.Sound opened) (attach field v b) := by
  obtain ⟨root, frames⟩ := b
  obtain ⟨hsize, haligned, hframes⟩ := h
  cases hframes with
  | nil =>
    have hsize' := (root.size_set Tree.empty field 0 v).trans hsize
    have haligned' := haligned.set hv field 0
    simp only [Builder.attach]
    rcases hset : root.set Tree.empty field 0 v with ⟨s, ⟨⟩ | ⟨⟩⟩ <;>
      (rw [hset] at hsize' haligned'; exact ⟨hsize', haligned', .nil⟩)
  | @cons f _ fs _ hf hrest =>
    have hf' := hf.put hv field
    simp only [Builder.attach]
    rcases hput : put field v f with ⟨f', ⟨⟩ | ⟨⟩⟩ <;>
      (rw [hput] at hf'; exact ⟨hsize, haligned, .cons hf' hrest⟩)

/-- A tree that does not exist is refused, and nothing has moved then. -/
theorem Sound.attachOrFail {out : Except Fault Tree} (h : b.Sound opened)
    (hout : ∀ v, out = .ok v → v.Aligned) (field : String) :
    Settles (·.Sound opened) (attachOrFail field out b) := by
  cases out with
  | ok v => exact h.attach (hout v rfl) field
  | error e => exact h

/-- A slot may be skipped. -/
theorem Sound.attachEmpty (h : b.Sound opened) (field : String) :
    Settles (·.Sound opened) (attachEmpty field b) := by
  unfold Builder.attachEmpty
  split
  · rename_i name s index fs hframes
    obtain ⟨hsize, haligned, hsound⟩ := h
    rw [hframes] at hsound
    cases hsound with
    | cons hf hrest => exact ⟨hsize, haligned, .cons ⟨hf.opened_by, hf.aligned⟩ hrest⟩
  · exact h.attach Tree.aligned_empty field

/-- **One event**, accepted or refused, leaves the builder sound. -/
theorem settles_listener (h : b.Sound opened) (event : ValueEvent) :
    Settles (·.Sound (openersAfter opened event)) (listener event b) := by
  cases event with
  | beginRecord field declared t =>
    cases field with
    | none =>
      show Settles _ (if t.name ≠ declared then _ else _)
      -- the root is not opened by its begin, and nothing closes it
      split_ifs <;> exact h
    | some field =>
      by_cases hname : t.name = declared
      · simp only [listener, openersAfter, hname, ne_eq, not_true_eq_false, if_false, if_true]
        exact h.openFrame (sound_composite field declared t)
      · simp only [listener, openersAfter, hname, ne_eq, not_false_eq_true, if_false, if_true]
        exact h
  | endRecord field =>
    cases field with
    | none => exact h
    | some field =>
      -- the frame may be lost; what is then stored was whole
      refine (h.closeFrame field false).bind fun f b' hclose hb' ↦ ?_
      exact hb'.attach (h.aligned f (mem_of_closeFrame hclose)) field
  | beginArray field element dims length =>
    exact h.openFrame (sound_arrayFrame field element dims length)
  | endArray field =>
    refine (h.closeFrame field true).bind fun f b' hclose hb' ↦ hb'.attach ?_ field
    unfold finishedArray
    split_ifs
    · exact Tree.aligned_empty
    · exact h.aligned f (mem_of_closeFrame hclose)
  | primitive field k v => exact h.attachOrFail (fun _ ↦ Tree.aligned_ofScalar) field
  | primitives field k vs => exact h.attachOrFail (fun _ ↦ Tree.aligned_ofPrimitives) field
  | emptyComposite field t => exact h.attachEmpty field

/-- **One event**, refused or not, leaves the stack sound for what is open then. -/
theorem Sound.answer (h : b.Sound opened) (event : ValueEvent) :
    (listener.answer event b).2.Sound (openersAfter opened event) := by
  have hsettles := settles_listener h event
  unfold Listener.answer
  split <;> rename_i heq <;> (rw [heq] at hsettles; exact hsettles)

/-- **Any events** leave the builder sound. -/
theorem Sound.after (h : b.Sound opened) (events : List ValueEvent) :
    (listener.after b events).Sound (events.foldl openersAfter opened) := by
  induction events generalizing b opened with
  | nil => exact h
  | cons event events ih => exact ih (h.answer event)

end Builder

/-- **The container of a record** has whole rows, whatever its types are. -/
theorem aligned_of_ofRecord {s : Schema} {r : Record} {T : Tree} (h : ofRecord s r = .ok T) :
    T.Aligned := by
  obtain ⟨⟨u, b⟩, hrun, hfinish⟩ := bind_eq_ok_iff.1 h
  have hsound := Builder.sound_start.after (s.walkRoot r).events
  rw [Listener.after_of_outcomeFrom hrun] at hsound
  have hfinish : b.finish = .ok T := hfinish
  unfold Builder.finish at hfinish
  split at hfinish
  · cases hfinish
    exact hsound.aligned_root
  · cases hfinish

/-! ### Refusals -/

section

variable {field found : String} {e : Fault}

/-- That frames are left over is another fault than that there is none. -/
theorem not_breaksStack_unbalanced (expected found : Nat) :
    ¬BreaksStack (.unbalanced expected (found + 1)) := by
  rintro (h | ⟨f, h⟩)
  · cases h
  · cases h

theorem not_breaksStack_of_ofSort (h : e.ofSort = true) : ¬BreaksStack e := by
  rintro (rfl | ⟨f, rfl⟩)
  · cases h
  · cases h

theorem not_breaksStack_frameMismatch (h : ∀ t : Tree, found ≠ t.className) :
    ¬BreaksStack (.frameMismatch field found) := by
  rintro (heq | ⟨f, heq⟩)
  · cases heq
  · exact h f.value (Fault.frameMismatch.inj heq).2

/-- The root is no class of trees, so its name in a message says which fault it is. -/
theorem root_ne_className (t : Tree) : "root" ≠ t.className := by
  intro h
  have hmem := Tree.className_mem t
  rw [← h] at hmem
  exact absurd hmem (by decide)

/-- Descriptions of frames are longer than the names of classes, so the two kinds of mismatch
differ. -/
theorem FrameSort.le_length_name {sort : FrameSort} (h : sort ≠ .root) : 9 ≤ sort.name.length := by
  cases sort with
  | root => exact absurd rfl h
  | _ => decide

/-- A frame is named with its field, and that is longer than the name of any class. -/
theorem describe_ne_className (f : Frame) (t : Tree) : f.describe ≠ t.className := by
  intro h
  have hclass : ∀ name ∈ ["struct", "cell", "double", "uint8", "char"], name.length ≤ 6 := by
    decide
  have hshort := hclass _ (Tree.className_mem t)
  have hlong : 9 ≤ (toString f.onStack.sort.name).length :=
    FrameSort.le_length_name f.sort_onStack_ne
  rw [← h, ← f.describe_onStack, StackFrame.describe] at hshort
  simp only [String.length_append] at hshort
  omega

theorem failsOnly_set (s : StructArray Tree) (name : String) (index : Nat) (v : Tree) :
    FailsOnly (¬BreaksStack ·) (s.set Tree.empty name index v).2 := by
  unfold StructArray.set
  split_ifs
  · exact failsOnly_ok _
  · exact failsOnly_error (not_breaksStack_unbalanced _ _)

theorem failsOnly_splice (s : StructArray Tree) (index : Nat) (vs : List (String × Tree)) :
    FailsOnly (¬BreaksStack ·) (Builder.splice s index vs).2 := by
  induction vs generalizing s with
  | nil => exact failsOnly_ok _
  | cons p vs ih =>
    have hset := failsOnly_set s p.1 index p.2
    unfold Builder.splice
    split
    · exact ih _
    · rename_i s' e heq
      rwa [heq] at hset

/-- Storing in a frame of the builder does not meet a wrong container; its types exclude it. -/
theorem failsOnly_put (field : String) (v : Tree) (f : Frame) :
    FailsOnly (¬BreaksStack ·) (Builder.put field v f).2 := by
  cases f with
  | composite name s => exact failsOnly_set s field 0 v
  | nested name s index => exact failsOnly_set s innerField index v
  | composites name s index =>
    cases v with
    | struct element => exact failsOnly_splice s index _
    | _ => exact failsOnly_error (not_breaksStack_of_ofSort rfl)
  | texts name items index =>
    simp only [Builder.put]
    split_ifs
    · exact failsOnly_ok _
    · exact failsOnly_error (not_breaksStack_unbalanced _ _)

end

namespace Builder

/-- Whether a step, if it refuses, does so neither for want of a frame nor of the right
container. -/
abbrev Unbroken {α : Type} (r : EStateM.Result Fault Builder α) : Prop :=
  EndsIn (fun _ ↦ True) (¬BreaksStack ·) r

/-- A frame that is not the one to be closed is described, and described differently from a
container. -/
theorem unbroken_closeFrame (field : String) (isArray : Bool) (b : Builder) :
    Unbroken (closeFrame field isArray b) := by
  unfold closeFrame
  split
  · exact not_breaksStack_frameMismatch root_ne_className
  · rename_i f fs _
    split_ifs
    · trivial
    · exact not_breaksStack_frameMismatch (describe_ne_className f)

/-- The root is always there to take a tree. -/
theorem unbroken_attach (field : String) (v : Tree) (b : Builder) :
    Unbroken (attach field v b) := by
  unfold attach
  split
  · have hset := failsOnly_set b.root field 0 v
    rcases heq : b.root.set Tree.empty field 0 v with ⟨s, e | _⟩
    · exact hset e (congrArg Prod.snd heq)
    · trivial
  · rename_i f fs _
    have hput := failsOnly_put field v f
    rcases heq : put field v f with ⟨f', e | _⟩
    · exact hput e (congrArg Prod.snd heq)
    · trivial

theorem unbroken_attachOrFail (field : String) {out : Except Fault Tree}
    (hout : FailsOnly (·.ofSort = true) out) (b : Builder) :
    Unbroken (attachOrFail field out b) := by
  cases out with
  | ok v => exact unbroken_attach field v b
  | error e => exact not_breaksStack_of_ofSort (hout e rfl)

/-- **No event** is refused for want of a frame or of the right container. -/
theorem unbroken_listener (event : ValueEvent) (b : Builder) : Unbroken (listener event b) := by
  cases event with
  | beginRecord field declared t =>
    show Unbroken (if t.name ≠ declared then _ else _)
    split_ifs
    · rintro (h | ⟨f, h⟩) <;> cases h
    · cases field <;> trivial
  | endRecord field =>
    cases field with
    | none => trivial
    | some field =>
      exact (unbroken_closeFrame field false b).bind fun f b' _ _ ↦ unbroken_attach field _ b'
  | beginArray => trivial
  | endArray field =>
    exact (unbroken_closeFrame field true b).bind fun f b' _ _ ↦ unbroken_attach field _ b'
  | primitive field k v => exact unbroken_attachOrFail field (Tree.failsOnly_ofScalar field k v) b
  | primitives field k vs =>
    exact unbroken_attachOrFail field (Tree.failsOnly_ofPrimitives field k vs) b
  | emptyComposite field t =>
    show Unbroken (attachEmpty field b)
    unfold attachEmpty
    split
    · trivial
    · exact unbroken_attach field Tree.empty b

/-- No answer to any events breaks the stack, by induction on the events. -/
theorem not_breaksStack_of_mem_answers {b : Builder} {events : List ValueEvent} {e : Fault}
    (h : .error e ∈ listener.answers b events) : ¬BreaksStack e := by
  induction events generalizing b with
  | nil => cases h
  | cons event events ih =>
    rw [Listener.answers, List.mem_cons] at h
    obtain h | h := h
    · have hlistener := unbroken_listener event b
      unfold Listener.answer at h
      split at h
      · cases h
      · rename_i e' b' heq
        rw [heq] at hlistener
        cases h
        exact hlistener
    · exact ih h

/-- The stack of a sound builder. -/
theorem Sound.stack {b : Builder} {opened : List ValueEvent} (h : b.Sound opened) :
    b.stack.Sound opened := by
  have hdrop : b.stack.dropLast = b.frames.map Frame.onStack := List.dropLast_concat
  have hmem (P : StackFrame → Prop) :
      (∀ f ∈ b.stack, P f) ↔ (∀ f ∈ b.frames, P f.onStack) ∧ P (.root b.root) := by
    rw [Builder.stack, List.forall_mem_append, List.forall_mem_map, List.forall_mem_singleton]
  refine ⟨⟨b.root, h.size_root, List.getLast?_concat⟩, ?_, ?_, ?_, ?_⟩
  · rw [hdrop, List.forall_mem_map]
    exact fun f _ ↦ f.sort_onStack_ne
  · refine (hmem _).2 ⟨fun f _ ↦ ?_, ⟨b.root, rfl⟩⟩
    cases f <;> exact ⟨_, rfl⟩
  · rw [hdrop, List.forall₂_map_left_iff]
    exact h.frames.imp fun _ _ hf ↦ hf.opened_by
  · refine (hmem _).2 ⟨fun f hf ↦ ?_, h.aligned_root⟩
    rw [f.value_onStack]
    exact h.aligned f hf

end Builder

/-- **A stack stays sound** under any events, also after events that it refuses, and it is the stack
of the builder all the time. No event is refused for want of a frame or of the right container; in
the end there is a struct with one element if no frame is open, and otherwise at least one frame
besides the root. -/
theorem Stack.sound_after (events : List ValueEvent) :
    let stack := listener.after start events
    let answers := listener.answers start events
    let b := Builder.listener.after Builder.start events
    stack.Sound (openers events) ∧
      (∀ e, .error e ∈ answers → ¬BreaksStack e) ∧
      (openers events = [] ∧ (∃ s : StructArray Tree, s.size = 1 ∧ stack.finish = .ok (.struct s)) ∨
        2 ≤ (openers events).length + 1 ∧
          stack.finish = .error (.unbalanced 1 ((openers events).length + 1))) ∧
      stack = b.stack ∧ answers = Builder.listener.answers Builder.start events ∧
      stack.finish = b.finish := by
  have hsound := Builder.sound_start.after events
  obtain ⟨hafter, hanswers⟩ := after_listener events Builder.start
  intro stack answers b
  have hstack : stack = b.stack := hafter
  have hanswers : answers = Builder.listener.answers Builder.start events := hanswers
  have hfinish : stack.finish = b.finish := by rw [hstack, finish_stack]
  refine ⟨by rw [hstack]; exact hsound.stack, fun e he ↦ ?_, ?_, hstack, hanswers, hfinish⟩
  · rw [hanswers] at he
    exact Builder.not_breaksStack_of_mem_answers he
  · have hframes : List.Forall₂ Frame.Sound b.frames (openers events) := hsound.frames
    rw [hfinish, Builder.finish, ← hframes.length_eq]
    cases hopen : b.frames with
    | nil =>
      rw [hopen] at hframes
      exact .inl ⟨List.forall₂_nil_left_iff.1 hframes, b.root, hsound.size_root, rfl⟩
    | cons f fs => exact .inr ⟨by simp, rfl⟩

/-- A text for which there is no slot, and an end that is not the one of the array. -/
example : Stack.listener.answers Stack.start
    [.beginArray "t" (.primitive .string) 1 0, .primitive "t" .string (.string "x"),
      .endRecord (some "t"), .endArray "t"] =
    [.ok (), .error (.unbalanced 0 1), .error (.frameMismatch "t" "TextArray 't'"),
      .error (.frameMismatch "t" "root")] := by
  cbv

end Container

end GraphCodec
