import GraphCodec.Image.Writer
import GraphCodec.Proofs.Drafting
import GraphCodec.Proofs.Scalar

/-!
# What the writer makes of a walk

The writer listens to a walk over a value. `Writes d t P bs` says exactly what comes out: if `P`
holds, the bytes `bs` are appended and the frames that were open are open again, and otherwise the
writer or the walk fails. The relation composes along walks in sequence, and an opened record or
array is closed around whatever `Writes` between them.

The walk over a value in a slot then writes the stored form of the slot if the value conforms and
its lengths can be stored (`writes_walkValue`).
-/

namespace GraphCodec

namespace Image

/-- A writer with more bytes. -/
def Writer.write (w : Writer) (bs : List UInt8) : Writer :=
  { w with sink := w.sink.write bs }

theorem Writer.write_nil (w : Writer) : w.write [] = w := by
  simp [write, Sink.write]

/-- Bytes are written one after the other. -/
theorem Writer.write_append (w : Writer) (as bs : List UInt8) :
    w.write (as ++ bs) = (w.write as).write bs := by
  have hbuffer : w.sink.buffer ++ (as ++ bs) = w.sink.buffer ++ as ++ bs :=
    Array.toList_inj.1 (by simp)
  rw [write, Sink.write, hbuffer]
  rfl

@[simp] theorem Writer.bytes_write (w : Writer) (bs : List UInt8) :
    (w.write bs).bytes = w.bytes ++ bs :=
  Sink.bytes_write w.sink bs

@[simp] theorem Writer.bytes_empty : Writer.empty.bytes = [] := rfl

/-- An append succeeds with bytes and writes these. -/
theorem Writer.append_eq_ok_iff {out : Except Fault (List UInt8)} {w w' : Writer} {u : Unit} :
    append out w = .ok u w' ↔ ∃ bs, out = .ok bs ∧ w' = w.write bs := by
  unfold append
  cases out with
  | error e => simp
  | ok bs => simp [write, eq_comm]

/-- The walk makes the writer append exactly `bs` if `P` holds, and fail otherwise. -/
def Writes (d : Dictionary) (t : Trace ValueEvent Unit) (P : Prop) (bs : List UInt8) : Prop :=
  ∀ w w', Trace.run (Writer.listener d) t w = .ok () w' ↔ P ∧ w' = w.write bs

variable {d : Dictionary} {t u : Trace ValueEvent Unit} {P Q : Prop} {as bs : List UInt8}

/-- Only what the condition says is of interest. -/
theorem Writes.congr (h : Writes d t P bs) (hiff : P ↔ Q) : Writes d t Q bs := by
  intro w w'
  rw [h w w', hiff]

theorem writes_pure : Writes d (pure ()) True [] := by
  intro w w'
  rw [Writer.write_nil, true_and, Trace.run_pure]
  exact ⟨fun h ↦ (by cases h; rfl), fun h ↦ (by rw [h]; rfl)⟩

/-- A walk that fails writes nothing, so its condition must not hold. -/
theorem writes_fail (e : Fault) (h : ¬P) : Writes d (Trace.fail e) P bs := by
  intro w w'
  rw [Trace.run_fail]
  exact ⟨fun hfail ↦ (by cases hfail), fun hP ↦ absurd hP.1 h⟩

/-- **One walk after the other** writes what both write, on both conditions. -/
theorem Writes.bind (ht : Writes d t P as) (hu : Writes d u Q bs) :
    Writes d (t >>= fun _ ↦ u) (P ∧ Q) (as ++ bs) := by
  intro w w'
  rw [Trace.run_bind_eq_ok_iff, Writer.write_append]
  constructor
  · rintro ⟨_, w₁, h, h'⟩
    obtain ⟨hP, rfl⟩ := (ht w w₁).1 h
    obtain ⟨hQ, rfl⟩ := (hu _ w').1 h'
    exact ⟨⟨hP, hQ⟩, rfl⟩
  · rintro ⟨⟨hP, hQ⟩, rfl⟩
    exact ⟨(), _, (ht w _).2 ⟨hP, rfl⟩, (hu _ _).2 ⟨hQ, rfl⟩⟩

/-- **Walks in order** write one after the other. -/
theorem writes_sequence {α : Type} {walk : α → Trace ValueEvent Unit} {P : α → Prop}
    {form : α → List UInt8} {xs : List α} (h : ∀ x ∈ xs, Writes d (walk x) (P x) (form x)) :
    Writes d (Trace.sequence (xs.map walk)) (∀ x ∈ xs, P x) (xs.flatMap form) := by
  induction xs with
  | nil => exact writes_pure.congr (by simp)
  | cons x xs ih =>
    rw [List.map_cons, Trace.sequence_cons, List.flatMap_cons]
    have hxs := ih fun y hy ↦ h y (List.mem_cons_of_mem x hy)
    exact ((h x List.mem_cons_self).bind hxs).congr List.forall_mem_cons.symm

/-! ### Events -/

/-- **A scalar** is written in its form if it is of its kind and its length fits. -/
theorem writes_primitive (field : String) (k : Kind) (v : Value) :
    Writes d (Trace.emit (.primitive field k v))
      (v.matchesKind k = true ∧ Slot.Storable (.primitive k true) v) (scalarForm k v) := by
  intro w w'
  rw [Trace.run_emit]
  simp only [Writer.listener, Writer.append_eq_ok_iff, primitiveBytes_eq_ok_iff]
  constructor
  · rintro ⟨bs, ⟨hkind, hstorable, rfl⟩, rfl⟩
    exact ⟨⟨hkind, hstorable⟩, rfl⟩
  · rintro ⟨⟨hkind, hstorable⟩, rfl⟩
    exact ⟨_, ⟨hkind, hstorable, rfl⟩, rfl⟩

theorem appendPrimitives_cons (field : String) (k : Kind) (v : Value) (vs : List Value) :
    Writer.appendPrimitives field k (v :: vs) =
      Writer.append (primitiveBytes field k v) >>= fun _ ↦ Writer.appendPrimitives field k vs := by
  funext w
  show _ = EStateM.bind _ _ w
  simp only [Writer.appendPrimitives, EStateM.bind]
  cases Writer.append (primitiveBytes field k v) w <;> rfl

/-- Items are written if each of them can be. -/
theorem appendPrimitives_eq_ok_iff {field : String} {k : Kind} {vs : List Value} {w w' : Writer} :
    Writer.appendPrimitives field k vs w = .ok () w' ↔
      (∀ v ∈ vs, v.matchesKind k = true ∧ Slot.Storable (.primitive k true) v) ∧
        w' = w.write (vs.flatMap (scalarForm k)) := by
  induction vs generalizing w with
  | nil =>
    rw [Writer.appendPrimitives, List.flatMap_nil, Writer.write_nil]
    exact ⟨fun h ↦ (by cases h; simp), fun h ↦ (by rw [h.2])⟩
  | cons v vs ih =>
    rw [appendPrimitives_cons, Listener.bind_eq_ok_iff, List.flatMap_cons, Writer.write_append,
      List.forall_mem_cons]
    simp only [Writer.append_eq_ok_iff, primitiveBytes_eq_ok_iff]
    constructor
    · rintro ⟨_, _, ⟨_, ⟨hkind, hstorable, rfl⟩, rfl⟩, hrest⟩
      obtain ⟨hvs, rfl⟩ := ih.1 hrest
      exact ⟨⟨⟨hkind, hstorable⟩, hvs⟩, rfl⟩
    · rintro ⟨⟨⟨hkind, hstorable⟩, hvs⟩, rfl⟩
      exact ⟨(), _, ⟨_, ⟨hkind, hstorable, rfl⟩, rfl⟩, ih.2 ⟨hvs, rfl⟩⟩

/-- **An array of primitives** is written as its count and its items. -/
theorem writes_primitives (field : String) (k : Kind) (vs : List Value) :
    Writes d (Trace.emit (.primitives field k vs))
      (vs.length ≤ maxLength ∧
        ∀ v ∈ vs, v.matchesKind k = true ∧ Slot.Storable (.primitive k true) v)
      (lengthWord vs.length ++ vs.flatMap (scalarForm k)) := by
  intro w w'
  rw [Trace.run_emit, Writer.write_append]
  simp only [Writer.listener, Listener.bind_eq_ok_iff, Writer.append_eq_ok_iff,
    lengthBytes_eq_ok_iff, appendPrimitives_eq_ok_iff]
  constructor
  · rintro ⟨_, _, ⟨_, ⟨hle, rfl⟩, rfl⟩, hvs, rfl⟩
    exact ⟨⟨hle, hvs⟩, rfl⟩
  · rintro ⟨⟨hle, hvs⟩, rfl⟩
    exact ⟨(), _, ⟨_, ⟨hle, rfl⟩, rfl⟩, hvs, rfl⟩

/-- What is opened in front of a walk and closed behind it has no bytes of its own. -/
theorem run_closing {event : ValueEvent} {frame : Frame}
    (hevent : Writer.listener d event = Writer.closeFrame frame) (ht : Writes d t P bs)
    {w w' : Writer} :
    Trace.run (Writer.listener d) (t >>= fun _ ↦ Trace.emit event)
        { w with frames := frame :: w.frames } = .ok () w' ↔ P ∧ w' = w.write bs := by
  rw [Trace.run_bind_eq_ok_iff]
  simp only [Trace.run_emit, hevent]
  constructor
  · rintro ⟨_, w₁, h, hclose⟩
    obtain ⟨hP, rfl⟩ := (ht _ w₁).1 h
    rw [Writer.closeFrame] at hclose
    simp only [Writer.write, if_true] at hclose
    cases hclose
    exact ⟨hP, rfl⟩
  · rintro ⟨hP, rfl⟩
    refine ⟨(), _, (ht _ _).2 ⟨hP, rfl⟩, ?_⟩
    rw [Writer.closeFrame]
    simp only [Writer.write, if_true]

/-- A record is begun if its type is in the dictionary and is the declared one. -/
theorem checkType_eq_ok_iff (field : Option String) {declared : String} {type : TypeDef} :
    Writer.checkType d field declared type = .ok () ↔
      (d.tagFor? type.name).isSome = true ∧ type.name = declared := by
  unfold Writer.checkType
  cases d.tagFor? type.name with
  | none => simp
  | some tag =>
    by_cases hname : type.name = declared
    · simp [hname]
    · simp [hname]

/-- **A record** is written if its type is in the dictionary and the declared one. -/
theorem Writes.record (ht : Writes d t P bs) (field : Option String) (declared : String)
    (type : TypeDef) :
    Writes d (do
        Trace.emit (.beginRecord field declared type)
        t
        Trace.emit (.endRecord field))
      (((d.tagFor? type.name).isSome = true ∧ type.name = declared) ∧ P) bs := by
  intro w w'
  rw [Trace.run_bind_eq_ok_iff]
  simp only [Trace.run_emit]
  have hbegin : ∀ {w₁ u}, Writer.listener d (.beginRecord field declared type) w = .ok u w₁ ↔
      ((d.tagFor? type.name).isSome = true ∧ type.name = declared) ∧
        w₁ = { w with frames := .record field :: w.frames } := by
    intro w₁ u
    rw [← checkType_eq_ok_iff field]
    simp only [Writer.listener, Writer.openFrame]
    cases Writer.checkType d field declared type with
    | error e => exact ⟨fun h ↦ (by cases h), fun h ↦ (by cases h.1)⟩
    | ok _ => exact ⟨fun h ↦ (by cases h; exact ⟨rfl, rfl⟩), fun h ↦ (by rw [h.2])⟩
  constructor
  · rintro ⟨_, w₁, hopen, hrest⟩
    obtain ⟨htype, rfl⟩ := hbegin.1 hopen
    obtain ⟨hP, rfl⟩ := (run_closing rfl ht).1 hrest
    exact ⟨⟨htype, hP⟩, rfl⟩
  · rintro ⟨⟨htype, hP⟩, rfl⟩
    exact ⟨(), _, hbegin.2 ⟨htype, rfl⟩, (run_closing rfl ht).2 ⟨hP, rfl⟩⟩

/-- **A dimension of an array** begins with its length. -/
theorem Writes.array (ht : Writes d t P bs) (field : String) (element : ElementType)
    (dims length : Nat) :
    Writes d (do
        Trace.emit (.beginArray field element dims length)
        t
        Trace.emit (.endArray field))
      (length ≤ maxLength ∧ P) (lengthWord length ++ bs) := by
  intro w w'
  rw [Trace.run_bind_eq_ok_iff, Writer.write_append]
  simp only [Trace.run_emit, Writer.listener, Listener.bind_eq_ok_iff, Writer.append_eq_ok_iff,
    lengthBytes_eq_ok_iff]
  constructor
  · rintro ⟨_, _, ⟨_, _, ⟨_, ⟨hle, rfl⟩, rfl⟩, hopen⟩, hrest⟩
    cases hopen
    obtain ⟨hP, rfl⟩ := (run_closing rfl ht).1 hrest
    exact ⟨⟨hle, hP⟩, rfl⟩
  · rintro ⟨⟨hle, hP⟩, rfl⟩
    exact ⟨(), _, ⟨(), _, ⟨_, ⟨hle, rfl⟩, rfl⟩, rfl⟩, (run_closing rfl ht).2 ⟨hP, rfl⟩⟩

end Image

/-! ### The walk over a value -/

namespace Schema

/-- Whether a value can be written in a slot. -/
def Accepts (s : Schema) (slot : Slot) (v : Value) : Prop :=
  s.Conforms slot v ∧ s.Storable slot v

section

variable {s : Schema}

/-- A primitive is accepted if it fits and can be stored. -/
theorem accepts_primitive_iff {k : Kind} {inRecord : Bool} {v : Value} :
    s.Accepts (.primitive k inRecord) v ↔
      Slot.Fits (.primitive k inRecord) v ∧ Slot.Storable (.primitive k inRecord) v := by
  rw [Accepts, Conforms, Storable, everySlot_primitive_iff, everySlot_primitive_iff]

/-- A record is accepted if it is of the declared type and its fields are accepted. -/
theorem accepts_record_iff {t : TypeDef} {typeName : String} {fields : List (String × Value)} :
    s.Accepts (.record t) (.record typeName fields) ↔ typeName = t.name ∧
      ∀ f ∈ t.fields, ∀ inner, s.slot? f = some inner →
        s.Accepts inner (Value.fieldOf fields f.name) := by
  rw [Accepts, conforms_record_iff, storable_record_iff]
  constructor
  · rintro ⟨⟨hname, hfits⟩, hstorable⟩
    exact ⟨hname, fun f hf inner h ↦ ⟨hfits f hf inner h, hstorable f hf inner h⟩⟩
  · rintro ⟨hname, h⟩
    exact ⟨⟨hname, fun f hf inner hf' ↦ (h f hf inner hf').1⟩,
      fun f hf inner hf' ↦ (h f hf inner hf').2⟩

/-- An array is accepted if its count fits and its items are accepted. -/
theorem accepts_array_iff {item : Slot} {items : List Value} :
    s.Accepts (.array item) (.array items) ↔
      items.length ≤ maxLength ∧ ∀ v ∈ items, s.Accepts item v := by
  rw [Accepts, conforms_array_iff, storable_array_iff]
  constructor
  · rintro ⟨hfits, hlen, hstorable⟩
    exact ⟨hlen, fun v hv ↦ ⟨hfits v hv, hstorable v hv⟩⟩
  · rintro ⟨hlen, h⟩
    exact ⟨fun v hv ↦ (h v hv).1, hlen, fun v hv ↦ (h v hv).2⟩

theorem accepts_absent (item : Slot) : s.Accepts (.array item) .null :=
  ⟨everySlot_absent_iff.2 trivial, everySlot_absent_iff.2 trivial⟩

/-- What is accepted fits. -/
theorem Accepts.fits {slot : Slot} {v : Value} (h : s.Accepts slot v) : slot.Fits v :=
  h.1.here

/-- Items of a primitive kind other than text are of the kind, and text may be absent. -/
theorem accepts_item_iff {k : Kind} {v : Value} :
    s.Accepts (.primitive k false) v ↔ isItemOf k v = true ∧
      v.matchesKind k = true ∧ Slot.Storable (.primitive k true) v := by
  rw [accepts_primitive_iff, ← isItemOf_iff]
  constructor
  · rintro ⟨hitem, hstorable⟩
    exact ⟨hitem, (Slot.fits_primitive_iff.1 (isItemOf_iff.1 hitem)).1, hstorable⟩
  · rintro ⟨hitem, -, hstorable⟩
    exact ⟨hitem, hstorable⟩

end

end Schema

namespace Image

section

variable {s : Schema} {d : Dictionary}

/-- A dimension of primitives is told as one event. -/
theorem writes_walkPrimitives (f : FieldDef) (k : Kind) (items : List Value) :
    Writes d (Schema.walkPrimitives f k items)
      (s.Accepts (.array (.primitive k false)) (.array items))
      (s.stored (.array (.primitive k false)) (.array items)) := by
  have hform : s.stored (.array (.primitive k false)) (.array items) =
      lengthWord items.length ++ items.flatMap (scalarForm k) := by
    rw [Schema.stored_array]
    exact congrArg _ (List.flatMap_congr fun v _ ↦ Schema.stored_primitive s k false v)
  unfold Schema.walkPrimitives
  cases hfind : items.find? fun v ↦ !Schema.isItemOf k v with
  | some v =>
    have hmisfit : ¬Schema.isItemOf k v = true := by simpa using List.find?_some hfind
    refine writes_fail _ fun h ↦ hmisfit ?_
    have hv := (Schema.accepts_array_iff.1 h).2 v (List.mem_of_find?_eq_some hfind)
    exact (Schema.accepts_item_iff.1 hv).1
  | none =>
    have hall : ∀ v ∈ items, Schema.isItemOf k v = true := by simpa using hfind
    rw [hform]
    refine (writes_primitives f.name k items).congr ?_
    rw [Schema.accepts_array_iff]
    refine and_congr Iff.rfl (forall₂_congr fun v hv ↦ ?_)
    rw [Schema.accepts_item_iff, and_iff_right (hall v hv)]

/-- What is to be shown of the walk over a value: in a record it writes the stored form. -/
def WritesValue (s : Schema) (d : Dictionary) (v : Value) : Prop :=
  ∀ (f : FieldDef) (element : ElementType) (dims : Nat), s.Lists d.types.toList element →
    Writes d (s.walkValue f element dims v) (s.Accepts (.ofElement element dims true) v)
      (s.stored (.ofElement element dims true) v)

/-- So is a scalar. -/
theorem writes_walkScalar (f : FieldDef) (k : Kind) (v : Value) :
    Writes d (s.walkValue f (.primitive k) 0 v) (s.Accepts (.primitive k true) v)
      (s.stored (.primitive k true) v) := by
  have hfits : Slot.Fits (.primitive k true) v ↔ v.matchesKind k = true := Iff.rfl
  rw [Schema.walkValue, Schema.stored_primitive]
  split
  · refine (writes_primitive f.name k v).congr ?_
    rw [Schema.accepts_primitive_iff, hfits]
  · rename_i hkind
    exact writes_fail _ fun h ↦ hkind (hfits.1 h.fits)

/-- **The walk over a record** writes its fields in the order of its type. -/
theorem writes_walkRecord (hd : s.Describes d.types.toList) {t : TypeDef}
    (ht : s.Lists d.types.toList (.composite t)) (field : Option String)
    {fields : List (String × Value)} (ih : ∀ name, WritesValue s d (Value.fieldOf fields name)) :
    Writes d (s.walkRecord field t.name t fields)
      (s.Accepts (.record t) (.record t.name fields))
      (s.stored (.record t) (.record t.name fields)) := by
  have hlisted : (d.tagFor? t.name).isSome = true := Decoder.isSome_tagFor?_iff.2 ht.2
  rw [Schema.walkRecord, Schema.stored_record]
  refine ((writes_sequence (P := fun f ↦ ∀ inner, s.slot? f = some inner →
    s.Accepts inner (Value.fieldOf fields f.name)) fun f hf ↦ ?_).record field t.name t).congr ?_
  · obtain ⟨element, helement, hlists⟩ := hd.lists_field ht hf
    have hslot := Schema.slot?_eq_some helement
    have hwalk := (ih f.name f element f.dims hlists).congr
      (Q := ∀ inner, some (Slot.ofElement element f.dims true) = some inner →
        s.Accepts inner (Value.fieldOf fields f.name))
      (by simp only [Option.some.injEq, forall_eq'])
    rw [hslot]
    unfold Schema.element? at helement
    cases hresolve : s.resolve f with
    | primitive k =>
      rw [hresolve] at helement
      cases helement
      exact hwalk
    | composite c =>
      rw [hresolve] at helement
      cases helement
      exact hwalk
    | unknown =>
      rw [hresolve] at helement
      cases helement
  · rw [Schema.accepts_record_iff, and_iff_right (And.intro hlisted rfl), and_iff_right rfl]

/-- **A record** is written as its fields, between events that write nothing. -/
theorem writes_walkComposite (hd : s.Describes d.types.toList) (f : FieldDef) {c : TypeDef}
    (hc : s.Lists d.types.toList (.composite c)) {typeName : String}
    {fields : List (String × Value)} (ih : ∀ name, WritesValue s d (Value.fieldOf fields name)) :
    Writes d (s.walkValue f (.composite c) 0 (.record typeName fields))
      (s.Accepts (.record c) (.record typeName fields))
      (s.stored (.record c) (.record typeName fields)) := by
  rw [Schema.walkValue]
  by_cases hname : typeName = c.name
  · subst hname
    rw [Schema.get?_eq_some_iff.2 ⟨hc.1, rfl⟩]
    exact writes_walkRecord hd hc (some f.name) ih
  · have hnot : ¬s.Accepts (.record c) (.record typeName fields) := fun h ↦ hname h.fits
    cases hget : s.get? typeName with
    | none => exact writes_fail _ hnot
    | some t =>
      -- the type of the record is known, but not the declared one
      have hne : t.name ≠ c.name := Schema.name_of_get?_eq_some hget ▸ hname
      intro w w'
      refine ⟨fun h ↦ ?_, fun h ↦ absurd h.1 hnot⟩
      simp only [Schema.walkRecord, Trace.run_bind_eq_ok_iff] at h
      obtain ⟨_, w₁, hbegin, -⟩ := h
      rw [Trace.run_emit] at hbegin
      simp only [Writer.listener] at hbegin
      split at hbegin
      · rename_i hcheck
        exact absurd ((checkType_eq_ok_iff _).1 hcheck).2 hne
      · cases hbegin

/-- A composite slot takes nothing but records. -/
theorem writes_walkMisfit (f : FieldDef) (c : TypeDef) {v : Value}
    (hv : ∀ typeName fields, v ≠ .record typeName fields) :
    Writes d (s.walkValue f (.composite c) 0 v) (s.Accepts (.record c) v)
      (s.stored (.record c) v) := by
  have hnot : ¬s.Accepts (.record c) v := by
    intro h
    have hfits := h.fits
    cases v with
    | record typeName fields => exact hv _ _ rfl
    | _ => exact hfits
  rw [Schema.walkValue]
  · split
    · intro w w'
      rw [Trace.run_emit]
      exact ⟨fun h ↦ (by cases h), fun h ↦ absurd h.1 hnot⟩
    · exact writes_fail _ hnot
  · exact hv

/-- An array slot takes arrays; an absent one is written as one without items. -/
theorem writes_walkAbsent (f : FieldDef) (element : ElementType) (dims : Nat) {v : Value}
    (hv : ∀ items, v ≠ .array items) :
    Writes d (s.walkValue f element (dims + 1) v)
      (s.Accepts (.array (.ofElement element dims false)) v)
      (s.stored (.array (.ofElement element dims false)) v) := by
  cases v with
  | array items => exact absurd rfl (hv items)
  | null =>
    -- an absent array of scalars is one event, and any other one a pair of brackets
    have hempty : 0 ≤ maxLength := Nat.zero_le _
    rw [Schema.stored_absent, Schema.walkValue_null]
    obtain ⟨k, rfl, rfl⟩ | row := Schema.row_cases element dims
    · rw [Schema.walkValue_row]
      refine (writes_primitives f.name k []).congr ?_
      exact iff_of_true ⟨hempty, by simp⟩ (Schema.accepts_absent _)
    · rw [Schema.walkValue_array s f row]
      refine (writes_pure.array f.name element (dims + 1) 0).congr ?_
      exact iff_of_true ⟨hempty, trivial⟩ (Schema.accepts_absent _)
  | _ =>
    rw [Schema.walkValue_misfit s f element dims (by simp) hv]
    exact writes_fail _ fun h ↦ h.fits

/-- **The walk over an array** writes its length and its items. -/
theorem writes_walkArray (f : FieldDef) {element : ElementType} {dims : Nat}
    (hl : s.Lists d.types.toList element) {items : List Value}
    (ih : ∀ v ∈ items, WritesValue s d v) :
    Writes d (s.walkValue f element (dims + 1) (.array items))
      (s.Accepts (.array (.ofElement element dims false)) (.array items))
      (s.stored (.array (.ofElement element dims false)) (.array items)) := by
  obtain ⟨k, rfl, rfl⟩ | row := Schema.row_cases element dims
  · rw [Schema.walkValue_row]
    exact writes_walkPrimitives f k items
  · have hsequence := writes_sequence fun v hv ↦ ih v hv f element dims hl
    rw [Schema.walkValue_array s f row, Slot.ofElement_of_row row, Schema.stored_array]
    refine (hsequence.array f.name element (dims + 1) items.length).congr ?_
    rw [Schema.accepts_array_iff]

/-- **The walk over a value** in a slot of a record writes the stored form, if the value conforms to
the slot and its lengths can be stored, and fails otherwise. -/
theorem writes_walkValue (hd : s.Describes d.types.toList) (v : Value) : WritesValue s d v := by
  induction v using Value.lookupInduction with
  | leaf v harray hrecord =>
    intro f element dims hl
    cases dims with
    | zero =>
      cases element with
      | primitive k => exact writes_walkScalar f k v
      -- in the slot of a record nothing else is stored
      | composite c => exact writes_walkMisfit f c hrecord
    | succ dims => exact writes_walkAbsent f element dims harray
  | array items ih =>
    intro f element dims hl
    cases dims with
    | zero =>
      cases element with
      | primitive k => exact writes_walkScalar f k _
      | composite c => exact writes_walkMisfit f c fun _ _ h ↦ (by cases h)
    | succ dims => exact writes_walkArray f hl ih
  | record typeName fields ih =>
    intro f element dims hl
    cases dims with
    | zero =>
      cases element with
      | primitive k => exact writes_walkScalar f k _
      | composite c => exact writes_walkComposite hd f hl ih
    | succ dims => exact writes_walkAbsent f element dims fun _ h ↦ (by cases h)

end

end Image

end GraphCodec
