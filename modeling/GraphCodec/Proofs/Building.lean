import GraphCodec.Proofs.RecordTree
import GraphCodec.Proofs.StructArray

/-!
# What the builder makes of a walk

The builder listens to a walk over a value. `Leads t P b b'` says exactly where it gets: if `P`
holds, the walk `t` leads from `b` to `b'`, and otherwise the builder or the walk fails. A sequence
of walks is followed through states that depend on what has been walked (`leads_sequence`), and what
is opened around a walk is closed behind it, so that the finished tree goes into the frame that was
innermost before (`Leads.framed`).

Two sorts of frames take trees. A record takes them under names, and is the same whether it is the
root or in a frame (`Takes`). The frame of an array takes them one after the other; `nestedFrame`,
`recordsFrame` and `textsFrame` are what it looks like when some have been taken.
-/

namespace GraphCodec

namespace Container

namespace Builder

/-- The walk takes the builder exactly from `b` to `b'` if `P` holds, and fails otherwise. -/
def Leads (t : Trace ValueEvent Unit) (P : Prop) (b b' : Builder) : Prop :=
  ∀ c, Trace.run listener t b = .ok () c ↔ P ∧ c = b'

section

variable {t u : Trace ValueEvent Unit} {P Q : Prop} {b b' b'' : Builder}

/-- Only what the condition says is of interest. -/
theorem Leads.congr (h : Leads t P b b') (hiff : P ↔ Q) : Leads t Q b b' := by
  intro c
  rw [h c, hiff]

theorem leads_pure (b : Builder) : Leads (pure ()) True b b := by
  intro c
  rw [Trace.run_pure, true_and]
  exact ⟨fun h ↦ (by cases h; rfl), fun h ↦ (by rw [h]; rfl)⟩

/-- A walk that fails leads nowhere, so its condition must not hold. -/
theorem leads_fail (e : Fault) (h : ¬P) : Leads (Trace.fail e) P b b' := by
  intro c
  rw [Trace.run_fail]
  exact ⟨fun hfail ↦ (by cases hfail), fun hP ↦ absurd hP.1 h⟩

/-- An event that the builder takes. -/
theorem leads_emit {event : ValueEvent} (h : listener event b = .ok () b') :
    Leads (Trace.emit event) True b b' := by
  intro c
  rw [Trace.run_emit, h, true_and]
  exact ⟨fun hc ↦ (by cases hc; rfl), fun hc ↦ (by rw [hc])⟩

/-- **One walk after the other** leads through the builder in between. -/
theorem Leads.bind (ht : Leads t P b b') (hu : Leads u Q b' b'') :
    Leads (t >>= fun _ ↦ u) (P ∧ Q) b b'' := by
  intro c
  rw [Trace.run_bind_eq_ok_iff]
  constructor
  · rintro ⟨_, c', h, h'⟩
    obtain ⟨hP, rfl⟩ := (ht c').1 h
    obtain ⟨hQ, rfl⟩ := (hu c).1 h'
    exact ⟨⟨hP, hQ⟩, rfl⟩
  · rintro ⟨⟨hP, hQ⟩, rfl⟩
    exact ⟨(), b', (ht b').2 ⟨hP, rfl⟩, (hu c).2 ⟨hQ, rfl⟩⟩

/-- A walk that is refused at once leads nowhere. -/
theorem leads_refused {event : ValueEvent} {e : Fault} (h : listener event b = .error e b)
    (hP : ¬P) : Leads (Trace.emit event >>= fun _ ↦ u) P b b' := by
  intro c
  rw [Trace.run_bind_eq_ok_iff]
  refine ⟨fun hrun ↦ ?_, fun hc ↦ absurd hc.1 hP⟩
  obtain ⟨_, _, hevent, -⟩ := hrun
  rw [Trace.run_emit, h] at hevent
  cases hevent

/-- **Walks in order** lead from state to state, each of which depends on what has been walked. -/
theorem leads_sequence {α : Type} {walk : α → Trace ValueEvent Unit} {P : α → Prop} {xs : List α}
    (state : List α → Builder)
    (h : ∀ done x, done ++ [x] <+: xs → Leads (walk x) (P x) (state done) (state (done ++ [x]))) :
    Leads (Trace.sequence (xs.map walk)) (∀ x ∈ xs, P x) (state []) (state xs) := by
  have key : ∀ rest done, done ++ rest = xs →
      Leads (Trace.sequence (rest.map walk)) (∀ x ∈ rest, P x) (state done) (state xs) := by
    intro rest
    induction rest with
    | nil =>
      rintro done rfl
      rw [List.append_nil]
      exact (leads_pure _).congr (by simp)
    | cons x rest ih =>
      intro done hxs
      rw [List.append_cons] at hxs
      rw [List.map_cons, Trace.sequence_cons]
      have hx := h done x ⟨rest, hxs⟩
      exact (hx.bind (ih (done ++ [x]) hxs)).congr List.forall_mem_cons.symm
  exact key xs [] rfl

/-! ### Frames -/

/-- A builder with one more frame open. -/
def within (b : Builder) (f : Frame) : Builder :=
  { b with frames := f :: b.frames }

/-- A tree goes into the frame that is innermost. -/
theorem attach_within {field : String} {v : Tree} {f f' : Frame} (h : put field v f = (f', .ok ()))
    (b : Builder) : attach field v (b.within f) = .ok () (b.within f') := by
  unfold attach within
  dsimp only
  rw [h]

/-- The end of a record closes its frame and stores the struct in the frame around it. -/
theorem endRecord_within (field : String) (s : StructArray Tree) (b : Builder) :
    listener (.endRecord (some field)) (b.within (.composite field s)) =
      attach field (.struct s) b := by
  show EStateM.bind (closeFrame field false) _ _ = _
  unfold EStateM.bind closeFrame within
  simp [Frame.field, Frame.isArray, Frame.tree]

/-- The end of an array does the same with what has been finished. -/
theorem endArray_within {f : Frame} (harray : f.isArray = true) (b : Builder) :
    listener (.endArray f.field) (b.within f) = attach f.field (finishedArray f) b := by
  show EStateM.bind (closeFrame f.field true) _ _ = _
  unfold EStateM.bind closeFrame within
  simp [harray]

/-- **What is opened and closed** around a walk. -/
theorem Leads.framed {first last : ValueEvent} {f f' : Frame}
    (hfirst : listener first = openFrame f) (ht : Leads t P (b.within f) (b.within f'))
    (hlast : listener last (b.within f') = .ok () b') :
    Leads (do
        Trace.emit first
        t
        Trace.emit last) P b b' := by
  have hopen : listener first b = .ok () (b.within f) := by rw [hfirst]; rfl
  refine ((leads_emit hopen).bind (ht.bind (leads_emit hlast))).congr ?_
  rw [true_and, and_true]

/-- Builders whose innermost record is the first element of a struct array. -/
def Takes (wrap : StructArray Tree → Builder) : Prop :=
  ∀ {s : StructArray Tree}, s.size = 1 → ∀ field,
    (∀ v, attach field v (wrap s) = .ok () (wrap (s.put Tree.empty field 0 v))) ∧
      attachEmpty field (wrap s) = attach field Tree.empty (wrap s)

/-- The root takes trees under names. -/
theorem takes_root : Takes fun s ↦ ⟨s, []⟩ := by
  intro s hs field
  refine ⟨fun v ↦ ?_, rfl⟩
  unfold attach
  dsimp only
  rw [StructArray.set_of_lt (hs ▸ Nat.one_pos)]

/-- So does the frame of a record. -/
theorem takes_composite (b : Builder) (name : String) :
    Takes fun s ↦ b.within (.composite name s) := by
  intro s hs field
  refine ⟨fun v ↦ attach_within ?_ b, rfl⟩
  rw [put, StructArray.set_of_lt (hs ▸ Nat.one_pos)]

end

/-! ### Arrays -/

section

variable (field : String) (element : ElementType) (dims length : Nat)

@[simp] theorem isArray_arrayFrame : (arrayFrame field element dims length).isArray = true := by
  unfold arrayFrame
  split_ifs <;> rfl

@[simp] theorem field_arrayFrame : (arrayFrame field element dims length).field = field := by
  unfold arrayFrame
  split_ifs <;> rfl

theorem finishedArray_arrayFrame_zero :
    finishedArray (arrayFrame field element dims 0) = Tree.empty := by
  unfold arrayFrame
  split_ifs <;> rfl

end

/-- What an element of a struct array of records becomes when a tree is put into it. -/
def spliced (t : TypeDef) : Tree → List Tree
  | .struct a => StructArray.fill t.fieldNames a.firstElement t.blanks
  | _ => t.blanks

/-- All fields of an element are filled if the row has one for each. -/
theorem fill_blanks {t : TypeDef} (hnodup : t.fieldNames.Nodup) {row : List Tree}
    (hrow : row.length = t.fields.length) :
    StructArray.fill t.fieldNames (t.fieldNames.zip row) t.blanks = row :=
  StructArray.fill_zip hnodup (hrow.trans t.length_fieldNames.symm)
    (t.length_blanks.trans t.length_fieldNames.symm)

/-- An element becomes the row of the record that is put into it, or stays blank for an absent one.
-/
theorem spliced_tree {s : Schema} {t : TypeDef} (hnodup : t.fieldNames.Nodup) (v : Value) :
    spliced t (s.tree (.record t) v) = s.row t v := by
  -- a value that is no record is absent
  cases v with
  | record typeName fields =>
    rw [s.tree_record]
    show StructArray.fill t.fieldNames (t.fieldNames.zip (s.row t _ ++ [])) t.blanks = _
    rw [List.append_nil, fill_blanks hnodup (s.length_row t _)]
  | _ =>
    rw [s.tree_record_absent t fun _ _ h ↦ (by cases h), s.row_absent t fun _ _ h ↦ (by cases h)]
    rfl

/-- Put the tree of the value in a slot into the innermost frame: that of an absent record skips
the element that is there for it. -/
def place (field : String) : Slot → Tree → EStateM Fault Builder Unit
  | .record _, .struct a => attach field (.struct a)
  | .record _, _ => attachEmpty field
  | _, tree => attach field tree

/-- Whether a tree can be that of a value in a slot: for a record, a struct with the fields of its
type, and for an absent one the placeholder. -/
def Shaped : Slot → Value → Tree → Prop
  | .record t, .record _ _, tree => ∃ rows, tree = .struct ⟨t.fieldNames, rows⟩
  | .record _, _, tree => tree = Tree.empty
  | _, _, _ => True

/-- The tree of a value is of the shape that its slot demands. -/
theorem shaped_tree (s : Schema) (slot : Slot) (v : Value) : Shaped slot v (s.tree slot v) := by
  cases slot with
  | record t =>
    cases v with
    | record typeName fields => exact ⟨_, s.tree_record t typeName fields⟩
    | _ => exact s.tree_record_absent t fun _ _ h ↦ nomatch h
  | _ => trivial

/-- **A record takes the tree of a slot** under the name of the field. -/
theorem Takes.place {wrap : StructArray Tree → Builder} (hwrap : Takes wrap) {a : StructArray Tree}
    (ha : a.size = 1) (field : String) {slot : Slot} {v : Value} {tree : Tree}
    (htree : Shaped slot v tree) :
    place field slot tree (wrap a) = .ok () (wrap (a.put Tree.empty field 0 tree)) := by
  obtain ⟨hattach, hempty⟩ := hwrap ha field
  cases slot with
  | record t =>
    cases v with
    | record typeName fields =>
      obtain ⟨rows, rfl⟩ := htree
      exact hattach _
    | _ =>
      obtain rfl : tree = Tree.empty := htree
      exact hempty.trans (hattach _)
  | _ => exact hattach tree

/-! Frames of arrays of `n` items of which the first are done. -/

/-- The frame of an outer dimension. -/
def nestedFrame (name : String) (n : Nat) (done : List (List Tree)) : Frame :=
  .nested name ⟨[innerField], (slots n [Tree.empty] done).toArray⟩ done.length

/-- The frame of an array of records. -/
def recordsFrame (name : String) (t : TypeDef) (n : Nat) (done : List (List Tree)) : Frame :=
  .composites name ⟨t.fieldNames, (slots n t.blanks done).toArray⟩ done.length

/-- The frame of an outer dimension of an array of texts. -/
def textsFrame (name : String) (n : Nat) (done : List Tree) : Frame :=
  .texts name (slots n Tree.empty done).toArray done.length

section

variable {field name : String} {t : TypeDef} {n : Nat} {done : List (List Tree)}

/-- All items are there, so the array is finished with them as they are. -/
theorem finishedArray_nestedFrame (hn : n ≠ 0) (h : done.length = n) :
    finishedArray (nestedFrame name n done) = .struct ⟨[innerField], done.toArray⟩ := by
  rw [nestedFrame, slots_of_length_eq h]
  exact if_neg fun (hzero : done.length = 0) ↦ hn (h.symm.trans hzero)

theorem finishedArray_recordsFrame (hn : n ≠ 0) (h : done.length = n) :
    finishedArray (recordsFrame name t n done) = .struct ⟨t.fieldNames, done.toArray⟩ := by
  rw [recordsFrame, slots_of_length_eq h]
  exact if_neg fun (hzero : done.length = 0) ↦ hn (h.symm.trans hzero)

theorem finishedArray_textsFrame {done : List Tree} (hn : n ≠ 0) (h : done.length = n) :
    finishedArray (textsFrame name n done) = .cell done := by
  rw [textsFrame, slots_of_length_eq h]
  exact if_neg fun (hzero : done.length = 0) ↦ hn (h.symm.trans hzero)

/-- The next slot of an outer dimension takes any tree. -/
theorem put_nestedFrame (h : done.length < n) (tree : Tree) :
    put field tree (nestedFrame name n done) =
      (nestedFrame name n (done ++ [[tree]]), .ok ()) := by
  have hsize : done.length < (slots n [Tree.empty] done).toArray.size := by
    rwa [List.size_toArray, length_slots h.le]
  rw [nestedFrame, put, StructArray.set_of_lt hsize,
    StructArray.put_of_mem (List.mem_singleton_self _), modify_toArray_slots h,
    List.idxOf_cons_self, nestedFrame, List.length_append]
  rfl

/-- The next cell takes any tree. -/
theorem put_textsFrame {done : List Tree} (h : done.length < n) (tree : Tree) :
    put field tree (textsFrame name n done) = (textsFrame name n (done ++ [tree]), .ok ()) := by
  have hsize : done.length < (slots n Tree.empty done).toArray.size := by
    rwa [List.size_toArray, length_slots h.le]
  rw [textsFrame, put, if_pos hsize, List.setIfInBounds_toArray, set_slots h, textsFrame,
    List.length_append]
  rfl

/-- The next element takes the fields of a record. -/
theorem put_recordsFrame (h : done.length < n) (rows : Array (List Tree)) :
    put field (.struct ⟨t.fieldNames, rows⟩) (recordsFrame name t n done) =
      (recordsFrame name t n (done ++ [spliced t (.struct ⟨t.fieldNames, rows⟩)]), .ok ()) := by
  have hsize : done.length < (slots n t.blanks done).toArray.size := by
    rwa [List.size_toArray, length_slots h.le]
  have hnames : ∀ v ∈ (⟨t.fieldNames, rows⟩ : StructArray Tree).firstElement, v.1 ∈ t.fieldNames :=
    fun v hv ↦ (List.of_mem_zip hv).1
  unfold recordsFrame put
  dsimp only
  rw [splice_of_lt hsize, StructArray.putAll_of_subset hnames, modify_toArray_slots h,
    List.length_append]
  rfl

/-- **The next item** of an array of records. -/
theorem place_recordsFrame (h : done.length < n) {v : Value} {tree : Tree}
    (htree : Shaped (.record t) v tree) (b : Builder) :
    place field (.record t) tree (b.within (recordsFrame name t n done)) =
      .ok () (b.within (recordsFrame name t n (done ++ [spliced t tree]))) := by
  cases v with
  | record typeName fields =>
    obtain ⟨rows, rfl⟩ := htree
    exact attach_within (put_recordsFrame h rows) b
  | _ =>
    obtain rfl : tree = Tree.empty := htree
    show EStateM.Result.ok () (b.within (.composites name ⟨t.fieldNames, _⟩ (done.length + 1))) = _
    rw [recordsFrame, List.length_append, show spliced t Tree.empty = t.blanks from rfl,
      slots_append_blank h]
    rfl

end

end Builder

end Container

end GraphCodec
