import GraphCodec.Image.Writer
import GraphCodec.Matlab.Wrapper
import GraphCodec.Proofs.Building
import GraphCodec.Proofs.Drafting
import GraphCodec.Proofs.Nesting

/-!
# What listeners refuse

Four listeners keep what is open on stacks of their own: the makers of dictionaries and of generated
code, the writer of file images and the builder of containers. Each of them tracks the context of
the events: the makers have as many types pending as are open, the writer has the very frames, and
every frame of the builder has the slots that its array still expects (`Builder.Framed`). So none
of them ever finds its stack in disorder, and what is checked of a value before it is reported is
not found wrong by those who write it (`nesting_never_fails`).
-/

namespace GraphCodec

/-! ### Makers of dictionaries -/

namespace Dictionary

namespace Draft

variable {d : Draft} {n : Nat}

theorem failsOnly_checkDims (d : Draft) (name : String) (dims : Nat) :
    FailsOnly Fault.Material (d.checkDims name dims) := by
  unfold checkDims
  split
  · exact failsOnly_ok _
  · exact failsOnly_error (Fault.material_schema _)

theorem failsOnly_compositeTag (d : Draft) (t : TypeDef) :
    FailsOnly Fault.Material (d.compositeTag t) := by
  unfold compositeTag
  split
  · exact failsOnly_ok _
  · exact failsOnly_error (Fault.material_unregisteredType _)

/-- Whether a step leaves `n` types pending, or fails for another reason than nesting or sort. -/
abbrev Leaves (n : Nat) (result : Except Fault Draft) : Prop :=
  FailsOnly Fault.Material result ∧ ∀ d, result = .ok d → d.pending.length = n

/-- A check before a step. -/
theorem Leaves.bind {α : Type} {x : Except Fault α} {f : α → Except Fault Draft}
    (hx : FailsOnly Fault.Material x) (hf : ∀ a, Leaves n (f a)) : Leaves n (x >>= f) := by
  refine ⟨hx.bind fun a _ ↦ (hf a).1, fun d hd ↦ ?_⟩
  obtain ⟨a, -, hfa⟩ := bind_eq_ok_iff.1 hd
  exact (hf a).2 d hfa

/-- A field leaves the types that are open as they are. -/
theorem leaves_pushField (hd : d.pending.length = n + 1) (g : FieldEntry) :
    Leaves (n + 1) (d.pushField g) := by
  obtain ⟨⟨owner, fields⟩, outer, hpending⟩ := List.exists_cons_of_length_eq_add_one hd
  rw [pushField_eq_ok hpending]
  refine ⟨failsOnly_ok _, fun d' h ↦ ?_⟩
  cases h
  rw [hpending] at hd
  exact hd

/-- A type that is finished is pending no more. -/
theorem leaves_finishType (hd : d.pending.length = n + 1) : Leaves n d.finishType := by
  obtain ⟨⟨name, fields⟩, outer, hpending⟩ := List.exists_cons_of_length_eq_add_one hd
  rw [hpending] at hd
  obtain ⟨-, hfinish⟩ | ⟨dictionary, hfinish⟩ := finishType_cases hpending
  · -- there may be no tag for the type, but that has nothing to do with nesting
    rw [hfinish]
    exact ⟨failsOnly_error ⟨rfl, rfl⟩, fun d' h ↦ by cases h⟩
  · rw [hfinish]
    refine ⟨failsOnly_ok _, fun d' h ↦ ?_⟩
    cases h
    exact Nat.succ.inj hd

/-- **Each event** opens or closes as many types as the rule says. -/
theorem leaves_step {n' : Nat} {event : SchemaEvent} (hrule : TypeRule n event n')
    (hd : d.pending.length = n) : Leaves n' (d.step event) := by
  match hrule with
  | .beginType n field t =>
    refine ⟨failsOnly_ok _, fun d' h ↦ ?_⟩
    cases h
    exact congrArg (· + 1) hd
  | .endType n field => exact leaves_finishType hd
  | .primitive n name k preserve => exact leaves_pushField hd _
  | .primitiveArray n name k dims preserve =>
    exact .bind (d.failsOnly_checkDims name dims) fun _ ↦ leaves_pushField hd _
  | .composite n name t =>
    exact .bind (d.failsOnly_compositeTag t) fun _ ↦ leaves_pushField hd _
  | .compositeArray n name t dims =>
    exact .bind (d.failsOnly_compositeTag t) fun _ ↦
      .bind (d.failsOnly_checkDims name dims) fun _ ↦ leaves_pushField hd _
  | .unknown n owner f => exact ⟨failsOnly_error ⟨rfl, rfl⟩, fun _ h ↦ nomatch h⟩

/-- **A maker of dictionaries** has as many types pending as are open. -/
theorem tracks_listener :
    listener.Tracks TypeRule Fault.Material fun n d ↦ d.pending.length = n := by
  intro n n' event d hrule hd
  obtain ⟨hfails, hpending⟩ := leaves_step hrule hd
  unfold listener
  split
  · exact hpending _ ‹_›
  · exact hfails _ ‹_›

end Draft

/-- **A dictionary** is refused in material faults only. -/
theorem failsOnly_ofSchema (s : Schema) (root : TypeDef) :
    FailsOnly Fault.Material (ofSchema s root) := by
  have hwalk := s.follows_walk root
  obtain ⟨hok, hfails⟩ := Draft.tracks_listener.outcomeFrom hwalk
    (show Draft.empty.pending.length = 0 from rfl)
  unfold ofSchema
  split
  · rename_i e herror
    exact failsOnly_error ((hfails e herror).elim id fun hout ↦ hwalk.fails e hout)
  · rename_i u d hd
    rw [List.length_eq_zero_iff.1 (hok u d hd)]
    exact failsOnly_ok _

end Dictionary

/-! ### Makers of code -/

namespace Matlab

namespace Generator

variable {n : Nat}

/-- Whether a generator has `n` types pending. -/
abbrev Pending (n : Nat) (g : Generator) : Prop :=
  g.pending.length = n

/-- Naming a type leaves the types that are open as they are. -/
theorem carries_identFor (t : TypeDef) :
    Carries (Pending n) Fault.Material (Pending n) (identFor t) := by
  constructor
  intro g hg
  unfold identFor
  dsimp only
  split
  · exact Fault.material_schema _
  · split
    · split
      · exact hg
      · exact Fault.material_schema _
    · exact hg

/-- So does adding to the innermost one. -/
theorem carries_onCurrent (name : String) (f : TypeCode → TypeCode) :
    Carries (Pending (n + 1)) Fault.Material (Pending (n + 1)) (onCurrent name f) := by
  constructor
  intro g hg
  obtain ⟨c, cs, hpending⟩ := List.exists_cons_of_length_eq_add_one hg
  unfold onCurrent
  split
  · exact Fault.material_schema _
  · rw [hpending]
    rw [Pending, hpending] at hg
    exact hg

/-- Finishing a type closes it. -/
theorem carries_finishType :
    Carries (Pending (n + 1)) Fault.Material (Pending n) finishType := by
  constructor
  intro g hg
  obtain ⟨c, cs, hpending⟩ := List.exists_cons_of_length_eq_add_one hg
  unfold finishType
  rw [hpending]
  rw [Pending, hpending] at hg
  exact Nat.succ.inj hg

/-- **Each event** does what the rule for types says. -/
theorem carries_listener {n n' : Nat} {event : SchemaEvent} (hrule : TypeRule n event n') :
    Carries (Pending n) Fault.Material (Pending n') (listener event) := by
  match hrule with
  | .beginType n field t =>
    exact (carries_identFor t).bind fun _ ↦ ⟨fun _ hg ↦ congrArg (· + 1) hg⟩
  | .endType n field => exact carries_finishType
  | .primitive n name k preserve => exact carries_onCurrent name _
  | .primitiveArray n name k dims preserve =>
    unfold listener
    dsimp only
    split
    · exact ⟨fun _ _ ↦ ⟨rfl, rfl⟩⟩
    · exact carries_onCurrent name _
  | .composite n name t => exact (carries_identFor t).bind fun _ ↦ carries_onCurrent name _
  | .compositeArray n name t dims =>
    exact (carries_identFor t).bind fun _ ↦ carries_onCurrent name _
  | .unknown n owner f => exact ⟨fun _ _ ↦ ⟨rfl, rfl⟩⟩

/-- **A maker of code** has as many types pending as are open. -/
theorem tracks_listener : listener.Tracks TypeRule Fault.Material Pending :=
  fun _ _ _ g hrule hg ↦ (carries_listener hrule).endsIn g hg

end Generator

/-- **Generation** fails in material faults only. -/
theorem failsOnly_generate (s : Schema) (root : TypeDef) :
    FailsOnly Fault.Material (generate s root) := by
  have hwalk := s.follows_walk root
  obtain ⟨hok, hfails⟩ := Generator.tracks_listener.outcomeFrom hwalk
    (show Generator.Pending 0 Generator.start from rfl)
  refine FailsOnly.bind (fun e he ↦ (hfails e he).elim id fun hout ↦ hwalk.fails e hout) ?_
  intro ⟨u, g⟩ hrun
  have hg : g.pending = [] := List.length_eq_zero_iff.1 (hok u g hrun)
  dsimp only
  rw [if_neg (not_not.2 hg)]
  refine (Dictionary.failsOnly_ofSchema s root).bind fun d _ ↦ ?_
  split
  · exact failsOnly_error (Fault.material_unregisteredType _)
  · have hident := (Generator.carries_identFor (n := 0) root).endsIn g (congrArg List.length hg)
    split
    · rename_i e _ herror
      rw [herror] at hident
      exact failsOnly_error hident
    · exact failsOnly_ok _

end Matlab

/-! ### Writers of images -/

theorem failsOnly_lengthBytes (n : Nat) : FailsOnly Fault.Material (lengthBytes n) := by
  unfold lengthBytes
  split
  · exact failsOnly_ok _
  · exact failsOnly_error (Fault.material_data _)

theorem failsOnly_textBytes (s : String) : FailsOnly Fault.Material (textBytes s) :=
  (failsOnly_lengthBytes _).bind fun _ _ ↦ failsOnly_ok _

/-- A value of the sort that is demanded can be stored, unless its text is too long. -/
theorem failsOnly_primitiveBytes (field : String) {k : Kind} {v : Value}
    (h : v.matchesKind k = true) : FailsOnly Fault.Material (primitiveBytes field k v) := by
  cases k <;> cases v <;>
    first
      | exact failsOnly_textBytes _
      | exact failsOnly_ok _
      | cases h

theorem Schema.matchesKind_of_isItemOf {k : Kind} {v : Value} (h : isItemOf k v = true) :
    v.matchesKind k = true :=
  (Slot.fits_primitive_iff.1 (isItemOf_iff.1 h)).1

theorem Dictionary.failsOnly_headerBytes (d : Dictionary) :
    FailsOnly Fault.Material d.headerBytes := by
  have hfield (f : FieldEntry) : FailsOnly Fault.Material (fieldBytes f) :=
    (failsOnly_textBytes f.name).bind fun _ _ ↦ failsOnly_ok _
  have htype (t : TypeEntry) : FailsOnly Fault.Material (typeBytes t) :=
    (failsOnly_textBytes t.name).bind fun _ _ ↦ (failsOnly_lengthBytes _).bind fun _ _ ↦
      (failsOnly_mapM hfield).bind fun _ _ ↦ failsOnly_ok _
  exact (failsOnly_lengthBytes _).bind fun _ _ ↦
    (failsOnly_mapM htype).bind fun _ _ ↦ failsOnly_ok _

namespace Image

/-- The frame of something that has been entered. -/
def Frame.ofLevel : Level → Frame
  | .record field => .record field
  | .array field _ _ _ => .array field

/-- The next value leaves the frames as they are. -/
theorem Frame.map_fill (levels : List Level) :
    (Level.fill levels).map ofLevel = levels.map ofLevel := by
  unfold Level.fill
  split <;> rfl

namespace Writer

/-- Whether the frames of a writer are those of what is open. -/
abbrev Holds (levels : List Level) (w : Writer) : Prop :=
  w.frames = levels.map Frame.ofLevel

variable {w : Writer} {levels : List Level}

theorem holds_fill (hw : Holds levels w) : Holds (Level.fill levels) w :=
  hw.trans (Frame.map_fill levels).symm

/-- An append fails for its bytes only, and opens nothing. -/
theorem endsIn_append {bs : Except Fault (List UInt8)} (hbs : FailsOnly Fault.Material bs)
    (hw : Holds levels w) : EndsIn (Holds levels) Fault.Material (append bs w) := by
  unfold append
  split
  · exact hw
  · exact hbs _ rfl

/-- So do the items of an array, if they are of their kind. -/
theorem endsIn_appendPrimitives (field : String) {k : Kind} {vs : List Value}
    (hvs : ∀ v ∈ vs, v.matchesKind k = true) (hw : Holds levels w) :
    EndsIn (Holds levels) Fault.Material (appendPrimitives field k vs w) := by
  induction vs generalizing w with
  | nil => exact hw
  | cons v vs ih =>
    obtain ⟨hv, hvs⟩ := List.forall_mem_cons.1 hvs
    have hfirst := endsIn_append (failsOnly_primitiveBytes field hv) hw
    unfold appendPrimitives
    split
    · rename_i w' hok
      rw [hok] at hfirst
      exact ih hvs hfirst
    · rename_i e w' herror
      rw [herror] at hfirst
      exact hfirst

/-- The innermost frame can be closed, and what is closed counts as a value of the one around it. -/
theorem endsIn_closeFrame {level : Level} (hw : Holds (level :: levels) w) :
    EndsIn (Holds (Level.fill levels)) Fault.Material (closeFrame (Frame.ofLevel level) w) := by
  unfold closeFrame
  rw [hw, List.map_cons]
  dsimp only
  rw [if_pos rfl]
  exact (Frame.map_fill levels).symm

theorem failsOnly_checkType (d : Dictionary) (field : Option String) (declared : String)
    (t : TypeDef) : FailsOnly Fault.Material (checkType d field declared t) := by
  unfold checkType
  split
  · exact failsOnly_error (Fault.material_unregisteredType _)
  · split
    · exact failsOnly_error ⟨rfl, rfl⟩
    · exact failsOnly_ok _

theorem endsIn_beginRecord (d : Dictionary) (field : Option String) (declared : String)
    (t : TypeDef) (hw : Holds levels w) :
    EndsIn (Holds (.record field :: levels)) Fault.Material
      (listener d (.beginRecord field declared t) w) := by
  unfold listener
  dsimp only
  split
  · exact congrArg (Frame.record field :: ·) hw
  · exact failsOnly_checkType d field declared t _ ‹_›

/-- **A writer** has the frames of what is open. -/
theorem tracks_listener (d : Dictionary) :
    (listener d).Tracks ValueRule Fault.Material Holds := by
  intro levels levels' event w hrule hw
  match hrule with
  | .beginRoot declared t => exact endsIn_beginRecord d none declared t hw
  | .beginRecord _ field t => exact endsIn_beginRecord d (some field) _ t hw
  | .endRecord levels field => exact endsIn_closeFrame hw
  | .beginArray _ _ field length =>
    exact (endsIn_append (failsOnly_lengthBytes length) hw).bind fun _ _ _ hw' ↦
      congrArg (Frame.array field :: ·) hw'
  | .endArray levels field element dims => exact endsIn_closeFrame hw
  | .primitive _ sort field =>
    exact endsIn_append (failsOnly_primitiveBytes field sort) (holds_fill hw)
  | .primitives _ sort field =>
    exact (endsIn_append (failsOnly_lengthBytes _) (holds_fill hw)).bind fun _ _ _ hw' ↦
      endsIn_appendPrimitives field (fun v hv ↦ Schema.matchesKind_of_isItemOf (sort v hv)) hw'
  | .emptyComposite _ field => exact ⟨rfl, rfl⟩

end Writer

/-- **Encoding** fails in material faults, or as the walk does. -/
theorem failsOnly_encode (s : Schema) (r : Record) :
    FailsOnly (fun e ↦ e.Material ∨ (s.walkRoot r).outcome = .error e) (encode s r) := by
  have hmaterial {α : Type} {x : Except Fault α} (h : FailsOnly Fault.Material x) :
      FailsOnly (fun e ↦ e.Material ∨ (s.walkRoot r).outcome = .error e) x :=
    h.mono fun _ ↦ .inl
  unfold encode
  split
  · exact hmaterial (failsOnly_error (Fault.material_unregisteredType _))
  · refine (hmaterial (Dictionary.failsOnly_ofSchema s _)).bind fun d _ ↦ ?_
    split
    · exact hmaterial (failsOnly_error (Fault.material_unregisteredType _))
    · rename_i rootTag _
      have hfront : FailsOnly Fault.Material (preamble d rootTag) :=
        d.failsOnly_headerBytes.bind fun _ _ ↦ failsOnly_ok _
      refine (hmaterial hfront).bind fun front _ ↦ ?_
      obtain ⟨hok, hfails⟩ := (Writer.tracks_listener d).outcomeFrom (s.nests_walkRoot r)
        (show Writer.Holds [] ⟨Sink.empty.write front, []⟩ from rfl)
      refine hfails.bind fun ⟨u, w⟩ hrun ↦ ?_
      have hframes : w.frames = [] := hok u w hrun
      show FailsOnly _ w.finish
      unfold Writer.finish
      rw [hframes]
      exact failsOnly_ok _

end Image

/-! ### Builders of containers -/

namespace Container

/-- Whether a frame is that of a dimension of an array, which expects `left` more items. -/
inductive Frame.Awaits (field : String) (element : ElementType) (dims left : Nat) : Frame → Prop
  | composites {c : TypeDef} {s : StructArray Tree} {index : Nat} (records : element = .composite c)
      (row : dims = 1) (size : index + left = s.size) :
    Awaits field element dims left (.composites field s index)
  | nested {s : StructArray Tree} {index : Nat} (outer : 1 < dims) (size : index + left = s.size) :
    Awaits field element dims left (.nested field s index)
  | texts {items : Array Tree} {index : Nat} (textual : element.isTextual = true)
      (size : index + left = items.size) : Awaits field element dims left (.texts field items index)

namespace Frame

variable {field : String} {element : ElementType} {dims left : Nat} {f : Frame}

theorem Awaits.field_eq (h : f.Awaits field element dims left) : f.field = field := by
  cases h <;> rfl

theorem Awaits.isArray (h : f.Awaits field element dims left) : f.isArray = true := by
  cases h <;> rfl

/-- A dimension of records is one of the array. -/
theorem Awaits.dims_ne_zero {c : TypeDef} (h : f.Awaits field (.composite c) dims left) :
    dims ≠ 0 := by
  match h with
  | .composites _ row _ => exact row ▸ Nat.one_ne_zero
  | .nested outer _ => exact Nat.ne_of_gt (Nat.zero_lt_of_lt outer)
  | .texts textual _ => exact nomatch textual

end Frame

namespace Builder

/-- Frames that go with what is open. The root has no frame of its own; every other one was opened
where there was room for it. -/
inductive Framed : List Level → List Frame → Prop
  | nil : Framed [] []
  | root : Framed [.record none] []
  | composite {levels : List Level} {frames : List Frame} (outer : Framed levels frames)
      {c : TypeDef} (room : Level.Room (.composite c) 0 levels) (field : String)
      {s : StructArray Tree} (size : s.size = 1) :
    Framed (.record (some field) :: levels) (.composite field s :: frames)
  | array {levels : List Level} {frames : List Frame} (outer : Framed levels frames)
      {element : ElementType} {dims : Nat} (room : Level.Room element dims levels)
      {field : String} {left : Nat} {f : Frame} (awaits : f.Awaits field element dims left) :
    Framed (.array field element dims left :: levels) (f :: frames)

/-- Whether a builder has such frames, and a root of one element. -/
structure Holds (levels : List Level) (b : Builder) : Prop where
  framed : Framed levels b.frames
  size : b.root.size = 1

variable {field name : String} {element : ElementType} {dims left : Nat} {levels : List Level}
  {f : Frame} {b : Builder} {v : Tree}

/-! #### Opening and closing -/

/-- The frame of an array awaits as many items as were announced. -/
theorem awaits_arrayFrame (field : String) {dims : Nat}
    (row : dims = 0 → ∃ c, element = .composite c) (length : Nat) :
    (arrayFrame field element (dims + 1) length).Awaits field element (dims + 1) length := by
  unfold arrayFrame
  split_ifs with htext hdims
  · exact .texts htext (by rw [Array.size_replicate, Nat.zero_add])
  · exact .nested hdims (by rw [StructArray.size_withNames, Nat.zero_add])
  · obtain rfl : dims = 0 := by omega
    obtain ⟨c, hc⟩ := row rfl
    exact .composites hc rfl (by rw [StructArray.size_withNames, Nat.zero_add])

/-! #### Putting and attaching -/

/-- **A frame that expects an item** takes one; that of an array of records takes structs only. -/
theorem exists_put (h : f.Awaits name element dims left) (hleft : 0 < left)
    (hv : (∀ c, element = .composite c → dims ≠ 1) ∨ ∃ a, v = .struct a) :
    ∃ f', put field v f = (f', .ok ()) ∧ f'.Awaits name element dims (left - 1) := by
  match h with
  | @Frame.Awaits.composites _ _ _ _ c s index records row size =>
    obtain ⟨a, rfl⟩ : ∃ a, v = .struct a := hv.resolve_left fun hother ↦ hother c records row
    have hput : put field (.struct a) (.composites name s index) =
        (.composites name (s.putAll Tree.empty index a.firstElement) (index + 1), .ok ()) := by
      rw [put, splice_of_lt (by omega : index < s.size)]
    refine ⟨_, hput, .composites records row ?_⟩
    rw [StructArray.size_putAll]
    omega
  | @Frame.Awaits.nested _ _ _ _ s index outer size =>
    have hput : put field v (.nested name s index) =
        (.nested name (s.put Tree.empty innerField index v) (index + 1), .ok ()) := by
      rw [put, StructArray.set_of_lt (by omega : index < s.size)]
    refine ⟨_, hput, .nested outer ?_⟩
    rw [StructArray.size_put]
    omega
  | @Frame.Awaits.texts _ _ _ _ items index textual size =>
    have hput : put field v (.texts name items index) =
        (.texts name (items.setIfInBounds index v) (index + 1), .ok ()) := if_pos (by omega)
    refine ⟨_, hput, .texts textual ?_⟩
    rw [Array.size_setIfInBounds]
    omega

variable {root : StructArray Tree} {frames : List Frame}

/-- **Where there is room for a value**, its tree can be attached, and counts as the next item of
the array that it is attached to. -/
theorem endsIn_attach (hframed : Framed levels frames) (hroot : root.size = 1)
    (room : Level.Room element dims levels)
    (hv : (∀ c, element = .composite c → dims ≠ 0) ∨ ∃ a, v = .struct a) :
    EndsIn (Holds (Level.fill levels)) Fault.Material (attach field v ⟨root, frames⟩) := by
  have hbottom : attach field v ⟨root, []⟩ = .ok () ⟨root.put Tree.empty field 0 v, []⟩ :=
    (takes_root hroot field).1 v
  have hbottom' : (root.put Tree.empty field 0 v).size = 1 := (StructArray.size_put ..).trans hroot
  match hframed with
  | .nil =>
    rw [hbottom]
    exact ⟨.nil, hbottom'⟩
  | .root =>
    rw [hbottom]
    exact ⟨.root, hbottom'⟩
  | @Framed.composite _ frames outer _ room' name s size =>
    have hattach : attach field v ⟨root, .composite name s :: frames⟩ =
        .ok () ⟨root, .composite name (s.put Tree.empty field 0 v) :: frames⟩ :=
      (takes_composite ⟨root, frames⟩ name size field).1 v
    rw [hattach]
    exact ⟨.composite outer room' name ((StructArray.size_put ..).trans size), hroot⟩
  | @Framed.array _ frames outer _ _ room' _ _ _ awaits =>
    obtain ⟨rfl, rfl, hleft⟩ := room
    obtain ⟨f', hput, awaits'⟩ : ∃ f', put field v _ = (f', .ok ()) ∧ _ := exists_put awaits hleft
      (hv.imp_left fun h c hc hdims ↦ h c hc (Nat.succ.inj hdims))
    have hattach := attach_within hput ⟨root, frames⟩
    unfold within at hattach
    rw [hattach]
    exact ⟨.array outer room' awaits', hroot⟩

/-- An empty composite slot takes the placeholder, or the element that is there already. -/
theorem endsIn_attachEmpty {c : TypeDef} (hframed : Framed levels frames) (hroot : root.size = 1)
    (room : Level.Room (.composite c) 0 levels) :
    EndsIn (Holds (Level.fill levels)) Fault.Material (attachEmpty field ⟨root, frames⟩) := by
  -- where nothing in particular is expected, there is room for anything
  have hanything {levels : List Level} {frames : List Frame} (h : Framed levels frames)
      (room : Level.Room (.composite c) 1 levels) :
      EndsIn (Holds (Level.fill levels)) Fault.Material
        (attach field Tree.empty ⟨root, frames⟩) :=
    endsIn_attach h hroot room (.inl fun _ _ ↦ Nat.one_ne_zero)
  match hframed, room with
  | .nil, _ => exact hanything .nil trivial
  | .root, _ => exact hanything .root trivial
  | .composite outer room' name size, _ =>
    exact hanything (.composite outer room' name size) trivial
  | .array outer room' awaits, ⟨helement, hdims, hleft⟩ =>
    match awaits with
    | .composites records row size =>
      exact ⟨.array outer room' (.composites records row (by omega)), hroot⟩
    | .nested outer' _ => exact absurd hdims (Nat.ne_of_gt outer')
    | .texts textual _ =>
      rw [helement] at textual
      exact nomatch textual

/-- A record that its slot declares opens what goes with it: nothing for the root. -/
theorem endsIn_beginRecord (hroot : root.size = 1) {field : Option String} (declared : String)
    (t : TypeDef)
    (hopen : ∀ frames', (field.elim frames fun name ↦
      .composite name (StructArray.withNames Tree.empty 1 t.fieldNames) :: frames) = frames' →
        Framed (.record field :: levels) frames') :
    EndsIn (Holds (.record field :: levels)) Fault.Material
      (listener (.beginRecord field declared t) ⟨root, frames⟩) := by
  unfold listener
  dsimp only
  split
  · exact ⟨rfl, rfl⟩
  · match field with
    | none => exact ⟨hopen _ rfl, hroot⟩
    | some name => exact ⟨hopen _ rfl, hroot⟩

/-- **A builder** has frames that go with what is open. -/
theorem tracks_listener : listener.Tracks ValueRule Fault.Material Holds := by
  intro levels levels' event b hrule hb
  obtain ⟨root, frames⟩ := b
  obtain ⟨hframed, hroot⟩ : Framed levels frames ∧ root.size = 1 := ⟨hb.framed, hb.size⟩
  match hrule with
  | .beginRoot declared t =>
    refine endsIn_beginRecord hroot declared t ?_
    rintro _ rfl
    cases hframed
    exact .root
  | .beginRecord room field t =>
    refine endsIn_beginRecord hroot _ t ?_
    rintro _ rfl
    exact .composite hframed room field (StructArray.size_withNames ..)
  | .endRecord levels none =>
    cases hframed
    exact ⟨.nil, hroot⟩
  | .endRecord levels (some field) =>
    match hframed with
    | @Framed.composite _ frames outer _ room _ s size =>
      have hend := endRecord_within field s ⟨root, frames⟩
      unfold within at hend
      rw [hend]
      exact endsIn_attach outer hroot room (.inr ⟨s, rfl⟩)
  | .beginArray room row field length =>
    exact ⟨.array hframed room (awaits_arrayFrame field row length), hroot⟩
  | .endArray levels field element dims =>
    match hframed with
    | @Framed.array _ frames outer _ _ room _ _ _ awaits =>
      have hend := endArray_within awaits.isArray ⟨root, frames⟩
      unfold within at hend
      rw [awaits.field_eq] at hend
      rw [hend]
      exact endsIn_attach outer hroot room (.inl fun c hc ↦ (hc ▸ awaits).dims_ne_zero)
  | @ValueRule.primitive _ k v room sort field =>
    show EndsIn _ _ (attachOrFail field (Tree.ofScalar field k v) _)
    rw [Tree.ofScalar_eq_leaf field sort]
    exact endsIn_attach hframed hroot room (.inl fun _ h ↦ nomatch h)
  | @ValueRule.primitives _ k vs room sort field =>
    obtain ⟨tree, htree⟩ : ∃ tree, Tree.ofPrimitives field k vs = .ok tree := by
      match vs with
      | [] => exact ⟨Tree.empty, rfl⟩
      | v :: vs => exact ⟨_, Tree.ofPrimitives_eq_ofItems field (List.cons_ne_nil v vs) sort⟩
    show EndsIn _ _ (attachOrFail field (Tree.ofPrimitives field k vs) _)
    rw [htree]
    exact endsIn_attach hframed hroot room (.inl fun _ h ↦ nomatch h)
  | .emptyComposite room field => exact endsIn_attachEmpty hframed hroot room

end Builder

/-- **Building** fails in material faults, or as the walk does. -/
theorem failsOnly_ofRecord (s : Schema) (r : Record) :
    FailsOnly (fun e ↦ e.Material ∨ (s.walkRoot r).outcome = .error e) (ofRecord s r) := by
  have hstart : Builder.Holds [] Builder.start := ⟨.nil, StructArray.size_ofSize 1⟩
  obtain ⟨hok, hfails⟩ := Builder.tracks_listener.outcomeFrom (s.nests_walkRoot r) hstart
  refine FailsOnly.bind hfails fun ⟨u, b⟩ hrun ↦ ?_
  have hframes : b.frames = [] := by
    obtain ⟨hframed, -⟩ := hok u b hrun
    generalize b.frames = frames at hframed
    cases hframed
    rfl
  show FailsOnly _ b.finish
  unfold Builder.finish
  rw [hframes]
  exact failsOnly_ok _

end Container

/-! ### All listeners -/

/-- Whether a computation that follows a walk never ends with a fault of nesting, and with one of
sort only where the walk itself does. -/
def Trace.Blames {ε α : Type} (t : Trace ε Unit) (x : Except Fault α) : Prop :=
  FailsOnly (fun e ↦ e.ofNesting = false ∧ (e.ofSort = true → t.outcome = .error e)) x

/-- Whether a listener in the state `s` refuses no event of a walk with a fault of nesting or of
sort, however far it gets. -/
def Listener.Hears {ε σ : Type} (listen : Listener ε σ) (s : σ) (t : Trace ε Unit) : Prop :=
  EndsIn (fun _ ↦ True) Fault.Material (Trace.deliver listen t.events s)

section

variable {ε κ σ α : Type} {rule : κ → ε → κ → Prop} {c c' : κ}

/-- A listener that tracks the rule hears out what follows it. -/
theorem Listener.Tracks.hears {listen : Listener ε σ} {goesWith : κ → σ → Prop}
    (h : listen.Tracks rule Fault.Material goesWith) {Q : Fault → Prop} {t : Trace ε Unit}
    (ht : t.Follows rule Q c c') {s : σ} (hs : goesWith c s) : listen.Hears s t := by
  obtain ⟨⟨last, hallowed, -⟩, -⟩ := ht
  have hdeliver := h.deliver hallowed hs
  unfold Hears
  generalize Trace.deliver listen t.events s = result at hdeliver
  match result with
  | .ok _ _ => trivial
  | .error _ _ => exact hdeliver

/-- So what goes wrong is blamed on what was told. -/
theorem Trace.Follows.blames {t : Trace ε Unit}
    (ht : t.Follows rule (fun e ↦ e.ofNesting = false) c c') {x : Except Fault α}
    (hx : FailsOnly (fun e ↦ e.Material ∨ t.outcome = .error e) x) : t.Blames x := by
  intro e he
  rcases hx e he with ⟨hnesting, hsort⟩ | hout
  · exact ⟨hnesting, fun h ↦ absurd (hsort.symm.trans h) Bool.false_ne_true⟩
  · exact ⟨ht.fails e hout, fun _ ↦ hout⟩

end

/-- **Nesting never fails.** Whatever the schema, the root type and the record are, making a
dictionary, code, a file image or a container never ends with a fault of nesting. Nor do those who
listen to a walk find a value of the wrong sort: dictionaries and code never fail for one, and an
image or a container only where the walk over the record itself does. -/
theorem nesting_never_fails (s : Schema) (root : TypeDef) (r : Record) :
    (FailsOnly Fault.Material (Dictionary.ofSchema s root) ∧
      FailsOnly Fault.Material (Matlab.generate s root)) ∧
    ((s.walkRoot r).Blames (Image.encode s r) ∧ (s.walkRoot r).Blames (Container.ofRecord s r)) ∧
    (∀ d sink, (Image.Writer.listener d).Hears ⟨sink, []⟩ (s.walkRoot r)) ∧
    Container.Builder.listener.Hears Container.Builder.start (s.walkRoot r) := by
  have hwalk := s.nests_walkRoot r
  refine ⟨⟨Dictionary.failsOnly_ofSchema s root, Matlab.failsOnly_generate s root⟩,
    ⟨hwalk.blames (Image.failsOnly_encode s r), hwalk.blames (Container.failsOnly_ofRecord s r)⟩,
    fun d sink ↦ ?_, ?_⟩
  · exact Listener.Tracks.hears (Image.Writer.tracks_listener d) hwalk rfl
  · exact Container.Builder.tracks_listener.hears hwalk ⟨.nil, StructArray.size_ofSize 1⟩

end GraphCodec
