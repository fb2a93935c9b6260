import GraphCodec.Proofs.Conformance
import GraphCodec.Proofs.Reencoding

/-!
# The size of what is decoded

How many nodes can the root of an image have? An array announces its items, and unless these take no
bytes there are no more of them than bytes; otherwise there are at most `maxWeightless`. Outside the
items of arrays the nodes of a record are as many as its type says (`Dictionary.spans`), whatever
the bytes are. So the number of nodes is at most a constant times the number of bytes, and the
constant grows with the greatest number of nodes that a type of the dictionary gives its records
(`Image.nodeCount_le_of_decode`).

This factor cannot be left out. Records whose fields are all records without primitives and arrays
take no bytes, and a type multiplies the nodes of the type of its fields for twelve bytes a field in
the dictionary: an image of 215 bytes can hold more than fourteen million nodes.
-/

namespace GraphCodec

/-! ### Counting nodes -/

namespace Value

/-- An array is a node with those of its items. -/
theorem nodeCount_array (items : List Value) :
    nodeCount (.array items) = 1 + (items.map nodeCount).sum := by
  rw [nodeCount]
  simp

/-- A record is a node with those of its fields. -/
theorem nodeCount_record (typeName : String) (fields : List (String × Value)) :
    nodeCount (.record typeName fields) = 1 + (fields.map fun f ↦ nodeCount f.2).sum := by
  have hparts : fields.attach.map (fun f ↦ nodeCount f.1.2) = fields.map fun f ↦ nodeCount f.2 :=
    List.attach_map_val (f := fun f : String × Value ↦ nodeCount f.2)
  rw [nodeCount]
  exact congrArg (1 + List.sum ·) hparts

/-- A primitive is one node. -/
theorem nodeCount_of_matchesKind {v : Value} {k : Kind} (h : v.matchesKind k = true) :
    v.nodeCount = 1 := by
  cases v with
  | array items => cases k <;> cases h
  | record typeName fields => cases k <;> cases h
  | _ => simp [nodeCount]

end Value

namespace Dictionary

/-- The number of nodes of a field, without the items of arrays, given those of the types listed
before. -/
def fieldSpan (known : List (Tag × Nat)) (f : FieldEntry) : Nat :=
  if 0 < f.dims then 1
  else
    match Kind.ofTag? f.tag with
    | some _ => 1
    | none => (known.lookup f.tag).getD 0

/-- The number of nodes of a record, without the items of arrays, given those of the types listed
before its type. -/
def typeSpan (known : List (Tag × Nat)) (t : TypeEntry) : Nat :=
  1 + (t.fields.map (fieldSpan known)).sum

/-- The numbers of nodes that the types give their records, without the items of arrays. -/
def spans (d : Dictionary) : List (Tag × Nat) :=
  weightsOf typeSpan d.types.toList

/-- The greatest number of nodes that a type gives its records. -/
def span (d : Dictionary) : Nat :=
  (d.spans.map Prod.snd).foldr max 1

/-- The number of nodes of a value with a given tag and number of dimensions, without the items of
arrays. -/
def slotSpan (d : Dictionary) (tag : Tag) (dims : Nat) : Nat :=
  if dims = 0 then
    match Kind.ofTag? tag with
    | some _ => 1
    | none => (d.spans.lookup tag).getD 0
  else 1

/-- The span of a type depends on the types before it only, so it can be computed in order. -/
theorem local_typeSpan : Local typeSpan := by
  intro known known' t h
  unfold typeSpan
  congr 2
  refine List.map_congr_left fun f hf ↦ ?_
  rw [fieldSpan, fieldSpan, h f hf]

/-- A maximum is at least one and at least each of the numbers. -/
theorem le_foldr_max {ns : List Nat} {n : Nat} (h : n = 1 ∨ n ∈ ns) : n ≤ ns.foldr max 1 := by
  induction ns with
  | nil => simpa using Nat.le_of_eq (h.resolve_right List.not_mem_nil)
  | cons m ns ih =>
    rw [List.foldr_cons]
    rcases h with h | h
    · exact Nat.le_trans (ih (.inl h)) (Nat.le_max_right _ _)
    · rcases List.mem_cons.1 h with rfl | h
      · exact Nat.le_max_left _ _
      · exact Nat.le_trans (ih (.inr h)) (Nat.le_max_right _ _)

theorem one_le_span (d : Dictionary) : 1 ≤ d.span :=
  le_foldr_max (.inl rfl)

/-- No slot has more nodes, without the items of arrays, than some type gives its records. -/
theorem slotSpan_le (d : Dictionary) (tag : Tag) (dims : Nat) : d.slotSpan tag dims ≤ d.span := by
  unfold slotSpan
  split
  · split
    · exact one_le_span d
    · cases h : d.spans.lookup tag with
      | none => exact Nat.zero_le _
      | some n =>
        obtain ⟨before, after, hspans, -⟩ := List.lookup_eq_some_iff.1 h
        refine le_foldr_max (.inr (List.mem_map.2 ⟨(tag, n), ?_, rfl⟩))
        rw [hspans]
        exact List.mem_append_right _ List.mem_cons_self
  · exact one_le_span d

theorem dims_pos_iff (f : FieldEntry) : 0 < f.dims ↔ f.dims.toNatClampNeg ≠ 0 := by
  rw [Int32.lt_iff_toInt_lt]
  show 0 < f.dims.toInt ↔ f.dims.toInt.toNat ≠ 0
  omega

/-- The span of a field is that of its slot. -/
theorem fieldSpan_eq_of_slot (d : Dictionary) (f : FieldEntry) :
    fieldSpan d.spans f = d.slotSpan f.tag f.dims.toNatClampNeg := by
  unfold fieldSpan slotSpan
  by_cases hdims : f.dims.toNatClampNeg = 0
  · rw [if_pos hdims, if_neg fun h ↦ (dims_pos_iff f).1 h hdims]
  · rw [if_neg hdims, if_pos ((dims_pos_iff f).2 hdims)]

/-- The width of a field is that of the slot that it opens. -/
theorem fieldWidth_eq_of_slot (widths : List (Tag × Nat)) (f : FieldEntry) :
    fieldWidth widths f = Image.slotWidth widths f.tag f.dims.toNatClampNeg := by
  rw [fieldWidth_eq, Image.slotWidth]
  by_cases hdims : f.dims.toNatClampNeg = 0
  · rw [if_pos hdims, if_neg fun h ↦ (dims_pos_iff f).1 h hdims]
  · rw [if_neg hdims, if_pos ((dims_pos_iff f).2 hdims)]

/-- The span of a type is one for its record and those of its fields. -/
theorem slotSpan_tag {d : Dictionary} (h : Ordered d.types.toList) {t : TypeEntry}
    (ht : t ∈ d.types.toList) :
    d.slotSpan t.tag 0 = 1 + (t.fields.map (fieldSpan d.spans)).sum := by
  rw [slotSpan, if_pos rfl, Kind.ofTag?_eq_none (h.composite ht), spans,
    h.lookup_weightsOf local_typeSpan ht]
  rfl

/-- The greatest number of items for each byte of an array: the four bytes of a count are enough for
`maxWeightless` of them, and the count itself is one more node. -/
def itemsPerByte : Nat := maxWeightless / 4 + 1

/-- Whether some bytes pay for a number of nodes. What a slot has in any case, `span` nodes and
`width` bytes, is not charged, so that the parts of a record can be added up. -/
def Pays (d : Dictionary) (nodes span width : Nat) (bs : List UInt8) : Prop :=
  nodes + d.span * width ≤ span + itemsPerByte * d.span * bs.length

/-- **A record is paid for** by its fields. -/
theorem Pays.record {d : Dictionary} {nodes span width : Nat} {bs : List UInt8}
    (h : d.Pays nodes span width bs) (before : List UInt8) :
    d.Pays (1 + nodes) (1 + span) width (before ++ bs) := by
  unfold Pays at h ⊢
  rw [List.length_append, Nat.mul_add]
  omega

/-- **An array is paid for**: items that take bytes by these bytes, and others by the count. -/
theorem Pays.array {d : Dictionary} {nodes count span width : Nat} {bs : List UInt8}
    (hspan : span ≤ d.span) (hcount : width = 0 → count ≤ maxWeightless)
    (h : d.Pays nodes (count * span) (count * width) bs) :
    d.Pays (1 + nodes) 1 4 (lengthWord count ++ bs) := by
  unfold Pays itemsPerByte at h ⊢
  rw [List.length_append, length_lengthWord, Nat.mul_add]
  have hitems : count * span ≤ count * d.span := Nat.mul_le_mul_left _ hspan
  have hrate : (maxWeightless / 4 + 1) * d.span * 4 = maxWeightless * d.span + 4 * d.span := by
    unfold maxWeightless
    omega
  rcases Nat.eq_zero_or_pos width with rfl | hwidth
  · have hmany : count * d.span ≤ maxWeightless * d.span :=
      Nat.mul_le_mul_right _ (hcount rfl)
    omega
  · have htaken : count * d.span ≤ d.span * (count * width) := by
      rw [Nat.mul_comm]
      exact Nat.mul_le_mul_left _ (Nat.le_mul_of_pos_right _ hwidth)
    omega

end Dictionary

namespace Decoder

variable {α γ : Type} {d : Dictionary}

/-- Two things that are known of the same bytes. -/
theorem Yields.and {p : Decoder α} {R S : α → List UInt8 → Prop} (hR : Yields p R)
    (hS : Yields p S) : Yields p fun a bs ↦ R a bs ∧ S a bs := by
  intro c a c' h
  obtain ⟨bs, hRa, hrest, hposition⟩ := hR h
  obtain ⟨cs, hSa, hrest', -⟩ := hS h
  obtain rfl : bs = cs := List.append_cancel_right (hrest.symm.trans hrest')
  exact ⟨bs, ⟨hRa, hSa⟩, hrest, hposition⟩

/-- **Parts are paid for one by one.** -/
theorem pays_each {read : γ → Decoder α} {nodes : α → Nat} {span width : γ → Nat} {xs : List γ}
    (h : ∀ x ∈ xs, Yields (read x) fun a bs ↦ d.Pays (nodes a) (span x) (width x) bs) :
    Yields (each xs read) fun as bs ↦
      d.Pays (as.map nodes).sum (xs.map span).sum (xs.map width).sum bs := by
  refine (yields_zip (List.forall₂_same.2 h)).mono ?_
  rintro as bs ⟨parts, hparts, rfl, rfl⟩
  induction hparts with
  | nil => exact Nat.zero_le _
  | @cons x p xs parts hp _ ih =>
    have hparts := ih fun y hy ↦ h y (List.mem_cons_of_mem x hy)
    unfold Dictionary.Pays at hp hparts ⊢
    simp only [List.map_cons, List.sum_cons, List.flatMap_cons, List.length_append, Nat.mul_add]
    omega

/-- What each element pays, all of them pay. -/
theorem pays_times {read : Decoder α} {nodes : α → Nat} {span width : Nat}
    (h : Yields read fun a bs ↦ d.Pays (nodes a) span width bs) (n : Nat) :
    Yields (times n read) fun as bs ↦ d.Pays (as.map nodes).sum (n * span) (n * width) bs := by
  have heach := pays_each fun x (_ : x ∈ List.replicate n ()) ↦ h
  simp only [List.map_replicate, List.sum_replicate, smul_eq_mul] at heach
  rw [times_eq_each]
  exact heach

/-! ### Primitives -/

/-- A primitive is one node, and takes at least the bytes that its kind demands. -/
theorem yields_primitive_minWidth (k : Kind) (inRecord : Bool) :
    Yields (primitive k inRecord) fun v bs ↦ v.nodeCount = 1 ∧ k.minWidth ≤ bs.length := by
  have hnodes : Yields (primitive k inRecord) fun v _ ↦ v.nodeCount = 1 :=
    (returns_primitive k inRecord).mono fun v _ h ↦ Value.nodeCount_of_matchesKind h.kind
  refine hnodes.and ?_
  by_cases hk : k = .date
  · subst hk
    refine (yields_text.bind (S := fun _ _ _ ↦ True) fun s _ _ ↦ ?_).mono ?_
    · split
      · exact (yields_pure _).mono fun _ _ _ ↦ trivial
      · split
        · exact (yields_pure _).mono fun _ _ _ ↦ trivial
        · exact yields_fail _ _
    · rintro v bs ⟨s, _, cs, ⟨-, rfl⟩, -, rfl⟩
      rw [textForm, List.length_append, List.length_append, length_lengthWord]
      show 4 ≤ _
      omega
  · refine (yields_primitive hk inRecord).mono ?_
    rintro v bs ⟨-, -, rfl⟩
    exact minWidth_le_length_scalarForm k v

end Decoder

namespace Image

open Decoder Dictionary

variable {d : Dictionary}

/-! ### Records and arrays -/

/-- A primitive is one node, and pays for it where it can. -/
theorem pays_primitive {tag : Tag} {k : Kind} (hk : Kind.ofTag? tag = some k) (inRecord : Bool) :
    Yields (primitive k inRecord) fun v bs ↦
      d.Pays v.nodeCount (d.slotSpan tag 0) (slotWidth d.widths tag 0) bs := by
  refine (yields_primitive_minWidth k inRecord).mono ?_
  rintro v bs ⟨hnodes, hwidth⟩
  have hspan : d.slotSpan tag 0 = 1 := by rw [slotSpan, if_pos rfl, hk]
  have hmin : slotWidth d.widths tag 0 = k.minWidth := by rw [slotWidth, if_pos rfl, minWidth, hk]
  have hle : d.span * k.minWidth ≤ d.span * bs.length := Nat.mul_le_mul_left _ hwidth
  have hrate : d.span * bs.length ≤ itemsPerByte * d.span * bs.length := by
    rw [Nat.mul_assoc]
    exact Nat.le_mul_of_pos_left _ (Nat.succ_pos _)
  rw [Pays, hnodes, hspan, hmin]
  omega

/-- The fields of a record are paid for by their bytes, if each of them is. -/
theorem pays_fields {read : FieldEntry → Decoder Value} {fields : List FieldEntry}
    (h : ∀ f ∈ fields, Yields (read f) fun v bs ↦ d.Pays v.nodeCount
      (d.slotSpan f.tag f.dims.toNatClampNeg) (slotWidth d.widths f.tag f.dims.toNatClampNeg) bs) :
    Yields (each fields fun f ↦ read f >>= fun v ↦ pure (f.name, v)) fun parts bs ↦
      d.Pays (parts.map fun p ↦ p.2.nodeCount).sum (fields.map (fieldSpan d.spans)).sum
        (fields.map (fieldWidth d.widths)).sum bs := by
  refine pays_each fun f hf ↦ ((h f hf).map fun v ↦ (f.name, v)).mono ?_
  rintro part bs ⟨v, hv, rfl⟩
  rwa [fieldSpan_eq_of_slot, fieldWidth_eq_of_slot]

/-- **The reader of slots** takes enough bytes for what it returns, by the levels that it may still
enter. -/
theorem pays_readSlot (h : Ordered d.types.toList) (levels : Nat) :
    ∀ {tag dims inRecord}, Yields (readSlot d d.widths levels tag dims inRecord) fun v bs ↦
      d.Pays v.nodeCount (d.slotSpan tag dims) (slotWidth d.widths tag dims) bs := by
  induction levels with
  | zero =>
    intro tag dims inRecord
    cases dims with
    | zero =>
      rw [readSlot]
      cases hk : Kind.ofTag? tag with
      | some k => exact pays_primitive hk inRecord
      | none =>
        exact ((returns_readType d tag).bind fun t _ ↦ returns_fail _ fun _ ↦ False).mono
          fun _ _ h ↦ h.elim
    | succ dims =>
      rw [readSlot]
      exact yields_fail _ _
  | succ levels ih =>
    intro tag dims inRecord
    cases dims with
    | zero =>
      rw [readSlot]
      cases hk : Kind.ofTag? tag with
      | some k => exact pays_primitive hk inRecord
      | none =>
        refine (Yields.bind (returns_readType d tag) fun t _ _ ↦
          (pays_fields fun f _ ↦ ih).map (Value.record t.name)).mono ?_
        rintro v bs ⟨t, as, cs, ⟨ht, rfl⟩, ⟨fields, hfields, rfl⟩, rfl⟩
        rw [Value.nodeCount_record, slotSpan_tag h ht, slotWidth, if_pos rfl, h.minWidth_eq ht]
        -- the record itself is one node and takes no bytes
        exact hfields.record as
    | succ dims =>
      rw [readSlot]
      refine (((yields_readCount tag _).and (returns_readCount tag _)).bind fun n _ _ ↦
        (pays_times ih n).map Value.array).mono ?_
      rintro v bs ⟨n, _, items, ⟨⟨-, rfl⟩, hn⟩, ⟨vs, hvs, rfl⟩, rfl⟩
      -- either the items take bytes, or their number is limited
      rw [Value.nodeCount_array]
      exact hvs.array (slotSpan_le d tag dims) hn

/-! ### Images -/

/-- The root pays for its items by its bytes; what it holds without items is within the span. -/
theorem pays_readRoot (h : Ordered d.types.toList) {t : TypeEntry} (ht : t ∈ d.types.toList) :
    Yields (readRoot d t) fun root bs ↦ root.toValue.nodeCount ≤
      d.span + itemsPerByte * d.span * bs.length := by
  refine ((pays_fields fun f _ ↦ pays_readSlot h maxNesting).map fun fields ↦
    (⟨t.name, fields⟩ : Record)).mono ?_
  rintro root bs ⟨fields, hfields, rfl⟩
  have hspan := slotSpan_le d t.tag 0
  rw [slotSpan_tag h ht] at hspan
  unfold Pays at hfields
  rw [Record.toValue, Value.nodeCount_record]
  show 1 + (fields.map fun p ↦ p.2.nodeCount).sum ≤ _
  omega

/-- What is read in front of something pays nothing and costs nothing. -/
theorem nodeCount_le_append {nodes span : Nat} {bs : List UInt8} (before : List UInt8)
    (h : nodes ≤ span + itemsPerByte * span * bs.length) :
    nodes ≤ span + itemsPerByte * span * (before ++ bs).length := by
  rw [List.length_append, Nat.mul_add]
  omega

/-- **What was read** has no more nodes than its bytes pay for. -/
theorem pays_readContent : Yields readContent fun c bs ↦
    c.root.toValue.nodeCount ≤ itemsPerByte * c.dictionary.span * bs.length := by
  -- the magic number pays for the root
  refine (yields_int32.bind (S := fun _ c bs ↦ c.root.toValue.nodeCount ≤
    c.dictionary.span + itemsPerByte * c.dictionary.span * bs.length) fun found _ _ ↦ ?_).mono ?_
  · split
    · exact yields_fail _ _
    · refine (yields_header.bind fun d _ hd ↦ yields_int32.bind fun rootTag _ _ ↦
        Yields.bind (returns_readType d rootTag) fun t _ ht ↦
          (pays_readRoot hd.1 ht.1).map fun root ↦ (⟨d, root⟩ : Content)).mono ?_
      rintro c bs ⟨d, _, _, -, ⟨_, _, _, -, ⟨t, _, _, -, ⟨root, hroot, rfl⟩, rfl⟩, rfl⟩, rfl⟩
      exact nodeCount_le_append _ (nodeCount_le_append _ (nodeCount_le_append _ hroot))
  · rintro c bs ⟨found, _, cs, rfl, h, rfl⟩
    have hspan : c.dictionary.span ≤ itemsPerByte * c.dictionary.span :=
      Nat.le_mul_of_pos_left _ (Nat.succ_pos _)
    rw [List.length_append, Word.length_ofInt32, Nat.mul_add]
    omega

/-- **The nodes of what is decoded** are at most `itemsPerByte` for each byte, times the greatest
number of nodes that a type of the dictionary gives its records outside the items of arrays. -/
theorem nodeCount_le_of_decode {bs : List UInt8} {c : Content} (h : decode bs = .ok c) :
    c.root.toValue.nodeCount ≤ itemsPerByte * c.dictionary.span * bs.length := by
  obtain ⟨rest, hread, hend⟩ := decode_eq_ok_iff.1 h
  obtain ⟨cs, hnodes, hrest, -⟩ := pays_readContent hread
  have hnil : rest.rest = [] := by
    rw [← List.length_eq_zero_iff, ← rest.remaining_eq, hend]
  rw [hnil, List.append_nil] at hrest
  obtain rfl : bs = cs := hrest
  exact hnodes

/-! ### Many nodes of few bytes -/

/-- An array of equal items is read from their equal forms. -/
theorem reads_replicate {tag : Tag} {dims levels n : Nat} {inRecord : Bool} {form : List UInt8}
    {v : Value} (hn : n ≤ maxWeightless) (hwidth : slotWidth d.widths tag dims ≤ form.length)
    (hitem : Reads (readSlot d d.widths levels tag dims false) form v) :
    Reads (readSlot d d.widths (levels + 1) tag (dims + 1) inRecord)
      (lengthWord n ++ (List.replicate n form).flatten) (.array (List.replicate n v)) := by
  have hbytes : n * slotWidth d.widths tag dims ≤ (List.replicate n form).flatten.length := by
    rw [List.length_flatten, List.map_replicate, List.sum_replicate]
    exact Nat.mul_le_mul_left _ hwidth
  have hmany : ¬(slotWidth d.widths tag dims = 0 ∧ maxWeightless < n) :=
    fun h ↦ Nat.not_lt.2 hn h.2
  rw [readSlot_array]
  refine Reads.count (Nat.le_trans hn (by decide)) hbytes ?_
  rw [if_neg hmany, pure_bind, times_eq_each]
  have heach := reads_each fun x (_ : x ∈ List.replicate n ()) ↦ hitem
  rw [List.map_replicate, List.flatMap_def, List.map_replicate] at heach
  exact heach.map Value.array

/-- Types without primitives and arrays: `a` has no fields, `b` has three of type `a`, and `c` has
four of type `b`. The root type has an array of two dimensions of records of type `c`. To save bytes
in the images, `a` and all fields have the empty name. -/
def swarmDictionary : Dictionary :=
  ⟨#[⟨12, "", []⟩, ⟨13, "b", List.replicate 3 ⟨"", 12, 0⟩⟩,
    ⟨14, "c", List.replicate 4 ⟨"", 13, 0⟩⟩, ⟨15, "d", [⟨"", 14, 2⟩]⟩], 15⟩

/-- A record of type `c`, which takes no bytes. -/
def swarmItem : Value :=
  .record "c" (List.replicate 4 ("", .record "b" (List.replicate 3 ("", .record "" []))))

/-- Thirteen arrays, each with as many items as are allowed. -/
def swarm : Content :=
  ⟨swarmDictionary, "d",
    [("", .array (List.replicate 13 (.array (List.replicate maxWeightless swarmItem))))]⟩

def swarmImage : List UInt8 :=
  imageForm swarmDictionary 15
    (lengthWord 13 ++ (List.replicate 13 (lengthWord maxWeightless)).flatten)

/-- An item of the example takes no bytes. -/
theorem reads_swarmItem : Reads (readSlot swarmDictionary swarmDictionary.widths 254 14 0 false) []
    swarmItem :=
  fun _ _ ↦ rfl

theorem slotWidth_swarm : slotWidth swarmDictionary.widths 14 0 = 0 ∧
    slotWidth swarmDictionary.widths 14 1 = 4 := by
  cbv

/-- The dictionary of the example is read. -/
theorem reads_swarmHeader :
    Reads Dictionary.readHeader swarmDictionary.headerForm swarmDictionary := by
  have hbytes : swarmDictionary.headerBytes = .ok swarmDictionary.headerForm := by cbv
  have hread : ∃ c, Dictionary.readHeader (.before swarmDictionary.headerForm 0) =
      .ok (swarmDictionary, c) := ⟨.before [] 151, by cbv⟩
  obtain ⟨c, hread⟩ := hread
  have hwell := Dictionary.wellFormed_of_readHeader hread
  have hordered := Dictionary.ordered_of_wellFormed hwell
  exact (Dictionary.readsWhen_headerBytes hbytes hordered).reads hwell

theorem length_swarmImage : swarmImage.length = 215 := by
  cbv

/-- The example is an image for the reader. -/
theorem decode_swarm : decode swarmImage = .ok swarm := by
  have hrow : Reads (readSlot swarmDictionary swarmDictionary.widths 255 14 1 false)
      (lengthWord maxWeightless) (.array (List.replicate maxWeightless swarmItem)) := by
    have h : Reads (readSlot swarmDictionary swarmDictionary.widths 255 14 1 false)
        (lengthWord maxWeightless ++ (List.replicate maxWeightless []).flatten)
        (.array (List.replicate maxWeightless swarmItem)) :=
      reads_replicate (Nat.le_refl maxWeightless) (Nat.le_of_eq slotWidth_swarm.1) reads_swarmItem
    rwa [List.flatten_replicate_nil, List.append_nil] at h
  have hrows : Reads (readSlot swarmDictionary swarmDictionary.widths 256 14 2 true)
      (lengthWord 13 ++ (List.replicate 13 (lengthWord maxWeightless)).flatten)
      (.array (List.replicate 13 (.array (List.replicate maxWeightless swarmItem)))) :=
    reads_replicate (by decide) (by rw [slotWidth_swarm.2, length_lengthWord]) hrow
  have hroot := (reads_each fun f (_ : f ∈ [(⟨"", 14, 2⟩ : FieldEntry)]) ↦
    hrows.map fun v ↦ (f.name, v)).map fun fields ↦ (⟨"d", fields⟩ : Record)
  have htype : readType swarmDictionary 15 = pure ⟨15, "d", [⟨"", 14, 2⟩]⟩ := rfl
  rw [List.flatMap_singleton] at hroot
  rw [swarmImage, imageForm, frontForm, List.append_assoc, List.append_assoc]
  refine decode_eq_of_reads ((reads_int32 magic).bind ?_)
  rw [if_neg (not_not.2 rfl)]
  refine reads_swarmHeader.bind ((reads_int32 15).bind ?_)
  rw [htype, pure_bind]
  exact hroot.map fun root ↦ (⟨swarmDictionary, root⟩ : Content)

/-- Its nodes, counted. -/
theorem nodeCount_swarm : swarm.root.toValue.nodeCount = 14483471 := by
  have hleaf : Value.nodeCount swarmItem = 17 := by
    simp [swarmItem, Value.nodeCount_record]
  simp only [Record.toValue, swarm, Value.nodeCount_record, Value.nodeCount_array, hleaf,
    List.map_cons, List.map_nil, List.map_replicate, List.sum_cons, List.sum_nil,
    List.sum_replicate, smul_eq_mul]
  rfl

/-- The nodes of what is decoded are not bounded by the items of one array for every byte. -/
theorem nodeCount_swarm_gt : decode swarmImage = .ok swarm ∧
    (maxWeightless + 1) * swarmImage.length < swarm.root.toValue.nodeCount := by
  refine ⟨decode_swarm, ?_⟩
  rw [length_swarmImage, nodeCount_swarm, maxWeightless]
  omega

theorem nodeCount_le_of_decode_swarm : decode swarmImage = .ok swarm ∧
    swarm.root.toValue.nodeCount ≤ itemsPerByte * swarm.dictionary.span * swarmImage.length :=
  ⟨decode_swarm, nodeCount_le_of_decode decode_swarm⟩

end Image

end GraphCodec
