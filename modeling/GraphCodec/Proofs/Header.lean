import GraphCodec.Proofs.Decoding
import GraphCodec.Proofs.TypeOrder

/-!
# The dictionary section

The stored form of a dictionary is a concatenation of the forms of its types. The writer makes it
whenever the lengths in it fit (`Dictionary.headerBytes_eq_ok_iff`). The reader takes it for the
dictionary if its types are in order and within the limits on counts (`Decoder.readsWhen_header`),
and whatever it reads is in order and has no other spelling (`Decoder.yields_header`).
-/

namespace GraphCodec

/-- The stored form of a field. -/
def fieldForm (f : FieldEntry) : List UInt8 :=
  textForm f.name ++ (Word.ofInt32 f.tag ++ Word.ofInt32 f.dims)

/-- The stored form of a type. -/
def typeForm (t : TypeEntry) : List UInt8 :=
  Word.ofInt32 t.tag ++ (textForm t.name ++ (lengthWord t.fields.length ++
    t.fields.flatMap fieldForm))

namespace TypeEntry

/-- Whether the names and the number of fields of a type can be stored. -/
structure Storable (t : TypeEntry) : Prop where
  name : Utf8.size t.name ≤ maxLength
  count : t.fields.length ≤ maxLength
  fields : ∀ f ∈ t.fields, Utf8.size f.name ≤ maxLength

end TypeEntry

namespace Dictionary

/-- The stored form of a dictionary. -/
def headerForm (d : Dictionary) : List UInt8 :=
  lengthWord d.types.size ++ d.types.toList.flatMap typeForm

/-- Whether the names and the numbers of fields in a dictionary can be stored. -/
def Storable (d : Dictionary) : Prop :=
  ∀ t ∈ d.types.toList, t.Storable

/-! ### Writing -/

/-- A field is stored exactly if its name is. -/
theorem fieldBytes_eq_ok_iff {f : FieldEntry} {bs : List UInt8} :
    fieldBytes f = .ok bs ↔ Utf8.size f.name ≤ maxLength ∧ bs = fieldForm f := by
  unfold fieldBytes fieldForm
  simp only [bind_eq_ok_iff, textBytes_eq_ok_iff]
  constructor
  · rintro ⟨_, ⟨hname, rfl⟩, h⟩
    cases h
    exact ⟨hname, List.append_assoc _ _ _⟩
  · rintro ⟨hname, rfl⟩
    exact ⟨_, ⟨hname, rfl⟩, congrArg Except.ok (List.append_assoc _ _ _)⟩

/-- A type is stored exactly if its names and the number of its fields are. -/
theorem typeBytes_eq_ok_iff {t : TypeEntry} {bs : List UInt8} :
    typeBytes t = .ok bs ↔ t.Storable ∧ bs = typeForm t := by
  unfold typeBytes typeForm
  simp only [bind_eq_ok_iff, textBytes_eq_ok_iff, lengthBytes_eq_ok_iff,
    mapM_eq_ok_iff fun _ _ ↦ fieldBytes_eq_ok_iff]
  constructor
  · rintro ⟨_, ⟨hname, rfl⟩, _, ⟨hcount, rfl⟩, _, ⟨hfields, rfl⟩, h⟩
    cases h
    exact ⟨⟨hname, hcount, hfields⟩, by simp [List.flatMap_def]⟩
  · rintro ⟨⟨hname, hcount, hfields⟩, rfl⟩
    refine ⟨_, ⟨hname, rfl⟩, _, ⟨hcount, rfl⟩, _, ⟨hfields, rfl⟩, congrArg Except.ok ?_⟩
    simp [List.flatMap_def]

/-- **The writer of dictionaries** fails only for lengths that cannot be stored. -/
theorem headerBytes_eq_ok_iff {d : Dictionary} {bs : List UInt8} :
    d.headerBytes = .ok bs ↔ d.types.size ≤ maxLength ∧ d.Storable ∧ bs = d.headerForm := by
  unfold headerBytes headerForm
  simp only [bind_eq_ok_iff, lengthBytes_eq_ok_iff, mapM_eq_ok_iff fun _ _ ↦ typeBytes_eq_ok_iff]
  constructor
  · rintro ⟨_, ⟨hcount, rfl⟩, _, ⟨htypes, rfl⟩, h⟩
    cases h
    exact ⟨hcount, htypes, by rw [List.flatMap_def]⟩
  · rintro ⟨hcount, htypes, rfl⟩
    refine ⟨_, ⟨hcount, rfl⟩, _, ⟨htypes, rfl⟩, congrArg Except.ok ?_⟩
    rw [List.flatMap_def]

/-! ### Dictionaries as lists of types -/

/-- A dictionary with one more type. -/
def push (d : Dictionary) (t : TypeEntry) : Dictionary :=
  ⟨d.types.push t, max d.lastTag t.tag⟩

/-- The dictionary of a list of types. -/
def ofTypes (ts : List TypeEntry) : Dictionary :=
  ts.foldl push empty

theorem toList_foldl_push (ts : List TypeEntry) (d : Dictionary) :
    (ts.foldl push d).types.toList = d.types.toList ++ ts := by
  induction ts generalizing d with
  | nil => simp
  | cons t ts ih => rw [List.foldl_cons, ih, push, Array.toList_push, ← List.append_cons]

@[simp] theorem toList_ofTypes (ts : List TypeEntry) : (ofTypes ts).types.toList = ts :=
  toList_foldl_push ts empty

theorem ofTypes_snoc (ts : List TypeEntry) (t : TypeEntry) :
    ofTypes (ts ++ [t]) = (ofTypes ts).push t := by
  rw [ofTypes, List.foldl_append]
  rfl

end Dictionary

namespace Ordered

/-- Types are in order exactly if those before are and the last one follows them. -/
theorem snoc_iff {earlier : List TypeEntry} {t : TypeEntry} :
    Ordered (earlier ++ [t]) ↔ Ordered earlier ∧ t.Follows earlier := by
  constructor
  · intro h
    generalize hts : earlier ++ [t] = ts at h
    cases h with
    | nil => simp at hts
    | snoc ordered follows =>
      obtain ⟨rfl, ht⟩ := List.append_inj' hts rfl
      cases ht
      exact ⟨ordered, follows⟩
  · rintro ⟨ordered, follows⟩
    exact ordered.snoc follows

/-- What comes after does not matter. -/
theorem of_append {as bs : List TypeEntry} (h : Ordered (as ++ bs)) : Ordered as := by
  induction bs generalizing as with
  | nil => rwa [List.append_nil] at h
  | cons b bs ih =>
    rw [List.append_cons] at h
    exact (snoc_iff.1 (ih h)).1

/-- Each type follows those before it. -/
theorem follows {earlier later : List TypeEntry} {t : TypeEntry}
    (h : Ordered (earlier ++ t :: later)) : t.Follows earlier := by
  rw [List.append_cons] at h
  exact (snoc_iff.1 h.of_append).2

end Ordered

namespace Decoder

open Dictionary

/-! ### Reading what was written -/

/-- A tag is known if a type has it. -/
theorem hasTag_iff {d : Dictionary} {tag : Tag} :
    d.hasTag tag = true ↔ ∃ t ∈ d.types.toList, t.tag = tag := by
  rw [hasTag, ← Array.any_toList, List.any_eq_true]
  simp

/-- A name is known if a type has it. -/
theorem isSome_tagFor?_iff {d : Dictionary} {name : String} :
    (d.tagFor? name).isSome = true ↔ ∃ t ∈ d.types.toList, t.name = name := by
  rw [tagFor?, Option.isSome_map, ← Array.find?_toList, List.find?_isSome]
  simp

/-- The fields of a type are long enough for their number. -/
theorem length_mul_minFieldWidth_le (fields : List FieldEntry) :
    fields.length * minFieldWidth ≤ (fields.flatMap fieldForm).length :=
  length_mul_le_length_flatMap fun f _ ↦ by
    simp only [fieldForm, textForm, minFieldWidth, List.length_append, length_lengthWord,
      Word.length_ofInt32]
    omega

/-- Types are long enough for their number. -/
theorem length_mul_minTypeWidth_le (ts : List TypeEntry) :
    ts.length * minTypeWidth ≤ (ts.flatMap typeForm).length :=
  length_mul_le_length_flatMap fun t _ ↦ by
    simp only [typeForm, textForm, minTypeWidth, List.length_append, length_lengthWord,
      Word.length_ofInt32]
    omega

/-- A field is read back where its type is known. -/
theorem reads_field {d : Dictionary} (owner : String) {f : FieldEntry}
    (hknown : f.Known d.types.toList) (hname : Utf8.size f.name ≤ maxLength) :
    Reads (readField d owner) (fieldForm f) f := by
  have hdims : ¬(f.dims < 0 ∨ maxDimensions < f.dims.toNatClampNeg) := by
    rw [not_or, Int32.not_lt, Nat.not_lt]
    exact ⟨hknown.dims_nonneg, hknown.dims_le⟩
  have htag : (!Tag.isPrimitive f.tag && !d.hasTag f.tag) = false := by
    rcases hknown.tag with h | h
    · rw [h]
      rfl
    · rw [hasTag_iff.2 h, Bool.not_true, Bool.and_false]
  refine (reads_text hname).bind ((reads_int32 f.tag).bind ((reads_int32 f.dims).bind_nil ?_))
  rw [if_neg hdims, htag]
  exact reads_pure f

/-- **A type is read back** if it has no more fields than the limit, and is refused otherwise. -/
theorem readsWhen_type {d : Dictionary} {t : TypeEntry} (hfollows : t.Follows d.types.toList)
    (hstorable : t.Storable) :
    ReadsWhen (readType d) (t.fields.length ≤ maxFields) (typeForm t) (d.push t) := by
  have htag : ¬t.tag < firstCompositeTag := Int32.not_lt.2 hfollows.composite
  have hfresh : ((d.tagFor? t.name).isSome || d.hasTag t.tag) = false := by
    rw [Bool.or_eq_false_iff, ← Bool.not_eq_true, ← Bool.not_eq_true, isSome_tagFor?_iff,
      hasTag_iff]
    exact ⟨fun ⟨u, hu, h⟩ ↦ hfollows.name_ne u hu h, fun ⟨u, hu, h⟩ ↦ hfollows.tag_ne u hu h⟩
  refine (reads_int32 t.tag).bindWhen ?_
  rw [if_neg htag]
  refine (reads_text hstorable.name).bindWhen (ReadsWhen.count hstorable.count
    (length_mul_minFieldWidth_le t.fields) ?_)
  by_cases hcount : maxFields < t.fields.length
  · rw [if_pos hcount]
    exact ⟨fun h ↦ absurd hcount (Nat.not_lt.2 h), fun _ ↦ refuses_fail _ _⟩
  · rw [if_neg hcount]
    have hfields := reads_each fun f hf ↦
      reads_field t.name (hfollows.known f hf) (hstorable.fields f hf)
    rw [← times_length_eq_each, List.map_id'] at hfields
    refine Reads.readsWhen (hfields.bind_nil ?_) |>.congr (by simpa using hcount)
    rw [hfresh]
    exact reads_pure _

theorem readTypes_succ (n : Nat) (d : Dictionary) :
    readTypes (n + 1) d = readType d >>= readTypes n := by
  funext c
  rw [bind_apply]
  simp only [readTypes]
  cases readType d c <;> rfl

/-- By induction on the types: each is read with those before it known. -/
theorem readsWhen_types {ts : List TypeEntry} {d : Dictionary}
    (hordered : Ordered (d.types.toList ++ ts)) (hstorable : ∀ t ∈ ts, t.Storable) :
    ReadsWhen (readTypes ts.length d) (∀ t ∈ ts, t.fields.length ≤ maxFields)
      (ts.flatMap typeForm) (ts.foldl push d) := by
  induction ts generalizing d with
  | nil => exact (readsWhen_pure d).congr (by simp)
  | cons t ts ih =>
    have hpush : Ordered ((d.push t).types.toList ++ ts) := by
      rwa [push, Array.toList_push, ← List.append_cons]
    rw [List.length_cons, readTypes_succ, List.flatMap_cons, List.foldl_cons]
    refine ((readsWhen_type hordered.follows (hstorable t List.mem_cons_self)).bind
      (ih hpush fun u hu ↦ hstorable u (List.mem_cons_of_mem t hu))).congr ?_
    rw [List.forall_mem_cons]

/-- **Reading a dictionary section** gives the types back, if there are not too many of them and
none has too many fields. That the types are in order matters only in this case. -/
theorem readsWhen_header {d : Dictionary} (hcount : d.types.size ≤ maxLength)
    (hstorable : d.Storable) (hordered : d.types.size ≤ maxTypes → Ordered d.types.toList) :
    ReadsWhen readHeader
      (d.types.size ≤ maxTypes ∧ ∀ t ∈ d.types.toList, t.fields.length ≤ maxFields)
      d.headerForm (ofTypes d.types.toList) := by
  have hwidth : d.types.size * minTypeWidth ≤ (d.types.toList.flatMap typeForm).length := by
    rw [← Array.length_toList]
    exact length_mul_minTypeWidth_le _
  refine ReadsWhen.count hcount hwidth ?_
  by_cases hmany : maxTypes < d.types.size
  · rw [if_pos hmany]
    exact ⟨fun h ↦ absurd hmany (Nat.not_lt.2 h.1), fun _ ↦ refuses_fail _ _⟩
  · have hle : d.types.size ≤ maxTypes := Nat.not_lt.1 hmany
    rw [if_neg hmany, ← Array.length_toList]
    refine (readsWhen_types (d := empty) (hordered hle) hstorable).congr ?_
    rw [Array.length_toList, and_iff_right hle]

/-! ### Bytes from anywhere -/

/-- A field that was read from anywhere is of a known type, and stands there as it is stored. -/
theorem yields_field (d : Dictionary) (owner : String) :
    Yields (readField d owner) fun f bs ↦
      (f.Known d.types.toList ∧ Utf8.size f.name ≤ maxLength) ∧ bs = fieldForm f := by
  refine (yields_text.bind fun name _ _ ↦ yields_int32.bind fun tag _ _ ↦ yields_int32.bind
    (S := fun dims (f : FieldEntry) cs ↦
      f = ⟨name, tag, dims⟩ ∧ f.Known d.types.toList ∧ cs = [])
    fun dims _ _ ↦ ?_).mono ?_
  · split_ifs with hdims htag
    · exact yields_fail _ _
    · exact yields_fail _ _
    · refine (yields_pure _).mono ?_
      rintro f bs ⟨rfl, rfl⟩
      rw [not_or, Int32.not_lt, Nat.not_lt] at hdims
      refine ⟨rfl, ⟨hdims.1, hdims.2, ?_⟩, rfl⟩
      rw [Bool.and_eq_true, not_and_or, Bool.not_eq_true', Bool.not_eq_true', Bool.not_eq_false,
        Bool.not_eq_false, hasTag_iff] at htag
      exact htag
  · rintro f bs ⟨name, _, _, ⟨hname, rfl⟩, ⟨tag, _, _, rfl, ⟨dims, _, _, rfl,
      ⟨rfl, hknown, rfl⟩, rfl⟩, rfl⟩, rfl⟩
    exact ⟨⟨hknown, hname⟩, by rw [fieldForm, List.append_nil]⟩

/-- **A type that was read** follows the known ones and is added to them. -/
theorem yields_type (d : Dictionary) :
    Yields (readType d) fun d' bs ↦ ∃ t, t.Follows d.types.toList ∧ t.Storable ∧
      d' = d.push t ∧ bs = typeForm t := by
  -- what follows the tag has to be described with the tag still open, hence the relation `S`
  refine (yields_int32.bind (S := fun tag d' bs ↦ ∃ t : TypeEntry, t.tag = tag ∧
    t.Follows d.types.toList ∧ t.Storable ∧ d' = d.push t ∧ bs = textForm t.name ++
      (lengthWord t.fields.length ++ t.fields.flatMap fieldForm)) fun tag _ _ ↦ ?_).mono ?_
  · split
    · exact yields_fail _ _
    · rename_i htag
      refine (yields_text.bind fun name _ _ ↦ (yields_length minFieldWidth).bind
        (S := fun n d' cs ↦ ∃ fields : List FieldEntry, fields.length = n ∧
          (∀ f ∈ fields, Utf8.size f.name ≤ maxLength) ∧
          TypeEntry.Follows d.types.toList ⟨tag, name, fields⟩ ∧ d' = d.push ⟨tag, name, fields⟩ ∧
          cs = fields.flatMap fieldForm) fun n _ _ ↦ ?_).mono ?_
      · split
        · exact yields_fail _ _
        · refine ((yields_times_form (yields_field d name) n).bind
            (S := fun fields d' cs ↦ (∀ u ∈ d.types.toList, u.tag ≠ tag ∧ u.name ≠ name) ∧
              d' = d.push ⟨tag, name, fields⟩ ∧ cs = []) fun fields _ _ ↦ ?_).mono ?_
          · split
            · exact yields_fail _ _
            · rename_i hfresh
              refine (yields_pure _).mono ?_
              rintro d' bs ⟨rfl, rfl⟩
              rw [Bool.or_eq_true, not_or, isSome_tagFor?_iff, hasTag_iff] at hfresh
              exact ⟨fun u hu ↦ ⟨fun h ↦ hfresh.2 ⟨u, hu, h⟩, fun h ↦ hfresh.1 ⟨u, hu, h⟩⟩,
                rfl, rfl⟩
          · rintro d' bs ⟨fields, _, _, ⟨hlen, hfields, rfl⟩, ⟨hfresh, rfl, rfl⟩, rfl⟩
            exact ⟨fields, hlen, fun f hf ↦ (hfields f hf).2,
              ⟨Int32.not_lt.1 htag, fun u hu ↦ (hfresh u hu).1, fun u hu ↦ (hfresh u hu).2,
                fun f hf ↦ (hfields f hf).1⟩, rfl, List.append_nil _⟩
      · rintro d' bs ⟨name, _, _, ⟨hname, rfl⟩, ⟨n, _, _, ⟨hn, rfl⟩,
          ⟨fields, rfl, hfields, hfollows, rfl, rfl⟩, rfl⟩, rfl⟩
        exact ⟨⟨tag, name, fields⟩, rfl, hfollows, ⟨hname, hn, hfields⟩, rfl, rfl⟩
  · rintro d' bs ⟨tag, _, _, rfl, ⟨t, rfl, hfollows, hstorable, rfl, rfl⟩, rfl⟩
    exact ⟨t, hfollows, hstorable, rfl, rfl⟩

/-- By induction on the count: what was read is in order if what was known is. -/
theorem yields_types (n : Nat) (d : Dictionary) :
    Yields (readTypes n d) fun d' bs ↦ ∃ ts : List TypeEntry, ts.length = n ∧
      (∀ t ∈ ts, t.Storable) ∧ (Ordered d.types.toList → Ordered (d.types.toList ++ ts)) ∧
      d' = ts.foldl push d ∧ bs = ts.flatMap typeForm := by
  induction n generalizing d with
  | zero =>
    refine (yields_pure d).mono ?_
    rintro d' bs ⟨rfl, rfl⟩
    exact ⟨[], rfl, by simp, by simp, rfl, rfl⟩
  | succ n ih =>
    rw [readTypes_succ]
    refine ((yields_type d).bind fun d' _ _ ↦ ih d').mono ?_
    rintro d'' bs ⟨_, _, _, ⟨t, hfollows, hstorable, rfl, rfl⟩,
      ⟨ts, rfl, hts, hordered, rfl, rfl⟩, rfl⟩
    refine ⟨t :: ts, rfl, List.forall_mem_cons.2 ⟨hstorable, hts⟩, fun h ↦ ?_, rfl, rfl⟩
    rw [List.append_cons]
    rw [push, Array.toList_push] at hordered
    exact hordered (h.snoc hfollows)

/-- **What is read as a dictionary** is in order and within the limits, and its stored form is the
only spelling of it. -/
theorem yields_header :
    Yields readHeader fun d bs ↦ Ordered d.types.toList ∧ d.Storable ∧ d.types.size ≤ maxTypes ∧
      bs = d.headerForm := by
  refine ((yields_length minTypeWidth).bind (S := fun n d cs ↦ d.types.size = n ∧
    Ordered d.types.toList ∧ d.Storable ∧ n ≤ maxTypes ∧ cs = d.types.toList.flatMap typeForm)
    fun n _ _ ↦ ?_).mono ?_
  · split
    · exact yields_fail _ _
    · rename_i hmany
      refine (yields_types n empty).mono ?_
      rintro d bs ⟨ts, rfl, hstorable, hordered, rfl, rfl⟩
      have hlist : (ts.foldl push empty).types.toList = ts := toList_ofTypes ts
      refine ⟨?_, ?_, ?_, Nat.not_lt.1 hmany, ?_⟩
      · rw [← Array.length_toList, hlist]
      · rw [hlist]
        exact hordered .nil
      · rw [Dictionary.Storable, hlist]
        exact hstorable
      · rw [hlist]
  · rintro d bs ⟨n, _, _, ⟨-, rfl⟩, ⟨rfl, hordered, hstorable, hmany, rfl⟩, rfl⟩
    exact ⟨hordered, hstorable, hmany, rfl⟩

end Decoder

end GraphCodec
