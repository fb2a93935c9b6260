import GraphCodec.Proofs.NodeCount

/-!
# Least widths

The reader computes for each type of a dictionary a least width, in one pass over the list. Here it
is shown to be what it is called: no value of the type is read from fewer bytes
(`Image.meets_readSlot`), and one is read from so many zero bytes (`Image.exists_reads_zeros`), so
that the width is the least of the sizes of values of the type (`Image.isLeast_sizes`). It is zero
exactly if these values take no bytes at all.

The sums over the fields grow exponentially with the depth of the types. In words of the machine
they are cut off at the greatest word, field by field, which gives the least width or the greatest
word, whichever is smaller (`Dictionary.minWidth_saturatedWidths`).
-/

namespace GraphCodec

namespace Decoder

open Image

variable {α γ : Type}

/-- Parts of at least some widths make up at least their sum. -/
theorem meets_each {read : γ → Decoder α} {width : γ → Nat} {xs : List γ}
    (h : ∀ x ∈ xs, Yields (read x) fun _ bs ↦ Meets (width x) bs) :
    Yields (each xs read) fun _ bs ↦ Meets (xs.map width).sum bs := by
  refine (yields_zip (List.forall₂_same.2 h)).mono ?_
  rintro as bs ⟨parts, hparts, rfl, rfl⟩
  exact meets_sum hparts.flip

theorem meets_times {read : Decoder α} {width : Nat}
    (h : Yields read fun _ bs ↦ Meets width bs) (n : Nat) :
    Yields (times n read) fun _ bs ↦ Meets (n * width) bs := by
  have heach := meets_each fun x (_ : x ∈ List.replicate n ()) ↦ h
  simp only [List.map_replicate, List.sum_replicate, smul_eq_mul] at heach
  rw [times_eq_each]
  exact heach

theorem meets_primitive (k : Kind) (inRecord : Bool) :
    Yields (primitive k inRecord) fun _ bs ↦ Meets k.minWidth bs :=
  (yields_primitive_minWidth k inRecord).mono fun _ _ h ↦
    .of_pos h.2 (by cases k <;> decide)

/-- A value of each kind is stored as zeros, as few as possible. -/
theorem exists_reads_primitive_zeros (k : Kind) (inRecord : Bool) :
    ∃ v, Reads (primitive k inRecord) (List.replicate k.minWidth 0) v := by
  have htext := reads_text (show Utf8.size "" ≤ maxLength by decide)
  cases k with
  | boolean => exact ⟨_, reads_boolean inRecord false⟩
  | byte => exact ⟨_, (reads_int8 0).map _⟩
  | char => exact ⟨_, (reads_uint8 0).map _⟩
  | short => exact ⟨_, (reads_int16 0).map _⟩
  | int => exact ⟨_, (reads_int32 0).map _⟩
  | long => exact ⟨_, (reads_int64 0).map _⟩
  | float => exact ⟨_, (reads_float 0).map _⟩
  | double => exact ⟨_, (reads_double 0).map _⟩
  | string => exact ⟨_, htext.map _⟩
  | enum => exact ⟨_, htext.map _⟩
  | date => exact ⟨_, reads_date_empty⟩

end Decoder

namespace Image

open Decoder Dictionary

variable {d : Dictionary}

/-! ### No value takes fewer bytes -/

/-- Looking up a type takes no bytes. -/
theorem yields_readType (d : Dictionary) (tag : Tag) : Yields (readType d tag) fun t bs ↦
    (t ∈ d.types.toList ∧ t.tag = tag) ∧ bs = [] := by
  unfold readType
  rcases hdescriptor : d.descriptor? tag with _ | u
  · exact yields_fail _ _
  · refine (yields_pure u).mono ?_
    rintro t bs ⟨rfl, rfl⟩
    exact ⟨mem_of_descriptor?_eq_some hdescriptor, rfl⟩

/-- **The reader of slots** takes at least the least width, and nothing if this is zero. -/
theorem meets_readSlot (h : Ordered d.types.toList) (levels : Nat) :
    ∀ {tag dims inRecord}, Yields (readSlot d d.widths levels tag dims inRecord) fun _ bs ↦
      Meets (slotWidth d.widths tag dims) bs := by
  have hprimitive : ∀ {tag k inRecord}, Kind.ofTag? tag = some k →
      Yields (primitive k inRecord) fun _ bs ↦ Meets (slotWidth d.widths tag 0) bs := by
    intro tag k inRecord hk
    rw [slotWidth, if_pos rfl, minWidth, hk]
    exact meets_primitive k inRecord
  induction levels with
  | zero =>
    intro tag dims inRecord
    rcases dims with _ | dims
    · rw [readSlot]
      rcases hk : Kind.ofTag? tag with _ | k
      · exact ((returns_readType d tag).bind fun t _ ↦ returns_fail _ fun _ ↦ False).mono
          fun _ _ h ↦ h.elim
      · exact hprimitive hk
    · rw [readSlot]
      exact yields_fail _ _
  | succ levels ih =>
    intro tag dims inRecord
    rcases dims with _ | dims
    · rw [readSlot]
      rcases hk : Kind.ofTag? tag with _ | k
      · have hfields : ∀ t : TypeEntry, Yields (readFields d levels t) fun _ bs ↦
            Meets (t.fields.map (fieldWidth d.widths)).sum bs := by
          refine fun t ↦ meets_each fun f _ ↦ (ih.map fun v ↦ (f.name, v)).mono ?_
          rintro part bs ⟨v, hv, rfl⟩
          rwa [fieldWidth_eq_of_slot]
        refine ((yields_readType d tag).bind fun t _ _ ↦
          (hfields t).map (Value.record t.name)).mono ?_
        rintro v bs ⟨t, _, cs, ⟨⟨ht, rfl⟩, rfl⟩, ⟨fields, hmeets, rfl⟩, rfl⟩
        rwa [slotWidth, if_pos rfl, h.minWidth_eq ht]
      · exact hprimitive hk
    · rw [readSlot]
      refine ((yields_readCount tag _).bind (S := fun _ _ _ ↦ True) fun n _ _ ↦
        ((meets_times ih n).map Value.array).mono fun _ _ _ ↦ trivial).mono ?_
      rintro v bs ⟨n, as, cs, ⟨-, rfl⟩, -, rfl⟩
      rw [slotWidth, if_neg (Nat.succ_ne_zero dims)]
      refine .of_pos ?_ (by decide)
      rw [List.length_append, length_lengthWord]
      exact Nat.le_add_right 4 _

/-! ### One value takes no more -/

theorem flatMap_zeros {α : Type} (width : α → Nat) (xs : List α) :
    xs.flatMap (fun x ↦ List.replicate (width x) (0 : UInt8)) =
      List.replicate (xs.map width).sum 0 := by
  induction xs with
  | nil => rfl
  | cons x xs ih =>
    rw [List.flatMap_cons, ih, List.map_cons, List.sum_cons, List.replicate_add]

/-- An array without items is stored as a count alone. -/
theorem reads_array_zeros (levels : Nat) (tag : Tag) (dims : Nat) (inRecord : Bool) :
    Reads (readSlot d d.widths (levels + 1) tag (dims + 1) inRecord) (List.replicate 4 0)
      (.array []) := by
  have hmany : ¬(slotWidth d.widths tag dims = 0 ∧ maxWeightless < 0) :=
    fun h ↦ Nat.not_lt_zero _ h.2
  have hread : Reads (readSlot d d.widths (levels + 1) tag (dims + 1) inRecord)
      (lengthWord 0 ++ []) (.array []) := by
    rw [readSlot_array]
    refine Reads.count (Nat.zero_le _) (by rw [Nat.zero_mul]; exact Nat.zero_le _) ?_
    rw [if_neg hmany, pure_bind]
    exact (reads_pure []).map Value.array
  exact hread

/-- **Zeros** are a value of each type, as many as its least width: numbers are zero, texts and
arrays are empty. With more levels than there are types, it is not too deep. -/
theorem exists_reads_zeros (h : Ordered d.types.toList) {earlier : List TypeEntry}
    (hearlier : Ordered earlier) (hsub : earlier ⊆ d.types.toList) {t : TypeEntry}
    (ht : t ∈ earlier) {levels : Nat} (hlevels : earlier.length < levels) (inRecord : Bool) :
    ∃ v, Reads (readSlot d d.widths levels t.tag 0 inRecord)
      (List.replicate (minWidth d.widths t.tag) 0) v := by
  induction hearlier generalizing t levels inRecord with
  | nil => cases ht
  | @snoc earlier u _ follows ih =>
    rw [List.length_append, List.length_singleton] at hlevels
    have hbefore : earlier ⊆ d.types.toList := fun v hv ↦ hsub (List.mem_append_left _ hv)
    rcases List.mem_append.1 ht with ht | ht
    · exact ih hbefore ht (Nat.lt_of_succ_lt hlevels) inRecord
    obtain rfl := List.mem_singleton.1 ht
    have hmem : t ∈ d.types.toList := hsub (List.mem_append_right _ (List.mem_singleton_self t))
    obtain ⟨levels, rfl⟩ : ∃ m, levels = m + 1 := Nat.exists_eq_succ_of_ne_zero (by omega)
    -- the fields are of kinds, or arrays, or of types before this one
    have hfield : ∀ f ∈ t.fields, ∃ v, Reads
        (readSlot d d.widths levels f.tag f.dims.toNatClampNeg true)
        (List.replicate (fieldWidth d.widths f) 0) v := by
      intro f hf
      rw [fieldWidth_eq_of_slot]
      rcases f.dims.toNatClampNeg with _ | dims
      · rw [slotWidth, if_pos rfl]
        rcases (follows.known f hf).tag with hprimitive | ⟨v, hv, htag⟩
        · obtain ⟨k, hk⟩ := Tag.exists_of_isPrimitive hprimitive
          obtain ⟨v, hv⟩ := exists_reads_primitive_zeros k true
          refine ⟨v, ?_⟩
          rw [minWidth, readSlot, hk]
          exact hv
        · rw [← htag]
          exact ih hbefore hv (Nat.lt_of_succ_lt_succ hlevels) true
      · rw [slotWidth, if_neg (Nat.succ_ne_zero dims)]
        obtain ⟨levels, rfl⟩ : ∃ m, levels = m + 1 := Nat.exists_eq_succ_of_ne_zero (by omega)
        exact ⟨_, reads_array_zeros levels f.tag dims true⟩
    choose! value hvalue using hfield
    have hfields := (reads_each fun f hf ↦ (hvalue f hf).map fun v ↦ (f.name, v)).map
      (Value.record t.name)
    rw [flatMap_zeros, ← h.minWidth_eq hmem] at hfields
    rw [readSlot_record h hmem]
    exact ⟨_, hfields⟩

/-! ### Sizes of values -/

/-- The numbers of bytes from which values of a type are read. -/
def sizes (d : Dictionary) (t : TypeEntry) : Set Nat :=
  {n | ∃ levels inRecord c v c',
    readSlot d d.widths levels t.tag 0 inRecord c = .ok (v, c') ∧ c'.position = c.position + n}

theorem exists_meets_of_mem_sizes (h : Ordered d.types.toList) {t : TypeEntry} {n : Nat}
    (hn : n ∈ sizes d t) :
    ∃ bs : List UInt8, bs.length = n ∧ Meets (minWidth d.widths t.tag) bs := by
  obtain ⟨levels, inRecord, c, v, c', hread, hposition⟩ := hn
  obtain ⟨bs, hmeets, -, hposition'⟩ := meets_readSlot h levels hread
  rw [slotWidth, if_pos rfl] at hmeets
  exact ⟨bs, by omega, hmeets⟩

/-- **The least width of a type** is the least size of its values. -/
theorem isLeast_sizes (h : Ordered d.types.toList) {t : TypeEntry} (ht : t ∈ d.types.toList) :
    IsLeast (sizes d t) (minWidth d.widths t.tag) := by
  refine ⟨?_, fun n hn ↦ ?_⟩
  · obtain ⟨v, hv⟩ := exists_reads_zeros h h (fun _ hu ↦ hu) ht (Nat.lt_succ_self _) true
    refine ⟨_, true, _, v, _, hv [] 0, ?_⟩
    rw [List.length_replicate]
    rfl
  · obtain ⟨bs, rfl, hmeets⟩ := exists_meets_of_mem_sizes h hn
    exact hmeets.1

/-- It is zero if and only if values of the type take no bytes. -/
theorem minWidth_eq_zero_iff (h : Ordered d.types.toList) {t : TypeEntry}
    (ht : t ∈ d.types.toList) : minWidth d.widths t.tag = 0 ↔ sizes d t = {0} := by
  have hleast := isLeast_sizes h ht
  constructor
  · intro hzero
    refine Set.eq_singleton_iff_unique_mem.2 ⟨hzero ▸ hleast.1, fun n hn ↦ ?_⟩
    obtain ⟨bs, rfl, hmeets⟩ := exists_meets_of_mem_sizes h hn
    rw [hmeets.2 hzero, List.length_nil]
  · intro hsizes
    have hmem := hleast.1
    rw [hsizes] at hmem
    exact hmem

end Image

/-! ### Sums that are cut off -/

namespace Dictionary

/-- The least number of bytes of a type, given those of the types listed before, added up in words
of which `most` is the greatest. -/
def saturatedWidth (most : Nat) (known : List (Tag × Nat)) (t : TypeEntry) : Nat :=
  t.fields.foldl (fun sum f ↦ min (sum + fieldWidth known f) most) 0

/-- The least numbers of bytes of the types, in words of which `most` is the greatest. -/
def saturatedWidths (most : Nat) (d : Dictionary) : List (Tag × Nat) :=
  weightsOf (saturatedWidth most) d.types.toList

variable {d : Dictionary} {most : Nat}

theorem local_saturatedWidth (most : Nat) : Local (saturatedWidth most) := by
  intro known known' t h
  unfold saturatedWidth
  refine List.foldl_ext _ _ _ fun sum f hf ↦ ?_
  rw [fieldWidth, fieldWidth, h f hf]

/-- **Cutting off after each step** is cutting off once. -/
theorem foldl_saturated {α : Type} {width width' : α → Nat} {xs : List α}
    (h : ∀ x ∈ xs, min (width' x) most = min (width x) most) (n : Nat) :
    xs.foldl (fun sum x ↦ min (sum + width' x) most) (min n most) =
      min (n + (xs.map width).sum) most := by
  induction xs generalizing n with
  | nil => rfl
  | cons x xs ih =>
    have hx := h x List.mem_cons_self
    have hstep : min (min n most + width' x) most = min (n + width x) most := by omega
    rw [List.foldl_cons, hstep, ih fun y hy ↦ h y (List.mem_cons_of_mem x hy), List.map_cons,
      List.sum_cons, Nat.add_assoc]

/-- The width of a type is cut off. -/
theorem minWidth_saturated (h : Ordered d.types.toList) {earlier : List TypeEntry}
    (hearlier : Ordered earlier) (hsub : earlier ⊆ d.types.toList) {t : TypeEntry}
    (ht : t ∈ earlier) : Image.minWidth (d.saturatedWidths most) t.tag =
      min (Image.minWidth d.widths t.tag) most := by
  induction hearlier generalizing t with
  | nil => cases ht
  | @snoc earlier u _ follows ih =>
    have hbefore : earlier ⊆ d.types.toList := fun v hv ↦ hsub (List.mem_append_left _ hv)
    rcases List.mem_append.1 ht with ht | ht
    · exact ih hbefore ht
    obtain rfl := List.mem_singleton.1 ht
    have hmem : t ∈ d.types.toList := hsub (List.mem_append_right _ (List.mem_singleton_self t))
    -- fields are of earlier types, whose widths are cut off by induction
    have hfields : ∀ f ∈ t.fields, min (fieldWidth (d.saturatedWidths most) f) most =
        min (fieldWidth d.widths f) most := by
      intro f hf
      rw [fieldWidth_eq, fieldWidth_eq]
      split
      · rfl
      rcases (follows.known f hf).tag with hprimitive | ⟨v, hv, htag⟩
      · obtain ⟨k, hk⟩ := Tag.exists_of_isPrimitive hprimitive
        rw [Image.minWidth, Image.minWidth, hk]
      · rw [← htag, ih hbefore hv, Nat.min_assoc, Nat.min_self]
    have hfold := foldl_saturated hfields 0
    rw [Nat.zero_min, Nat.zero_add, ← h.minWidth_eq hmem] at hfold
    rw [Image.minWidth, Kind.ofTag?_eq_none (h.composite hmem), saturatedWidths,
      h.lookup_weightsOf (local_saturatedWidth most) hmem]
    exact hfold

/-- What is found for the tag of a type is its width. -/
theorem lookup_weightsOf_eq_minWidth {weight : List (Tag × Nat) → TypeEntry → Nat}
    (hweight : Local weight) (h : Ordered d.types.toList) {t : TypeEntry}
    (ht : t ∈ d.types.toList) : (weightsOf weight d.types.toList).lookup t.tag =
      some (Image.minWidth (weightsOf weight d.types.toList) t.tag) := by
  rw [Image.minWidth, Kind.ofTag?_eq_none (h.composite ht), h.lookup_weightsOf hweight ht]
  rfl

theorem lookup_weightsOf_eq_none {weight : List (Tag × Nat) → TypeEntry → Nat}
    {ts : List TypeEntry} {tag : Tag} (h : ∀ t ∈ ts, t.tag ≠ tag) :
    (weightsOf weight ts).lookup tag = none := by
  induction ts using List.reverseRecOn with
  | nil => rfl
  | append_singleton ts t ih =>
    have hne : (tag == t.tag) = false :=
      beq_eq_false_iff_ne.2 (h t (List.mem_append_right _ (List.mem_singleton_self t))).symm
    rw [weightsOf_snoc, List.lookup_cons, hne]
    exact ih fun u hu ↦ h u (List.mem_append_left _ hu)

/-- **Widths that are cut off** are no greater than those that are not, and zero for the same
tags. -/
theorem minWidth_saturatedWidths (h : Ordered d.types.toList) (hmost : 0 < most) (tag : Tag) :
    Image.minWidth (d.saturatedWidths most) tag ≤ Image.minWidth d.widths tag ∧
      (Image.minWidth (d.saturatedWidths most) tag = 0 ↔ Image.minWidth d.widths tag = 0) := by
  by_cases hlisted : ∃ t ∈ d.types.toList, t.tag = tag
  · obtain ⟨t, ht, rfl⟩ := hlisted
    rw [minWidth_saturated h h (fun _ hu ↦ hu) ht]
    omega
  · have hnone : ∀ weight, (weightsOf weight d.types.toList).lookup tag = none :=
      fun weight ↦ lookup_weightsOf_eq_none fun t ht htag ↦ hlisted ⟨t, ht, htag⟩
    have hsame : Image.minWidth (d.saturatedWidths most) tag = Image.minWidth d.widths tag := by
      rw [Image.minWidth, Image.minWidth, saturatedWidths, widths_eq_weightsOf, hnone, hnone]
    rw [hsame]
    exact ⟨Nat.le_refl _, Iff.rfl⟩

end Dictionary

end GraphCodec
