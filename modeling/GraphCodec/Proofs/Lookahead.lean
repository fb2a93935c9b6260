import GraphCodec.Proofs.LeastWidth

/-!
# Counts that do not look ahead

A count is refused at once if the bytes that are left cannot hold so many elements. The reader loses
nothing by this. To say so, it is written once more with the reading of counts as a parameter
(`Counting`): for `Counting.exact` it is the reader itself, `Counting.unchecked` only tests the sign
of a count, and `Counting.saturating` multiplies and adds in machine words.

Where a decoder succeeds in one of these versions it succeeds in the others, with the same result
(`Decoder.Agrees`). What is to be shown is that the look ahead refuses nothing that can be read: if
the elements of a count were read, there were as many bytes as their least widths demand
(`Counting.Lenient.agrees_count`).
-/

namespace GraphCodec

open Image

/-- A way to read counts. -/
structure Counting where
  /-- The number of elements that take at least `width` bytes each. -/
  length : (width : Nat) → Decoder Nat
  /-- The least widths of the types of a dictionary. -/
  widths : Dictionary → List (Tag × Nat)

namespace Counting

/-- Counts are compared with the bytes that are left. -/
def exact : Counting :=
  ⟨Decoder.length, Dictionary.widths⟩

/-- A count, whatever is left. -/
def anyLength : Decoder Nat := do
  let n ← Decoder.int32
  if n < 0 then Decoder.fail (.negativeLength n)
  else return n.toNatClampNeg

/-- Counts are not compared with anything. -/
def unchecked : Counting :=
  ⟨fun _ ↦ anyLength, Dictionary.widths⟩

/-- A count `n` of elements that take at least `needed n` bytes together. -/
def lengthWithin (needed : Nat → Nat) : Decoder Nat := do
  let n ← Decoder.int32
  if n < 0 then Decoder.fail (.negativeLength n)
  else
    let left ← Decoder.remaining
    if left < needed n.toNatClampNeg then
      Decoder.fail (.lengthBeyondInput n.toNatClampNeg left)
    else return n.toNatClampNeg

/-- Counts are compared with the bytes that are left, in words of which `most` is the greatest. -/
def saturating (most : Nat) : Counting :=
  ⟨fun width ↦ lengthWithin fun n ↦ min (n * width) most, Dictionary.saturatedWidths most⟩

/-! ### The reader -/

variable (r : Counting)

def text : Decoder String := do
  let n ← r.length 1
  let bs ← Decoder.take "string" n
  match Utf8.decode bs with
  | .ok s => return s
  | .error e => Decoder.fail (.notUtf8 e)

def date : Decoder Value := do
  let s ← r.text
  if s = "" then return .null
  else
    match Rfc3339.parse s with
    | .ok d => return .date d
    | .error e => Decoder.fail (.invalidDate s e)

def primitive (k : Kind) (sentinels : Bool) : Decoder Value :=
  match k with
  | .string => return .string (← r.text)
  | .enum => return .enum (← r.text)
  | .date => r.date
  | k => Decoder.primitive k sentinels

def readField (known : Dictionary) (owner : String) : Decoder FieldEntry := do
  let name ← r.text
  let tag ← Decoder.int32
  let dims ← Decoder.int32
  if dims < 0 ∨ maxDimensions < dims.toNatClampNeg then
    Decoder.fail (.invalidDimensions owner name dims)
  else if !Tag.isPrimitive tag && !known.hasTag tag then
    Decoder.fail (.unknownFieldTag owner name tag)
  else return ⟨name, tag, dims⟩

def readType (known : Dictionary) : Decoder Dictionary := do
  let tag ← Decoder.int32
  if tag < firstCompositeTag then Decoder.fail (.reservedTag tag)
  else
    let name ← r.text
    let count ← r.length Dictionary.minFieldWidth
    if maxFields < count then Decoder.fail (.tooManyFields name count)
    else
      let fields ← Decoder.times count (r.readField known name)
      if (known.tagFor? name).isSome || known.hasTag tag then
        Decoder.fail (.duplicateType name tag)
      else
        return { types := known.types.push ⟨tag, name, fields⟩, lastTag := max known.lastTag tag }

def readTypes : (n : Nat) → (known : Dictionary) → Decoder Dictionary
  | 0, known => pure known
  | n + 1, known => r.readType known >>= readTypes n

def readHeader : Decoder Dictionary := do
  let count ← r.length Dictionary.minTypeWidth
  if maxTypes < count then Decoder.fail (.tooManyTypes count)
  else r.readTypes count Dictionary.empty

def readCount (tag : Tag) (width : Nat) : Decoder Nat := do
  let count ← r.length width
  if width = 0 ∧ maxWeightless < count then Decoder.fail (.tooManyWeightless count tag)
  else return count

def readSlot (d : Dictionary) (levels : Nat) (tag : Tag) (dims : Nat) (inRecord : Bool) :
    Decoder Value :=
  match dims with
  | 0 =>
    match Kind.ofTag? tag with
    | some k => r.primitive k inRecord
    | none => do
      let t ← Image.readType d tag
      match levels with
      | 0 => Decoder.fail .nestedTooDeep
      | levels + 1 =>
        let fields ← Decoder.each t.fields fun f ↦ do
          return (f.name, ← readSlot d levels f.tag f.dims.toNatClampNeg true)
        return .record t.name fields
  | dims + 1 =>
    match levels with
    | 0 => Decoder.fail .nestedTooDeep
    | levels + 1 => do
      let count ← r.readCount tag (slotWidth (r.widths d) tag dims)
      let items ← Decoder.times count (readSlot d levels tag dims false)
      return .array items

def readRoot (d : Dictionary) (t : TypeEntry) : Decoder Record := do
  let fields ← Decoder.each t.fields fun f ↦ do
    return (f.name, ← r.readSlot d maxNesting f.tag f.dims.toNatClampNeg true)
  return ⟨t.name, fields⟩

def readContent : Decoder Content := do
  let found ← Decoder.int32
  if found ≠ magic then Decoder.fail (.badMagic found)
  else
    let d ← r.readHeader
    let rootTag ← Decoder.int32
    let t ← Image.readType d rootTag
    let root ← r.readRoot d t
    return ⟨d, root⟩

/-- Read a complete image. -/
def decode (bs : List UInt8) : Except Fault Content := do
  let (content, rest) ← r.readContent (Cursor.ofBytes bs)
  if rest.remaining = 0 then return content
  else throw (.data (.trailingBytes rest.remaining))

/-! ### The reader itself -/

/-- The reader of primitives with exact counts is the reader of primitives. -/
theorem primitive_exact (k : Kind) (sentinels : Bool) :
    exact.primitive k sentinels = Decoder.primitive k sentinels := by
  cases k <;> rfl

/-- Types are read one after the other in both. -/
theorem readTypes_exact (n : Nat) (known : Dictionary) :
    exact.readTypes n known = Dictionary.readTypes n known := by
  induction n generalizing known with
  | zero => rfl
  | succ n ih =>
    rw [readTypes, Decoder.readTypes_succ, funext ih]
    rfl

/-- So is the section. -/
theorem readHeader_exact : exact.readHeader = Dictionary.readHeader := by
  rw [readHeader]
  simp only [readTypes_exact]
  rfl

/-- **Slots are read alike** with exact counts, by the recursion of the reader. -/
theorem readSlot_exact (d : Dictionary) (levels : Nat) (tag : Tag) (dims : Nat) (inRecord : Bool) :
    exact.readSlot d levels tag dims inRecord =
      Image.readSlot d d.widths levels tag dims inRecord := by
  induction levels generalizing tag dims inRecord with
  | zero =>
    rcases dims with _ | dims
    · rw [readSlot, Image.readSlot]
      rcases Kind.ofTag? tag with _ | k
      · rfl
      · exact primitive_exact k inRecord
    · rw [readSlot, Image.readSlot]
  | succ levels ih =>
    rcases dims with _ | dims
    · rw [readSlot, Image.readSlot]
      rcases Kind.ofTag? tag with _ | k
      · simp only [ih]
      · exact primitive_exact k inRecord
    · rw [readSlot, Image.readSlot]
      simp only [ih]
      rfl

/-- **Without a change to the counts**, this is the reader. -/
theorem decode_exact (bs : List UInt8) : exact.decode bs = Image.decode bs := by
  have hslot : ∀ d tag dims, exact.readSlot d maxNesting tag dims true =
      Image.readSlot d d.widths maxNesting tag dims true :=
    fun d tag dims ↦ readSlot_exact d maxNesting tag dims true
  have hcontent : exact.readContent = Image.readContent := by
    rw [readContent, readHeader_exact]
    simp only [readRoot, hslot]
    rfl
  rw [decode, hcontent]
  rfl

end Counting

/-! ### Agreement -/

namespace Decoder

variable {α β γ : Type}

/-- Whether two decoders succeed in the same places, with the same results. -/
def Agrees (p q : Decoder α) : Prop :=
  ∀ c a c', p c = .ok (a, c') ↔ q c = .ok (a, c')

theorem Agrees.refl (p : Decoder α) : Agrees p p :=
  fun _ _ _ ↦ Iff.rfl

/-- **One after the other**: the second ones need to agree only on what the first ones return. -/
theorem Agrees.bind_of_returns {p q : Decoder α} {f g : α → Decoder β} {P : α → Prop}
    (hpq : Agrees p q) (hq : Returns q P) (hfg : ∀ a, P a → Agrees (f a) (g a)) :
    Agrees (p >>= f) (q >>= g) := by
  intro c b c'
  rw [bind_apply_eq_ok_iff, bind_apply_eq_ok_iff]
  refine exists₂_congr fun a d ↦ ?_
  rw [hpq c a d]
  refine and_congr_right fun hread ↦ ?_
  obtain ⟨_, ha, -⟩ := hq hread
  exact hfg a ha d b c'

/-- Parts that agree make decoders that agree. -/
theorem Agrees.bind {p q : Decoder α} {f g : α → Decoder β} (hpq : Agrees p q)
    (hfg : ∀ a, Agrees (f a) (g a)) : Agrees (p >>= f) (q >>= g) := by
  intro c b c'
  rw [bind_apply_eq_ok_iff, bind_apply_eq_ok_iff]
  exact exists₂_congr fun a d ↦ and_congr (hpq c a d) (hfg a d b c')

/-- A conversion at the end changes nothing. -/
theorem Agrees.map {p q : Decoder α} (hpq : Agrees p q) (f : α → β) :
    Agrees (p >>= fun a ↦ pure (f a)) (q >>= fun a ↦ pure (f a)) :=
  hpq.bind fun a ↦ .refl (pure (f a))

/-- Lists agree if their elements do. -/
theorem agrees_each {read read' : γ → Decoder α} (h : ∀ x, Agrees (read x) (read' x))
    (xs : List γ) : Agrees (each xs read) (each xs read') := by
  induction xs with
  | nil => exact .refl _
  | cons x xs ih =>
    rw [each_cons, each_cons]
    exact (h x).bind fun a ↦ ih.map (a :: ·)

theorem agrees_times {read read' : Decoder α} (h : Agrees read read') (n : Nat) :
    Agrees (times n read) (times n read') := by
  rw [times_eq_each, times_eq_each]
  exact agrees_each (fun _ ↦ h) _

theorem yields_fail_bind (e : DataFault) (f : α → Decoder β) (R : β → List UInt8 → Prop) :
    Yields (fail e >>= f) R := by
  intro c b c' h
  cases h

end Decoder

namespace Counting

open Decoder

/-- **A count that looks ahead** is a count in front of enough bytes. -/
theorem lengthWithin_apply_eq_ok_iff (needed : Nat → Nat) {n : Nat} {c c' : Cursor} :
    lengthWithin needed c = .ok (n, c') ↔ anyLength c = .ok (n, c') ∧ needed n ≤ c'.remaining := by
  rw [lengthWithin, anyLength, bind_apply_eq_ok_iff, bind_apply_eq_ok_iff, ← exists_and_right]
  refine exists_congr fun v ↦ ?_
  rw [← exists_and_right]
  refine exists_congr fun d ↦ ?_
  rw [and_assoc]
  refine and_congr_right fun _ ↦ ?_
  by_cases hsign : v < 0
  · rw [if_pos hsign, if_pos hsign]
    exact iff_of_false (fun h ↦ by cases h) fun h ↦ by cases h.1
  rw [if_neg hsign, if_neg hsign]
  show (if d.remaining < needed v.toNatClampNeg then _ else _ : Decoder Nat) d = _ ↔ _
  by_cases hleft : d.remaining < needed v.toNatClampNeg
  · rw [if_pos hleft]
    refine iff_of_false (fun h ↦ by cases h) fun h ↦ ?_
    cases h.1
    exact Nat.not_lt.2 h.2 hleft
  · rw [if_neg hleft]
    refine ⟨fun h ↦ ?_, And.left⟩
    cases h
    exact ⟨rfl, Nat.not_lt.1 hleft⟩

/-- A count succeeds exactly if it does without a look ahead and the bytes are there. -/
theorem length_apply_eq_ok_iff {width n : Nat} {c c' : Cursor} :
    Decoder.length width c = .ok (n, c') ↔
      anyLength c = .ok (n, c') ∧ n * width ≤ c'.remaining :=
  lengthWithin_apply_eq_ok_iff (· * width)

/-- Whether a way to read counts only refuses those for which there are too few bytes. -/
structure Lenient (r : Counting) : Prop where
  counts : ∀ {width n c c'}, r.length width c = .ok (n, c') → anyLength c = .ok (n, c')
  accepts : ∀ {width n c c'}, anyLength c = .ok (n, c') → n * width ≤ c'.remaining →
    r.length width c = .ok (n, c')
  minWidth_le : ∀ {d : Dictionary}, Ordered d.types.toList → ∀ tag,
    minWidth (r.widths d) tag ≤ minWidth d.widths tag
  minWidth_eq_zero_iff : ∀ {d : Dictionary}, Ordered d.types.toList → ∀ tag,
    minWidth (r.widths d) tag = 0 ↔ minWidth d.widths tag = 0

/-- Not to look ahead is lenient. -/
theorem lenient_unchecked : Lenient unchecked where
  counts h := h
  accepts h _ := h
  minWidth_le _ _ := Nat.le_refl _
  minWidth_eq_zero_iff _ _ := Iff.rfl

/-- To look ahead in machine words is lenient, because too great a product is only taken for less.
-/
theorem lenient_saturating {most : Nat} (hmost : 0 < most) : Lenient (saturating most) where
  counts {width _ _ _} h := ((lengthWithin_apply_eq_ok_iff fun n ↦ min (n * width) most).1 h).1
  accepts {width _ _ _} h hle := (lengthWithin_apply_eq_ok_iff fun n ↦ min (n * width) most).2
    ⟨h, Nat.le_trans (Nat.min_le_left _ _) hle⟩
  minWidth_le h tag := (Dictionary.minWidth_saturatedWidths h hmost tag).1
  minWidth_eq_zero_iff h tag := (Dictionary.minWidth_saturatedWidths h hmost tag).2

namespace Lenient

variable {r : Counting} (hr : r.Lenient)

include hr

/-- **A count and what it announces.** If the elements are read, each of them from `width` bytes or
more, then there were enough bytes, and the look ahead of the count was for nothing. -/
theorem agrees_count {β : Type} {f g : Nat → Decoder β} {width width' : Nat}
    (hwidth : width' ≤ width) (hfg : ∀ n, Agrees (f n) (g n))
    (hg : ∀ n, Yields (g n) fun _ bs ↦ n * width ≤ bs.length) :
    Agrees (r.length width' >>= f) (Decoder.length width >>= g) := by
  intro c b c'
  rw [bind_apply_eq_ok_iff, bind_apply_eq_ok_iff]
  refine exists₂_congr fun n d ↦ ?_
  rw [hfg n d b c', length_apply_eq_ok_iff]
  refine and_congr_left fun hread ↦ ?_
  obtain ⟨bs, hbs, hrest, -⟩ := hg n hread
  have hle : n * width ≤ d.remaining := by
    rw [d.remaining_eq, hrest, List.length_append]
    exact Nat.le_add_right_of_le hbs
  refine ⟨fun hlength ↦ ⟨hr.counts hlength, hle⟩, fun hlength ↦ hr.accepts hlength.1 ?_⟩
  exact Nat.le_trans (Nat.mul_le_mul_left n hwidth) hle

/-! ### Texts and primitives -/

/-- A text takes as many bytes as its count says. -/
theorem agrees_text : Agrees r.text Decoder.text := by
  refine hr.agrees_count (Nat.le_refl 1) (fun n ↦ .refl _) fun n ↦ ?_
  refine ((yields_take "string" n).bind (S := fun _ _ _ ↦ True) fun bs _ _ ↦ ?_).mono ?_
  · rcases Utf8.decode bs with e | s
    · exact yields_fail _ _
    · exact (yields_pure s).mono fun _ _ _ ↦ trivial
  -- the bytes that were taken are those that the count looks ahead to
  · rintro s bs ⟨_, as, cs, ⟨-, rfl⟩, -, rfl⟩
    rw [List.length_append, Nat.mul_one]
    exact Nat.le_add_right _ _

theorem agrees_date : Agrees r.date Decoder.date :=
  hr.agrees_text.bind fun _ ↦ .refl _

/-- Primitives agree. Only those with a text in them have counts. -/
theorem agrees_primitive (k : Kind) (sentinels : Bool) :
    Agrees (r.primitive k sentinels) (Decoder.primitive k sentinels) := by
  cases k with
  | string => exact hr.agrees_text.map Value.string
  | enum => exact hr.agrees_text.map Value.enum
  | date => exact hr.agrees_date
  | _ => exact .refl _

/-! ### The dictionary -/

theorem agrees_readField (known : Dictionary) (owner : String) :
    Agrees (r.readField known owner) (Dictionary.readField known owner) :=
  hr.agrees_text.bind fun _ ↦ .refl _

/-- A type agrees: each field takes at least the bytes that its count assumes. -/
theorem agrees_readType (known : Dictionary) :
    Agrees (r.readType known) (Dictionary.readType known) := by
  refine (Agrees.refl Decoder.int32).bind fun tag ↦ ?_
  split
  · exact .refl _
  refine hr.agrees_text.bind fun name ↦ hr.agrees_count (Nat.le_refl _) (fun n ↦ ?_) fun n ↦ ?_
  · split
    · exact .refl _
    · exact (agrees_times (hr.agrees_readField known name) n).bind fun _ ↦ .refl _
  · split
    · exact yields_fail _ _
    refine ((yields_times_form (yields_field known name) n).bind (S := fun _ _ _ ↦ True)
      fun fields _ _ ↦ ?_).mono ?_
    · split
      · exact yields_fail _ _
      · exact (yields_pure _).mono fun _ _ _ ↦ trivial
    · rintro d bs ⟨fields, _, cs, ⟨rfl, -, rfl⟩, -, rfl⟩
      rw [List.length_append]
      exact Nat.le_add_right_of_le (length_mul_minFieldWidth_le fields)

theorem agrees_readTypes (n : Nat) (known : Dictionary) :
    Agrees (r.readTypes n known) (Dictionary.readTypes n known) := by
  induction n generalizing known with
  | zero => exact .refl _
  | succ n ih =>
    rw [readTypes, readTypes_succ]
    exact (hr.agrees_readType known).bind ih

/-- The whole section agrees. -/
theorem agrees_readHeader : Agrees r.readHeader Dictionary.readHeader := by
  refine hr.agrees_count (Nat.le_refl _) (fun n ↦ ?_) fun n ↦ ?_
  · split
    · exact .refl _
    · exact hr.agrees_readTypes n Dictionary.empty
  · split
    · exact yields_fail _ _
    refine (yields_types n Dictionary.empty).mono ?_
    rintro d bs ⟨ts, rfl, -, -, -, rfl⟩
    exact length_mul_minTypeWidth_le ts

/-! ### The body -/

variable {d : Dictionary}

/-- Widths in machine words are no greater than the widths that they stand for. -/
theorem slotWidth_le (h : Ordered d.types.toList) (tag : Tag) (dims : Nat) :
    slotWidth (r.widths d) tag dims ≤ slotWidth d.widths tag dims := by
  rw [slotWidth, slotWidth]
  split
  · exact hr.minWidth_le h tag
  · exact Nat.le_refl 4

/-- And they are zero for the same slots, so the limit on items without bytes is the same. -/
theorem slotWidth_eq_zero_iff (h : Ordered d.types.toList) (tag : Tag) (dims : Nat) :
    slotWidth (r.widths d) tag dims = 0 ↔ slotWidth d.widths tag dims = 0 := by
  rw [slotWidth, slotWidth]
  split
  · exact hr.minWidth_eq_zero_iff h tag
  · exact Iff.rfl

/-- **The readers of slots** agree, by the levels that they may still enter: where items were read,
there were bytes for them. -/
theorem agrees_readSlot (h : Ordered d.types.toList) (levels : Nat) (tag : Tag) (dims : Nat)
    (inRecord : Bool) : Agrees (r.readSlot d levels tag dims inRecord)
      (Image.readSlot d d.widths levels tag dims inRecord) := by
  induction levels generalizing tag dims inRecord with
  | zero =>
    rcases dims with _ | dims
    · rw [readSlot, Image.readSlot]
      rcases Kind.ofTag? tag with _ | k
      · exact .refl _
      · exact hr.agrees_primitive k inRecord
    · rw [readSlot, Image.readSlot]
      exact .refl _
  | succ levels ih =>
    rcases dims with _ | dims
    · rw [readSlot, Image.readSlot]
      rcases Kind.ofTag? tag with _ | k
      · refine (Agrees.refl _).bind fun t ↦ Agrees.map ?_ _
        exact agrees_each (fun f ↦ (ih f.tag _ true).map fun v ↦ (f.name, v)) t.fields
      · exact hr.agrees_primitive k inRecord
    · rw [readSlot, readCount, bind_assoc, readSlot_array]
      refine hr.agrees_count (hr.slotWidth_le h tag dims) (fun n ↦ ?_) fun n ↦ ?_
      · simp only [hr.slotWidth_eq_zero_iff h tag dims]
        exact (Agrees.refl _).bind fun n ↦ (agrees_times (ih tag dims false) n).map Value.array
      · split
        · exact yields_fail_bind _ _ _
        · rw [pure_bind]
          refine ((meets_times (meets_readSlot h levels) n).map Value.array).mono ?_
          rintro v bs ⟨items, hmeets, -⟩
          exact hmeets.1

/-- **The content of an image** is read in all versions alike. -/
theorem agrees_readContent : Agrees r.readContent Image.readContent := by
  refine (Agrees.refl Decoder.int32).bind fun found ↦ ?_
  split
  · exact .refl _
  refine hr.agrees_readHeader.bind_of_returns returns_readHeader fun d hd ↦
    (Agrees.refl Decoder.int32).bind fun rootTag ↦ (Agrees.refl _).bind fun t ↦
      Agrees.map (Agrees.map ?_ _) _
  have hordered := Dictionary.ordered_of_wellFormed hd
  exact agrees_each (fun f ↦ (hr.agrees_readSlot hordered maxNesting f.tag _ true).map
    fun v ↦ (f.name, v)) t.fields

end Lenient

/-- An image is decoded if its content is read to the last byte, in each version. -/
theorem decode_apply_eq_ok_iff {r : Counting} {bs : List UInt8} {c : Content} :
    r.decode bs = .ok c ↔
      ∃ rest, r.readContent (Cursor.ofBytes bs) = .ok (c, rest) ∧ rest.remaining = 0 := by
  rw [decode, bind_eq_ok_iff]
  constructor
  · rintro ⟨⟨c', rest⟩, hread, h⟩
    by_cases hend : rest.remaining = 0
    · simp only [if_pos hend] at h
      cases h
      exact ⟨rest, hread, hend⟩
    · simp only [if_neg hend] at h
      cases h
  · rintro ⟨rest, hread, hend⟩
    exact ⟨_, hread, by simp only [if_pos hend]; rfl⟩

/-- **Leniency loses nothing**: a lenient way to read counts accepts the same images. -/
theorem Lenient.decode_iff {r : Counting} (hr : r.Lenient) (bs : List UInt8) (c : Content) :
    r.decode bs = .ok c ↔ Image.decode bs = .ok c := by
  rw [decode_apply_eq_ok_iff, Image.decode_eq_ok_iff]
  exact exists_congr fun rest ↦ and_congr_left fun _ ↦
    hr.agrees_readContent (Cursor.ofBytes bs) c rest

/-- **Refusing a count early** loses nothing. The reader accepts the same images, with the same
contents, if counts are not compared with the bytes that are left, or compared in machine words. For
each type of a dictionary that is read, its least width is the least size of its values. Cut off at
the greatest word it is still no greater than any of these sizes, and it is zero if and only if all
of them are. -/
theorem decode_iff_decode_unchecked :
    (∀ bs, exact.decode bs = Image.decode bs) ∧
    (∀ bs c, Image.decode bs = .ok c ↔ unchecked.decode bs = .ok c) ∧
    (∀ most, 0 < most → ∀ bs c, Image.decode bs = .ok c ↔ (saturating most).decode bs = .ok c) ∧
    ∀ c d c', Dictionary.readHeader c = .ok (d, c') → ∀ t ∈ d.types.toList, ∃ width,
      d.widths.lookup t.tag = some width ∧ IsLeast (sizes d t) width ∧
      ∀ most, 0 < most → (d.saturatedWidths most).lookup t.tag = some (min width most) ∧
        (∀ n ∈ sizes d t, min width most ≤ n) ∧ (min width most = 0 ↔ sizes d t = {0}) := by
  refine ⟨decode_exact, fun bs c ↦ (lenient_unchecked.decode_iff bs c).symm,
    fun most hmost bs c ↦ ((lenient_saturating hmost).decode_iff bs c).symm,
    fun c d c' hread t ht ↦ ?_⟩
  have h := Dictionary.ordered_of_wellFormed (Dictionary.wellFormed_of_readHeader hread)
  have hleast := isLeast_sizes h ht
  refine ⟨minWidth d.widths t.tag,
    Dictionary.lookup_weightsOf_eq_minWidth Dictionary.local_typeWidth h ht, hleast,
    fun most hmost ↦ ⟨?_, fun n hn ↦ ?_, ?_⟩⟩
  · rw [← Dictionary.minWidth_saturated h h (fun _ hu ↦ hu) ht]
    exact Dictionary.lookup_weightsOf_eq_minWidth (Dictionary.local_saturatedWidth most) h ht
  · exact Nat.le_trans (Nat.min_le_left _ _) (hleast.2 hn)
  · rw [← minWidth_eq_zero_iff h ht]
    omega

/-- The type of a path. -/
def pathEntry : TypeEntry :=
  ⟨12, "Path", [⟨"points", 40, 2⟩, ⟨"closed", 1, 0⟩]⟩

/-- A path of one row with one point. -/
def pathImage : List UInt8 :=
  imageForm Dictionary.pathDictionary 12 [1, 0, 0, 0, 1, 0, 0, 0, 3, 0, 4, 0, 2]

/-- The example is an image for the reader. -/
theorem decode_pathImage :
    Image.decode pathImage = .ok ⟨Dictionary.pathDictionary, pathRecord⟩ := by
  cbv

theorem decode_iff_decode_unchecked_path :
    unchecked.decode pathImage = .ok ⟨Dictionary.pathDictionary, pathRecord⟩ ∧
    IsLeast (sizes Dictionary.pathDictionary pathEntry) 5 ∧
    (Dictionary.pathDictionary.saturatedWidths (2 ^ 64 - 1)).lookup 12 = some 5 := by
  have hread : Dictionary.readHeader (.before Dictionary.pathDictionary.headerForm 0) =
      .ok (Dictionary.pathDictionary, .before [] 99) := by
    cbv
  have hwidth : Dictionary.pathDictionary.widths.lookup 12 = some 5 := rfl
  obtain ⟨-, hunchecked, -, hwidths⟩ := decode_iff_decode_unchecked
  obtain ⟨width, hlookup, hleast, hcut⟩ := hwidths _ _ _ hread pathEntry
    (List.mem_cons_of_mem _ (List.mem_singleton_self pathEntry))
  obtain rfl : 5 = width := Option.some.inj (hwidth.symm.trans hlookup)
  exact ⟨(hunchecked _ _).1 decode_pathImage, hleast, (hcut _ (by decide)).1⟩

/-- Three thousand types are announced, and nothing comes. -/
example : Image.decode (Word.ofInt32 magic ++ lengthWord 3000) =
      .error (.data (.lengthBeyondInput 3000 0)) ∧
    unchecked.decode (Word.ofInt32 magic ++ lengthWord 3000) =
      .error (.data (.truncated "i32")) := by
  cbv

end Counting

end GraphCodec
