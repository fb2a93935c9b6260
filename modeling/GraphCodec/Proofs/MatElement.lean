import GraphCodec.MatFile.Image
import GraphCodec.Proofs.Decoding
import GraphCodec.Proofs.Level5

/-!
# Elements and what they hold

What the writer of MAT-files puts into one data element, and that the rules of the format read it
back: an element in front of anything (`expect_elementForm`), numbers (`words?_elementForm`),
characters (`ofUtf16?_utf16`), the elements at the front of a matrix (`front?_matrixFront`) and the
names of fields (`names?_fieldNames`). All of these take up whole words of eight bytes.

A field name stands in a slot that is filled with zeros, so that of a name with a zero in it only
what comes before the zero is read back (`cutName`).
-/

namespace GraphCodec

namespace MatFile

open Level5

/-! ### Elements -/

/-- The form of a data element. -/
def elementForm (type : DataType) (data : List UInt8) : List UInt8 :=
  Word.bytes 4 type.code ++ Word.bytes 4 data.length ++ data ++
    List.replicate (padding data.length) 0

/-- An element is made exactly if its length fits into a word. -/
theorem element_eq_ok_iff {type : DataType} {data bs : List UInt8} :
    element type data = .ok bs ↔ data.length < 2 ^ 32 ∧ bs = elementForm type data := by
  unfold element elementForm
  dsimp only
  split_ifs with h
  · exact ⟨fun hbs ↦ ⟨h, (Except.ok.inj hbs).symm⟩, fun hbs ↦ congrArg Except.ok hbs.2.symm⟩
  · exact ⟨fun hbs ↦ (by cases hbs), fun hbs ↦ absurd hbs.1 h⟩

theorem padded_eq (n : Nat) : padded n = n + padding n := by
  unfold padded padding
  omega

/-- An element takes its tag and its data, up to a multiple of eight. -/
theorem length_elementForm (type : DataType) (data : List UInt8) :
    (elementForm type data).length = 8 + padded data.length := by
  simp only [elementForm, List.length_append, Word.length_bytes, List.length_replicate, padded_eq]
  omega

/-- **Elements take up whole words of eight bytes.** -/
theorem eight_dvd_length_elementForm (type : DataType) (data : List UInt8) :
    8 ∣ (elementForm type data).length := by
  rw [length_elementForm]
  exact (Nat.dvd_refl 8).add (Nat.dvd_mul_left 8 _)

theorem value_bytes_four {n : Nat} (h : n < 2 ^ 32) : Word.value (Word.bytes 4 n) = n := by
  rw [Word.value_bytes]
  exact Nat.mod_eq_of_lt h

theorem code_lt (type : DataType) : type.code < 2 ^ 32 := by
  cases type <;> decide

/-- **An element is read** in front of anything else. -/
theorem expect_elementForm (type : DataType) {data : List UInt8} (h : data.length < 2 ^ 32)
    (rest : List UInt8) : expect type.code (elementForm type data ++ rest) = some (data, rest) := by
  have hcode : (Word.bytes 4 type.code).length = 4 := Word.length_bytes 4 _
  have hcount : (Word.bytes 4 data.length).length = 4 := Word.length_bytes 4 _
  have hzeros : (data ++ List.replicate (padding data.length) 0).length = padded data.length := by
    rw [List.length_append, List.length_replicate, padded_eq]
  have hform : elementForm type data ++ rest = Word.bytes 4 type.code ++
      (Word.bytes 4 data.length ++ ((data ++ List.replicate (padding data.length) 0) ++ rest)) := by
    simp only [elementForm, List.append_assoc]
  have hlength : ¬(elementForm type data ++ rest).length < 8 + padded data.length := by
    rw [List.length_append, length_elementForm]
    omega
  have htake : (elementForm type data ++ rest).take 4 = Word.bytes 4 type.code := by
    rw [hform, List.take_left' hcode]
  have hdrop : (elementForm type data ++ rest).drop 4 = Word.bytes 4 data.length ++
      ((data ++ List.replicate (padding data.length) 0) ++ rest) := by
    rw [hform, List.drop_left' hcode]
  have hdata : (elementForm type data ++ rest).drop 8 =
      (data ++ List.replicate (padding data.length) 0) ++ rest := by
    rw [← List.drop_drop (i := 4) (j := 4), hdrop, List.drop_left' hcount]
  -- tag, length and data by their places
  have helement : element? (elementForm type data ++ rest) = some (type.code, data, rest) := by
    unfold element?
    rw [hdrop, List.take_left' hcount, value_bytes_four h, htake, value_bytes_four (code_lt type),
      hdata]
    dsimp only
    rw [if_neg hlength, List.take_left' hzeros, List.drop_left' hzeros, List.drop_left,
      List.append_assoc, List.take_left, if_neg (by simp)]
  rw [expect, helement]
  exact if_pos rfl

/-! ### Parts of equal size -/

section

variable {α : Type} {k : Nat} {xss : List (List α)} (h : ∀ xs ∈ xss, xs.length = k)
include h

/-- **What was joined** comes apart again. -/
theorem chunks_flatten : chunks k xss.length xss.flatten = xss := by
  induction xss with
  | nil => rfl
  | cons xs xss ih =>
    have hxs := h xs List.mem_cons_self
    rw [List.length_cons, List.flatten_cons, chunks, List.take_left' hxs, List.drop_left' hxs,
      ih fun ys hys ↦ h ys (List.mem_cons_of_mem xs hys)]

theorem length_flatten_of_forall : xss.flatten.length = xss.length * k := by
  rw [List.length_flatten, List.map_eq_replicate_iff.2 h, List.sum_replicate, smul_eq_mul]

/-- Pieces of one length are found again in what they make together. -/
theorem split?_flatten (hk : 0 < k) : split? k xss.flatten = some xss := by
  rw [split?, length_flatten_of_forall h, if_pos ⟨hk, Nat.mul_mod_left _ _⟩,
    Nat.mul_div_cancel _ hk, chunks_flatten h]

end

/-- **The words of an element** that stands alone, each of which is made of one item. -/
theorem words?_elementForm (type : DataType) {α : Type} {as : List α} {f : α → List UInt8}
    {width : Nat} (h : ∀ a, (f a).length = width) (hwidth : 0 < width)
    (hlength : (as.flatMap f).length < 2 ^ 32) :
    words? type.code width (elementForm type (as.flatMap f)) = some (as.map f) := by
  have hexpect := expect_elementForm type hlength []
  rw [List.append_nil] at hexpect
  rw [words?, hexpect, List.flatMap_def]
  exact split?_flatten (List.forall_mem_map.2 fun a _ ↦ h a) hwidth

/-! ### Characters -/

/-- A character is found again from its units, one of them or two. -/
theorem ofUtf16?_append (c : Char) (us : List Nat) :
    ofUtf16? ((Tree.utf16 (String.singleton c)).map UInt16.toNat ++ us) =
      (ofUtf16? us).map (c :: ·) := by
  have hchar : Char.ofNat c.toNat = c := Char.ofNat_toNat c
  have hvalid : c.toNat < 0xD800 ∨ 0xDFFF < c.toNat ∧ c.toNat < 0x110000 := c.valid
  -- one unit, outside the surrogates
  have hunits : Tree.utf16 (String.singleton c) =
      if c.toNat < 0x10000 then [.ofNat c.toNat]
      else [.ofNat (0xD800 + (c.toNat - 0x10000) / 0x400),
        .ofNat (0xDC00 + (c.toNat - 0x10000) % 0x400)] := by
    rw [Tree.utf16, String.toList_singleton, List.flatMap_singleton]
  rw [hunits]
  split_ifs with hsmall
  · have hunit : (UInt16.ofNat c.toNat).toNat = c.toNat := UInt16.toNat_ofNat_of_lt' hsmall
    have hplain : c.toNat < 0xD800 ∨ 0xDFFF < c.toNat := hvalid.imp_right And.left
    rw [List.map_singleton, hunit, List.singleton_append, ofUtf16?.eq_def]
    dsimp only
    rw [if_pos hplain, hchar]
  · -- a leading and a trailing surrogate
    have hlead : (UInt16.ofNat (0xD800 + (c.toNat - 0x10000) / 0x400)).toNat =
        0xD800 + (c.toNat - 0x10000) / 0x400 := UInt16.toNat_ofNat_of_lt' (by
      show _ < 2 ^ 16
      omega)
    have htrail : (UInt16.ofNat (0xDC00 + (c.toNat - 0x10000) % 0x400)).toNat =
        0xDC00 + (c.toNat - 0x10000) % 0x400 := UInt16.toNat_ofNat_of_lt' (by
      show _ < 2 ^ 16
      omega)
    have hcode : 0x10000 + (0xD800 + (c.toNat - 0x10000) / 0x400 - 0xD800) * 0x400 +
        (0xDC00 + (c.toNat - 0x10000) % 0x400 - 0xDC00) = c.toNat := by omega
    rw [List.map_cons, List.map_singleton, hlead, htrail]
    show ofUtf16? (_ :: _ :: us) = _
    rw [ofUtf16?, if_neg (by omega), if_pos (by omega), hcode, hchar]

/-- **The units of a text** give its characters back. -/
theorem ofUtf16?_utf16 (text : String) :
    ofUtf16? ((Tree.utf16 text).map UInt16.toNat) = some text.toList := by
  unfold Tree.utf16
  induction text.toList with
  | nil => rfl
  | cons c cs ih =>
    have hstep := ofUtf16?_append c
    rw [Tree.utf16, String.toList_singleton, List.flatMap_singleton] at hstep
    rw [List.flatMap_cons, List.map_append, hstep, ih]
    rfl

/-- A name as it is read back from its slot: what comes before its first zero. -/
def cutName (name : String) : String :=
  String.ofList (name.toList.takeWhile (· ≠ '\x00'))

/-- The bytes of a character other than zero are not zero. -/
theorem ne_zero_of_mem_utf8EncodeChar {c : Char} (hc : c ≠ '\x00') {b : UInt8}
    (hb : b ∈ String.utf8EncodeChar c) : b ≠ 0 := by
  have hne : ∀ {n}, 0 < n → n < 256 → UInt8.ofNat n ≠ 0 := by
    intro n hpos hlt hzero
    have hn := congrArg UInt8.toNat hzero
    rw [UInt8.toNat_ofNat_of_lt' hlt] at hn
    exact hpos.ne' hn
  have hpos : 0 < c.val.toNat :=
    Nat.pos_of_ne_zero fun h ↦ hc (Char.ext (UInt32.toNat_inj.1 h))
  unfold String.utf8EncodeChar at hb
  dsimp only at hb
  split_ifs at hb <;> simp only [List.mem_cons, List.not_mem_nil, or_false] at hb
  · subst hb
    exact hne hpos (by omega)
  · rcases hb with rfl | rfl <;> exact hne (by omega) (by omega)
  · rcases hb with rfl | rfl | rfl <;> exact hne (by omega) (by omega)
  · rcases hb with rfl | rfl | rfl | rfl <;> exact hne (by omega) (by omega)

/-- A name ends for readers where its first zero byte is. -/
theorem takeWhile_bytes (name : String) :
    (Utf8.bytes name).takeWhile (· ≠ 0) = Utf8.bytes (cutName name) := by
  rw [Utf8.bytes_eq_flatMap, cutName, Utf8.bytes_eq_flatMap, String.toList_ofList]
  induction name.toList with
  | nil => rfl
  | cons c cs ih =>
    by_cases hc : c = '\x00'
    · subst hc
      rfl
    · have hpos : ∀ b ∈ String.utf8EncodeChar c, decide (b ≠ 0) = true := fun b hb ↦
        decide_eq_true (ne_zero_of_mem_utf8EncodeChar hc hb)
      have hcut : (c :: cs).takeWhile (· ≠ '\x00') = c :: cs.takeWhile (· ≠ '\x00') :=
        List.takeWhile_cons_of_pos (decide_eq_true hc)
      rw [List.flatMap_cons, List.takeWhile_append_of_pos hpos, ih, hcut, List.flatMap_cons]

/-! ### What stands in front -/

/-- A dimension is stored exactly if it is one of a word with a sign. -/
theorem dimension_eq_ok_iff {n : Nat} {bs : List UInt8} :
    dimension n = .ok bs ↔ n < 2 ^ 31 ∧ bs = Word.bytes 4 n := by
  unfold dimension
  split_ifs with h
  · exact ⟨fun hbs ↦ ⟨h, (Except.ok.inj hbs).symm⟩, fun hbs ↦ congrArg Except.ok hbs.2.symm⟩
  · exact ⟨fun hbs ↦ (by cases hbs), fun hbs ↦ absurd hbs.1 h⟩

/-- And it is read back. -/
theorem dimension?_bytes {n : Nat} (h : n < 2 ^ 31) : dimension? (Word.bytes 4 n) = some n := by
  have hvalue : Word.value (Word.bytes 4 n) = n := value_bytes_four (by omega)
  have hint : (Word.toInt32 (Word.bytes 4 n)).toInt = n := by
    rw [Word.toInt32, hvalue]
    exact Int32.toInt_ofNat_of_lt h
  rw [dimension?, hint]
  rfl

theorem classCode_lt (t : Tree) : classCode t < 2 ^ 32 := by
  unfold classCode
  split <;> decide

/-- **Class, dimensions and name** are read back. -/
theorem front?_matrixFront {name : String} {t : Tree} {front : List UInt8}
    (h : matrixFront name t = .ok front) (rest : List UInt8) :
    front? (front ++ rest) = some (⟨classCode t, t.dims.1, t.dims.2, name⟩, rest) ∧
      8 ∣ front.length := by
  simp only [matrixFront, bind_eq_ok_iff, element_eq_ok_iff, dimension_eq_ok_iff] at h
  obtain ⟨_, ⟨hflags, rfl⟩, _, ⟨hrows, rfl⟩, _, ⟨hcols, rfl⟩, h⟩ := h
  obtain ⟨_, ⟨hdims, rfl⟩, _, ⟨hname, rfl⟩, h⟩ := h
  cases h
  refine ⟨?_, ?_⟩
  · have hfour : ∀ {n}, (Word.bytes 4 n).length = 4 := Word.length_bytes 4 _
    have hflags' : ∀ rest, expect 6 (elementForm .uint32 _ ++ rest) = some (_, rest) :=
      expect_elementForm .uint32 hflags
    have hdims' : ∀ rest, expect 5 (elementForm .int32 _ ++ rest) = some (_, rest) :=
      expect_elementForm .int32 hdims
    have hname' : ∀ rest, expect 1 (elementForm .int8 _ ++ rest) = some (_, rest) :=
      expect_elementForm .int8 hname
    have hlengths : ¬((Word.bytes 4 (classCode t) ++ Word.bytes 4 0).length ≠ 8 ∨
        Word.value (Word.bytes 4 0) ≠ 0 ∨
        (Word.bytes 4 t.dims.1 ++ Word.bytes 4 t.dims.2).length ≠ 8) := by
      simp [value_bytes_four]
    simp only [front?, List.append_assoc, hflags', hdims', hname', Option.bind_eq_bind,
      Option.bind_some, List.take_left' hfour, List.drop_left' hfour, if_neg hlengths,
      dimension?_bytes hrows, dimension?_bytes hcols, Utf8.decode_bytes,
      value_bytes_four (classCode_lt t)]
    rfl
  · rw [List.length_append, List.length_append]
    exact ((eight_dvd_length_elementForm _ _).add (eight_dvd_length_elementForm _ _)).add
      (eight_dvd_length_elementForm _ _)

/-- A maximum is at least each of the numbers. -/
theorem le_foldl_max {ns : List Nat} {m n : Nat} (h : n ≤ m ∨ n ∈ ns) : n ≤ ns.foldl max m := by
  induction ns generalizing m with
  | nil => exact h.resolve_right List.not_mem_nil
  | cons k ns ih =>
    refine ih ?_
    rcases h with hle | hmem
    · exact .inl (hle.trans (Nat.le_max_left m k))
    · rcases List.mem_cons.1 hmem with rfl | hmem
      · exact .inl (Nat.le_max_right m n)
      · exact .inr hmem

/-- Slots for names are of one length if it is enough for each name. -/
theorem length_nameSlot {slot : Nat} {name : String} (h : Utf8.size name ≤ slot) :
    (nameSlot slot name).length = slot := by
  unfold nameSlot
  dsimp only
  rw [List.length_append, List.length_replicate, Utf8.length_bytes]
  omega

/-- A name is read back from its slot up to its first zero. -/
theorem decode_nameSlot (slot : Nat) (name : String) :
    Utf8.decode ((nameSlot slot name).takeWhile (· ≠ 0)) = .ok (cutName name) := by
  have hzeros : ∀ n, (List.replicate n (0 : UInt8)).takeWhile (· ≠ 0) = [] := fun n ↦ by
    rw [List.takeWhile_replicate, if_neg (by simp)]
  unfold nameSlot
  dsimp only
  rw [List.takeWhile_append, hzeros, List.append_nil]
  split_ifs with hwhole
  · have hall : (Utf8.bytes name).takeWhile (· ≠ 0) = Utf8.bytes name :=
      (List.takeWhile_prefix _).eq_of_length hwhole
    rw [← hall, takeWhile_bytes, Utf8.decode_bytes]
  · rw [takeWhile_bytes, Utf8.decode_bytes]

/-- Names are found again in their slots, up to their first zero. -/
theorem mapM_decode_nameSlot (slot : Nat) (names : List String) :
    ((names.map (nameSlot slot)).mapM fun bs ↦ (Utf8.decode (bs.takeWhile (· ≠ 0))).toOption) =
      some (names.map cutName) := by
  rw [List.mapM_map]
  show _ = pure (names.map cutName)
  rw [← List.mapM_pure]
  refine congrArg (fun f ↦ names.mapM f) (funext fun name ↦ ?_)
  rw [Function.comp_apply, decode_nameSlot]
  rfl

/-- **The names of fields** are read back, each up to its first zero. -/
theorem names?_fieldNames {names : List String} {bs : List UInt8} (h : fieldNames names = .ok bs)
    (rest : List UInt8) :
    names? (bs ++ rest) = some (names.map cutName, rest) ∧ 8 ∣ bs.length := by
  unfold fieldNames at h
  dsimp only at h
  split_ifs at h with hlong
  obtain ⟨longest, hlongest⟩ : ∃ n, n = (names.map Utf8.size).foldl max 0 := ⟨_, rfl⟩
  rw [← hlongest] at h hlong
  simp only [bind_eq_ok_iff, element_eq_ok_iff] at h
  obtain ⟨_, ⟨hsize, rfl⟩, _, ⟨hslots, rfl⟩, h⟩ := h
  cases h
  rw [List.flatMap_def] at hslots
  refine ⟨?_, ?_⟩
  · have hsize' : ∀ rest, expect 5 (elementForm .int32 _ ++ rest) = some (_, rest) :=
      expect_elementForm .int32 hsize
    have hslots' : ∀ rest, expect 1 (elementForm .int8 _ ++ rest) = some (_, rest) :=
      expect_elementForm .int8 hslots
    have hvalue : Word.value (Word.bytes 4 (longest + 1)) = longest + 1 := by
      have hle : longest ≤ 63 := Nat.le_of_not_lt hlong
      exact value_bytes_four (by omega)
    have hslot : ∀ slot ∈ names.map (nameSlot (longest + 1)), slot.length = longest + 1 := by
      intro slot hslot
      obtain ⟨name, hname, rfl⟩ := List.mem_map.1 hslot
      have hle : Utf8.size name ≤ longest :=
        hlongest ▸ le_foldl_max (.inr (List.mem_map_of_mem hname))
      exact length_nameSlot (Nat.le_succ_of_le hle)
    simp only [names?, List.append_assoc, hsize', hslots', Option.bind_eq_bind, Option.bind_some,
      Word.length_bytes, hvalue, List.flatMap_def, split?_flatten hslot (Nat.succ_pos longest),
      mapM_decode_nameSlot, ne_eq, not_true_eq_false, if_false]
  · rw [List.length_append]
    exact (eight_dvd_length_elementForm _ _).add (eight_dvd_length_elementForm _ _)

end MatFile

end GraphCodec
