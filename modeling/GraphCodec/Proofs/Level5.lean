import GraphCodec.Container.Tree
import GraphCodec.Text.Utf8
import GraphCodec.Word
import Mathlib.Tactic.SplitIfs

/-!
# Reading a Level 5 file

How a Level 5 MAT-file of one variable is read, by the rules of the format and not by what the
writer does. A data element is the word of its type, the number of its data bytes, the data, and
zeros up to a multiple of eight bytes. The data of a matrix are elements again, and nothing may be
left over of them: its flags, its dimensions, its name, and then one element of numbers or
characters, or as many matrices without names as it has parts.

The types of elements are 1 (`int8`), 2 (`uint8`), 4 (`uint16`), 5 (`int32`), 6 (`uint32`), 9
(`double`) and 14 (a matrix), and the classes of matrices 1 (a cell array), 2 (a struct array), 4
(characters), 6 (`double`) and 9 (`uint8`).
-/

namespace GraphCodec

namespace Level5

/-! ### Elements -/

/-- The number of bytes that `n` bytes take up together with the zeros after them. -/
def padded (n : Nat) : Nat :=
  (n + 7) / 8 * 8

/-- The data element at the front: the number of its type, its data, and the bytes after it. -/
def element? (bs : List UInt8) : Option (Nat × List UInt8 × List UInt8) :=
  let n := Word.value ((bs.drop 4).take 4)
  let data := bs.drop 8
  if bs.length < 8 + padded n then none
  else if ((data.take (padded n)).drop n).any (· ≠ 0) then none
  else some (Word.value (bs.take 4), data.take n, data.drop (padded n))

/-- The data of the element at the front, which has to be of a given type. -/
def expect (type : Nat) (bs : List UInt8) : Option (List UInt8 × List UInt8) :=
  match element? bs with
  | some (t, data, rest) => if t = type then some (data, rest) else none
  | none => none

theorem le_padded (n : Nat) : n ≤ padded n := by
  unfold padded
  omega

/-- An element and what follows are shorter than the bytes with its tag in front, so reading ends.
-/
theorem length_of_expect {type : Nat} {bs data rest : List UInt8}
    (h : expect type bs = some (data, rest)) : data.length + rest.length < bs.length := by
  unfold expect element? at h
  have hle := le_padded (Word.value ((bs.drop 4).take 4))
  split at h
  · rename_i helement
    dsimp only at helement
    split_ifs at helement h with hlength hzeros htype
    cases helement
    cases h
    simp only [List.length_take, List.length_drop]
    omega
  · cases h

/-! ### Numbers and characters -/

/-- The first `n` parts of `k` items each. -/
def chunks {α : Type} (k : Nat) : (n : Nat) → List α → List (List α)
  | 0, _ => []
  | n + 1, xs => xs.take k :: chunks k n (xs.drop k)

/-- All parts of `k` items, if nothing is left over. -/
def split? {α : Type} (k : Nat) (xs : List α) : Option (List (List α)) :=
  if 0 < k ∧ xs.length % k = 0 then some (chunks k (xs.length / k) xs) else none

/-- The words of an element that stands alone. -/
def words? (type width : Nat) (bs : List UInt8) : Option (List (List UInt8)) :=
  match expect type bs with
  | some (data, []) => split? width data
  | _ => none

/-- The characters of units of UTF-16: a unit outside the surrogates is a character, and a leading
and a trailing surrogate are one together. -/
def ofUtf16? : List Nat → Option (List Char)
  | [] => some []
  | u :: us =>
    if u < 0xD800 ∨ 0xDFFF < u then (ofUtf16? us).map (Char.ofNat u :: ·)
    else
      match us with
      | [] => none
      | w :: us =>
        if u < 0xDC00 ∧ 0xDC00 ≤ w ∧ w ≤ 0xDFFF then
          (ofUtf16? us).map (Char.ofNat (0x10000 + (u - 0xD800) * 0x400 + (w - 0xDC00)) :: ·)
        else none

/-! ### Matrices -/

/-- What stands at the front of every matrix. -/
structure Front where
  classCode : Nat
  rows : Nat
  cols : Nat
  name : String

/-- A dimension, which is a signed number but not negative. -/
def dimension? (bs : List UInt8) : Option Nat :=
  (Word.toInt32 bs).toInt.toNat?

/-- The flags, the two dimensions and the name of a matrix, and the bytes after them. Of the flags
only the class is used. -/
def front? (bs : List UInt8) : Option (Front × List UInt8) := do
  let (flags, bs) ← expect 6 bs
  let (dims, bs) ← expect 5 bs
  let (name, bs) ← expect 1 bs
  if flags.length ≠ 8 ∨ Word.value (flags.drop 4) ≠ 0 ∨ dims.length ≠ 8 then none
  else
    let rows ← dimension? (dims.take 4)
    let cols ← dimension? (dims.drop 4)
    let name ← (Utf8.decode name).toOption
    some (⟨Word.value (flags.take 4), rows, cols, name⟩, bs)

/-- The names of the fields of a struct array, and the bytes after them: the size of a slot, and
the slots one after the other, in each of which a name ends before the first zero. -/
def names? (bs : List UInt8) : Option (List String × List UInt8) := do
  let (size, bs) ← expect 5 bs
  let (packed, bs) ← expect 1 bs
  if size.length ≠ 4 then none
  else
    let slots ← split? (Word.value size) packed
    let names ← slots.mapM fun slot ↦ (Utf8.decode (slot.takeWhile (· ≠ 0))).toOption
    some (names, bs)

/-- The numbers or characters of a matrix. A row of characters has as many columns as units. -/
def plain? (front : Front) (bs : List UInt8) : Option Tree :=
  match front.classCode with
  | 4 => do
    let units ← words? 4 2 bs
    if front.rows = 1 ∧ front.cols = units.length then
      (ofUtf16? (units.map Word.value)).map fun text ↦ .char (String.ofList text)
    else none
  | 6 => (words? 9 8 bs).map fun ws ↦
    .double front.rows front.cols (ws.map fun w ↦ .ofNat (Word.value w))
  | 9 => (words? 2 1 bs).map fun ws ↦ .uint8 front.rows front.cols ws.flatten
  | _ => none

/-- The front of a matrix takes bytes. -/
theorem length_of_front? {bs rest : List UInt8} {front : Front}
    (h : front? bs = some (front, rest)) : rest.length < bs.length := by
  unfold front? at h
  simp only [Option.bind_eq_bind, Option.bind_eq_some_iff] at h
  obtain ⟨⟨flags, bs₁⟩, h₁, ⟨dims, bs₂⟩, h₂, ⟨name, bs₃⟩, h₃, h⟩ := h
  have hlength₁ := length_of_expect h₁
  have hlength₂ : dims.length + bs₂.length < bs₁.length := length_of_expect h₂
  have hlength₃ : name.length + bs₃.length < bs₂.length := length_of_expect h₃
  split_ifs at h
  simp only [Option.bind_eq_some_iff] at h
  obtain ⟨_, -, _, -, _, -, h⟩ := h
  cases h
  omega

/-- And so do the names of fields. -/
theorem length_of_names? {bs rest : List UInt8} {names : List String}
    (h : names? bs = some (names, rest)) : rest.length < bs.length := by
  unfold names? at h
  simp only [Option.bind_eq_bind, Option.bind_eq_some_iff] at h
  obtain ⟨⟨size, bs₁⟩, h₁, ⟨packed, bs₂⟩, h₂, h⟩ := h
  have hlength₁ := length_of_expect h₁
  have hlength₂ : packed.length + bs₂.length < bs₁.length := length_of_expect h₂
  split_ifs at h
  simp only [Option.bind_eq_some_iff] at h
  obtain ⟨_, -, _, -, h⟩ := h
  cases h
  omega

mutual

/-- The matrix with the given data, and its name. -/
def matrix? (bs : List UInt8) : Option (String × Tree) :=
  match _hfront : front? bs with
  | none => none
  | some (front, rest) =>
    match front.classCode with
    | 1 =>
      if front.rows = 1 then
        (matrices? front.cols rest).map fun items ↦ (front.name, .cell items)
      else none
    | 2 =>
      if front.rows = 1 then
        match _hnames : names? rest with
        | none => none
        | some (names, rest) => (matrices? (front.cols * names.length) rest).map fun values ↦
          (front.name, .struct ⟨names, (chunks names.length front.cols values).toArray⟩)
      else none
    | _ => (plain? front rest).map fun t ↦ (front.name, t)
  termination_by bs.length
  decreasing_by
    · exact length_of_front? _hfront
    · exact Nat.lt_trans (length_of_names? _hnames) (length_of_front? _hfront)

/-- The `n` matrices without names of which a run of bytes consists. -/
def matrices? (n : Nat) (bs : List UInt8) : Option (List Tree) :=
  match n with
  | 0 => if bs.isEmpty then some [] else none
  | n + 1 =>
    match _h : expect 14 bs with
    | none => none
    | some (data, rest) =>
      match matrix? data with
      | none => none
      | some (name, t) => if name = "" then (matrices? n rest).map (t :: ·) else none
  termination_by bs.length
  decreasing_by
    all_goals
      have := length_of_expect _h
      omega

end

/-- The variable of a file, and its name: what comes after the header is one matrix. -/
def file? (bs : List UInt8) : Option (String × Tree) :=
  match expect 14 (bs.drop 128) with
  | some (data, []) => matrix? data
  | _ => none

/-- A file has a header of one length and then one matrix. -/
theorem file?_of_expect {bs data : List UInt8} (h : expect 14 (bs.drop 128) = some (data, [])) :
    file? bs = matrix? data := by
  rw [file?, h]

end Level5

end GraphCodec
