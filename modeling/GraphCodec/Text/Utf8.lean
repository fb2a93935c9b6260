/-!
# UTF-8 text

Text is stored as its UTF-8 bytes. `Utf8.bytes` and `Utf8.decode` are the two directions;
`decode_bytes` and `bytes_of_decode_eq_ok` say that a text has exactly one stored form and that
nothing else is accepted.

A refused run of bytes is described by its first fault: where the valid part ends, and how many
bytes from there on begin some scalar value without completing it. The same division into scalar
values and maximal faulty parts gives `Utf8.lossy`, which puts one replacement character in the
place of each faulty part and therefore never fails.
-/

namespace GraphCodec

namespace Utf8

/-- Where a run of bytes stops being UTF-8. -/
inductive Fault where
  /-- From `index` on, `count` bytes begin a scalar value that the next byte does not continue. -/
  | invalid (index count : Nat)
  /-- The run ends inside the scalar value that begins at `index`. -/
  | incomplete (index : Nat)
  deriving DecidableEq, Repr

/-- The wording of a fault. -/
def Fault.message : Fault → String
  | .invalid index count => s!"invalid utf-8 sequence of {count} bytes from index {index}"
  | .incomplete index => s!"incomplete utf-8 byte sequence from index {index}"

/-- The stored bytes of a text. -/
def bytes (s : String) : List UInt8 :=
  s.toByteArray.data.toList

/-- The number of stored bytes of a text. -/
def size (s : String) : Nat :=
  s.utf8ByteSize

/-! ### One scalar value at a time -/

/-- What stands at the front of a run of bytes. -/
inductive Piece where
  /-- A complete scalar value. -/
  | scalar (c : Char)
  /-- `count` bytes that begin a scalar value and are not continued. -/
  | broken (count : Nat)
  /-- The beginning of a scalar value at the end of the run. -/
  | cut
  deriving DecidableEq, Repr

/-- What a leading byte promises: the number of bytes to follow, the range of the first of them,
and the bits it contributes. No scalar value has two forms and none is a surrogate, which is what
the narrowed ranges ensure. -/
def lead? (b : UInt8) : Option (Nat × UInt8 × UInt8 × Nat) :=
  let n := b.toNat
  if n < 0x80 then some (0, 0x80, 0xBF, n)
  else if n < 0xC2 then none
  else if n < 0xE0 then some (1, 0x80, 0xBF, n - 0xC0)
  else if n = 0xE0 then some (2, 0xA0, 0xBF, 0)
  else if n = 0xED then some (2, 0x80, 0x9F, 0xD)
  else if n < 0xF0 then some (2, 0x80, 0xBF, n - 0xE0)
  else if n = 0xF0 then some (3, 0x90, 0xBF, 0)
  else if n < 0xF4 then some (3, 0x80, 0xBF, n - 0xF0)
  else if n = 0xF4 then some (3, 0x80, 0x8F, 4)
  else none

/-- Read the `missing` bytes that complete a scalar value whose first `taken` bytes gave `code`.
The first of them lies in `lo..hi`, the others in `0x80..0xBF`. -/
def follow (lo hi : UInt8) (taken code : Nat) :
    (missing : Nat) → List UInt8 → Piece × List UInt8
  | 0, rest => (.scalar (Char.ofNat code), rest)
  | _ + 1, [] => (.cut, [])
  | missing + 1, b :: rest =>
    if lo ≤ b ∧ b ≤ hi then
      follow 0x80 0xBF (taken + 1) (code * 64 + (b.toNat - 0x80)) missing rest
    else
      (.broken taken, b :: rest)

/-- The piece that begins with `b`, and the bytes after it. -/
def piece (b : UInt8) (rest : List UInt8) : Piece × List UInt8 :=
  match lead? b with
  | some (missing, lo, hi, code) => follow lo hi 1 code missing rest
  | none => (.broken 1, rest)

theorem length_follow_le (lo hi : UInt8) (taken code missing : Nat) (rest : List UInt8) :
    (follow lo hi taken code missing rest).2.length ≤ rest.length := by
  induction missing generalizing lo hi taken code rest with
  | zero => simp [follow]
  | succ missing ih =>
    cases rest with
    | nil => simp [follow]
    | cons b rest =>
      rw [follow]
      split
      · exact Nat.le_succ_of_le (ih ..)
      · exact Nat.le_refl _

theorem length_piece_le (b : UInt8) (rest : List UInt8) :
    (piece b rest).2.length ≤ rest.length := by
  unfold piece
  split
  · exact length_follow_le ..
  · exact Nat.le_refl _

/-! ### Whole runs -/

/-- The first fault of a run of bytes that begins at `index`. -/
def firstFault? (index : Nat) : List UInt8 → Option Fault
  | [] => none
  | b :: rest =>
    match (piece b rest).1 with
    | .broken count => some (.invalid index count)
    | .cut => some (.incomplete index)
    | .scalar _ =>
      firstFault? (index + (rest.length + 1 - (piece b rest).2.length)) (piece b rest).2
  termination_by bs => bs.length
  decreasing_by exact Nat.lt_succ_of_le (length_piece_le b rest)

/-- The text with the given stored bytes, or the first fault in them. -/
def decode (bs : List UInt8) : Except Fault String :=
  match String.fromUTF8? ⟨bs.toArray⟩ with
  | some s => .ok s
  | none => .error ((firstFault? 0 bs).getD (.incomplete bs.length))

/-- The text with the given stored bytes, each faulty part read as one replacement character. -/
def lossy : List UInt8 → List Char
  | [] => []
  | b :: rest =>
    match (piece b rest).1 with
    | .scalar c => c :: lossy (piece b rest).2
    | _ => '\uFFFD' :: lossy (piece b rest).2
  termination_by bs => bs.length
  decreasing_by all_goals exact Nat.lt_succ_of_le (length_piece_le b rest)

/-! ### The two directions -/

/-- **What was stored is read back.** -/
@[simp] theorem decode_bytes (s : String) : decode (bytes s) = .ok s := by
  have h : (⟨(bytes s).toArray⟩ : ByteArray) = s.toByteArray := by simp [bytes]
  rw [decode, h, String.fromUTF8?, dif_pos s.isValidUTF8]
  rfl

/-- **Nothing else is read as that text.** -/
theorem bytes_of_decode_eq_ok {bs : List UInt8} {s : String} (h : decode bs = .ok s) :
    bytes s = bs := by
  unfold decode String.fromUTF8? at h
  by_cases hv : ByteArray.IsValidUTF8 ⟨bs.toArray⟩
  · rw [dif_pos hv] at h
    cases h
    simp [bytes, String.fromUTF8]
  · rw [dif_neg hv] at h
    cases h

@[simp] theorem length_bytes (s : String) : (bytes s).length = size s := by
  rw [bytes, size, Array.length_toList]
  rfl

end Utf8

end GraphCodec
