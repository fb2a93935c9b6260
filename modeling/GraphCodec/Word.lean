import GraphCodec.Number.Power

/-!
# Fixed-width words in little-endian order

Every number in a file image is a word of one, two, four or eight bytes, least significant byte
first. `Word.bytes w n` writes the `w` low bytes of a natural number and `Word.value` reads a run
of bytes back; the two are inverse to each other on runs of `w` bytes (`value_bytes`,
`bytes_value`). Signed and unsigned machine integers are words through their bit pattern, so one
pair of laws serves every width.
-/

namespace GraphCodec

namespace Word

/-- The `width` little-endian bytes of `n`; what does not fit is dropped. -/
def bytes : (width : Nat) → (n : Nat) → List UInt8
  | 0, _ => []
  | width + 1, n => UInt8.ofNat n :: bytes width (n / 256)

/-- The natural number with the given little-endian bytes. -/
def value : List UInt8 → Nat
  | [] => 0
  | b :: bs => b.toNat + 256 * value bs

@[simp] theorem length_bytes (width n : Nat) : (bytes width n).length = width := by
  induction width generalizing n with
  | zero => rfl
  | succ width ih => simp [bytes, ih]

/-- **Reading what was written** gives the number back, up to the dropped high part. -/
theorem value_bytes (width n : Nat) : value (bytes width n) = n % 256 ^ width := by
  induction width generalizing n with
  | zero => simp [bytes, value, Nat.mod_one]
  | succ width ih =>
    rw [bytes, value, ih, Nat.pow_succ', Nat.mod_mul]
    simp

theorem value_lt (bs : List UInt8) : value bs < 256 ^ bs.length := by
  induction bs with
  | nil => simp [value]
  | cons b bs ih =>
    have hb : b.toNat < 256 := b.toNat_lt
    rw [value, List.length_cons, Nat.pow_succ]
    omega

/-- **Writing what was read** gives the bytes back: a run of bytes has one value, and no other
run of its length has that value. -/
theorem bytes_value (bs : List UInt8) : bytes bs.length (value bs) = bs := by
  induction bs with
  | nil => rfl
  | cons b bs ih =>
    have hb : b.toNat < 256 := b.toNat_lt
    have hdiv : (b.toNat + 256 * value bs) / 256 = value bs := by omega
    have hhead : UInt8.ofNat (b.toNat + 256 * value bs) = b := by
      apply UInt8.toNat_inj.1
      simp only [UInt8.toNat_ofNat']
      omega
    rw [List.length_cons, value, bytes, hdiv, ih, hhead]

/-! ### Machine integers -/

/-- The four bytes of a signed 32-bit integer. -/
def ofInt32 (v : Int32) : List UInt8 :=
  bytes 4 v.toUInt32.toNat

/-- The two bytes of a signed 16-bit integer. -/
def ofInt16 (v : Int16) : List UInt8 :=
  bytes 2 v.toUInt16.toNat

/-- The eight bytes of a signed 64-bit integer. -/
def ofInt64 (v : Int64) : List UInt8 :=
  bytes 8 v.toUInt64.toNat

/-- The four bytes of an unsigned 32-bit word, such as the bits of a `float`. -/
def ofUInt32 (v : UInt32) : List UInt8 :=
  bytes 4 v.toNat

/-- The eight bytes of an unsigned 64-bit word, such as the bits of a `double`. -/
def ofUInt64 (v : UInt64) : List UInt8 :=
  bytes 8 v.toNat

/-- The two bytes of an unsigned 16-bit word. -/
def ofUInt16 (v : UInt16) : List UInt8 :=
  bytes 2 v.toNat

/-- The signed 32-bit integer with the given bytes. -/
def toInt32 (bs : List UInt8) : Int32 :=
  (UInt32.ofNat (value bs)).toInt32

/-- The signed 16-bit integer with the given bytes. -/
def toInt16 (bs : List UInt8) : Int16 :=
  (UInt16.ofNat (value bs)).toInt16

/-- The signed 64-bit integer with the given bytes. -/
def toInt64 (bs : List UInt8) : Int64 :=
  (UInt64.ofNat (value bs)).toInt64

@[simp] theorem length_ofInt32 (v : Int32) : (ofInt32 v).length = 4 := length_bytes _ _

@[simp] theorem length_ofInt16 (v : Int16) : (ofInt16 v).length = 2 := length_bytes _ _

@[simp] theorem length_ofInt64 (v : Int64) : (ofInt64 v).length = 8 := length_bytes _ _

@[simp] theorem length_ofUInt32 (v : UInt32) : (ofUInt32 v).length = 4 := length_bytes _ _

@[simp] theorem length_ofUInt64 (v : UInt64) : (ofUInt64 v).length = 8 := length_bytes _ _

@[simp] theorem toInt32_ofInt32 (v : Int32) : toInt32 (ofInt32 v) = v := by
  have h : v.toUInt32.toNat < 256 ^ 4 := v.toUInt32.toNat_lt
  rw [toInt32, ofInt32, value_bytes, Nat.mod_eq_of_lt h, UInt32.ofNat_toNat]
  rfl

@[simp] theorem toInt16_ofInt16 (v : Int16) : toInt16 (ofInt16 v) = v := by
  have h : v.toUInt16.toNat < 256 ^ 2 := v.toUInt16.toNat_lt
  rw [toInt16, ofInt16, value_bytes, Nat.mod_eq_of_lt h, UInt16.ofNat_toNat]
  rfl

@[simp] theorem toInt64_ofInt64 (v : Int64) : toInt64 (ofInt64 v) = v := by
  have h : v.toUInt64.toNat < 256 ^ 8 := v.toUInt64.toNat_lt
  rw [toInt64, ofInt64, value_bytes, Nat.mod_eq_of_lt h, UInt64.ofNat_toNat]
  rfl

end Word

end GraphCodec
