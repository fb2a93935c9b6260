import GraphCodec.Container.Tree
import GraphCodec.MatFile.Header

/-!
# MAT-file images

A Level 5 MAT-file of one variable is a header and a data element that holds a matrix. A data
element is the word of its type, the number of its data bytes, the data, and zeros up to the next
multiple of eight bytes. The data of a matrix are elements again: its class, its dimensions, its
name, and then what its class demands. Only the outermost matrix has a name.
-/

namespace GraphCodec

namespace MatFile

/-! ### Data elements -/

/-- The type of a data element. -/
inductive DataType where
  | int8
  | uint8
  | uint16
  | int32
  | uint32
  | double
  | matrix
  deriving DecidableEq, Repr

/-- The number of a data type. -/
def DataType.code : DataType → Nat
  | int8 => 1
  | uint8 => 2
  | uint16 => 4
  | int32 => 5
  | uint32 => 6
  | double => 9
  | matrix => 14

/-- The number of zeros after `n` bytes. -/
def padding (n : Nat) : Nat :=
  (8 - n % 8) % 8

/-- A data element. -/
def element (type : DataType) (data : List UInt8) : Except Fault (List UInt8) :=
  let n := data.length
  if n < 2 ^ 32 then
    .ok (Word.bytes 4 type.code ++ Word.bytes 4 n ++ data ++ List.replicate (padding n) 0)
  else .error (.data (.matElementTooLarge n))

/-! ### Matrices -/

/-- The number of the class of a matrix. -/
def classCode : Tree → Nat
  | .cell _ => 1
  | .struct _ => 2
  | .char _ => 4
  | .double .. => 6
  | .uint8 .. => 9

/-- The word of a dimension. -/
def dimension (n : Nat) : Except Fault (List UInt8) :=
  if n < 2 ^ 31 then .ok (Word.bytes 4 n)
  else .error (.data (.matDimensionTooLarge n))

/-- The elements with which every matrix begins: class, dimensions and name. -/
def matrixFront (name : String) (t : Tree) : Except Fault (List UInt8) := do
  let flags ← element .uint32 (Word.bytes 4 (classCode t) ++ Word.bytes 4 0)
  let rows ← dimension t.dims.1
  let cols ← dimension t.dims.2
  let dims ← element .int32 (rows ++ cols)
  let name ← element .int8 (Utf8.bytes name)
  return flags ++ dims ++ name

/-- The greatest number of bytes of a field name. -/
def maxNameSize : Nat := 63

/-- A field name, filled with zeros up to the size of a slot. -/
def nameSlot (slot : Nat) (name : String) : List UInt8 :=
  let bs := Utf8.bytes name
  bs ++ List.replicate (slot - bs.length) 0

/-- The elements of the field names of a struct: the size of a slot, which has room for the
longest name and a zero, and the names in their slots. -/
def fieldNames (names : List String) : Except Fault (List UInt8) := do
  let longest := (names.map Utf8.size).foldl max 0
  if maxNameSize < longest then throw (.data .matFieldNameTooLong)
  else
    let slot := longest + 1
    let size ← element .int32 (Word.bytes 4 slot)
    let slots ← element .int8 (names.flatMap (nameSlot slot))
    return size ++ slots

/-- The element of a matrix. -/
def matrix (name : String) (t : Tree) : Except Fault (List UInt8) := do
  let front ← matrixFront name t
  let body ←
    match t with
    | .double _ _ data => element .double (data.flatMap Word.ofUInt64)
    | .uint8 _ _ data => element .uint8 data
    | .char text => element .uint16 ((Tree.utf16 text).flatMap Word.ofUInt16)
    | .cell items => do
      let items ← items.attach.mapM fun (item : { t // t ∈ items }) ↦ matrix "" item.1
      pure items.flatten
    | .struct s => do
      let names ← fieldNames s.names
      let rows ← s.rows.toList.attach.mapM fun (row : { r // r ∈ s.rows.toList }) ↦
        row.1.attach.mapM fun (v : { t // t ∈ row.1 }) ↦ matrix "" v.1
      pure (names ++ (rows.map List.flatten).flatten)
  element .matrix (front ++ body)
  termination_by sizeOf t
  decreasing_by
    · have := List.sizeOf_lt_of_mem item.2
      simp only [Tree.cell.sizeOf_spec]
      omega
    · have := Tree.sizeOf_lt_of_mem_row (Array.mem_toList_iff.1 row.2) v.2
      simp only [Tree.struct.sizeOf_spec]
      omega

/-- The file of one variable. -/
def image (header : Header) (name : String) (t : Tree) : Except Fault (List UInt8) := do
  return header.bytes ++ (← matrix name t)

end MatFile

end GraphCodec
