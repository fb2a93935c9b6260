import GraphCodec.Container.StructArray

/-!
# Container trees

A container tree is what numerical tools load: struct arrays and cells, which hold trees, and
matrices of numbers and rows of characters, which do not. What is empty or absent is always the
same matrix without rows or columns, `Tree.empty`.
-/

namespace GraphCodec

/-- A node of a container tree. -/
inductive Tree where
  /-- A row of structs. -/
  | struct (array : StructArray Tree)
  /-- A row of cells. -/
  | cell (items : List Tree)
  /-- A matrix of doubles, which are their bits, column by column. -/
  | double (rows cols : Nat) (data : List UInt64)
  /-- A matrix of bytes, column by column. -/
  | uint8 (rows cols : Nat) (data : List UInt8)
  /-- A row of characters. -/
  | char (text : String)

namespace Tree

/-- What stands for every empty or absent value. -/
def empty : Tree :=
  double 0 0 []

instance : Inhabited Tree := ⟨empty⟩

/-- A number. -/
def scalar (bits : UInt64) : Tree :=
  double 1 1 [bits]

/-- A column of numbers. -/
def column (data : List UInt64) : Tree :=
  double data.length 1 data

/-- Whether a tree is a matrix of doubles without rows or columns. -/
def isEmptyPlaceholder : Tree → Bool
  | double 0 0 _ => true
  | _ => false

/-- The 16-bit units of a text in UTF-16. -/
def utf16 (text : String) : List UInt16 :=
  text.toList.flatMap fun c ↦
    if c.toNat < 0x10000 then [.ofNat c.toNat]
    else
      let v := c.toNat - 0x10000
      [.ofNat (0xD800 + v / 0x400), .ofNat (0xDC00 + v % 0x400)]

/-- The numbers of rows and columns. -/
def dims : Tree → Nat × Nat
  | struct s => (1, s.size)
  | cell items => (1, items.length)
  | double rows cols _ => (rows, cols)
  | uint8 rows cols _ => (rows, cols)
  | char text => (1, (utf16 text).length)

/-- The name of the class of a tree. -/
def className : Tree → String
  | struct _ => "struct"
  | cell _ => "cell"
  | double .. => "double"
  | uint8 .. => "uint8"
  | char _ => "char"

theorem sizeOf_lt_of_mem_row {s : StructArray Tree} {row : List Tree} {t : Tree}
    (hrow : row ∈ s.rows) (ht : t ∈ row) : sizeOf t < sizeOf s := by
  have h1 := Array.sizeOf_lt_of_mem hrow
  have h2 := List.sizeOf_lt_of_mem ht
  cases s
  simp only [StructArray.mk.sizeOf_spec] at h1 ⊢
  omega

end Tree

end GraphCodec
