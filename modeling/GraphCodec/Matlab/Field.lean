import GraphCodec.Matlab.Precision

/-!
# Statements for fields

For every sort of field there are statements that read it from an open file into the struct `s`
and statements that write it. Both follow the layout of a file image: text has its length in front,
every dimension of an array the number of its items, and an empty scalar is its kind's sentinel.

The local variables of a field carry its name behind a letter for their role and, in arrays, the
level of the dimension, which counts from 1 for the outermost.
-/

namespace GraphCodec

namespace Matlab

/-- What the innermost items of an array are. -/
inductive Element where
  /-- Numbers, truth values or characters. -/
  | numeric (kind : Kind) (preserve : Bool)
  /-- Texts, dates or constants. -/
  | text
  /-- Records, which the functions of the identifier read and write. -/
  | composite (ident : String)
  deriving DecidableEq, Repr

/-! ### Files -/

/-- The open file. -/
def file : Expr := .name "fid"

/-- Read `count` items. -/
def fread (count : Expr) (precision : String) : Expr :=
  .call "fread" [file, count, .text precision]

/-- Read one word as a number. -/
def freadCount : Expr :=
  fread (.number 1) (conversion "int32" "double")

/-- Write a value. -/
def fwrite (v : Expr) (precision : String) : Stmt :=
  .run (.call "fwrite" [file, v, .text precision])

/-- Read a record. -/
def readRecord (ident : String) : Expr :=
  .call ("read_" ++ ident) [file]

/-- Write a record. -/
def writeRecord (ident : String) (v : Expr) : Stmt :=
  .run (.call ("write_" ++ ident) [file, v])

/-- A field of the struct that is read or written. -/
def slot (field : String) : Expr :=
  .field (.name "s") field

/-- The number of items of a value. -/
def numel (v : Expr) : Expr :=
  .call "numel" [v]

/-- Whether a value has no items. -/
def isEmpty (v : Expr) : Expr :=
  .call "isempty" [v]

/-! ### Text -/

/-- Read a text into `target`. -/
def readText (target : Expr) (field : String) : List Stmt :=
  let length := "len_" ++ field
  let bytes := fread (.row [.number 1, .name length]) (conversion "uint8" "uint8")
  [.assign (.name length) freadCount,
    .assign target (.call "native2unicode" [bytes, .text "UTF-8"])]

/-- Write a text. -/
def writeText (source : Expr) (field : String) : List Stmt :=
  let bytes : Expr := .name ("b_" ++ field)
  [.assign bytes (.call "unicode2native" [.call "char" [source], .text "UTF-8"]),
    fwrite (numel bytes) "int32",
    fwrite bytes "uint8"]

/-! ### Scalars -/

/-- Empty the variable `v`, which has just been read, if it is the sentinel of its kind. -/
def emptySentinel (v : Expr) (k : Kind) (preserve : Bool) : Stmt :=
  let sentinel := readSentinel k preserve
  let same (e : Expr) : Expr := .call "isequal" [e, sentinel]
  match k with
  | .char => .assignIf (same (.call "double" [v])) v (.row []) none
  | .boolean =>
    .assignIf (same v) v (.row []) (if preserve then some (v, .call "logical" [v]) else none)
  | _ => .assignIf (same v) v (.row []) none

/-- Read a scalar. -/
def readScalar (field : String) (k : Kind) (preserve : Bool) : List Stmt :=
  if k.isTextual then readText (slot field) field
  else
    let v : Expr := .name ("v_" ++ field)
    [.assign v (fread (.number 1) (scalarPrecision k preserve)),
      emptySentinel v k preserve,
      .assign (slot field) v]

/-- Write a scalar. -/
def writeScalar (field : String) (k : Kind) : List Stmt :=
  if k.isTextual then writeText (slot field) field
  else
    let v : Expr := .name ("v_" ++ field)
    [.assign v (slot field),
      .assignIf (isEmpty v) v (writeSentinel k) none,
      fwrite v (precision k)]

/-! ### Records -/

/-- Read a record into a field. -/
def readComposite (field ident : String) : List Stmt :=
  [.assign (slot field) (readRecord ident)]

/-- Write the record of a field of the type `owner`, which must not be empty. -/
def writeComposite (owner field ident : String) : List Stmt :=
  let complaint := owner ++ "." ++ field ++ " must not be empty"
  [.when (isEmpty (slot field))
      [.run (.call "error" [.text "persistable:emptyComposite", .text complaint])],
    writeRecord ident (slot field)]

/-! ### Arrays -/

/-- The name of the variable of a field for a role and a level. -/
def levelName (role : String) (level : Nat) (field : String) : String :=
  role ++ toString level ++ "_" ++ field

/-- The variable that holds a dimension. -/
def levelValue (level : Nat) (field : String) : Expr :=
  .name (levelName "v" level field)

/-- The variable that holds the number of items of a dimension. -/
def levelCount (level : Nat) (field : String) : Expr :=
  .name (levelName "n" level field)

/-- The variable that counts the items of a dimension. -/
def levelIndex (level : Nat) (field : String) : Expr :=
  .name (levelName "i" level field)

/-- A loop over the items of a dimension. -/
def levelLoop (level : Nat) (field : String) (count : Expr) (body : List Stmt) : Stmt :=
  .loop (levelName "i" level field) (.range (.number 1) count) body

/-- An item of a dimension that is an outer one: the contents of a cell where the innermost items
are texts, else the inner array of a struct. -/
def innerSlot (element : Element) (v index : Expr) : Expr :=
  match element with
  | .text => .contents v index
  | _ => .field (.item v index) "array"

/-- The value of an array without items. -/
def emptyArray : Element → Expr
  | .text => .emptyCell
  | _ => .row []

/-- Read the items of the innermost dimension, which is at `level`. -/
def readItems (field : String) (element : Element) (level : Nat) : List Stmt :=
  let v := levelValue level field
  let n := levelCount level field
  let i := levelIndex level field
  match element with
  | .numeric .char _ =>
    [.assign v (fread (.row [.number 1, n]) (conversion "uint8" "char"))]
  | .numeric k preserve => [.assign v (fread n (arrayPrecision k preserve))]
  | .text =>
    [.assign v (.call "cell" [.number 1, n]),
      levelLoop level field n (readText (.contents v i) field)]
  | .composite ident =>
    let e : Expr := .name ("e_" ++ field)
    [levelLoop level field n
      [.assign e (readRecord ident),
        .whenElse (.equal i (.number 1))
          [.assign v (.call "repmat" [e, .number 1, n])]
          [.assign (.item v i) e]]]

/-- Make room for the items of an outer dimension. -/
def outerArray (element : Element) (n : Expr) : Expr :=
  match element with
  | .text => .call "cell" [.number 1, n]
  | _ => .call "repmat" [.call "struct" [.text "array", .row []], .number 1, n]

/-- Read a dimension at `level` with `inner` dimensions inside it. -/
def readLevel (field : String) (element : Element) : (inner level : Nat) → List Stmt
  | inner, level =>
    let v := levelValue level field
    let n := levelCount level field
    let items :=
      match inner with
      | 0 => readItems field element level
      | inner + 1 =>
        [.assign v (outerArray element n),
          levelLoop level field n
            (readLevel field element inner (level + 1) ++
              [.assign (innerSlot element v (levelIndex level field))
                (levelValue (level + 1) field)])]
    [.assign n freadCount,
      .whenElse (.equal n (.number 0)) [.assign v (emptyArray element)] items]

/-- Read an array of `dims` dimensions. -/
def readArray (field : String) (dims : Nat) (element : Element) : List Stmt :=
  readLevel field element (dims - 1) 1 ++ [.assign (slot field) (levelValue 1 field)]

/-- Write the items of the innermost dimension, which is at `level`. -/
def writeItems (field : String) (element : Element) (level : Nat) : List Stmt :=
  let v := levelValue level field
  let i := levelIndex level field
  match element with
  | .numeric k _ => [.when (.not (isEmpty v)) [fwrite v (precision k)]]
  | .text => [levelLoop level field (numel v) (writeText (.contents v i) field)]
  | .composite ident => [levelLoop level field (numel v) [writeRecord ident (.item v i)]]

/-- Write a dimension at `level` with `inner` dimensions inside it. -/
def writeLevel (field : String) (element : Element) : (inner level : Nat) → List Stmt
  | inner, level =>
    let v := levelValue level field
    let items :=
      match inner with
      | 0 => writeItems field element level
      | inner + 1 =>
        [levelLoop level field (numel v)
          (.assign (levelValue (level + 1) field) (innerSlot element v (levelIndex level field)) ::
            writeLevel field element inner (level + 1))]
    fwrite (numel v) "int32" :: items

/-- Write an array of `dims` dimensions. -/
def writeArray (field : String) (dims : Nat) (element : Element) : List Stmt :=
  .assign (levelValue 1 field) (slot field) :: writeLevel field element (dims - 1) 1

end Matlab

end GraphCodec
