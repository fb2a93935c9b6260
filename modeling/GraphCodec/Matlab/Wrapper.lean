import GraphCodec.Dictionary.OfSchema
import GraphCodec.Matlab.Generator

/-!
# Functions for files

For the root type there are two more functions, which open a file themselves. The one that loads
checks the magic number and the tag of the root type and skips the dictionary; the one that saves
writes all of them as literals, word for word what a file image begins with.
-/

namespace GraphCodec

namespace Matlab

/-! ### Common statements -/

/-- Stop with a message. -/
def complain (identifier : String) (args : List Expr) : Stmt :=
  .run (.call "error" (.text identifier :: args))

/-- Open the file and see to it that it will be closed. -/
def openFile (mode : String) : List Stmt :=
  [.assign file (.call "fopen" [.name "filename", .text mode, .text "n"]),
    .when (.less file (.number 0))
      [complain "persistable:open" [.text "Cannot open %s", .name "filename"]],
    .assign (.name "cleanup") (.call "onCleanup" [.thunk (.call "fclose" [file])])]

/-- Check that a number that has been read is the expected one. -/
def expectNumber (name : String) (v : Int) (complaint : Stmt) : Stmt :=
  .when (.not (.call "isequal" [.name name, .number v])) [complaint]

/-! ### Loading -/

/-- Skip a text. -/
def skipText : Stmt :=
  .run (.call "fseek" [file, freadCount, .text "cof"])

/-- Skip `count` words. -/
def skipWords (count : Int) : Stmt :=
  .run (fread (.number count) "int32")

/-- Skip the dictionary. -/
def skipDictionary : List Stmt :=
  [.assign (.name "nTypes") freadCount,
    .loop "t" (.range (.number 1) (.name "nTypes"))
      [skipWords 1, skipText, .assign (.name "nFields") freadCount,
        .loop "f" (.range (.number 1) (.name "nFields")) [skipText, skipWords 2]]]

/-- The file of the function that loads a file image. -/
def loadSource (ident : String) (rootTag : Tag) : Source :=
  let capitals := ident.map Char.toUpper
  let badMagic := complain "persistable:magic"
    [.text "Not a persistable file: %s", .name "filename"]
  let badTag := complain "persistable:type"
    [.text s!"Top-level type tag %d is not a {ident}", .name "tag"]
  let body :=
    .comment s!"LOAD_{capitals} Load a {ident} from a persistable binary file." :: .blank ::
      openFile "r" ++
      [.blank,
        .assign (.name "magic") freadCount,
        expectNumber "magic" magic.toInt badMagic,
        .blank,
        .comment " dictionary (not needed: the layout is compiled in)"] ++
      skipDictionary ++
      [.blank,
        .assign (.name "tag") freadCount,
        expectNumber "tag" rootTag.toInt badTag,
        .assign (.name "s") (readRecord ident)]
  ⟨fileName "load" ident, [.function (some "s") ("load_" ++ ident) ["filename"] body]⟩

/-! ### Saving -/

/-- Write a number as a word. -/
def writeWord (v : Int) : Stmt :=
  fwrite (.number v) "int32"

/-- Write a text with its length in front. -/
def writeName (s : String) : List Stmt :=
  writeWord (Utf8.size s) :: if s = "" then [] else [fwrite (byteLiteral s) "uint8"]

/-- Write a field of a type. -/
def writeFieldEntry (f : FieldEntry) : List Stmt :=
  writeName f.name ++ [fwrite (.row [.number f.tag.toInt, .number f.dims.toInt]) "int32"]

/-- Write a type. -/
def writeTypeEntry (t : TypeEntry) : List Stmt :=
  [.blank, .comment s!" {t.name} ({t.tag.toInt})", writeWord t.tag.toInt] ++ writeName t.name ++
    writeWord t.fields.length :: t.fields.flatMap writeFieldEntry

/-- The statements that write the magic number, the dictionary and the tag of the root type. -/
def writePreamble (d : Dictionary) (rootTag : Tag) : List Stmt :=
  [writeWord magic.toInt, .blank, .comment s!" dictionary: {d.types.size} types",
      writeWord d.types.size] ++
    d.types.toList.flatMap writeTypeEntry ++ [.blank, writeWord rootTag.toInt]

/-- The file of the function that saves a file image. -/
def saveSource (ident : String) (rootTag : Tag) (d : Dictionary) : Source :=
  let capitals := ident.map Char.toUpper
  let body :=
    .comment s!"SAVE_{capitals} Save a {ident} to a persistable binary file." :: .blank ::
      openFile "w" ++ .blank :: writePreamble d rootTag ++ [writeRecord ident (.name "s")]
  ⟨fileName "save" ident, [.function none ("save_" ++ ident) ["filename", "s"] body]⟩

/-! ### All files -/

/-- The files for a root type: those of the types that it reaches, and those that load and save
file images. -/
def generate (s : Schema) (root : TypeDef) : Except Fault (List Source) := do
  let (_, g) ← Trace.outcomeFrom Generator.listener Generator.start (s.walk root)
  if g.pending ≠ [] then throw (.unbalanced 0 g.pending.length)
  let d ← Dictionary.ofSchema s root
  match d.tagFor? root.name with
  | none => throw (.unregisteredType root.name)
  | some rootTag =>
    match Generator.identFor root g with
    | .error e _ => throw e
    | .ok ident g => return g.files ++ [loadSource ident rootTag, saveSource ident rootTag d]

end Matlab

end GraphCodec
