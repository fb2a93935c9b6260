import GraphCodec.Command.Basic
import GraphCodec.Container.Builder
import GraphCodec.Dictionary.Listing
import GraphCodec.Digest
import GraphCodec.Host.Basic
import GraphCodec.Host.Path
import GraphCodec.Image.Reader
import GraphCodec.Image.Writer
import GraphCodec.Json.Parser
import GraphCodec.MatFile.Image
import GraphCodec.Matlab.Wrapper
import GraphCodec.Schema.Document

/-!
# Carrying out commands

A command reads its input, computes the whole of its result, and only then writes. Input files
have limits on their size, which are checked before reading.
-/

namespace GraphCodec

/-- The greatest size of a schema file. -/
def maxSchemaSize : Nat := 1024 * 1024

/-- The greatest size of a document with a value. -/
def maxDocumentSize : Nat := 100 * 1024 * 1024

/-- The greatest size of any other input file. -/
def maxInputSize : Nat := 500 * 1024 * 1024

namespace Command

variable {m : Type → Type} [Monad m] [Host m]

/-- An action on a host that can fail. -/
abbrev Action (m : Type → Type) (α : Type) := ExceptT Fault m α

/-- The result of an operation on files. -/
def attempt {α : Type} (blame : FileError → FileFault) (operation : m (Except FileError α)) :
    Action m α := do
  match ← operation with
  | .ok a => return a
  | .error e => throw (.file (blame e))

/-- A result that does not need the host. -/
def result {α : Type} : Except Fault α → Action m α
  | .ok a => return a
  | .error e => throw e

/-- Print a line. -/
def printLine (text : String) : Action m Unit :=
  ExceptT.lift (Host.print (text ++ "\n"))

/-! ### Input -/

/-- The bytes of an input file, of which there are at most `limit`. -/
def readInput (path : String) (limit : Nat) : Action m (List UInt8) := do
  let place ← attempt (.inputPath path) (Host.canonical path)
  if !(← ExceptT.lift (Host.isFile place)) then throw (.data (.notRegularFile path))
  let size ← attempt .access (Host.size place)
  if limit < size then throw (.data (.fileTooLarge size limit))
  attempt .access (Host.read place)

/-- The schema in a file. -/
def readSchema (path : String) : Action m Schema := do
  let bs ← readInput path maxSchemaSize
  match Utf8.decode bs with
  | .ok text => result (Schema.ofText text)
  | .error e => throw (.schema (.notUtf8 e))

/-- The document with the given bytes. -/
def documentOf (path : String) (bs : List UInt8) : Except Fault Json :=
  match Utf8.decode bs with
  | .error e => .error (.data (.invalidJson path e.message))
  | .ok text =>
    match Json.parse? text with
    | some json => .ok json
    | none => .error (.data (.invalidJson path "the text is not a JSON document"))

/-- The record of type `t` that a document describes. The document may name the type of the root,
but it cannot choose another one. -/
def recordOf (s : Schema) (t : TypeDef) (json : Json) : Except Fault Record := do
  let r ← Record.ofJson s t json
  if r.typeName ≠ t.name then throw (.polymorphicValue typeKey t.name r.typeName)
  return r

/-- The record of type `t` in a file. -/
def readRecord (s : Schema) (t : TypeDef) (path : String) : Action m Record := do
  let bs ← readInput path maxDocumentSize
  let json ← result (documentOf path bs)
  result (recordOf s t json)

/-! ### Output -/

/-- Where an output file is to be written: its directory has to exist, and it needs a name. -/
def outputPlace (path : String) : Action m String := do
  let p := Path.ofText path
  let parent := (p.parent?.map Path.text).getD ""
  let parent := if parent = "" then "." else parent
  let directory ← attempt (.outputDirectory parent) (Host.canonical parent)
  if !(← ExceptT.lift (Host.isDirectory directory)) then throw (.data (.notDirectory parent))
  match p.fileName? with
  | some name => return Path.join directory name
  | none => throw (.data .noFileName)

/-- Write an output file, and return where it is. -/
def writeOutput (path : String) (bs : List UInt8) : Action m String := do
  let place ← outputPlace path
  attempt .access (Host.write place bs)
  return place

/-- Make do with a directory that could not be created, provided that it exists. -/
def acceptDirectory (path : String) (e : FileError) : Action m Unit := do
  if !(← ExceptT.lift (Host.isDirectory path)) then throw (.file (.access e))

/-- Create a directory, and first its parents as far as they are missing. The paths are the
directory and its parents, the nearest first. -/
def ensureDirectories : List Path → Action m Unit
  | [] => return
  | p :: ps => do
    if p.text = "" then return
    match ← ExceptT.lift (Host.createDirectory p.text) with
    | .ok () => return
    | .error .notFound =>
      ensureDirectories ps
      match ← ExceptT.lift (Host.createDirectory p.text) with
      | .ok () => return
      | .error e => acceptDirectory p.text e
    | .error e => acceptDirectory p.text e

/-- Write generated files into a directory, in order, and return their paths. -/
def writeSources (directory : String) : List Matlab.Source → Action m (List String)
  | [] => return []
  | s :: ss => do
    let path := Path.join directory s.name
    attempt .access (Host.write path (Utf8.bytes s.text))
    return path :: (← writeSources directory ss)

/-! ### The commands -/

/-- Show a dictionary. -/
def showDictionary (schema : String) (root : Option String) (jsonMode : Bool) :
    Action m Unit := do
  let s ← readSchema schema
  let t ← result (s.selectRoot root)
  let d ← result (Dictionary.ofSchema s t)
  if jsonMode then
    let header ← result d.headerBytes
    let tag := ((d.tagFor? t.name).map Dictionary.tagJson).getD .null
    printLine (Json.pretty (.object [("root", .string t.name), ("root_tag", tag),
      ("header_bytes", .integer header.length),
      ("types", .array (d.types.toList.map Dictionary.typeJson))]))
  else ExceptT.lift (Host.print (d.listing t.name))

/-- Store a file image. -/
def storeImage (schema input output : String) (root : Option String) : Action m Unit := do
  let s ← readSchema schema
  let t ← result (s.selectRoot root)
  let r ← readRecord s t input
  let bs ← result (Image.encode s r)
  let place ← writeOutput output bs
  printLine s!"Encoded {t.name} ({bs.length} bytes) -> {place}"

/-- Show a file image. -/
def showImage (input : String) : Action m Unit := do
  let bs ← readInput input maxInputSize
  let content ← result (Image.decode bs)
  printLine content.toJson.pretty

/-- Store a MAT-file. -/
def storeMatFile (schema input output : String) (root : Option String) (variableName : String) :
    Action m Unit := do
  let s ← readSchema schema
  let t ← result (s.selectRoot root)
  let r ← readRecord s t input
  let tree ← result (Container.ofRecord s r)
  let created ← ExceptT.lift Host.now
  let bs ← result (MatFile.image (.new created) variableName tree)
  let place ← writeOutput output bs
  printLine s!"Exported {t.name} as '{variableName}' ({bs.length} bytes) -> {place}"

/-- Store generated functions. -/
def storeSources (schema output : String) (root : Option String) (jsonMode : Bool) :
    Action m Unit := do
  let s ← readSchema schema
  let t ← result (s.selectRoot root)
  let sources ← result (Matlab.generate s t)
  let directory := Path.ofText output
  ensureDirectories (directory :: directory.ancestors)
  let paths ← writeSources output sources
  if jsonMode then
    printLine (Json.pretty (.object [("root", .string t.name),
      ("files", .array (paths.map .string))]))
  else
    printLine s!"Generated {paths.length} files for {t.name}:"
    paths.forM fun path ↦ printLine s!"  {path}"

/-- Show or check the digest of a file. -/
def showDigest (input : String) (expected : Option String) (jsonMode : Bool) :
    Action m Unit := do
  let bs ← readInput input maxInputSize
  let digest := Digest.ofBytes bs
  match expected with
  | some expected =>
    if !Digest.isDigestOf expected bs then
      throw (.data (.digestMismatch input (Digest.trimmed expected) digest))
  | none => pure ()
  if jsonMode then
    printLine (Json.pretty (.object [("file", .string input), ("bytes", .integer bs.length),
      ("blake3", .string digest)]))
  else printLine s!"{digest}  {input}"

end Command

/-- Carry out a command. -/
def Invocation.run {m : Type → Type} [Monad m] [Host m] (i : Invocation) :
    Command.Action m Unit :=
  match i.command with
  | .dictionary schema root => Command.showDictionary schema root i.jsonMode
  | .encode schema input output root => Command.storeImage schema input output root
  | .decode input => Command.showImage input
  | .exportMat schema input output root variableName =>
    Command.storeMatFile schema input output root variableName
  | .generate schema output root => Command.storeSources schema output root i.jsonMode
  | .digest input expected => Command.showDigest input expected i.jsonMode

end GraphCodec
