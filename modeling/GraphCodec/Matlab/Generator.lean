import GraphCodec.Matlab.Field
import GraphCodec.Matlab.Literal
import GraphCodec.Matlab.Printer
import GraphCodec.Walk.SchemaWalk

/-!
# Functions for types

A listener to the walk over the types of a schema generates for every type a function that reads
its records and one that writes them. Functions are named for the simple name of their type, so no
two types may share one; records of other types are read and written by calling the functions of
those types.
-/

namespace GraphCodec

namespace Matlab

/-- A file of generated code. -/
structure Source where
  name : String
  code : List Stmt
  deriving Repr

/-- The text of a file. -/
def Source.text (s : Source) : String :=
  print s.code

/-- The first file with a given name. -/
def source? (sources : List Source) (name : String) : Option Source :=
  sources.find? fun s ↦ s.name == name

/-- The file of the function that `verb` and the identifier of a type name. -/
def fileName (verb ident : String) : String :=
  verb ++ "_" ++ ident ++ ".m"

/-- The bodies of the two functions of a type while its fields are walked. -/
structure TypeCode where
  typeName : String
  ident : String
  reads : List Stmt
  writes : List Stmt
  deriving Repr

namespace TypeCode

/-- The code of a type without fields. -/
def start (t : TypeDef) (ident : String) : TypeCode :=
  let capitals := ident.map Char.toUpper
  let origin : Stmt := .comment s!"   Generated from type {t.name}; do not edit."
  { typeName := t.name
    ident
    reads := [.comment s!"READ_{capitals} Read one {ident} from an open persistable file.", origin,
      .blank, .assign (.name "s") (.call "struct" [])]
    writes := [.comment s!"WRITE_{capitals} Write one {ident} to an open persistable file.",
      origin] }

/-- Add the statements of a field under a heading. -/
def addField (c : TypeCode) (heading : String) (reads writes : List Stmt) : TypeCode :=
  let front : List Stmt := [.blank, .comment (" " ++ heading)]
  { c with reads := c.reads ++ front ++ reads, writes := c.writes ++ front ++ writes }

/-- The two files of a type. -/
def sources (c : TypeCode) : List Source :=
  [⟨fileName "read" c.ident,
      [.function (some "s") ("read_" ++ c.ident) ["fid"] c.reads]⟩,
    ⟨fileName "write" c.ident,
      [.function none ("write_" ++ c.ident) ["fid", "s"] c.writes]⟩]

end TypeCode

/-- What a generator has produced. -/
structure Generator where
  /-- The types being walked, innermost first. -/
  pending : List TypeCode
  /-- The finished files. -/
  files : List Source
  /-- The identifiers in use, each with the type that has it. -/
  idents : List (String × String)

namespace Generator

/-- The generator that has been told nothing. -/
def start : Generator :=
  ⟨[], [], []⟩

/-- The identifier of a type, which from now on belongs to it. -/
def identFor (t : TypeDef) : EStateM Fault Generator String := fun g ↦
  let ident := t.simpleName
  if !isIdentifier ("write_" ++ ident) then .error (.schema (.notFunctionName t.name)) g
  else
    match g.idents.lookup ident with
    | some owner =>
      if owner = t.name then .ok ident g
      else .error (.schema (.sameFunctions owner t.name ident)) g
    | none => .ok ident { g with idents := (ident, t.name) :: g.idents }

/-- Change the code of the innermost type by that of the field `name`. -/
def onCurrent (name : String) (f : TypeCode → TypeCode) : EStateM Fault Generator Unit := fun g ↦
  if !isIdentifier name then .error (.schema (.notFieldName name)) g
  else
    match g.pending with
    | [] => .error (.unbalanced 1 0) g
    | c :: cs => .ok () { g with pending := f c :: cs }

/-- The files of the innermost type, which has been walked. -/
def finishType : EStateM Fault Generator Unit := fun g ↦
  match g.pending with
  | [] => .error (.unbalanced 1 0) g
  | c :: cs => .ok () { g with pending := cs, files := g.files ++ c.sources }

/-- The brackets of an array in a heading. -/
def brackets (dims : Nat) : String :=
  String.join (List.replicate dims "[]")

/-- The innermost items of an array of a primitive kind. -/
def elementOf (k : Kind) (preserve : Bool) : Element :=
  if k.isTextual then .text else .numeric k preserve

/-- Add an array field. -/
def addArray (name itemName : String) (dims : Nat) (element : Element) :
    EStateM Fault Generator Unit :=
  onCurrent name fun c ↦
    c.addField s!"{itemName}{brackets dims} {name}" (readArray name dims element)
      (writeArray name dims element)

/-- The generator as a listener. -/
def listener : Listener SchemaEvent Generator
  | .beginType _ t => do
    let ident ← identFor t
    modify fun g ↦ { g with pending := TypeCode.start t ident :: g.pending }
  | .endType _ => finishType
  | .primitive name k preserve =>
    onCurrent name fun c ↦
      c.addField s!"{k.name} {name}" (readScalar name k preserve) (writeScalar name k)
  | .primitiveArray name k dims preserve =>
    if k == .char && 1 < dims then throw (.ambiguousEmptyText name)
    else addArray name k.name dims (elementOf k preserve)
  | .composite name t => do
    let ident ← identFor t
    onCurrent name fun c ↦
      c.addField s!"{ident} {name}" (readComposite name ident) (writeComposite c.ident name ident)
  | .compositeArray name t dims => do
    let ident ← identFor t
    addArray name ident dims (.composite ident)
  | .unknown owner f => throw (unsupportedField owner f)

end Generator

end Matlab

end GraphCodec
