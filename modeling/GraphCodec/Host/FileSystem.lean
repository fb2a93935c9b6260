import GraphCodec.Host.Basic
import GraphCodec.Host.Path

/-!
# File systems as values

A file system is a tree of directories, files and devices. One directory is its home, from which
relative paths start. Following a path goes from directory to directory, part by part, so a path
through a file leads nowhere even if it leaves it again; the way back is the way that was come, and
above the root there is the root.

`World` adds a clock that stands still and the text printed so far; commands run on it as they do
on a machine.
-/

namespace GraphCodec

/-! ### Contents -/

/-- The contents of a file as runs of bytes, each a number of times in sequence. -/
structure Contents where
  runs : List (Nat × List UInt8)
  deriving DecidableEq

namespace Contents

/-- The contents with the given bytes. -/
def ofBytes (bs : List UInt8) : Contents :=
  ⟨[(1, bs)]⟩

-- The empty sum is the literal zero, whatever structure `Nat` has where this is read.
attribute [local instance (high)] Zero.ofOfNat0

/-- The number of bytes. -/
def size (c : Contents) : Nat :=
  (c.runs.map fun r ↦ r.1 * r.2.length).sum

/-- The bytes. -/
def bytes (c : Contents) : List UInt8 :=
  c.runs.flatMap fun r ↦ (List.replicate r.1 r.2).flatten

@[simp] theorem bytes_ofBytes (bs : List UInt8) : (ofBytes bs).bytes = bs := by
  simp [ofBytes, bytes]

@[simp] theorem length_bytes (c : Contents) : c.bytes.length = c.size := by
  simp [bytes, size, List.length_flatMap]

end Contents

/-! ### Trees -/

/-- What stands at a place. -/
inductive FileNode where
  | file (contents : Contents)
  | directory (entries : List (String × FileNode))
  /-- A thing that takes whatever is written to it and keeps nothing. -/
  | device

/-- The names on the way from the root to a place. -/
abbrev Place := List String

namespace FileNode

/-- The entries of a directory after a name in it stands for a node. -/
def setEntry (name : String) (n : FileNode) : List (String × FileNode) → List (String × FileNode)
  | [] => [(name, n)]
  | e :: es => if e.1 = name then (name, n) :: es else e :: setEntry name n es

/-- Put a node at a place below some entries. The directories on the way have to exist. -/
def put (n : FileNode) : Place → List (String × FileNode) → List (String × FileNode)
  | [], es => es
  | [name], es => setEntry name n es
  | name :: next :: place, es =>
    match es.lookup name with
    | some (directory inner) => setEntry name (directory (put n (next :: place) inner)) es
    | _ => es

theorem sizeOf_lt_of_mem_entries {es : List (String × FileNode)} {e : String × FileNode}
    (h : e ∈ es) : sizeOf e.2 < sizeOf es := by
  have hmem := List.sizeOf_lt_of_mem h
  have : sizeOf e = 1 + sizeOf e.1 + sizeOf e.2 := by cases e; rfl
  omega

/-- The files at or below a node, each with its place as seen from there. -/
def files : FileNode → List (Place × Contents)
  | file c => [([], c)]
  | directory es => es.attach.flatMap fun ⟨e, _he⟩ ↦ e.2.files.map fun f ↦ (e.1 :: f.1, f.2)
  | device => []
  termination_by n => sizeOf n
  decreasing_by
    have := sizeOf_lt_of_mem_entries _he
    simp only [directory.sizeOf_spec]
    omega

end FileNode

/-! ### File systems -/

/-- A tree with a home. -/
structure FileSystem where
  /-- The entries of the root. -/
  root : List (String × FileNode)
  /-- The place of the directory from which relative paths start. -/
  home : Place

namespace FileSystem

/-- The longest name of a file, in bytes. -/
def maxNameSize : Nat := 255

/-- The longest path that an operation takes, in bytes. -/
def maxPathSize : Nat := 4095

/-- The places passed on a way from the root, the last first, each with its name and what stands
there. The empty trail ends at the root. -/
abbrev Trail := List (String × FileNode)

/-- What stands at the end of a trail. -/
def nodeAt (fs : FileSystem) : Trail → FileNode
  | [] => .directory fs.root
  | (_, n) :: _ => n

/-- The place at the end of a trail. -/
def placeOf (trail : Trail) : Place :=
  (trail.map Prod.fst).reverse

/-- Follow parts from the end of a trail. -/
def follow (fs : FileSystem) (trail : Trail) : List String → Except FileError Trail
  | [] => .ok trail
  | part :: parts =>
    match fs.nodeAt trail with
    | .directory entries =>
      if Path.isIdle part then fs.follow trail parts
      else if part = ".." then fs.follow trail.tail parts
      else if maxNameSize < part.utf8ByteSize then .error .nameTooLong
      else
        match entries.lookup part with
        | some n => fs.follow ((part, n) :: trail) parts
        | none => .error .notFound
    | .file _ | .device => .error .notDirectory

/-- Follow the parts of a path from where it starts. -/
def followPath (fs : FileSystem) (absolute : Bool) (parts : List String) :
    Except FileError Trail := do
  if absolute then fs.follow [] parts else fs.follow (← fs.follow [] fs.home) parts

/-- The path in a text that names a file. -/
def pathIn (text : String) : Except FileError Path :=
  if '\x00' ∈ text.toList then .error .nulInName else .ok (Path.ofText text)

/-- The path in a text that is given to an operation on what the path leads to. -/
def operand (text : String) : Except FileError Path := do
  let p ← pathIn text
  if maxPathSize < text.utf8ByteSize then throw .nameTooLong
  return p

/-- The absolute path of the place to which a path leads. It is found by going there, so a path of
any length will do. -/
def canonical (fs : FileSystem) (path : String) : Except FileError String := do
  let p ← pathIn path
  return Path.text ⟨true, placeOf (← fs.followPath p.absolute p.parts)⟩

/-- What a path leads to. -/
def get (fs : FileSystem) (path : String) : Except FileError FileNode := do
  let p ← operand path
  return fs.nodeAt (← fs.followPath p.absolute p.parts)

/-- The contents of what a path leads to. -/
def contents (fs : FileSystem) (path : String) : Except FileError Contents := do
  match ← fs.get path with
  | .file c => return c
  | .directory _ => throw .isDirectory
  | .device => return .ofBytes []

/-- The place of an entry of a directory that exists, whether or not the entry does. -/
structure Entry where
  directory : Place
  name : String
  /-- What stands there. -/
  node? : Option FileNode

/-- Whether a name is no name of an entry but says where to go. -/
def isWay (name : String) : Bool :=
  Path.isIdle name || name == ".."

/-- The entry that a path names, or `none` when the last part of the path is not a name. -/
def entry? (fs : FileSystem) (absolute : Bool) (parts : List String) :
    Except FileError (Option Entry) := do
  let trail ← fs.followPath absolute parts.dropLast
  match fs.nodeAt trail with
  | .directory entries =>
    let name := parts.getLast?.getD ""
    if isWay name then return none
    else if maxNameSize < name.utf8ByteSize then throw .nameTooLong
    else return some ⟨placeOf trail, name, entries.lookup name⟩
  | .file _ | .device => throw .notDirectory

/-- Put a node at an entry. -/
def insert (fs : FileSystem) (e : Entry) (n : FileNode) : FileSystem :=
  { fs with root := n.put (e.directory ++ [e.name]) fs.root }

/-- Create a file or replace its contents. -/
def write (fs : FileSystem) (path : String) (bs : List UInt8) : Except FileError FileSystem := do
  let p ← operand path
  match ← fs.entry? p.absolute p.parts with
  | none => throw .isDirectory
  | some e =>
    match e.node? with
    | some (.directory _) => throw .isDirectory
    | some .device => return fs
    | some (.file _) | none => return fs.insert e (.file (.ofBytes bs))

/-- Create a directory in an existing one. Slashes after its name mean nothing. -/
def createDirectory (fs : FileSystem) (path : String) : Except FileError FileSystem := do
  let p ← operand path
  match ← fs.entry? p.absolute (p.parts.reverse.dropWhile (· == "")).reverse with
  | none => throw .alreadyExists
  | some e =>
    if e.node?.isSome then throw .alreadyExists else return fs.insert e (.directory [])

/-- The files below the home directory, each with its place as seen from there. -/
def files (fs : FileSystem) : List (Place × Contents) :=
  match fs.follow [] fs.home with
  | .ok trail => (fs.nodeAt trail).files
  | .error _ => []

end FileSystem

/-! ### Worlds -/

/-- A file system, a clock that stands still, and what has been printed. -/
structure World where
  files : FileSystem
  clock : Instant
  output : String

namespace World

/-- Change the files, unless that is refused. -/
def change (f : FileSystem → Except FileError FileSystem) :
    StateM World (Except FileError Unit) := fun w ↦
  match f w.files with
  | .ok files => (.ok (), { w with files })
  | .error e => (.error e, w)

instance : Host (StateM World) where
  canonical path := fun w ↦ (w.files.canonical path, w)
  isFile path := fun w ↦ ((w.files.get path matches .ok (.file _)), w)
  isDirectory path := fun w ↦ ((w.files.get path matches .ok (.directory _)), w)
  size path := fun w ↦ ((w.files.contents path).map Contents.size, w)
  read path := fun w ↦ ((w.files.contents path).map Contents.bytes, w)
  write path bs := change fun fs ↦ fs.write path bs
  createDirectory path := change fun fs ↦ fs.createDirectory path
  now := fun w ↦ (w.clock, w)
  print text := fun w ↦ ((), { w with output := w.output ++ text })

end World

end GraphCodec
