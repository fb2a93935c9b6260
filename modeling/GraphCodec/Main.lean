import GraphCodec.Command.Arguments
import GraphCodec.Command.Run
import Std.Time.DateTime.Timestamp

/-!
# The program

The command line on a real machine. Everything that a command decides is decided elsewhere; here
are only the operations that it needs, and the exit code.
-/

namespace GraphCodec

/-- Why the file system refused, told by the kind and the number of an error. -/
def FileError.ofError : IO.Error → FileError
  | .noFileOrDirectory _ 20 _ => .notDirectory
  | .noFileOrDirectory .. => .notFound
  | .alreadyExists .. => .alreadyExists
  | .inappropriateType _ 20 _ => .notDirectory
  | .inappropriateType _ 21 _ => .isDirectory
  | .invalidArgument _ 36 _ => .nameTooLong
  | e => .other (toString e)

/-- The result of an operation, or why it was refused. -/
def refusable {α : Type} (operation : IO α) : IO (Except FileError α) := do
  try
    return .ok (← operation)
  catch e =>
    return .error (.ofError e)

/-- What stands at a path, with links followed. -/
def metadata (path : String) : IO IO.FS.Metadata := do
  (← IO.FS.realPath path).metadata

/-- Whether a path leads to something of a type. -/
def hasType (path : String) (type : IO.FS.FileType) : IO Bool := do
  match ← refusable (metadata path) with
  | .ok found => return found.type == type
  | .error _ => return false

instance : Host IO where
  canonical path := refusable do
    try
      return (← IO.FS.realPath path).toString
    catch e =>
      -- To open the path fails too, and tells why.
      IO.FS.withFile path .read fun _ ↦ throw e
  isFile path := hasType path .file
  isDirectory path := hasType path .dir
  size path := refusable do return (← metadata path).byteSize.toNat
  read path := refusable do return (← IO.FS.readBinFile path).toList
  write path bs := refusable (IO.FS.writeBinFile path ⟨bs.toArray⟩)
  createDirectory path := refusable (IO.FS.createDir path)
  now := do
    let nanos := (← Std.Time.Timestamp.now).toNanosecondsSinceUnixEpoch.toInt
    let seconds := nanos / 1000000000
    return Instant.ofLocal (seconds / 86400) (seconds % 86400 / 3600).toNat
      (seconds / 60 % 60).toNat (seconds % 60).toNat (nanos % 1000000000).toNat 0
  print text := do
    (← IO.getStdout).putStr text

/-- What is printed when the arguments ask for nothing that can be done. -/
def usage : String :=
  "usage: (dictionary | encode | decode | export-mat | generate | digest) OPTIONS"

/-- Carry out the command that the arguments ask for, and return the exit code. -/
def runArguments (args : List String) : IO UInt32 := do
  match Arguments.parse? args with
  | none =>
    IO.eprintln usage
    return 2
  | some invocation =>
    match ← (invocation.run : Command.Action IO Unit) with
    | .ok () => return 0
    | .error e =>
      IO.eprintln s!"error: {e.message}"
      return 1

end GraphCodec

/-- The program. -/
def main (args : List String) : IO UInt32 :=
  GraphCodec.runArguments args
