/-!
# Commands

What the program can be asked to do, with the arguments of each request. Paths are texts as they
were given.
-/

namespace GraphCodec

/-- A command with its arguments. -/
inductive Command where
  /-- Show the dictionary of a schema. -/
  | dictionary (schema : String) (root : Option String)
  /-- Store the value of a document as a file image. -/
  | encode (schema input output : String) (root : Option String)
  /-- Show what a file image holds. -/
  | decode (input : String)
  /-- Store the value of a document as a MAT-file. -/
  | exportMat (schema input output : String) (root : Option String) (variableName : String)
  /-- Store the MATLAB functions for a schema in a directory. -/
  | generate (schema output : String) (root : Option String)
  /-- Show the digest of a file, or check it. -/
  | digest (input : String) (expected : Option String)
  deriving DecidableEq, Repr

/-- A command and how it is to be carried out. -/
structure Invocation where
  command : Command
  /-- Whether results are shown as documents. -/
  jsonMode : Bool
  /-- Whether progress is to be reported, which no command does on its output. -/
  verbose : Bool
  deriving DecidableEq, Repr

end GraphCodec
