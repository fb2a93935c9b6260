import GraphCodec.Fault

/-!
# What commands need of their surroundings

Commands read and write files, look at the clock and print. `Host` lists these operations for an
arbitrary monad, so a command is one definition that runs both on a real machine and on a file
system that is a value.
-/

namespace GraphCodec

/-- The operations of the machine on which a command runs. -/
class Host (m : Type → Type) where
  /-- The absolute path of an existing file or directory. -/
  canonical (path : String) : m (Except FileError String)
  /-- Whether a path leads to a file. -/
  isFile (path : String) : m Bool
  /-- Whether a path leads to a directory. -/
  isDirectory (path : String) : m Bool
  /-- The number of bytes of a file. -/
  size (path : String) : m (Except FileError Nat)
  /-- The bytes of a file. -/
  read (path : String) : m (Except FileError (List UInt8))
  /-- Create a file or replace its contents. -/
  write (path : String) (bytes : List UInt8) : m (Except FileError Unit)
  /-- Create a directory in an existing one. -/
  createDirectory (path : String) : m (Except FileError Unit)
  /-- The present time. -/
  now : m Instant
  /-- Print a text. -/
  print (text : String) : m Unit

end GraphCodec
