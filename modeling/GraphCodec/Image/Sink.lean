import GraphCodec.Fault
import GraphCodec.Word

/-!
# Writing stored bytes

Bytes are appended to a buffer, which is an array when run and a list of bytes in statements
(`Sink.bytes`). A length is a signed 32-bit word, so a longer text or array cannot be stored.
-/

namespace GraphCodec

/-- Bytes being written. -/
structure Sink where
  buffer : Array UInt8

namespace Sink

/-- The sink without bytes. -/
def empty : Sink := ⟨#[]⟩

/-- The bytes written so far. -/
def bytes (s : Sink) : List UInt8 :=
  s.buffer.toList

/-- Append bytes. -/
def write (s : Sink) (bs : List UInt8) : Sink :=
  ⟨s.buffer ++ bs⟩

@[simp] theorem bytes_empty : empty.bytes = [] := rfl

@[simp] theorem bytes_write (s : Sink) (bs : List UInt8) :
    (s.write bs).bytes = s.bytes ++ bs := by
  simp [bytes, write]

end Sink

/-- The largest length that can be stored. -/
def maxLength : Nat := 2 ^ 31 - 1

/-- The bytes of a length. -/
def lengthBytes (n : Nat) : Except Fault (List UInt8) :=
  if n ≤ maxLength then .ok (Word.ofInt32 (Int32.ofNat n))
  else .error (.data (.lengthBeyondWord n))

/-- The bytes of a text with its length in front. -/
def textBytes (s : String) : Except Fault (List UInt8) := do
  return (← lengthBytes (Utf8.size s)) ++ Utf8.bytes s

end GraphCodec
