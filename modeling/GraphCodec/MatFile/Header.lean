import GraphCodec.Fault
import GraphCodec.Instant.Basic
import GraphCodec.Text.Blank
import GraphCodec.Word

/-!
# The header of a MAT-file

A Level 5 MAT-file begins with 128 bytes: 116 of descriptive text, eight that are not used, the
version and a word that shows the byte order. A longer text is cut, even inside a character, and a
shorter one is followed by blanks; reading takes trailing blanks for such padding.
-/

namespace GraphCodec

namespace MatFile

/-- The number of bytes of the descriptive text. -/
def textSize : Nat := 116

/-- The number of bytes of a header. -/
def headerSize : Nat := 128

/-- The version of the format. -/
def version : UInt16 := 0x0100

/-- The letters `MI` as one word. A reader with the other byte order sees them exchanged. -/
def byteOrderMark : UInt16 := 0x4D49

/-- The header of a MAT-file. -/
structure Header where
  text : String
  version : UInt16
  byteOrder : UInt16
  deriving DecidableEq, Repr

namespace Header

/-- The header of a file created at a given time. -/
def new (created : Instant) : Header :=
  ⟨s!"MATLAB 5.0 MAT-file, Platform: linux, Created on: {created.stamp}", MatFile.version,
    byteOrderMark⟩

/-- Check the version and the byte order. -/
def validate (h : Header) : Except Fault Unit :=
  if h.version ≠ MatFile.version then .error (.data (.matVersion h.version))
  else if h.byteOrder ≠ byteOrderMark then .error (.data .matByteOrder)
  else .ok ()

/-- The bytes of the descriptive text, cut or filled with blanks to its size. -/
def textBytes (text : String) : List UInt8 :=
  let bs := (Utf8.bytes text).take textSize
  bs ++ List.replicate (textSize - bs.length) 0x20

/-- The bytes of a header. -/
def bytes (h : Header) : List UInt8 :=
  textBytes h.text ++ List.replicate 8 0 ++ Word.ofUInt16 h.version ++ Word.ofUInt16 h.byteOrder

/-- The header at the front of a run of bytes. -/
def ofBytes (bs : List UInt8) : Except Fault Header :=
  if (bs.take headerSize).length < headerSize then .error (.data .matHeaderTooShort)
  else
    let text := Text.trimEnd (Utf8.lossy (bs.take textSize))
    let words := (bs.drop (textSize + 8)).take 4
    .ok ⟨String.ofList text, .ofNat (Word.value (words.take 2)), .ofNat (Word.value (words.drop 2))⟩

@[simp] theorem length_textBytes (text : String) : (textBytes text).length = textSize := by
  simp only [textBytes, List.length_append, List.length_replicate, List.length_take]
  omega

@[simp] theorem length_bytes (h : Header) : h.bytes.length = headerSize := by
  simp [bytes, Word.ofUInt16, textSize, headerSize]

end Header

end MatFile

end GraphCodec
