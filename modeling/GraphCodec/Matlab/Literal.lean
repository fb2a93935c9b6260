import GraphCodec.Matlab.Syntax
import GraphCodec.Text.Utf8

/-!
# Identifiers and byte literals

Names of types and fields become parts of MATLAB identifiers, so they have to be identifiers
themselves. Names in the dictionary section are written as literals that stand for exactly their
stored bytes.
-/

namespace GraphCodec

namespace Matlab

/-- The greatest length of an identifier. -/
def maxIdentifier : Nat := 63

/-- Whether a text is an identifier: an ASCII letter, and then letters, digits and underscores. -/
def isIdentifier (s : String) : Bool :=
  match s.toList with
  | [] => false
  | c :: cs =>
    c.isAlpha && cs.all (fun c ↦ c.isAlphanum || c == '_') && Utf8.size s ≤ maxIdentifier

/-- Whether a byte is a visible ASCII character or a blank. -/
def isPlainByte (b : UInt8) : Bool :=
  0x20 ≤ b && b < 0x7F

/-- A literal for the stored bytes of a text: the text itself where it is plain, else the row of its
bytes. -/
def byteLiteral (s : String) : Expr :=
  if (Utf8.bytes s).all isPlainByte then .text s
  else .call "uint8" [.row ((Utf8.bytes s).map fun b ↦ .number b.toNat)]

end Matlab

end GraphCodec
