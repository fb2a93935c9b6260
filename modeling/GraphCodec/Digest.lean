import GraphCodec.Text.Blank
import GraphCodec.Word

/-!
# BLAKE3 digests

The digest of a run of bytes is the BLAKE3 hash of 32 bytes. The input is divided into chunks of
1024 bytes, each of which is compressed block by block; the chunks are the leaves of a binary tree
whose left subtrees are as large as possible and complete. The last compression, whether of the
only chunk or at the root of the tree, carries a mark of its own.
-/

namespace GraphCodec

namespace Digest

/-! ### Compression -/

/-- Eight words that chain one compression to the next. -/
abbrev Chain := Vector UInt32 8

/-- The sixteen words of a block, or of the state of a compression. -/
abbrev Block := Vector UInt32 16

/-- The chain from which hashing starts. -/
def initialChain : Chain :=
  #v[0x6A09E667, 0xBB67AE85, 0x3C6EF372, 0xA54FF53A, 0x510E527F, 0x9B05688C, 0x1F83D9AB, 0x5BE0CD19]

/-- Rotate a word to the right by `n` bits, of which there are from 1 to 31. -/
def rotateRight (w : UInt32) (n : UInt32) : UInt32 :=
  w >>> n ||| w <<< (32 - n)

/-- Mix two words of a block into four words of the state. -/
def mix (v : Block) (a b c d : Fin 16) (x y : UInt32) : Block :=
  let v := v.set a (v[a] + v[b] + x)
  let v := v.set d (rotateRight (v[d] ^^^ v[a]) 16)
  let v := v.set c (v[c] + v[d])
  let v := v.set b (rotateRight (v[b] ^^^ v[c]) 12)
  let v := v.set a (v[a] + v[b] + y)
  let v := v.set d (rotateRight (v[d] ^^^ v[a]) 8)
  let v := v.set c (v[c] + v[d])
  v.set b (rotateRight (v[b] ^^^ v[c]) 7)

/-- Mix a block into the columns and then the diagonals of the state. -/
def round (v m : Block) : Block :=
  let v := mix v 0 4 8 12 m[0] m[1]
  let v := mix v 1 5 9 13 m[2] m[3]
  let v := mix v 2 6 10 14 m[4] m[5]
  let v := mix v 3 7 11 15 m[6] m[7]
  let v := mix v 0 5 10 15 m[8] m[9]
  let v := mix v 1 6 11 12 m[10] m[11]
  let v := mix v 2 7 8 13 m[12] m[13]
  mix v 3 4 9 14 m[14] m[15]

/-- The block in the order of the next round. -/
def permute (m : Block) : Block :=
  #v[m[2], m[6], m[3], m[10], m[7], m[0], m[4], m[13], m[1], m[11], m[12], m[5], m[9], m[14], m[15],
    m[8]]

/-- Rounds of mixing, with the block permuted between them. -/
def rounds : (n : Nat) → (v m : Block) → Block
  | 0, v, _ => v
  | n + 1, v, m => rounds n (round v m) (permute m)

/-- A compression that is still to be done, because it may turn out to be the last. -/
structure Step where
  chain : Chain
  block : Block
  /-- The number of the chunk. -/
  counter : Nat
  /-- The number of bytes in the block. -/
  size : Nat
  flags : UInt32

namespace Step

/-- The chain after a compression. -/
def compress (s : Step) : Chain :=
  let h := s.chain
  let v : Block :=
    #v[h[0], h[1], h[2], h[3], h[4], h[5], h[6], h[7], initialChain[0], initialChain[1],
      initialChain[2], initialChain[3], .ofNat s.counter, .ofNat (s.counter / 2 ^ 32),
      .ofNat s.size, s.flags]
  let v := rounds 7 v s.block
  #v[v[0] ^^^ v[8], v[1] ^^^ v[9], v[2] ^^^ v[10], v[3] ^^^ v[11], v[4] ^^^ v[12], v[5] ^^^ v[13],
    v[6] ^^^ v[14], v[7] ^^^ v[15]]

/-- The mark of the first block of a chunk. -/
def startFlag : UInt32 := 1

/-- The mark of the last block of a chunk. -/
def endFlag : UInt32 := 2

/-- The mark of an inner node of the tree. -/
def parentFlag : UInt32 := 4

/-- The mark of the last compression. -/
def rootFlag : UInt32 := 8

/-- The 32 bytes of the last compression. -/
def finish (s : Step) : List UInt8 :=
  ({ s with counter := 0, flags := s.flags ||| rootFlag }).compress.toList.flatMap Word.ofUInt32

end Step

/-! ### Chunks -/

/-- The number of bytes of a block. -/
def blockSize : Nat := 64

/-- The number of bytes of a chunk. -/
def chunkSize : Nat := 1024

/-- The words of a block that begins with the given bytes and goes on with zeros. -/
def blockOf (bs : List UInt8) : Block :=
  Vector.ofFn fun i ↦ .ofNat (Word.value ((bs.drop (4 * i)).take 4))

/-- The last compression of a chunk, after those of the blocks before it. `flags` is the mark of the
next block. -/
def chunkStep (counter : Nat) (flags : UInt32) (chain : Chain) (bs : List UInt8) : Step :=
  if blockSize < bs.length then
    let s : Step := ⟨chain, blockOf (bs.take blockSize), counter, blockSize, flags⟩
    chunkStep counter 0 s.compress (bs.drop blockSize)
  else ⟨chain, blockOf bs, counter, bs.length, flags ||| Step.endFlag⟩
  termination_by bs.length
  decreasing_by
    simp only [List.length_drop, blockSize] at *
    omega

/-- The chunks of a run of bytes, of which there is at least one. -/
def chunks (bs : List UInt8) : List (List UInt8) :=
  match _h : bs.drop chunkSize with
  | [] => [bs]
  | b :: rest => bs.take chunkSize :: chunks (b :: rest)
  termination_by bs.length
  decreasing_by
    have h := congrArg List.length _h
    simp only [List.length_drop, List.length_cons, chunkSize] at h ⊢
    omega

/-! ### The tree -/

/-- The compression of two subtrees. -/
def parentStep (left right : Chain) : Step :=
  ⟨initialChain, left ++ right, 0, blockSize, Step.parentFlag⟩

/-- The number of chunks in the left subtree of a tree of `n`: the greatest power of two below
`n`. -/
def leftSize (n : Nat) : Nat :=
  2 ^ (n - 1).log2

theorem leftSize_lt {n : Nat} (h : 2 ≤ n) : leftSize n < n := by
  have := Nat.log2_self_le (n := n - 1) (by omega)
  unfold leftSize
  omega

theorem leftSize_pos (n : Nat) : 0 < leftSize n :=
  Nat.two_pow_pos _

/-- The last compression of a tree whose first chunk has the number `counter`. -/
def treeStep (counter : Nat) (cs : List (List UInt8)) : Step :=
  if _h : 2 ≤ cs.length then
    let k := leftSize cs.length
    parentStep (treeStep counter (cs.take k)).compress (treeStep (counter + k) (cs.drop k)).compress
  else chunkStep counter Step.startFlag initialChain cs.flatten
  termination_by cs.length
  decreasing_by
    · have := leftSize_lt _h
      simp only [List.length_take]
      omega
    · have := leftSize_pos cs.length
      simp only [List.length_drop]
      omega

/-- The 32 bytes of the hash. -/
def hash (bs : List UInt8) : List UInt8 :=
  (treeStep 0 (chunks bs)).finish

/-! ### Digests as text -/

/-- The two hexadecimal digits of a byte. -/
def hexDigits (b : UInt8) : List Char :=
  [Nat.digitChar (b.toNat / 16), Nat.digitChar (b.toNat % 16)]

/-- The digest of a run of bytes, in lower-case hexadecimal digits. -/
def ofBytes (bs : List UInt8) : String :=
  String.ofList ((hash bs).flatMap hexDigits)

/-- A digest as it may be given, without the blanks around it. -/
def trimmed (expected : String) : String :=
  String.ofList (Text.trim expected.toList)

/-- Whether a digest is the expected one. Blanks around it and the case of its digits do not
matter. -/
def isDigestOf (expected : String) (bs : List UInt8) : Bool :=
  (trimmed expected).map Char.toLower == ofBytes bs

end Digest

end GraphCodec
