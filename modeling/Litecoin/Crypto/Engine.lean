import Litecoin.Consensus.Encode
import Litecoin.Wire.Blocks

/-! The engines of the `hashes` crate (`util.rs`, `sha256.rs`, `sha512.rs`, `sha1.rs`,
`ripemd160.rs`) over any compression functions. A panic, in a release build or not, is `none`. -/
namespace Litecoin
open Wire Consensus

/-- `to_be_bytes`. -/
def bigEndianBytes (width value : Nat) : Bytes := (littleEndian width value).reverse

/-- What is particular to an engine: the words of the state, the block, the state at the start, what
`process_block` makes of the state, and the order of the bytes in a word. -/
structure Algorithm where
  Word : Type
  words : Nat
  wordSize : Nat
  blockSize : Nat
  positive : 0 < blockSize
  h : Vector Word words
  processBlock : Vector Word words → ByteArr blockSize → Vector Word words
  wordBytes : Word → ByteArr wordSize

structure HashEngine (a : Algorithm) where
  buffer : ByteArr a.blockSize
  h : Vector a.Word a.words
  length : Nat

namespace HashEngine
variable {a : Algorithm}

def zeroBuffer (size : Nat) : ByteArr size := ⟨(Vector.replicate size 0).toList, Vector.length_toList⟩

/-- `Default for HashEngine`. -/
def default (a : Algorithm) : HashEngine a := ⟨zeroBuffer a.blockSize, a.h, 0⟩

/-- `copy_from_slice` into a part of the buffer. -/
def copyFromSlice (buffer : ByteArr n) (start : Nat) (slice : Bytes) : Option (ByteArr n) :=
  if fits : start + slice.length ≤ n then
    some ⟨buffer.val.take start ++ slice ++ buffer.val.drop (start + slice.length), by
      rw [List.length_append, List.length_append, List.length_take, List.length_drop, buffer.property]
      omega⟩
  else none

/-- `buffer[index] = byte`. -/
def setByte (buffer : ByteArr n) (index : Nat) (byte : UInt8) : Option (ByteArr n) :=
  copyFromSlice buffer index [byte]

/-- The sum of two values of `usize`, which has 64 bits. -/
def add (length more : Nat) : Option Nat := if length + more < 2 ^ 64 then some (length + more) else none

/-- The body of the loop in `engine_input_impl`. -/
def write (e : HashEngine a) (slice : Bytes) : Option (HashEngine a) := do
  let buffer ← copyFromSlice e.buffer (e.length % a.blockSize) slice
  let length ← add e.length slice.length
  some { buffer, length, h := if length % a.blockSize = 0 then a.processBlock e.h buffer else e.h }

/-- `engine_input_impl`. -/
def input (e : HashEngine a) (inp : Bytes) : Option (HashEngine a) :=
  if inp = [] then some e
  else
    let remLen := a.blockSize - e.length % a.blockSize
    let writeLen := min remLen inp.length
    (e.write (inp.take writeLen)).bind fun next => next.input (inp.drop writeLen)
termination_by inp.length
decreasing_by
  have room := Nat.mod_lt e.length a.positive
  have some' := List.length_pos_iff.mpr ‹¬inp = []›
  rw [List.length_drop]
  omega

/-- Several pieces, one after another. -/
def inputs (e : HashEngine a) (pieces : List Bytes) : Option (HashEngine a) := pieces.foldlM input e

theorem length_flatten_words (words : List a.Word) :
    ((words.map a.wordBytes).map Subtype.val).flatten.length = words.length * a.wordSize := by
  induction words with
  | nil => rw [List.map_nil, List.map_nil, List.flatten_nil, List.length_nil, List.length_nil, Nat.zero_mul]
  | cons word rest ih =>
    rw [List.map_cons, List.map_cons, List.flatten_cons, List.length_append, ih, (a.wordBytes word).property,
      List.length_cons, Nat.succ_mul, Nat.add_comm]

/-- The bytes of the words. -/
def stateBytes (h : Vector a.Word a.words) : ByteArr (a.words * a.wordSize) :=
  ⟨((h.toList.map a.wordBytes).map Subtype.val).flatten, by rw [length_flatten_words, Vector.length_toList]⟩

/-- `midstate`. -/
def midstate (e : HashEngine a) : ByteArr (a.words * a.wordSize) := stateBytes e.h

/-- The zeros before the last block, when the length does not fit into this one. -/
def endBlock (e : HashEngine a) (zeroes : Bytes) : Option (HashEngine a) :=
  if zeroes.length < e.length % a.blockSize then e.input zeroes else some e

/-- The difference of two values of `usize`. -/
def sub (high low : Nat) : Option Nat := if low ≤ high then some (high - low) else none

/-- The length in bits, a value of `u64`. -/
def bitLength (length : Nat) : Option Nat := if 8 * length < 2 ^ 64 then some (8 * length) else none

/-- `from_engine`, which the hashes have with a length of their own width and byte order at the
end. A debug assertion that fails is a panic. -/
def finish (lengthField : Nat → List Bytes) (lengthSize : Nat) (e : HashEngine a) :
    Option (ByteArr (a.words * a.wordSize)) := do
  let dataLen := e.length
  let zeroes : Bytes := List.replicate (a.blockSize - lengthSize) 0
  let e ← e.input [0x80]
  let e ← e.endBlock zeroes
  let padLength ← sub zeroes.length (e.length % a.blockSize)
  let e ← e.input (zeroes.take padLength)
  guard (e.length % a.blockSize = zeroes.length)
  let bits ← bitLength dataLen
  let e ← e.inputs (lengthField bits)
  guard (e.length % a.blockSize = 0)
  some e.midstate

end HashEngine

/-- The four functions `process_block`, on the state and the buffer. -/
class Compression where
  sha256 : Vector UInt32 8 → ByteArr 64 → Vector UInt32 8
  sha512 : Vector UInt64 8 → ByteArr 128 → Vector UInt64 8
  sha1 : Vector UInt32 5 → ByteArr 64 → Vector UInt32 5
  ripemd160 : Vector UInt32 5 → ByteArr 64 → Vector UInt32 5

variable [Compression]

def beWord32 (word : UInt32) : ByteArr 4 := ⟨bigEndianBytes 4 word.toNat, by simp [bigEndianBytes]⟩

def beWord64 (word : UInt64) : ByteArr 8 := ⟨bigEndianBytes 8 word.toNat, by simp [bigEndianBytes]⟩

def leWord32 (word : UInt32) : ByteArr 4 := ⟨littleEndian 4 word.toNat, littleEndian_length 4 _⟩

namespace Sha256

def algorithm : Algorithm where
  Word := UInt32
  words := 8
  wordSize := 4
  blockSize := 64
  positive := by decide
  h := #v[0x6a09e667, 0xbb67ae85, 0x3c6ef372, 0xa54ff53a, 0x510e527f, 0x9b05688c, 0x1f83d9ab, 0x5be0cd19]
  processBlock := Compression.sha256
  wordBytes := beWord32

def engine : HashEngine algorithm := HashEngine.default algorithm

def fromEngine (e : HashEngine algorithm) : Option (ByteArr 32) :=
  e.finish (fun bits => [bigEndianBytes 8 bits]) 8

/-- `HashEngine::midstate`. -/
def midstate (e : HashEngine algorithm) : ByteArr 32 := e.midstate

/-- `HashEngine::from_midstate`. -/
def fromMidstate (midstate : ByteArr 32) (length : Nat) : Option (HashEngine algorithm) :=
  if length % 64 = 0 then
    let chunks := blocks 4 midstate.val
    some {
      buffer := HashEngine.zeroBuffer 64
      h := Vector.ofFn fun i : Fin 8 =>
        (chunks[i.val]?.map fun chunk => UInt32.ofNat (fromLittleEndian chunk.val.reverse)).getD 0
      length }
  else none

end Sha256

namespace Sha512

def algorithm : Algorithm where
  Word := UInt64
  words := 8
  wordSize := 8
  blockSize := 128
  positive := by decide
  h := #v[0x6a09e667f3bcc908, 0xbb67ae8584caa73b, 0x3c6ef372fe94f82b, 0xa54ff53a5f1d36f1,
    0x510e527fade682d1, 0x9b05688c2b3e6c1f, 0x1f83d9abfb41bd6b, 0x5be0cd19137e2179]
  processBlock := Compression.sha512
  wordBytes := beWord64

def engine : HashEngine algorithm := HashEngine.default algorithm

def fromEngine (e : HashEngine algorithm) : Option (ByteArr 64) :=
  e.finish (fun bits => [List.replicate 8 0, bigEndianBytes 8 bits]) 16

end Sha512

namespace Sha1

def algorithm : Algorithm where
  Word := UInt32
  words := 5
  wordSize := 4
  blockSize := 64
  positive := by decide
  h := #v[0x67452301, 0xefcdab89, 0x98badcfe, 0x10325476, 0xc3d2e1f0]
  processBlock := Compression.sha1
  wordBytes := beWord32

def engine : HashEngine algorithm := HashEngine.default algorithm

def fromEngine (e : HashEngine algorithm) : Option (ByteArr 20) :=
  e.finish (fun bits => [bigEndianBytes 8 bits]) 8

end Sha1

namespace Ripemd160

def algorithm : Algorithm where
  Word := UInt32
  words := 5
  wordSize := 4
  blockSize := 64
  positive := by decide
  h := #v[0x67452301, 0xefcdab89, 0x98badcfe, 0x10325476, 0xc3d2e1f0]
  processBlock := Compression.ripemd160
  wordBytes := leWord32

def engine : HashEngine algorithm := HashEngine.default algorithm

def fromEngine (e : HashEngine algorithm) : Option (ByteArr 20) :=
  e.finish (fun bits => [littleEndian 8 bits]) 8

end Ripemd160
end Litecoin
