import Litecoin.Wire.Blocks
import Litecoin.Wire.Text

/-! SipHash-2-4 as it is defined: four words of 64 bits, the round of additions, rotations and
exclusive ors, and a message in little-endian words. There is no engine here. -/
namespace Litecoin.SipHash
open Wire

/-- The words `v0` to `v3`. -/
structure Words where
  v0 : BitVec 64
  v1 : BitVec 64
  v2 : BitVec 64
  v3 : BitVec 64

namespace Words

/-- Half of a round: each pair is added, and the sum is mixed into the word that was added. -/
def halfRound (s t : Nat) (w : Words) : Words where
  v0 := (w.v0 + w.v1).rotateLeft 32
  v1 := w.v1.rotateLeft s ^^^ (w.v0 + w.v1)
  v2 := w.v2 + w.v3
  v3 := w.v3.rotateLeft t ^^^ (w.v2 + w.v3)

/-- The other half pairs `v2` with `v1` and `v0` with `v3`. -/
def swap (w : Words) : Words := { w with v0 := w.v2, v2 := w.v0 }

def sipRound (w : Words) : Words := ((w.halfRound 13 16).swap.halfRound 17 21).swap

/-- The keys on the text that fills the words, in big-endian order. -/
def initial (k0 k1 : BitVec 64) : Words where
  v0 := k0 ^^^ text "somepseu"
  v1 := k1 ^^^ text "dorandom"
  v2 := k0 ^^^ text "lygenera"
  v3 := k1 ^^^ text "tedbytes"
where
  text (letters : String) : BitVec 64 := BitVec.ofNat 64 (fromLittleEndian (ascii letters).reverse)

/-- Two rounds for each word of the message. -/
def compression (w : Words) (m : BitVec 64) : Words :=
  let w := sipRound^[2] { w with v3 := w.v3 ^^^ m }
  { w with v0 := w.v0 ^^^ m }

/-- Four rounds at the end. -/
def finalization (w : Words) : BitVec 64 :=
  let w := sipRound^[4] { w with v2 := w.v2 ^^^ 0xff }
  w.v0 ^^^ w.v1 ^^^ w.v2 ^^^ w.v3

end Words

/-- A message is filled up to whole words, and the last byte is its length modulo 256. -/
def padded (message : Bytes) : Bytes :=
  message ++ List.replicate (fill 8 (message.length + 1)) 0 ++ [UInt8.ofNat message.length]

def messageWords (front : Bytes) : List (BitVec 64) :=
  (blocks 8 front).map fun block => BitVec.ofNat 64 (fromLittleEndian block.val)

def sipHash24 (k0 k1 : UInt64) (message : Bytes) : UInt64 :=
  .ofBitVec ((messageWords (padded message)).foldl Words.compression
    (.initial k0.toBitVec k1.toBitVec)).finalization

example : sipHash24 0x0706050403020100 0x0f0e0d0c0b0a0908 [] = 0x726fdb47dd0e0e31 := by
  decide +kernel

example : sipHash24 0x0706050403020100 0x0f0e0d0c0b0a0908 ((List.range 15).map UInt8.ofNat) =
    0xa129ca6149be45e5 := by
  decide +kernel

example : sipHash24 0x0706050403020100 0x0f0e0d0c0b0a0908 ((List.range 63).map UInt8.ofNat) =
    0x958a324ceb064572 := by
  decide +kernel

end Litecoin.SipHash
