import Litecoin.Blockdata.Transaction
import Litecoin.MerkleTree

/-! Blocks with an optional MWEB extension block (`blockdata/block.rs`). The version
bit, the number of transactions and the last transaction decide whether a presence
byte follows the transactions. -/
namespace Litecoin.Blockdata
open Wire Consensus Mimblewimble

structure Header where
  version : Int32
  prevBlockhash : ByteArr 32
  merkleRoot : ByteArr 32
  time : UInt32
  bits : UInt32
  nonce : UInt32
deriving DecidableEq

namespace Header

def consensusDecodeFromFiniteReader : Decoder Error Header := do
  let version ← readI32
  let prevBlockhash ← readExact 32
  let merkleRoot ← readExact 32
  let time ← readU32
  let bits ← readU32
  let nonce ← readU32
  pure { version, prevBlockhash, merkleRoot, time, bits, nonce }

def consensusEncode (header : Header) : Emission IoError :=
  encodeI32 header.version ++
  encodeArray header.prevBlockhash ++
  encodeArray header.merkleRoot ++
  encodeU32 header.time ++
  encodeU32 header.bits ++
  encodeU32 header.nonce

end Header

structure MwebBlockHeader where
  height : UInt32
  outputRoot : ByteArr 32
  kernelRoot : ByteArr 32
  leafsetRoot : ByteArr 32
  kernelOffset : ByteArr 32
  stealthOffset : ByteArr 32
  outputMmrSize : UInt64
  kernelMmrSize : UInt64
deriving DecidableEq

namespace MwebBlockHeader

def decodeHeight : Decoder Error UInt32 := do
  let rawHeight ← readCompactVarint
  if rawHeight.toNat < 2 ^ 32 then pure rawHeight.toUInt32
  else Decoder.fail (.parseFailed "MwebBlockHeader height out of range")

def consensusDecodeFromFiniteReader : Decoder Error MwebBlockHeader := do
  let height ← decodeHeight
  let outputRoot ← readExact 32
  let kernelRoot ← readExact 32
  let leafsetRoot ← readExact 32
  let kernelOffset ← readExact 32
  let stealthOffset ← readExact 32
  let outputMmrSize ← readCompactVarint
  let kernelMmrSize ← readCompactVarint
  pure { height, outputRoot, kernelRoot, leafsetRoot, kernelOffset, stealthOffset, outputMmrSize,
         kernelMmrSize }

def consensusEncode (header : MwebBlockHeader) : Emission IoError :=
  writeCompactVarint header.height.toUInt64 ++
  encodeArray header.outputRoot ++
  encodeArray header.kernelRoot ++
  encodeArray header.leafsetRoot ++
  encodeArray header.kernelOffset ++
  encodeArray header.stealthOffset ++
  writeCompactVarint header.outputMmrSize ++
  writeCompactVarint header.kernelMmrSize

end MwebBlockHeader

variable [Secp256k1]

structure MwebBlock where
  header : MwebBlockHeader
  txBody : TxBody
deriving DecidableEq

namespace MwebBlock

def consensusDecodeFromFiniteReader : Decoder Error MwebBlock := do
  let header ← MwebBlockHeader.consensusDecodeFromFiniteReader
  let txBody ← TxBody.consensusDecodeFromFiniteReader
  pure { header, txBody }

def consensusEncode (block : MwebBlock) : Emission IoError :=
  block.header.consensusEncode ++ block.txBody.consensusEncode

end MwebBlock

structure Block where
  header : Header
  txdata : Vec Transaction
  mwebBlock : Option MwebBlock
deriving DecidableEq

def mwebVersionBit : Int32 := 0x20000000

def blockCarriesMweb (version : Int32) (txdata : List Transaction) : Bool :=
  2 ≤ txdata.length && version &&& mwebVersionBit != 0 && txdata.getLast?.any (·.isHogEx)

namespace Block

def consensusEncode (block : Block) : Emission IoError :=
  block.header.consensusEncode ++
  encodeVec Transaction.consensusEncode block.txdata ++
  .gated (blockCarriesMweb block.header.version block.txdata.toList)
    (match block.mwebBlock with
      | some mw => encodeU8 1 ++ mw.consensusEncode
      | none => encodeU8 0)

def decodeMwebBlock (version : Int32) (txdata : List Transaction) :
    Decoder Error (Option MwebBlock) :=
  if blockCarriesMweb version txdata then do
    let present ← readU8
    if present ≠ 0 then some <$> MwebBlock.consensusDecodeFromFiniteReader else pure none
  else pure none

def consensusDecodeFromFiniteReader : Decoder Error Block := do
  let header ← Header.consensusDecodeFromFiniteReader
  let txdata ← decodeVec Transaction.consensusDecodeFromFiniteReader
  if (txdata.toList.take (txdata.toList.length - 1)).any (·.isHogEx) then
    Decoder.fail (.parseFailed "HogEx must be the last transaction")
  else do
    let mwebBlock ← decodeMwebBlock header.version txdata.toList
    pure { header, txdata, mwebBlock }

end Block

section
variable (sha256d : Bytes → ByteArr 32)

/-- `compute_txid`; an error stands for the panic of its `expect`. -/
def Transaction.computeTxid (tx : Transaction) : Except IoError (ByteArr 32) :=
  (serialize tx.txidPreimage).map sha256d

def Transaction.computeWtxid (tx : Transaction) : Except IoError (ByteArr 32) :=
  (serialize tx.consensusEncode).map sha256d

/-- The txids `compute_merkle_root` merkleises. -/
def Block.txids (block : Block) : Except IoError (List (ByteArr 32)) :=
  block.txdata.toList.mapM fun tx => tx.computeTxid sha256d

def Block.computeMerkleRoot (block : Block) : Except IoError (Option (ByteArr 32)) :=
  (block.txids sha256d).map (MerkleTree.calculateRoot sha256d)

def Block.checkMerkleRoot (block : Block) : Except IoError Bool :=
  (block.computeMerkleRoot sha256d).map fun
    | some merkleRoot => block.header.merkleRoot = merkleRoot
    | none => false

/-- The hashes `witness_root` merkleises: zeroes for the coinbase, then wtxids. -/
def Block.witnessHashes (block : Block) : Except IoError (List (ByteArr 32)) :=
  block.txdata.toList.zipIdx.mapM fun (tx, i) =>
    if i = 0 then pure ⟨List.replicate 32 0, List.length_replicate⟩ else tx.computeWtxid sha256d

def Block.witnessRoot (block : Block) : Except IoError (Option (ByteArr 32)) :=
  (block.witnessHashes sha256d).map (MerkleTree.calculateRoot sha256d)

end
end Litecoin.Blockdata
