import Litecoin.Bip152
import Litecoin.Blockdata.Rewriting
import Litecoin.MerkleTree.Completeness
import Litecoin.P2p.Network

/-! The messages about parts of blocks: compact blocks (`bip152.rs`,
`message_compact_blocks.rs`) and merkle blocks (`merkle_tree/block.rs`). `CmpctBlock`,
`GetBlockTxn` and `BlockTxn` are the records they wrap. -/
namespace Litecoin

/-- The layout that the compiler chose. -/
class Layout where
  /-- `mem::size_of::<Transaction>()`. -/
  sizeOfTransaction : Nat

/-- The size of a transaction where pointers have eight bytes. -/
@[reducible] def Layout.wide : Layout := ⟨208⟩

namespace P2p
open Wire Consensus Blockdata MerkleTree
open Bip152 (PrefilledTransaction HeaderAndShortIds)

structure SendCmpct where
  sendCompact : Bool
  version : UInt64
deriving DecidableEq

namespace SendCmpct

def consensusEncode (message : SendCmpct) : Emission IoError :=
  encodeBool message.sendCompact ++ encodeU64 message.version

/-- The fields in order, with a reader for the first one. -/
def decodeFields (readSendCompact : Decoder Error Bool) : Decoder Error SendCmpct := do
  let sendCompact ← readSendCompact
  let version ← readU64
  pure { sendCompact, version }

def consensusDecodeFromFiniteReader : Decoder Error SendCmpct := decodeFields readBool

def strictDecode : Decoder Error SendCmpct := decodeFields strictBool

theorem rewrites :
    Rewrites consensusEncode consensusDecodeFromFiniteReader strictDecode (fun _ => True) :=
  .field sendCompact readBool_rewrites fun _ _ =>
    .last version readU64_codec.rewrites _ fun _ _ => ⟨⟨trivial, rfl⟩, rfl⟩

end SendCmpct

/-- A `Vec` whose length is not tracked. -/
def encodeList (emit : α → Emission IoError) (values : List α) : Emission IoError :=
  VarInt.consensusEncode (UInt64.ofNat values.length) ++ .each emit values

def decodeList (d : Decoder Error α) : Decoder Error (List α) := Vec.toList <$> decodeVec d

theorem decodeList_rewrites {emit : α → Emission IoError} {d strict : Decoder Error α}
    (rewrites : Rewrites emit d strict (fun _ => True)) :
    Rewrites (encodeList emit) (decodeList d) (decodeList strict) (fun _ => True) :=
  (decodeVec_rewrites rewrites).map Vec.toList fun _ _ => ⟨trivial, rfl⟩

section
variable [Secp256k1]

/-- `u16::try_from`. -/
def narrowIdx (idx : UInt64) : Decoder Error UInt16 :=
  if idx.toNat < 2 ^ 16 then pure idx.toUInt16
  else Decoder.fail (.parseFailed "BIP152 prefilled tx index out of bounds")

def decodeIdx : Decoder Error UInt16 := do
  let idx ← VarInt.consensusDecode
  narrowIdx idx

def encodePrefilled (prefilled : PrefilledTransaction) : Emission IoError :=
  VarInt.consensusEncode prefilled.idx.toUInt64 ++ prefilled.tx.consensusEncode

/-- `PrefilledTransaction`, with a reader for the transaction. -/
def decodePrefilled (readTx : Decoder Error Transaction) : Decoder Error PrefilledTransaction := do
  let idx ← decodeIdx
  let tx ← Consensus.consensusDecode readTx
  pure { idx, tx }

def encodeCmpctBlock (block : HeaderAndShortIds) : Emission IoError :=
  block.header.consensusEncode ++ encodeU64 block.nonce ++
  encodeList encodeArray block.shortIds ++ encodeList encodePrefilled block.prefilledTxs

/-- `HeaderAndShortIds`, with a reader for the transactions. -/
def decodeCmpctBlock (readTx : Decoder Error Transaction) : Decoder Error HeaderAndShortIds := do
  let header ← Header.consensusDecodeFromFiniteReader
  let nonce ← readU64
  let shortIds ← decodeList (readExact 6)
  let prefilledTxs ← decodeList (decodePrefilled readTx)
  pure { header, nonce, shortIds, prefilledTxs }

structure BlockTransactions where
  blockHash : ByteArr 32
  transactions : Vec Transaction
deriving DecidableEq

def BlockTransactions.consensusEncode (message : BlockTransactions) : Emission IoError :=
  encodeArray message.blockHash ++ encodeVec Transaction.consensusEncode message.transactions

/-- `BlockTransactions`, with a reader for the transactions. -/
def decodeBlockTxn (readTx : Decoder Error Transaction) : Decoder Error BlockTransactions := do
  let blockHash ← readExact 32
  let transactions ← decodeVec readTx
  pure { blockHash, transactions }

omit [Secp256k1] in
theorem decodeIdx_rewrites : Rewrites (fun idx => VarInt.consensusEncode idx.toUInt64) decodeIdx
    decodeIdx (fun _ => True) := by
  have narrow (idx : UInt64) (_ : True) : Rewrites (fun _ => (.written [] : Emission IoError))
      (narrowIdx idx) (narrowIdx idx) (fun short => short.toUInt64 = idx) := by
    refine .ite (fun fits => .done (UInt64.toNat_inj.mp ?_)) fun _ => .fail _
    rw [UInt16.toNat_toUInt64, UInt64.toNat_toUInt16, Nat.mod_eq_of_lt fits]
  refine VarInt.codec.rewrites.bind narrow fun idx short _ same => ⟨trivial, ?_⟩
  rw [same, Emission.append_nothing]

variable [Secp256k1.Canonical]

theorem decodePrefilled_rewrites : Rewrites encodePrefilled
    (decodePrefilled Transaction.consensusDecodeFromFiniteReader)
    (decodePrefilled Transaction.strictDecode) (fun _ => True) :=
  .field PrefilledTransaction.idx decodeIdx_rewrites fun _ _ =>
    .last PrefilledTransaction.tx (Transaction.rewrites.take maxVecSize) _ fun _ _ =>
      ⟨⟨trivial, rfl⟩, rfl⟩

theorem decodeCmpctBlock_rewrites : Rewrites encodeCmpctBlock
    (decodeCmpctBlock Transaction.consensusDecodeFromFiniteReader)
    (decodeCmpctBlock Transaction.strictDecode) (fun _ => True) := by
  refine (Rewrites.field HeaderAndShortIds.header Header.codec.rewrites fun _ _ =>
    .field HeaderAndShortIds.nonce readU64_codec.rewrites fun _ _ =>
    .field HeaderAndShortIds.shortIds (decodeList_rewrites (readExact_codec 6).rewrites) fun _ _ =>
    .last HeaderAndShortIds.prefilledTxs (decodeList_rewrites decodePrefilled_rewrites) _ fun _ _ =>
      ⟨⟨⟨⟨trivial, rfl⟩, rfl⟩, rfl⟩, rfl⟩).congr fun block => ?_
  simp only [encodeCmpctBlock, Emission.append_assoc]

theorem decodeBlockTxn_rewrites : Rewrites BlockTransactions.consensusEncode
    (decodeBlockTxn Transaction.consensusDecodeFromFiniteReader)
    (decodeBlockTxn Transaction.strictDecode) (fun _ => True) :=
  .field BlockTransactions.blockHash (readExact_codec 32).rewrites fun _ _ =>
    .last BlockTransactions.transactions (decodeVec_rewrites Transaction.rewrites) _ fun _ _ =>
      ⟨⟨trivial, rfl⟩, rfl⟩

end

structure BlockTransactionsRequest where
  blockHash : ByteArr 32
  indexes : Vec UInt64
deriving DecidableEq

namespace BlockTransactionsRequest

/-- Stands for the panic of an addition or subtraction that leaves its type. -/
def overflow : Emission IoError := .fail (.other "arithmetic overflow")

/-- The differences of the indexes, each to the successor of the one before. -/
def encodeIndexes : (lastIdx : UInt64) → List UInt64 → Emission IoError
  | _, [] => .written []
  | lastIdx, idx :: rest =>
    if idx < lastIdx then overflow
    else VarInt.consensusEncode (idx - lastIdx) ++
      if idx.toNat + 1 = 2 ^ 64 then overflow else encodeIndexes (idx + 1) rest

def consensusEncode (request : BlockTransactionsRequest) : Emission IoError :=
  encodeArray request.blockHash ++ VarInt.consensusEncode request.indexes.len ++
  encodeIndexes 0 request.indexes.toList

/-- `checked_add`, with the error that the caller makes of an overflow. -/
def checkedAdd (a b : UInt64) : Decoder Error UInt64 :=
  if a.toNat + b.toNat < 2 ^ 64 then pure (a + b)
  else Decoder.fail (.parseFailed "block index overflow")

/-- The next index and its successor. -/
def advance (lastIndex differential : UInt64) : Decoder Error (UInt64 × UInt64) := do
  let index ← checkedAdd lastIndex differential
  let next ← checkedAdd index 1
  pure (index, next)

def decodeIndexes : (count : Nat) → (lastIndex : UInt64) →
    Decoder Error { indexes : List UInt64 // indexes.length = count }
  | 0, _ => pure ⟨[], rfl⟩
  | count + 1, lastIndex => do
    let differential ← VarInt.consensusDecode
    let (index, next) ← advance lastIndex differential
    let rest ← decodeIndexes count next
    pure ⟨index :: rest.val, congrArg (· + 1) rest.property⟩

theorem advance_eq (lastIndex differential : UInt64) : advance lastIndex differential =
    if lastIndex.toNat + differential.toNat < 2 ^ 64 ∧
        (lastIndex + differential).toNat + 1 < 2 ^ 64 then
      pure (lastIndex + differential, lastIndex + differential + 1)
    else Decoder.fail (.parseFailed "block index overflow") := by
  by_cases fits : lastIndex.toNat + differential.toNat < 2 ^ 64
  · have first : checkedAdd lastIndex differential = pure (lastIndex + differential) := if_pos fits
    by_cases next : (lastIndex + differential).toNat + 1 < 2 ^ 64
    · have second : checkedAdd (lastIndex + differential) 1 = pure (lastIndex + differential + 1) :=
        if_pos next
      rw [if_pos ⟨fits, next⟩, advance, first]
      change (checkedAdd (lastIndex + differential) 1 >>= _ : Decoder Error _) = _
      rw [second]
      rfl
    · have second : checkedAdd (lastIndex + differential) 1 =
          .fail (.parseFailed "block index overflow") := if_neg next
      rw [if_neg fun both => next both.2, advance, first]
      change (checkedAdd (lastIndex + differential) 1 >>= _ : Decoder Error _) = _
      rw [second]
      rfl
  · have first : checkedAdd lastIndex differential = .fail (.parseFailed "block index overflow") :=
      if_neg fits
    rw [if_neg fun both => fits both.1, advance, first]
    rfl

theorem advance_rewrites (lastIndex differential : UInt64) :
    Rewrites (fun _ => (.written [] : Emission IoError)) (advance lastIndex differential)
      (advance lastIndex differential) (fun sums =>
        sums = (lastIndex + differential, lastIndex + differential + 1) ∧
          lastIndex.toNat + differential.toNat < 2 ^ 64 ∧
          (lastIndex + differential).toNat + 1 < 2 ^ 64) := by
  rw [advance_eq]
  exact .ite (fun fits => .done ⟨rfl, fits⟩) fun _ => .fail _

theorem encodeIndexes_cons {lastIdx differential : UInt64} (rest : List UInt64)
    (fits : lastIdx.toNat + differential.toNat < 2 ^ 64)
    (next : (lastIdx + differential).toNat + 1 < 2 ^ 64) :
    encodeIndexes lastIdx ((lastIdx + differential) :: rest) =
      VarInt.consensusEncode differential ++ encodeIndexes (lastIdx + differential + 1) rest := by
  have sum : (lastIdx + differential).toNat = lastIdx.toNat + differential.toNat := by
    rw [UInt64.toNat_add, Nat.mod_eq_of_lt fits]
  have ordered : ¬ lastIdx + differential < lastIdx := by
    rw [UInt64.lt_iff_toNat_lt, sum]
    omega
  have difference : lastIdx + differential - lastIdx = differential := by
    rw [UInt64.add_comm, UInt64.add_sub_cancel]
  rw [encodeIndexes, if_neg ordered, if_neg (by omega), difference]

theorem decodeIndexes_rewrites (count : Nat) (lastIndex : UInt64) :
    Rewrites (fun indexes => encodeIndexes lastIndex indexes.val) (decodeIndexes count lastIndex)
      (decodeIndexes count lastIndex) (fun _ => True) := by
  induction count generalizing lastIndex with
  | zero =>
    have empty : Rewrites (fun _ => (.written [] : Emission IoError)) (decodeIndexes 0 lastIndex)
      (decodeIndexes 0 lastIndex) (fun indexes => indexes.val = []) := .done rfl
    refine empty.weaken ?_
    rintro ⟨indexes, _⟩ rfl
    exact ⟨trivial, rfl⟩
  | succ count ih =>
    have tail (sums : UInt64 × UInt64) :
        Rewrites (fun indexes => encodeIndexes sums.2 indexes.val.tail)
          (decodeIndexes count sums.2 >>= fun rest =>
            pure ⟨sums.1 :: rest.val, congrArg (· + 1) rest.property⟩)
          (decodeIndexes count sums.2 >>= fun rest =>
            pure ⟨sums.1 :: rest.val, congrArg (· + 1) rest.property⟩)
          (fun indexes : { indexes : List UInt64 // indexes.length = count + 1 } =>
            ∃ rest, indexes.val = sums.1 :: rest) :=
      (ih sums.2).finish _ fun rest _ => ⟨⟨rest.val, rfl⟩, rfl⟩
    have behind (differential : UInt64) (_ : True) :
        Rewrites (fun indexes => encodeIndexes (lastIndex + differential + 1) indexes.val.tail)
          (advance lastIndex differential >>= fun sums => decodeIndexes count sums.2 >>= fun rest =>
              pure ⟨sums.1 :: rest.val, congrArg (· + 1) rest.property⟩)
          (advance lastIndex differential >>= fun sums => decodeIndexes count sums.2 >>= fun rest =>
              pure ⟨sums.1 :: rest.val, congrArg (· + 1) rest.property⟩)
          (fun indexes : { indexes : List UInt64 // indexes.length = count + 1 } =>
            (∃ rest, indexes.val = (lastIndex + differential) :: rest) ∧
              lastIndex.toNat + differential.toNat < 2 ^ 64 ∧
              (lastIndex + differential).toNat + 1 < 2 ^ 64) := by
      refine (advance_rewrites lastIndex differential).bind (fun sums _ => tail sums) ?_
      rintro sums indexes ⟨rfl, fits⟩ made
      exact ⟨⟨made, fits⟩, (Emission.nothing_append _).symm⟩
    refine VarInt.codec.rewrites.bind behind ?_
    rintro differential ⟨indexes, length⟩ _ ⟨⟨rest, rfl⟩, fits, next⟩
    exact ⟨trivial, encodeIndexes_cons rest fits next⟩

variable [Layout]

/-- The indexes behind their number, which must be one of transactions that fit a vector. -/
def decodeBody (blockHash : ByteArr 32) (nbIndexes : UInt64) :
    Decoder Error BlockTransactionsRequest :=
  let byteSize := nbIndexes.toNat * Layout.sizeOfTransaction
  if 2 ^ 64 ≤ byteSize then Decoder.fail (.parseFailed "Invalid length")
  else if maxVecSize < byteSize then Decoder.fail (.oversizedVectorAllocation byteSize maxVecSize)
  else do
    let indexes ← decodeIndexes nbIndexes.toNat 0
    pure { blockHash, indexes := ⟨indexes.val, by rw [indexes.property]; exact nbIndexes.toNat_lt⟩ }

def consensusDecode : Decoder Error BlockTransactionsRequest := do
  let blockHash ← readExact 32
  let nbIndexes ← VarInt.consensusDecode
  decodeBody blockHash nbIndexes

theorem rewrites : Rewrites consensusEncode consensusDecode consensusDecode (fun _ => True) := by
  have counted (blockHash : ByteArr 32) (_ : True) (nbIndexes : UInt64) (_ : True) :
      Rewrites (fun request => encodeIndexes 0 request.indexes.toList)
        (decodeBody blockHash nbIndexes) (decodeBody blockHash nbIndexes)
        (fun request => request.blockHash = blockHash ∧ request.indexes.len = nbIndexes) := by
    refine .ite (fun _ => .fail _) fun _ => .ite (fun _ => .fail _) fun _ => ?_
    refine (decodeIndexes_rewrites nbIndexes.toNat 0).finish _ fun indexes _ => ⟨⟨rfl, ?_⟩, rfl⟩
    rw [Vec.len, indexes.property, UInt64.ofNat_toNat]
  have hashed (blockHash : ByteArr 32) (_ : True) :
      Rewrites (fun request => VarInt.consensusEncode request.indexes.len ++
          encodeIndexes 0 request.indexes.toList)
        (VarInt.consensusDecode >>= decodeBody blockHash)
        (VarInt.consensusDecode >>= decodeBody blockHash)
        (fun request => request.blockHash = blockHash) :=
    VarInt.codec.rewrites.bind (counted blockHash trivial) fun nbIndexes request _ fixed =>
      ⟨fixed.1, by rw [fixed.2]⟩
  refine (readExact_codec 32).rewrites.bind hashed fun blockHash request _ fixed => ⟨trivial, ?_⟩
  rw [consensusEncode, Emission.append_assoc, fixed]

end BlockTransactionsRequest

namespace PartialMerkleTree
open MerkleTree.PartialMerkleTree

theorem chunks_unpackBytes (bytes : Bytes) :
    (chunks (bytes.flatMap unpackByte)).map packByte = bytes := by
  induction bytes with
  | nil => rfl
  | cons byte rest ih =>
    have eight : (unpackByte byte).length = 8 := by
      rw [unpackByte, List.length_map, List.length_range]
    have nonempty : (byte :: rest).flatMap unpackByte ≠ [] := by
      rw [← List.length_pos_iff, List.flatMap_cons, List.length_append, eight]
      omega
    rw [chunks_of_ne_nil nonempty, List.flatMap_cons, List.take_left' eight,
      List.drop_left' eight, List.map_cons, packByte_unpackByte, ih]

theorem bits_fit {count : Nat} (small : count ≤ maxVecSize)
    (bytes : { bytes : Bytes // bytes.length = count }) :
    (bytes.val.flatMap unpackByte).length < 2 ^ 64 := by
  rw [length_unpackBytes, bytes.property]
  rw [maxVecSize] at small
  omega

/-- The bits behind their number of bytes. -/
def decodeBits (numTransactions : UInt32) (hashes : Vec (ByteArr 32)) (nbBytesForBits : UInt64) :
    Decoder Error PartialMerkleTree :=
  if small : nbBytesForBits.toNat ≤ maxVecSize then do
    let bytes ← readU8.times nbBytesForBits.toNat
    pure { numTransactions, hashes, bits := ⟨bytes.val.flatMap unpackByte, bits_fit small bytes⟩ }
  else Decoder.fail (.oversizedVectorAllocation nbBytesForBits.toNat maxVecSize)

/-- What is written of the bits. -/
def encodeBits (tree : PartialMerkleTree) : Emission IoError :=
  .each (fun chunk => encodeU8 (packByte chunk)) (chunks tree.bits.toList)

theorem decodeBits_rewrites (numTransactions : UInt32) (hashes : Vec (ByteArr 32))
    (nbBytesForBits : UInt64) :
    Rewrites encodeBits (decodeBits numTransactions hashes nbBytesForBits)
      (decodeBits numTransactions hashes nbBytesForBits) (fun tree =>
        ((True ∧ tree.numTransactions = numTransactions) ∧ tree.hashes = hashes) ∧
          tree.bitBytes = nbBytesForBits) := by
  rw [decodeBits]
  split
  · refine (readU8_codec.rewrites.times nbBytesForBits.toNat).finish _ fun bytes _ =>
      ⟨⟨⟨⟨trivial, rfl⟩, rfl⟩, ?_⟩, ?_⟩
    · have count : (bytes.val.length * 8 + 7) / 8 = nbBytesForBits.toNat := by
        rw [bytes.property]
        omega
      rw [bitBytes, length_unpackBytes, count, UInt64.ofNat_toNat]
    · have images : ∀ byte ∈ bytes.val, encodeU8 byte = .written [byte] := fun byte _ => by
        rw [readU8_codec.emits, littleEndian_one]
      rw [encodeBits, Emission.each_written fun chunk _ => readU8_codec.emits (packByte chunk),
        Emission.each_written images]
      simp only [littleEndian_one, ← List.map_eq_flatMap, chunks_unpackBytes, List.map_id']
  · exact .fail _

theorem rewrites : Rewrites consensusEncode consensusDecodeFromFiniteReader
    consensusDecodeFromFiniteReader (fun _ => True) := by
  have located (numTransactions : UInt32) (_ : True) (hashes : Vec (ByteArr 32)) (_ : True) :
      Rewrites (fun tree => VarInt.consensusEncode tree.bitBytes ++ encodeBits tree)
        (VarInt.consensusDecode >>= decodeBits numTransactions hashes)
        (VarInt.consensusDecode >>= decodeBits numTransactions hashes)
        (fun tree => (True ∧ tree.numTransactions = numTransactions) ∧ tree.hashes = hashes) :=
    VarInt.codec.rewrites.bind (fun nb _ => decodeBits_rewrites numTransactions hashes nb)
      fun nb tree _ fixed => ⟨fixed.1, by rw [fixed.2]⟩
  refine (Rewrites.field PartialMerkleTree.numTransactions readU32_codec.rewrites
    fun numTransactions _ => .field PartialMerkleTree.hashes (hashes_rewrites.take maxVecSize)
      (located numTransactions trivial)).congr fun tree => ?_
  rw [consensusEncode, Emission.append_assoc, Emission.append_assoc]
  rfl

end PartialMerkleTree

structure MerkleBlock where
  header : Header
  txn : PartialMerkleTree
deriving DecidableEq

namespace MerkleBlock

def consensusEncode (block : MerkleBlock) : Emission IoError :=
  block.header.consensusEncode ++ block.txn.consensusEncode

def consensusDecode : Decoder Error MerkleBlock := do
  let header ← Consensus.consensusDecode Header.consensusDecodeFromFiniteReader
  let txn ← Consensus.consensusDecode PartialMerkleTree.consensusDecodeFromFiniteReader
  pure { header, txn }

theorem rewrites : Rewrites consensusEncode consensusDecode consensusDecode (fun _ => True) :=
  .field header (Header.codec.rewrites.take maxVecSize) fun _ _ =>
    .last txn (PartialMerkleTree.rewrites.take maxVecSize) _ fun _ _ => ⟨⟨trivial, rfl⟩, rfl⟩

end MerkleBlock
end P2p
end Litecoin
