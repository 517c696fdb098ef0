import Litecoin.Blockdata.BlockExactness
import Litecoin.Blockdata.WitnessStack
import Litecoin.Wire.Outcome
import Mathlib.Algebra.BigOperators.Group.List.Basic

/-! The sizes and the weight of transactions and blocks (`blockdata/transaction.rs`,
`blockdata/block.rs`), counted apart from the encoders. A witness is measured through its
iterator, whose panics are the `none`. -/
namespace Litecoin.Blockdata
open Wire Consensus

namespace Witness

def size (witness : Witness) : Option Nat := witness.packed.size

theorem size_eq (witness : Witness) : witness.size = some witness.wire.length := by
  obtain ⟨elements, packed, indexed⟩ := witness.wellFormed
  rw [size, packed, Packed.size_pack indexed, wire_pack packed]

theorem Valid.wire_length_le {witness : Witness} (valid : witness.Valid) :
    witness.wire.length ≤ 9 + maxVecSize := by
  rw [wire, List.length_append, List.length_take]
  have count := VarInt.wire_length_le (UInt64.ofNat witness.packed.witnessElements)
  have start : min witness.packed.indicesStart witness.packed.content.length ≤ maxVecSize :=
    (Nat.min_le_left _ _).trans valid
  omega

end Witness

/-- `OutPoint::SIZE`. -/
def OutPoint.size : Nat := 32 + 4

/-- `Sequence::SIZE`. -/
def sequenceSize : Nat := 4

/-- `absolute::LockTime::SIZE`. -/
def LockTime.size : Nat := 4

/-- `Amount::SIZE`. -/
def amountSize : Nat := 8

namespace TxIn

def baseSize (txin : TxIn) : Nat :=
  let size := OutPoint.size
  let size := size + VarInt.size txin.scriptSig.len
  let size := size + txin.scriptSig.toList.length
  size + sequenceSize

def totalSize (txin : TxIn) : Option Nat := do
  let witness ← txin.witness.size
  some (txin.baseSize + witness)

end TxIn

def TxOut.size (txout : TxOut) : Nat :=
  let len := txout.scriptPubkey.toList.length
  amountSize + VarInt.size txout.scriptPubkey.len + len

section
variable [Secp256k1]

namespace Transaction

def usesSegwitSerialization (tx : Transaction) : Bool := tx.hasWitnesses || tx.input.isEmpty

def baseSize (tx : Transaction) : Nat :=
  let size := 4
  let size := size + VarInt.size tx.input.len
  let size := size + (tx.input.toList.map TxIn.baseSize).sum
  let size := size + VarInt.size tx.output.len
  let size := size + (tx.output.toList.map TxOut.size).sum
  size + LockTime.size

def totalSize (tx : Transaction) : Option Nat := do
  let usesSegwit := tx.usesSegwitSerialization
  let size := 4
  let size := if usesSegwit then size + 2 else size
  let size := size + VarInt.size tx.input.len
  let inputs ← tx.input.toList.mapM fun txin =>
    if usesSegwit then txin.totalSize else some txin.baseSize
  let size := size + inputs.sum
  let size := size + VarInt.size tx.output.len
  let size := size + (tx.output.toList.map TxOut.size).sum
  some (size + LockTime.size)

def weight (tx : Transaction) : Option Nat := do
  let totalSize ← tx.totalSize
  some (tx.baseSize * 3 + totalSize)

/-- `to_vbytes_ceil`. -/
def toVbytesCeil (weight : Nat) : Nat := (weight + 4 - 1) / 4

def vsize (tx : Transaction) : Option Nat := tx.weight.map toVbytesCeil

end Transaction

namespace Block

/-- `Header::SIZE`. -/
def headerSize : Nat := 4 + 32 + 32 + 4 + 4 + 4

def baseSize (block : Block) : Nat :=
  let size := headerSize
  let size := size + VarInt.size block.txdata.len
  size + (block.txdata.toList.map Transaction.baseSize).sum

def totalSize (block : Block) : Option Nat := do
  let size := headerSize
  let size := size + VarInt.size block.txdata.len
  let transactions ← block.txdata.toList.mapM Transaction.totalSize
  some (size + transactions.sum)

def weight (block : Block) : Option Nat := do
  let totalSize ← block.totalSize
  some (block.baseSize * 3 + totalSize)

end Block
end

/-! What the sizes count. -/

theorem vecWire_length {wire : α → Bytes} {size : α → Nat} {values : Vec α}
    (each : ∀ a ∈ values.toList, size a = (wire a).length) :
    (vecWire wire values).length = VarInt.size values.len + (values.toList.map size).sum := by
  rw [vecWire, List.length_append, VarInt.wire_length, List.length_flatMap,
    List.map_congr_left each]

theorem OutPoint.wire_length (outPoint : OutPoint) : outPoint.wire.length = OutPoint.size := by
  rw [wire, List.length_append, outPoint.txid.property, littleEndian_length, size]

theorem TxIn.baseSize_eq (txin : TxIn) : txin.baseSize = txin.wire.length := by
  rw [wire, List.length_append, List.length_append, txin.previousOutput.wire_length, bytesWire,
    List.length_append, VarInt.wire_length, littleEndian_length, baseSize, sequenceSize]
  omega

theorem TxOut.size_eq (txout : TxOut) : txout.size = txout.wire.length := by
  rw [wire, List.length_append, bytesWire, List.length_append, VarInt.wire_length,
    littleEndian_length, size, amountSize]
  omega

theorem LockTime.wire_length (lockTime : LockTime) : lockTime.wire.length = LockTime.size :=
  littleEndian_length _ _

section
variable [Secp256k1]

namespace Transaction

/-- The transaction without its extension. -/
def withoutMweb (tx : Transaction) : Transaction := { tx with mwTx := none, isHogEx := false }

theorem baseSize_eq (tx : Transaction) : tx.baseSize = tx.plainWire.length := by
  rw [plainWire, List.length_append, List.length_append, List.length_append, littleEndian_length,
    vecWire_length fun txin _ => txin.baseSize_eq, vecWire_length fun txout _ => txout.size_eq,
    tx.lockTime.wire_length, baseSize]
  omega

theorem wire_withoutMweb (tx : Transaction) : tx.withoutMweb.wire =
    if tx.usesSegwitSerialization then
      littleEndian 4 tx.version.toUInt32.toNat ++ ([segwitMarker, flagByte true false] ++
        (vecWire TxIn.wire tx.input ++ (vecWire TxOut.wire tx.output ++
          (witnessesWire tx.input ++ tx.lockTime.wire))))
    else tx.plainWire := by
  have mweb : tx.withoutMweb.hasMweb = false := rfl
  have segwit : tx.withoutMweb.segwitRequired = tx.usesSegwitSerialization := by
    rw [segwitRequired, mweb, Bool.not_false, Bool.and_true]
    rfl
  rw [wire, mweb, segwit]
  cases tx.usesSegwitSerialization <;> rfl

omit [Secp256k1] in
theorem witnessesWire_length (input : Vec TxIn) : (witnessesWire input).length =
    (input.toList.map fun txin => txin.witness.wire.length).sum := by
  rw [witnessesWire, List.length_flatMap]

theorem wire_withoutMweb_length (tx : Transaction) : tx.withoutMweb.wire.length =
    tx.baseSize + if tx.usesSegwitSerialization then
      2 + (tx.input.toList.map fun txin => txin.witness.wire.length).sum else 0 := by
  rw [wire_withoutMweb, baseSize_eq]
  cases tx.usesSegwitSerialization with
  | true =>
    simp only [if_true, plainWire, List.length_append, witnessesWire_length, List.length_cons,
      List.length_nil]
    omega
  | false => rfl

theorem totalSize_eq (tx : Transaction) : tx.totalSize = some tx.withoutMweb.wire.length := by
  rw [wire_withoutMweb_length, totalSize]
  cases tx.usesSegwitSerialization with
  | true =>
    have sizes : tx.input.toList.mapM TxIn.totalSize =
        some (tx.input.toList.map fun txin => txin.baseSize + txin.witness.wire.length) := by
      refine mapM_eq_some fun txin _ => ?_
      rw [TxIn.totalSize, Witness.size_eq]
      rfl
    simp only [if_true, sizes, Option.bind_eq_bind, Option.bind_some, Option.some.injEq,
      List.sum_map_add, baseSize]
    omega
  | false =>
    have sizes : tx.input.toList.mapM (fun txin => some txin.baseSize) =
        some (tx.input.toList.map TxIn.baseSize) := mapM_eq_some fun _ _ => rfl
    simp only [Bool.false_eq_true, if_false, sizes, Option.bind_eq_bind, Option.bind_some,
      baseSize, Nat.add_zero]

/-- What the sizes of a transaction count. -/
structure SizesExact (tx : Transaction) : Prop where
  base : ∃ bytes, serialize tx.txidPreimage = .ok bytes ∧ tx.baseSize = bytes.length
  total : ∃ bytes, serialize tx.withoutMweb.consensusEncode = .ok bytes ∧
    tx.totalSize = some bytes.length
  weight : ∃ total, tx.totalSize = some total ∧ tx.weight = some (3 * tx.baseSize + total)
  -- the least number of bytes of four units each that cover the weight
  vsize : ∃ weight vsize : Nat, tx.weight = some weight ∧ tx.vsize = some vsize ∧
    weight ≤ 4 * vsize ∧ 4 * vsize < weight + 4

theorem consensusEncode_withoutMweb (tx : Transaction) :
    tx.withoutMweb.consensusEncode = .written tx.withoutMweb.wire :=
  consensusEncode_eq fun _ missing => absurd missing nofun

theorem weight_eq (tx : Transaction) :
    tx.weight = some (tx.baseSize * 3 + tx.withoutMweb.wire.length) := by
  rw [weight, totalSize_eq]
  rfl

theorem sizesExact (tx : Transaction) : tx.SizesExact := by
  have total := totalSize_eq tx
  have weight := weight_eq tx
  have vsize := congrArg (Option.map toVbytesCeil) weight
  refine ⟨⟨_, ?_, tx.baseSize_eq⟩, ⟨_, ?_, total⟩, ⟨_, total, ?_⟩, ⟨_, _, weight, vsize, ?_⟩⟩
  · rw [txidPreimage_eq, serialize, Emission.toBytes_written]
  · rw [consensusEncode_withoutMweb, serialize, Emission.toBytes_written]
  · rw [weight, Nat.mul_comm]
  · rw [toVbytesCeil]
    omega

end Transaction
namespace Block

/-- The block of the transactions without their extensions. -/
def withoutMweb (block : Block) : Block :=
  { block with txdata := block.txdata.map Transaction.withoutMweb }

/-- No such block carries an extension block. -/
theorem carriesMweb_withoutMweb (version : Int32) (txdata : List Transaction) :
    blockCarriesMweb version (txdata.map Transaction.withoutMweb) = false := by
  rw [blockCarriesMweb, List.getLast?_map]
  cases txdata.getLast? <;> simp [Transaction.withoutMweb]

theorem consensusEncode_withoutMweb (block : Block) : block.withoutMweb.consensusEncode =
    .written (block.header.wire ++ vecWire Transaction.wire block.withoutMweb.txdata) := by
  have transactions : ∀ tx ∈ block.withoutMweb.txdata.toList, tx.consensusEncode = .written tx.wire := by
    intro tx inside
    obtain ⟨other, _, rfl⟩ := List.mem_map.mp (Vec.toList_map _ _ ▸ inside)
    exact other.consensusEncode_withoutMweb
  have carries := carriesMweb_withoutMweb block.header.version block.txdata.toList
  rw [← Vec.toList_map] at carries
  rw [consensusEncode, encodeVec_eq transactions]
  have closed (emission : Emission IoError) : Emission.gated false emission = .written [] := rfl
  simp only [withoutMweb, carries, Header.codec.emits, closed, Emission.written_append,
    List.append_nil]

/-- What the sizes of a block count. -/
structure SizesExact (block : Block) : Prop where
  base : ∃ bytes, serialize (block.header.consensusEncode ++
    encodeVec Transaction.txidPreimage block.txdata) = .ok bytes ∧ block.baseSize = bytes.length
  total : ∃ bytes, serialize block.withoutMweb.consensusEncode = .ok bytes ∧
    block.totalSize = some bytes.length
  weight : ∃ total, block.totalSize = some total ∧ block.weight = some (3 * block.baseSize + total)

omit [Secp256k1] in
theorem header_length (header : Header) : header.wire.length = headerSize := by
  simp only [Header.wire, List.length_append, littleEndian_length, header.prevBlockhash.property,
    header.merkleRoot.property, headerSize]

theorem sizesExact (block : Block) : block.SizesExact := by
  have bases : block.baseSize =
      (block.header.wire ++ vecWire Transaction.plainWire block.txdata).length := by
    rw [List.length_append, vecWire_length fun tx _ => tx.baseSize_eq, header_length, baseSize]
    omega
  have totals : block.totalSize =
      some (block.header.wire ++ vecWire Transaction.wire block.withoutMweb.txdata).length := by
    have sizes := mapM_eq_some fun tx (_ : tx ∈ block.txdata.toList) => tx.totalSize_eq
    have written : (vecWire Transaction.wire block.withoutMweb.txdata).length =
        VarInt.size block.txdata.len +
          (block.txdata.toList.map fun tx => tx.withoutMweb.wire.length).sum := by
      rw [vecWire_length fun tx _ => rfl, withoutMweb, Vec.len_map, Vec.toList_map, List.map_map]
      rfl
    rw [totalSize, sizes, List.length_append, written, header_length]
    exact congrArg some (Nat.add_assoc _ _ _)
  have weight : block.weight = some (block.baseSize * 3 +
      (block.header.wire ++ vecWire Transaction.wire block.withoutMweb.txdata).length) := by
    rw [Block.weight, totals]
    rfl
  refine ⟨⟨_, ?_, bases⟩, ⟨_, ?_, totals⟩, ⟨_, totals, ?_⟩⟩
  · rw [Header.codec.emits, encodeVec_eq fun tx _ => tx.txidPreimage_eq, Emission.written_append,
      serialize, Emission.toBytes_written]
  · rw [consensusEncode_withoutMweb, serialize, Emission.toBytes_written]
  · rw [weight, Nat.mul_comm]

end Block
/-- The sizes of transactions and blocks are the lengths of their encodings. -/
theorem sizes_exact :
    (∀ tx : Transaction, tx.SizesExact) ∧ ∀ block : Block, block.SizesExact :=
  ⟨Transaction.sizesExact, Block.sizesExact⟩

end

/-- A stack of two elements. -/
def twoItems : Vec ByteVec := ⟨[twoBytes, oneByte], by decide⟩

def twoItemsWitness : Witness := ⟨.pack twoItems, twoItems, rfl, Packed.indexed_of_le (by decide)⟩

section
attribute [local instance] Secp256k1.generatorOnly

/-- One input with the stack and one without a witness. -/
def witnessing : Transaction where
  version := 2
  lockTime := .fromConsensus 7
  input := ⟨[{ previousOutput := { txid := ⟨List.replicate 32 5, rfl⟩, vout := 1 }
               scriptSig := .empty, sequence := 0, witness := twoItemsWitness },
             { previousOutput := { txid := ⟨List.replicate 32 6, rfl⟩, vout := 2 }
               scriptSig := .empty, sequence := 0, witness := .new }], by decide⟩
  output := .empty
  mwTx := none
  isHogEx := true

/-- 92 bytes without the witnesses and 101 with them. -/
example : witnessing.baseSize = 92 ∧ witnessing.totalSize = some 101 ∧
    witnessing.vsize = some 95 := by
  decide

end
end Litecoin.Blockdata
