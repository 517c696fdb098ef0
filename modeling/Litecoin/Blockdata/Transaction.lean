import Litecoin.Blockdata.Witness
import Litecoin.Mimblewimble.Format

/-! Transactions and their codec with the extended flag byte
(`blockdata/transaction.rs`). Bit `0x01` of the flag announces witnesses and bit
`0x08` an MWEB part. -/
namespace Litecoin.Blockdata
open Wire Consensus

/-- `LOCK_TIME_THRESHOLD`. -/
def lockTimeThreshold : UInt32 := 500_000_000

/-- `absolute::LockTime`: heights lie below the threshold and times from it on. -/
inductive LockTime where
  | blocks (height : { n : UInt32 // n < lockTimeThreshold })
  | seconds (time : { n : UInt32 // ¬ n < lockTimeThreshold })
deriving DecidableEq

namespace LockTime

def fromConsensus (n : UInt32) : LockTime :=
  if height : n < lockTimeThreshold then .blocks ⟨n, height⟩ else .seconds ⟨n, height⟩

def toConsensusU32 : LockTime → UInt32
  | .blocks height => height.val
  | .seconds time => time.val

def consensusDecode : Decoder Error LockTime := fromConsensus <$> readU32

def consensusEncode (lockTime : LockTime) : Emission IoError := encodeU32 lockTime.toConsensusU32

end LockTime

structure OutPoint where
  txid : ByteArr 32
  vout : UInt32
deriving DecidableEq

namespace OutPoint

def consensusDecode : Decoder Error OutPoint := do
  let txid ← readExact 32
  let vout ← readU32
  pure { txid, vout }

def consensusEncode (outPoint : OutPoint) : Emission IoError :=
  encodeArray outPoint.txid ++ encodeU32 outPoint.vout

end OutPoint

structure TxIn where
  previousOutput : OutPoint
  scriptSig : ByteVec
  sequence : UInt32
  witness : Witness
deriving DecidableEq

namespace TxIn

/-- Witnesses follow later in the transaction. -/
def consensusDecodeFromFiniteReader : Decoder Error TxIn := do
  let previousOutput ← OutPoint.consensusDecode
  let scriptSig ← decodeBytes
  let sequence ← readU32
  pure { previousOutput, scriptSig, sequence, witness := .new }

def consensusEncode (txin : TxIn) : Emission IoError :=
  txin.previousOutput.consensusEncode ++ encodeWithSize txin.scriptSig ++ encodeU32 txin.sequence

end TxIn

structure TxOut where
  value : UInt64
  scriptPubkey : ByteVec
deriving DecidableEq

namespace TxOut

def consensusDecodeFromFiniteReader : Decoder Error TxOut := do
  let value ← readU64
  let scriptPubkey ← decodeBytes
  pure { value, scriptPubkey }

def consensusEncode (txout : TxOut) : Emission IoError :=
  encodeU64 txout.value ++ encodeWithSize txout.scriptPubkey

end TxOut

def segwitMarker : UInt8 := 0x00
def flagsSegwit : UInt8 := 0x01
def flagsMwebTx : UInt8 := 0x08

variable [Secp256k1]

structure Transaction where
  version : Int32
  lockTime : LockTime
  input : Vec TxIn
  output : Vec TxOut
  mwTx : Option Mimblewimble.Transaction
  isHogEx : Bool
deriving DecidableEq

namespace Transaction

def hasWitnesses (tx : Transaction) : Bool := tx.input.toList.any fun txin => !txin.witness.isEmpty

def hasMweb (tx : Transaction) : Bool := tx.mwTx.isSome || tx.isHogEx

/-- `segwit_required`: an empty input list is only told apart from the marker by an
extension flag. -/
def segwitRequired (tx : Transaction) : Bool :=
  tx.hasWitnesses || (tx.input.isEmpty && !tx.hasMweb)

def flagByte (segwit mweb : Bool) : UInt8 :=
  (if segwit then flagsSegwit else 0) ||| (if mweb then flagsMwebTx else 0)

def encodeMwebPart (tx : Transaction) : Emission IoError :=
  match tx.mwTx with
  | some mw => encodeU8 1 ++ mw.consensusEncode
  | none => encodeU8 0

def consensusEncode (tx : Transaction) : Emission IoError :=
  encodeI32 tx.version ++
  (if !tx.segwitRequired && !tx.hasMweb then
    encodeVec TxIn.consensusEncode tx.input ++ encodeVec TxOut.consensusEncode tx.output
  else
    encodeU8 segwitMarker ++
    encodeU8 (flagByte tx.segwitRequired tx.hasMweb) ++
    encodeVec TxIn.consensusEncode tx.input ++
    encodeVec TxOut.consensusEncode tx.output ++
    .gated tx.segwitRequired
      (.each (fun txin => txin.witness.consensusEncode) tx.input.toList) ++
    .gated tx.hasMweb tx.encodeMwebPart) ++
  tx.lockTime.consensusEncode

omit [Secp256k1] in
/-- `for txin in input.iter_mut() { txin.witness = … }`. -/
def fillWitnesses : (input : List TxIn) →
    Decoder Error { filled : List TxIn // filled.length = input.length }
  | [] => pure ⟨[], rfl⟩
  | txin :: rest => do
    let witness ← Witness.consensusDecode
    let filled ← fillWitnesses rest
    pure ⟨{ txin with witness } :: filled.val, congrArg (· + 1) filled.property⟩

omit [Secp256k1] in
def decodeWitnesses (segwitFlag : UInt8) (input : Vec TxIn) : Decoder Error (Vec TxIn) :=
  if segwitFlag &&& flagsSegwit ≠ 0 then do
    let filled ← fillWitnesses input.toList
    let input : Vec TxIn := ⟨filled.val, by rw [filled.property]; exact input.fits⟩
    if !input.isEmpty && input.toList.all (fun txin => txin.witness.isEmpty) then
      Decoder.fail (.parseFailed "witness flag set but no witnesses present")
    else pure input
  else pure input

def decodeMwebPart (segwitFlag : UInt8) (output : Vec TxOut) :
    Decoder Error (Option Mimblewimble.Transaction × Bool) :=
  if segwitFlag &&& flagsMwebTx ≠ 0 then do
    let isMwTxPresent ← readU8
    if isMwTxPresent ≠ 0 then do
      let mwTx ← Mimblewimble.Transaction.consensusDecodeFromFiniteReader
      pure (some mwTx, false)
    else if output.isEmpty then
      Decoder.fail (.parseFailed "HogEx transaction must have at least one output")
    else pure (none, true)
  else pure (none, false)

/-- Everything after the marker. -/
def decodeExtended (version : Int32) : Decoder Error Transaction := do
  let segwitFlag ← readU8
  if segwitFlag &&& (flagsSegwit ||| flagsMwebTx) ≠ segwitFlag ∨ segwitFlag = 0 then
    Decoder.fail (.unsupportedSegwitFlag segwitFlag)
  else do
    let input ← decodeVec TxIn.consensusDecodeFromFiniteReader
    let output ← decodeVec TxOut.consensusDecodeFromFiniteReader
    let input ← decodeWitnesses segwitFlag input
    let (mwTx, isHogEx) ← decodeMwebPart segwitFlag output
    let lockTime ← LockTime.consensusDecode
    pure { version, lockTime, input, output, mwTx, isHogEx }

def consensusDecodeFromFiniteReader : Decoder Error Transaction := do
  let version ← readI32
  let input ← decodeVec TxIn.consensusDecodeFromFiniteReader
  if input.isEmpty then decodeExtended version
  else do
    let output ← decodeVec TxOut.consensusDecodeFromFiniteReader
    let lockTime ← LockTime.consensusDecode
    pure { version, lockTime, input, output, mwTx := none, isHogEx := false }

/-- The bytes `compute_txid` feeds to its engine. -/
def txidPreimage (tx : Transaction) : Emission IoError :=
  encodeI32 tx.version ++
  encodeVec TxIn.consensusEncode tx.input ++
  encodeVec TxOut.consensusEncode tx.output ++
  tx.lockTime.consensusEncode

end Transaction
end Litecoin.Blockdata
