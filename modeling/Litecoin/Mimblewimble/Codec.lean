import Litecoin.Crypto.Secp256k1
import Litecoin.Mimblewimble.Varint

/-! MWEB inputs, outputs and kernels with their readers and writers
(`blockdata/mimblewimble.rs`). Optional fields are announced by feature bits. -/
namespace Litecoin.Mimblewimble
open Wire Consensus Secp256k1

/-- `features & bit != 0`. -/
def hasBit (features bit : UInt8) : Bool := features &&& bit != 0

namespace KernelFeatures
def feeFeatureBit : UInt8 := 0x01
def peginFeatureBit : UInt8 := 0x02
def pegoutFeatureBit : UInt8 := 0x04
def heightLockFeatureBit : UInt8 := 0x08
def stealthExcessFeatureBit : UInt8 := 0x10
def extraDataFeatureBit : UInt8 := 0x20
end KernelFeatures

namespace OutputFeatures
def standardFieldsFeatureBit : UInt8 := 0x01
def extraDataFeatureBit : UInt8 := 0x02
end OutputFeatures

variable [Secp256k1]

structure OutputMessageStandardFields where
  keyExchangePubkey : PublicKey
  viewTag : UInt8
  maskedValue : UInt64
  maskedNonce : ByteArr 16
deriving DecidableEq

structure OutputMessage where
  features : UInt8
  standardFields : Option OutputMessageStandardFields
  extraData : ByteVec
deriving DecidableEq

structure Output where
  commitment : ByteArr 33
  senderPublicKey : PublicKey
  receiverPublicKey : PublicKey
  message : OutputMessage
  rangeProof : ByteArr 675
  signature : ByteArr 64
deriving DecidableEq

structure Input where
  features : UInt8
  outputId : ByteArr 32
  commitment : ByteArr 33
  inputPublicKey : Option PublicKey
  outputPublicKey : PublicKey
  extraData : ByteVec
  signature : ByteArr 64
deriving DecidableEq

structure PegOutCoin where
  amount : Int64
  scriptPubKey : ByteVec
deriving DecidableEq

structure Kernel where
  features : UInt8
  fee : Option Int64
  pegin : Option Int64
  pegouts : Vec PegOutCoin
  lockHeight : Option UInt32
  stealthExcess : Option PublicKey
  extraData : ByteVec
  excess : ByteArr 33
  signature : ByteArr 64
deriving DecidableEq

structure TxBody where
  inputs : Vec Input
  outputs : Vec Output
  kernels : Vec Kernel
deriving DecidableEq

structure Transaction where
  kernelOffset : ByteArr 32
  stealthOffset : ByteArr 32
  body : TxBody
deriving DecidableEq

/-- Reads a 33-byte public key, reporting a bad one as `message`. -/
def readPublicKey (message : String) : Decoder Error PublicKey := do
  let bytes ← readExact 33
  match publicKeyFromSlice bytes.val with
  | some key => pure key
  | none => Decoder.fail (.parseFailed message)

def encodePublicKey (key : PublicKey) : Emission IoError := encodeArray (serialize key)

namespace PegOutCoin

def consensusDecodeFromFiniteReader : Decoder Error PegOutCoin := do
  let amount ← readAmount
  let scriptPubKey ← decodeBytes
  Decoder.guard (!scriptPubKey.isEmpty) (.parseFailed "Pegout scriptPubKey must not be empty")
  pure { amount, scriptPubKey }

def consensusEncode (coin : PegOutCoin) : Emission IoError :=
  writeAmount coin.amount ++ encodeWithSize coin.scriptPubKey

end PegOutCoin

namespace Kernel
open KernelFeatures

/-- The height lock is written as an amount; only `u32` values come back. -/
def readLockHeight : Decoder Error UInt32 := do
  let raw ← readAmount
  if raw < 0 ∨ raw > 0xFFFFFFFF then Decoder.fail (.parseFailed "Kernel lock_height out of range")
  else pure raw.toUInt64.toUInt32

def writeLockHeight (height : UInt32) : Emission IoError := writeAmount height.toUInt64.toInt64

def consensusDecodeFromFiniteReader : Decoder Error Kernel := do
  let features ← readU8
  let fee ← readAmount.gated (hasBit features feeFeatureBit)
  let pegin ← readAmount.gated (hasBit features peginFeatureBit)
  let pegouts ← (decodeVec PegOutCoin.consensusDecodeFromFiniteReader).orAbsent
    (hasBit features pegoutFeatureBit) .empty
  let lockHeight ← readLockHeight.gated (hasBit features heightLockFeatureBit)
  let stealthExcess ← (readPublicKey "invalid kernel stealth excess").gated
    (hasBit features stealthExcessFeatureBit)
  let extraData ← decodeBytes.orAbsent (hasBit features extraDataFeatureBit) .empty
  let excess ← readExact 33
  let signature ← readExact 64
  pure { features, fee, pegin, pegouts, lockHeight, stealthExcess, extraData, excess, signature }

def consensusEncode (kernel : Kernel) : Emission IoError :=
  let has := hasBit kernel.features
  encodeU8 kernel.features ++
  .gated (has feeFeatureBit)
    (.required writeAmount (.other "Kernel.fee bit set but None") kernel.fee) ++
  .gated (has peginFeatureBit)
    (.required writeAmount (.other "Kernel.pegin bit set but None") kernel.pegin) ++
  .gated (has pegoutFeatureBit) (encodeVec PegOutCoin.consensusEncode kernel.pegouts) ++
  .gated (has heightLockFeatureBit)
    (.required writeLockHeight (.other "Kernel.lock_height bit set but None")
      kernel.lockHeight) ++
  .gated (has stealthExcessFeatureBit)
    (.required encodePublicKey (.other "Kernel.stealth_excess bit set but None")
      kernel.stealthExcess) ++
  .gated (has extraDataFeatureBit) (encodeWithSize kernel.extraData) ++
  encodeArray kernel.excess ++
  encodeArray kernel.signature

end Kernel

namespace Input

def consensusDecodeFromFiniteReader : Decoder Error Input := do
  let features ← readU8
  let outputId ← readExact 32
  let commitment ← readExact 33
  let outputPublicKey ← readPublicKey "invalid input output_public_key"
  let inputPublicKey ← (readPublicKey "invalid input input_public_key").gated (hasBit features 1)
  let extraData ← decodeBytes.orAbsent (hasBit features 2) .empty
  let signature ← readExact 64
  pure { features, outputId, commitment, inputPublicKey, outputPublicKey, extraData, signature }

def consensusEncode (input : Input) : Emission IoError :=
  encodeU8 input.features ++
  encodeArray input.outputId ++
  encodeArray input.commitment ++
  encodePublicKey input.outputPublicKey ++
  .gated (hasBit input.features 1)
    (.required encodePublicKey (.other "Input.input_public_key bit set but None")
      input.inputPublicKey) ++
  .gated (hasBit input.features 2) (encodeWithSize input.extraData) ++
  encodeArray input.signature

end Input

namespace OutputMessage
open OutputFeatures

def readStandardFields : Decoder Error OutputMessageStandardFields := do
  let keyExchangePubkey ← readPublicKey "invalid output key_exchange_pubkey"
  let viewTag ← readU8
  let maskedValue ← readU64
  let maskedNonce ← readExact 16
  pure { keyExchangePubkey, viewTag, maskedValue, maskedNonce }

def consensusDecodeFromFiniteReader : Decoder Error OutputMessage := do
  let features ← readU8
  let standardFields ← readStandardFields.gated (hasBit features standardFieldsFeatureBit)
  let extraData ← decodeBytes.orAbsent (hasBit features extraDataFeatureBit) .empty
  pure { features, standardFields, extraData }

def encodeStandardFields (fields : OutputMessageStandardFields) : Emission IoError :=
  encodePublicKey fields.keyExchangePubkey ++
  encodeU8 fields.viewTag ++
  encodeU64 fields.maskedValue ++
  encodeArray fields.maskedNonce

/-- The standard fields are written when present, whatever the feature bit says. -/
def consensusEncode (message : OutputMessage) : Emission IoError :=
  encodeU8 message.features ++
  (match message.standardFields with
    | some fields => encodeStandardFields fields
    | none => .written []) ++
  .gated (hasBit message.features extraDataFeatureBit) (encodeWithSize message.extraData)

end OutputMessage

namespace Output

def consensusDecodeFromFiniteReader : Decoder Error Output := do
  let commitment ← readExact 33
  let senderPublicKey ← readPublicKey "invalid output sender_public_key"
  let receiverPublicKey ← readPublicKey "invalid output receiver_public_key"
  let message ← OutputMessage.consensusDecodeFromFiniteReader
  let rangeProof ← readExact 675
  let signature ← readExact 64
  pure { commitment, senderPublicKey, receiverPublicKey, message, rangeProof, signature }

def consensusEncode (output : Output) : Emission IoError :=
  encodeArray output.commitment ++
  encodePublicKey output.senderPublicKey ++
  encodePublicKey output.receiverPublicKey ++
  output.message.consensusEncode ++
  encodeArray output.rangeProof ++
  encodeArray output.signature

end Output

namespace TxBody

def consensusDecodeFromFiniteReader : Decoder Error TxBody := do
  let inputs ← decodeVec Input.consensusDecodeFromFiniteReader
  let outputs ← decodeVec Output.consensusDecodeFromFiniteReader
  let kernels ← decodeVec Kernel.consensusDecodeFromFiniteReader
  pure { inputs, outputs, kernels }

def consensusEncode (body : TxBody) : Emission IoError :=
  encodeVec Input.consensusEncode body.inputs ++
  encodeVec Output.consensusEncode body.outputs ++
  encodeVec Kernel.consensusEncode body.kernels

end TxBody

namespace Transaction

def consensusDecodeFromFiniteReader : Decoder Error Transaction := do
  let kernelOffset ← readExact 32
  let stealthOffset ← readExact 32
  let body ← TxBody.consensusDecodeFromFiniteReader
  Decoder.guard (!body.kernels.isEmpty)
    (.parseFailed "MWEB transaction must contain at least one kernel")
  pure { kernelOffset, stealthOffset, body }

def consensusEncode (tx : Transaction) : Emission IoError :=
  encodeArray tx.kernelOffset ++ encodeArray tx.stealthOffset ++ tx.body.consensusEncode

end Transaction
end Litecoin.Mimblewimble
