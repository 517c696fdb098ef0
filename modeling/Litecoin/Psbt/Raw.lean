import Litecoin.Bip32
import Litecoin.Taproot.Builder

/-! Raw key-value pairs and the maps they make up (`psbt/raw.rs`, `psbt/error.rs`,
`psbt/map/mod.rs`, `psbt/macros.rs`). -/
namespace Litecoin.Psbt
open Wire Consensus

/-- `raw::Key`. -/
structure Key where
  typeValue : UInt8
  key : Bytes
deriving DecidableEq, Repr

namespace Key

instance : Ord Key := ⟨compareOn fun key => (key.typeValue, key.key)⟩

instance : Std.TransOrd Key := inferInstanceAs (Std.TransCmp (compareOn _))

instance : Std.LawfulEqOrd Key := lawfulEq_compareOn fun key other same => by
  cases key
  cases other
  simpa using same

end Key

/-- `raw::Pair`. -/
structure Pair where
  key : Key
  value : Bytes
deriving DecidableEq, Repr

inductive PsbtHash where
  | ripemd
  | sha256
  | hash160
  | hash256
deriving DecidableEq, Repr

/-- `psbt::Error`, as far as decoding reports it. The end of a map is not an error
here: `Pair.decode` returns no pair for it. -/
inductive Error where
  | invalidMagic
  | invalidSeparator
  | invalidKey (key : Key)
  | invalidProprietaryKey
  | duplicateKey (key : Key)
  | unsignedTxHasScriptSigs
  | unsignedTxHasScriptWitnesses
  | unsupportedMwebOrHogEx
  | mustHaveUnsignedTx
  | nonStandardSighashType (value : UInt32)
  | invalidHash (expected got : Nat)
  | invalidPreimageHashPair (hashType : PsbtHash) (preimage hash : Bytes)
  | consensusEncoding (error : Consensus.Error)
  | invalidPublicKey (error : Crypto.KeyFromSliceError)
  | invalidSecp256k1PublicKey
  | invalidXOnlyPublicKey
  | invalidEcdsaSignature (error : Crypto.EcdsaError)
  | invalidTaprootSignature (error : Crypto.SigFromSliceError)
  | invalidControlBlock
  | invalidLeafVersion
  | taproot (message : String)
  | tapTree (error : Taproot.IncompleteBuilderError)
  | xPubKey (message : String)
  | version (message : String)
  | partialDataConsumption
  | incompleteMwebMaps (message : String)
  | io (error : IoError)
deriving DecidableEq

/-- `?` on a consensus reader. -/
def fromConsensus (d : Decoder Consensus.Error α) : Decoder Error α := d.mapError .consensusEncoding

/-- A write into a `Vec`, whose `expect` cannot fail. -/
def vecWritten : Emission IoError → Bytes
  | .ok (_, bytes) => bytes
  | .error _ => []

@[simp] theorem vecWritten_written (bytes : Bytes) : vecWritten (.written bytes) = bytes := rfl

/-- `VarInt::from(len)`. -/
def sizeVarInt (len : Nat) : Emission IoError := VarInt.consensusEncode (UInt64.ofNat len)

namespace Key

/-- `none` stands for `NoMorePairs`. -/
def decode : Decoder Error (Option Key) := do
  let byteSize ← fromConsensus VarInt.consensusDecode
  if byteSize = 0 then pure none
  else
    let keyByteSize := (byteSize - 1).toNat
    if maxVecSize < keyByteSize then
      Decoder.fail (.consensusEncoding (.oversizedVectorAllocation keyByteSize maxVecSize))
    else do
      let typeValue ← fromConsensus readU8
      let key ← fromConsensus (readU8.times keyByteSize)
      pure (some { typeValue, key := key.val })

def serialize (key : Key) : Bytes :=
  vecWritten (sizeVarInt (key.key.length + 1) ++ encodeU8 key.typeValue ++
    .each encodeU8 key.key)

end Key

namespace Pair

def decode : Decoder Error (Option Pair) := do
  match ← Key.decode with
  | none => pure none
  | some key => do
    let value ← fromConsensus (Consensus.consensusDecode decodeBytes)
    pure (some { key, value := value.toList })

def serialize (pair : Pair) : Bytes :=
  pair.key.serialize ++ vecWritten (sizeVarInt pair.value.length ++
    .counted pair.value.length pair.value)

end Pair

/-- `raw::ProprietaryKey`. -/
structure ProprietaryKey where
  prefixBytes : ByteVec
  subtype : UInt8
  key : Bytes
deriving DecidableEq

namespace ProprietaryKey

instance : Ord ProprietaryKey := ⟨compareOn fun key => (key.prefixBytes.toList, key.subtype, key.key)⟩

instance : Std.TransOrd ProprietaryKey := inferInstanceAs (Std.TransCmp (compareOn _))

instance : Std.LawfulEqOrd ProprietaryKey := lawfulEq_compareOn fun key other same => by
  cases key
  cases other
  simpa [Vec.ext_iff] using same

def typeValue : UInt8 := 0xFC

/-- `read_to_limit`. -/
def readToLimit (limit : Nat) : Decoder Consensus.Error Bytes := fun bytes =>
  .ok (bytes.take limit, bytes.drop limit)

def keyLimit : Nat := 1024

def consensusDecode : Decoder Consensus.Error ProprietaryKey := do
  let prefixBytes ← Consensus.consensusDecode decodeBytes
  let subtype ← readU8
  let key ← readToLimit keyLimit
  pure { prefixBytes, subtype, key }

def consensusEncode (key : ProprietaryKey) : Emission IoError :=
  encodeWithSize key.prefixBytes ++ encodeU8 key.subtype ++ .counted key.key.length key.key

def toKey (key : ProprietaryKey) : Key :=
  { typeValue := typeValue, key := vecWritten key.consensusEncode }

def tryFrom (key : Key) : Except Error ProprietaryKey :=
  if key.typeValue ≠ typeValue then .error .invalidProprietaryKey
  else match deserialize consensusDecode key.key with
    | .ok proprietary => .ok proprietary
    | .error e => .error (.consensusEncoding e)

end ProprietaryKey

/-- `serialize_map`. -/
def serializeMap (pairs : List Pair) : Bytes := pairs.flatMap Pair.serialize ++ [0x00]

/-- The loop of `decode`: feeds pairs to `insertPair` until none is left. -/
def decodePairs (insertPair : σ → Pair → Except Error σ) : (fuel : Nat) → σ → Decoder Error σ
  | 0, _ => Decoder.fail (.io .unexpectedEof)
  | fuel + 1, state => do
    match ← Pair.decode with
    | none => pure state
    | some pair => do
      let state ← Decoder.ofExcept (insertPair state pair)
      decodePairs insertPair fuel state

/-- `impl_psbtmap_decoding!`; every pair takes at least one byte. -/
def decodeMap (insertPair : σ → Pair → Except Error σ) (state : σ) : Decoder Error σ := fun bytes =>
  decodePairs insertPair (bytes.length + 1) state bytes

def insertProprietary (map : BTreeMap ProprietaryKey Bytes) (pair : Pair) :
    Except Error (BTreeMap ProprietaryKey Bytes) := do
  let key ← ProprietaryKey.tryFrom pair.key
  map.fillEntry key (.ok pair.value) (.duplicateKey pair.key)

def insertUnknown (map : BTreeMap Key Bytes) (pair : Pair) : Except Error (BTreeMap Key Bytes) :=
  map.fillEntry pair.key (.ok pair.value) (.duplicateKey pair.key)

def pushProprietary (map : BTreeMap ProprietaryKey Bytes) : List Pair :=
  map.toList.map fun (key, value) => { key := key.toKey, value }

def pushUnknown (map : BTreeMap Key Bytes) : List Pair :=
  map.toList.map fun (key, value) => { key, value }

end Litecoin.Psbt
