import Litecoin.Psbt.Mweb

/-! Input and output maps (`psbt/map/input.rs`, `psbt/map/output.rs`, `psbt/macros.rs`).
Both hold typed fields, an MWEB map, and proprietary and unknown pairs. -/
namespace Litecoin.Psbt
open Wire Consensus Crypto Bip32 Taproot

/-- `impl_psbt_insert_pair!` for a field without key data. -/
def insertUnkeyed (value : Value α) (slot : Option α) (pair : Pair) : Except Error (Option α) :=
  if pair.key.key.isEmpty then
    match slot with
    | none => some <$> value.deserialize pair.value
    | some _ => .error (.duplicateKey pair.key)
  else .error (.invalidKey pair.key)

/-- `impl_psbt_insert_pair!` for a field with key data, and `psbt_insert_hash_pair` where
the value depends on the key. -/
def insertKeyed [Ord κ] [Std.TransOrd κ] (key : Value κ) (value : κ → Value α) (map : BTreeMap κ α)
    (pair : Pair) : Except Error (BTreeMap κ α) :=
  if pair.key.key.isEmpty then .error (.invalidKey pair.key)
  else do
    let k ← key.deserialize pair.key.key
    map.fillEntry k ((value k).deserialize pair.value) (.duplicateKey pair.key)

/-- `impl_psbt_get_pair!` for a field without key data. -/
def pushUnkeyed (value : Value α) (typeValue : UInt8) (slot : Option α) : Except IoError (List Pair) :=
  slot.toList.mapM fun a => do
    let data ← value.serialize a
    pure { key := { typeValue, key := [] }, value := data }

/-- `impl_psbt_get_pair!` for a field with key data. -/
def pushMap [Ord κ] [Std.TransOrd κ] (key : Value κ) (value : κ → Value α) (typeValue : UInt8)
    (map : BTreeMap κ α) : Except IoError (List Pair) :=
  map.toList.mapM fun (k, a) => do
    let keyData ← key.serialize k
    let data ← (value k).serialize a
    pure { key := { typeValue, key := keyData }, value := data }

/-- A field holds at most one value, or one value for each key. -/
inductive Shape : Type 1 where
  | unkeyed {α : Type} (value : Value α)
  | keyed {κ α : Type} [Ord κ] [Std.TransOrd κ] [Std.LawfulEqOrd κ] (key : Value κ)
      (value : κ → Value α)

namespace Shape

def Slot : Shape → Type
  | @unkeyed α _ => Option α
  | @keyed κ α _ _ _ _ _ => BTreeMap κ α

def empty : (shape : Shape) → shape.Slot
  | @unkeyed α _ => (none : Option α)
  | @keyed κ α _ _ _ _ _ => (∅ : BTreeMap κ α)

def insert : (shape : Shape) → shape.Slot → Pair → Except Error shape.Slot
  | unkeyed value => insertUnkeyed value
  | keyed key value => insertKeyed key value

def getPairs (typeValue : UInt8) : (shape : Shape) → shape.Slot → Except IoError (List Pair)
  | unkeyed value => pushUnkeyed value typeValue
  | keyed key value => pushMap key value typeValue

end Shape

/-- The typed fields of a kind of map, in the order they are written, and how its MWEB
fields are told apart, admitted, applied and written. -/
structure MapTable (F M : Type) where
  fields : List F
  typeValue : F → UInt8
  shape : F → Shape
  isMweb : UInt8 → Bool
  admitsMweb : Key → Bool
  noMweb : M
  applyMweb : M → KvPair → M
  mwebPairs : M → List KvPair

/-- The arms of `insert_pair`. -/
inductive Arm (F : Type) where
  | typed (f : F)
  | proprietary
  | mweb
  | unknown

def MapTable.armOf (table : MapTable F M) (typeValue : UInt8) : Arm F :=
  match table.fields.find? fun f => table.typeValue f = typeValue with
  | some f => .typed f
  | none =>
    if typeValue = ProprietaryKey.typeValue then .proprietary
    else if table.isMweb typeValue then .mweb
    else .unknown

/-- The contents of a map. -/
structure FieldMap (table : MapTable F M) where
  fields : (f : F) → (table.shape f).Slot
  proprietary : BTreeMap ProprietaryKey Bytes
  unknown : BTreeMap Key Bytes
  mweb : M

namespace FieldMap
variable {table : MapTable F M}

def default (table : MapTable F M) : FieldMap table :=
  { fields := fun f => (table.shape f).empty, proprietary := ∅, unknown := ∅, mweb := table.noMweb }

def insertPair [DecidableEq F] (map : FieldMap table) (pair : Pair) : Except Error (FieldMap table) :=
  match table.armOf pair.key.typeValue with
  | .typed f => do
    let slot ← (table.shape f).insert (map.fields f) pair
    pure { map with fields := Function.update map.fields f slot }
  | .proprietary => do
    let proprietary ← insertProprietary map.proprietary pair
    pure { map with proprietary }
  | .mweb =>
    if table.admitsMweb pair.key then
      .ok { map with mweb := table.applyMweb map.mweb (pair.key.typeValue, pair.key.key, pair.value) }
    else .error (.invalidKey pair.key)
  | .unknown => do
    let unknown ← insertUnknown map.unknown pair
    pure { map with unknown }

def mwebPair (kv : KvPair) : Pair := { key := { typeValue := kv.1, key := kv.2.1 }, value := kv.2.2 }

def getPairs (map : FieldMap table) : Except IoError (List Pair) := do
  let typed ← table.fields.mapM fun f => (table.shape f).getPairs (table.typeValue f) (map.fields f)
  pure (typed.flatten ++ (table.mwebPairs map.mweb).map mwebPair ++ pushProprietary map.proprietary ++
    pushUnknown map.unknown)

end FieldMap

namespace Input

/-- The fields of an input map with one type byte each. -/
inductive Field where
  | nonWitnessUtxo
  | witnessUtxo
  | partialSigs
  | sighashType
  | redeemScript
  | witnessScript
  | bip32Derivation
  | finalScriptSig
  | finalScriptWitness
  | ripemd160Preimages
  | sha256Preimages
  | hash160Preimages
  | hash256Preimages
  | tapKeySig
  | tapScriptSigs
  | tapScripts
  | tapKeyOrigins
  | tapInternalKey
  | tapMerkleRoot
deriving DecidableEq

open Input.Field

def typeValue : Field → UInt8
  | nonWitnessUtxo => 0x00
  | witnessUtxo => 0x01
  | partialSigs => 0x02
  | sighashType => 0x03
  | redeemScript => 0x04
  | witnessScript => 0x05
  | bip32Derivation => 0x06
  | finalScriptSig => 0x07
  | finalScriptWitness => 0x08
  | ripemd160Preimages => 0x0a
  | sha256Preimages => 0x0b
  | hash160Preimages => 0x0c
  | hash256Preimages => 0x0d
  | tapKeySig => 0x13
  | tapScriptSigs => 0x14
  | tapScripts => 0x15
  | tapKeyOrigins => 0x16
  | tapInternalKey => 0x17
  | tapMerkleRoot => 0x18

/-- Key origins have the key as key data, every other MWEB field has none. -/
def admitsMweb (key : Key) : Bool :=
  if key.typeValue = 0x9A || key.typeValue = 0x9B then !key.key.isEmpty else key.key.isEmpty

variable [Secp256k1] [Hashes]

def shape : Field → Shape
  | nonWitnessUtxo => .unkeyed Value.transaction
  | witnessUtxo => .unkeyed Value.txOut
  | partialSigs => .keyed Value.publicKey fun _ => Value.ecdsaSignature
  | sighashType => .unkeyed Value.sighashType
  | redeemScript | witnessScript | finalScriptSig => .unkeyed Value.bytes
  | bip32Derivation => .keyed Value.secpPublicKey fun _ => Value.keySource
  | finalScriptWitness => .unkeyed Value.witness
  | ripemd160Preimages => .keyed (Value.hash 20) (Value.preimageOf .ripemd Hashes.ripemd160)
  | sha256Preimages => .keyed (Value.hash 32) (Value.preimageOf .sha256 Hashes.sha256)
  | hash160Preimages => .keyed (Value.hash 20) (Value.preimageOf .hash160 Hashes.hash160)
  | hash256Preimages => .keyed (Value.hash 32) (Value.preimageOf .hash256 Hashes.sha256d)
  | tapKeySig => .unkeyed Value.taprootSignature
  | tapScriptSigs => .keyed Value.keyAndLeaf fun _ => Value.taprootSignature
  | tapScripts => .keyed Value.controlBlock fun _ => Value.scriptVersion
  | tapKeyOrigins => .keyed Value.xOnlyPublicKey fun _ => Value.leafHashesSource
  | tapInternalKey => .unkeyed Value.xOnlyPublicKey
  | tapMerkleRoot => .unkeyed (Value.hash 32)

def table : MapTable Field MwebInput where
  fields := [nonWitnessUtxo, witnessUtxo, partialSigs, sighashType, redeemScript, witnessScript,
    bip32Derivation, finalScriptSig, finalScriptWitness, ripemd160Preimages, sha256Preimages,
    hash160Preimages, hash256Preimages, tapKeySig, tapScriptSigs, tapScripts, tapKeyOrigins,
    tapInternalKey, tapMerkleRoot]
  typeValue := typeValue
  shape := shape
  isMweb := MwebInput.inRange
  admitsMweb := admitsMweb
  noMweb := MwebInput.table.empty
  applyMweb := MwebInput.applyKvField
  mwebPairs := MwebInput.toKvPairs

end Input

abbrev Input [Secp256k1] [Hashes] : Type := FieldMap Input.table

namespace Output

inductive Field where
  | redeemScript
  | witnessScript
  | bip32Derivation
  | tapInternalKey
  | tapTree
  | tapKeyOrigins
deriving DecidableEq

open Output.Field

def typeValue : Field → UInt8
  | redeemScript => 0x00
  | witnessScript => 0x01
  | bip32Derivation => 0x02
  | tapInternalKey => 0x05
  | tapTree => 0x06
  | tapKeyOrigins => 0x07

variable [Secp256k1] [Hashes]

def shape : Field → Shape
  | redeemScript | witnessScript => .unkeyed Value.bytes
  | bip32Derivation => .keyed Value.secpPublicKey fun _ => Value.keySource
  | tapInternalKey => .unkeyed Value.xOnlyPublicKey
  | tapTree => .unkeyed Value.tapTree
  | tapKeyOrigins => .keyed Value.xOnlyPublicKey fun _ => Value.leafHashesSource

def table : MapTable Field MwebOutput where
  fields := [redeemScript, witnessScript, bip32Derivation, tapInternalKey, tapTree, tapKeyOrigins]
  typeValue := typeValue
  shape := shape
  isMweb := MwebOutput.inRange
  admitsMweb key := key.key.isEmpty
  noMweb := MwebOutput.table.empty
  applyMweb output kv := output.applyField (kv.1, kv.2.2)
  mwebPairs output := output.toPairs.map fun (typeValue, value) => (typeValue, [], value)

end Output

abbrev Output [Secp256k1] [Hashes] : Type := FieldMap Output.table

namespace Input
variable [Secp256k1] [Hashes]

def insertPair (input : Input) (pair : Pair) : Except Error Input := FieldMap.insertPair input pair

def decode : Decoder Error Input := decodeMap insertPair (FieldMap.default table)

def serializeMap (input : Input) : Except IoError Bytes := Psbt.serializeMap <$> input.getPairs

end Input

namespace Output
variable [Secp256k1] [Hashes]

def insertPair (output : Output) (pair : Pair) : Except Error Output := FieldMap.insertPair output pair

def decode : Decoder Error Output := decodeMap insertPair (FieldMap.default table)

def serializeMap (output : Output) : Except IoError Bytes := Psbt.serializeMap <$> output.getPairs

end Output
end Litecoin.Psbt
