import Litecoin.Blockdata.Transaction
import Litecoin.Psbt.Raw

/-! How the values of key-value maps are written and read (`psbt/serialize.rs`,
`psbt/macros.rs`). -/
namespace Litecoin.Psbt
open Wire Consensus Crypto Bip32 Taproot

/-- A type with `Serialize` and `Deserialize`; an error of the former stands for a
panic of `consensus::serialize`. -/
structure Value (α : Type) where
  serialize : α → Except IoError Bytes
  deserialize : Bytes → Except Error α

namespace Value

/-- A writer that cannot panic. -/
def plain (serialize : α → Bytes) (deserialize : Bytes → Except Error α) : Value α where
  serialize a := .ok (serialize a)
  deserialize := deserialize

/-- `?` after a fallible parser. -/
def orError (e : Error) : Option α → Except Error α
  | some a => .ok a
  | none => .error e

/-- `impl_psbt_de_serialize!`. -/
def consensus (emit : α → Emission IoError) (d : Decoder Consensus.Error α) : Value α where
  serialize a := Consensus.serialize (emit a)
  deserialize data := (Consensus.deserialize d data).mapError .consensusEncoding

/-- `impl_psbt_hash_de_serialize!`. -/
def hash (n : Nat) : Value (ByteArr n) :=
  plain Subtype.val fun data =>
    if size : data.length = n then .ok ⟨data, size⟩ else .error (.invalidHash n data.length)

def txOut : Value Blockdata.TxOut :=
  consensus Blockdata.TxOut.consensusEncode Blockdata.TxOut.consensusDecodeFromFiniteReader

def witness : Value Blockdata.Witness :=
  consensus Blockdata.Witness.consensusEncode Blockdata.Witness.consensusDecode

/-- `ScriptBuf` and `Vec<u8>`. -/
def bytes : Value Bytes := plain id .ok

/-- `PsbtSighashType`, which wraps any `u32`. -/
def sighashType : Value UInt32 := consensus encodeU32 readU32

def childBytes (child : ChildNumber) : Bytes := littleEndian 4 child.toU32.toNat

def pushChild (path : DerivationPath) (index : UInt32) : Except Error DerivationPath :=
  .ok (path ++ [ChildNumber.fromU32 index])

def keySourceBytes (source : KeySource) : Bytes := source.1.val ++ source.2.flatMap childBytes

def keySource : Value KeySource :=
  plain keySourceBytes fun data =>
    if long : 4 ≤ data.length then do
      let path ← (fromConsensus readU32).toEnd pushChild data.length [] (data.drop 4)
      pure (⟨data.take 4, List.length_take_of_le long⟩, path)
    else .error (.io .unexpectedEof)

/-- A script and, as its last byte, the leaf version. -/
def scriptVersion : Value (Bytes × LeafVersion) :=
  plain (fun (script, version) => script ++ [version.toConsensus]) fun data =>
    match data.getLast? with
    | none => .error (.io .unexpectedEof)
    | some last => match LeafVersion.fromConsensus last with
      | .ok version => .ok (data.dropLast, version)
      | .error _ => .error .invalidLeafVersion

def leafHashesSource : Value (Vec TapLeafHash × KeySource) where
  serialize := fun (hashes, source) => do
    let written ← Consensus.serialize (encodeVec encodeArray hashes)
    let tail ← keySource.serialize source
    pure (written ++ tail)
  deserialize data := do
    let (hashes, rest) ← (decodeVec (readExact 32) data).mapError .consensusEncoding
    let source ← keySource.deserialize rest
    pure (hashes, source)

section
variable [Secp256k1]

def transaction : Value Blockdata.Transaction :=
  consensus Blockdata.Transaction.consensusEncode
    Blockdata.Transaction.consensusDecodeFromFiniteReader

def publicKey : Value PublicKey :=
  plain PublicKey.toBytes fun data => (PublicKey.fromSlice data).mapError .invalidPublicKey

/-- `secp256k1::PublicKey`. -/
def secpPublicKey : Value Secp256k1.PublicKey :=
  plain (fun key => (Secp256k1.serialize key).val) fun data =>
    orError .invalidSecp256k1PublicKey (Secp256k1.publicKeyFromSlice data)

def ecdsaError : EcdsaError → Error
  | .sighashType value => .nonStandardSighashType value
  | error => .invalidEcdsaSignature error

def ecdsaSignature : Value EcdsaSignature :=
  plain EcdsaSignature.toVec fun data => (EcdsaSignature.fromSlice data).mapError ecdsaError

def xOnlyPublicKey : Value Secp256k1.XOnlyPublicKey :=
  plain (fun key => (Secp256k1.serializeXOnly key).val) fun data =>
    orError .invalidXOnlyPublicKey (Secp256k1.xOnlyPublicKeyFromSlice data)

def taprootError : SigFromSliceError → Error
  | .sighashType value => .nonStandardSighashType value
  | error => .invalidTaprootSignature error

def taprootSignature : Value TaprootSignature :=
  plain TaprootSignature.toVec fun data => (TaprootSignature.fromSlice data).mapError taprootError

instance keyAndLeafTransOrd : Std.TransOrd (Secp256k1.XOnlyPublicKey × TapLeafHash) := inferInstance

def keyAndLeaf : Value (Secp256k1.XOnlyPublicKey × TapLeafHash) :=
  plain (fun (key, leaf) => (Secp256k1.serializeXOnly key).val ++ leaf.val) fun data =>
    if data.length < 32 then .error (.io .unexpectedEof)
    else do
      let key ← xOnlyPublicKey.deserialize (data.take 32)
      let leaf ← (hash 32).deserialize (data.drop 32)
      pure (key, leaf)

def controlBlock : Value ControlBlock :=
  plain ControlBlock.serialize fun data =>
    (ControlBlock.decode data).mapError fun _ => .invalidControlBlock

end

section
variable [Hashes]

/-- One round of the loop that reads a tree: depth, leaf version and script. -/
def treeLeaf : Decoder Error (UInt8 × LeafVersion × ByteVec) := do
  let depth ← fromConsensus readU8
  let version ← readU8.mapError fun _ => .taproot "Invalid Taproot Builder"
  let script ← fromConsensus decodeBytes
  let leafVersion ← Decoder.ofExcept
    ((LeafVersion.fromConsensus version).mapError fun _ => .invalidLeafVersion)
  pure (depth, leafVersion, script)

def addTreeLeaf (builder : TaprootBuilder) (leaf : UInt8 × LeafVersion × ByteVec) :
    Except Error TaprootBuilder :=
  (builder.addLeafWithVer leaf.1 leaf.2.2 leaf.2.1).mapError fun _ => .taproot "Tree not in DFS order"

def finishTree (builder : TaprootBuilder) : Except Error TapTree :=
  match TapTree.tryFrom builder with
  | .ok tree => tree.mapError .tapTree
  -- No builder that leaves were added to panics, see `tryFrom_of_run`.
  | .error _ => .error (.tapTree (.notFinalized builder.branch))

def tapTree : Value TapTree :=
  plain
    (fun tree => tree.scriptLeaves.flatMap fun leaf =>
      [UInt8.ofNat leaf.merkleBranch.val.length, leaf.version.toConsensus] ++
        vecWritten (encodeWithSize leaf.script))
    fun data => do
      let builder ← treeLeaf.toEnd addTreeLeaf data.length TaprootBuilder.new data
      finishTree builder

end

/-- The preimages of one hash function: a preimage is only taken in under its hash. -/
def preimageOf (hashType : PsbtHash) (digest : Bytes → ByteArr n) (hash : ByteArr n) : Value Bytes :=
  plain id fun preimage =>
    if digest preimage = hash then .ok preimage
    else .error (.invalidPreimageHashPair hashType preimage hash.val)

end Value
end Litecoin.Psbt
