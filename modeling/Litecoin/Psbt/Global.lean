import Litecoin.Psbt.Map

/-! The global map and whole PSBTs (`psbt/map/global.rs`, `psbt/serialize.rs`,
`psbt/mod.rs`). -/
namespace Litecoin.Psbt
open Wire Consensus Bip32 Blockdata

/-- The arms of `decode_global`. -/
inductive GlobalArm where
  | unsignedTx
  | xpub
  | version
  | proprietary
  | mwebTxOffset
  | mwebStealthOffset
  | mwebKernelCount
  | mwebKernelField
  | mwebOutputField
  | mwebInputField
  | unknown
deriving DecidableEq

/-- The arms share type bytes and are tried in this order. -/
def GlobalArm.ofKey (key : Key) : GlobalArm :=
  if key.typeValue = 0x00 then .unsignedTx
  else if key.typeValue = 0x01 then .xpub
  else if key.typeValue = 0xFB then .version
  else if key.typeValue = 0xFC then .proprietary
  else if key.typeValue = 0x90 ∧ key.key.length = 0 then .mwebTxOffset
  else if key.typeValue = 0x91 ∧ key.key.length = 0 then .mwebStealthOffset
  else if key.typeValue = 0x92 ∧ key.key.length = 0 then .mwebKernelCount
  else if key.typeValue = 0x93 ∧ 5 ≤ key.key.length then .mwebKernelField
  else if key.typeValue = 0x94 ∧ key.key.length = 5 then .mwebOutputField
  else if MwebInput.inRange key.typeValue ∧ 4 ≤ key.key.length then .mwebInputField
  else .unknown

/-- `u32::from_le_bytes(key[..4])`. -/
def mwebIndex (key : Key) : Nat := fromLittleEndian (key.key.take 4)

/-- The field byte behind an index. -/
def mwebFieldType (key : Key) : UInt8 := (key.key.drop 4).headD 0

/-- `while let Ok(value) = d { … }`. -/
def whileOk (d : Decoder ε α) : (rounds : Nat) → Bytes → List α
  | 0, _ => []
  | rounds + 1, bytes => match d bytes with
    | .ok (a, rest) => a :: whileOk d rounds rest
    | .error _ => []

section
variable [Secp256k1]

/-- The variables of `decode_global`. -/
structure GlobalState where
  tx : Option Transaction
  version : Option UInt32
  xpub : BTreeMap Xpub KeySource
  proprietary : BTreeMap ProprietaryKey Bytes
  unknown : BTreeMap Key Bytes
  mwebTxOffset : Option (ByteArr 32)
  mwebStealthOffset : Option (ByteArr 32)
  mwebKernels : List MwebKernel
  mwebInputs : List MwebInput
  mwebOutputs : List MwebOutput

namespace GlobalState

def initial : GlobalState where
  tx := none
  version := none
  xpub := ∅
  proprietary := ∅
  unknown := ∅
  mwebTxOffset := none
  mwebStealthOffset := none
  mwebKernels := []
  mwebInputs := []
  mwebOutputs := []

/-- The unsigned transaction is read without markers and witnesses. -/
def readUnsignedTx : Decoder Consensus.Error Transaction := do
  let version ← readI32
  let input ← Consensus.consensusDecode (decodeVec TxIn.consensusDecodeFromFiniteReader)
  let output ← Consensus.consensusDecode (decodeVec TxOut.consensusDecodeFromFiniteReader)
  let lockTime ← LockTime.consensusDecode
  pure { version, input, output, lockTime, mwTx := none, isHogEx := false }

def insertUnsignedTx (slot : Option Transaction) (pair : Pair) : Except Error (Option Transaction) :=
  if pair.key.key.isEmpty then
    match slot with
    | none => some <$> (fromConsensus readUnsignedTx).whole .partialDataConsumption pair.value
    | some _ => .error (.duplicateKey pair.key)
  else .error (.invalidKey pair.key)

def insertXpub (map : BTreeMap Xpub KeySource) (pair : Pair) :
    Except Error (BTreeMap Xpub KeySource) :=
  if pair.key.key.isEmpty then
    .error (.xPubKey "Xpub global key must contain serialized Xpub data")
  else do
    let xpub ← (Xpub.decode pair.key.key).mapError fun _ =>
      .xPubKey "Can't deserialize ExtendedPublicKey from global XPUB key data"
    if pair.value.isEmpty ∨ pair.value.length % 4 ≠ 0 then
      .error (.xPubKey "Incorrect length of global xpub derivation data")
    else do
      let (fingerprint, rest) ←
        Decoder.exact 4 (.xPubKey "Can't read global xpub fingerprint") pair.value
      let path := (whileOk readU32 rest.length rest).map ChildNumber.fromU32
      map.fillEntry xpub (.ok (fingerprint, path)) (.xPubKey "Repeated global xpub key")

omit [Secp256k1] in
/-- Only version 0 is understood. -/
def insertVersion (slot : Option UInt32) (pair : Pair) : Except Error (Option UInt32) :=
  if pair.key.key.isEmpty then
    match slot with
    | none =>
      if pair.value.length ≠ 4 then
        .error (.version "invalid global version value length (must be 4 bytes)")
      else do
        let (version, _) ← fromConsensus readU32 pair.value
        if version ≠ 0 then .error (.version "PSBT versions greater than 0 are not supported")
        else pure (some version)
    | some _ => .error (.duplicateKey pair.key)
  else .error (.invalidKey pair.key)

omit [Secp256k1] in
def insertOffset (slot : Option (ByteArr 32)) (pair : Pair) : Except Error (Option (ByteArr 32)) :=
  match slot with
  | some _ => .error (.duplicateKey pair.key)
  | none =>
    if size : pair.value.length = 32 then .ok (some ⟨pair.value, size⟩)
    else .error (.invalidKey pair.key)

/-- One round of the loop of `decode_global`. -/
def insertPair (state : GlobalState) (pair : Pair) : Except Error GlobalState :=
  match GlobalArm.ofKey pair.key with
  | .unsignedTx => do
    let tx ← insertUnsignedTx state.tx pair
    pure { state with tx }
  | .xpub => do
    let xpub ← insertXpub state.xpub pair
    pure { state with xpub }
  | .version => do
    let version ← insertVersion state.version pair
    pure { state with version }
  | .proprietary => do
    let proprietary ← insertProprietary state.proprietary pair
    pure { state with proprietary }
  | .mwebTxOffset => do
    let mwebTxOffset ← insertOffset state.mwebTxOffset pair
    pure { state with mwebTxOffset }
  | .mwebStealthOffset => do
    let mwebStealthOffset ← insertOffset state.mwebStealthOffset pair
    pure { state with mwebStealthOffset }
  | .mwebKernelCount =>
    if pair.value.length ≠ 4 then .error (.invalidKey pair.key) else .ok state
  | .mwebKernelField =>
    .ok { state with
      mwebKernels := applyAt MwebKernel.default MwebKernel.applyField state.mwebKernels
        (mwebIndex pair.key, mwebFieldType pair.key, pair.key.key.drop 5, pair.value) }
  | .mwebOutputField =>
    .ok { state with
      mwebOutputs := applyAt MwebOutput.table.empty MwebOutput.applyField state.mwebOutputs
        (mwebIndex pair.key, mwebFieldType pair.key, pair.value) }
  | .mwebInputField =>
    .ok { state with
      mwebInputs := applyAt MwebInput.table.empty MwebInput.applyKvField state.mwebInputs
        (mwebIndex pair.key, pair.key.typeValue, pair.key.key.drop 4, pair.value) }
  | .unknown => do
    let unknown ← insertUnknown state.unknown pair
    pure { state with unknown }

end GlobalState
end
end Litecoin.Psbt

namespace Litecoin
open Wire Consensus Bip32 Blockdata Psbt

variable [Secp256k1] [Hashes]

structure Psbt where
  unsignedTx : Transaction
  version : UInt32
  xpub : BTreeMap Xpub KeySource
  proprietary : BTreeMap ProprietaryKey Bytes
  unknown : BTreeMap Key Bytes
  inputs : List Psbt.Input
  outputs : List Psbt.Output
  mwebTxOffset : Option (ByteArr 32)
  mwebStealthOffset : Option (ByteArr 32)
  mwebKernels : List MwebKernel
  mwebInputs : List MwebInput
  mwebOutputs : List MwebOutput

namespace Psbt

def unsignedTxBytes (tx : Transaction) : Bytes :=
  vecWritten (encodeI32 tx.version) ++ vecWritten (encodeVec TxIn.consensusEncode tx.input) ++
    vecWritten (encodeVec TxOut.consensusEncode tx.output) ++ vecWritten tx.lockTime.consensusEncode

def xpubPair (entry : Xpub × KeySource) : Pair :=
  { key := { typeValue := 0x01, key := entry.1.encode }, value := Value.keySourceBytes entry.2 }

/-- `(i as u32).to_le_bytes()`. -/
def indexBytes (i : Nat) : Bytes := littleEndian 4 (UInt32.ofNat i).toNat

def kernelPair (update : Nat × KvPair) : Pair :=
  let (i, fieldType, keySuffix, value) := update
  { key := { typeValue := 0x93, key := indexBytes i ++ (fieldType :: keySuffix) }, value }

def inputPair (update : Nat × KvPair) : Pair :=
  let (i, fieldType, keyData, value) := update
  { key := { typeValue := fieldType, key := indexBytes i ++ keyData }, value }

def outputPair (update : Nat × UInt8 × Bytes) : Pair :=
  let (i, fieldType, value) := update
  { key := { typeValue := 0x94, key := indexBytes i ++ [fieldType] }, value }

def kernelCountPairs (kernels : List MwebKernel) : List Pair :=
  if kernels.isEmpty then []
  else [{ key := { typeValue := 0x92, key := [] }, value := indexBytes kernels.length }]

def getPairs (psbt : Psbt) : List Pair :=
  [{ key := { typeValue := 0x00, key := [] }, value := unsignedTxBytes psbt.unsignedTx }] ++
  psbt.xpub.toList.map xpubPair ++
  (if 0 < psbt.version then
    [{ key := { typeValue := 0xFB, key := [] }, value := littleEndian 4 psbt.version.toNat }]
  else []) ++
  (psbt.mwebTxOffset.toList.map fun offset =>
    { key := { typeValue := 0x90, key := [] }, value := offset.val }) ++
  (psbt.mwebStealthOffset.toList.map fun offset =>
    { key := { typeValue := 0x91, key := [] }, value := offset.val }) ++
  kernelCountPairs psbt.mwebKernels ++
  (indexedFields (psbt.mwebKernels.map MwebKernel.toKvPairs)).map kernelPair ++
  (indexedFields (psbt.mwebInputs.map MwebInput.toKvPairs)).map inputPair ++
  (indexedFields (psbt.mwebOutputs.map MwebOutput.toPairs)).map outputPair ++
  pushProprietary psbt.proprietary ++
  pushUnknown psbt.unknown

/-- A PSBT without input and output maps, once the global map is read. -/
def ofGlobal (state : GlobalState) (tx : Transaction) : Psbt where
  unsignedTx := tx
  version := state.version.getD 0
  xpub := state.xpub
  proprietary := state.proprietary
  unknown := state.unknown
  inputs := []
  outputs := []
  mwebTxOffset := state.mwebTxOffset
  mwebStealthOffset := state.mwebStealthOffset
  mwebKernels := state.mwebKernels
  mwebInputs := state.mwebInputs
  mwebOutputs := state.mwebOutputs

def decodeGlobal : Decoder Error Psbt :=
  Decoder.take maxVecSize do
    let state ← decodeMap GlobalState.insertPair GlobalState.initial
    match state.tx with
    | some tx => pure (ofGlobal state tx)
    | none => Decoder.fail .mustHaveUnsignedTx

def unsignedTxChecks (psbt : Psbt) : Except Error Unit :=
  if psbt.unsignedTx.mwTx.isSome || psbt.unsignedTx.isHogEx then .error .unsupportedMwebOrHogEx
  else check psbt.unsignedTx.input.toList
where
  check : List TxIn → Except Error Unit
    | [] => .ok ()
    | txin :: rest =>
      if !txin.scriptSig.isEmpty then .error .unsignedTxHasScriptSigs
      else if !txin.witness.isEmpty then .error .unsignedTxHasScriptWitnesses
      else check rest

/-- `b"psbt"`. -/
def magicBytes : Bytes := [0x70, 0x73, 0x62, 0x74]

def separator : UInt8 := 0xff

def deserializeFromReader : Decoder Error Psbt := do
  let magic ← fromConsensus (readExact 4)
  if magic.val ≠ magicBytes then Decoder.fail .invalidMagic
  else do
    let found ← fromConsensus readU8
    if found ≠ separator then Decoder.fail .invalidSeparator
    else do
      let global ← decodeGlobal
      Decoder.ofExcept global.unsignedTxChecks
      let inputs ← Input.decode.times global.unsignedTx.input.toList.length
      let outputs ← Output.decode.times global.unsignedTx.output.toList.length
      pure { global with inputs := inputs.val, outputs := outputs.val }

/-- Bytes behind the last map are not looked at. -/
def deserialize (data : Bytes) : Except Error Psbt := Prod.fst <$> deserializeFromReader data

/-- An error stands for the panic of a writer. -/
def serialize (psbt : Psbt) : Except IoError Bytes := do
  let inputs ← psbt.inputs.mapM Input.serializeMap
  let outputs ← psbt.outputs.mapM Output.serializeMap
  pure (magicBytes ++ [separator] ++ serializeMap psbt.getPairs ++ inputs.flatten ++ outputs.flatten)

end Psbt
end Litecoin
