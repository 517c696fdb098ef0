import Litecoin.Bip32.Derivation
import Litecoin.Psbt.Spending
import Litecoin.Taproot.SpendInfo

/-! Signing a PSBT: the keys that are asked for, the messages, and where the signatures are
put (`psbt/mod.rs`). -/
namespace Litecoin

/-- The parts of the `secp256k1` crate that make signatures. -/
class Secp256k1.Signing [Secp256k1] [Secp256k1.Secrets] [Secp256k1.KeyTweaks] where
  negate : Secp256k1.Secrets.SecretKey → Secp256k1.Secrets.SecretKey
  /-- `PublicKey::x_only_public_key`. -/
  xOnlyPublicKey : Secp256k1.PublicKey → Secp256k1.XOnlyPublicKey × Taproot.Parity
  /-- `XOnlyPublicKey::public_key`. -/
  withParity : Secp256k1.XOnlyPublicKey → Taproot.Parity → Secp256k1.PublicKey
  signEcdsa : Consensus.ByteArr 32 → Secp256k1.Secrets.SecretKey → Secp256k1.EcdsaSignature
  Keypair : Type
  /-- `Keypair::from_secret_key`. -/
  keypair : Secp256k1.Secrets.SecretKey → Keypair
  /-- `XOnlyPublicKey::from_keypair`. -/
  xOnlyOfKeypair : Keypair → Secp256k1.XOnlyPublicKey × Taproot.Parity
  addXonlyTweak : Keypair → Secp256k1.KeyTweaks.Scalar → Option Keypair
  /-- `sign_schnorr`; the number tells the random data of the calls apart. -/
  signSchnorr : Nat → Consensus.ByteArr 32 → Keypair → Secp256k1.SchnorrSignature

/-- `TapSighash::from_engine`. -/
class SighashTag where
  tapSighash : Wire.Bytes → Consensus.ByteArr 32

/-- `taproot_signature_hash`; `unwrap_sighash` panics on an error of the hash engine. -/
def Sighash.SighashCache.taprootSignatureHash [Secp256k1] [Hashes] [SighashTag] (cache : SighashCache)
    (inputIndex : Nat) (prevouts : Prevouts) (annex : Option Annex)
    (leafHashCodeSeparator : Option (Taproot.TapLeafHash × UInt32)) (sighashType : TapSighashType) :
    Option (Except TaprootError (Consensus.ByteArr 32) × SighashCache) :=
  let encoded := taprootEncodeSigningDataTo inputIndex prevouts annex leafHashCodeSeparator sighashType
    (cache, ([] : Wire.Bytes))
  match encoded with
  | (.ok (), cache, engine) => some (.ok (SighashTag.tapSighash engine), cache)
  | (.error (.sighash e), cache, _) => some (.error e, cache)
  | (.error (.io _), _) => none

namespace Psbt
open Wire Consensus Blockdata Sighash Crypto Bip32 Taproot

section
variable [Secp256k1]

inductive KeyRequest where
  | pubkey (key : PublicKey)
  | bip32 (source : KeySource)
  | xOnlyPubkey (key : Secp256k1.XOnlyPublicKey)

variable [Secp256k1.Secrets]

structure PrivateKey where
  compressed : Bool
  network : NetworkKind
  inner : Secp256k1.Secrets.SecretKey

namespace PrivateKey

def publicKey (key : PrivateKey) : PublicKey where
  compressed := key.compressed
  inner := Secp256k1.Secrets.fromSecretKey key.inner

end PrivateKey

/-- `GetKey`; the `none` is a panic. -/
abbrev GetKey (ε : Type) : Type := KeyRequest → Option (Except ε (Option PrivateKey))

/-- The first key that is given; errors count as none. -/
def findKey (k : GetKey ε) : List KeyRequest → Option (Option PrivateKey)
  | [] => some none
  | request :: requests => do
    match ← k request with
    | .ok (some sk) => some (some sk)
    | _ => findKey k requests

end

/-- `PsbtSighashType::taproot_hash_ty`. -/
def taprootHashTy (sighashType : UInt32) : Except UInt32 Sighash.TapSighashType :=
  if 0xff < sighashType then .error sighashType
  else Sighash.TapSighashType.fromConsensusU8 sighashType.toUInt8

section
variable [Secp256k1] [Hashes]

namespace Input

def partialSigs (input : Input) : BTreeMap PublicKey EcdsaSignature := input.fields .partialSigs

def bip32Derivation (input : Input) : BTreeMap Secp256k1.PublicKey KeySource :=
  input.fields .bip32Derivation

def tapKeySig (input : Input) : Option TaprootSignature := input.fields .tapKeySig

def tapScriptSigs (input : Input) :
    BTreeMap (Secp256k1.XOnlyPublicKey × TapLeafHash) TaprootSignature :=
  input.fields .tapScriptSigs

def tapKeyOrigins (input : Input) :
    BTreeMap Secp256k1.XOnlyPublicKey (Vec TapLeafHash × KeySource) :=
  input.fields .tapKeyOrigins

def tapInternalKey (input : Input) : Option Secp256k1.XOnlyPublicKey := input.fields .tapInternalKey

def tapMerkleRoot (input : Input) : Option TapNodeHash := input.fields .tapMerkleRoot

/-- The input with another value in one of its fields. -/
def withField (input : Input) (f : Field) (slot : (table.shape f).Slot) : Input :=
  { input with fields := Function.update input.fields f slot }

def insertPartialSig (input : Input) (pk : PublicKey) (sig : EcdsaSignature) : Input :=
  input.withField .partialSigs (input.partialSigs.insert pk sig)

def setTapKeySig (input : Input) (sig : TaprootSignature) : Input :=
  input.withField .tapKeySig (some sig)

def insertTapScriptSig (input : Input) (key : Secp256k1.XOnlyPublicKey × TapLeafHash)
    (sig : TaprootSignature) : Input :=
  input.withField .tapScriptSigs (input.tapScriptSigs.insert key sig)

end Input

/-- `spend_utxo(i).ok()` for every input. -/
def spendUtxos (psbt : Psbt) : Option (List (Option TxOut)) :=
  (List.range psbt.inputs.length).mapM fun i => (psbt.spendUtxo i).run.map Except.toOption

/-- What `sighash_taproot` asks of the cache. -/
def taprootTarget (psbt : Psbt) (inputIndex : Nat) : Lookup (Sighash.TapSighashType × Prevouts) := do
  let algorithm ← psbt.signingAlgorithm inputIndex
  if algorithm ≠ .schnorr then throw .wrongSigningAlgorithm
  let input ← psbt.checkedInput inputIndex
  match ← psbt.outputType inputIndex with
  | .tr =>
    -- an unset type is the default one, which is zero
    match taprootHashTy (input.sighashType.getD 0) with
    | .error _ => throw .invalidSighashType
    | .ok hashTy => do
      let spendUtxos ← orPanic psbt.spendUtxos
      if hashTy.toU8.toUInt32 &&& 0x80 ≠ 0 then
        match ← orPanic spendUtxos[inputIndex]? with
        | some utxo => pure (hashTy, .one inputIndex utxo)
        | none => throw .missingSpendUtxo
      else if spendUtxos.all Option.isSome then
        pure (hashTy, .all (spendUtxos.filterMap id))
      else throw .missingSpendUtxo
  | _ => throw .unsupported

variable [SighashTag]

/-- `taproot_key_spend_signature_hash`, and `taproot_script_spend_signature_hash` of a leaf. -/
def taprootSignatureHash (cache : SighashCache) (inputIndex : Nat) (prevouts : Prevouts)
    (leafHash : Option TapLeafHash) (sighashType : Sighash.TapSighashType) :
    Option (Except Sighash.TaprootError (ByteArr 32) × SighashCache) :=
  let leaf := leafHash.map fun hash => (hash, (0xFFFFFFFF : UInt32))
  cache.taprootSignatureHash inputIndex prevouts none leaf sighashType

def sighashTaproot (psbt : Psbt) (inputIndex : Nat) (leafHash : Option TapLeafHash) :
    Signing (ByteArr 32 × Sighash.TapSighashType) := fun cache => do
  match ← (psbt.taprootTarget inputIndex).run with
  | .error e => some (.error e, cache)
  | .ok (hashTy, prevouts) =>
    let (sighash, cache) ← taprootSignatureHash cache inputIndex prevouts leafHash
      hashTy
    some ((sighash.mapError .taprootError).map fun message => (message, hashTy), cache)

/-- The PSBT while it is signed, the sighash cache, and the number of Schnorr signatures
that were made. -/
structure Session where
  psbt : Psbt
  cache : SighashCache
  drawn : Nat

/-- A step of signing. -/
abbrev Signer (α : Type) : Type := Process Session (Process.Stop SignError) α

/-- A lookup that returns with `?`. -/
def runLookup (lookup : Lookup α) : Signer α :=
  .ofExcept (match lookup.run with
    | none => .error .panic
    | some result => result.mapError .error)

/-- The outcome of a method that uses the cache. -/
def outcome (method : Psbt → Signing α) : Signer (Except SignError α) := fun session =>
  match method session.psbt session.cache with
  | none => (.error .panic, session)
  | some (result, cache) => (.ok result, { session with cache })

/-- `?`. -/
def orReport (result : Except SignError α) : Signer α := .ofExcept (result.mapError .error)

def modifyInput (inputIndex : Nat) (change : Input → Input) : Signer Unit := .update fun session =>
  ((), { session with
    psbt := { session.psbt with inputs := session.psbt.inputs.modify inputIndex change } })

variable [Secp256k1.Secrets] [Secp256k1.KeyTweaks] [Secp256k1.Signing] [TweakHash]

def signSchnorr (message : ByteArr 32) (pair : Secp256k1.Signing.Keypair) :
    Signer Secp256k1.SchnorrSignature := .update fun session =>
  (Secp256k1.Signing.signSchnorr session.drawn message pair,
    { session with drawn := session.drawn + 1 })

omit [Hashes] [SighashTag] in
/-- `tap_tweak` of an untweaked keypair. -/
def tapTweakPair (pair : Secp256k1.Signing.Keypair) (merkleRoot : Option TapNodeHash) :
    Option Secp256k1.Signing.Keypair := do
  let tweak ← (toScalar (fromKeyAndTweak (Secp256k1.Signing.xOnlyOfKeypair pair).1 merkleRoot)).toOption
  Secp256k1.Signing.addXonlyTweak pair tweak

/-- One key of `bip32_derivation`. -/
def signDerivation (k : GetKey ε) (inputIndex : Nat)
    (message : Except SignError (ByteArr 32 × Sighash.EcdsaSighashType)) (used : List PublicKey)
    (origin : Secp256k1.PublicKey × KeySource) : Signer (List PublicKey) := do
  let requests := [.bip32 origin.2, .pubkey { compressed := true, inner := origin.1 }]
  match ← Process.orPanic (findKey k requests) with
  | none => pure used
  | some sk => do
    let (message, hashTy) ← orReport message
    let sig : EcdsaSignature := {
      signature := Secp256k1.Signing.signEcdsa message sk.inner
      sighashType := hashTy }
    modifyInput inputIndex fun input => input.insertPartialSig sk.publicKey sig
    pure (used ++ [sk.publicKey])

def bip32SignEcdsa (k : GetKey ε) (inputIndex : Nat) : Signer (List PublicKey) := do
  let message ← outcome fun psbt => psbt.sighashEcdsa inputIndex
  let psbt ← Process.look Session.psbt
  let input ← Process.orPanic psbt.inputs[inputIndex]?
  input.bip32Derivation.toList.foldlM (signDerivation k inputIndex message) []

/-- The copy of the input, with the keys used so far. -/
abbrev Draft : Type := Input × List Secp256k1.XOnlyPublicKey

/-- The signature of the internal key. -/
def signKeyPath (inputIndex : Nat) (sk : PrivateKey) (xonly : Secp256k1.XOnlyPublicKey)
    (leafHashes : Vec TapLeafHash) (draft : Draft) : Signer Draft :=
  match draft.1.tapInternalKey with
  | none => pure draft
  | some internalKey =>
    if internalKey = xonly ∧ leafHashes.toList = [] ∧ draft.1.tapKeySig.isNone then do
      let message ← outcome fun psbt => psbt.sighashTaproot inputIndex none
      let (message, sighashType) ← orReport message
      let pair ← Process.orPanic
        (tapTweakPair (Secp256k1.Signing.keypair sk.inner) draft.1.tapMerkleRoot)
      let signature ← signSchnorr message pair
      pure (draft.1.setTapKeySig { signature, sighashType }, draft.2 ++ [internalKey])
    else pure draft

/-- The signature of a key for one leaf. -/
def signLeaf (inputIndex : Nat) (sk : PrivateKey) (xonly : Secp256k1.XOnlyPublicKey)
    (input : Input) (leafHash : TapLeafHash) : Signer Input := do
  let message ← outcome fun psbt => psbt.sighashTaproot inputIndex (some leafHash)
  let (message, sighashType) ← orReport message
  let signature ← signSchnorr message (Secp256k1.Signing.keypair sk.inner)
  pure (input.insertTapScriptSig (xonly, leafHash) { signature, sighashType })

omit [SighashTag] [Secp256k1.Secrets] [Secp256k1.KeyTweaks] [Secp256k1.Signing] [TweakHash] in
/-- The leaves that have no signature of the key. -/
def unsignedLeaves (input : Input) (xonly : Secp256k1.XOnlyPublicKey) (leafHashes : Vec TapLeafHash) :
    List TapLeafHash :=
  leafHashes.toList.filter fun leafHash => !input.tapScriptSigs.contains (xonly, leafHash)

def signScriptPath (inputIndex : Nat) (sk : PrivateKey) (xonly : Secp256k1.XOnlyPublicKey)
    (draft : Draft) : Signer Draft :=
  match draft.1.tapKeyOrigins[xonly]? with
  | none => pure draft
  | some (leafHashes, _) =>
    let leafHashes := unsignedLeaves draft.1 xonly leafHashes
    if leafHashes = [] then pure draft
    else do
      let input ← leafHashes.foldlM (signLeaf inputIndex sk xonly) draft.1
      pure (input, draft.2 ++ [(Secp256k1.Signing.xOnlyPublicKey sk.publicKey.inner).1])

/-- One key of `tap_key_origins`. -/
def signOrigin (k : GetKey ε) (inputIndex : Nat) (draft : Draft)
    (origin : Secp256k1.XOnlyPublicKey × Vec TapLeafHash × KeySource) : Signer Draft := do
  match ← Process.orPanic (findKey k [.bip32 origin.2.2, .xOnlyPubkey origin.1]) with
  | none => pure draft
  | some sk => do
    let draft ← signKeyPath inputIndex sk origin.1 origin.2.1 draft
    signScriptPath inputIndex sk origin.1 draft

def bip32SignSchnorr (k : GetKey ε) (inputIndex : Nat) : Signer (List Secp256k1.XOnlyPublicKey) := do
  let psbt ← Process.look Session.psbt
  let input ← runLookup (psbt.checkedInput inputIndex)
  let (input, used) ← input.tapKeyOrigins.toList.foldlM (signOrigin k inputIndex) (input, [])
  modifyInput inputIndex fun _ => input
  pure used

inductive SigningKeys where
  | ecdsa (keys : List PublicKey)
  | schnorr (keys : List Secp256k1.XOnlyPublicKey)

/-- One round of the loop in `sign`. -/
def signInput (k : GetKey ε) (inputIndex : Nat) : Signer SigningKeys := do
  let psbt ← Process.look Session.psbt
  match ← runLookup (psbt.signingAlgorithm inputIndex) with
  | .ecdsa => do
    let keys ← bip32SignEcdsa k inputIndex
    pure (.ecdsa keys)
  | .schnorr => do
    let keys ← bip32SignSchnorr k inputIndex
    pure (.schnorr keys)

abbrev SigningKeysMap : Type := BTreeMap Nat SigningKeys

abbrev SigningErrors : Type := BTreeMap Nat SignError

/-- What the loop in `sign` collects. -/
structure Report where
  used : SigningKeysMap
  errors : SigningErrors

namespace Report
omit [Secp256k1.Secrets] [Secp256k1.KeyTweaks] [Secp256k1.Signing] [TweakHash] [Hashes] [SighashTag]

def empty : Report where
  used := ∅
  errors := ∅

def add (report : Report) (inputIndex : Nat) : Except SignError SigningKeys → Report
  | .ok keys => { report with used := report.used.insert inputIndex keys }
  | .error e => { report with errors := report.errors.insert inputIndex e }

def result (report : Report) : Except (SigningKeysMap × SigningErrors) SigningKeysMap :=
  if report.errors.isEmpty then .ok report.used else .error (report.used, report.errors)

end Report

def signNext (k : GetKey ε) (report : Report) (inputIndex : Nat) : Signer Report := do
  let result ← (signInput k inputIndex).attempt
  pure (report.add inputIndex result)

def Session.new (psbt : Psbt) : Session where
  psbt
  cache := .new psbt.unsignedTx
  drawn := 0

/-- What is returned and what the PSBT is then; a `none` is a panic, which may leave
signatures behind. -/
def sign (k : GetKey ε) (psbt : Psbt) :
    Option (Except (SigningKeysMap × SigningErrors) SigningKeysMap) × Psbt :=
  let indices := List.range psbt.inputs.length
  let (report, session) := indices.foldlM (signNext k) Report.empty (.new psbt)
  (report.toOption.map Report.result, session.psbt)

end
end Psbt
end Litecoin
