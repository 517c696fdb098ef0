import Litecoin.Psbt.SignKeys
import Litecoin.Taproot.Commitment

/-! Signatures are filed under the keys that they are accepted under. -/
namespace Litecoin.Psbt
open Wire Consensus Blockdata Sighash Crypto Bip32 Taproot Process
open Secp256k1 (Signing SigningLaws Verification XOnlyPublicKey)

section
variable [Secp256k1] [Hashes] [Secp256k1.Secrets] [SighashTag] [Secp256k1.KeyTweaks]
  [Secp256k1.Signing] [TweakHash] [Secp256k1.Verification]

/-- Every signature that was added is one of a private key that the provider gave for an origin
of the input, over the message of the input or leaf. A partial signature is accepted under the
key that it is stored under, a Schnorr signature under the key of the private key. -/
structure Filed (k : GetKey ε) (psbt : Psbt) (inputIndex : Nat) (input signed : Input) : Prop where
  partialSigs : ∀ (pk : PublicKey) (sig : EcdsaSignature), signed.partialSigs[pk]? = some sig → input.partialSigs[pk]? = some sig ∨
    ∃ key sk message hashTy, DerivationKey k input key sk ∧ pk = sk.publicKey ∧
      psbt.ecdsaMessageOf inputIndex = some (.ok (message, hashTy)) ∧
      sig.sighashType = hashTy ∧
      Verification.verifyEcdsa message sig.signature pk.inner
  tapScriptSigs : ∀ xonly leafHash sig, (xonly, leafHash) ∉ input.tapScriptSigs →
    signed.tapScriptSigs[(xonly, leafHash)]? = some sig → ∃ leafHashes sk message,
      OriginKey k input xonly leafHashes sk ∧ leafHash ∈ leafHashes.toList ∧
      psbt.taprootMessage inputIndex (some leafHash) = some (.ok (message, sig.sighashType)) ∧
      ∀ key, Verification.verifySchnorr message sig.signature key ↔ key = sk.xOnly
  tapKeySig : ∀ sig, input.tapKeySig = none → signed.tapKeySig = some sig →
    ∃ internalKey leafHashes sk message outputKey parity, input.tapInternalKey = some internalKey ∧
      OriginKey k input internalKey leafHashes sk ∧
      psbt.taprootMessage inputIndex none = some (.ok (message, sig.sighashType)) ∧
      tapTweak sk.xOnly input.tapMerkleRoot = .ok (outputKey, parity) ∧
      ∀ key, Verification.verifySchnorr message sig.signature key ↔ key = outputKey

/-- Every signature that was added is accepted under the key that it is stored under, and the
input lists that key. -/
structure Named (psbt : Psbt) (inputIndex : Nat) (input signed : Input) : Prop where
  partialSigs : ∀ (pk : PublicKey) (sig : EcdsaSignature), signed.partialSigs[pk]? = some sig → input.partialSigs[pk]? = some sig ∨
    pk.inner ∈ input.bip32Derivation ∧ ∃ message hashTy,
      psbt.ecdsaMessageOf inputIndex = some (.ok (message, hashTy)) ∧
      Verification.verifyEcdsa message sig.signature pk.inner
  tapScriptSigs : ∀ xonly leafHash sig, (xonly, leafHash) ∉ input.tapScriptSigs →
    signed.tapScriptSigs[(xonly, leafHash)]? = some sig → xonly ∈ input.tapKeyOrigins ∧ ∃ message,
      psbt.taprootMessage inputIndex (some leafHash) = some (.ok (message, sig.sighashType)) ∧
      Verification.verifySchnorr message sig.signature xonly
  tapKeySig : ∀ sig, input.tapKeySig = none → signed.tapKeySig = some sig →
    ∃ internalKey message outputKey parity, input.tapInternalKey = some internalKey ∧
      internalKey ∈ input.tapKeyOrigins ∧
      psbt.taprootMessage inputIndex none = some (.ok (message, sig.sighashType)) ∧
      tapTweak internalKey input.tapMerkleRoot = .ok (outputKey, parity) ∧
      Verification.verifySchnorr message sig.signature outputKey

omit [Hashes] [SighashTag] in
/-- A key pair is tweaked as its public key is. -/
theorem tapTweakPair_tweaks [Secp256k1.SigningLaws] {sk : PrivateKey}
    {root : Option TapNodeHash} {pair : Signing.Keypair}
    (tweaked : tapTweakPair (Signing.keypair sk.inner) root = some pair) :
    tapTweak sk.xOnly root = .ok (Signing.xOnlyOfKeypair pair) := by
  have xonly : (Signing.xOnlyOfKeypair (Signing.keypair sk.inner)).1 = sk.xOnly :=
    congrArg Prod.fst (SigningLaws.xOnlyOfKeypair_keypair sk.inner)
  obtain ⟨tweak, scalar, added⟩ := Option.bind_eq_some_iff.mp tweaked
  rw [xonly] at scalar
  have same := SigningLaws.xOnlyOfKeypair_addXonlyTweak (Signing.keypair sk.inner) tweak
  rw [added, xonly] at same
  refine tapTweak_eq_ok.mpr ⟨tweak, ?_, same.symm⟩
  cases parsed : toScalar (fromKeyAndTweak sk.xOnly root) with
  | error e =>
    rw [parsed] at scalar
    contradiction
  | ok other =>
    rw [parsed] at scalar
    exact congrArg _ (Option.some.inj scalar)

section
variable [Secp256k1.SigningLaws] {k : GetKey ε} {psbt : Psbt} {inputIndex : Nat} {input signed : Input}

omit [TweakHash] in
theorem Made.accepted {leafHash : Option TapLeafHash} {pair : Signing.Keypair} {sig : TaprootSignature}
    (made : Made psbt inputIndex leafHash pair sig) :
    ∃ message, psbt.taprootMessage inputIndex leafHash = some (.ok (message, sig.sighashType)) ∧
      ∀ key, Verification.verifySchnorr message sig.signature key ↔
        key = (Signing.xOnlyOfKeypair pair).1 := by
  obtain ⟨n, message, told, signature⟩ := made
  refine ⟨message, told, fun key => ?_⟩
  rw [signature]
  exact SigningLaws.verifySchnorr_signSchnorr n message pair key

theorem Authored.filed (authored : Authored k psbt inputIndex input signed) :
    Filed k psbt inputIndex input signed where
  partialSigs pk sig there := by
    rcases authored.partialSigs pk sig there with old | ⟨key, sk, message, hashTy, given, rfl, told, rfl⟩
    · exact .inl old
    · exact .inr ⟨key, sk, message, hashTy, given, rfl, told, rfl,
        SigningLaws.verifyEcdsa_signEcdsa message sk.inner⟩
  tapScriptSigs xonly leafHash sig vacant there := by
    obtain ⟨leafHashes, sk, origin, listed, made⟩ := authored.tapScriptSigs xonly leafHash sig vacant there
    obtain ⟨message, told, accepted⟩ := made.accepted
    refine ⟨leafHashes, sk, message, origin, listed, told, fun key => ?_⟩
    rw [accepted, SigningLaws.xOnlyOfKeypair_keypair]
    rfl
  tapKeySig sig vacant there := by
    obtain ⟨internalKey, leafHashes, sk, pair, internal, origin, tweaked, made⟩ :=
      authored.tapKeySig sig vacant there
    obtain ⟨message, told, accepted⟩ := made.accepted
    exact ⟨internalKey, leafHashes, sk, message, _, _, internal, origin, told,
      tapTweakPair_tweaks tweaked, accepted⟩

end

theorem Filed.named {k : GetKey ε} {psbt : Psbt} {inputIndex : Nat} {input signed : Input}
    (answers : Answers k) (honest : Honest k input)
    (filed : Filed k psbt inputIndex input signed) : Named psbt inputIndex input signed where
  partialSigs pk sig there := by
    rcases filed.partialSigs pk sig there with old | ⟨key, sk, message, hashTy, given, rfl, told, -, accepted⟩
    · exact .inl old
    · refine .inr ⟨?_, message, hashTy, told, accepted⟩
      rw [given.own answers honest]
      exact given.listed
  tapScriptSigs xonly leafHash sig vacant there := by
    obtain ⟨leafHashes, sk, message, origin, -, told, accepted⟩ :=
      filed.tapScriptSigs xonly leafHash sig vacant there
    exact ⟨origin.listed, message, told, (accepted xonly).mpr (origin.own answers honest).symm⟩
  tapKeySig sig vacant there := by
    obtain ⟨internalKey, leafHashes, sk, message, outputKey, parity, internal, origin, told, tweaked,
      accepted⟩ := filed.tapKeySig sig vacant there
    rw [origin.own answers honest] at tweaked
    exact ⟨internalKey, message, outputKey, parity, internal, origin.listed, told, tweaked,
      (accepted outputKey).mpr rfl⟩

variable [Secp256k1.SigningLaws] [Hmac]

omit [SighashTag] [TweakHash] [Secp256k1.Verification] [Secp256k1.SigningLaws] in
/-- Nothing is derived from a map. -/
theorem KeyStore.honest {store : KeyStore} (isMap : store.IsMap) (input : Input) :
    Honest store.getKey input where
  bip32Derivation _ source sk _ derived := absurd derived (store.derivesNothing isMap source sk)
  tapKeyOrigins _ _ source sk _ derived := absurd derived (store.derivesNothing isMap source sk)

end

namespace Sample

/-- The first coordinate of twice the base point. -/
def doubledXOnly : ByteArr 32 :=
  ⟨[0xc6, 0x04, 0x7f, 0x94, 0x41, 0xed, 0x7d, 0x6d, 0x30, 0x45, 0x40, 0x6e, 0x95, 0xc0, 0x7c, 0xd8,
    0x5c, 0x77, 0x8e, 0x4b, 0x8c, 0xef, 0x3c, 0xa7, 0xab, 0xac, 0x09, 0xb9, 0x5c, 0x70, 0x9e, 0xe5],
    rfl⟩

def coordinate (doubled : Bool) : ByteArr 32 :=
  if doubled then doubledXOnly else Secp256k1.generatorXOnly

/-- Of a point, whether it is one of the doubled ones, and its parity. -/
def split (point : Fin 4) : Bool × Bool := (point.val % 2 = 1, 2 ≤ point.val)

def joined (doubled odd : Bool) : Fin 4 :=
  if odd then (if doubled then 3 else 2) else if doubled then 1 else 0

def compressed (point : Fin 4) : ByteArr 33 :=
  ⟨(if (split point).2 then 0x03 else 0x02) :: (coordinate (split point).1).val,
    congrArg Nat.succ (coordinate (split point).1).property⟩

def basePoint : Fin 4 := 0

/-- The base point and its double, and their negations, which are odd. -/
@[reducible] def fourPoints : Secp256k1 :=
  { Secp256k1.generatorOnly with
    PublicKey := Fin 4
    publicKeyOrder := inferInstance
    publicKeyFromSlice := fun bytes => [0, 1, 2, 3].find? fun point => bytes = (compressed point).val
    serialize := compressed
    serializeUncompressed := fun _ => Secp256k1.generatorUncompressed
    XOnlyPublicKey := Bool
    xOnlyPublicKeyOrder := inferInstance
    xOnlyPublicKeyFromSlice := fun bytes =>
      [false, true].find? fun doubled => bytes = (coordinate doubled).val
    serializeXOnly := coordinate
    EcdsaSignature := Fin 4
    ecdsaFromDer := fun bytes => if bytes = Secp256k1.derOnes.val then some 0 else none
    serializeDer := fun _ => Secp256k1.derOnes
    SchnorrSignature := Bool
    schnorrFromSlice := fun bytes => if bytes = (ByteArr.filled 64 1).val then some false else none
    serializeSchnorr := fun _ => ByteArr.filled 64 1 }

attribute [local instance] fourPoints

/-- The secret keys one and two, and their negations. -/
@[reducible] def secrets : Secp256k1.Secrets where
  SecretKey := Fin 4
  secretKeyFromSlice bytes := if bytes = Secp256k1.secretOne.val then some 0 else none
  secretBytes _ := Secp256k1.secretOne
  Scalar := Fin 4
  scalarFromSecretKey := id
  fromSecretKey := id
  addTweak _ _ := none
  addExpTweak _ _ := none

@[reducible] def tweaks : Secp256k1.KeyTweaks where
  Scalar := Unit
  scalarFromBeBytes _ := none
  addTweak _ _ := none
  tweakAddCheck _ _ _ _ := false

attribute [local instance] secrets tweaks

/-- A signature is the key that accepts it. -/
@[reducible] def signing : Secp256k1.Signing where
  negate secret := joined (split secret).1 !(split secret).2
  xOnlyPublicKey := split
  withParity := joined
  signEcdsa _ secret := secret
  Keypair := Fin 4
  keypair := id
  xOnlyOfKeypair := split
  addXonlyTweak _ _ := none
  signSchnorr _ _ pair := (split pair).1

@[reducible] def verification : Secp256k1.Verification where
  verifyEcdsa _ signature key := signature = key
  verifySchnorr _ signature key := key = signature

attribute [local instance] signing verification

theorem signingLaws : Secp256k1.SigningLaws where
  withParity_xOnlyPublicKey := (by decide : ∀ key : Fin 4, joined (split key).1 (split key).2 = key)
  xOnlyPublicKey_withParity := (by decide : ∀ doubled odd, split (joined doubled odd) = (doubled, odd))
  xOnlyPublicKey_negate := (by decide : ∀ secret : Fin 4,
    split (joined (split secret).1 !(split secret).2) = ((split secret).1, !(split secret).2))
  xOnlyOfKeypair_keypair _ := rfl
  xOnlyOfKeypair_addXonlyTweak _ _ := rfl
  verifyEcdsa_signEcdsa _ _ := rfl
  verifySchnorr_signSchnorr _ _ _ _ := Iff.rfl

@[reducible] def hmac : Hmac where
  sha512 _ _ := ByteArr.filled 64 0

@[reducible] def sighashTag : SighashTag where
  tapSighash _ := ByteArr.filled 32 0

@[reducible] def tweakHash : TweakHash where
  tapTweak _ := ByteArr.filled 32 0

attribute [local instance] hmac sighashTag tweakHash Hashes.ofEmpty

/-- The negation of the secret key one under its own key. -/
def store : KeyStore :=
  .pubkeyMap ((∅ : BTreeMap PublicKey PrivateKey).insert (compressedKey (2 : Fin 4))
    { compressed := true, network := .main, inner := (2 : Fin 4) })

theorem store_matched : store.Matched := by
  intro pk sk found
  rw [Std.ExtTreeMap.getElem?_insert] at found
  split at found
  · rename_i same
    obtain rfl := Std.LawfulEqCmp.eq_of_compare same
    obtain rfl := Option.some.inj found
    rfl
  · contradiction

/-- An input that spends an output to the hash of a key, and lists a key with its source. -/
def keyHash (key : Fin 4) (source : KeySource) : Input :=
  (Input.withField (FieldMap.default Input.table) .witnessUtxo (some {
    value := 1000
    scriptPubkey := ⟨0x00 :: 0x14 :: (Hashes.ofEmpty.hash160 []).val, by decide⟩ })).withField
      .bip32Derivation ((∅ : BTreeMap Secp256k1.PublicKey KeySource).insert key source)

def unsignedInput (vout : UInt32) : TxIn where
  previousOutput := { txid := .filled 32 7, vout }
  scriptSig := .empty
  sequence := 0xffffffff
  witness := .new

/-- A PSBT without outputs. -/
def psbtOf (input : Vec TxIn) (inputs : List Input) : Psbt where
  unsignedTx := { version := 2, lockTime := .fromConsensus 0, input, output := .empty, mwTx := none,
                  isHogEx := false }
  version := 0
  xpub := ∅
  proprietary := ∅
  unknown := ∅
  inputs
  outputs := []
  mwebTxOffset := none
  mwebStealthOffset := none
  mwebKernels := []
  mwebInputs := []
  mwebOutputs := []

/-- An input that lists the negated key. -/
def spending : Psbt := psbtOf (.singleton (unsignedInput 0)) [keyHash 2 (.filled 4 0, [])]

end Sample

end Litecoin.Psbt
