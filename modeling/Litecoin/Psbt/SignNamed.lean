import Litecoin.Psbt.SignFiled

/-! The providers that come with the crate (`psbt/mod.rs`): under which keys their signatures are
stored, whatever key sources an input lists. -/
namespace Litecoin.Psbt
open Wire Consensus Blockdata Sighash Crypto Bip32 Taproot Process
open Secp256k1 (Signing SigningLaws Verification XOnlyPublicKey)

section
variable [Secp256k1] [Hashes] [Secp256k1.Secrets] [SighashTag] [Secp256k1.KeyTweaks]
  [Secp256k1.Signing] [TweakHash] [Secp256k1.Verification]

/-- What holds of the signatures that were added whatever the key sources say: a partial signature
is accepted under the key that it is stored under, and a Schnorr signature is stored under a key
that the input lists. -/
structure Stored (psbt : Psbt) (inputIndex : Nat) (input signed : Input) : Prop where
  partialSigs : ∀ (pk : PublicKey) (sig : EcdsaSignature), signed.partialSigs[pk]? = some sig →
    input.partialSigs[pk]? = some sig ∨ ∃ message,
      psbt.ecdsaMessageOf inputIndex = some (.ok (message, sig.sighashType)) ∧
      Verification.verifyEcdsa message sig.signature pk.inner
  tapScriptSigs : ∀ xonly leafHash, (xonly, leafHash) ∉ input.tapScriptSigs →
    (xonly, leafHash) ∈ signed.tapScriptSigs → xonly ∈ input.tapKeyOrigins
  tapKeySig : input.tapKeySig = none → signed.tapKeySig ≠ none →
    ∃ internalKey, input.tapInternalKey = some internalKey ∧ internalKey ∈ input.tapKeyOrigins

theorem Filed.stored {k : GetKey ε} {psbt : Psbt} {inputIndex : Nat} {input signed : Input}
    (filed : Filed k psbt inputIndex input signed) : Stored psbt inputIndex input signed where
  partialSigs pk sig there := by
    rcases filed.partialSigs pk sig there with old | ⟨_, sk, message, _, _, rfl, told, rfl, accepted⟩
    · exact .inl old
    · exact .inr ⟨message, told, accepted⟩
  tapScriptSigs xonly leafHash vacant there := by
    obtain ⟨sig, there⟩ := Option.isSome_iff_exists.mp (Std.ExtTreeMap.mem_iff_isSome_getElem?.mp there)
    obtain ⟨_, _, _, origin, -⟩ := filed.tapScriptSigs xonly leafHash sig vacant there
    exact origin.listed
  tapKeySig vacant there := by
    obtain ⟨sig, there⟩ := Option.ne_none_iff_exists'.mp there
    obtain ⟨internalKey, _, _, _, _, _, internal, origin, -⟩ := filed.tapKeySig sig vacant there
    exact ⟨internalKey, internal, origin.listed⟩

variable [SigningLaws] [Hmac]

end

namespace Sample
attribute [local instance] fourPoints secrets tweaks signing verification hmac sighashTag tweakHash
  Hashes.ofEmpty

/-- A master key with the secret key one. -/
def master : Xpriv where
  network := .main
  depth := 0
  parentFingerprint := .filled 4 0
  childNumber := .normal 0
  privateKey := basePoint
  chainCode := .filled 32 0

/-- Where the master key itself is found. -/
def masterSource : KeySource := (master.fingerprint, [])

def leafHash : TapLeafHash := .filled 32 5

/-- An input that spends a taproot output, and lists a key for a leaf with that source. -/
def scriptPath (key : Bool) : Input :=
  (Input.withField (FieldMap.default Input.table) .witnessUtxo (some {
    value := 1000
    scriptPubkey := ⟨0x51 :: 0x20 :: Secp256k1.generatorXOnly.val, by decide⟩ })).withField
      .tapKeyOrigins ((∅ : BTreeMap XOnlyPublicKey (Vec TapLeafHash × KeySource)).insert key
        (.singleton leafHash, masterSource))

/-- A PSBT with an input for the hash of a key and one for a leaf. -/
def both (key : Fin 4) (xonly : Bool) : Psbt :=
  psbtOf ⟨[unsignedInput 0, unsignedInput 1], by decide⟩ [keyHash key masterSource, scriptPath xonly]

/-- The inputs after the master key has signed. -/
def signedInputs (key : Fin 4) (xonly : Bool) : List Input :=
  (sign (KeyStore.xpriv master).getKey (both key xonly)).2.inputs

/-- The signatures that the first input has afterwards of the secret key one, and the second one
for its leaf. -/
def stored (key : Fin 4) (xonly : Bool) : List (Option (Fin 4)) × List (Option Bool) :=
  ((signedInputs key xonly).map fun input =>
      (input.partialSigs[compressedKey basePoint]?).map EcdsaSignature.signature,
    (signedInputs key xonly).map fun input =>
      (input.tapScriptSigs[(xonly, leafHash)]?).map TaprootSignature.signature)

end Sample
end Litecoin.Psbt
