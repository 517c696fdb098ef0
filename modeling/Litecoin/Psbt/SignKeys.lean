import Litecoin.Psbt.Providers
import Litecoin.Psbt.SignLoop
import Litecoin.Taproot.Commitment

/-! Whose key a signature belongs to. -/
namespace Litecoin.Psbt
open Wire Consensus Blockdata Sighash Crypto Bip32 Taproot Process
open Secp256k1 (Signing SigningLaws Verification XOnlyPublicKey)

section
variable [Secp256k1] [Hashes] [Secp256k1.Secrets]

/-- The provider gives a private key for an entry of `bip32_derivation`. -/
def DerivationKey (k : GetKey ε) (input : Input) (key : Secp256k1.PublicKey) (sk : PrivateKey) : Prop :=
  ∃ source, input.bip32Derivation[key]? = some source ∧
    findKey k [.bip32 source, .pubkey { compressed := true, inner := key }] = some (some sk)

/-- The provider gives a private key for an entry of `tap_key_origins`. -/
def OriginKey (k : GetKey ε) (input : Input) (xonly : XOnlyPublicKey) (leafHashes : Vec TapLeafHash)
    (sk : PrivateKey) : Prop :=
  ∃ source, input.tapKeyOrigins[xonly]? = some (leafHashes, source) ∧
    findKey k [.bip32 source, .xOnlyPubkey xonly] = some (some sk)

theorem DerivationKey.listed {k : GetKey ε} {input : Input} {key : Secp256k1.PublicKey} {sk : PrivateKey}
    (given : DerivationKey k input key sk) : key ∈ input.bip32Derivation := by
  obtain ⟨source, listed, -⟩ := given
  exact Std.ExtTreeMap.mem_iff_isSome_getElem?.mpr (by rw [listed]; rfl)

theorem OriginKey.listed {k : GetKey ε} {input : Input} {xonly : XOnlyPublicKey} {leafHashes : Vec TapLeafHash} {sk : PrivateKey}
    (given : OriginKey k input xonly leafHashes sk) : xonly ∈ input.tapKeyOrigins := by
  obtain ⟨source, listed, -⟩ := given
  exact Std.ExtTreeMap.mem_iff_isSome_getElem?.mpr (by rw [listed]; rfl)

omit [Hashes] in
/-- A key that is found is the answer to one of two requests. -/
theorem findKey_pair {k : GetKey ε} {first second : KeyRequest} {sk : PrivateKey}
    (found : findKey k [first, second] = some (some sk)) :
    k first = some (.ok (some sk)) ∨ k second = some (.ok (some sk)) := by
  have last : ∀ {request}, findKey k [request] = some (some sk) →
      k request = some (.ok (some sk)) := by
    intro request found
    rw [findKey] at found
    rcases answer : k request with _ | e | _ | other
    · rw [answer] at found
      contradiction
    · rw [answer] at found
      exact absurd (Option.some.inj found) nofun
    · rw [answer] at found
      exact absurd (Option.some.inj found) nofun
    · rw [answer] at found
      obtain rfl := Option.some.inj (Option.some.inj found)
      rfl
  rw [findKey] at found
  rcases answer : k first with _ | e | _ | other
  · rw [answer] at found
    contradiction
  · rw [answer] at found
    exact .inr (last found)
  · rw [answer] at found
    exact .inr (last found)
  · rw [answer] at found
    obtain rfl := Option.some.inj (Option.some.inj found)
    exact .inl rfl

/-- There is a signature for the leaf that was not there before. -/
structure NewLeaf (input signed : Input) (key : XOnlyPublicKey × TapLeafHash) : Prop where
  vacant : key ∉ input.tapScriptSigs
  there : key ∈ signed.tapScriptSigs

/-- There is a signature of the internal key that was not there before. -/
structure NewKeySig (input signed : Input) : Prop where
  vacant : input.tapKeySig = none
  there : signed.tapKeySig ≠ none

omit [Secp256k1.Secrets] in
theorem insertLeafSigs_eq {xonly : XOnlyPublicKey} (sigs : List (TapLeafHash × TaprootSignature))
    (input : Input) :
    insertLeafSigs xonly sigs input = input.withField .tapScriptSigs
      (sigs.foldl (fun map sig => map.insert (xonly, sig.1) sig.2) input.tapScriptSigs) := by
  rw [insertLeafSigs]
  induction sigs generalizing input with
  | nil => exact (input.withField_self .tapScriptSigs).symm
  | cons sig sigs ih => exact (ih _).trans (input.withField_withField .tapScriptSigs _ _)

omit [Secp256k1.Secrets] in
/-- A signature of a leaf is one that was inserted, or was there before. -/
theorem insertLeafSigs_listed {xonly : XOnlyPublicKey} {sigs : List (TapLeafHash × TaprootSignature)}
    {input : Input} {key : XOnlyPublicKey × TapLeafHash} {sig : TaprootSignature}
    (listed : (insertLeafSigs xonly sigs input).tapScriptSigs[key]? = some sig) :
    input.tapScriptSigs[key]? = some sig ∨ key.1 = xonly ∧ (key.2, sig) ∈ sigs := by
  rw [insertLeafSigs] at listed
  induction sigs generalizing input with
  | nil => exact .inl listed
  | cons first sigs ih =>
    rcases ih listed with old | ⟨same, new⟩
    · have inserted : (input.tapScriptSigs.insert (xonly, first.1) first.2)[key]? = some sig := old
      rw [Std.ExtTreeMap.getElem?_insert] at inserted
      split at inserted
      case isTrue same =>
        obtain rfl := Std.LawfulEqCmp.eq_of_compare same
        obtain rfl := Option.some.inj inserted
        exact .inr ⟨rfl, List.mem_cons_self⟩
      case isFalse => exact .inl inserted
    · exact .inr ⟨same, List.mem_cons_of_mem _ new⟩

variable [SighashTag] [Secp256k1.KeyTweaks] [Secp256k1.Signing] [TweakHash]

/-- What the keys of `tap_key_origins` that were looked at so far have come to. -/
structure Progress (k : GetKey ε) (before : Psbt) (inputIndex : Nat) (input : Input) (draft : Draft) :
    Prop where
  adds : input.AddsSignatures draft.1
  partials : draft.1.partialSigs = input.partialSigs
  leaves : ∀ xonly leafHash sig, (xonly, leafHash) ∉ input.tapScriptSigs →
    draft.1.tapScriptSigs[(xonly, leafHash)]? = some sig → ∃ leafHashes sk,
      OriginKey k input xonly leafHashes sk ∧ leafHash ∈ leafHashes.toList ∧
        Made before inputIndex (some leafHash) (Signing.keypair sk.inner) sig ∧ sk.xOnly ∈ draft.2
  key : ∀ sig, input.tapKeySig = none → draft.1.tapKeySig = some sig → ∃ xonly leafHashes sk pair,
    input.tapInternalKey = some xonly ∧ OriginKey k input xonly leafHashes sk ∧
      tapTweakPair (Signing.keypair sk.inner) input.tapMerkleRoot = some pair ∧
        Made before inputIndex none pair sig ∧ xonly ∈ draft.2
  used : ∀ key ∈ draft.2, input.tapInternalKey = some key ∧ NewKeySig input draft.1 ∨
    ∃ xonly leafHashes sk leafHash, OriginKey k input xonly leafHashes sk ∧
      NewLeaf input draft.1 (xonly, leafHash) ∧ key = sk.xOnly

namespace Progress
variable {k : GetKey ε} {before : Psbt} {inputIndex : Nat} {input : Input} {draft after : Draft}
  {sk : PrivateKey} {xonly : XOnlyPublicKey} {leafHashes : Vec TapLeafHash}

theorem start (k : GetKey ε) (before : Psbt) (inputIndex : Nat) (input : Input) :
    Progress k before inputIndex input (input, []) where
  adds := .refl input
  partials := rfl
  leaves xonly leafHash sig vacant there :=
    absurd (Std.ExtTreeMap.mem_iff_isSome_getElem?.mpr (by rw [there]; rfl)) vacant
  key sig vacant there := by
    rw [vacant] at there
    contradiction
  used := nofun

theorem keyStep (progress : Progress k before inputIndex input draft)
    (origin : OriginKey k input xonly leafHashes sk)
    (step : KeyStep before inputIndex sk xonly leafHashes draft after) :
    Progress k before inputIndex input after := by
  cases step with
  | kept settled => exact progress
  | @signed pair sig pending tweaked made =>
    have internal : input.tapInternalKey = some xonly :=
      progress.adds.tapInternalKey.symm.trans pending.1
    have root : draft.1.tapMerkleRoot = input.tapMerkleRoot :=
      progress.adds.field .tapMerkleRoot (by decide)
    have vacant : input.tapKeySig = none := by
      rcases there : input.tapKeySig with _ | old
      · rfl
      · exact absurd ((progress.adds.tapKeySig old there).symm.trans pending.2.2) nofun
    have new : NewKeySig input (draft.1.setTapKeySig sig) := ⟨vacant, Option.some_ne_none sig⟩
    refine ⟨progress.adds.trans (.setTapKeySig pending.2.2 sig), progress.partials, ?_, ?_, ?_⟩
    · intro other leafHash leafSig unsigned there
      obtain ⟨leafHashes, secret, given, listed, signed, told⟩ :=
        progress.leaves other leafHash leafSig unsigned there
      exact ⟨leafHashes, secret, given, listed, signed, List.mem_append_left _ told⟩
    · intro last _ there
      obtain rfl : sig = last := Option.some.inj there
      rw [root] at tweaked
      exact ⟨xonly, leafHashes, sk, pair, internal, origin, tweaked, made,
        List.mem_append_right _ List.mem_cons_self⟩
    · intro key told
      rcases List.mem_append.mp told with earlier | last
      · rcases progress.used key earlier with ⟨same, -⟩ | leaf
        · exact .inl ⟨same, new⟩
        · obtain ⟨other, leafHashes, secret, leafHash, given, fresh, same⟩ := leaf
          exact .inr ⟨other, leafHashes, secret, leafHash, given, ⟨fresh.vacant, fresh.there⟩, same⟩
      · obtain rfl := List.mem_singleton.mp last
        exact .inl ⟨internal, new⟩

theorem scriptStep (progress : Progress k before inputIndex input draft)
    (origin : OriginKey k input xonly leafHashes sk)
    (step : ScriptStep before inputIndex sk xonly draft after) :
    Progress k before inputIndex input after := by
  have adds := step.adds
  cases step with
  | kept settled => exact progress
  | @signed leafHashes source sigs found pending leaves made =>
    obtain ⟨_, known, asked⟩ := origin
    rw [progress.adds.tapKeyOrigins] at found
    obtain ⟨rfl, rfl⟩ := Prod.mk.inj (Option.some.inj (known.symm.trans found))
    have origin : OriginKey k input xonly leafHashes sk := ⟨_, known, asked⟩
    have untouched : (insertLeafSigs xonly sigs draft.1).tapKeySig = draft.1.tapKeySig := by
      rw [insertLeafSigs_eq]
      rfl
    refine ⟨progress.adds.trans adds, ?_, ?_, ?_, ?_⟩
    · rw [insertLeafSigs_eq]
      exact progress.partials
    · intro other leafHash sig vacant there
      rcases insertLeafSigs_listed there with old | ⟨same, new⟩
      · obtain ⟨leafHashes, secret, given, listed, signed, told⟩ :=
          progress.leaves other leafHash sig vacant old
        exact ⟨leafHashes, secret, given, listed, signed, List.mem_append_left _ told⟩
      · obtain rfl : other = xonly := same
        have listed := List.mem_map_of_mem (f := Prod.fst) new
        rw [leaves, mem_unsignedLeaves] at listed
        have signed : Made before inputIndex (some leafHash) (Signing.keypair sk.inner) sig :=
          made (leafHash, sig) new
        exact ⟨leafHashes, sk, origin, listed.1, signed, List.mem_append_right _ List.mem_cons_self⟩
    · intro sig vacant there
      rw [untouched] at there
      obtain ⟨internal, leafHashes, secret, pair, same, given, tweaked, signed, told⟩ :=
        progress.key sig vacant there
      exact ⟨internal, leafHashes, secret, pair, same, given, tweaked, signed,
        List.mem_append_left _ told⟩
    · intro key told
      rcases List.mem_append.mp told with earlier | last
      · rcases progress.used key earlier with ⟨same, new⟩ | leaf
        · exact .inl ⟨same, new.vacant, by rw [untouched]; exact new.there⟩
        · obtain ⟨other, leafHashes, secret, leafHash, given, fresh, same⟩ := leaf
          exact .inr ⟨other, leafHashes, secret, leafHash, given,
            ⟨fresh.vacant, insertLeafSigs_keeps sigs fresh.there⟩, same⟩
      · obtain rfl := List.mem_singleton.mp last
        obtain ⟨leafHash, unsigned⟩ := List.exists_mem_of_ne_nil _ pending
        have signed : leafHash ∈ sigs.map Prod.fst := by rwa [leaves]
        refine .inr ⟨xonly, leafHashes, sk, leafHash, origin, ⟨fun old => ?_, ?_⟩, rfl⟩
        · exact (mem_unsignedLeaves.mp unsigned).2 (progress.adds.mem_tapScriptSigs old)
        · exact insertLeafSigs_signs signed draft.1

theorem steps {origins : List (XOnlyPublicKey × Vec TapLeafHash × KeySource)}
    (listed : ∀ origin ∈ origins, input.tapKeyOrigins[origin.1]? = some origin.2)
    (steps : OriginSteps before inputIndex k (input, []) origins after) :
    Progress k before inputIndex input after := by
  induction steps with
  | nil => exact .start k before inputIndex input
  | concat steps step ih =>
    rw [List.forall_mem_append, List.forall_mem_singleton] at listed
    have progress := ih listed.1
    cases step with
    | skipped absent => exact progress
    | @signed sk middle after found keyPath scriptPath =>
      have origin := (⟨_, listed.2, found⟩ : OriginKey k input _ _ sk)
      exact (progress.keyStep origin keyPath).scriptStep origin scriptPath

end Progress

/-! One input. -/

omit [Hashes] [SighashTag] [TweakHash] in
/-- Where a partial signature comes from. -/
theorem derivedSigs_listed {k : GetKey ε} {message : Except SignError (ByteArr 32 × Sighash.EcdsaSighashType)}
    {origins : List (Secp256k1.PublicKey × KeySource)} {entry : PublicKey × EcdsaSignature}
    (listed : entry ∈ (derivedSigs k message origins).1) : ∃ origin ∈ origins, ∃ sk digest hashTy,
      findKey k [.bip32 origin.2, .pubkey { compressed := true, inner := origin.1 }] = some (some sk) ∧
        message = .ok (digest, hashTy) ∧ entry = (sk.publicKey,
          { signature := Signing.signEcdsa digest sk.inner, sighashType := hashTy }) := by
  induction origins with
  | nil => contradiction
  | cons origin origins ih =>
    rw [derivedSigs] at listed
    rcases found : findKey k [.bip32 origin.2, .pubkey { compressed := true, inner := origin.1 }] with
      _ | _ | sk
    · rw [found] at listed
      contradiction
    · rw [found] at listed
      obtain ⟨other, member, made⟩ := ih listed
      exact ⟨other, List.mem_cons_of_mem _ member, made⟩
    · rw [found] at listed
      cases message with
      | error e => contradiction
      | ok signed =>
        rcases List.mem_cons.mp listed with same | later
        · exact ⟨origin, List.mem_cons_self, sk, signed.1, signed.2, found, rfl, same⟩
        · obtain ⟨other, member, made⟩ := ih later
          exact ⟨other, List.mem_cons_of_mem _ member, made⟩

omit [Secp256k1.Secrets] [SighashTag] [Secp256k1.KeyTweaks] [Secp256k1.Signing] [TweakHash] in
/-- A partial signature is the last one inserted for its key, or was there before. -/
theorem insertPartialSigs_lookup (sigs : List (PublicKey × EcdsaSignature)) (input : Input)
    (pk : PublicKey) :
    (∃ sig, (pk, sig) ∈ sigs ∧ (insertPartialSigs sigs input).partialSigs[pk]? = some sig) ∨
      pk ∉ sigs.map Prod.fst ∧
        (insertPartialSigs sigs input).partialSigs[pk]? = input.partialSigs[pk]? := by
  rw [insertPartialSigs]
  induction sigs generalizing input with
  | nil => exact .inr ⟨List.not_mem_nil, rfl⟩
  | cons first sigs ih =>
    rw [List.foldl_cons]
    rcases ih (input.insertPartialSig first.1 first.2) with ⟨sig, listed, there⟩ | ⟨unlisted, same⟩
    · exact .inl ⟨sig, List.mem_cons_of_mem _ listed, there⟩
    · have inserted : (input.insertPartialSig first.1 first.2).partialSigs[pk]? =
          (input.partialSigs.insert first.1 first.2)[pk]? := rfl
      rw [inserted, Std.ExtTreeMap.getElem?_insert] at same
      split at same
      case isTrue equal =>
        obtain rfl := Std.LawfulEqCmp.eq_of_compare equal
        exact .inl ⟨first.2, List.mem_cons_self, same⟩
      case isFalse other =>
        refine .inr ⟨?_, same⟩
        rw [List.map_cons, List.mem_cons]
        rintro (rfl | later)
        · exact other (Std.ReflCmp.compare_self)
        · exact unlisted later

/-- Every signature that was added is made by a private key that the provider gave for an origin
of the input, over the message of the input or leaf. A partial signature is stored under the
key of that private key, a Schnorr signature under the key of the origin. -/
structure Authored (k : GetKey ε) (psbt : Psbt) (inputIndex : Nat) (input signed : Input) : Prop where
  partialSigs : ∀ (pk : PublicKey) (sig : EcdsaSignature), signed.partialSigs[pk]? = some sig →
    input.partialSigs[pk]? = some sig ∨ ∃ key sk message hashTy, DerivationKey k input key sk ∧
      pk = sk.publicKey ∧ psbt.ecdsaMessageOf inputIndex = some (.ok (message, hashTy)) ∧
      sig = { signature := Signing.signEcdsa message sk.inner, sighashType := hashTy }
  tapScriptSigs : ∀ xonly leafHash sig, (xonly, leafHash) ∉ input.tapScriptSigs →
    signed.tapScriptSigs[(xonly, leafHash)]? = some sig → ∃ leafHashes sk,
      OriginKey k input xonly leafHashes sk ∧ leafHash ∈ leafHashes.toList ∧
      Made psbt inputIndex (some leafHash) (Signing.keypair sk.inner) sig
  tapKeySig : ∀ sig, input.tapKeySig = none → signed.tapKeySig = some sig →
    ∃ internalKey leafHashes sk pair, input.tapInternalKey = some internalKey ∧
      OriginKey k input internalKey leafHashes sk ∧
      tapTweakPair (Signing.keypair sk.inner) input.tapMerkleRoot = some pair ∧
      Made psbt inputIndex none pair sig

/-- The keys that are returned for an ECDSA input are those that a signature was stored under. -/
def Inserted (input signed : Input) : SigningKeys → Prop
  | .ecdsa keys => (∀ pk : PublicKey, pk ∈ keys → pk ∈ signed.partialSigs) ∧
      (∀ pk : PublicKey, pk ∉ keys → signed.partialSigs[pk]? = input.partialSigs[pk]?) ∧
      signed.tapScriptSigs = input.tapScriptSigs ∧ signed.tapKeySig = input.tapKeySig
  | .schnorr _ => signed.partialSigs = input.partialSigs

/-- The keys that are returned for an input are those that signed. -/
def Reported (input signed : Input) : SigningKeys → Prop
  | .ecdsa keys => (∀ pk : PublicKey, pk ∈ keys → pk.inner ∈ input.bip32Derivation ∧ pk ∈ signed.partialSigs) ∧
      (∀ pk : PublicKey, pk ∉ keys → signed.partialSigs[pk]? = input.partialSigs[pk]?) ∧
      signed.tapScriptSigs = input.tapScriptSigs ∧ signed.tapKeySig = input.tapKeySig
  | .schnorr keys => (∀ key, key ∈ keys ↔ (∃ leafHash, NewLeaf input signed (key, leafHash)) ∨
      input.tapInternalKey = some key ∧ NewKeySig input signed) ∧
      signed.partialSigs = input.partialSigs

/-- The keys that the provider derives for the origins of an input are the keys of the
origins. -/
structure Honest (k : GetKey ε) (input : Input) : Prop where
  bip32Derivation : ∀ key source sk, input.bip32Derivation[key]? = some source →
    k (.bip32 source) = some (.ok (some sk)) → sk.publicKey.inner = key
  tapKeyOrigins : ∀ xonly leafHashes source sk,
    input.tapKeyOrigins[xonly]? = some (leafHashes, source) →
      k (.bip32 source) = some (.ok (some sk)) → sk.xOnly = xonly


section
variable {k : GetKey ε} {psbt before after : Psbt} {inputIndex : Nat} {input signed : Input}
  {draft : Draft}

omit [TweakHash] in
theorem Made.of_same {leafHash : Option TapLeafHash} {pair : Signing.Keypair} {sig : TaprootSignature}
    (same : SameUnsigned psbt before) (made : Made before inputIndex leafHash pair sig) :
    Made psbt inputIndex leafHash pair sig := by
  obtain ⟨n, message, told, signature⟩ := made
  refine ⟨n, message, ?_, signature⟩
  rw [← told, taprootMessage, taprootMessage, ← sighashTaproot_withoutSignatures, same,
    sighashTaproot_withoutSignatures, same.unsignedTx]

/-- What is signed along the keys of `tap_key_origins`. -/
theorem Progress.authored (same : SameUnsigned psbt before)
    (progress : Progress k before inputIndex input draft) :
    Authored k psbt inputIndex input draft.1 where
  partialSigs pk sig there := .inl (by rwa [progress.partials] at there)
  tapScriptSigs xonly leafHash sig vacant there := by
    obtain ⟨leafHashes, sk, origin, listed, made, -⟩ := progress.leaves xonly leafHash sig vacant there
    exact ⟨leafHashes, sk, origin, listed, made.of_same same⟩
  tapKeySig sig vacant there := by
    obtain ⟨internalKey, leafHashes, sk, pair, internal, origin, tweaked, made, -⟩ :=
      progress.key sig vacant there
    exact ⟨internalKey, leafHashes, sk, pair, internal, origin, tweaked, made.of_same same⟩

theorem derivedSigs_authored (same : SameUnsigned psbt before)
    {message : Except SignError (ByteArr 32 × Sighash.EcdsaSighashType)}
    (told : before.ecdsaMessageOf inputIndex = some message) :
    Authored k psbt inputIndex input
      (insertPartialSigs (derivedSigs k message input.bip32Derivation.toList).1 input) where
  partialSigs pk sig there := by
    rcases insertPartialSigs_lookup (derivedSigs k message input.bip32Derivation.toList).1 input pk with
      ⟨new, listed, found⟩ | ⟨-, old⟩
    · obtain rfl := Option.some.inj (there.symm.trans found)
      obtain ⟨origin, member, sk, digest, hashTy, asked, rfl, made⟩ := derivedSigs_listed listed
      obtain ⟨rfl, rfl⟩ := Prod.mk.inj made
      have source := Std.ExtTreeMap.mem_toList_iff_getElem?_eq_some.mp member
      rw [same.ecdsaMessageOf] at told
      exact .inr ⟨origin.1, sk, digest, hashTy, ⟨origin.2, source, asked⟩, rfl, told, rfl⟩
    · exact .inl (old.symm.trans there)
  tapScriptSigs xonly leafHash sig vacant there := by
    rw [insertPartialSigs_eq] at there
    have old : input.tapScriptSigs[(xonly, leafHash)]? = some sig := there
    exact absurd (Std.ExtTreeMap.mem_iff_isSome_getElem?.mpr (by rw [old]; rfl)) vacant
  tapKeySig sig vacant there := by
    rw [insertPartialSigs_eq] at there
    have old : input.tapKeySig = some sig := there
    rw [vacant] at old
    contradiction

theorem InputStep.authored (same : SameUnsigned psbt before) (listed : before.inputs[inputIndex]? = some input)
    {result : Except (Stop SignError) SigningKeys} (step : InputStep k inputIndex before result after)
    (there : after.inputs[inputIndex]? = some signed) : Authored k psbt inputIndex input signed := by
  have changed : ∀ change, (before.changeInput inputIndex change).inputs[inputIndex]? = some signed →
      signed = change input := by
    intro change there
    rw [Psbt.changeInput, List.getElem?_modify_eq, listed] at there
    exact (Option.some.inj there).symm
  cases step with
  | stopped stop =>
    obtain rfl := Option.some.inj (listed.symm.trans there)
    exact (Progress.start k before inputIndex input).authored same
  | ecdsa algorithm told found ran =>
    obtain rfl := Option.some.inj (listed.symm.trans found)
    obtain rfl := changed _ there
    subst ran
    exact derivedSigs_authored same told
  | @schnorr input' after used algorithm found steps =>
    obtain rfl := Option.some.inj (listed.symm.trans found)
    obtain rfl := changed _ there
    have progress := Progress.steps
      (fun origin member => Std.ExtTreeMap.mem_toList_iff_getElem?_eq_some.mp member) steps
    exact progress.authored same

end

/-! An input whose origins are honest. -/

section
variable {k : GetKey ε} {psbt before after : Psbt} {inputIndex : Nat} {input signed : Input}

omit [SighashTag] [TweakHash] in
theorem DerivationKey.own (answers : Answers k) (honest : Honest k input) {key : Secp256k1.PublicKey}
    {sk : PrivateKey} (given : DerivationKey k input key sk) : sk.publicKey.inner = key := by
  obtain ⟨source, listed, found⟩ := given
  rcases findKey_pair found with derived | answered
  · exact honest.bip32Derivation key source sk listed derived
  · exact answers.pubkey _ sk answered

omit [SighashTag] [TweakHash] in
theorem OriginKey.own (answers : Answers k) (honest : Honest k input) {xonly : XOnlyPublicKey}
    {leafHashes : Vec TapLeafHash} {sk : PrivateKey} (given : OriginKey k input xonly leafHashes sk) :
    sk.xOnly = xonly := by
  obtain ⟨source, listed, found⟩ := given
  rcases findKey_pair found with derived | answered
  · exact honest.tapKeyOrigins xonly leafHashes source sk listed derived
  · exact answers.xOnlyPubkey _ sk answered

theorem Progress.reported (answers : Answers k) (honest : Honest k input) {draft : Draft}
    (progress : Progress k before inputIndex input draft) :
    Reported input draft.1 (.schnorr draft.2) := by
  refine ⟨fun key => ⟨fun told => ?_, ?_⟩, progress.partials⟩
  · rcases progress.used key told with internal | leaf
    · exact .inr internal
    · obtain ⟨xonly, leafHashes, sk, leafHash, origin, new, rfl⟩ := leaf
      rw [origin.own answers honest]
      exact .inl ⟨leafHash, new⟩
  · rintro (⟨leafHash, new⟩ | ⟨internal, new⟩)
    · obtain ⟨sig, there⟩ := Option.isSome_iff_exists.mp
        (Std.ExtTreeMap.mem_iff_isSome_getElem?.mp new.there)
      obtain ⟨leafHashes, sk, origin, -, -, told⟩ := progress.leaves key leafHash sig new.vacant there
      rwa [origin.own answers honest] at told
    · obtain ⟨sig, there⟩ := Option.ne_none_iff_exists'.mp new.there
      obtain ⟨xonly, leafHashes, sk, pair, same, -, -, -, told⟩ := progress.key sig new.vacant there
      obtain rfl := Option.some.inj (internal.symm.trans same)
      exact told

omit [SighashTag] [TweakHash] in
theorem derivedSigs_inserted (k : GetKey ε) (input : Input)
    (message : Except SignError (ByteArr 32 × Sighash.EcdsaSighashType)) :
    Inserted input (insertPartialSigs (derivedSigs k message input.bip32Derivation.toList).1 input)
      (.ecdsa ((derivedSigs k message input.bip32Derivation.toList).1.map Prod.fst)) := by
  have found := insertPartialSigs_lookup (derivedSigs k message input.bip32Derivation.toList).1 input
  refine ⟨fun pk told => ?_, fun pk untold => ?_, ?_, ?_⟩
  · rcases found pk with ⟨sig, -, there⟩ | ⟨unlisted, -⟩
    · exact Std.ExtTreeMap.mem_iff_isSome_getElem?.mpr (by rw [there]; rfl)
    · exact absurd told unlisted
  · rcases found pk with ⟨sig, listed, -⟩ | ⟨-, same⟩
    · exact absurd (List.mem_map_of_mem listed) untold
    · exact same
  · rw [insertPartialSigs_eq]
    rfl
  · rw [insertPartialSigs_eq]
    rfl

omit [SighashTag] [TweakHash] in
theorem derivedSigs_own (answers : Answers k) (honest : Honest k input)
    {message : Except SignError (ByteArr 32 × Sighash.EcdsaSighashType)} {pk : PublicKey}
    (told : pk ∈ (derivedSigs k message input.bip32Derivation.toList).1.map Prod.fst) :
    pk.inner ∈ input.bip32Derivation := by
  obtain ⟨entry, listed, rfl⟩ := List.mem_map.mp told
  obtain ⟨origin, member, sk, digest, hashTy, asked, -, rfl⟩ := derivedSigs_listed listed
  have given : DerivationKey k input origin.1 sk :=
    ⟨origin.2, Std.ExtTreeMap.mem_toList_iff_getElem?_eq_some.mp member, asked⟩
  rw [given.own answers honest]
  exact given.listed

theorem InputStep.reported (listed : before.inputs[inputIndex]? = some input) {keys : SigningKeys}
    (step : InputStep k inputIndex before (.ok keys) after)
    (there : after.inputs[inputIndex]? = some signed) :
    Inserted input signed keys ∧ (Answers k → Honest k input → Reported input signed keys) := by
  generalize returned : (Except.ok keys : Except (Stop SignError) SigningKeys) = result at step
  have changed : ∀ change, (before.changeInput inputIndex change).inputs[inputIndex]? = some signed →
      signed = change input := by
    intro change there
    rw [Psbt.changeInput, List.getElem?_modify_eq, listed] at there
    exact (Option.some.inj there).symm
  cases step with
  | stopped stop => contradiction
  | @ecdsa message input' run algorithm told found ran =>
    obtain rfl := Option.some.inj (listed.symm.trans found)
    obtain rfl := changed _ there
    subst ran
    have inserted := derivedSigs_inserted k input message
    have own (answers : Answers k) (honest : Honest k input) (pk : PublicKey)
        (told : pk ∈ (derivedSigs k message input.bip32Derivation.toList).1.map Prod.fst) :=
      derivedSigs_own answers honest told
    generalize derivedSigs k message input.bip32Derivation.toList = run at returned inserted own ⊢
    rcases run with ⟨sigs, _ | stop⟩
    · obtain rfl := Except.ok.inj returned
      exact ⟨inserted, fun answers honest =>
        ⟨fun pk told => ⟨own answers honest pk told, inserted.1 pk told⟩, inserted.2⟩⟩
    · contradiction
  | @schnorr input' after used algorithm found steps =>
    obtain rfl := Option.some.inj (listed.symm.trans found)
    obtain rfl := changed _ there
    obtain rfl := Except.ok.inj returned
    have progress := Progress.steps
      (fun origin member => Std.ExtTreeMap.mem_toList_iff_getElem?_eq_some.mp member) steps
    exact ⟨progress.partials, progress.reported⟩

end

/-! All inputs. -/

/-- What the round for an input, if there was one, made of it. -/
inductive Round (k : GetKey ε) (psbt : Psbt) (inputIndex : Nat) (input : Input) :
    Option (Except (Stop SignError) SigningKeys) → Input → Prop where
  | never : Round k psbt inputIndex input none input
  | once {before after : Psbt} {signed : Input} {result : Except (Stop SignError) SigningKeys}
      (same : SameUnsigned psbt before) (listed : before.inputs[inputIndex]? = some input)
      (step : InputStep k inputIndex before result after)
      (there : after.inputs[inputIndex]? = some signed) :
      Round k psbt inputIndex input (some result) signed

/-- The inputs that are done have had their round, and the report tells how it ended. -/
structure Done (k : GetKey ε) (psbt : Psbt) (done : List Nat) (report : Report) (session : Session) :
    Prop where
  reach : Reach psbt done session
  rounds : ∀ inputIndex ∈ done, ∀ input, psbt.inputs[inputIndex]? = some input → ∃ result signed,
    session.psbt.inputs[inputIndex]? = some signed ∧
      Round k psbt inputIndex input (some result) signed ∧
        ∀ keys, report.used[inputIndex]? = some keys → result = .ok keys
  untold : ∀ inputIndex, inputIndex ∉ done → report.used[inputIndex]? = none


theorem signNext_eq (k : GetKey ε) (report : Report) (inputIndex : Nat) (session : Session) :
    signNext k report inputIndex session = match signInput k inputIndex session with
      | (.error .panic, after) => (.error .panic, after)
      | (.error (.error e), after) => (.ok (report.add inputIndex (.error e)), after)
      | (.ok keys, after) => (.ok (report.add inputIndex (.ok keys)), after) := by
  rw [signNext, bind_apply, attempt]
  rcases signInput k inputIndex session with ⟨(_ | e) | keys, after⟩ <;> rfl

namespace Done
variable {k : GetKey ε} {psbt : Psbt} {done : List Nat} {report : Report}
  {session after : Session} {inputIndex : Nat}

theorem start (k : GetKey ε) (psbt : Psbt) : Done k psbt [] Report.empty (.new psbt) where
  reach := .start (.new psbt)
  rounds := nofun
  untold inputIndex _ := by simp [Report.empty]

/-- One more round. -/
theorem next (covers : Done k psbt done report session) (report' : Report) (fresh : inputIndex ∉ done)
    (others : ∀ i, i ≠ inputIndex → report'.used[i]? = report.used[i]?)
    (told : ∀ keys, report'.used[inputIndex]? = some keys →
      (signInput k inputIndex session).1 = .ok keys) :
    Done k psbt (done ++ [inputIndex]) report' (signInput k inputIndex session).2 := by
  have step := (signInput_step k inputIndex covers.reach.signs).1
  obtain ⟨adds, -, kept, -⟩ := signInput_adds k inputIndex covers.reach.signs
  refine ⟨covers.reach.signInput k inputIndex, ?_, ?_⟩
  · rw [List.forall_mem_append, List.forall_mem_singleton]
    constructor
    · intro i old input listed
      have other : i ≠ inputIndex := fun same => fresh (same ▸ old)
      obtain ⟨result, signed, there, round, same⟩ := covers.rounds i old input listed
      refine ⟨result, signed, ?_, round, ?_⟩
      · rwa [kept i other]
      · rwa [others i other]
    · intro input listed
      rw [← covers.reach.untouched inputIndex fresh] at listed
      obtain ⟨signed, there, -⟩ := adds.inputs inputIndex input listed
      exact ⟨_, signed, there, .once covers.reach.adds.same listed step there, told⟩
  · intro i untold
    rw [List.mem_append, List.mem_singleton, not_or] at untold
    rw [others i untold.2]
    exact covers.untold i untold.1

theorem signNext (covers : Done k psbt done report session) (fresh : inputIndex ∉ done) :
    (∀ report' after, signNext k report inputIndex session = (.ok report', after) →
      Done k psbt (done ++ [inputIndex]) report' after) ∧
    ∀ e after, signNext k report inputIndex session = (.error e, after) →
      Done k psbt (done ++ [inputIndex]) report after := by
  have untold := covers.untold inputIndex fresh
  have next := fun report' => covers.next report' fresh
  rw [signNext_eq]
  rcases ended : signInput k inputIndex session with ⟨(_ | e) | keys, last⟩
  · refine ⟨fun _ _ ran => (by cases (Prod.mk.inj ran).1), fun _ _ ran => ?_⟩
    obtain ⟨-, rfl⟩ := Prod.mk.inj ran
    rw [ended] at next
    refine next report (fun _ _ => rfl) fun keys told => ?_
    rw [untold] at told
    contradiction
  · refine ⟨fun _ _ ran => ?_, fun _ _ ran => by cases (Prod.mk.inj ran).1⟩
    obtain ⟨same, rfl⟩ := Prod.mk.inj ran
    obtain rfl := Except.ok.inj same
    rw [ended] at next
    refine next _ (fun _ _ => rfl) fun keys told => ?_
    rw [Report.add, untold] at told
    contradiction
  · refine ⟨fun _ _ ran => ?_, fun _ _ ran => by cases (Prod.mk.inj ran).1⟩
    obtain ⟨same, rfl⟩ := Prod.mk.inj ran
    obtain rfl := Except.ok.inj same
    rw [ended] at next
    refine next _ (fun i other => ?_) fun keys' told => ?_
    · rw [Report.add, Std.ExtTreeMap.getElem?_insert, if_neg]
      exact fun same => other (Std.LawfulEqCmp.eq_of_compare same).symm
    · rw [Report.add, Std.ExtTreeMap.getElem?_insert_self] at told
      rw [Option.some.inj told]

/-- The whole loop, whether it returns or panics. -/
theorem sign (k : GetKey ε) (psbt : Psbt) : ∃ done report session,
    Done k psbt done report session ∧ session.psbt = (sign k psbt).2 ∧
      ∀ result, (Psbt.sign k psbt).1 = some result → (reports result).1 = report.used := by
  have ran : (∀ report after, (List.range psbt.inputs.length).foldlM (Psbt.signNext k) Report.empty
        (.new psbt) = (.ok report, after) → Done k psbt (List.range psbt.inputs.length) report after) ∧
      ∀ e after, (List.range psbt.inputs.length).foldlM (Psbt.signNext k) Report.empty (.new psbt) =
        (.error e, after) → ∃ done report, Done k psbt done report after := by
    refine foldlM_run _ (fun after => ∃ done report, Done k psbt done report after) (start k psbt) ?_
    intro done inputIndex rest whole report session covers
    have nodup := List.nodup_range (n := psbt.inputs.length)
    rw [← whole] at nodup
    have fresh : inputIndex ∉ done := fun old =>
      List.disjoint_of_nodup_append nodup old List.mem_cons_self
    obtain ⟨returns, fails⟩ := covers.signNext fresh
    exact ⟨returns, fun e after failed => ⟨_, _, fails e after failed⟩⟩
  rw [Psbt.sign]
  generalize (List.range psbt.inputs.length).foldlM (Psbt.signNext k) Report.empty (.new psbt) = last
    at ran ⊢
  rcases last with ⟨stop | report, session⟩
  · obtain ⟨done, report, covers⟩ := ran.2 stop session rfl
    refine ⟨done, report, session, covers, rfl, fun result returned => ?_⟩
    contradiction
  · refine ⟨_, report, session, ran.1 report session rfl, rfl, ?_⟩
    rintro _ ⟨⟩
    rw [reports_result]

end Done

/-- What signing makes of an input, and what it reports of it. -/
theorem sign_rounds (k : GetKey ε) (psbt : Psbt) {inputIndex : Nat} {input : Input}
    (listed : psbt.inputs[inputIndex]? = some input) : ∃ result signed,
      (sign k psbt).2.inputs[inputIndex]? = some signed ∧ Round k psbt inputIndex input result signed ∧
        ∀ returned keys, (sign k psbt).1 = some returned →
          (reports returned).1[inputIndex]? = some keys → result = some (.ok keys) := by
  obtain ⟨done, report, session, covers, last, returns⟩ := Done.sign k psbt
  rw [← last]
  by_cases had : inputIndex ∈ done
  · obtain ⟨result, signed, there, round, told⟩ := covers.rounds inputIndex had input listed
    refine ⟨some result, signed, there, round, fun returned keys same reported => ?_⟩
    rw [returns returned same] at reported
    rw [told keys reported]
  · refine ⟨none, input, ?_, .never, fun returned keys same reported => ?_⟩
    · rwa [covers.reach.untouched inputIndex had]
    · rw [returns returned same, covers.untold inputIndex had] at reported
      contradiction

/-- Who made the signatures of an input, and what is reported of them. -/
theorem sign_authored (k : GetKey ε) {psbt : Psbt} {inputIndex : Nat} {input : Input}
    (listed : psbt.inputs[inputIndex]? = some input) : ∃ signed,
      (sign k psbt).2.inputs[inputIndex]? = some signed ∧ Authored k psbt inputIndex input signed ∧
        ∀ returned keys, (sign k psbt).1 = some returned →
          (reports returned).1[inputIndex]? = some keys → Inserted input signed keys ∧
            (Answers k → Honest k input → Reported input signed keys) := by
  obtain ⟨result, signed, there, round, told⟩ := sign_rounds k psbt listed
  refine ⟨signed, there, ?_, fun returned keys same reported => ?_⟩
  · cases round with
    | never => exact (Progress.start k psbt inputIndex input).authored rfl
    | once same listed step there => exact step.authored same listed there
  · obtain rfl := told returned keys same reported
    cases round with
    | once same listed step there => exact step.reported listed there

end
end Litecoin.Psbt
