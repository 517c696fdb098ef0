import Litecoin.Crypto.SighashTransparency
import Litecoin.Psbt.Sign

/-! What is signed depends neither on the signatures that are there nor on the cache. -/
namespace Litecoin.Psbt
open Wire Consensus Blockdata Sighash Crypto Bip32 Taproot Script

section
variable [Secp256k1] [Hashes]

namespace Input

def withoutSignatures (input : Input) : Input :=
  ((input.withField .partialSigs (∅ : BTreeMap PublicKey EcdsaSignature)).withField .tapKeySig
    (none : Option TaprootSignature)).withField .tapScriptSigs
      (∅ : BTreeMap (Secp256k1.XOnlyPublicKey × TapLeafHash) TaprootSignature)

end Input

def withoutSignatures (psbt : Psbt) : Psbt :=
  { psbt with inputs := psbt.inputs.map Input.withoutSignatures }

/-! The lookups do not see signatures. -/

section
variable (psbt : Psbt) (inputIndex : Nat)

theorem checkedInput_withoutSignatures : psbt.withoutSignatures.checkedInput inputIndex =
    Input.withoutSignatures <$> psbt.checkedInput inputIndex := by
  have bounds : psbt.withoutSignatures.checkIndexIsWithinBounds inputIndex =
      psbt.checkIndexIsWithinBounds inputIndex := by
    have lengths : psbt.withoutSignatures.inputs.length = psbt.inputs.length := List.length_map _
    rw [checkIndexIsWithinBounds, checkIndexIsWithinBounds, lengths]
    rfl
  have listed : psbt.withoutSignatures.inputs[inputIndex]? =
      psbt.inputs[inputIndex]?.map Input.withoutSignatures := List.getElem?_map
  rw [checkedInput, checkedInput, bounds, listed]
  cases psbt.checkIndexIsWithinBounds inputIndex with
  | error e => rfl
  | ok _ => cases psbt.inputs[inputIndex]? <;> rfl

theorem spendUtxo_withoutSignatures :
    psbt.withoutSignatures.spendUtxo inputIndex = psbt.spendUtxo inputIndex := by
  rw [spendUtxo, spendUtxo, checkedInput_withoutSignatures, bind_map_left]
  rfl

theorem outputType_withoutSignatures :
    psbt.withoutSignatures.outputType inputIndex = psbt.outputType inputIndex := by
  rw [outputType, outputType, checkedInput_withoutSignatures, spendUtxo_withoutSignatures,
    bind_map_left]
  rfl

theorem signingAlgorithm_withoutSignatures :
    psbt.withoutSignatures.signingAlgorithm inputIndex = psbt.signingAlgorithm inputIndex := by
  rw [signingAlgorithm, signingAlgorithm, outputType_withoutSignatures]

theorem ecdsaTarget_withoutSignatures : psbt.withoutSignatures.ecdsaTarget inputIndex =
    Prod.map Input.withoutSignatures id <$> psbt.ecdsaTarget inputIndex := by
  rw [ecdsaTarget, ecdsaTarget, signingAlgorithm_withoutSignatures, checkedInput_withoutSignatures,
    spendUtxo_withoutSignatures, outputType_withoutSignatures]
  rw [map_bind]
  refine congrArg (psbt.signingAlgorithm inputIndex >>= ·) (funext fun algorithm => ?_)
  cases algorithm with
  | schnorr => rfl
  | ecdsa =>
    simp only [ne_eq, not_true_eq_false, if_false, map_bind, bind_map_left]
    refine congrArg (psbt.checkedInput inputIndex >>= ·) (funext fun input => ?_)
    refine congrArg (psbt.spendUtxo inputIndex >>= ·) (funext fun utxo => ?_)
    have hashTy : input.withoutSignatures.ecdsaHashTy = input.ecdsaHashTy := rfl
    rw [hashTy]
    cases input.ecdsaHashTy with
    | none => rfl
    | some hashTy => rw [map_bind]; rfl

theorem sighashEcdsa_withoutSignatures :
    psbt.withoutSignatures.sighashEcdsa inputIndex = psbt.sighashEcdsa inputIndex := by
  funext cache
  rw [sighashEcdsa, sighashEcdsa, ecdsaTarget_withoutSignatures, ExceptT.run_map]
  rcases (psbt.ecdsaTarget inputIndex).run with _ | (_ | ⟨input, utxo, hashTy, outputType⟩)
  · rfl
  · rfl
  · cases outputType <;> rfl

theorem spendUtxos_withoutSignatures : psbt.withoutSignatures.spendUtxos = psbt.spendUtxos := by
  have lengths : psbt.withoutSignatures.inputs.length = psbt.inputs.length := List.length_map _
  simp only [spendUtxos, lengths, spendUtxo_withoutSignatures]

theorem taprootTarget_withoutSignatures :
    psbt.withoutSignatures.taprootTarget inputIndex = psbt.taprootTarget inputIndex := by
  rw [taprootTarget, taprootTarget, signingAlgorithm_withoutSignatures,
    checkedInput_withoutSignatures, outputType_withoutSignatures, spendUtxos_withoutSignatures]
  simp only [bind_map_left]
  rfl

variable [SighashTag]

theorem sighashTaproot_withoutSignatures (leafHash : Option TapLeafHash) :
    psbt.withoutSignatures.sighashTaproot inputIndex leafHash =
      psbt.sighashTaproot inputIndex leafHash := by
  funext cache
  rw [sighashTaproot, sighashTaproot, taprootTarget_withoutSignatures]

end

/-! An encoder keeps the transaction, even when it fails. -/

section
open SighashCache Process
variable {ω ε : Type} {tx : Transaction}

/-- The cache is for the transaction before and after. -/
abbrev KeepsTx (tx : Transaction) (p : Sighasher ω ε α) : Prop :=
  Yields (fun state => state.1.tx = tx) p fun _ => True

namespace KeepsTx

omit [Hashes] in
theorem bind {p : Sighasher ω ε α} {next : α → Sighasher ω ε β} (first : KeepsTx tx p)
    (second : ∀ a, KeepsTx tx (next a)) : KeepsTx tx (p >>= next) :=
  Yields.bind first fun a _ => second a

omit [Hashes] in
theorem gated {c : Prop} [Decidable c] {p : Sighasher ω ε Unit} (inner : KeepsTx tx p) :
    KeepsTx tx (p.gated c) :=
  Yields.gated (fun _ => inner) fun _ => trivial

omit [Hashes] in
theorem write [Write ω] (emission : Emission IoError) :
    KeepsTx tx (SighashCache.write emission : Sighasher ω ε Unit) := by
  rintro ⟨cache, writer⟩ same
  cases emission <;> exact ⟨same, fun _ _ => trivial⟩

omit [Hashes] in
theorem check (result : Except ε α) : KeepsTx tx (SighashCache.check result : Sighasher ω ε α) :=
  .ofExcept fun _ _ => trivial

omit [Hashes] in
theorem transaction : KeepsTx tx (SighashCache.transaction : Sighasher ω ε Transaction) :=
  .look fun _ _ => trivial

theorem filling {spent : List TxOut} {fill : SighashCache → α × SighashCache}
    {value : Transaction → α} (fills : Fills spent fill value) :
    KeepsTx tx (SighashCache.filling fill : Sighasher ω ε α) :=
  .update (fun _ same => (fills.tx _).trans same) fun _ _ => trivial

theorem common : KeepsTx tx (SighashCache.filling fillCommon : Sighasher ω ε CommonCache) :=
  filling (fillCommon_fills [])

variable [Write ω]

theorem writeHash {committed : Prop} [Decidable committed] (part : SegwitCache → ByteArr 32) :
    KeepsTx tx (SighashCache.writeHash committed part : Sighasher ω ε Unit) :=
  .ite (fun _ => (filling (fillSegwit_fills [])).bind fun _ => write _) fun _ => write _

theorem segwitV0 (inputIndex : Nat) (scriptCode : ByteVec) (value : UInt64)
    (sighashType : Sighash.EcdsaSighashType) : KeepsTx tx (segwitV0EncodeSigningDataTo inputIndex
      scriptCode value sighashType : Sighasher ω InputsIndexError Unit) := by
  refine transaction.bind fun tx => (write _).bind fun _ => ?_
  refine (writeHash _).bind fun _ => (writeHash _).bind fun _ => ?_
  refine (check _).bind fun txin => (write _).bind fun _ => ?_
  refine (write _).bind fun _ => (write _).bind fun _ => ?_
  refine (write _).bind fun _ => KeepsTx.bind ?_ fun _ => ?_
  · exact .ite (fun _ => transaction.bind fun _ => write _) fun _ => writeHash _
  · exact (write _).bind fun _ => write _

theorem writeAllInputs (prevouts : Prevouts) :
    KeepsTx tx (SighashCache.writeAllInputs prevouts : Sighasher ω Sighash.TaprootError Unit) := by
  refine common.bind fun _ => (write _).bind fun _ => ?_
  refine (check _).bind fun all => (filling (fillTaproot_fills all)).bind fun _ => ?_
  refine (write _).bind fun _ => (check _).bind fun all => ?_
  refine (filling (fillTaproot_fills all)).bind fun _ => (write _).bind fun _ => ?_
  exact common.bind fun _ => write _

omit [Hashes] in
theorem writeThisInput (anyoneCanPay : Bool) (inputIndex : Nat) (prevouts : Prevouts) :
    KeepsTx tx (SighashCache.writeThisInput anyoneCanPay inputIndex prevouts :
      Sighasher ω Sighash.TaprootError Unit) := by
  refine .ite (fun _ => ?_) fun _ => write _
  refine transaction.bind fun tx => (check _).bind fun txin => ?_
  refine (check _).bind fun prevout => (write _).bind fun _ => ?_
  exact (write _).bind fun _ => (write _).bind fun _ => write _

theorem taproot (inputIndex : Nat) (prevouts : Prevouts)
    (leafHashCodeSeparator : Option (Taproot.TapLeafHash × UInt32))
    (sighashType : Sighash.TapSighashType) : KeepsTx tx (taprootEncodeSigningDataTo inputIndex prevouts
      none leafHashCodeSeparator sighashType : Sighasher ω Sighash.TaprootError Unit) := by
  refine transaction.bind fun tx => (check _).bind fun _ => ?_
  refine (write _).bind fun _ => (write _).bind fun _ => ?_
  refine (write _).bind fun _ => (write _).bind fun _ => ?_
  refine (gated (writeAllInputs prevouts)).bind fun _ => ?_
  refine (gated (common.bind fun _ => write _)).bind fun _ => ?_
  refine (write _).bind fun _ => (writeThisInput _ _ _).bind fun _ => ?_
  refine KeepsTx.bind (.pure trivial) fun _ => ?_
  refine (gated (transaction.bind fun _ => (check _).bind fun _ => write _)).bind fun _ => ?_
  cases leafHashCodeSeparator with
  | none => exact .pure trivial
  | some leaf => exact (write _).bind fun _ => (write _).bind fun _ => write _

end KeepsTx
end

/-! Nor can the cache be seen. -/

/-- Caches over one transaction that nothing tells apart. -/
structure Twin (spent : List TxOut) (cache cache' : SighashCache) : Prop where
  tx : cache.tx = cache'.tx
  left : Coherent spent cache
  right : Coherent spent cache'

/-- Caches over one transaction after a run on each of them that returns the same. -/
structure Same (spent : List TxOut) (tx : Transaction) (after after' : ρ × SighashCache) : Prop where
  value : after.1 = after'.1
  twin : Twin spent after.2 after'.2
  tx : after.2.tx = tx

/-- The same is returned on caches that nothing tells apart. -/
def Blind (spent : List TxOut) (method : SighashCache → Option (ρ × SighashCache)) : Prop :=
  ∀ cache cache', Twin spent cache cache' →
    Option.Rel (Same spent cache.tx) (method cache) (method cache')

namespace Blind
variable {spent : List TxOut}

theorem returns (value : Option ρ) : Blind spent fun cache => value.map fun r => (r, cache) := by
  intro cache cache' twin
  cases value with
  | none => exact .none
  | some r => exact .some ⟨rfl, twin, rfl⟩

theorem map {method : SighashCache → Option (ρ × SighashCache)} (blind : Blind spent method)
    (change : ρ → τ) :
    Blind spent fun cache => method cache >>= fun after => some (change after.1, after.2) := by
  intro cache cache' twin
  have related := blind cache cache' twin
  dsimp only
  generalize method cache = after at related ⊢
  generalize method cache' = after' at related ⊢
  cases related with
  | none => exact .none
  | some same => exact .some ⟨congrArg change same.value, same.twin, same.tx⟩

end Blind

/-- What is made of a run of an encoder on a hash engine. -/
def engineHash (hash : Bytes → ByteArr 32) :
    Except (SigningDataError ε) Unit × SighashCache × Bytes → Option (Except ε (ByteArr 32) × SighashCache)
  | (.ok (), cache, engine) => some (.ok (hash engine), cache)
  | (.error (.sighash e), cache, _) => some (.error e, cache)
  | (.error (.io _), _) => none

theorem Blind.engineHash {spent : List TxOut} {encode : Sighasher Bytes ε Unit}
    (lockstep : Process.Lockstep (Alike spent) encode) (keeps : ∀ tx, KeepsTx tx encode)
    (hash : Bytes → ByteArr 32) :
    Blind spent fun cache => Psbt.engineHash hash (encode (cache, [])) := by
  intro cache cache' twin
  obtain ⟨same, alike⟩ := lockstep (cache, []) (cache', []) ⟨twin.tx, rfl, twin.left, twin.right⟩
  have kept := (keeps cache.tx (cache, []) rfl).1
  dsimp only
  generalize encode (cache, []) = ran at same alike kept ⊢
  generalize encode (cache', []) = ran' at same alike ⊢
  obtain ⟨result, after, engine⟩ := ran
  obtain ⟨result', after', engine'⟩ := ran'
  obtain rfl : result = result' := same
  obtain ⟨tx, rfl, left, right⟩ := alike
  rcases result with (e | e) | _
  · exact .none
  · exact .some ⟨rfl, ⟨tx, left, right⟩, kept⟩
  · exact .some ⟨rfl, ⟨tx, left, right⟩, kept⟩

section
variable {spent : List TxOut} {inputIndex : Nat}

theorem p2wshSignatureHash_blind (scriptCode : ByteVec) (value : UInt64)
    (sighashType : Sighash.EcdsaSighashType) : Blind spent fun cache =>
      p2wshSignatureHash cache inputIndex scriptCode value sighashType := by
  have hashed (cache : SighashCache) : p2wshSignatureHash cache inputIndex scriptCode value sighashType =
      engineHash Hashes.sha256d (SighashCache.segwitV0EncodeSigningDataTo inputIndex scriptCode value
        sighashType (cache, [])) := by
    rw [p2wshSignatureHash]
    rcases SighashCache.segwitV0EncodeSigningDataTo inputIndex scriptCode value sighashType
      (cache, ([] : Bytes)) with ⟨((e | e) | _), after, engine⟩ <;> rfl
  simp only [hashed]
  exact .engineHash (SighashCache.segwitV0_lockstep inputIndex scriptCode value sighashType)
    (fun _ => .segwitV0 inputIndex scriptCode value sighashType) _

theorem p2wpkhSignatureHash_blind (script : ScriptBuf) (value : UInt64)
    (sighashType : Sighash.EcdsaSighashType) : Blind spent fun cache =>
      p2wpkhSignatureHash cache inputIndex script value sighashType := by
  simp only [p2wpkhSignatureHash]
  rcases p2wpkhScriptCode script with _ | _ | code
  · exact .returns none
  · exact .returns (some (Except.error P2wpkhError.notP2wpkhScript))
  · simp only [Option.bind_eq_bind, Option.bind_some]
    cases vecOfScript code with
    | none => exact .returns none
    | some code =>
      exact (p2wshSignatureHash_blind code value sighashType).map (Except.mapError P2wpkhError.sighash)

theorem legacyHash_blind (script : ByteVec) (sighashType : Sighash.EcdsaSighashType) :
    Blind spent fun cache => (expectLegacyHash cache inputIndex script sighashType).bind fun hash =>
      some ((.ok hash : Except SignError (ByteArr 32)), cache) := by
  intro cache cache' twin
  have same := SighashCache.legacy_eq twin.tx twin.left twin.right ([] : Bytes) inputIndex script
    sighashType.toU32
  have hashes : expectLegacyHash cache inputIndex script sighashType =
      expectLegacyHash cache' inputIndex script sighashType := by
    rw [expectLegacyHash, expectLegacyHash, SighashCache.legacySignatureHash,
      SighashCache.legacySignatureHash, same]
  dsimp only
  rw [hashes]
  cases expectLegacyHash cache' inputIndex script sighashType with
  | none => exact .none
  | some hash => exact .some ⟨rfl, twin, rfl⟩

theorem ecdsaMessage_blind (input : Input) (utxo : TxOut) (hashTy : Sighash.EcdsaSighashType)
    (outputType : OutputType) :
    Blind spent (ecdsaMessage input utxo hashTy inputIndex outputType) := by
  have wpkh (script : ScriptBuf) : Blind spent fun cache =>
      (p2wpkhSignatureHash cache inputIndex script utxo.value hashTy).bind fun after =>
        some (after.1.mapError SignError.p2wpkhSighash, after.2) :=
    (p2wpkhSignatureHash_blind script utxo.value hashTy).map _
  have wsh : Blind spent (ecdsaMessage input utxo hashTy inputIndex .wsh) := by
    unfold ecdsaMessage
    dsimp only
    cases input.witnessScript with
    | none => exact .returns (some (Except.error SignError.missingWitnessScript))
    | some script =>
      dsimp only
      cases vecOfScript script with
      | none => exact .returns none
      | some script =>
        exact (p2wshSignatureHash_blind script utxo.value hashTy).map
          (Except.mapError SignError.segwitV0Sighash)
  cases outputType with
  | bare => exact legacyHash_blind utxo.scriptPubkey hashTy
  | wpkh => exact wpkh utxo.scriptPubkey.toList
  | wsh | shWsh => exact wsh
  | shWpkh =>
    unfold ecdsaMessage
    dsimp only
    cases input.redeemScript with
    | none => exact .returns none
    | some script => exact wpkh script
  | sh =>
    unfold ecdsaMessage
    dsimp only
    cases input.redeemScript with
    | none => exact .returns (some (Except.error SignError.missingRedeemScript))
    | some script =>
      dsimp only
      cases vecOfScript script with
      | none => exact .returns none
      | some script => exact legacyHash_blind script hashTy
  | tr => exact .returns (some (Except.error SignError.unsupported))

theorem sighashEcdsa_blind (psbt : Psbt) : Blind spent (psbt.sighashEcdsa inputIndex) := by
  unfold sighashEcdsa
  rcases (psbt.ecdsaTarget inputIndex).run with _ | e | ⟨input, utxo, hashTy, outputType⟩
  · exact .returns none
  · exact .returns (some (Except.error e))
  · exact (ecdsaMessage_blind input utxo hashTy outputType).map
      (Except.map fun message => (message, hashTy))

/-- The outputs that a taproot signature of all inputs commits to. -/
def spentOutputs (psbt : Psbt) : List TxOut :=
  (psbt.spendUtxos.getD []).filterMap id

/-- Where all spent outputs are given, they are those of the PSBT. -/
theorem taprootTarget_spends {psbt : Psbt} {hashTy : Sighash.TapSighashType} {prevouts : Prevouts}
    (found : (psbt.taprootTarget inputIndex).run = some (.ok (hashTy, prevouts))) :
    ∀ all, prevouts = .all all → all = psbt.spentOutputs := by
  rw [taprootTarget, run_bind_eq_ok] at found
  obtain ⟨algorithm, _, found⟩ := found
  cases algorithm with
  | ecdsa => cases found
  | schnorr =>
    simp only [ne_eq, not_true_eq_false, if_false, run_bind_eq_ok] at found
    obtain ⟨input, _, outputType, _, found⟩ := found
    cases outputType with
    | tr =>
      dsimp only at found
      cases typed : taprootHashTy (input.sighashType.getD 0) with
      | error e =>
        rw [typed] at found
        cases found
      | ok standard =>
        rw [typed] at found
        dsimp only at found
        rw [run_bind_eq_ok] at found
        obtain ⟨utxos, listed, found⟩ := found
        have utxosOf : psbt.spendUtxos = some utxos := by
          cases given : psbt.spendUtxos with
          | none =>
            rw [given] at listed
            cases listed
          | some others =>
            rw [given] at listed
            cases listed
            rfl
        split at found
        · rw [run_bind_eq_ok] at found
          obtain ⟨_ | utxo, _, found⟩ := found
          · cases found
          · cases found
            exact nofun
        · split at found
          · cases found
            rintro all ⟨⟩
            rw [spentOutputs, utxosOf, Option.getD_some]
          · cases found
    | _ => cases found

variable [SighashTag]

theorem taprootSignatureHash_blind {prevouts : Prevouts}
    (spends : ∀ all, prevouts = .all all → all = spent) (leafHash : Option TapLeafHash)
    (sighashType : Sighash.TapSighashType) : Blind spent fun cache =>
      taprootSignatureHash cache inputIndex prevouts leafHash sighashType := by
  have hashed (cache : SighashCache) :
      taprootSignatureHash cache inputIndex prevouts leafHash sighashType =
        engineHash SighashTag.tapSighash (SighashCache.taprootEncodeSigningDataTo inputIndex prevouts
          none (leafHash.map fun hash => (hash, (0xFFFFFFFF : UInt32))) sighashType (cache, [])) := by
    rw [taprootSignatureHash, SighashCache.taprootSignatureHash]
    rcases SighashCache.taprootEncodeSigningDataTo inputIndex prevouts none
      (leafHash.map fun hash => (hash, (0xFFFFFFFF : UInt32))) sighashType
      (cache, ([] : Bytes)) with ⟨((e | e) | _), after, engine⟩ <;> rfl
  simp only [hashed]
  exact .engineHash (SighashCache.taproot_lockstep inputIndex spends none _ sighashType)
    (fun _ => .taproot inputIndex prevouts _ sighashType) _

theorem sighashTaproot_blind (psbt : Psbt) (leafHash : Option TapLeafHash) :
    Blind psbt.spentOutputs (psbt.sighashTaproot inputIndex leafHash) := by
  unfold sighashTaproot
  rcases found : (psbt.taprootTarget inputIndex).run with _ | e | ⟨hashTy, prevouts⟩
  · exact .returns none
  · exact .returns (some (Except.error e))
  · exact (taprootSignatureHash_blind (taprootTarget_spends found) leafHash _).map fun hash =>
      (hash.mapError SignError.taprootError).map fun message => (message, hashTy)

end

/-! Two sessions that differ in signatures only. -/

/-- Equal but for the signatures of their inputs. -/
abbrev SameUnsigned (before before' : Psbt) : Prop := before.withoutSignatures = before'.withoutSignatures

namespace SameUnsigned
variable {before before' : Psbt} {inputIndex : Nat}

theorem unsignedTx (same : SameUnsigned before before') : before'.unsignedTx = before.unsignedTx := by
  have txs := congrArg Psbt.unsignedTx same
  exact txs.symm

theorem listed (same : SameUnsigned before before') (inputIndex : Nat) :
    before'.inputs[inputIndex]?.map Input.withoutSignatures =
      before.inputs[inputIndex]?.map Input.withoutSignatures := by
  have inputs := congrArg (fun psbt : Psbt => psbt.inputs[inputIndex]?) same
  simp only [Psbt.withoutSignatures, List.getElem?_map] at inputs
  exact inputs.symm

theorem signingAlgorithm (same : SameUnsigned before before') :
    before'.signingAlgorithm inputIndex = before.signingAlgorithm inputIndex := by
  rw [← signingAlgorithm_withoutSignatures, ← same, signingAlgorithm_withoutSignatures]

theorem checkedInput (same : SameUnsigned before before') (inputIndex : Nat) :
    Input.withoutSignatures <$> before'.checkedInput inputIndex =
      Input.withoutSignatures <$> before.checkedInput inputIndex := by
  rw [← checkedInput_withoutSignatures, ← same, checkedInput_withoutSignatures]

theorem spentOutputs (same : SameUnsigned before before') :
    before'.spentOutputs = before.spentOutputs := by
  rw [Psbt.spentOutputs, Psbt.spentOutputs, ← spendUtxos_withoutSignatures, ← same,
    spendUtxos_withoutSignatures]

end SameUnsigned

/-- The one session signs `before`, the other one `before'`, on caches that nothing tells
apart. -/
structure Beside (before before' : Psbt) (session session' : Session) : Prop where
  left : session.psbt = before
  right : session'.psbt = before'
  twin : Twin before.spentOutputs session.cache session'.cache

section
variable {before before' : Psbt} {inputIndex : Nat}
open Process

theorem outcome_lockstep {method : Psbt → Signing α} (same : method before = method before')
    (blind : Blind before.spentOutputs (method before)) :
    Lockstep (Beside before before') (outcome method) := by
  rintro ⟨_, cache, drawn⟩ ⟨_, cache', drawn'⟩ ⟨rfl, rfl, twin⟩
  have related := blind cache cache' twin
  simp only [outcome]
  rw [← same]
  generalize method _ cache = after at related ⊢
  generalize method _ cache' = after' at related ⊢
  cases related with
  | none => exact ⟨rfl, rfl, rfl, twin⟩
  | some same => exact ⟨congrArg Except.ok same.value, rfl, rfl, same.twin⟩

variable [Secp256k1.Secrets] [Secp256k1.KeyTweaks] [Secp256k1.Signing]

/-- No random data goes into signatures. -/
def Derandomized : Prop := ∀ (n n' : Nat) (message : ByteArr 32) (pair : Secp256k1.Signing.Keypair),
  Secp256k1.Signing.signSchnorr n message pair = Secp256k1.Signing.signSchnorr n' message pair

theorem signSchnorr_lockstep (derandomized : Derandomized) (message : ByteArr 32)
    (pair : Secp256k1.Signing.Keypair) :
    Lockstep (Beside before before') (signSchnorr message pair) :=
  .update (fun _ _ _ => derandomized _ _ _ _) fun _ _ beside => ⟨beside.left, beside.right, beside.twin⟩

variable [SighashTag] [TweakHash]

omit [Secp256k1.Secrets] [Secp256k1.KeyTweaks] [Secp256k1.Signing] [TweakHash] in
theorem sighashTaproot_lockstep (same : SameUnsigned before before')
    (leafHash : Option TapLeafHash) :
    Lockstep (Beside before before') (outcome fun psbt => psbt.sighashTaproot inputIndex leafHash) := by
  refine outcome_lockstep ?_ (sighashTaproot_blind before leafHash)
  rw [← sighashTaproot_withoutSignatures, same, sighashTaproot_withoutSignatures]

theorem signKeyPath_lockstep (same : SameUnsigned before before')
    (derandomized : Derandomized) (sk : PrivateKey) (xonly : Secp256k1.XOnlyPublicKey)
    (leafHashes : Vec TapLeafHash) (draft : Draft) :
    Lockstep (Beside before before') (signKeyPath inputIndex sk xonly leafHashes draft) := by
  rw [signKeyPath]
  cases draft.1.tapInternalKey with
  | none => exact .pure draft
  | some internalKey =>
    refine .ite ?_ (.pure draft)
    refine (sighashTaproot_lockstep same none).bind fun message => ?_
    refine Lockstep.bind (.ofExcept _) fun (message, sighashType) => ?_
    refine Lockstep.bind (.ofExcept _) fun pair => ?_
    exact (signSchnorr_lockstep derandomized message pair).bind fun signature => .pure _

omit [TweakHash] in
theorem signLeaf_lockstep (same : SameUnsigned before before')
    (derandomized : Derandomized) (sk : PrivateKey) (xonly : Secp256k1.XOnlyPublicKey)
    (input : Input) (leafHash : TapLeafHash) :
    Lockstep (Beside before before') (signLeaf inputIndex sk xonly input leafHash) := by
  refine (sighashTaproot_lockstep same (some leafHash)).bind fun message => ?_
  refine Lockstep.bind (.ofExcept _) fun (message, sighashType) => ?_
  exact (signSchnorr_lockstep derandomized message _).bind fun signature => .pure _

omit [TweakHash] in
theorem signScriptPath_lockstep (same : SameUnsigned before before')
    (derandomized : Derandomized) (sk : PrivateKey) (xonly : Secp256k1.XOnlyPublicKey)
    (draft : Draft) :
    Lockstep (Beside before before') (signScriptPath inputIndex sk xonly draft) := by
  rw [signScriptPath]
  rcases draft.1.tapKeyOrigins[xonly]? with _ | ⟨leafHashes, source⟩
  · exact .pure draft
  · refine .ite (.pure draft) ?_
    exact (Lockstep.foldlM (signLeaf_lockstep same derandomized sk xonly) _ _).bind fun _ => .pure _

theorem signOrigin_lockstep (same : SameUnsigned before before')
    (derandomized : Derandomized) (k : GetKey ε) (draft : Draft)
    (origin : Secp256k1.XOnlyPublicKey × Vec TapLeafHash × KeySource) :
    Lockstep (Beside before before') (signOrigin k inputIndex draft origin) := by
  refine Lockstep.bind (.ofExcept _) fun found => ?_
  cases found with
  | none => exact .pure draft
  | some sk =>
    refine (signKeyPath_lockstep same derandomized sk origin.1 origin.2.1 draft).bind fun draft => ?_
    exact signScriptPath_lockstep same derandomized sk origin.1 draft

end

end
end Litecoin.Psbt
