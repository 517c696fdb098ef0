import Litecoin.Crypto.SighashBinding
import Litecoin.Crypto.SighashLegacy
import Litecoin.Psbt.Funding
import Litecoin.Script.Template

/-! How an input of a PSBT is spent: its output, the type of this output and the message that
is signed for it (`psbt/mod.rs`). -/
namespace Litecoin.Psbt
open Wire Consensus Blockdata Sighash Script

inductive IndexOutOfBoundsError where
  | inputs (index length : Nat)
  | txInput (index length : Nat)
deriving DecidableEq

inductive P2wpkhError where
  | sighash (error : InputsIndexError)
  | notP2wpkhScript
deriving DecidableEq

/-- `SignError`, as far as it is reported. -/
inductive SignError where
  | indexOutOfBounds (error : IndexOutOfBoundsError)
  | invalidSighashType
  | missingRedeemScript
  | missingSpendUtxo
  | missingWitnessScript
  | segwitV0Sighash (error : InputsIndexError)
  | p2wpkhSighash (error : P2wpkhError)
  | taprootError (error : TaprootError)
  | unknownOutputType
  | wrongSigningAlgorithm
  | unsupported
deriving DecidableEq

inductive OutputType where
  | bare
  | wpkh
  | wsh
  | shWpkh
  | shWsh
  | sh
  | tr
deriving DecidableEq

inductive SigningAlgorithm where
  | ecdsa
  | schnorr
deriving DecidableEq

def OutputType.signingAlgorithm : OutputType → SigningAlgorithm
  | .bare | .wpkh | .wsh | .shWpkh | .shWsh | .sh => .ecdsa
  | .tr => .schnorr

/-- Looks something up in a PSBT; the `none` is a panic. -/
abbrev Lookup (α : Type) : Type := ExceptT SignError Option α

/-- The branches of `output_type` on the script that is spent. -/
def OutputType.ofScripts (spk : ScriptBuf) (redeemScript : Option ScriptBuf) : Lookup OutputType := do
  let witnessProgram ← orPanic spk.isWitnessProgram
  let p2sh ← orPanic spk.isP2sh
  if !(witnessProgram || p2sh) then pure .bare
  else if ← orPanic spk.isP2wpkh then pure .wpkh
  else if ← orPanic spk.isP2wsh then pure .wsh
  else if p2sh then
    if ← orPanic ((redeemScript.map ScriptBuf.isP2wpkh).getD (some false)) then pure .shWpkh
    else if ← orPanic ((redeemScript.map ScriptBuf.isP2wsh).getD (some false)) then pure .shWsh
    else pure .sh
  else if ← orPanic spk.isP2tr then pure .tr
  else throw .unknownOutputType

/-- `p2wpkh_script_code`. The slice and the conversion panic unless the script has 22 bytes. -/
def p2wpkhScriptCode (script : ScriptBuf) : Option (Option ScriptBuf) := do
  if ← script.isP2wpkh then
    if size : (script.drop 2).length = 20 then
      let code ← ScriptBuf.newP2pkh ⟨script.drop 2, size⟩
      some (some code)
    else none
  else some none

/-- A script as a vector of its own. -/
def vecOfScript (script : ScriptBuf) : Option ByteVec :=
  if fits : script.length < 2 ^ 64 then some ⟨script, fits⟩ else none

section
variable [Secp256k1] [Hashes]

namespace Input

def redeemScript (input : Input) : Option ScriptBuf := input.fields .redeemScript

def witnessScript (input : Input) : Option ScriptBuf := input.fields .witnessScript

def sighashType (input : Input) : Option UInt32 := input.fields .sighashType

/-- An unset type is `SIGHASH_ALL`. -/
def ecdsaHashTy (input : Input) : Option EcdsaSighashType :=
  (input.sighashType.map fun n => (EcdsaSighashType.fromStandard n).toOption).getD (some .all)

end Input

def checkIndexIsWithinBounds (psbt : Psbt) (inputIndex : Nat) : Except IndexOutOfBoundsError Unit :=
  if psbt.inputs.length ≤ inputIndex then .error (.inputs inputIndex psbt.inputs.length)
  else if psbt.unsignedTx.input.toList.length ≤ inputIndex then
    .error (.txInput inputIndex psbt.unsignedTx.input.toList.length)
  else .ok ()

def checkedInput (psbt : Psbt) (inputIndex : Nat) : Lookup Input := do
  liftM ((psbt.checkIndexIsWithinBounds inputIndex).mapError SignError.indexOutOfBounds)
  orPanic psbt.inputs[inputIndex]?

def spendUtxo (psbt : Psbt) (inputIndex : Nat) : Lookup TxOut := do
  let input ← psbt.checkedInput inputIndex
  match input.witnessUtxo, input.nonWitnessUtxo with
  | some witnessUtxo, _ => pure witnessUtxo
  | none, some nonWitnessUtxo => do
    let txin ← orPanic psbt.unsignedTx.input.toList[inputIndex]?
    orPanic nonWitnessUtxo.output.toList[txin.previousOutput.vout.toNat]?
  | none, none => throw .missingSpendUtxo

def outputType (psbt : Psbt) (inputIndex : Nat) : Lookup OutputType := do
  let input ← psbt.checkedInput inputIndex
  let utxo ← psbt.spendUtxo inputIndex
  OutputType.ofScripts utxo.scriptPubkey.toList input.redeemScript

def signingAlgorithm (psbt : Psbt) (inputIndex : Nat) : Lookup SigningAlgorithm := do
  let outputType ← psbt.outputType inputIndex
  pure outputType.signingAlgorithm

/-- A method that uses a sighash cache; the `none` is a panic. -/
abbrev Signing (α : Type) : Type := SighashCache → Option (Except SignError α × SighashCache)

/-- `p2wsh_signature_hash`; an error of the hash engine panics. -/
def p2wshSignatureHash (cache : SighashCache) (inputIndex : Nat) (scriptCode : ByteVec)
    (value : UInt64) (sighashType : EcdsaSighashType) :
    Option (Except InputsIndexError (ByteArr 32) × SighashCache) :=
  let encoded := SighashCache.segwitV0EncodeSigningDataTo inputIndex scriptCode value sighashType
    (cache, ([] : Bytes))
  match encoded with
  | (.ok (), cache, engine) => some (.ok (Hashes.sha256d engine), cache)
  | (.error (.sighash e), cache, _) => some (.error e, cache)
  | (.error (.io _), _) => none

def p2wpkhSignatureHash (cache : SighashCache) (inputIndex : Nat) (scriptPubkey : ScriptBuf)
    (value : UInt64) (sighashType : EcdsaSighashType) :
    Option (Except P2wpkhError (ByteArr 32) × SighashCache) := do
  match ← p2wpkhScriptCode scriptPubkey with
  | none => some (.error .notP2wpkhScript, cache)
  | some scriptCode =>
    let scriptCode ← vecOfScript scriptCode
    let (hash, cache) ← p2wshSignatureHash cache inputIndex scriptCode value sighashType
    some (hash.mapError .sighash, cache)

/-- `legacy_signature_hash` and `expect("input checked above")`. -/
def expectLegacyHash (cache : SighashCache) (inputIndex : Nat) (script : ByteVec)
    (sighashType : EcdsaSighashType) : Option (ByteArr 32) := do
  let hash ← cache.legacySignatureHash inputIndex script sighashType.toU32
  hash.toOption

/-- The message for an output of a known type. -/
def ecdsaMessage (input : Input) (utxo : TxOut) (hashTy : EcdsaSighashType) (inputIndex : Nat)
    (outputType : OutputType) : Signing (ByteArr 32) := fun cache => do
  match outputType with
  | .bare =>
    let sighash ← expectLegacyHash cache inputIndex utxo.scriptPubkey hashTy
    some (.ok sighash, cache)
  | .sh => match input.redeemScript with
    | none => some (.error .missingRedeemScript, cache)
    | some scriptCode =>
      let scriptCode ← vecOfScript scriptCode
      let sighash ← expectLegacyHash cache inputIndex scriptCode hashTy
      some (.ok sighash, cache)
  | .wpkh =>
    let (sighash, cache) ← p2wpkhSignatureHash cache inputIndex utxo.scriptPubkey.toList utxo.value
      hashTy
    some (sighash.mapError .p2wpkhSighash, cache)
  | .shWpkh =>
    -- `expect("checked above")`
    let redeemScript ← input.redeemScript
    let (sighash, cache) ← p2wpkhSignatureHash cache inputIndex redeemScript utxo.value hashTy
    some (sighash.mapError .p2wpkhSighash, cache)
  | .wsh | .shWsh => match input.witnessScript with
    | none => some (.error .missingWitnessScript, cache)
    | some witnessScript =>
      let witnessScript ← vecOfScript witnessScript
      let (sighash, cache) ← p2wshSignatureHash cache inputIndex witnessScript utxo.value hashTy
      some (sighash.mapError .segwitV0Sighash, cache)
  | .tr => some (.error .unsupported, cache)

/-- The lookups of `sighash_ecdsa` before its last match. -/
def ecdsaTarget (psbt : Psbt) (inputIndex : Nat) :
    Lookup (Input × TxOut × EcdsaSighashType × OutputType) := do
  let algorithm ← psbt.signingAlgorithm inputIndex
  if algorithm ≠ .ecdsa then throw .wrongSigningAlgorithm
  let input ← psbt.checkedInput inputIndex
  let utxo ← psbt.spendUtxo inputIndex
  match input.ecdsaHashTy with
  | none => throw .invalidSighashType
  | some hashTy => do
    let outputType ← psbt.outputType inputIndex
    pure (input, utxo, hashTy, outputType)

def sighashEcdsa (psbt : Psbt) (inputIndex : Nat) : Signing (ByteArr 32 × EcdsaSighashType) :=
  fun cache => do
    match ← (psbt.ecdsaTarget inputIndex).run with
    | .error e => some (.error e, cache)
    | .ok (input, utxo, hashTy, outputType) =>
      let (message, cache) ← ecdsaMessage input utxo hashTy inputIndex outputType cache
      some (message.map fun message => (message, hashTy), cache)

end

/-! Which calls return. -/

namespace OutputType

/-- A redeem script that is neither of the nested witness programs. -/
def PlainRedeem (script : ScriptBuf) : Prop :=
  script.isP2wpkh = some false ∧ script.isP2wsh = some false

theorem isP2wpkh_cases (script : ScriptBuf) : script.isP2wpkh = some true ∨ script.isP2wpkh =
    some false :=
  ScriptBuf.test_cases (script.isVersioned_returns (by decide) _ _)

theorem isP2wsh_cases (script : ScriptBuf) : script.isP2wsh = some true ∨ script.isP2wsh = some false :=
  ScriptBuf.test_cases (script.isVersioned_returns (by decide) _ _)

theorem isP2tr_cases (script : ScriptBuf) : script.isP2tr = some true ∨ script.isP2tr = some false :=
  ScriptBuf.test_cases (script.isVersioned_returns (by decide) _ _)

/-- The type of an output, as the scripts tell it. -/
inductive Of (spk : ScriptBuf) (redeemScript : Option ScriptBuf) : Except SignError OutputType →
    Prop where
  | bare (plain : spk.isWitnessProgram = some false) (noP2sh : spk.isP2sh = some false) :
      Of spk redeemScript (.ok .bare)
  | wpkh (program : spk.isWitnessProgram = some true) (noP2sh : spk.isP2sh = some false)
      (p2wpkh : spk.isP2wpkh = some true) : Of spk redeemScript (.ok .wpkh)
  | wsh (program : spk.isWitnessProgram = some true) (noP2sh : spk.isP2sh = some false) :
      Of spk redeemScript (.ok .wsh)
  | shWpkh {script : ScriptBuf} (p2sh : spk.isP2sh = some true) (redeem : redeemScript = some script)
      (p2wpkh : script.isP2wpkh = some true) : Of spk redeemScript (.ok .shWpkh)
  | shWsh {script : ScriptBuf} (p2sh : spk.isP2sh = some true) (redeem : redeemScript = some script)
      (p2wsh : script.isP2wsh = some true) : Of spk redeemScript (.ok .shWsh)
  | sh (p2sh : spk.isP2sh = some true) (plain : ∀ script ∈ redeemScript, PlainRedeem script) :
      Of spk redeemScript (.ok .sh)
  | tr (program : spk.isWitnessProgram = some true) (noP2sh : spk.isP2sh = some false) :
      Of spk redeemScript (.ok .tr)
  | unknown (program : spk.isWitnessProgram = some true) (noP2sh : spk.isP2sh = some false) :
      Of spk redeemScript (.error .unknownOutputType)

theorem ofScripts_of (spk : ScriptBuf) (redeemScript : Option ScriptBuf) :
    ∃ result, (ofScripts spk redeemScript).run = some result ∧ Of spk redeemScript result := by
  rcases ScriptBuf.test_cases spk.isP2sh_returns with p2sh | p2sh
  · have size : spk.length = 23 := by
      obtain ⟨hash, rfl⟩ := ScriptBuf.isP2sh_eq_true.mp p2sh
      exact (by simp [ScriptBuf.p2shBytes, hash.property])
    have notWpkh : spk.isP2wpkh = some false := ScriptBuf.isVersioned_eq_false (by omega) _ _
    have notWsh : spk.isP2wsh = some false := ScriptBuf.isVersioned_eq_false (by omega) _ _
    have nested : ofScripts spk redeemScript = (do
        if ← orPanic ((redeemScript.map ScriptBuf.isP2wpkh).getD (some false)) then pure .shWpkh
        else if ← orPanic ((redeemScript.map ScriptBuf.isP2wsh).getD (some false)) then pure .shWsh
        else pure .sh) := by
      rcases ScriptBuf.test_cases spk.isWitnessProgram_returns with program | program
      · simp [ofScripts, program, p2sh, notWpkh, notWsh, orPanic_bind]
      · simp [ofScripts, program, p2sh, notWpkh, notWsh, orPanic_bind]
    rw [nested]
    cases redeemScript with
    | none => exact ⟨_, rfl, .sh p2sh fun _ absent => absurd absent (Option.not_mem_none _)⟩
    | some script =>
      rcases isP2wpkh_cases script with p2wpkh | p2wpkh
      · exact ⟨.ok .shWpkh, by simp [p2wpkh, orPanic_bind], .shWpkh p2sh rfl p2wpkh⟩
      · rcases isP2wsh_cases script with p2wsh | p2wsh
        · exact ⟨.ok .shWsh, by simp [p2wpkh, p2wsh, orPanic_bind], .shWsh p2sh rfl p2wsh⟩
        · refine ⟨.ok .sh, by simp [p2wpkh, p2wsh, orPanic_bind], .sh p2sh ?_⟩
          rintro _ ⟨⟩
          exact ⟨p2wpkh, p2wsh⟩
  · rcases ScriptBuf.test_cases spk.isWitnessProgram_returns with program | program
    · rcases isP2wpkh_cases spk with p2wpkh | p2wpkh
      · exact ⟨.ok .wpkh, by simp [ofScripts, program, p2sh, p2wpkh, orPanic_bind],
          .wpkh program p2sh p2wpkh⟩
      rcases isP2wsh_cases spk with p2wsh | p2wsh
      · exact ⟨.ok .wsh, by simp [ofScripts, program, p2sh, p2wpkh, p2wsh, orPanic_bind],
          .wsh program p2sh⟩
      rcases isP2tr_cases spk with p2tr | p2tr
      · exact ⟨.ok .tr, by simp [ofScripts, program, p2sh, p2wpkh, p2wsh, p2tr, orPanic_bind],
          .tr program p2sh⟩
      · refine ⟨.error .unknownOutputType, ?_, .unknown program p2sh⟩
        simp [ofScripts, program, p2sh, p2wpkh, p2wsh, p2tr, orPanic_bind]
    · exact ⟨.ok .bare, by simp [ofScripts, program, p2sh, orPanic_bind], .bare program p2sh⟩

end OutputType

section
variable [Secp256k1] [Hashes] {psbt : Psbt} {inputIndex : Nat} {spend : TxIn × Input}

/-- The inputs with their maps. -/
def spends (psbt : Psbt) : List (TxIn × Input) := psbt.unsignedTx.input.toList.zip psbt.inputs

theorem spends_eq_some (listed : psbt.spends[inputIndex]? = some spend) :
    psbt.unsignedTx.input.toList[inputIndex]? = some spend.1 ∧ psbt.inputs[inputIndex]? =
      some spend.2 :=
  List.getElem?_zip_eq_some.mp listed

theorem spends_none (same : psbt.inputs.length = psbt.unsignedTx.input.toList.length) :
    psbt.spends[inputIndex]? = none ↔ psbt.inputs.length ≤ inputIndex := by
  rw [List.getElem?_eq_none_iff, spends, List.length_zip, ← same, Nat.min_self]

theorem checkedInput_run (listed : psbt.spends[inputIndex]? = some spend) :
    (psbt.checkedInput inputIndex).run = some (.ok spend.2) := by
  obtain ⟨input, map⟩ := spends_eq_some listed
  have inputs := (List.getElem?_eq_some_iff.mp map).1
  have txInputs := (List.getElem?_eq_some_iff.mp input).1
  rw [checkedInput, checkIndexIsWithinBounds, if_neg (Nat.not_le.mpr inputs),
    if_neg (Nat.not_le.mpr txInputs), map]
  rfl

theorem checkedInput_out (out : psbt.inputs.length ≤ inputIndex) :
    (psbt.checkedInput inputIndex).run =
      some (.error (.indexOutOfBounds (.inputs inputIndex psbt.inputs.length))) := by
  rw [checkedInput, checkIndexIsWithinBounds, if_pos out]
  rfl

/-- The signer's lookup against the one of the fee. -/
theorem spendUtxo_run (listed : psbt.spends[inputIndex]? = some spend) :
    (psbt.spendUtxo inputIndex).run = match fundingUtxo spend.1 spend.2 with
      | .ok utxo => some (.ok utxo)
      | .error .psbtUtxoOutOfbounds => none
      | .error _ => some (.error .missingSpendUtxo) := by
  have looked : psbt.spendUtxo inputIndex = (match spend.2.witnessUtxo, spend.2.nonWitnessUtxo with
      | some witnessUtxo, _ => pure witnessUtxo
      | none, some nonWitnessUtxo => do
        let txin ← orPanic psbt.unsignedTx.input.toList[inputIndex]?
        orPanic nonWitnessUtxo.output.toList[txin.previousOutput.vout.toNat]?
      | none, none => throw .missingSpendUtxo : Lookup TxOut) := by
    have checked : psbt.checkedInput inputIndex = pure spend.2 := checkedInput_run listed
    rw [spendUtxo, checked, pure_bind]
  rw [looked, fundingUtxo, (spends_eq_some listed).1]
  cases spend.2.witnessUtxo with
  | some witnessUtxo => rfl
  | none =>
    cases spend.2.nonWitnessUtxo with
    | none => rfl
    | some tx =>
      cases found : tx.output.toList[spend.1.previousOutput.vout.toNat]? <;>
        simp only [orPanic_bind, found] <;> rfl

theorem spendUtxo_out (out : psbt.inputs.length ≤ inputIndex) :
    (psbt.spendUtxo inputIndex).run =
      some (.error (.indexOutOfBounds (.inputs inputIndex psbt.inputs.length))) := by
  have checked : psbt.checkedInput inputIndex =
      throw (.indexOutOfBounds (.inputs inputIndex psbt.inputs.length)) := checkedInput_out out
  rw [spendUtxo, checked]
  rfl

/-- The input has nothing to look at but an output that is not there. -/
def DanglingAt (psbt : Psbt) (inputIndex : Nat) : Prop :=
  ∃ spend, psbt.spends[inputIndex]? = some spend ∧ Dangling spend

theorem spendUtxo_panics_iff (same : psbt.inputs.length = psbt.unsignedTx.input.toList.length) :
    (psbt.spendUtxo inputIndex).run = none ↔ psbt.DanglingAt inputIndex := by
  cases listed : psbt.spends[inputIndex]? with
  | none =>
    rw [spendUtxo_out ((spends_none same).mp listed)]
    simp [DanglingAt, listed]
  | some spend =>
    rw [spendUtxo_run listed, DanglingAt]
    simp only [listed, Option.some.injEq, exists_eq_left', ← fundingUtxo_eq_outOfbounds]
    cases fundingUtxo spend.1 spend.2 with
    | ok utxo => simp
    | error e => cases e <;> simp

/-- The signer finds what the fee looks at. -/
theorem spendUtxo_funds (same : psbt.inputs.length = psbt.unsignedTx.input.toList.length)
    (found : (psbt.spendUtxo inputIndex).run = some (.ok utxo)) :
    ∃ spend, psbt.spends[inputIndex]? = some spend ∧ Funds spend utxo := by
  cases listed : psbt.spends[inputIndex]? with
  | none =>
    rw [spendUtxo_out ((spends_none same).mp listed)] at found
    exact absurd (Option.some.inj found) nofun
  | some spend =>
    refine ⟨spend, rfl, fundingUtxo_eq_ok.mp ?_⟩
    rw [spendUtxo_run listed] at found
    cases looked : fundingUtxo spend.1 spend.2 with
    | ok other =>
      rw [looked] at found
      rw [Except.ok.inj (Option.some.inj found)]
    | error e =>
      rw [looked] at found
      cases e <;> simp at found

theorem iterFundingUtxos_item (same : psbt.inputs.length = psbt.unsignedTx.input.toList.length)
    (listed : psbt.spends[inputIndex]? = some spend) :
    ∃ items, psbt.iterFundingUtxos = some items ∧
      items[inputIndex]? = some (fundingUtxo spend.1 spend.2) := by
  obtain ⟨input, map⟩ := spends_eq_some listed
  refine ⟨_, if_pos same, ?_⟩
  rw [List.getElem?_zipWith, input, map]

theorem outputType_run (listed : psbt.spends[inputIndex]? = some spend)
    (found : (psbt.spendUtxo inputIndex).run = some (.ok utxo)) :
    psbt.outputType inputIndex =
      OutputType.ofScripts utxo.scriptPubkey.toList spend.2.redeemScript := by
  have checked : psbt.checkedInput inputIndex = pure spend.2 := checkedInput_run listed
  have looked : psbt.spendUtxo inputIndex = pure utxo := found
  rw [outputType, checked, pure_bind, looked, pure_bind]

/-- Messages are refused for missing scripts, not for what the hash engine does. -/
theorem segwitV0_failsWith (inputIndex : Nat) (scriptCode : ByteVec) (value : UInt64)
    (sighashType : EcdsaSighashType) :
    (SighashCache.segwitV0EncodeSigningDataTo inputIndex scriptCode value sighashType :
      Sighasher Bytes InputsIndexError Unit).FailsWith fun error => ∃ e, error = .sighash e := by
  have written {emit : Emission IoError} {bytes : Bytes} (emits : emit = .written bytes) :
      (SighashCache.write emit : Sighasher Bytes InputsIndexError Unit).FailsWith
        fun error => ∃ e, error = .sighash e := by
    subst emits
    exact .of_ok fun (cache, log) => ⟨(), (cache, log ++ bytes), rfl⟩
  have hash {committed : Prop} [Decidable committed] {part : SegwitCache → ByteArr 32} :
      (SighashCache.writeHash committed part : Sighasher Bytes InputsIndexError Unit).FailsWith
        fun error => ∃ e, error = .sighash e :=
    .ite (.bind (.of_ok fun _ => ⟨_, _, rfl⟩) fun _ => written (array_emits _))
      (written (array_emits _))
  have outputs (sighash : EcdsaSighashType) :
      (SighashCache.writeOutputsHash inputIndex sighash :
        Sighasher Bytes InputsIndexError Unit).FailsWith fun error => ∃ e, error = .sighash e :=
    .ite (.bind (.of_ok fun _ => ⟨_, _, rfl⟩) fun _ => written (array_emits _)) hash
  refine .bind (.of_ok fun _ => ⟨_, _, rfl⟩) fun tx => ?_
  refine .bind (written (readI32_codec.emits _)) fun _ => ?_
  refine .bind hash fun _ => ?_
  refine .bind hash fun _ => ?_
  refine .bind (.ofExcept fun e failed => ?_) fun txin => ?_
  · rcases looked : txIn tx inputIndex with error | txin
    · rw [looked] at failed
      exact ⟨error, (Except.error.inj failed).symm⟩
    · rw [looked] at failed
      contradiction
  refine .bind (written (OutPoint.codec.emits _)) fun _ => ?_
  refine .bind (written (bytes_codec.emits _)) fun _ => ?_
  refine .bind (written (readU64_codec.emits _)) fun _ => ?_
  refine .bind (written (readU32_codec.emits _)) fun _ => ?_
  refine .bind (outputs _) fun _ => ?_
  exact .bind (written (LockTime.codec.emits _)) fun _ => written (readU32_codec.emits _)

theorem p2wshSignatureHash_returns (cache : SighashCache) (inputIndex : Nat) (scriptCode : ByteVec)
    (value : UInt64) (sighashType : EcdsaSighashType) :
    ∃ result, p2wshSignatureHash cache inputIndex scriptCode value sighashType = some result := by
  rw [p2wshSignatureHash]
  rcases encoded : SighashCache.segwitV0EncodeSigningDataTo inputIndex scriptCode value sighashType
    (cache, ([] : Bytes)) with ⟨(error | _), after, engine⟩
  · obtain ⟨e, rfl⟩ := segwitV0_failsWith inputIndex scriptCode value sighashType _ _ _ encoded
    exact ⟨_, rfl⟩
  · exact ⟨_, rfl⟩

omit [Secp256k1] [Hashes] in
/-- A key hash is taken from every script that is told to have one. -/
theorem p2wpkhScriptCode_eq {script : ScriptBuf} (p2wpkh : script.isP2wpkh = some true) :
    ∃ code, p2wpkhScriptCode script = some (some code) ∧ code.length < 2 ^ 64 := by
  have size : (script.drop 2).length = 20 := by
    have whole := ScriptBuf.isVersioned_length p2wpkh
    rw [List.length_drop, whole]
  refine ⟨ScriptBuf.p2pkhBytes ⟨script.drop 2, size⟩, ?_, ?_⟩
  · simp only [p2wpkhScriptCode, p2wpkh, Option.bind_eq_bind, Option.bind_some, if_true, dif_pos size,
      ScriptBuf.newP2pkh_eq]
  · rw [ScriptBuf.p2pkhBytes, List.length_append, List.length_append, size]
    decide

theorem p2wpkhSignatureHash_returns {script : ScriptBuf} (p2wpkh : script.isP2wpkh = some true)
    (cache : SighashCache) (inputIndex : Nat) (value : UInt64) (sighashType : EcdsaSighashType) :
    ∃ result, p2wpkhSignatureHash cache inputIndex script value sighashType = some result := by
  obtain ⟨code, coded, fits⟩ := p2wpkhScriptCode_eq p2wpkh
  obtain ⟨⟨hash, after⟩, hashed⟩ := p2wshSignatureHash_returns cache inputIndex ⟨code, fits⟩ value
    sighashType
  refine ⟨(hash.mapError .sighash, after), ?_⟩
  simp only [p2wpkhSignatureHash, coded, vecOfScript, dif_pos fits, hashed, Option.bind_eq_bind,
    Option.bind_some]

/-- Nothing but the input has to be there. -/
theorem legacySignatureHash_returns_iff (cache : SighashCache) (inputIndex : Nat) (script : ByteVec)
    (sighashType : UInt32) :
    (∃ hash, cache.legacySignatureHash inputIndex script sighashType = some (.ok hash)) ↔
      inputIndex < cache.tx.input.toList.length := by
  rw [SighashCache.legacySignatureHash, SighashCache.legacyEncodeSigningDataTo]
  cases found : txIn cache.tx inputIndex with
  | error e =>
    have missing : cache.tx.input.toList[inputIndex]? = none := by
      rw [txIn] at found
      split at found
      · contradiction
      · assumption
    simpa using List.getElem?_eq_none_iff.mp missing
  | ok txin =>
    have inside := (List.getElem?_eq_some_iff.mp (txIn_eq_ok.mp found)).1
    have complete := (legacyTransaction_plain found script sighashType).complete
    simp only [inside, iff_true, Transaction.consensusEncode_eq complete, readU32_codec.emits,
      SighashCache.write_bind, SighashCache.write_written]
    cases isInvalidUseOfSighashSingle sighashType inputIndex cache.tx.output.toList.length
    · exact ⟨_, rfl⟩
    · exact ⟨_, rfl⟩

theorem expectLegacyHash_isSome {cache : SighashCache} {script : ByteVec}
    {sighashType : EcdsaSighashType} :
    (expectLegacyHash cache inputIndex script sighashType).isSome ↔
      inputIndex < cache.tx.input.toList.length := by
  rw [← legacySignatureHash_returns_iff cache inputIndex script sighashType.toU32, expectLegacyHash]
  rcases cache.legacySignatureHash inputIndex script sighashType.toU32 with _ | _ | hash
  · simp
  · simp [Except.toOption]
  · simp [Except.toOption]

omit [Secp256k1] [Hashes] in
theorem vecOfScript_eq {script : ScriptBuf} (short : script.length ≤ maxVecSize) :
    ∃ vec, vecOfScript script = some vec :=
  ⟨_, dif_pos (short.trans_lt (by decide))⟩

theorem Input.redeemScript_short {input : Input} (read : input.Read) :
    ∀ script ∈ input.redeemScript, script.length ≤ maxVecSize := by
  intro script found
  obtain ⟨data, short, same⟩ := read .redeemScript script found
  obtain rfl : data = script := Except.ok.inj same
  exact (sizedWire_short.mp short).trans (Nat.sub_le _ _)

theorem Input.witnessScript_short {input : Input} (read : input.Read) :
    ∀ script ∈ input.witnessScript, script.length ≤ maxVecSize := by
  intro script found
  obtain ⟨data, short, same⟩ := read .witnessScript script found
  obtain rfl : data = script := Except.ok.inj same
  exact (sizedWire_short.mp short).trans (Nat.sub_le _ _)

/-- The legacy algorithm is chosen for the input, and a script to sign with it is there. -/
def LegacySigned (input : Input) (utxo : TxOut) : Prop :=
  ScriptBuf.isWitnessProgram utxo.scriptPubkey.toList = some false ∧
      ScriptBuf.isP2sh utxo.scriptPubkey.toList = some false ∨
    ScriptBuf.isP2sh utxo.scriptPubkey.toList = some true ∧
      ∃ script, input.redeemScript = some script ∧ OutputType.PlainRedeem script

/-- A message panics only where the legacy algorithm finds no input. -/
theorem ecdsaMessage_panics_iff {input : Input} {utxo : TxOut} {outputType : OutputType}
    (read : input.Read)
    (of : OutputType.Of utxo.scriptPubkey.toList input.redeemScript (.ok outputType))
    (hashTy : EcdsaSighashType) (cache : SighashCache) :
    ecdsaMessage input utxo hashTy inputIndex outputType cache = none ↔
      LegacySigned input utxo ∧ cache.tx.input.toList.length ≤ inputIndex := by
  have legacy (script : ByteVec) : (do
      let sighash ← expectLegacyHash cache inputIndex script hashTy
      some (.ok sighash, cache) : Option (Except SignError (ByteArr 32) × SighashCache)) = none ↔
      cache.tx.input.toList.length ≤ inputIndex := by
    rw [← Nat.not_lt, ← expectLegacyHash_isSome]
    cases expectLegacyHash cache inputIndex script hashTy <;> simp
  have segwit {script : ScriptBuf} (short : script.length ≤ maxVecSize) : (do
      let witnessScript ← vecOfScript script
      let (sighash, cache) ← p2wshSignatureHash cache inputIndex witnessScript utxo.value hashTy
      some (sighash.mapError .segwitV0Sighash, cache) :
        Option (Except SignError (ByteArr 32) × SighashCache)) ≠ none := by
    obtain ⟨vec, allocated⟩ := vecOfScript_eq short
    obtain ⟨hash, hashed⟩ := p2wshSignatureHash_returns cache inputIndex vec utxo.value hashTy
    simp [allocated, hashed]
  cases of with
  | bare plain noP2sh => simp only [ecdsaMessage, legacy, LegacySigned, plain, noP2sh, and_self,
    true_or, true_and]
  | wpkh program noP2sh p2wpkh =>
    obtain ⟨hash, hashed⟩ := p2wpkhSignatureHash_returns p2wpkh cache inputIndex utxo.value hashTy
    simp [ecdsaMessage, hashed, LegacySigned, program, noP2sh]
  | wsh program noP2sh =>
    simp only [ecdsaMessage, LegacySigned, program, noP2sh]
    cases found : input.witnessScript with
    | none => simp
    | some script => simpa using segwit (Input.witnessScript_short read script found)
  | shWpkh p2sh redeem p2wpkh =>
    obtain ⟨hash, hashed⟩ := p2wpkhSignatureHash_returns p2wpkh cache inputIndex utxo.value hashTy
    simp [ecdsaMessage, redeem, hashed, LegacySigned, p2sh, OutputType.PlainRedeem, p2wpkh]
  | shWsh p2sh redeem p2wsh =>
    simp only [ecdsaMessage, LegacySigned, p2sh, redeem]
    cases found : input.witnessScript with
    | none => simp [OutputType.PlainRedeem, p2wsh]
    | some script =>
      simpa [OutputType.PlainRedeem, p2wsh] using segwit (Input.witnessScript_short read script found)
  | sh p2sh plain =>
    simp only [ecdsaMessage, LegacySigned, p2sh]
    cases found : input.redeemScript with
    | none => simp
    | some script =>
      obtain ⟨vec, allocated⟩ := vecOfScript_eq (Input.redeemScript_short read script found)
      simpa [allocated, plain script found] using legacy vec
  | tr program noP2sh => simp [ecdsaMessage, LegacySigned, program, noP2sh]

/-- What the lookups of `sighash_ecdsa` find, once the output is known. -/
theorem ecdsaTarget_run {result : Except SignError OutputType}
    (listed : psbt.spends[inputIndex]? = some spend)
    (found : (psbt.spendUtxo inputIndex).run = some (.ok utxo)) :
    (OutputType.ofScripts utxo.scriptPubkey.toList spend.2.redeemScript).run = some result →
    (psbt.ecdsaTarget inputIndex).run = match result, spend.2.ecdsaHashTy with
      | .error e, _ => some (.error e)
      | .ok .tr, _ => some (.error .wrongSigningAlgorithm)
      | .ok _, none => some (.error .invalidSighashType)
      | .ok outputType, some hashTy => some (.ok (spend.2, utxo, hashTy, outputType)) := by
  intro typed
  have checked : psbt.checkedInput inputIndex = pure spend.2 := checkedInput_run listed
  have looked : psbt.spendUtxo inputIndex = pure utxo := found
  have type := outputType_run listed found
  rw [ecdsaTarget, signingAlgorithm, type, checked, looked]
  cases result with
  | error e =>
    have failed : OutputType.ofScripts utxo.scriptPubkey.toList spend.2.redeemScript = throw e := typed
    rw [failed]
    rfl
  | ok outputType =>
    have told : OutputType.ofScripts utxo.scriptPubkey.toList spend.2.redeemScript = pure outputType :=
      typed
    rw [told]
    cases outputType <;> cases hashTy : spend.2.ecdsaHashTy <;>
      simp [OutputType.signingAlgorithm, hashTy]

/-- The input is signed with the legacy algorithm. -/
def LegacyAt (psbt : Psbt) (inputIndex : Nat) : Prop :=
  ∃ spend utxo, psbt.spends[inputIndex]? = some spend ∧ Funds spend utxo ∧
    spend.2.ecdsaHashTy ≠ none ∧ LegacySigned spend.2 utxo

theorem Funds.unique {spend : TxIn × Input} (funds : Funds spend utxo) (also : Funds spend other) :
    utxo = other :=
  Except.ok.inj ((fundingUtxo_eq_ok.mpr funds).symm.trans (fundingUtxo_eq_ok.mpr also))

theorem sighashEcdsa_panics_iff (same : psbt.inputs.length = psbt.unsignedTx.input.toList.length)
    (read : ∀ input ∈ psbt.inputs, input.Read) (cache : SighashCache) :
    psbt.sighashEcdsa inputIndex cache = none ↔ psbt.DanglingAt inputIndex ∨
      psbt.LegacyAt inputIndex ∧ cache.tx.input.toList.length ≤ inputIndex := by
  cases listed : psbt.spends[inputIndex]? with
  | none =>
    have out := (spends_none same).mp listed
    have checked : psbt.checkedInput inputIndex =
        throw (.indexOutOfBounds (.inputs inputIndex psbt.inputs.length)) := checkedInput_out out
    have target : (psbt.ecdsaTarget inputIndex).run =
        some (.error (.indexOutOfBounds (.inputs inputIndex psbt.inputs.length))) := by
      rw [ecdsaTarget, signingAlgorithm, outputType, checked]
      rfl
    simp [sighashEcdsa, target, DanglingAt, LegacyAt, listed]
  | some spend =>
    have inside : spend.2 ∈ psbt.inputs := List.mem_of_getElem? (spends_eq_some listed).2
    have looked := spendUtxo_run listed
    cases funding : fundingUtxo spend.1 spend.2 with
    | error e =>
      have none_ (utxo : TxOut) : ¬ Funds spend utxo := fun funds => by
        rw [fundingUtxo_eq_ok.mpr funds] at funding
        contradiction
      rw [funding] at looked
      have legacy : ¬ psbt.LegacyAt inputIndex := by
        rintro ⟨_, utxo, also, funds, _⟩
        obtain rfl := Option.some.inj (listed.symm.trans also)
        exact none_ utxo funds
      have checked : psbt.checkedInput inputIndex = pure spend.2 := checkedInput_run listed
      have dangling : psbt.DanglingAt inputIndex ↔ e = .psbtUtxoOutOfbounds := by
        simp only [DanglingAt, listed, Option.some.injEq, exists_eq_left', ← fundingUtxo_eq_outOfbounds,
          funding, Except.error.injEq]
      cases e with
      | psbtUtxoOutOfbounds =>
        have panics : psbt.spendUtxo inputIndex = orPanic none := looked
        have target : (psbt.ecdsaTarget inputIndex).run = none := by
          rw [ecdsaTarget, signingAlgorithm, outputType, checked, panics]
          rfl
        simp [sighashEcdsa, target, dangling]
      | missingUtxo | negativeFee | feeOverflow =>
        have missing : psbt.spendUtxo inputIndex = throw .missingSpendUtxo := looked
        have target : (psbt.ecdsaTarget inputIndex).run = some (.error .missingSpendUtxo) := by
          rw [ecdsaTarget, signingAlgorithm, outputType, checked, missing]
          rfl
        simp [sighashEcdsa, target, dangling, legacy]
    | ok utxo =>
      rw [funding] at looked
      obtain ⟨result, typed, of⟩ :=
        OutputType.ofScripts_of utxo.scriptPubkey.toList spend.2.redeemScript
      have target := ecdsaTarget_run listed looked typed
      have funds := fundingUtxo_eq_ok.mp funding
      have dangling : ¬ psbt.DanglingAt inputIndex := by
        rintro ⟨_, also, dangling⟩
        obtain rfl := Option.some.inj (listed.symm.trans also)
        rw [fundingUtxo_eq_outOfbounds.mpr dangling] at funding
        contradiction
      have legacy : psbt.LegacyAt inputIndex ↔
          spend.2.ecdsaHashTy ≠ none ∧ LegacySigned spend.2 utxo := by
        constructor
        · rintro ⟨_, other, also, spent, signed⟩
          obtain rfl := Option.some.inj (listed.symm.trans also)
          obtain rfl := funds.unique spent
          exact signed
        · rintro ⟨standard, signed⟩
          exact ⟨spend, utxo, listed, funds, standard, signed⟩
      rw [legacy]
      simp only [dangling, false_or]
      cases result with
      | error e =>
        have unsigned : ¬ LegacySigned spend.2 utxo := by
          cases of with
          | unknown program noP2sh => simp [LegacySigned, program, noP2sh]
        simp [sighashEcdsa, target, unsigned]
      | ok outputType =>
        cases hashTy' : spend.2.ecdsaHashTy with
        | none =>
          rw [hashTy'] at target
          cases outputType <;> simp [sighashEcdsa, target]
        | some hashTy =>
          rw [hashTy'] at target
          have message : ecdsaMessage spend.2 utxo hashTy inputIndex outputType cache = none ↔ _ :=
            ecdsaMessage_panics_iff (read _ inside) of hashTy cache
          simp only [ne_eq, reduceCtorEq, not_false_eq_true, true_and, ← message]
          rcases eq_or_ne outputType .tr with rfl | ecdsa
          · simp [sighashEcdsa, target, ecdsaMessage]
          · have reached : (psbt.ecdsaTarget inputIndex).run =
                some (.ok (spend.2, utxo, hashTy, outputType)) := by
              rw [target]
              cases outputType
              case tr => contradiction
              all_goals rfl
            rw [sighashEcdsa, reached]
            cases computed : ecdsaMessage spend.2 utxo hashTy inputIndex outputType cache <;>
              simp [computed]

/-- What is asked of the lookups for one input, with a sighash cache. -/
structure Resolves (psbt : Psbt) (inputIndex : Nat) (cache : SighashCache) : Prop where
  spendUtxo : (psbt.spendUtxo inputIndex).run ≠ none
  outputType : (psbt.outputType inputIndex).run ≠ none
  sighashEcdsa : psbt.sighashEcdsa inputIndex cache ≠ none
  agrees : ∀ utxo, (psbt.spendUtxo inputIndex).run = some (.ok utxo) →
    ∃ items, psbt.iterFundingUtxos = some items ∧ items[inputIndex]? = some (.ok utxo)

/-- Nothing panics exactly when the spent output is there and a legacy message is asked of
a cache for a transaction that has the input. -/
theorem resolves_iff (accepted : deserialize data = .ok psbt) (inputIndex : Nat)
    (cache : SighashCache) : psbt.Resolves inputIndex cache ↔
      ¬ psbt.DanglingAt inputIndex ∧
        (psbt.LegacyAt inputIndex → inputIndex < cache.tx.input.toList.length) := by
  obtain ⟨same, read⟩ := deserialize_inputs accepted
  have panics : psbt.sighashEcdsa inputIndex cache = none ↔ _ :=
    sighashEcdsa_panics_iff same read cache
  constructor
  · rintro ⟨returns, _, hashes, _⟩
    rw [Ne, spendUtxo_panics_iff same] at returns
    rw [Ne, panics] at hashes
    refine ⟨returns, fun legacy => ?_⟩
    by_contra beyond
    exact hashes (.inr ⟨legacy, Nat.le_of_not_lt beyond⟩)
  · rintro ⟨there, inside⟩
    have returns : (psbt.spendUtxo inputIndex).run ≠ none := by
      rwa [Ne, spendUtxo_panics_iff same]
    refine ⟨returns, ?_, ?_, ?_⟩
    · intro stopped
      cases listed : psbt.spends[inputIndex]? with
      | none =>
        have checked : psbt.checkedInput inputIndex =
            throw (.indexOutOfBounds (.inputs inputIndex psbt.inputs.length)) :=
          checkedInput_out ((spends_none same).mp listed)
        rw [outputType, checked] at stopped
        contradiction
      | some spend =>
        have checked : psbt.checkedInput inputIndex = pure spend.2 := checkedInput_run listed
        cases looked : (psbt.spendUtxo inputIndex).run with
        | none => exact returns looked
        | some result => cases result with
          | error e =>
            have failed : psbt.spendUtxo inputIndex = throw e := looked
            rw [outputType, checked, failed] at stopped
            contradiction
          | ok utxo =>
            obtain ⟨result, typed, -⟩ :=
              OutputType.ofScripts_of utxo.scriptPubkey.toList spend.2.redeemScript
            rw [outputType_run listed looked, typed] at stopped
            contradiction
    · rw [Ne, panics]
      rintro (dangling | ⟨legacy, beyond⟩)
      · exact there dangling
      · exact Nat.not_lt.mpr beyond (inside legacy)
    · intro utxo found
      obtain ⟨spend, listed, funds⟩ := spendUtxo_funds same found
      rw [← fundingUtxo_eq_ok.mpr funds]
      exact iterFundingUtxos_item same listed

end
section
attribute [local instance] Secp256k1.generatorOnly Hashes.ofEmpty

theorem funded_resolves : ∃ psbt : Psbt, deserialize funded = .ok psbt ∧
    psbt.Resolves 0 (.new psbt.unsignedTx) := by
  have decoded : (fun psbt : Psbt => psbt.inputs.map fun input => input.witnessUtxo.isSome) <$>
      deserialize funded = .ok [true] := by decide
  obtain ⟨psbt, accepted, given⟩ := map_eq_ok.mp decoded
  refine ⟨psbt, accepted, (resolves_iff accepted 0 (.new psbt.unsignedTx)).mpr ⟨?_, ?_⟩⟩
  · rintro ⟨spend, listed, dangling⟩
    have inside := List.mem_of_getElem? (spends_eq_some listed).2
    have found := List.mem_map_of_mem (f := fun input : Input => input.witnessUtxo.isSome) inside
    rw [given, List.mem_singleton, dangling.1] at found
    contradiction
  · rintro ⟨spend, _, listed, _⟩
    exact (List.getElem?_eq_some_iff.mp (spends_eq_some listed).1).1

theorem danglingFunding_spendUtxo_panics : ∃ psbt : Psbt, deserialize danglingFunding = .ok psbt ∧
    ¬ psbt.Resolves 0 (.new psbt.unsignedTx) := by
  have decoded : (fun psbt : Psbt => (psbt.spendUtxo 0).run.isNone) <$>
      deserialize danglingFunding = .ok true := by decide
  obtain ⟨psbt, accepted, panics⟩ := map_eq_ok.mp decoded
  exact ⟨psbt, accepted, fun resolves => resolves.spendUtxo (Option.isNone_iff_eq_none.mp panics)⟩

end
end Litecoin.Psbt
