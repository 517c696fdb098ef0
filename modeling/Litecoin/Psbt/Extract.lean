import Litecoin.Blockdata.TransactionExactness
import Litecoin.Psbt.Global
import Litecoin.Wire.Outcome

/-! Extracting a network transaction from the typed MWEB maps: `extract_tx_with_mweb` of
`psbt/mod.rs`, `psbt/mweb/extract.rs` and the peg-out values of `psbt/mweb/kernel.rs`. -/
namespace Litecoin.Psbt
open Wire Consensus Blockdata

/-- Reports an error, or panics. -/
abbrev Extraction (α : Type) : Type := ExceptT Error Option α

namespace Extraction

/-- `ok_or`. -/
def okOr (value : Option α) (error : Error) : Extraction α := match value with
  | some a => pure a
  | none => throw error

/-- `ok_or(Error::IncompleteMwebMaps(message))`. -/
def required (value : Option α) (message : String) : Extraction α :=
  okOr value (.incompleteMwebMaps message)

/-- A vector of its own. One that does not fit into memory panics. -/
def allocate (values : List α) : Extraction (Vec α) :=
  if fits : values.length < 2 ^ 64 then pure ⟨values, fits⟩ else ExceptT.mk none

/-- `copy_from_slice` after a check of the length. -/
def array (n : Nat) (bytes : Bytes) (message : String) : Extraction (ByteArr n) :=
  if size : bytes.length = n then pure ⟨bytes, size⟩ else throw (.incompleteMwebMaps message)

/-- `PublicKey::from_slice`. -/
def publicKey [Secp256k1] (bytes : Bytes) : Extraction Secp256k1.PublicKey :=
  okOr (Secp256k1.publicKeyFromSlice bytes) .invalidSecp256k1PublicKey

/-- A conversion that is only tried on what is there. -/
def optional (convert : α → Extraction β) : Option α → Extraction (Option β)
  | some a => some <$> convert a
  | none => pure none

end Extraction

open Extraction

/-- `i64::from_le_bytes`. -/
def amountFromLeBytes (bytes : Bytes) : Int64 := (UInt64.ofNat (fromLittleEndian bytes)).toInt64

/-- An amount and a script with its length. -/
def pegoutCoinFromPsbtValue (raw : Bytes) : Extraction Mimblewimble.PegOutCoin :=
  if raw.length < 8 then throw (.incompleteMwebMaps "kernel pegout value too short")
  else do
    let amount := amountFromLeBytes (raw.take 8)
    let scriptPubKey ← ExceptT.mk (some ((Consensus.deserialize decodeBytes (raw.drop 8)).mapError .consensusEncoding))
    pure { amount, scriptPubKey }

/-- `unwrap_or(0)`. -/
def MwebOutput.wireFeatures (output : MwebOutput) : UInt8 :=
  Option.getD (α := UInt8) (output .features) 0

/-- `unwrap_or_default()`. -/
def MwebOutput.wireExtraData (output : MwebOutput) : Bytes :=
  Option.getD (α := Bytes) (output .extraData) []

/-- `unwrap_or(0)`. -/
def MwebKernel.wireFeatures (kernel : MwebKernel) : UInt8 :=
  Option.getD (α := UInt8) (kernel.fields .features) 0

/-- `unwrap_or_default()`. -/
def MwebKernel.wireExtraData (kernel : MwebKernel) : Bytes :=
  Option.getD (α := Bytes) (kernel.fields .extraData) []

variable [Secp256k1]

/-- `unwrap_or(0)`. -/
def MwebInput.wireFeatures (input : MwebInput) : UInt8 :=
  Option.getD (α := UInt8) (input .features) 0

/-- `unwrap_or_default()`. -/
def MwebInput.wireExtraData (input : MwebInput) : Bytes :=
  Option.getD (α := Bytes) (input .extraData) []

def wireInputFromMap (input : MwebInput) : Extraction Mimblewimble.Input := do
  let outputId ← required (α := ByteArr 32) (input .outputId) "input map missing output_id"
  let commitment ← required (α := ByteArr 33) (input .commit) "input map missing commit"
  let outputPubkey ← required (α := Bytes) (input .outputPubkey) "input map missing output_pubkey"
  let outputPublicKey ← publicKey outputPubkey
  let inputPublicKey ← optional (α := Bytes) publicKey (input .inputPubkey)
  let signature ← required (α := Bytes) (input .signature) "input map missing signature"
  let signature ← array 64 signature "input signature must be 64 bytes"
  let extraData ← allocate input.wireExtraData
  pure { features := input.wireFeatures, outputId, commitment, inputPublicKey, outputPublicKey
         extraData, signature }

/-- A public key, a view tag, a masked value and a masked nonce. -/
def standardFieldsLength : Nat := 33 + 1 + 8 + 16

/-- A blob that is too short counts as none. -/
def standardFieldsFromBlob (blob : Option Bytes) :
    Extraction (Option Mimblewimble.OutputMessageStandardFields) :=
  match blob with
  | some blob =>
    if enough : standardFieldsLength ≤ blob.length then do
      let keyExchangePubkey ← publicKey (blob.take 33)
      pure (some {
        keyExchangePubkey
        viewTag := blob.get ⟨33, by rw [standardFieldsLength] at enough; omega⟩
        maskedValue := UInt64.ofNat (fromLittleEndian ((blob.drop 34).take 8))
        maskedNonce := ⟨(blob.drop 42).take 16, by
          rw [standardFieldsLength] at enough
          rw [List.length_take, List.length_drop]
          omega⟩ })
    else pure none
  | none => pure none

def wireOutputFromMap (output : MwebOutput) : Extraction Mimblewimble.Output := do
  let commitment ← required (α := ByteArr 33) (output .commit) "output map missing commit"
  let senderPubkey ← required (α := Bytes) (output .senderPubkey) "output map missing sender_pubkey"
  let senderPublicKey ← publicKey senderPubkey
  let outputPubkey ← required (α := Bytes) (output .outputPubkey) "output map missing output_pubkey"
  let receiverPublicKey ← publicKey outputPubkey
  let standardFields ← standardFieldsFromBlob (output .standardFields)
  let rangeProof ← required (α := Bytes) (output .rangeProof) "output map missing range_proof"
  let rangeProof ← array 675 rangeProof "range_proof must be 675 bytes"
  let signature ← required (α := Bytes) (output .signature) "output map missing signature"
  let signature ← array 64 signature "output signature must be 64 bytes"
  let extraData ← allocate output.wireExtraData
  pure { commitment, senderPublicKey, receiverPublicKey
         message := { features := output.wireFeatures, standardFields, extraData }
         rangeProof, signature }

/-- Amounts are cast, whatever their size. -/
def wireKernelFromMap (kernel : MwebKernel) : Extraction Mimblewimble.Kernel := do
  let excess ← required (α := ByteArr 33) (kernel.fields .excessCommit) "kernel map missing excess"
  let signature ← required (α := ByteArr 64) (kernel.fields .signature) "kernel map missing signature"
  let pegouts ← kernel.pegouts.mapM pegoutCoinFromPsbtValue
  let pegouts ← allocate pegouts
  let stealthExcess ← optional (α := Bytes) publicKey (kernel.fields .stealthCommit)
  let extraData ← allocate kernel.wireExtraData
  pure { features := kernel.wireFeatures
         fee := Option.map (α := UInt64) UInt64.toInt64 (kernel.fields .fee)
         pegin := Option.map (α := UInt64) UInt64.toInt64 (kernel.fields .peginAmount)
         pegouts, lockHeight := kernel.fields .lockHeight, stealthExcess, extraData, excess, signature }

def assembleMwTx (kernelOffset stealthOffset : ByteArr 32) (inputs : List MwebInput)
    (outputs : List MwebOutput) (kernels : List MwebKernel) : Extraction Mimblewimble.Transaction := do
  let wireInputs ← inputs.mapM wireInputFromMap
  let wireInputs ← allocate wireInputs
  let wireOutputs ← outputs.mapM wireOutputFromMap
  let wireOutputs ← allocate wireOutputs
  let wireKernels ← kernels.mapM wireKernelFromMap
  let wireKernels ← allocate wireKernels
  pure { kernelOffset, stealthOffset
         body := { inputs := wireInputs, outputs := wireOutputs, kernels := wireKernels } }

variable [Hashes]

/-- `final_script_witness.clone().unwrap_or_default()`. -/
def Input.finalWitness (input : Input) : Witness :=
  Option.getD (α := Witness) (input.fields .finalScriptWitness) .new

/-- `for (vin, psbtin) in tx.input.iter_mut().zip(self.inputs.iter())`. -/
def finalizeInputs : (vins : List TxIn) → (inputs : List Input) → Extraction (List TxIn)
  | vin :: vins, psbtin :: inputs => do
    let scriptSig ← allocate (Option.getD (α := Bytes) (psbtin.fields .finalScriptSig) [])
    let rest ← finalizeInputs vins inputs
    pure ({ vin with scriptSig, witness := psbtin.finalWitness } :: rest)
  | vins, _ => pure vins

/-- The input maps that are extracted. Transparent inputs have empty ones. -/
def extractedInputs (psbt : Psbt) : List MwebInput :=
  if !psbt.mwebInputs.isEmpty then psbt.mwebInputs
  else if psbt.inputs.any fun input => (input.mweb .outputId).isSome then
    psbt.inputs.map (·.mweb)
  else []

def extractedOutputs (psbt : Psbt) : List MwebOutput :=
  if !psbt.mwebOutputs.isEmpty then psbt.mwebOutputs
  else if psbt.outputs.any fun output => (output.mweb .commit).isSome then
    psbt.outputs.map (·.mweb)
  else []

def extractTxWithMweb (psbt : Psbt) : Extraction Transaction := do
  let kernelOffset ← required psbt.mwebTxOffset "missing mweb_tx_offset"
  let stealthOffset ← required psbt.mwebStealthOffset "missing mweb_stealth_offset"
  let mw ← assembleMwTx kernelOffset stealthOffset psbt.extractedInputs psbt.extractedOutputs
    psbt.mwebKernels
  let input ← finalizeInputs psbt.unsignedTx.input.toList psbt.inputs
  let input ← allocate input
  pure { psbt.unsignedTx with input, mwTx := some mw }

end Litecoin.Psbt
