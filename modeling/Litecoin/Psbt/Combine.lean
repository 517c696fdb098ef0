import Litecoin.Psbt.Global
import Litecoin.Wire.Merge

/-! Combining PSBTs: `combine` of `psbt/mod.rs`, of the input and output maps and of the
MWEB maps. -/
namespace Litecoin.Psbt
open Wire Consensus Bip32 Blockdata

/-- `combine!` for a field without key data, `extend` for a field with key data. -/
def Shape.combine : (shape : Shape) → (self other : shape.Slot) → shape.Slot
  | @unkeyed α _, self, other => Option.or (α := α) self other
  | @keyed κ α _ _ _ _ _, self, other => Union.union (α := BTreeMap κ α) self other

/-- Every field is kept where it is set and taken from `other` where it is not. -/
def MwebTable.combine (table : MwebTable F) (self other : table.Record) : table.Record :=
  fun f => (self f).or (other f)

namespace MwebInput
variable [Secp256k1]

def combine (self other : MwebInput) : MwebInput := table.combine self other

end MwebInput

namespace MwebOutput

def combine (self other : MwebOutput) : MwebOutput := table.combine self other

end MwebOutput

/-- Lists are taken from `other` as a whole, and only where there is none. -/
def MwebKernel.combine (self other : MwebKernel) : MwebKernel where
  fields := table.combine self.fields other.fields
  pegouts := if self.pegouts.isEmpty then other.pegouts else self.pegouts
  unknowns := if self.unknowns.isEmpty then other.unknowns else self.unknowns

/-- Combines the listed fields; the others stay as they are. -/
def FieldMap.combine [DecidableEq F] {table : MapTable F M} (listed : List F)
    (combineMweb : M → M → M) (self other : FieldMap table) : FieldMap table where
  fields f := if f ∈ listed then (table.shape f).combine (self.fields f) (other.fields f)
    else self.fields f
  proprietary := self.proprietary ∪ other.proprietary
  unknown := self.unknown ∪ other.unknown
  mweb := combineMweb self.mweb other.mweb

namespace Input
open Input.Field

/-- The fields `Input::combine` names. -/
def combined : List Field :=
  [nonWitnessUtxo, witnessUtxo, partialSigs, bip32Derivation, ripemd160Preimages, sha256Preimages,
    hash160Preimages, hash256Preimages, tapScriptSigs, tapScripts, tapKeyOrigins, redeemScript,
    witnessScript, finalScriptSig, finalScriptWitness, tapKeySig, tapInternalKey, tapMerkleRoot]

variable [Secp256k1] [Hashes]

def combine (self other : Input) : Input :=
  let merged := FieldMap.combine combined MwebInput.combine self other
  match (self.fields witnessUtxo : Option TxOut), (other.fields witnessUtxo : Option TxOut) with
  -- a witness UTXO that is set clears the other one
  | none, some _ => { merged with fields := Function.update merged.fields nonWitnessUtxo none }
  | _, _ => merged

end Input

namespace Output
open Output.Field

/-- The fields `Output::combine` names. -/
def combined : List Field :=
  [bip32Derivation, tapKeyOrigins, redeemScript, witnessScript, tapInternalKey, tapTree]

variable [Secp256k1] [Hashes]

def combine (self other : Output) : Output :=
  FieldMap.combine combined MwebOutput.combine self other

end Output

variable [Secp256k1] [Hashes]

/-- `psbt::Error`, as far as combining reports it. -/
inductive CombineError where
  | unexpectedUnsignedTx (expected actual : Transaction)
  | combineInconsistentKeySources (xpub : Xpub)

omit [Hashes] in
/-- One round of the loop over the other PSBT's xpubs. A subtraction that underflows
panics, which is the outer `none`. -/
def combineXpub (self : BTreeMap Xpub KeySource) (entry : Xpub × KeySource) :
    ExceptT CombineError Option (BTreeMap Xpub KeySource) :=
  let (xpub, fingerprint1, derivation1) := entry
  match self[xpub]? with
  | none => pure (self.insert xpub (fingerprint1, derivation1))
  | some (fingerprint2, derivation2) =>
    if (derivation1 = derivation2 ∧ fingerprint1 = fingerprint2) ∨
        (derivation1.length < derivation2.length ∧
          derivation1 = derivation2.drop (derivation2.length - derivation1.length)) then
      pure self
    else if derivation1.length < derivation2.length then ExceptT.mk none
    else if derivation2 = derivation1.drop (derivation1.length - derivation2.length) then
      pure (self.insert xpub (fingerprint1, derivation1))
    else throw (.combineInconsistentKeySources xpub)

def combine (self other : Psbt) : ExceptT CombineError Option Psbt :=
  if self.unsignedTx ≠ other.unsignedTx then
    throw (.unexpectedUnsignedTx self.unsignedTx other.unsignedTx)
  else do
    let xpub ← other.xpub.toList.foldlM combineXpub self.xpub
    pure { unsignedTx := self.unsignedTx
           version := max self.version other.version
           xpub
           proprietary := self.proprietary ∪ other.proprietary
           unknown := self.unknown ∪ other.unknown
           mwebTxOffset := self.mwebTxOffset.or other.mwebTxOffset
           mwebStealthOffset := self.mwebStealthOffset.or other.mwebStealthOffset
           mwebKernels := mergeVec MwebKernel.default MwebKernel.combine self.mwebKernels
             other.mwebKernels
           mwebInputs := mergeVec MwebInput.table.empty MwebInput.combine self.mwebInputs
             other.mwebInputs
           mwebOutputs := mergeVec MwebOutput.table.empty MwebOutput.combine self.mwebOutputs
             other.mwebOutputs
           inputs := mergeZip Input.combine self.inputs other.inputs
           outputs := mergeZip Output.combine self.outputs other.outputs }

end Litecoin.Psbt
