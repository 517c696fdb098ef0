import Litecoin.Blockdata.Sizes
import Litecoin.Psbt.Broadcast
import Litecoin.Psbt.MapFormat
import Litecoin.Psbt.Layout
import Mathlib.Algebra.Group.Action.Defs
import Mathlib.Algebra.Order.BigOperators.Group.List

/-! The outputs a PSBT spends, its fee, and the extraction that limits the fee rate
(`psbt/mod.rs`). -/
namespace Litecoin.Psbt
open Wire Consensus Blockdata Extraction

/-- `psbt::Error`, as far as the fee reports it. -/
inductive FeeError where
  | missingUtxo
  | psbtUtxoOutOfbounds
  | negativeFee
  | feeOverflow
deriving DecidableEq

/-- `checked_add(…).ok_or(Error::FeeOverflow)`. -/
def addAmount (total value : UInt64) : Except FeeError UInt64 :=
  if total.toNat + value.toNat < 2 ^ 64 then .ok (total + value) else .error .feeOverflow

def saturatingMul (a b : UInt64) : UInt64 :=
  if a.toNat * b.toNat < 2 ^ 64 then a * b else UInt64.ofNat (2 ^ 64 - 1)

section
variable [Secp256k1]

/-- `weight().to_wu()`. Sizes are added up in machine words. -/
def weightUnits (tx : Transaction) : Option UInt64 := do
  let weight ← tx.weight
  if weight < 2 ^ 64 then some (UInt64.ofNat weight) else none

/-- `FeeRate::from_sat_per_kwu` of the fee over the weight; a division by zero panics. -/
def feeRate (fee : UInt64) (tx : Transaction) : Option UInt64 := do
  let weight ← weightUnits tx
  if weight = 0 then none else some (saturatingMul fee 1000 / weight)

variable [Hashes]

namespace Input

def witnessUtxo (input : Input) : Option TxOut := input.fields .witnessUtxo

def nonWitnessUtxo (input : Input) : Option Transaction := input.fields .nonWitnessUtxo

end Input

/-- One item of `iter_funding_utxos`. -/
def fundingUtxo (txInput : TxIn) (psbtInput : Input) : Except FeeError TxOut :=
  match psbtInput.witnessUtxo, psbtInput.nonWitnessUtxo with
  | some witnessUtxo, _ => .ok witnessUtxo
  | none, some nonWitnessUtxo =>
    match nonWitnessUtxo.output.toList[txInput.previousOutput.vout.toNat]? with
    | some utxo => .ok utxo
    | none => .error .psbtUtxoOutOfbounds
  | none, none => .error .missingUtxo

/-- The two lists are asserted to be of the same length. -/
def iterFundingUtxos (psbt : Psbt) : Option (List (Except FeeError TxOut)) :=
  if psbt.inputs.length = psbt.unsignedTx.input.toList.length then
    some (List.zipWith fundingUtxo psbt.unsignedTx.input.toList psbt.inputs)
  else none

/-- One round of the first loop of `fee`. -/
def addUtxo (total : UInt64) (utxo : Except FeeError TxOut) : Except FeeError UInt64 := do
  let utxo ← utxo
  addAmount total utxo.value

def fee (psbt : Psbt) : ExceptT FeeError Option UInt64 := do
  let utxos ← orPanic psbt.iterFundingUtxos
  let inputs ← liftM (run addUtxo 0 utxos)
  let outputs ← liftM (run (fun total out => addAmount total out.value) 0
    psbt.unsignedTx.output.toList)
  if outputs ≤ inputs then pure (inputs - outputs) else throw .negativeFee

inductive ExtractTxError where
  | absurdFeeRate (feeRate : UInt64) (tx : Transaction)
  | missingInputValue (tx : Transaction)
  | sendingTooMuch (psbt : Psbt)

/-- No input is refused. -/
def internalExtractTx (psbt : Psbt) : Option Transaction := do
  let input ← (finalizeInputs psbt.unsignedTx.input.toList psbt.inputs).run
  let input ← input.toOption
  if fits : input.length < 2 ^ 64 then
    some { psbt.unsignedTx with input := ⟨input, fits⟩ }
  else none

/-- `internal_extract_tx_with_fee_rate_limit`. -/
def extractTxWithFeeRateLimit (psbt : Psbt) (maxFeeRate : UInt64) :
    ExceptT ExtractTxError Option Transaction := do
  match ← orPanic psbt.fee.run with
  | .ok fee =>
    let tx ← orPanic psbt.internalExtractTx
    let rate ← orPanic (feeRate fee tx)
    if maxFeeRate < rate then throw (.absurdFeeRate rate tx) else pure tx
  | .error .missingUtxo => do
    let tx ← orPanic psbt.internalExtractTx
    throw (.missingInputValue tx)
  | .error .negativeFee => throw (.sendingTooMuch psbt)
  | .error .feeOverflow => do
    let tx ← orPanic psbt.internalExtractTx
    throw (.absurdFeeRate (UInt64.ofNat (2 ^ 64 - 1)) tx)
  -- `unreachable!()`
  | .error .psbtUtxoOutOfbounds => orPanic none

end

/-! What the slots of a map were read from. -/

/-- Everything in a slot was read from a value within the limit. -/
def Shape.Read : (shape : Shape) → shape.Slot → Prop
  | @unkeyed α value, slot => ∀ a ∈ (show Option α from slot), ∃ data,
    (sizedWire data).length ≤ maxVecSize ∧ value.deserialize data = .ok a
  | @keyed κ α _ _ _ _ value, map => ∀ entry ∈ (show BTreeMap κ α from map).toList, ∃ data,
    (sizedWire data).length ≤ maxVecSize ∧ (value entry.1).deserialize data = .ok entry.2

namespace Shape

theorem empty_read (shape : Shape) : shape.Read shape.empty := by
  cases shape with
  | unkeyed value => exact fun _ absent => absurd absent (Option.not_mem_none _)
  | keyed key value => exact fun _ absent => absurd absent List.not_mem_nil

theorem insert_read {shape : Shape} {slot next : shape.Slot} (read : shape.Read slot)
    (readable : pair.Readable) (inserted : shape.insert slot pair = .ok next) : shape.Read next := by
  cases shape with
  | unkeyed value =>
    obtain ⟨_, _, a, parsed, rfl⟩ := insertUnkeyed_eq_ok.mp inserted
    rintro _ ⟨⟩
    exact ⟨pair.value, readable.2, parsed⟩
  | keyed key value =>
    obtain ⟨_, k, _, _, a, parsed, rfl⟩ := insertKeyed_eq_ok.mp inserted
    exact BTreeMap.forall_mem_insert read ⟨pair.value, readable.2, parsed⟩

end Shape

namespace FieldMap
variable {F M : Type} {table : MapTable F M}

def Read (map : FieldMap table) : Prop := ∀ f, (table.shape f).Read (map.fields f)

variable [DecidableEq F]

theorem insertPair_read {map next : FieldMap table} (read : map.Read) (readable : pair.Readable)
    (inserted : map.insertPair pair = .ok next) : next.Read := by
  intro f
  rcases insertPair_cases inserted with ⟨g, slot, _, filled, rfl⟩ | ⟨_, _, _, _, rfl⟩ |
    ⟨_, _, rfl⟩ | ⟨_, _, rfl⟩
  · dsimp only
    by_cases same : f = g
    · subst same
      rw [Function.update_self]
      exact Shape.insert_read (read f) readable filled
    · rw [Function.update_of_ne same]
      exact read f
  · exact read f
  · exact read f
  · exact read f

theorem decodeMap_read {map : FieldMap table}
    (decoded : decodeMap insertPair (default table) bytes = .ok (map, rest)) : map.Read := by
  obtain ⟨pairs, readable, rfl, ran⟩ := decodeMap_eq_ok.mp decoded
  refine run_invariant ?_ (fun f => (table.shape f).empty_read) ran
  exact fun map pair member next read => insertPair_read read (readable pair member)

end FieldMap
section
variable [Secp256k1] [Hashes]

/-- An accepted PSBT has a map for each input, read slot by slot. -/
theorem deserialize_inputs {psbt : Psbt} (accepted : deserialize data = .ok psbt) :
    psbt.inputs.length = psbt.unsignedTx.input.toList.length ∧
      ∀ input ∈ psbt.inputs, input.Read := by
  obtain ⟨rest, accepted⟩ := deserialize_eq_ok.mp accepted
  obtain ⟨_, _, _, inputs, _, _, _, _, _, decoded, _, rfl⟩ := deserializeFromReader_eq_ok.mp accepted
  refine ⟨inputs.property, ?_⟩
  exact forall_mem_times (fun _ _ _ => FieldMap.decodeMap_read) decoded

/-- The inputs and outputs of an accepted PSBT are within the limit of its reader. -/
theorem unsignedTx_short {psbt : Psbt} (accepted : deserialize data = .ok psbt) :
    (vecWire TxIn.wire psbt.unsignedTx.input).length ≤ maxVecSize ∧
      (vecWire TxOut.wire psbt.unsignedTx.output).length ≤ maxVecSize := by
  obtain ⟨state, tx, _, ran, found, whole⟩ := deserialize_global accepted
  let Short (state : GlobalState) : Prop := ∀ tx ∈ state.tx,
    (vecWire TxIn.wire tx.input).length ≤ maxVecSize ∧
      (vecWire TxOut.wire tx.output).length ≤ maxVecSize
  have short : Short state := by
    refine run_invariant ?_ (fun _ absent => absurd absent (Option.not_mem_none _)) ran
    intro state pair _ next held inserted
    cases GlobalState.insertPair_inserts inserted with
    | unsignedTx arm unkeyed vacant read =>
      rintro _ ⟨⟩
      exact ((GlobalState.readUnsignedTx_reads _ _ _).mp read).1.2
    | xpub => exact held
    | version => exact held
    | proprietary => exact held
    | mwebTxOffset => exact held
    | mwebStealthOffset => exact held
    | mwebKernelCount => exact held
    | mwebKernelField => exact held
    | mwebOutputField => exact held
    | mwebInputField => exact held
    | unknown => exact held
  rw [whole]
  exact short tx found

namespace Input

theorem finalScriptSig_short {input : Input} (read : input.Read) :
    (Option.getD (α := Bytes) (input.fields .finalScriptSig) []).length ≤ maxVecSize := by
  cases found : (show Option Bytes from input.fields .finalScriptSig) with
  | none =>
    rw [show input.fields .finalScriptSig = (none : Option Bytes) from found]
    exact Nat.zero_le _
  | some script =>
    obtain ⟨data, short, same⟩ := read .finalScriptSig script found
    obtain rfl : data = script := Except.ok.inj same
    rw [show input.fields .finalScriptSig = some data from found]
    exact (sizedWire_short.mp short).trans (Nat.sub_le _ _)

theorem finalWitness_valid {input : Input} (read : input.Read) : input.finalWitness.Valid := by
  rw [finalWitness]
  cases found : (show Option Witness from input.fields .finalScriptWitness) with
  | none =>
    rw [show input.fields .finalScriptWitness = (none : Option Witness) from found]
    exact Nat.zero_le _
  | some witness =>
    obtain ⟨data, short, parsed⟩ := read .finalScriptWitness witness found
    rw [show input.fields .finalScriptWitness = some witness from found]
    exact ((Witness.reads _ _ _).mp (Consensus.deserialize_eq_ok.mp (mapError_eq_ok.mp parsed))).1

end Input

/-- The inputs of a transaction that is extracted from read maps. -/
structure Finalized (txin : TxIn) : Prop where
  scriptSig : txin.scriptSig.toList.length ≤ maxVecSize
  witness : txin.witness.Valid

theorem finalizeInputs_run {vins : List TxIn} {inputs : List Input}
    (same : inputs.length = vins.length) (read : ∀ input ∈ inputs, input.Read) :
    ∃ finalized, (finalizeInputs vins inputs).run = some (.ok finalized) ∧
      finalized.length = vins.length ∧ ∀ txin ∈ finalized, Finalized txin := by
  induction vins generalizing inputs with
  | nil => exact ⟨[], rfl, rfl, fun _ absent => absurd absent List.not_mem_nil⟩
  | cons vin vins ih =>
    obtain ⟨input, inputs, rfl⟩ := List.exists_cons_of_length_eq_add_one same
    rw [List.forall_mem_cons] at read
    obtain ⟨rest, ran, count, each⟩ := ih (Nat.succ.inj same) read.2
    have short := Input.finalScriptSig_short read.1
    have fits : (Option.getD (α := Bytes) (input.fields .finalScriptSig) []).length < 2 ^ 64 :=
      short.trans_lt (by decide)
    refine ⟨{ vin with scriptSig := ⟨_, fits⟩, witness := input.finalWitness } :: rest, ?_,
      congrArg (· + 1) count, ?_⟩
    · rw [finalizeInputs]
      refine run_bind_eq_ok.mpr ⟨⟨_, fits⟩, allocate_eq_ok.mpr rfl, ?_⟩
      exact run_bind_eq_ok.mpr ⟨rest, ran, run_pure_eq_ok.mpr rfl⟩
    · exact List.forall_mem_cons.mpr ⟨⟨short, Input.finalWitness_valid read.1⟩, each⟩

omit [Hashes] in
/-- The weight of such a transaction is a machine word, and not zero. -/
theorem weightUnits_positive {tx : Transaction} (inputs : ∀ txin ∈ tx.input.toList, Finalized txin)
    (count : tx.input.toList.length ≤ maxVecSize)
    (outputs : (vecWire TxOut.wire tx.output).length ≤ maxVecSize) :
    ∃ weight, weightUnits tx = some weight ∧ weight ≠ 0 := by
  have bases : (tx.input.toList.map TxIn.baseSize).sum ≤
      tx.input.toList.length * (49 + maxVecSize) := by
    refine (List.sum_le_card_nsmul _ (49 + maxVecSize) ?_).trans_eq ?_
    · intro size listed
      obtain ⟨txin, inside, rfl⟩ := List.mem_map.mp listed
      have script := (inputs txin inside).scriptSig
      have length := VarInt.wire_length_le txin.scriptSig.len
      rw [VarInt.wire_length] at length
      simp only [TxIn.baseSize, OutPoint.size, sequenceSize]
      omega
    · rw [List.length_map, smul_eq_mul]
  have witnesses : (tx.input.toList.map fun txin => txin.witness.wire.length).sum ≤
      tx.input.toList.length * (9 + maxVecSize) := by
    refine (List.sum_le_card_nsmul _ (9 + maxVecSize) ?_).trans_eq ?_
    · intro size listed
      obtain ⟨txin, inside, rfl⟩ := List.mem_map.mp listed
      exact (inputs txin inside).witness.wire_length_le
    · rw [List.length_map, smul_eq_mul]
  have outs : (vecWire TxOut.wire tx.output).length =
      VarInt.size tx.output.len + (tx.output.toList.map TxOut.size).sum :=
    vecWire_length fun txout _ => txout.size_eq
  have inputLength := VarInt.wire_length_le tx.input.len
  rw [VarInt.wire_length] at inputLength
  have base : tx.baseSize ≤ 17 + tx.input.toList.length * (49 + maxVecSize) + maxVecSize := by
    simp only [Transaction.baseSize, LockTime.size]
    omega
  have positive : 4 ≤ tx.baseSize := by
    simp only [Transaction.baseSize]
    omega
  have total : tx.withoutMweb.wire.length ≤
      tx.baseSize + (2 + tx.input.toList.length * (9 + maxVecSize)) := by
    rw [tx.wire_withoutMweb_length]
    split <;> omega
  have baseBound := Nat.mul_le_mul_right (49 + maxVecSize) count
  have witnessBound := Nat.mul_le_mul_right (9 + maxVecSize) count
  have small : tx.baseSize * 3 + tx.withoutMweb.wire.length < 2 ^ 64 := by
    simp only [maxVecSize] at base total baseBound witnessBound
    omega
  refine ⟨UInt64.ofNat (tx.baseSize * 3 + tx.withoutMweb.wire.length), ?_, ?_⟩
  · rw [weightUnits, Transaction.weight_eq, Option.bind_eq_bind, Option.bind_some, if_pos small]
  · rw [Ne, ← UInt64.toNat_inj, UInt64.toNat_ofNat_of_lt' small, UInt64.toNat_zero]
    omega

/-- What is extracted from an accepted PSBT has a fee rate. -/
theorem internalExtractTx_weight {psbt : Psbt} (accepted : deserialize data = .ok psbt) :
    ∃ tx weight, psbt.internalExtractTx = some tx ∧ weightUnits tx = some weight ∧ weight ≠ 0 := by
  obtain ⟨same, read⟩ := deserialize_inputs accepted
  obtain ⟨shortInput, shortOutput⟩ := unsignedTx_short accepted
  obtain ⟨finalized, ran, count, each⟩ := finalizeInputs_run same read
  have fits : finalized.length < 2 ^ 64 := count ▸ psbt.unsignedTx.input.fits
  have few : psbt.unsignedTx.input.toList.length ≤ maxVecSize := by
    rw [vecWire_length fun txin _ => txin.baseSize_eq] at shortInput
    have atLeast := List.length_le_sum_of_one_le (psbt.unsignedTx.input.toList.map TxIn.baseSize) (by
      intro size listed
      obtain ⟨txin, _, rfl⟩ := List.mem_map.mp listed
      simp only [TxIn.baseSize, sequenceSize]
      omega)
    rw [List.length_map] at atLeast
    omega
  have extracted : psbt.internalExtractTx =
      some { psbt.unsignedTx with input := ⟨finalized, fits⟩ } := by
    rw [internalExtractTx, ran]
    exact dif_pos fits
  have weighed := @weightUnits_positive _ { psbt.unsignedTx with input := ⟨finalized, fits⟩ }
    each (count ▸ few) shortOutput
  obtain ⟨weight, units, positive⟩ := weighed
  exact ⟨_, weight, extracted, units, positive⟩

/-! The fee of a PSBT, and which of its inputs the fee looks at. -/

/-- An input with the output it spends. -/
def Funds (spend : TxIn × Input) (utxo : TxOut) : Prop :=
  spend.2.witnessUtxo = some utxo ∨ spend.2.witnessUtxo = none ∧
    ∃ tx, spend.2.nonWitnessUtxo = some tx ∧
      tx.output.toList[spend.1.previousOutput.vout.toNat]? = some utxo

/-- The previous transaction has no output under the index that is spent, and nothing
else says what is spent. -/
def Dangling (spend : TxIn × Input) : Prop :=
  spend.2.witnessUtxo = none ∧ ∃ tx, spend.2.nonWitnessUtxo = some tx ∧
    tx.output.toList.length ≤ spend.1.previousOutput.vout.toNat

theorem fundingUtxo_eq_ok {spend : TxIn × Input} :
    fundingUtxo spend.1 spend.2 = .ok utxo ↔ Funds spend utxo := by
  rw [fundingUtxo, Funds]
  cases spend.2.witnessUtxo with
  | some witnessUtxo => simp
  | none =>
    cases spend.2.nonWitnessUtxo with
    | none => simp
    | some tx => cases found : tx.output.toList[spend.1.previousOutput.vout.toNat]? <;> simp [found]

theorem fundingUtxo_eq_outOfbounds {spend : TxIn × Input} :
    fundingUtxo spend.1 spend.2 = .error .psbtUtxoOutOfbounds ↔ Dangling spend := by
  rw [fundingUtxo, Dangling]
  cases spend.2.witnessUtxo with
  | some witnessUtxo => simp
  | none =>
    cases spend.2.nonWitnessUtxo with
    | none => simp
    | some tx =>
      simp only [Option.some.injEq, exists_eq_left', true_and, ← List.getElem?_eq_none_iff]
      cases tx.output.toList[spend.1.previousOutput.vout.toNat]? <;> simp

omit [Secp256k1] [Hashes] in
theorem addAmount_eq_ok {total value sum : UInt64} :
    addAmount total value = .ok sum ↔ sum.toNat = total.toNat + value.toNat := by
  rw [addAmount]
  split
  · rename_i fits
    rw [Except.ok.injEq, ← UInt64.toNat_inj, UInt64.toNat_add, Nat.mod_eq_of_lt fits, eq_comm]
  · rename_i tooLarge
    have small := sum.toNat_lt
    simp only [reduceCtorEq, false_iff]
    omega

/-- The spent values are added up as long as every output is found and the sum fits. -/
theorem run_addUtxo_eq_ok {spends : List (TxIn × Input)} {total sum : UInt64} :
    run addUtxo total (spends.map fun spend => fundingUtxo spend.1 spend.2) = .ok sum ↔
      ∃ utxos, List.Forall₂ Funds spends utxos ∧
        sum.toNat = total.toNat + (utxos.map fun utxo => utxo.value.toNat).sum := by
  induction spends generalizing total with
  | nil =>
    rw [List.map_nil, run_nil, Except.ok.injEq, ← UInt64.toNat_inj]
    simp [eq_comm]
  | cons spend rest ih =>
    simp only [List.map_cons, run_cons_eq_ok, addUtxo, bind_eq_ok, fundingUtxo_eq_ok, addAmount_eq_ok,
      ih]
    constructor
    · rintro ⟨next, ⟨utxo, funds, added⟩, utxos, others, summed⟩
      refine ⟨utxo :: utxos, .cons funds others, ?_⟩
      rw [List.map_cons, List.sum_cons]
      omega
    · rintro ⟨_, funded, summed⟩
      obtain ⟨utxo, utxos, funds, others, rfl⟩ := List.forall₂_cons_left_iff.mp funded
      rw [List.map_cons, List.sum_cons] at summed
      have small := sum.toNat_lt
      have exact' : (total + utxo.value).toNat = total.toNat + utxo.value.toNat := by
        rw [UInt64.toNat_add, Nat.mod_eq_of_lt (by omega)]
      exact ⟨total + utxo.value, ⟨utxo, funds, exact'⟩, utxos, others, by omega⟩

omit [Secp256k1] [Hashes] in
theorem addUtxo_eq_outOfbounds {total : UInt64} {utxo : Except FeeError TxOut} :
    addUtxo total utxo = .error .psbtUtxoOutOfbounds ↔ utxo = .error .psbtUtxoOutOfbounds := by
  cases utxo with
  | error e => simp [addUtxo, bind, Except.bind]
  | ok utxo =>
    simp only [addUtxo, addAmount, bind, Except.bind]
    split <;> simp

/-- An input is reached by the sum when the outputs before it are found and add up. -/
theorem run_addUtxo_eq_outOfbounds {spends : List (TxIn × Input)} :
    run addUtxo 0 (spends.map fun spend => fundingUtxo spend.1 spend.2) =
        .error .psbtUtxoOutOfbounds ↔
      ∃ before spend after utxos, spends = before ++ spend :: after ∧
        List.Forall₂ Funds before utxos ∧ (utxos.map fun utxo => utxo.value.toNat).sum < 2 ^ 64 ∧
        Dangling spend := by
  rw [run_eq_error]
  simp only [addUtxo_eq_outOfbounds, ← fundingUtxo_eq_outOfbounds]
  constructor
  · rintro ⟨_, _, _, middle, split, ran, dangling⟩
    obtain ⟨before, rest, rfl, rfl, tail⟩ := List.map_eq_append_iff.mp split
    obtain ⟨spend, after, rfl, rfl, rfl⟩ := List.map_eq_cons_iff.mp tail
    obtain ⟨utxos, funds, summed⟩ := run_addUtxo_eq_ok.mp ran
    have small := middle.toNat_lt
    rw [UInt64.toNat_zero, Nat.zero_add] at summed
    exact ⟨before, spend, after, utxos, rfl, funds, summed ▸ small, dangling⟩
  · rintro ⟨before, spend, after, utxos, rfl, funds, small, dangling⟩
    refine ⟨_, _, _, UInt64.ofNat (utxos.map fun utxo => utxo.value.toNat).sum,
      by rw [List.map_append, List.map_cons], ?_, dangling⟩
    refine run_addUtxo_eq_ok.mpr ⟨utxos, funds, ?_⟩
    rw [UInt64.toNat_ofNat_of_lt' small, UInt64.toNat_zero, Nat.zero_add]

/-- Every input the fee comes to has an output that it can look at. -/
def FundingInBounds (psbt : Psbt) : Prop :=
  ∀ before spend after utxos,
    psbt.unsignedTx.input.toList.zip psbt.inputs = before ++ spend :: after →
    List.Forall₂ Funds before utxos → (utxos.map fun utxo => utxo.value.toNat).sum < 2 ^ 64 →
    ¬ Dangling spend

theorem fee_run {psbt : Psbt}
    (same : psbt.inputs.length = psbt.unsignedTx.input.toList.length) : psbt.fee.run = some (do
      let inputs ← run addUtxo 0 ((psbt.unsignedTx.input.toList.zip psbt.inputs).map fun spend =>
        fundingUtxo spend.1 spend.2)
      let outputs ← run (fun total out => addAmount total out.value) 0 psbt.unsignedTx.output.toList
      if outputs ≤ inputs then .ok (inputs - outputs) else .error .negativeFee) := by
  have zipped : (psbt.unsignedTx.input.toList.zip psbt.inputs).map (fun spend =>
      fundingUtxo spend.1 spend.2) =
        List.zipWith fundingUtxo psbt.unsignedTx.input.toList psbt.inputs :=
    List.map_zip_eq_zipWith
  rw [fee, iterFundingUtxos, if_pos same, orPanic_bind, zipped]
  cases run addUtxo 0 (List.zipWith fundingUtxo psbt.unsignedTx.input.toList psbt.inputs) with
  | error e => rfl
  | ok inputs =>
    cases run (fun total out => addAmount total out.value) 0 psbt.unsignedTx.output.toList with
    | error e => rfl
    | ok outputs =>
      simp only [lift_ok_bind]
      show (if outputs ≤ inputs then pure (inputs - outputs) else throw .negativeFee :
          ExceptT FeeError Option UInt64).run =
        some (if outputs ≤ inputs then .ok (inputs - outputs) else .error .negativeFee)
      split <;> rfl

omit [Secp256k1] [Hashes] in
theorem run_outputs_ne {outputs : List TxOut} {total : UInt64} :
    run (fun total (out : TxOut) => addAmount total out.value) total outputs ≠
      .error .psbtUtxoOutOfbounds := by
  rw [Ne, run_eq_error]
  rintro ⟨_, out, _, middle, _, _, stopped⟩
  rw [addAmount] at stopped
  split at stopped <;> contradiction

theorem fee_eq_outOfbounds {psbt : Psbt}
    (same : psbt.inputs.length = psbt.unsignedTx.input.toList.length) :
    psbt.fee.run = some (.error .psbtUtxoOutOfbounds) ↔ ¬ psbt.FundingInBounds := by
  have reached : ¬ psbt.FundingInBounds ↔ run addUtxo 0
      ((psbt.unsignedTx.input.toList.zip psbt.inputs).map fun spend => fundingUtxo spend.1 spend.2) =
        .error .psbtUtxoOutOfbounds := by
    rw [run_addUtxo_eq_outOfbounds, FundingInBounds]
    push Not
    rfl
  rw [reached, fee_run same]
  cases run addUtxo 0 ((psbt.unsignedTx.input.toList.zip psbt.inputs).map fun spend =>
    fundingUtxo spend.1 spend.2) with
  | error e => simp [bind, Except.bind]
  | ok inputs =>
    simp only [Option.some.injEq, reduceCtorEq, iff_false]
    intro failed
    cases summed : run (fun total out => addAmount total out.value) 0
      psbt.unsignedTx.output.toList with
    | error e =>
      rw [summed] at failed
      obtain rfl := Except.error.inj failed
      exact run_outputs_ne summed
    | ok outputs =>
      rw [summed] at failed
      simp only [bind, Except.bind] at failed
      split at failed <;> contradiction

/-- The property of the extraction with a limit. -/
structure Extracts (psbt : Psbt) (maxFeeRate : UInt64) : Prop where
  returns : (psbt.extractTxWithFeeRateLimit maxFeeRate).run ≠ none
  divides : ∃ tx weight, psbt.internalExtractTx = some tx ∧ weightUnits tx = some weight ∧ weight ≠ 0

/-- The extraction panics exactly when the fee comes to an input whose previous transaction
lacks the output that is spent. -/
theorem extracts_iff {psbt : Psbt} (accepted : deserialize data = .ok psbt) (maxFeeRate : UInt64) :
    psbt.Extracts maxFeeRate ↔ psbt.FundingInBounds := by
  have same := (deserialize_inputs accepted).1
  obtain ⟨tx, weight, extracted, units, positive⟩ := internalExtractTx_weight accepted
  have rated (fee : UInt64) : feeRate fee tx = some (saturatingMul fee 1000 / weight) := by
    rw [feeRate, units]
    exact if_neg positive
  have outOfbounds := fee_eq_outOfbounds same
  constructor
  · rintro ⟨returns, _⟩
    by_contra reached
    apply returns
    rw [extractTxWithFeeRateLimit, outOfbounds.mpr reached]
    rfl
  · intro inBounds
    refine ⟨?_, tx, weight, extracted, units, positive⟩
    have other : psbt.fee.run ≠ some (.error .psbtUtxoOutOfbounds) := fun failed =>
      outOfbounds.mp failed inBounds
    rw [fee_run same] at other
    rw [extractTxWithFeeRateLimit, fee_run same, orPanic_bind]
    generalize (do
      let inputs ← run addUtxo 0 ((psbt.unsignedTx.input.toList.zip psbt.inputs).map fun spend =>
        fundingUtxo spend.1 spend.2)
      let outputs ← run (fun total out => addAmount total out.value) 0 psbt.unsignedTx.output.toList
      if outputs ≤ inputs then .ok (inputs - outputs) else .error .negativeFee :
        Except FeeError UInt64) = result at other ⊢
    rw [extracted]
    rcases result with (_ | _ | _ | _) | fee
    · exact nofun
    · exact absurd rfl other
    · exact nofun
    · exact nofun
    · simp only [orPanic_bind, rated fee]
      split <;> exact nofun

end
section
attribute [local instance] Secp256k1.generatorOnly Hashes.ofEmpty

/-- `DEFAULT_MAX_FEE_RATE`. -/
def defaultMaxFeeRate : UInt64 := 25000 * 1000 / 4

/-- A PSBT with one input, which spends the first output of a transaction, and its map. -/
def spendingFirst (inputMap : Bytes) : Bytes :=
  header ++ [0x01, 0x00, 0x33, 0x02, 0x00, 0x00, 0x00, 0x01] ++ List.replicate 36 0x00 ++
    [0x00, 0xff, 0xff, 0xff, 0xff, 0x00, 0x00, 0x00, 0x00, 0x00, 0x00] ++ inputMap

/-- The spent output is given. -/
def funded : Bytes :=
  spendingFirst [0x01, 0x01, 0x09, 0x05, 0x00, 0x00, 0x00, 0x00, 0x00, 0x00, 0x00, 0x00, 0x00]

/-- The spent transaction has no outputs. -/
def danglingFunding : Bytes := spendingFirst
  [0x01, 0x00, 0x0c, 0x01, 0x00, 0x00, 0x00, 0x00, 0x01, 0x00, 0x00, 0x00, 0x00, 0x00, 0x00, 0x00]

theorem funded_extracts : ∃ psbt : Psbt, deserialize funded = .ok psbt ∧
    psbt.Extracts defaultMaxFeeRate := by
  have decoded : (fun psbt : Psbt => psbt.inputs.map fun input => input.witnessUtxo.isSome) <$>
      deserialize funded = .ok [true] := by decide
  obtain ⟨psbt, accepted, given⟩ := map_eq_ok.mp decoded
  refine ⟨psbt, accepted, (extracts_iff accepted defaultMaxFeeRate).mpr ?_⟩
  intro before spend after utxos split _ _ dangling
  have listed : (spend.1, spend.2) ∈ psbt.unsignedTx.input.toList.zip psbt.inputs := by
    rw [split]
    exact List.mem_append_right _ List.mem_cons_self
  have inside := (List.of_mem_zip listed).2
  have found := List.mem_map_of_mem (f := fun input : Input => input.witnessUtxo.isSome) inside
  rw [given, List.mem_singleton, dangling.1] at found
  contradiction

theorem danglingFunding_panics : ∃ psbt : Psbt, deserialize danglingFunding = .ok psbt ∧
    ¬ psbt.Extracts defaultMaxFeeRate := by
  have decoded : (fun psbt : Psbt => (psbt.extractTxWithFeeRateLimit defaultMaxFeeRate).run.isNone) <$>
      deserialize danglingFunding = .ok true := by decide
  obtain ⟨psbt, accepted, panics⟩ := map_eq_ok.mp decoded
  exact ⟨psbt, accepted, fun extracts => extracts.returns (Option.isNone_iff_eq_none.mp panics)⟩

end
end Litecoin.Psbt
