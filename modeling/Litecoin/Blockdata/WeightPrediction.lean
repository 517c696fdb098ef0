import Litecoin.Blockdata.Sizes
import Litecoin.Wire.Counter
import Mathlib.Data.List.Induction

/-! Predicting the weight of a transaction from the lengths of its scripts and witness elements
(`blockdata/transaction.rs`). -/
namespace Litecoin.Blockdata
open Wire Consensus

/-- A length and the length of the `VarInt` that announces it. -/
def announcedSize (len : Nat) : Nat := len + VarInt.size (UInt64.ofNat len)

structure InputWeightPrediction where
  scriptSize : Nat
  witnessSize : Nat
deriving DecidableEq, Repr

namespace InputWeightPrediction

/-- The loop counts in an `i32`, as the type of its zero is left open. `none` is an overflow of the
count. -/
def new (overflowChecks : Bool) (inputScriptLen : Nat) (witnessElementLengths : List Nat) :
    Option InputWeightPrediction := do
  let (count, totalSize) ← witnessElementLengths.foldlM
    (fun (count, totalSize) elemLen => do
      let elemSize := announcedSize elemLen
      let count ← increment overflowChecks count
      some (count, totalSize + elemSize)) ((0 : Int32), 0)
  let witnessSize := if 0 < count then totalSize + VarInt.size count.toInt64.toUInt64 else 0
  some { scriptSize := announcedSize inputScriptLen, witnessSize }

def fromSlice (inputScriptLen : Nat) (witnessElementLengths : List Nat) : InputWeightPrediction :=
  let totalSize := witnessElementLengths.foldl
    (fun totalSize elemLen => totalSize + announcedSize elemLen) 0
  let witnessSize := if !witnessElementLengths.isEmpty then
      totalSize + VarInt.size (UInt64.ofNat witnessElementLengths.length)
    else 0
  { scriptSize := announcedSize inputScriptLen, witnessSize }

def weight (prediction : InputWeightPrediction) : Nat :=
  prediction.scriptSize * 4 + prediction.witnessSize

/-- `(self.witness_size > 0) as usize`. -/
def hasWitness (prediction : InputWeightPrediction) : Nat :=
  if 0 < prediction.witnessSize then 1 else 0

end InputWeightPrediction

def predictWeightInternal (inputCount partialInputWeight inputsWithWitnesses outputCount
    outputScriptsSize : Nat) : Nat :=
  let inputWeight := partialInputWeight + inputCount * 4 * (32 + 4 + 4)
  let outputSize := 8 * outputCount + outputScriptsSize
  let nonInputSize := 4 + VarInt.size (UInt64.ofNat inputCount) +
    VarInt.size (UInt64.ofNat outputCount) + outputSize + 4
  if inputsWithWitnesses = 0 then nonInputSize * 4 + inputWeight
  else nonInputSize * 4 + inputWeight + inputCount - inputsWithWitnesses + 2

def predictWeight (inputs : List InputWeightPrediction) (outputScriptLens : List Nat) : Nat :=
  let (inputCount, partialInputWeight, inputsWithWitnesses) := inputs.foldl
    (fun (count, partialInputWeight, inputsWithWitnesses) prediction =>
      (count + 1, partialInputWeight + prediction.weight,
        inputsWithWitnesses + prediction.hasWitness)) (0, 0, 0)
  let (outputCount, outputScriptsSize) := outputScriptLens.foldl
    (fun (outputCount, totalScriptsSize) scriptLen =>
      (outputCount + 1, totalScriptsSize + announcedSize scriptLen)) (0, 0)
  predictWeightInternal inputCount partialInputWeight inputsWithWitnesses outputCount
    outputScriptsSize

def predictWeightFromSlices (inputs : List InputWeightPrediction) (outputScriptLens : List Nat) :
    Nat :=
  let (partialInputWeight, inputsWithWitnesses) := inputs.foldl
    (fun (partialInputWeight, inputsWithWitnesses) prediction =>
      (partialInputWeight + prediction.weight, inputsWithWitnesses + prediction.hasWitness)) (0, 0)
  let outputScriptsSize := outputScriptLens.foldl
    (fun outputScriptsSize scriptLen => outputScriptsSize + announcedSize scriptLen) 0
  predictWeightInternal inputs.length partialInputWeight inputsWithWitnesses
    outputScriptLens.length outputScriptsSize

/-! The loops as sums. -/

theorem foldl_sum (size : α → Nat) (values : List α) (start : Nat) :
    values.foldl (fun total a => total + size a) start = start + (values.map size).sum := by
  induction values generalizing start with
  | nil => rfl
  | cons a rest ih => rw [List.foldl_cons, ih, List.map_cons, List.sum_cons, Nat.add_assoc]

theorem foldl_two (first second : α → Nat) (values : List α) (start : Nat × Nat) :
    values.foldl (fun (one, two) a => (one + first a, two + second a)) start =
      (start.1 + (values.map first).sum, start.2 + (values.map second).sum) := by
  induction values generalizing start with
  | nil => rfl
  | cons a rest ih => simp only [List.foldl_cons, ih, List.map_cons, List.sum_cons, Nat.add_assoc]

theorem foldl_three (first second third : α → Nat) (values : List α) (start : Nat × Nat × Nat) :
    values.foldl (fun (one, two, three) a => (one + first a, two + second a, three + third a)) start =
      (start.1 + (values.map first).sum, start.2.1 + (values.map second).sum,
        start.2.2 + (values.map third).sum) := by
  induction values generalizing start with
  | nil => rfl
  | cons a rest ih => simp only [List.foldl_cons, ih, List.map_cons, List.sum_cons, Nat.add_assoc]

theorem sum_ones (values : List α) : (values.map fun _ => 1).sum = values.length := by
  rw [List.map_const', List.sum_replicate_nat, Nat.mul_one]

namespace InputWeightPrediction

/-- The size of a witness of elements of these lengths. -/
def stackSize (lengths : List Nat) : Nat :=
  VarInt.size (UInt64.ofNat lengths.length) + (lengths.map announcedSize).sum

theorem fromSlice_eq (inputScriptLen : Nat) (lengths : List Nat) : fromSlice inputScriptLen lengths =
    { scriptSize := announcedSize inputScriptLen
      witnessSize := if lengths = [] then 0 else stackSize lengths } := by
  rw [fromSlice, foldl_sum]
  cases lengths with
  | nil => rfl
  | cons first rest => simp [stackSize, Nat.add_comm]

theorem new_eq (overflowChecks : Bool) (inputScriptLen : Nat) (lengths : List Nat) :
    new overflowChecks inputScriptLen lengths =
      (counted overflowChecks lengths.length).map fun count =>
        { scriptSize := announcedSize inputScriptLen
          witnessSize := if 0 < count then
            (lengths.map announcedSize).sum + VarInt.size count.toInt64.toUInt64 else 0 } := by
  have loop : lengths.foldlM (fun ((count, totalSize) : Int32 × Nat) elemLen => do
      let elemSize := announcedSize elemLen
      let count ← increment overflowChecks count
      some (count, totalSize + elemSize)) ((0 : Int32), 0) =
      (counted overflowChecks lengths.length).map fun count =>
        (count, (lengths.map announcedSize).sum) := by
    induction lengths using List.reverseRecOn with
    | nil => rw [List.length_nil, counted_zero]; rfl
    | append_singleton lengths elemLen ih =>
      rw [List.foldlM_append, ih, List.length_append, List.length_singleton, ← counted_bind_increment,
        List.map_append, List.sum_append, List.map_singleton, List.sum_singleton]
      cases counted overflowChecks lengths.length with
      | none => rfl
      | some count =>
        simp only [Option.map_some, Option.bind_eq_bind, Option.bind_some, List.foldlM_cons, List.foldlM_nil]
        cases increment overflowChecks count <;> rfl
  rw [new, loop]
  cases counted overflowChecks lengths.length <;> rfl

/-- As long as the count is right, the loop is that of the slice. -/
theorem new_eq_fromSlice {overflowChecks : Bool} {inputScriptLen : Nat} {lengths : List Nat}
    (few : lengths.length < 2 ^ 31) :
    new overflowChecks inputScriptLen lengths = some (fromSlice inputScriptLen lengths) := by
  rw [new_eq, counted_of_lt few, Option.map_some, toUInt64_ofNat few, fromSlice_eq]
  cases lengths with
  | nil => rfl
  | cons first rest =>
    have positive : 0 < (first :: rest).length := Nat.succ_pos _
    rw [if_pos ((ofNat_positive_iff few).mpr positive), if_neg (List.cons_ne_nil _ _), stackSize, Nat.add_comm]

/-- A count that has overflowed leaves the witness out. -/
theorem new_overflow {overflowChecks : Bool} {inputScriptLen : Nat} {lengths : List Nat}
    (many : 2 ^ 31 ≤ lengths.length) (bound : lengths.length ≤ 2 ^ 32) :
    new overflowChecks inputScriptLen lengths =
      if overflowChecks then none
      else some { fromSlice inputScriptLen lengths with witnessSize := 0 } := by
  rw [new_eq, fromSlice_eq, counted]
  cases overflowChecks with
  | true => rw [if_pos ⟨rfl, many⟩]; rfl
  | false => rw [if_neg (by simp), Option.map_some, if_neg (ofNat_not_positive many bound)]; rfl

end InputWeightPrediction

theorem predictWeight_eq (inputs : List InputWeightPrediction) (outputScriptLens : List Nat) :
    predictWeight inputs outputScriptLens =
      predictWeightInternal inputs.length (inputs.map InputWeightPrediction.weight).sum
        (inputs.map InputWeightPrediction.hasWitness).sum outputScriptLens.length
        (outputScriptLens.map announcedSize).sum := by
  have first := foldl_three (fun _ => 1) InputWeightPrediction.weight
    InputWeightPrediction.hasWitness inputs (0, 0, 0)
  have second := foldl_two (fun _ => 1) announcedSize outputScriptLens (0, 0)
  simp only [sum_ones, Nat.zero_add] at first second
  rw [predictWeight, first, second]

theorem predictWeightFromSlices_eq (inputs : List InputWeightPrediction)
    (outputScriptLens : List Nat) :
    predictWeightFromSlices inputs outputScriptLens = predictWeight inputs outputScriptLens := by
  have first := foldl_two InputWeightPrediction.weight InputWeightPrediction.hasWitness inputs (0, 0)
  simp only [Nat.zero_add] at first
  rw [predictWeight_eq, predictWeightFromSlices, first, foldl_sum, Nat.zero_add]

/-! The predictions for the inputs of a transaction. -/

/-- The lengths the iterator goes through. -/
def Witness.lengths (witness : Witness) : Option (List Nat) :=
  witness.packed.toVec.map fun elements => elements.map List.length

/-- `Witness::len`. -/
def Witness.len (witness : Witness) : Nat := witness.packed.witnessElements

namespace InputWeightPrediction

def ofTxIn (overflowChecks : Bool) (txin : TxIn) : Option InputWeightPrediction :=
  txin.witness.lengths.bind (new overflowChecks txin.scriptSig.toList.length)

def ofTxInSlice (txin : TxIn) : Option InputWeightPrediction :=
  txin.witness.lengths.map (fromSlice txin.scriptSig.toList.length)

theorem varIntSize_pos (n : UInt64) : 0 < VarInt.size n := by
  rw [← VarInt.wire_length]
  exact VarInt.wire_length_pos n

theorem hasWitness_fromSlice (inputScriptLen : Nat) (lengths : List Nat) :
    (fromSlice inputScriptLen lengths).hasWitness = if lengths = [] then 0 else 1 := by
  rw [fromSlice_eq, hasWitness]
  cases lengths with
  | nil => rfl
  | cons first rest =>
    have positive : 0 < stackSize (first :: rest) :=
      Nat.lt_of_lt_of_le (varIntSize_pos _) (Nat.le_add_right _ _)
    simp only [reduceCtorEq, if_false, if_pos positive]

/-- A witness without elements still has its count. -/
theorem witnessSize_fromSlice (inputScriptLen : Nat) (lengths : List Nat) :
    stackSize lengths + (fromSlice inputScriptLen lengths).hasWitness =
      (fromSlice inputScriptLen lengths).witnessSize + 1 := by
  rw [hasWitness_fromSlice, fromSlice_eq]
  cases lengths with
  | nil => rfl
  | cons first rest => rfl

end InputWeightPrediction

open InputWeightPrediction

/-- The lengths of a witness and what they say of it. -/
theorem Witness.lengths_eq (witness : Witness) :
    ∃ lengths, witness.lengths = some lengths ∧ witness.wire.length = stackSize lengths ∧
      (witness.isEmpty = true ↔ lengths = []) ∧ lengths.length = witness.len ∧ witness.len ≤ 2 ^ 32 := by
  obtain ⟨elements, packed, indexed⟩ := witness.wellFormed
  have count : witness.len = elements.toList.length := by
    rw [len, packed]
    rfl
  refine ⟨elements.toList.map fun element => element.toList.length, ?_, ?_, ?_, ?_, ?_⟩
  · rw [lengths, packed, Packed.toVec_pack indexed, Option.map_some, List.map_map]
    rfl
  · have each (element : ByteVec) (_ : element ∈ elements.toList) :
        announcedSize element.toList.length = (bytesWire element).length := by
      rw [Packed.bytesWire_length, announcedSize, Nat.add_comm]
      rfl
    rw [wire_pack packed, vecWire_length each, stackSize, List.length_map, List.map_map]
    rfl
  · rw [isEmpty, packed, Packed.isEmpty, Packed.pack, beq_iff_eq, List.length_eq_zero_iff,
      List.map_eq_nil_iff]
  · rw [List.length_map, count]
  · rw [count]
    exact indexed.length_le

/-- The predictions of the inputs and what they add up to. -/
structure Tally (inputs : List TxIn) (predictions : List InputWeightPrediction) : Prop where
  sliced : inputs.mapM ofTxInSlice = some predictions
  count : predictions.length = inputs.length
  scripts : 4 * (inputs.map TxIn.baseSize).sum +
      (predictions.map InputWeightPrediction.witnessSize).sum =
    160 * inputs.length + (predictions.map InputWeightPrediction.weight).sum
  witnesses : (inputs.map fun txin => txin.witness.wire.length).sum +
      (predictions.map InputWeightPrediction.hasWitness).sum =
    (predictions.map InputWeightPrediction.witnessSize).sum + inputs.length
  some_le : (predictions.map InputWeightPrediction.hasWitness).sum ≤ inputs.length
  bare_iff : (predictions.map InputWeightPrediction.hasWitness).sum = 0 ↔
    (inputs.any fun txin => !txin.witness.isEmpty) = false
  bare : (predictions.map InputWeightPrediction.hasWitness).sum = 0 →
    (predictions.map InputWeightPrediction.witnessSize).sum = 0

theorem Tally.cons {inputs : List TxIn} {predictions : List InputWeightPrediction}
    (tally : Tally inputs predictions) (txin : TxIn) :
    ∃ prediction, Tally (txin :: inputs) (prediction :: predictions) := by
  obtain ⟨lengths, measured, size, empty, -, -⟩ := txin.witness.lengths_eq
  refine ⟨fromSlice txin.scriptSig.toList.length lengths, ?_⟩
  have sliced : ofTxInSlice txin = some (fromSlice txin.scriptSig.toList.length lengths) := by
    rw [ofTxInSlice, measured, Option.map_some]
  have witness := witnessSize_fromSlice txin.scriptSig.toList.length lengths
  have present := hasWitness_fromSlice txin.scriptSig.toList.length lengths
  have script : txin.baseSize =
      40 + (fromSlice txin.scriptSig.toList.length lengths).scriptSize := by
    rw [fromSlice_eq, TxIn.baseSize, OutPoint.size, sequenceSize, Vec.len]
    simp only [announcedSize]
    omega
  have added := tally.scripts
  have counted := tally.witnesses
  have most := tally.some_le
  have weighed : (fromSlice txin.scriptSig.toList.length lengths).weight =
      (fromSlice txin.scriptSig.toList.length lengths).scriptSize * 4 +
        (fromSlice txin.scriptSig.toList.length lengths).witnessSize := rfl
  refine ⟨?_, ?_, ?_, ?_, ?_, ?_, ?_⟩
  · rw [List.mapM_cons, sliced, tally.sliced]
    rfl
  · rw [List.length_cons, List.length_cons, tally.count]
  · simp only [List.map_cons, List.sum_cons, List.length_cons]
    omega
  · simp only [List.map_cons, List.sum_cons, List.length_cons]
    omega
  · simp only [List.map_cons, List.sum_cons, List.length_cons, present]
    split_ifs <;> omega
  · simp only [List.map_cons, List.sum_cons, List.any_cons, Nat.add_eq_zero_iff, tally.bare_iff,
      Bool.or_eq_false_iff, Bool.not_eq_false', present, empty]
    exact and_congr_left fun _ => by split_ifs with none <;> simp [none]
  · simp only [List.map_cons, List.sum_cons, Nat.add_eq_zero_iff]
    rintro ⟨absent, others⟩
    refine ⟨?_, tally.bare others⟩
    rw [absent] at witness
    rw [present] at absent
    split_ifs at absent with none
    rw [fromSlice_eq, if_pos none]

theorem exists_tally (inputs : List TxIn) : ∃ predictions, Tally inputs predictions := by
  induction inputs with
  | nil => exact ⟨[], rfl, rfl, rfl, rfl, Nat.le_refl _, Iff.rfl.trans (by simp), fun _ => rfl⟩
  | cons txin rest ih =>
    obtain ⟨predictions, tally⟩ := ih
    obtain ⟨prediction, longer⟩ := tally.cons txin
    exact ⟨prediction :: predictions, longer⟩

/-- One input, where the count of its elements overflows or not. -/
theorem ofTxIn_eq (overflowChecks : Bool) {txin : TxIn} {prediction : InputWeightPrediction}
    (sliced : ofTxInSlice txin = some prediction) :
    ofTxIn overflowChecks txin =
      if txin.witness.len < 2 ^ 31 then some prediction
      else if overflowChecks then none
      else some { prediction with witnessSize := 0 } := by
  obtain ⟨lengths, measured, -, -, count, bound⟩ := txin.witness.lengths_eq
  rw [ofTxInSlice, measured, Option.map_some] at sliced
  obtain rfl := Option.some.inj sliced
  rw [← count] at bound ⊢
  rw [ofTxIn, measured, Option.bind_some]
  split
  · next few => exact new_eq_fromSlice few
  · next many => exact new_overflow (Nat.le_of_not_lt many) bound

/-- A witness that is left out has more than one byte. -/
theorem one_lt_witnessSize {txin : TxIn} {prediction : InputWeightPrediction}
    (sliced : ofTxInSlice txin = some prediction) (many : 2 ^ 31 ≤ txin.witness.len) :
    1 < prediction.witnessSize := by
  obtain ⟨lengths, measured, -, -, count, -⟩ := txin.witness.lengths_eq
  rw [ofTxInSlice, measured, Option.map_some] at sliced
  obtain rfl := Option.some.inj sliced
  have each : lengths.length ≤ (lengths.map announcedSize).sum := by
    rw [← List.length_map announcedSize]
    refine List.length_le_sum_of_one_le _ ?_
    rw [List.forall_mem_map]
    exact fun len _ => Nat.le_add_left_of_le (varIntSize_pos _)
  have some_ : lengths ≠ [] := by
    rintro rfl
    rw [← count, List.length_nil] at many
    omega
  have size : (fromSlice txin.scriptSig.toList.length lengths).witnessSize = stackSize lengths := by
    rw [fromSlice_eq, if_neg some_]
  rw [size, stackSize]
  omega

theorem mapM_ofTxIn_of_few (overflowChecks : Bool) {inputs : List TxIn}
    {predictions : List InputWeightPrediction} (sliced : inputs.mapM ofTxInSlice = some predictions)
    (few : ∀ txin ∈ inputs, txin.witness.len < 2 ^ 31) :
    inputs.mapM (ofTxIn overflowChecks) = some predictions := by
  induction inputs generalizing predictions with
  | nil => exact sliced
  | cons txin rest ih =>
    simp only [List.mapM_cons, Option.bind_eq_bind, Option.bind_eq_some_iff] at sliced
    obtain ⟨prediction, first, others, sliced, ⟨⟩⟩ := sliced
    rw [List.forall_mem_cons] at few
    rw [List.mapM_cons, ofTxIn_eq overflowChecks first, if_pos few.1, ih sliced few.2]
    rfl

/-- With overflow checks there is no prediction for an input whose count overflows. -/
theorem few_of_mapM_ofTxIn {inputs : List TxIn} {predictions short : List InputWeightPrediction}
    (sliced : inputs.mapM ofTxInSlice = some predictions) (ran : inputs.mapM (ofTxIn true) = some short) :
    ∀ txin ∈ inputs, txin.witness.len < 2 ^ 31 := by
  induction inputs generalizing predictions short with
  | nil => nofun
  | cons txin rest ih =>
    simp only [List.mapM_cons, Option.bind_eq_bind, Option.bind_eq_some_iff] at sliced ran
    obtain ⟨prediction, first, others, sliced, -⟩ := sliced
    obtain ⟨_, counted, others', ran, -⟩ := ran
    rw [ofTxIn_eq true first] at counted
    refine List.forall_mem_cons.mpr ⟨?_, ih sliced ran⟩
    by_contra many
    rw [if_neg many] at counted
    exact absurd counted nofun

/-- What is missing where the counts of elements have wrapped around: the witnesses that are left
out. -/
theorem undercount {inputs : List TxIn} {predictions : List InputWeightPrediction}
    (sliced : inputs.mapM ofTxInSlice = some predictions) :
    ∃ short lost, inputs.mapM (ofTxIn false) = some short ∧ short.length = predictions.length ∧
      (short.map InputWeightPrediction.weight).sum + lost =
        (predictions.map InputWeightPrediction.weight).sum ∧
      (short.map InputWeightPrediction.hasWitness).sum +
          inputs.countP (fun txin => 2 ^ 31 ≤ txin.witness.len) =
        (predictions.map InputWeightPrediction.hasWitness).sum ∧
      2 * inputs.countP (fun txin => 2 ^ 31 ≤ txin.witness.len) ≤ lost := by
  induction inputs generalizing predictions with
  | nil =>
    obtain rfl := Option.some.inj sliced
    exact ⟨[], 0, rfl, rfl, rfl, rfl, Nat.le_refl _⟩
  | cons txin rest ih =>
    simp only [List.mapM_cons, Option.bind_eq_bind, Option.bind_eq_some_iff] at sliced
    obtain ⟨prediction, first, others, sliced, ⟨⟩⟩ := sliced
    obtain ⟨short, lost, ran, count, weights, witnesses, more⟩ := ih sliced
    have here := ofTxIn_eq false first
    by_cases few : txin.witness.len < 2 ^ 31
    · rw [if_pos few] at here
      have counted : ¬ (2 ^ 31 ≤ txin.witness.len) := Nat.not_le.mpr few
      refine ⟨prediction :: short, lost, ?_, ?_, ?_, ?_, ?_⟩
      · rw [List.mapM_cons, here, ran]
        rfl
      all_goals simp only [List.length_cons, List.map_cons, List.sum_cons, List.countP_cons, counted,
        decide_false, Bool.false_eq_true, if_false]
      all_goals omega
    · rw [if_neg few, if_neg Bool.false_ne_true] at here
      have counted : 2 ^ 31 ≤ txin.witness.len := Nat.le_of_not_lt few
      have size := one_lt_witnessSize first counted
      have present : prediction.hasWitness = 1 := if_pos (Nat.lt_of_succ_lt size)
      have absent : InputWeightPrediction.hasWitness { prediction with witnessSize := 0 } = 0 := rfl
      refine ⟨{ prediction with witnessSize := 0 } :: short, lost + prediction.witnessSize, ?_, ?_, ?_, ?_, ?_⟩
      · rw [List.mapM_cons, here, ran]
        rfl
      all_goals simp only [List.length_cons, List.map_cons, List.sum_cons, List.countP_cons, counted,
        decide_true, if_true, InputWeightPrediction.weight, present, absent]
      all_goals omega

section
variable [Secp256k1]

namespace Transaction

def scriptPubkeyLens (tx : Transaction) : List Nat :=
  tx.output.toList.map fun txout => txout.scriptPubkey.toList.length

/-- `predict_weight` on the lengths of the transaction. -/
def predictedWeight (overflowChecks : Bool) (tx : Transaction) : Option Nat := do
  let inputs ← tx.input.toList.mapM (ofTxIn overflowChecks)
  some (predictWeight inputs tx.scriptPubkeyLens)

/-- `predict_weight_from_slices` on the lengths of the transaction. -/
def predictedWeightFromSlices (tx : Transaction) : Option Nat := do
  let inputs ← tx.input.toList.mapM ofTxInSlice
  some (predictWeightFromSlices inputs tx.scriptPubkeyLens)

theorem outputs_size (tx : Transaction) : (tx.output.toList.map TxOut.size).sum =
    8 * tx.output.toList.length + (tx.scriptPubkeyLens.map announcedSize).sum := by
  rw [scriptPubkeyLens, List.map_map]
  induction tx.output.toList with
  | nil => rfl
  | cons txout rest ih =>
    have size : txout.size = 8 + announcedSize txout.scriptPubkey.toList.length := by
      rw [TxOut.size, amountSize, announcedSize, Vec.len]
      omega
    rw [List.map_cons, List.sum_cons, ih, size, List.map_cons, List.sum_cons, List.length_cons,
      Function.comp_apply]
    omega

/-- The prediction counts a byte for each input without a witness, where another one has a
witness. -/
theorem weight_eq_predicted {tx : Transaction} (some_ : tx.input.isEmpty = false)
    {predictions : List InputWeightPrediction} (tally : Tally tx.input.toList predictions) :
    tx.weight = some (predictWeight predictions tx.scriptPubkeyLens) := by
  have outputs := tx.outputs_size
  have scripts := tally.scripts
  have witnesses := tally.witnesses
  have most := tally.some_le
  have outputCount : tx.scriptPubkeyLens.length = tx.output.toList.length := List.length_map _
  have segwit : tx.usesSegwitSerialization = false ↔
      (predictions.map InputWeightPrediction.hasWitness).sum = 0 := by
    rw [usesSegwitSerialization, some_, Bool.or_false]
    exact tally.bare_iff.symm
  rw [weight_eq, wire_withoutMweb_length, predictWeight_eq, predictWeightInternal, tally.count,
    outputCount, ← Vec.len, ← Vec.len, Option.some.injEq, baseSize, LockTime.size]
  by_cases bare : (predictions.map InputWeightPrediction.hasWitness).sum = 0
  · have none := tally.bare bare
    rw [if_pos bare, segwit.mpr bare, if_neg Bool.false_ne_true]
    omega
  · rw [if_neg bare, if_pos (Bool.not_eq_false _ ▸ mt segwit.mp bare)]
    omega

theorem predictedWeightFromSlices_of_tally {tx : Transaction} {predictions : List InputWeightPrediction}
    (tally : Tally tx.input.toList predictions) :
    tx.predictedWeightFromSlices = some (predictWeight predictions tx.scriptPubkeyLens) := by
  rw [predictedWeightFromSlices, tally.sliced]
  exact congrArg some (predictWeightFromSlices_eq _ _)

/-- No witness has more elements than an `i32` counts. -/
def Countable (tx : Transaction) : Prop := ∀ txin ∈ tx.input.toList, txin.witness.len < 2 ^ 31

theorem predictedWeight_of_countable {tx : Transaction} (countable : tx.Countable)
    {predictions : List InputWeightPrediction} (tally : Tally tx.input.toList predictions)
    (overflowChecks : Bool) :
    tx.predictedWeight overflowChecks = some (predictWeight predictions tx.scriptPubkeyLens) := by
  rw [predictedWeight, mapM_ofTxIn_of_few overflowChecks tally.sliced countable]
  rfl

/-- Where a count overflows, there is no prediction or one that is too small. -/
theorem countable_of_predictedWeight {tx : Transaction} {predictions : List InputWeightPrediction}
    (tally : Tally tx.input.toList predictions) {overflowChecks : Bool}
    (predicted : tx.predictedWeight overflowChecks = some (predictWeight predictions tx.scriptPubkeyLens)) :
    tx.Countable := by
  simp only [predictedWeight, Option.bind_eq_bind, Option.bind_eq_some_iff, Option.some.injEq] at predicted
  obtain ⟨short, ran, same⟩ := predicted
  cases overflowChecks with
  | true => exact few_of_mapM_ofTxIn tally.sliced ran
  | false =>
    obtain ⟨_, lost, ran', count, weights, witnesses, more⟩ := undercount tally.sliced
    obtain rfl := Option.some.inj (ran.symm.trans ran')
    have most := tally.some_le
    have all := tally.count
    rw [predictWeight_eq, predictWeight_eq, predictWeightInternal, predictWeightInternal, count, all] at same
    have none : tx.input.toList.countP (fun txin => 2 ^ 31 ≤ txin.witness.len) = 0 := by
      split_ifs at same <;> omega
    rw [List.countP_eq_zero] at none
    exact fun txin inside => Nat.lt_of_not_le fun many => none txin inside (decide_eq_true many)

/-- The prediction from slices is the weight of every transaction with an input, and the one from
iterators is exactly when the elements of each witness can be counted. -/
theorem predictedWeight_exact_iff (overflowChecks : Bool) {tx : Transaction}
    (some_ : tx.input.isEmpty = false) : ∃ weight, tx.weight = some weight ∧
      tx.predictedWeightFromSlices = some weight ∧
      (tx.predictedWeight overflowChecks = some weight ↔ tx.Countable) := by
  obtain ⟨predictions, tally⟩ := exists_tally tx.input.toList
  exact ⟨_, weight_eq_predicted some_ tally, predictedWeightFromSlices_of_tally tally,
    countable_of_predictedWeight tally, fun countable =>
      predictedWeight_of_countable countable tally overflowChecks⟩

end Transaction
end

/-- A stack of so many empty elements. -/
def empties (count : Nat) (small : count < 2 ^ 64) : Vec ByteVec :=
  ⟨List.replicate count .empty, by rw [List.length_replicate]; exact small⟩

theorem length_body_replicate (count : Nat) :
    (Packed.body (List.replicate count .empty)).length = count := by
  induction count with
  | zero => rfl
  | succ count ih =>
    rw [List.replicate_succ, Packed.body_cons, List.length_append, ih, Nat.add_comm]
    rfl

theorem empties_indexed {count : Nat} (small : count < 2 ^ 32) :
    Packed.Indexed (List.replicate count .empty) where
  inRange := Packed.inRange_of_lt (by rw [length_body_replicate]; omega)
  allocated := by
    rw [length_body_replicate, List.length_replicate]
    omega

/-- A witness of empty elements. -/
def ofEmpties (count : Nat) (small : count < 2 ^ 32) : Witness :=
  ⟨.pack (empties count (by omega)), empties count (by omega), rfl, empties_indexed small⟩

theorem len_ofEmpties (count : Nat) (small : count < 2 ^ 32) : (ofEmpties count small).len = count :=
  List.length_replicate

section
attribute [local instance] Secp256k1.generatorOnly

/-- One input with a witness. -/
def spendingWith (witness : Witness) : Transaction where
  version := 2
  lockTime := .fromConsensus 0
  input := .singleton { previousOutput := { txid := .filled 32 5, vout := 0 }
                        scriptSig := .empty, sequence := 0, witness }
  output := .empty
  mwTx := none
  isHogEx := false

theorem spendingWith_unpredicted {witness : Witness} (many : 2 ^ 31 ≤ witness.len) :
    ∃ weight, (spendingWith witness).weight = some weight ∧
      (spendingWith witness).predictedWeightFromSlices = some weight ∧
      ∀ overflowChecks, (spendingWith witness).predictedWeight overflowChecks ≠ some weight := by
  obtain ⟨predictions, tally⟩ := exists_tally (spendingWith witness).input.toList
  refine ⟨_, Transaction.weight_eq_predicted rfl tally, Transaction.predictedWeightFromSlices_of_tally tally,
    fun overflowChecks predicted => ?_⟩
  have few := Transaction.countable_of_predictedWeight tally predicted _ (List.mem_singleton_self _)
  exact absurd few many.not_gt

/-- For one element more than an `i32` counts, the count overflows or the witness counts for
nothing. -/
theorem countless_unpredicted : ∃ weight,
    (spendingWith (ofEmpties (2 ^ 31) (by decide))).weight = some weight ∧
    (spendingWith (ofEmpties (2 ^ 31) (by decide))).predictedWeightFromSlices = some weight ∧
    ∀ overflowChecks,
      (spendingWith (ofEmpties (2 ^ 31) (by decide))).predictedWeight overflowChecks ≠ some weight :=
  spendingWith_unpredicted (len_ofEmpties _ _).ge

theorem witnessing_predictedWeight : ∃ weight, witnessing.weight = some weight ∧
    witnessing.predictedWeightFromSlices = some weight ∧
    witnessing.predictedWeight true = some weight := by
  obtain ⟨weight, actual, slices, counted⟩ := Transaction.predictedWeight_exact_iff true
    (show witnessing.input.isEmpty = false from rfl)
  have countable : witnessing.Countable := by
    rw [Transaction.Countable]
    decide
  exact ⟨weight, actual, slices, counted.mpr countable⟩

end
end Litecoin.Blockdata
