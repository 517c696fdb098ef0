import Litecoin.Psbt.Layout

/-! How the MWEB lists of a PSBT grow along the pairs of its global map. -/
namespace Litecoin.Psbt
open Wire Consensus

/-- The kernel field of a pair, if it is one. -/
def kernelUpdate (pair : Pair) : Option (Nat × KvPair) :=
  if GlobalArm.ofKey pair.key = .mwebKernelField then
    some (mwebIndex pair.key, mwebFieldType pair.key, pair.key.key.drop 5, pair.value)
  else none

def outputUpdate (pair : Pair) : Option (Nat × UInt8 × Bytes) :=
  if GlobalArm.ofKey pair.key = .mwebOutputField then
    some (mwebIndex pair.key, mwebFieldType pair.key, pair.value)
  else none

def inputUpdate (pair : Pair) : Option (Nat × KvPair) :=
  if GlobalArm.ofKey pair.key = .mwebInputField then
    some (mwebIndex pair.key, pair.key.typeValue, pair.key.key.drop 4, pair.value)
  else none

namespace GlobalState
variable [Secp256k1] {state next final : GlobalState}

theorem insertPair_mwebKernels (inserted : state.insertPair pair = .ok next) :
    next.mwebKernels = (kernelUpdate pair).elim state.mwebKernels
      (applyAt MwebKernel.default MwebKernel.applyField state.mwebKernels) := by
  cases insertPair_inserts inserted <;> simp [kernelUpdate, *]

theorem insertPair_mwebOutputs (inserted : state.insertPair pair = .ok next) :
    next.mwebOutputs = (outputUpdate pair).elim state.mwebOutputs
      (applyAt MwebOutput.table.empty MwebOutput.applyField state.mwebOutputs) := by
  cases insertPair_inserts inserted <;> simp [outputUpdate, *]

theorem insertPair_mwebInputs (inserted : state.insertPair pair = .ok next) :
    next.mwebInputs = (inputUpdate pair).elim state.mwebInputs
      (applyAt MwebInput.table.empty MwebInput.applyKvField state.mwebInputs) := by
  cases insertPair_inserts inserted <;> simp [inputUpdate, *]

theorem run_mwebKernels (ran : run insertPair .initial pairs = .ok final) :
    final.mwebKernels = (pairs.filterMap kernelUpdate).foldl
      (applyAt MwebKernel.default MwebKernel.applyField) [] :=
  run_project mwebKernels kernelUpdate _ (fun _ _ _ => insertPair_mwebKernels) ran

theorem run_mwebOutputs (ran : run insertPair .initial pairs = .ok final) :
    final.mwebOutputs = (pairs.filterMap outputUpdate).foldl
      (applyAt MwebOutput.table.empty MwebOutput.applyField) [] :=
  run_project mwebOutputs outputUpdate _ (fun _ _ _ => insertPair_mwebOutputs) ran

theorem run_mwebInputs (ran : run insertPair .initial pairs = .ok final) :
    final.mwebInputs = (pairs.filterMap inputUpdate).foldl
      (applyAt MwebInput.table.empty MwebInput.applyKvField) [] :=
  run_project mwebInputs inputUpdate _ (fun _ _ _ => insertPair_mwebInputs) ran

end GlobalState
namespace MwebKernel

/-- The place a kernel field asks for, if it is a peg-out: the index that its key data
starts with, or the end. -/
def pegoutMark (kv : KvPair) : Option (Option Nat) :=
  if kv.1 = pegoutType then some (kv.2.1.head?.map UInt8.toNat) else none

theorem length_applyField (kernel : MwebKernel) (kv : KvPair) :
    (kernel.applyField kv).pegouts.length =
      (pegoutMark kv).elim kernel.pegouts.length (growth kernel.pegouts.length) := by
  rw [applyField, pegoutMark]
  split
  · cases kv.2.1 with
    | nil => simp [applyPegout, length_applyAt, growth]
    | cons byte tail => simp [applyPegout, length_applyAt, growth]
  · rfl

theorem length_pegouts (updates : List (Nat × KvPair)) (kernel : MwebKernel) :
    (updates.foldl (fun kernel update => kernel.applyField update.2) kernel).pegouts.length =
      (updates.filterMap (pegoutMark ·.2)).foldl growth kernel.pegouts.length := by
  induction updates generalizing kernel with
  | nil => rfl
  | cons update rest ih =>
    rw [List.foldl_cons, ih, length_applyField]
    cases found : pegoutMark update.2 with
    | none => simp [found]
    | some mark => simp [found]

end MwebKernel

/-- The places that the peg-outs of the kernel with index `k` ask for. -/
def pegoutMarks (pairs : List Pair) (k : Nat) : List (Option Nat) :=
  ((pairs.filterMap kernelUpdate).filter (·.1 = k)).filterMap (MwebKernel.pegoutMark ·.2)

theorem pegouts_length_le_iff (pairs : List Pair) (n : Nat) :
    (∀ kernel ∈ (pairs.filterMap kernelUpdate).foldl (applyAt .default MwebKernel.applyField) [],
      kernel.pegouts.length ≤ n) ↔
    ∀ k, (pegoutMarks pairs k).count none ≤ n ∧ IndicesLeaveRoom n (pegoutMarks pairs k) := by
  rw [forall_mem_foldl_applyAt MwebKernel.default MwebKernel.applyField (Nat.zero_le n)]
  refine forall_congr' fun k => ?_
  rw [MwebKernel.length_pegouts, foldl_growth_le]
  simp [pegoutMarks, MwebKernel.default]

theorem count_pegoutMarks_le (pairs : List Pair) (k : Nat) :
    (pegoutMarks pairs k).count none ≤ pairs.length :=
  calc (pegoutMarks pairs k).count none
    _ ≤ (pegoutMarks pairs k).length := List.count_le_length
    _ ≤ ((pairs.filterMap kernelUpdate).filter (·.1 = k)).length := List.length_filterMap_le _ _
    _ ≤ (pairs.filterMap kernelUpdate).length := List.length_filter_le _ _
    _ ≤ pairs.length := List.length_filterMap_le _ _

section
variable [Secp256k1] [Hashes]

/-- The lists are no longer than the global map exactly when no index is. -/
theorem mweb_lists_bounded_iff {psbt : Psbt} (accepted : deserialize data = .ok psbt) :
    (psbt.mwebKernels.length ≤ (globalPairs data).length ∧
      psbt.mwebInputs.length ≤ (globalPairs data).length ∧
      psbt.mwebOutputs.length ≤ (globalPairs data).length ∧
      ∀ kernel ∈ psbt.mwebKernels, kernel.pegouts.length ≤ (globalPairs data).length) ↔
    (∀ update ∈ (globalPairs data).filterMap kernelUpdate, update.1 < (globalPairs data).length) ∧
      (∀ update ∈ (globalPairs data).filterMap inputUpdate, update.1 < (globalPairs data).length) ∧
      (∀ update ∈ (globalPairs data).filterMap outputUpdate, update.1 < (globalPairs data).length) ∧
      ∀ k, IndicesLeaveRoom (globalPairs data).length (pegoutMarks (globalPairs data) k) := by
  obtain ⟨state, tx, _, ran, _, same⟩ := deserialize_global accepted
  rw [same]
  simp only [ofGlobal]
  rw [GlobalState.run_mwebKernels ran, GlobalState.run_mwebInputs ran,
    GlobalState.run_mwebOutputs ran, length_foldl_applyAt_le, length_foldl_applyAt_le,
    length_foldl_applyAt_le, pegouts_length_le_iff]
  simp only [List.length_nil, Nat.zero_le, true_and, count_pegoutMarks_le]

end
section
attribute [local instance] Secp256k1.generatorOnly Hashes.ofEmpty

/-- A transaction without inputs and outputs, and the fee of the kernel with the given
index. -/
def kernelFee (index : UInt8) : Bytes :=
  [0x70, 0x73, 0x62, 0x74, 0xff,
    0x01, 0x00, 0x0a, 0x01, 0x00, 0x00, 0x00, 0x00, 0x00, 0x00, 0x00, 0x00, 0x00,
    0x06, 0x93, index, 0x00, 0x00, 0x00, 0x02, 0x08, 0x05, 0x00, 0x00, 0x00, 0x00, 0x00, 0x00, 0x00,
    0x00]

theorem pegoutMarks_kernelFee (k : Nat) : pegoutMarks (globalPairs (kernelFee 0)) k = [] := by
  have kernels : (globalPairs (kernelFee 0)).filterMap kernelUpdate =
      [(0, 2, [], [0x05, 0x00, 0x00, 0x00, 0x00, 0x00, 0x00, 0x00])] := by decide
  rw [pegoutMarks, kernels, List.filter_cons]
  split <;> rfl

theorem kernelFee_near : ∃ psbt : Psbt, deserialize (kernelFee 0) = .ok psbt ∧
    psbt.mwebKernels.length ≤ (globalPairs (kernelFee 0)).length ∧
    psbt.mwebInputs.length ≤ (globalPairs (kernelFee 0)).length ∧
    psbt.mwebOutputs.length ≤ (globalPairs (kernelFee 0)).length ∧
    ∀ kernel ∈ psbt.mwebKernels, kernel.pegouts.length ≤ (globalPairs (kernelFee 0)).length := by
  have accepted : (·.mwebKernels.length) <$> deserialize (kernelFee 0) = .ok 1 := by decide
  obtain ⟨psbt, read, _⟩ := map_eq_ok.mp accepted
  refine ⟨psbt, read, (mweb_lists_bounded_iff read).mpr ⟨?_, ?_, ?_, ?_⟩⟩
  · decide
  · decide
  · decide
  · intro k
    rw [pegoutMarks_kernelFee]
    trivial

theorem kernelFee_far : ∃ psbt : Psbt, deserialize (kernelFee 200) = .ok psbt ∧
    ¬ psbt.mwebKernels.length ≤ (globalPairs (kernelFee 200)).length := by
  have accepted : (·.mwebKernels.length) <$> deserialize (kernelFee 200) = .ok 201 := by decide +kernel
  have pairs : (globalPairs (kernelFee 200)).length = 2 := by decide
  obtain ⟨psbt, read, length⟩ := map_eq_ok.mp accepted
  refine ⟨psbt, read, ?_⟩
  rw [pairs, length]
  decide

end

end Litecoin.Psbt
