import Litecoin.Psbt.Growth

/-! Which PSBTs are read back from what they are written as. -/
namespace Litecoin.Psbt
open Wire Consensus Blockdata

section
variable {F M : Type} [DecidableEq F] {table : MapTable F M} {MwebKept : M → Prop}

/-- Whatever map is read can be written, and is read back. -/
theorem FieldMap.decodeMap_kept (lawful : table.Lawful MwebKept)
    (read : decodeMap insertPair (default table) bytes = .ok (map, rest)) : map.Kept MwebKept := by
  obtain ⟨pairs, readable, rfl, ran⟩ := decodeMap_eq_ok.mp read
  refine run_invariant ?_ (default_kept lawful) ran
  exact fun map pair member next kept => insertPair_kept lawful kept (readable pair member)

theorem FieldMap.getPairs_decodeMap (lawful : table.Lawful MwebKept) {map : FieldMap table}
    (kept : map.Kept MwebKept) :
    ∃ image, serializeMap <$> map.getPairs = .ok image ∧
      ∀ rest, decodeMap insertPair (default table) (image ++ rest) = .ok (map, rest) := by
  obtain ⟨pairs, written, readable, ran⟩ := getPairs_run lawful kept
  refine ⟨serializeMap pairs, by rw [written]; rfl, fun rest => ?_⟩
  exact decodeMap_eq_ok.mpr ⟨pairs, readable, rfl, ran⟩

end
section
variable [Secp256k1] [Hashes]

section
variable [Secp256k1.Inverse]

theorem inputs_rewritten {inputs : { inputs : List Input // inputs.length = n }}
    (read : Input.decode.times n bytes = .ok (inputs, rest)) :
    ∃ images, inputs.val.mapM Input.serializeMap = .ok images ∧
      ∀ rest, Input.decode.times n (images.flatten ++ rest) = .ok (inputs, rest) := by
  obtain ⟨inputs, rfl⟩ := inputs
  apply mapM_times
  intro input member
  have kept := forall_mem_times (fun _ _ _ => FieldMap.decodeMap_kept Input.table_lawful) read
  exact FieldMap.getPairs_decodeMap Input.table_lawful (kept input member)

theorem outputs_rewritten {outputs : { outputs : List Output // outputs.length = n }}
    (read : Output.decode.times n bytes = .ok (outputs, rest)) :
    ∃ images, outputs.val.mapM Output.serializeMap = .ok images ∧
      ∀ rest, Output.decode.times n (images.flatten ++ rest) = .ok (outputs, rest) := by
  obtain ⟨outputs, rfl⟩ := outputs
  apply mapM_times
  intro output member
  have kept := forall_mem_times (fun _ _ _ => FieldMap.decodeMap_kept Output.table_lawful) read
  exact FieldMap.getPairs_decodeMap Output.table_lawful (kept output member)

end

section
variable [Secp256k1.Lawful]

omit [Secp256k1] [Hashes] [Secp256k1.Lawful] in
/-- The fields of a kernel have short key data and readable values. -/
theorem MwebKernel.Kept.short {kernel : MwebKernel} (kept : kernel.Kept)
    (member : kv ∈ kernel.toKvPairs) :
    kv.2.1.length ≤ 5000 ∧ (sizedWire kv.2.2).length ≤ maxVecSize := by
  have field {fields : List MwebKernel.Field} (part : fields ⊆ MwebKernel.table.fields)
      (listed : kv ∈ MwebKernel.table.kvPairs fields kernel.fields) :
      kv.2.1.length ≤ 5000 ∧ (sizedWire kv.2.2).length ≤ maxVecSize := by
    obtain ⟨f, own, a, value, same⟩ := MwebTable.mem_kvPairs.mp listed
    exact ⟨MwebTable.kvPairs_key MwebKernel.table_lawful listed,
      (kept.fields kv (MwebTable.mem_kvPairs.mpr ⟨f, part own, a, value, same⟩)).2⟩
  rw [MwebKernel.toKvPairs, List.mem_append, List.mem_append] at member
  obtain (before | pegout) | after := member
  · exact field (List.subset_append_left _ _) before
  · obtain ⟨⟨value, i⟩, listed, rfl⟩ := List.mem_map.mp pegout
    exact ⟨by simp, kept.pegouts value (List.fst_mem_of_mem_zipIdx listed)⟩
  · exact field (List.subset_append_right _ _) after

omit [Secp256k1] [Hashes] [Secp256k1.Lawful] in
theorem readable_of_short {pair : Pair} (keyShort : pair.key.key.length ≤ 6000)
    (valueShort : (sizedWire pair.value).length ≤ maxVecSize) : pair.Readable :=
  ⟨keyShort.trans (by decide), valueShort⟩

theorem getPairs_readable {state : GlobalState} (kept : state.Kept) (found : state.tx = some tx) :
    ∀ pair ∈ (ofGlobal state tx).getPairs, pair.Readable := by
  have array (n : Nat) (value : Bytes) (size : value.length = n) (small : n ≤ 64) :
      (sizedWire value).length ≤ maxVecSize :=
    sizedWire_short.mpr (size.le.trans (small.trans (by decide)))
  have version : ¬ 0 < (ofGlobal state tx).version := by
    cases given : state.version with
    | none => simp [ofGlobal, given]
    | some version => simp [ofGlobal, given, kept.version version given]
  rw [getPairs, if_neg version]
  simp only [List.mem_append, ofGlobal]
  rintro pair ((((((((((member | member) | member) | member) | member) | member) | member) | member) |
    member) | member) | member)
  · obtain rfl := List.mem_singleton.mp member
    refine ⟨Nat.zero_le _, ?_⟩
    dsimp only
    rw [unsignedTxBytes_eq]
    exact (kept.tx tx found).2
  · obtain ⟨entry, listed, rfl⟩ := List.mem_map.mp member
    exact readable_of_short (entry.1.encode_length.le.trans (by decide)) (kept.xpub entry listed)
  · exact absurd member List.not_mem_nil
  · obtain ⟨offset, _, rfl⟩ := List.mem_map.mp member
    exact readable_of_short (Nat.zero_le _) (array 32 _ offset.property (by decide))
  · obtain ⟨offset, _, rfl⟩ := List.mem_map.mp member
    exact readable_of_short (Nat.zero_le _) (array 32 _ offset.property (by decide))
  · rw [kernelCountPairs] at member
    split at member
    · exact absurd member List.not_mem_nil
    · obtain rfl := List.mem_singleton.mp member
      exact readable_of_short (Nat.zero_le _) (array 4 _ (length_indexBytes _) (by decide))
  · obtain ⟨⟨i, kv⟩, listed, rfl⟩ := List.mem_map.mp member
    obtain ⟨_, own, ofKernel, field⟩ := mem_indexedFields listed
    obtain ⟨kernel, kernelMember, rfl⟩ := List.mem_map.mp ofKernel
    obtain ⟨keyShort, valueShort⟩ := (kept.kernels kernel kernelMember).short field
    have size : (kernelPair (i, kv)).key.key.length = 4 + (kv.2.1.length + 1) := by
      simp [kernelPair, length_indexBytes]
    refine readable_of_short ?_ valueShort
    exact size.le.trans (Nat.add_le_add_left (Nat.succ_le_succ keyShort) 4 |>.trans (by decide))
  · obtain ⟨⟨i, kv⟩, listed, rfl⟩ := List.mem_map.mp member
    obtain ⟨_, own, ofInput, field⟩ := mem_indexedFields listed
    obtain ⟨input, inputMember, rfl⟩ := List.mem_map.mp ofInput
    have keyShort := MwebTable.kvPairs_key MwebInput.table_lawful field
    have size : (inputPair (i, kv)).key.key.length = 4 + kv.2.1.length := by
      simp [inputPair, length_indexBytes]
    refine readable_of_short ?_ ((kept.inputs input inputMember).readable kv field).2
    exact size.le.trans (Nat.add_le_add_left keyShort 4 |>.trans (by decide))
  · obtain ⟨⟨i, kv⟩, listed, rfl⟩ := List.mem_map.mp member
    obtain ⟨_, own, ofOutput, field⟩ := mem_indexedFields listed
    obtain ⟨output, outputMember, rfl⟩ := List.mem_map.mp ofOutput
    have keyed : (kv.1, [], kv.2) ∈ MwebOutput.table.kvPairs MwebOutput.table.fields output := by
      rw [← MwebOutput.toPairs_keyed]
      exact List.mem_map_of_mem field
    refine readable_of_short ?_ (kept.outputs output outputMember _ keyed).2
    simp [outputPair, length_indexBytes]
  · obtain ⟨entry, listed, rfl⟩ := List.mem_map.mp member
    exact (kept.proprietary entry listed).2
  · obtain ⟨entry, listed, rfl⟩ := List.mem_map.mp member
    exact (kept.unknown entry listed).2

/-- The written global map is read back up to its MWEB lists, as long as it fits. -/
theorem decodeGlobal_getPairs {psbt : Psbt} (kept : psbt.GlobalKept) (rest : Bytes)
    (small : (serializeMap psbt.getPairs).length ≤ maxVecSize) :
    decodeGlobal (serializeMap psbt.getPairs ++ rest) =
      .ok (ofGlobal psbt.restoredState psbt.unsignedTx, rest) :=
  decodeGlobal_eq_ok.mpr ⟨_, _, _, small, rfl, run_getPairs kept small, rfl, rfl⟩

omit [Hashes] in
/-- Extended keys that were read are written differently when they differ. -/
theorem encode_injOn {map : BTreeMap Bip32.Xpub Bip32.KeySource}
    (bounded : ∀ entry ∈ map.toList, entry.1.childNumber.Bounded) :
    ∀ a ∈ map, ∀ b ∈ map, a.encode = b.encode → a = b := by
  have read (key : Bip32.Xpub) (member : key ∈ map) : Bip32.Xpub.decode key.encode = .ok key := by
    rw [← Std.ExtTreeMap.mem_keys, ← Std.ExtTreeMap.map_fst_toList_eq_keys] at member
    obtain ⟨entry, listed, rfl⟩ := List.mem_map.mp member
    exact entry.1.decode_encode_iff.mpr (bounded entry listed)
  intro a left b right same
  exact Except.ok.inj ((read a left).symm.trans ((congrArg _ same).trans (read b right)))

theorem ofGlobal_kept {state : GlobalState} (kept : state.Kept)
    (found : state.tx = some tx) : (ofGlobal state tx).GlobalKept where
  tx := (kept.tx tx found).1
  version := by
    cases given : state.version with
    | none => simp [ofGlobal, given]
    | some version => simp [ofGlobal, given, kept.version version given]
  xpub := encode_injOn fun entry member => (kept.children entry member).1
  proprietary entry member := (ProprietaryKey.tryFrom_eq_ok.mp (kept.proprietary entry member).1).2.1
  unknown entry member := (kept.unknown entry member).1
  kernels := kept.kernelCount
  inputs := kept.inputCount
  outputs := kept.outputCount

omit [Secp256k1] [Hashes] [Secp256k1.Lawful] in
theorem restoredKernels_eq_iff {kernels : List MwebKernel} : restoredKernels kernels = kernels ↔
    (∀ last ∈ kernels.getLast?, last.toKvPairs ≠ []) ∧
      ∀ kernel ∈ kernels, kernel.pegouts.length ≤ 256 ∧ kernel.unknowns = [] := by
  rw [restoredKernels, foldl_indexedFields_eq_iff]
  simp only [MwebKernel.foldl_toKvPairs_eq_iff]

omit [Hashes] in
theorem restoredInputs_eq_iff {inputs : List MwebInput}
    (restorable : ∀ input ∈ inputs, MwebInput.table.Restorable input) :
    restoredInputs inputs = inputs ↔ ∀ last ∈ inputs.getLast?, last.toKvPairs ≠ [] := by
  rw [restoredInputs, foldl_indexedFields_eq_iff]
  exact and_iff_left fun input member => MwebInput.foldl_toKvPairs (restorable input member)

omit [Secp256k1] [Hashes] [Secp256k1.Lawful] in
theorem restoredOutputs_eq_iff {outputs : List MwebOutput} : restoredOutputs outputs = outputs ↔
    ∀ last ∈ outputs.getLast?, last.toPairs ≠ [] := by
  rw [restoredOutputs, foldl_indexedFields_eq_iff]
  simp only [MwebOutput.foldl_toPairs, implies_true, and_true]

/-- MWEB lists that their written form determines: each ends in an element with a field,
and no kernel has more peg-outs than a byte can number. -/
structure MwebDetermined (psbt : Psbt) : Prop where
  kernelCount : psbt.mwebKernels.length < 2 ^ 32
  inputCount : psbt.mwebInputs.length < 2 ^ 32
  outputCount : psbt.mwebOutputs.length < 2 ^ 32
  lastKernel : ∀ kernel ∈ psbt.mwebKernels.getLast?, (∃ f, kernel.fields f ≠ none) ∨ kernel.pegouts ≠ []
  lastInput : ∀ input ∈ psbt.mwebInputs.getLast?, ∃ f, input f ≠ none
  lastOutput : ∀ output ∈ psbt.mwebOutputs.getLast?, ∃ f, output f ≠ none
  pegouts : ∀ kernel ∈ psbt.mwebKernels, kernel.pegouts.length ≤ 256
  unknowns : ∀ kernel ∈ psbt.mwebKernels, kernel.unknowns = []

/-- What the reader of a global map supports besides the form of its MWEB lists. Of a child
number above its documented range it makes out another one. -/
structure GlobalSupported (psbt : Psbt) : Prop where
  version : psbt.version = 0
  xpub : ∀ a ∈ psbt.xpub, ∀ b ∈ psbt.xpub, a.encode = b.encode → a = b
  origins : ∀ input ∈ psbt.mwebInputs, input.PathsBounded
  proprietary : ∀ entry ∈ psbt.proprietary.toList, entry.1.key.length ≤ ProprietaryKey.keyLimit
  unknown : ∀ entry ∈ psbt.unknown.toList, GlobalArm.ofKey entry.1 = .unknown
  size : (serializeMap psbt.getPairs).length ≤ maxVecSize

/-- The MWEB parts of a global map survive writing and reading it. -/
theorem decodeGlobal_mweb {psbt : Psbt} (valid : psbt.unsignedTxChecks = .ok ())
    (determined : psbt.MwebDetermined) (supported : psbt.GlobalSupported) (rest : Bytes) :
    ∃ global, decodeGlobal (serializeMap psbt.getPairs ++ rest) = .ok (global, rest) ∧
      global.mwebTxOffset = psbt.mwebTxOffset ∧ global.mwebStealthOffset = psbt.mwebStealthOffset ∧
      global.mwebKernels = psbt.mwebKernels ∧ global.mwebInputs = psbt.mwebInputs ∧
      global.mwebOutputs = psbt.mwebOutputs := by
  have kept : psbt.GlobalKept := { supported with
    tx := (unsignedTxChecks_eq_ok.mp valid).1
    kernels := determined.kernelCount.le
    inputs := determined.inputCount.le
    outputs := determined.outputCount.le }
  refine ⟨_, decodeGlobal_getPairs kept rest supported.size, rfl, rfl, ?_, ?_, ?_⟩
  · refine restoredKernels_eq_iff.mpr ⟨?_, ?_⟩
    · exact fun kernel last => MwebKernel.toKvPairs_ne_nil.mpr (determined.lastKernel kernel last)
    · exact fun kernel member =>
        ⟨determined.pegouts kernel member, determined.unknowns kernel member⟩
  · have restorable : ∀ input ∈ psbt.mwebInputs, MwebInput.table.Restorable input :=
      fun input member => MwebInput.restorable_iff.mpr (supported.origins input member)
    refine (restoredInputs_eq_iff restorable).mpr fun input last empty => ?_
    obtain ⟨f, set⟩ := determined.lastInput input last
    exact set (MwebInput.toKvPairs_eq_nil.mp empty f)
  · refine restoredOutputs_eq_iff.mpr fun output last empty => ?_
    obtain ⟨f, set⟩ := determined.lastOutput output last
    exact set (MwebOutput.toPairs_eq_nil.mp empty f)

omit [Secp256k1.Lawful] in
/-- A global map of readable pairs that does not fit is refused. -/
theorem decodeGlobal_refuses (readable : ∀ pair ∈ pairs, pair.Readable)
    (long : maxVecSize < (serializeMap pairs).length) : decodeGlobal.Refuses (serializeMap pairs) := by
  rintro ⟨global, rest⟩ read
  obtain ⟨others, _, _, short, same, _⟩ := decodeGlobal_eq_ok.mp read
  have layout : serializeMap pairs ++ [] = serializeMap others ++ rest := by rw [List.append_nil, same]
  obtain ⟨rfl, _⟩ := readPairs_reads.unique readable (readable_of_length short) layout
  exact absurd short (Nat.not_le.mpr long)

omit [Secp256k1.Lawful] in
theorem serialize_ok {psbt : Psbt} (inputs : psbt.inputs.mapM Input.serializeMap = .ok inputImages)
    (outputs : psbt.outputs.mapM Output.serializeMap = .ok outputImages) :
    psbt.serialize = .ok (header ++ (serializeMap psbt.getPairs ++
      (inputImages.flatten ++ outputImages.flatten))) := by
  simp [serialize, inputs, outputs, header]

omit [Secp256k1.Lawful] in
/-- Reading the written global map restores it exactly when it restores the MWEB lists. -/
theorem ofGlobal_restoredState_eq_iff {global : Psbt} (version : global.version = 0)
    (xpub : restoredXpub global.xpub = global.xpub) (inputs : global.inputs = []) (outputs : global.outputs = []) :
    ofGlobal global.restoredState global.unsignedTx = global ↔
      restoredKernels global.mwebKernels = global.mwebKernels ∧
      restoredInputs global.mwebInputs = global.mwebInputs ∧
      restoredOutputs global.mwebOutputs = global.mwebOutputs := by
  obtain ⟨_, _, _, _, _, _, _, _, _, _, _, _⟩ := global
  obtain rfl : _ = (0 : UInt32) := version
  obtain rfl : _ = [] := inputs
  obtain rfl : _ = [] := outputs
  simp only at xpub
  simp [ofGlobal, restoredState, xpub]

end

section
variable [Secp256k1.Inverse]

/-- A PSBT that was read is read back exactly when its global map still fits and its MWEB
lists are restored. -/
theorem reserialized_iff {psbt : Psbt} (accepted : deserialize data = .ok psbt) :
    (∃ bytes, psbt.serialize = .ok bytes ∧ deserialize bytes = .ok psbt) ↔
      (restoredKernels psbt.mwebKernels = psbt.mwebKernels ∧
        restoredInputs psbt.mwebInputs = psbt.mwebInputs ∧
        restoredOutputs psbt.mwebOutputs = psbt.mwebOutputs) ∧
      (serializeMap psbt.getPairs).length ≤ maxVecSize := by
  obtain ⟨rest, accepted⟩ := deserialize_eq_ok.mp accepted
  obtain ⟨_, _, _, inputs, _, outputs, rfl, read, checked, readInputs, readOutputs, rfl⟩ :=
    deserializeFromReader_eq_ok.mp accepted
  obtain ⟨pairs, state, tx, short, rfl, ran, found, rfl⟩ := decodeGlobal_eq_ok.mp read
  have kept := GlobalState.run_kept (readable_of_length short) ran
  have globalKept := ofGlobal_kept kept found
  obtain ⟨inputImages, inputsWritten, inputsRead⟩ := inputs_rewritten readInputs
  obtain ⟨outputImages, outputsWritten, outputsRead⟩ := outputs_rewritten readOutputs
  have same := ofGlobal_restoredState_eq_iff globalKept.version (restoredXpub_eq kept.children) rfl rfl
  rw [serialize_ok inputsWritten outputsWritten]
  simp only [Except.ok.injEq, exists_eq_left']
  constructor
  · intro reread
    obtain ⟨rest', reread⟩ := deserialize_eq_ok.mp reread
    obtain ⟨_, _, _, inputs', _, outputs', layout, reread, _, _, _, final⟩ :=
      deserializeFromReader_eq_ok.mp reread
    obtain rfl := List.append_cancel_left layout
    obtain ⟨pairs', state', tx', short', layout, ran', found', rfl⟩ := decodeGlobal_eq_ok.mp reread
    obtain ⟨rfl, rfl⟩ := readPairs_reads.unique (getPairs_readable kept found)
      (readable_of_length short') layout
    have restored := decodeGlobal_getPairs globalKept (inputImages.flatten ++ outputImages.flatten) short'
    have merged := congrArg Prod.fst (Except.ok.inj (reread.symm.trans restored))
    have emptied := congrArg (fun psbt : Psbt => { psbt with inputs := [], outputs := [] }) final
    exact ⟨same.mp (merged.symm.trans emptied.symm), short'⟩
  · rintro ⟨lists, small⟩
    have restored := decodeGlobal_getPairs globalKept (inputImages.flatten ++ outputImages.flatten) small
    rw [same.mpr lists] at restored
    have outputsReread := outputsRead []
    rw [List.append_nil] at outputsReread
    exact deserialize_eq_ok.mpr ⟨[], deserializeFromReader_eq_ok.mpr ⟨_, _, _, inputs, _, outputs, rfl,
      restored, checked, inputsRead _, outputsReread, rfl⟩⟩

/-- A PSBT that was read is read back from what it is written as exactly when no MWEB field
of its global map has an index beyond the well-formed ones of its kind, the peg-outs of
every kernel have indices of one byte, and its global map still fits. -/
theorem deserialize_serialize_iff {psbt : Psbt} (accepted : deserialize data = .ok psbt) :
    (∃ bytes, psbt.serialize = .ok bytes ∧ deserialize bytes = .ok psbt) ↔
      Covered (MwebKernel.accepts ·) ((globalPairs data).filterMap kernelUpdate) ∧
      Covered (MwebInput.table.accepts ·) ((globalPairs data).filterMap inputUpdate) ∧
      Covered (fun kv => MwebOutput.table.accepts (kv.1, [], kv.2))
        ((globalPairs data).filterMap outputUpdate) ∧
      (∀ k, (pegoutMarks (globalPairs data) k).count none ≤ 256 ∧
        IndicesLeaveRoom 256 (pegoutMarks (globalPairs data) k)) ∧
      (serializeMap psbt.getPairs).length ≤ maxVecSize := by
  obtain ⟨state, tx, short, ran, _, same⟩ := deserialize_global accepted
  have kept := GlobalState.run_kept (readable_of_length short) ran
  have restorable : ∀ input ∈ psbt.mwebInputs, MwebInput.table.Restorable input := by
    rw [same]
    exact fun input member => (kept.inputs input member).restorable
  rw [reserialized_iff accepted, restoredKernels_eq_iff, restoredInputs_eq_iff restorable,
    restoredOutputs_eq_iff]
  have kernels : psbt.mwebKernels = ((globalPairs data).filterMap kernelUpdate).foldl
      (applyAt MwebKernel.default MwebKernel.applyField) [] :=
    same ▸ GlobalState.run_mwebKernels ran
  have inputs : psbt.mwebInputs = ((globalPairs data).filterMap inputUpdate).foldl
      (applyAt MwebInput.table.empty MwebInput.applyKvField) [] :=
    same ▸ GlobalState.run_mwebInputs ran
  have outputs : psbt.mwebOutputs = ((globalPairs data).filterMap outputUpdate).foldl
      (applyAt MwebOutput.table.empty MwebOutput.applyField) [] :=
    same ▸ GlobalState.run_mwebOutputs ran
  have known : ∀ kernel ∈ psbt.mwebKernels, kernel.unknowns = [] := by
    rw [same]
    exact fun kernel member => (kept.kernels kernel member).unknowns
  have pegouts : (∀ kernel ∈ psbt.mwebKernels, kernel.pegouts.length ≤ 256 ∧ kernel.unknowns = []) ↔
      ∀ k, (pegoutMarks (globalPairs data) k).count none ≤ 256 ∧
        IndicesLeaveRoom 256 (pegoutMarks (globalPairs data) k) := by
    rw [← pegouts_length_le_iff, ← kernels]
    exact forall₂_congr fun kernel member => and_iff_left (known kernel member)
  rw [pegouts, kernels, inputs, outputs,
    getLast_foldl_applyAt _ _ (by simp [MwebKernel.toKvPairs_eq_nil, MwebKernel.default, MwebTable.empty])
      MwebKernel.applyField_set,
    getLast_foldl_applyAt _ _ (by simp [MwebInput.toKvPairs_eq_nil, MwebTable.empty])
      MwebInput.applyKvField_set,
    getLast_foldl_applyAt _ _ (by simp [MwebOutput.toPairs_eq_nil, MwebTable.empty])
      MwebOutput.applyField_set]
  constructor
  · rintro ⟨⟨⟨kernelEnd, pegoutsFit⟩, inputEnd, outputEnd⟩, small⟩
    exact ⟨kernelEnd, inputEnd, outputEnd, pegoutsFit, small⟩
  · rintro ⟨kernelEnd, inputEnd, outputEnd, pegoutsFit, small⟩
    exact ⟨⟨⟨kernelEnd, pegoutsFit⟩, inputEnd, outputEnd⟩, small⟩

end
end
section
attribute [local instance] Secp256k1.generatorOnly Hashes.ofEmpty

/-- A transaction without inputs and outputs. -/
def bareTx : Transaction where
  version := 1
  lockTime := .fromConsensus 0
  input := .empty
  output := .empty
  mwTx := none
  isHogEx := false

def bare : Psbt := ofGlobal .initial bareTx

def bareFee : MwebKernel :=
  { MwebKernel.default with fields := Function.update MwebKernel.table.empty .fee (some (5 : UInt64)) }

/-- A kernel behind an empty one. -/
def secondKernel : Psbt := { bare with mwebKernels := [.default, bareFee] }

theorem secondKernel_decoded : ∃ global,
    decodeGlobal (serializeMap secondKernel.getPairs) = .ok (global, []) ∧
      global.mwebKernels = [.default, bareFee] := by
  have : Secp256k1.Lawful := Secp256k1.generatorOnly_lawful
  have determined : secondKernel.MwebDetermined := {
    kernelCount := by decide
    inputCount := by decide
    outputCount := by decide
    lastKernel := by
      rintro _ ⟨⟩
      exact .inl ⟨.fee, Option.some_ne_none (5 : UInt64)⟩
    lastInput := nofun
    lastOutput := nofun
    pegouts := by decide
    unknowns := by decide }
  have supported : secondKernel.GlobalSupported := {
    version := rfl
    xpub := nofun
    origins := nofun
    proprietary := nofun
    unknown := nofun
    size := by decide }
  obtain ⟨global, read, _, _, kernels, _⟩ := decodeGlobal_mweb (by decide) determined supported []
  exact ⟨global, by simpa using read, kernels⟩

/-- No MWEB fields, beside other parts that the reader of global maps may not support. -/
def withParts (version : UInt32) (xpub : BTreeMap Bip32.Xpub Bip32.KeySource)
    (proprietary : BTreeMap ProprietaryKey Bytes) (unknown : BTreeMap Key Bytes) : Psbt :=
  { bare with version, xpub, proprietary, unknown }

/-- The generator as an extended key with the given child number. -/
def numbered (childNumber : Bip32.ChildNumber) : Bip32.Xpub where
  network := .main
  depth := 0
  parentFingerprint := .filled 4 0
  childNumber
  publicKey := ()
  chainCode := .filled 32 0

def noFingerprint : Bip32.Fingerprint := .filled 4 0

/-- Two extended keys that are written alike. -/
def twinXpubs : BTreeMap Bip32.Xpub Bip32.KeySource :=
  ((∅ : BTreeMap Bip32.Xpub Bip32.KeySource).insert (numbered (.normal Bip32.hardenedBit))
    (noFingerprint, [])).insert (numbered (.hardened 0)) (noFingerprint, [])

/-- The origin of a scan key on a path whose only index has the top bit. -/
def wrappedOrigin : Psbt :=
  { bare with mwebInputs := [Function.update MwebInput.table.empty .masterScanKeyOrigin
    (some (show Unit × Bip32.KeySource from ((), noFingerprint, [.normal Bip32.hardenedBit])))] }

/-- The paths of the scan keys of its MWEB inputs. -/
def scanPaths (psbt : Psbt) : List (Option Bip32.DerivationPath) := psbt.mwebInputs.map fun input =>
  (show Option (Unit × Bip32.KeySource) from input .masterScanKeyOrigin).map (·.2.2)

theorem longUnknown_refused {key : Key} (size : key.key.length = maxVecSize) :
    decodeGlobal.Refuses (serializeMap (withParts 0 ∅ ∅ ((∅ : BTreeMap Key Bytes).insert key [])).getPairs) := by
  have pairs : (withParts 0 ∅ ∅ ((∅ : BTreeMap Key Bytes).insert key [])).getPairs =
      [{ key := { typeValue := 0x00, key := [] }, value := unsignedTxBytes bareTx },
        { key, value := [] }] := rfl
  rw [pairs]
  apply decodeGlobal_refuses
  · simp only [List.forall_mem_cons, List.not_mem_nil, false_imp_iff, implies_true, and_true]
    exact ⟨⟨Nat.zero_le _, by decide⟩, size.le, (by decide : (sizedWire []).length ≤ maxVecSize)⟩
  · rw [serializeMap, List.flatMap_cons, List.flatMap_cons, Pair.serialize_eq, Pair.serialize_eq,
      Key.serialize_eq key]
    simp only [List.length_append, List.length_cons, size]
    omega

def longKey : Key := { typeValue := 0x10, key := List.replicate maxVecSize 0 }

/-- A version, extended keys, proprietary keys, unknown keys or a size that the reader does not
support keep it from reading back a global map, whatever its MWEB parts. A child number above
its documented range is read back as another one. -/
theorem withParts_refused :
    [withParts 1 ∅ ∅ ∅,
      withParts 0 twinXpubs ∅ ∅,
      withParts 0 ∅ ((∅ : BTreeMap ProprietaryKey Bytes).insert ⟨.empty, 0, List.replicate 1025 0⟩ []) ∅,
      withParts 0 ∅ ∅ ((∅ : BTreeMap Key Bytes).insert ⟨0x00, []⟩ []),
      withParts 0 ∅ ∅ ((∅ : BTreeMap Key Bytes).insert longKey [])].Forall (fun psbt =>
        psbt.unsignedTxChecks = .ok () ∧ psbt.MwebDetermined ∧
          decodeGlobal.Refuses (serializeMap psbt.getPairs)) ∧
    wrappedOrigin.unsignedTxChecks = .ok () ∧ wrappedOrigin.MwebDetermined ∧
      ∃ global, decodeGlobal (serializeMap wrappedOrigin.getPairs) = .ok (global, []) ∧
        global.mwebInputs ≠ wrappedOrigin.mwebInputs := by
  have determined version xpub proprietary unknown :
      (withParts version xpub proprietary unknown).MwebDetermined :=
    { kernelCount := Nat.two_pow_pos 32
      inputCount := Nat.two_pow_pos 32
      outputCount := Nat.two_pow_pos 32
      lastKernel := nofun
      lastInput := nofun
      lastOutput := nofun
      pegouts := nofun
      unknowns := nofun }
  have refused {bytes : Bytes} (failed : (decodeGlobal bytes).isOk = false) : decodeGlobal.Refuses bytes := by
    intro result read
    rw [read] at failed
    contradiction
  have length : longKey.key.length = maxVecSize := List.length_replicate
  have long := longUnknown_refused length
  have origin : wrappedOrigin.MwebDetermined :=
    { kernelCount := Nat.two_pow_pos 32
      inputCount := by decide
      outputCount := Nat.two_pow_pos 32
      lastKernel := nofun
      lastInput := by
        rintro _ ⟨⟩
        exact ⟨.masterScanKeyOrigin, nofun⟩
      lastOutput := nofun
      pegouts := nofun
      unknowns := nofun }
  have reread : (fun result => (scanPaths result.1, result.2)) <$>
      decodeGlobal (serializeMap wrappedOrigin.getPairs) = .ok ([some [.hardened 0]], []) := by
    decide +kernel
  refine ⟨⟨⟨rfl, determined _ _ _ _, refused ?_⟩, ⟨rfl, determined _ _ _ _, refused ?_⟩,
    ⟨rfl, determined _ _ _ _, refused ?_⟩, ⟨rfl, determined _ _ _ _, refused ?_⟩,
    ⟨rfl, determined _ _ _ _, long⟩⟩, rfl, origin, ?_⟩
  · decide
  · decide +kernel
  · decide +kernel
  · decide
  · obtain ⟨⟨global, rest⟩, read, same⟩ := map_eq_ok.mp reread
    obtain ⟨paths, rfl⟩ := Prod.mk.inj same
    refine ⟨global, read, fun kept => ?_⟩
    have wrapped : scanPaths global = scanPaths wrappedOrigin := by
      rw [scanPaths, kept]
      rfl
    rw [wrapped] at paths
    exact absurd paths (by decide)

theorem kernelFee_reserialized : ∃ psbt : Psbt, deserialize (kernelFee 0) = .ok psbt ∧
    ∃ bytes, psbt.serialize = .ok bytes ∧ deserialize bytes = .ok psbt := by
  have : Secp256k1.Inverse := Secp256k1.generatorOnly_inverse
  have accepted : (fun psbt => (serializeMap psbt.getPairs).length) <$> deserialize (kernelFee 0) =
      .ok 37 := by decide
  obtain ⟨psbt, read, size⟩ := map_eq_ok.mp accepted
  refine ⟨psbt, read, (deserialize_serialize_iff read).mpr ⟨?_, ?_, ?_, ?_, ?_⟩⟩
  · rw [Covered]
    decide
  · rw [Covered]
    decide
  · rw [Covered]
    decide
  · intro k
    rw [pegoutMarks_kernelFee]
    exact ⟨Nat.zero_le _, trivial⟩
  · rw [size]
    decide

/-- The fee of a kernel, in one byte instead of eight. -/
def shortFee : Bytes :=
  [0x70, 0x73, 0x62, 0x74, 0xff,
    0x01, 0x00, 0x0a, 0x01, 0x00, 0x00, 0x00, 0x00, 0x00, 0x00, 0x00, 0x00, 0x00,
    0x06, 0x93, 0x00, 0x00, 0x00, 0x00, 0x02, 0x01, 0x05,
    0x00]

theorem shortFee_changed : ∃ psbt : Psbt, deserialize shortFee = .ok psbt ∧
    ∃ bytes, psbt.serialize = .ok bytes ∧ ∃ again, deserialize bytes = .ok again ∧ again ≠ psbt := by
  have kernels : (·.mwebKernels.length) <$> deserialize shortFee = .ok 1 := by decide
  have rewritten : (do
      let psbt ← deserialize shortFee
      let bytes ← psbt.serialize.mapError .io
      let again ← deserialize bytes
      pure again.mwebKernels.length) = .ok 0 := by decide +kernel
  obtain ⟨psbt, read, one⟩ := map_eq_ok.mp kernels
  simp only [read, bind_eq_ok, pure_eq_ok, mapError_eq_ok, Except.ok.injEq, exists_eq_left'] at rewritten
  obtain ⟨bytes, written, again, reread, zero⟩ := rewritten
  refine ⟨psbt, read, bytes, written, again, reread, ?_⟩
  rintro rfl
  rw [zero] at one
  contradiction

end
end Litecoin.Psbt
