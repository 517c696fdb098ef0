import Litecoin.Psbt.GlobalFormat

/-! Which byte strings are PSBTs: a header, the global map, and one map for each input and
each output of the unsigned transaction. -/
namespace Litecoin.Psbt
open Wire Consensus Blockdata

/-- The bytes before the global map. -/
def header : Bytes := magicBytes ++ [separator]

/-- The pairs of the global map of a byte string. -/
def globalPairs (data : Bytes) : List Pair :=
  match readPairs (data.drop header.length) with
  | .ok (pairs, _) => pairs
  | .error _ => []

theorem globalPairs_layout {pairs : List Pair} (short : (serializeMap pairs).length ≤ maxVecSize)
    (rest : Bytes) : globalPairs (header ++ serializeMap pairs ++ rest) = pairs := by
  have read := readPairs_reads.read (readable_of_length short) rest
  rw [globalPairs, List.append_assoc, List.drop_left, read]

theorem check_eq_ok {txins : List TxIn} : unsignedTxChecks.check txins = .ok () ↔
    ∀ txin ∈ txins, txin.scriptSig.isEmpty = true ∧ txin.witness = .new := by
  induction txins with
  | nil => simp [unsignedTxChecks.check]
  | cons txin rest ih =>
    rw [unsignedTxChecks.check, List.forall_mem_cons, ← ih, ← Witness.isEmpty_iff]
    cases txin.scriptSig.isEmpty with
    | false => simp
    | true =>
      cases txin.witness.isEmpty with
      | false => simp
      | true => simp

variable [Secp256k1] [Hashes]

theorem unsignedTxChecks_eq_ok {psbt : Psbt} : psbt.unsignedTxChecks = .ok () ↔
    GlobalState.Unsigned psbt.unsignedTx ∧
      ∀ txin ∈ psbt.unsignedTx.input.toList, txin.scriptSig.isEmpty = true := by
  have plain : (psbt.unsignedTx.mwTx.isSome || psbt.unsignedTx.isHogEx) = false ↔
      psbt.unsignedTx.mwTx = none ∧ psbt.unsignedTx.isHogEx = false := by
    simp
  rw [unsignedTxChecks]
  constructor
  · intro checked
    split at checked
    · contradiction
    · rename_i mweb
      obtain ⟨mwTx, isHogEx⟩ := plain.mp (Bool.eq_false_iff.mpr mweb)
      have bare := check_eq_ok.mp checked
      exact ⟨⟨mwTx, isHogEx, fun txin member => (bare txin member).2⟩,
        fun txin member => (bare txin member).1⟩
  · rintro ⟨⟨mwTx, isHogEx, witnesses⟩, scripts⟩
    rw [plain.mpr ⟨mwTx, isHogEx⟩, if_neg Bool.false_ne_true]
    exact check_eq_ok.mpr fun txin member => ⟨scripts txin member, witnesses txin member⟩

/-- A PSBT is read from the header, its global map and its input and output maps. -/
theorem deserializeFromReader_eq_ok {psbt : Psbt} :
    deserializeFromReader data = .ok (psbt, rest) ↔ ∃ body global afterGlobal inputs afterInputs outputs,
      data = header ++ body ∧ decodeGlobal body = .ok (global, afterGlobal) ∧
      global.unsignedTxChecks = .ok () ∧
      Input.decode.times global.unsignedTx.input.toList.length afterGlobal = .ok (inputs, afterInputs) ∧
      Output.decode.times global.unsignedTx.output.toList.length afterInputs = .ok (outputs, rest) ∧
      psbt = { global with inputs := inputs.val, outputs := outputs.val } := by
  simp only [deserializeFromReader, Decoder.bind_eq_ok, Decoder.ite_eq_ok, Decoder.fail_eq_ok,
    Decoder.pure_eq_ok, Decoder.ofExcept_eq_ok, fromConsensus_eq_ok, readExact, Decoder.exact_eq_ok,
    readU8_codec.reads _ _ _, littleEndian_one, true_and, and_false, false_or, not_not]
  constructor
  · rintro ⟨magic, _, rfl, isMagic, _, _, rfl, rfl, global, afterGlobal, read, _, _, ⟨checked, rfl⟩,
      inputs, afterInputs, readInputs, outputs, _, readOutputs, rfl, rfl⟩
    refine ⟨_, global, afterGlobal, inputs, afterInputs, outputs, ?_, read, checked, readInputs,
      readOutputs, rfl⟩
    rw [isMagic, header, List.append_assoc]
  · rintro ⟨body, global, afterGlobal, inputs, afterInputs, outputs, rfl, read, checked, readInputs,
      readOutputs, rfl⟩
    refine ⟨⟨magicBytes, rfl⟩, [separator] ++ body, ?_, rfl, separator, body, rfl, rfl, global,
      afterGlobal, read, (), afterGlobal, ⟨checked, rfl⟩, inputs, afterInputs, readInputs, outputs, rest,
      readOutputs, rfl, rfl⟩
    rw [header, List.append_assoc]

theorem deserialize_eq_ok {psbt : Psbt} :
    deserialize data = .ok psbt ↔ ∃ rest, deserializeFromReader data = .ok (psbt, rest) := by
  simp [deserialize]

/-- The global variables of an accepted PSBT come from a run over its global pairs. -/
theorem deserialize_global {psbt : Psbt} (accepted : deserialize data = .ok psbt) :
    ∃ state tx, (serializeMap (globalPairs data)).length ≤ maxVecSize ∧
      run GlobalState.insertPair .initial (globalPairs data) = .ok state ∧ state.tx = some tx ∧
      psbt = { ofGlobal state tx with inputs := psbt.inputs, outputs := psbt.outputs } := by
  obtain ⟨rest, accepted⟩ := deserialize_eq_ok.mp accepted
  obtain ⟨_, _, _, inputs, _, outputs, rfl, read, _, _, _, rfl⟩ :=
    deserializeFromReader_eq_ok.mp accepted
  obtain ⟨pairs, state, tx, short, rfl, ran, found, rfl⟩ := decodeGlobal_eq_ok.mp read
  rw [← List.append_assoc, globalPairs_layout short]
  exact ⟨state, tx, short, ran, found, rfl⟩

end Litecoin.Psbt
