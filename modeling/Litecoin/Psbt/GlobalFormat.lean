import Litecoin.Bip32.Codec
import Litecoin.Psbt.Global
import Litecoin.Psbt.MapFormat

/-! What the global map takes in, and how it is restored from the pairs it is written as. -/
namespace Litecoin.Psbt
open Wire Consensus Bip32 Blockdata

theorem whileOk_images {d : Decoder ε α} {wire : α → Bytes} {Valid : α → Prop}
    (reads : Reads d wire Valid) (refuses : d.Refuses []) {items : List α}
    (valid : ∀ a ∈ items, Valid a) (enough : items.length ≤ rounds) :
    whileOk d rounds (items.flatMap wire) = items := by
  induction items generalizing rounds with
  | nil =>
    cases rounds with
    | zero => rfl
    | succ rounds =>
      rw [List.flatMap_nil, whileOk]
      split
      · rename_i read
        exact absurd read (refuses _)
      · rfl
  | cons a rest ih =>
    obtain ⟨rounds, rfl⟩ := Nat.exists_eq_succ_of_ne_zero (Nat.ne_zero_of_lt enough)
    rw [List.forall_mem_cons] at valid
    rw [List.flatMap_cons, whileOk, reads.read valid.1]
    simp only [ih valid.2 (Nat.le_of_succ_le_succ enough)]

theorem length_whileOk {d : Decoder ε α} {wire : α → Bytes} {Valid : α → Prop}
    (reads : Reads d wire Valid) (size : ∀ a, (wire a).length = n) (rounds : Nat) (bytes : Bytes) :
    n * (whileOk d rounds bytes).length ≤ bytes.length := by
  induction rounds generalizing bytes with
  | zero => exact Nat.zero_le _
  | succ rounds ih =>
    rw [whileOk]
    split
    · rename_i a rest read
      obtain ⟨_, rfl⟩ := (reads _ _ _).mp read
      have tail := ih rest
      rw [List.length_cons, List.length_append, size, Nat.mul_succ]
      omega
    · exact Nat.zero_le _

theorem childBytes_length (path : DerivationPath) :
    (path.flatMap Value.childBytes).length = 4 * path.length := by
  induction path with
  | nil => rfl
  | cons child rest ih =>
    rw [List.flatMap_cons, List.length_append, ih, Value.childBytes, littleEndian_length,
      List.length_cons]
    omega

/-- A key source as it is read back. -/
def restoredSource (source : KeySource) : KeySource :=
  (source.1, (source.2.map ChildNumber.toU32).map ChildNumber.fromU32)

theorem restoredSource_bounded (source : KeySource) : (restoredSource source).2.Bounded :=
  ChildNumber.bounded_map_fromU32 _

theorem restoredSource_eq {source : KeySource} (bounded : source.2.Bounded) :
    restoredSource source = source :=
  Prod.ext rfl (ChildNumber.map_fromU32_toU32 bounded)

theorem keySourceBytes_restoredSource (source : KeySource) :
    Value.keySourceBytes (restoredSource source) = Value.keySourceBytes source := by
  simp only [Value.keySourceBytes, restoredSource, List.map_map, List.flatMap_map, Function.comp_apply,
    Value.childBytes_fromU32]
  rfl

/-- A field cut out of a readable pair. -/
theorem readable_drop {pair : Pair} {typeValue : UInt8} (readable : pair.Readable) (n : Nat) :
    (FieldMap.mwebPair (typeValue, pair.key.key.drop n, pair.value)).Readable :=
  ⟨(List.drop_sublist n pair.key.key).length_le.trans readable.1, readable.2⟩

namespace MwebKernel

/-- Everything in a kernel can be written. -/
structure Kept (kernel : MwebKernel) : Prop where
  fields : table.Readable kernel.fields
  pegouts : ∀ value ∈ kernel.pegouts, (sizedWire value).length ≤ maxVecSize
  unknowns : kernel.unknowns = []

theorem default_kept : default.Kept where
  fields := MwebTable.empty_readable
  pegouts _ absent := absurd absent List.not_mem_nil
  unknowns := rfl

theorem applyField_kept {kernel : MwebKernel} (readable : (FieldMap.mwebPair kv).Readable)
    (kept : kernel.Kept) : (kernel.applyField kv).Kept := by
  rw [applyField]
  split
  · refine { kept with pegouts := ?_ }
    exact forall_mem_applyAt [] _ kept.pegouts (by decide) fun _ _ => readable.2
  · exact { kept with fields := MwebTable.apply_readable table_lawful readable kept.fields }

end MwebKernel

namespace GlobalState
variable [Secp256k1]

/-- Transactions that stand in a global map. -/
structure Unsigned (tx : Transaction) : Prop where
  mwTx : tx.mwTx = none
  isHogEx : tx.isHogEx = false
  witnesses : ∀ txin ∈ tx.input.toList, txin.witness = .new

theorem readUnsignedTx_reads : Reads readUnsignedTx Transaction.plainWire (fun tx => Unsigned tx ∧
    (vecWire TxIn.wire tx.input).length ≤ maxVecSize ∧
    (vecWire TxOut.wire tx.output).length ≤ maxVecSize) := by
  intro bytes tx rest
  simp only [readUnsignedTx, Decoder.bind_eq_ok, Decoder.pure_eq_ok, Consensus.consensusDecode,
    readI32_codec.reads _ _ _, (decodeVec_reads TxIn.reads).take maxVecSize _ _ _,
    (decodeVec_reads TxOut.codec.reads).take maxVecSize _ _ _, LockTime.codec.reads _ _ _, true_and,
    implies_true]
  constructor
  · rintro ⟨_, _, rfl, _, _, ⟨⟨bare, shortInput⟩, rfl⟩, _, _, ⟨shortOutput, rfl⟩, _, _, rfl, rfl, rfl⟩
    refine ⟨⟨⟨rfl, rfl, bare⟩, shortInput, shortOutput⟩, ?_⟩
    simp only [Transaction.plainWire, List.append_assoc]
  · rintro ⟨⟨⟨mwTx, isHogEx, bare⟩, shortInput, shortOutput⟩, rfl⟩
    obtain ⟨version, lockTime, input, output, _, _⟩ := tx
    obtain rfl : _ = none := mwTx
    obtain rfl : _ = false := isHogEx
    refine ⟨version, _, ?_, input, _, ⟨⟨bare, shortInput⟩, rfl⟩, output, _, ⟨shortOutput, rfl⟩, lockTime,
      rest, rfl, rfl, rfl⟩
    simp only [Transaction.plainWire, List.append_assoc]

theorem insertUnsignedTx_eq_ok {slot next : Option Transaction} :
    insertUnsignedTx slot pair = .ok next ↔ pair.key.key = [] ∧ slot = none ∧
      ∃ tx, readUnsignedTx pair.value = .ok (tx, []) ∧ next = some tx := by
  cases slot with
  | some a =>
    cases empty : pair.key.key with
    | nil => simp [insertUnsignedTx, empty]
    | cons byte tail => simp [insertUnsignedTx, empty]
  | none =>
    cases empty : pair.key.key with
    | nil => simp [insertUnsignedTx, empty, Decoder.whole_eq_ok, fromConsensus_eq_ok, @eq_comm _ next]
    | cons byte tail => simp [insertUnsignedTx, empty]

theorem insertXpub_eq_ok {map next : BTreeMap Xpub KeySource}
    (inserted : insertXpub map pair = .ok next) :
    ∃ xpub source, Xpub.decode pair.key.key = .ok xpub ∧ xpub ∉ map ∧ source.2.Bounded ∧
      (Value.keySourceBytes source).length ≤ pair.value.length ∧ next = map.insert xpub source := by
  rw [insertXpub] at inserted
  split at inserted
  · contradiction
  · obtain ⟨xpub, parsed, inserted⟩ := bind_eq_ok.mp inserted
    split at inserted
    · contradiction
    · obtain ⟨⟨fingerprint, rest⟩, taken, inserted⟩ := bind_eq_ok.mp inserted
      obtain ⟨vacant, _, same, rfl⟩ := BTreeMap.fillEntry_eq_ok.mp inserted
      obtain rfl := Except.ok.inj same
      refine ⟨xpub, _, mapError_eq_ok.mp parsed, vacant, ChildNumber.bounded_map_fromU32 _, ?_, rfl⟩
      have path := length_whileOk readU32_codec.reads (fun n => littleEndian_length 4 n.toNat)
        rest.length rest
      rw [Decoder.exact_eq_ok.mp taken, Value.keySourceBytes, List.length_append, childBytes_length,
        List.length_append, List.length_map]
      exact Nat.add_le_add_left path _

theorem insertXpub_own [Secp256k1.Lawful] {map : BTreeMap Xpub KeySource} {xpub : Xpub}
    {source : KeySource} (bounded : xpub.childNumber.Bounded) (sourceBounded : source.2.Bounded)
    (vacant : xpub ∉ map) :
    insertXpub map (xpubPair (xpub, source)) = .ok (map.insert xpub source) := by
  obtain ⟨fingerprint, path⟩ := source
  have keySize := xpub.encode_length
  have pathSize := childBytes_length path
  have size : (Value.keySourceBytes (fingerprint, path)).length = 4 + 4 * path.length := by
    rw [Value.keySourceBytes, List.length_append, fingerprint.property, pathSize]
  have some : xpub.encode.isEmpty = false := by
    rw [List.isEmpty_eq_false_iff]
    intro empty
    rw [empty] at keySize
    contradiction
  have aligned : ¬ ((Value.keySourceBytes (fingerprint, path)).isEmpty = true ∨
      (Value.keySourceBytes (fingerprint, path)).length % 4 ≠ 0) := by
    rw [List.isEmpty_iff_length_eq_zero, size]
    omega
  have walked : (whileOk readU32 (path.flatMap Value.childBytes).length
      (path.flatMap Value.childBytes)).map ChildNumber.fromU32 = path := by
    have images : path.flatMap Value.childBytes =
        (path.map ChildNumber.toU32).flatMap fun n => littleEndian 4 n.toNat := by
      rw [List.flatMap_map]
      rfl
    have ended : readU32.Refuses [] := by
      intro result read
      contradiction
    rw [pathSize, images, whileOk_images readU32_codec.reads ended (fun _ _ => trivial),
      ChildNumber.map_fromU32_toU32 sourceBounded]
    rw [List.length_map]
    omega
  have taken : Decoder.exact 4 (Error.xPubKey "Can't read global xpub fingerprint")
      (Value.keySourceBytes (fingerprint, path)) = .ok (fingerprint, path.flatMap Value.childBytes) :=
    Decoder.exact_eq_ok.mpr rfl
  have read : Xpub.decode xpub.encode = .ok xpub := xpub.decode_encode_iff.mpr bounded
  simp only [insertXpub, xpubPair, some, read, if_neg aligned, taken, bind_eq_ok, mapError_eq_ok,
    BTreeMap.fillEntry_eq_ok, Bool.false_eq_true, if_false]
  exact ⟨xpub, rfl, _, rfl, vacant, _, rfl, by rw [walked]⟩

omit [Secp256k1] in
theorem insertVersion_eq_ok {slot next : Option UInt32} (inserted : insertVersion slot pair = .ok next) :
    pair.key.key = [] ∧ slot = none ∧ next = some 0 := by
  rw [insertVersion.eq_def] at inserted
  split at inserted
  · rename_i empty
    split at inserted
    · split at inserted
      · contradiction
      · obtain ⟨⟨version, rest⟩, _, inserted⟩ := bind_eq_ok.mp inserted
        dsimp only at inserted
        split at inserted
        · contradiction
        · rename_i zero
          obtain rfl := pure_eq_ok.mp inserted
          rw [not_not.mp zero]
          exact ⟨List.isEmpty_iff.mp empty, rfl, rfl⟩
    · contradiction
  · contradiction

omit [Secp256k1] in
theorem insertOffset_eq_ok {slot next : Option (ByteArr 32)} :
    insertOffset slot pair = .ok next ↔
      slot = none ∧ ∃ size : pair.value.length = 32, next = some ⟨pair.value, size⟩ := by
  cases slot with
  | some offset => simp [insertOffset]
  | none =>
    by_cases size : pair.value.length = 32
    · simp [insertOffset, size, eq_comm]
    · simp [insertOffset, size]

/-- What an accepted pair changes, arm by arm. -/
inductive Inserts (state : GlobalState) (pair : Pair) : GlobalState → Prop where
  | unsignedTx (arm : GlobalArm.ofKey pair.key = .unsignedTx) (unkeyed : pair.key.key = [])
      (vacant : state.tx = none) {unsigned : Transaction}
      (read : readUnsignedTx pair.value = .ok (unsigned, [])) :
      Inserts state pair { state with tx := some unsigned }
  | xpub {key : Xpub} (source : KeySource) (arm : GlobalArm.ofKey pair.key = .xpub)
      (parsed : Xpub.decode pair.key.key = .ok key) (vacant : key ∉ state.xpub)
      (bounded : source.2.Bounded)
      (size : (Value.keySourceBytes source).length ≤ pair.value.length) :
      Inserts state pair { state with xpub := state.xpub.insert key source }
  | version (arm : GlobalArm.ofKey pair.key = .version) (unkeyed : pair.key.key = [])
      (vacant : state.version = none) : Inserts state pair { state with version := some 0 }
  | proprietary (arm : GlobalArm.ofKey pair.key = .proprietary)
      (parsed : ProprietaryKey.tryFrom pair.key = .ok key) (vacant : key ∉ state.proprietary) :
      Inserts state pair { state with proprietary := state.proprietary.insert key pair.value }
  | mwebTxOffset (offset : ByteArr 32) (arm : GlobalArm.ofKey pair.key = .mwebTxOffset)
      (vacant : state.mwebTxOffset = none) :
      Inserts state pair { state with mwebTxOffset := some offset }
  | mwebStealthOffset (offset : ByteArr 32) (arm : GlobalArm.ofKey pair.key = .mwebStealthOffset)
      (vacant : state.mwebStealthOffset = none) :
      Inserts state pair { state with mwebStealthOffset := some offset }
  | mwebKernelCount (arm : GlobalArm.ofKey pair.key = .mwebKernelCount) : Inserts state pair state
  | mwebKernelField (arm : GlobalArm.ofKey pair.key = .mwebKernelField) :
      Inserts state pair { state with
        mwebKernels := applyAt MwebKernel.default MwebKernel.applyField state.mwebKernels
          (mwebIndex pair.key, mwebFieldType pair.key, pair.key.key.drop 5, pair.value) }
  | mwebOutputField (arm : GlobalArm.ofKey pair.key = .mwebOutputField) :
      Inserts state pair { state with
        mwebOutputs := applyAt MwebOutput.table.empty MwebOutput.applyField state.mwebOutputs
          (mwebIndex pair.key, mwebFieldType pair.key, pair.value) }
  | mwebInputField (arm : GlobalArm.ofKey pair.key = .mwebInputField) :
      Inserts state pair { state with
        mwebInputs := applyAt MwebInput.table.empty MwebInput.applyKvField state.mwebInputs
          (mwebIndex pair.key, pair.key.typeValue, pair.key.key.drop 4, pair.value) }
  | unknown (arm : GlobalArm.ofKey pair.key = .unknown) (vacant : pair.key ∉ state.unknown) :
      Inserts state pair { state with unknown := state.unknown.insert pair.key pair.value }

theorem insertPair_inserts {state next : GlobalState} (inserted : state.insertPair pair = .ok next) :
    Inserts state pair next := by
  rw [insertPair] at inserted
  cases arm : GlobalArm.ofKey pair.key with
  | unsignedTx =>
    simp only [arm, bind_eq_ok, pure_eq_ok, insertUnsignedTx_eq_ok] at inserted
    obtain ⟨_, ⟨unkeyed, vacant, tx, read, rfl⟩, rfl⟩ := inserted
    exact .unsignedTx arm unkeyed vacant read
  | xpub =>
    simp only [arm, bind_eq_ok, pure_eq_ok] at inserted
    obtain ⟨_, filled, rfl⟩ := inserted
    obtain ⟨xpub, source, parsed, vacant, bounded, size, rfl⟩ := insertXpub_eq_ok filled
    exact .xpub source arm parsed vacant bounded size
  | version =>
    simp only [arm, bind_eq_ok, pure_eq_ok] at inserted
    obtain ⟨_, filled, rfl⟩ := inserted
    obtain ⟨unkeyed, vacant, rfl⟩ := insertVersion_eq_ok filled
    exact .version arm unkeyed vacant
  | proprietary =>
    simp only [arm, insertProprietary, bind_eq_ok, pure_eq_ok, BTreeMap.fillEntry_eq_ok,
      Except.ok.injEq] at inserted
    obtain ⟨_, ⟨key, parsed, vacant, _, rfl, rfl⟩, rfl⟩ := inserted
    exact .proprietary arm parsed vacant
  | mwebTxOffset =>
    simp only [arm, bind_eq_ok, pure_eq_ok, insertOffset_eq_ok] at inserted
    obtain ⟨_, ⟨vacant, size, rfl⟩, rfl⟩ := inserted
    exact .mwebTxOffset _ arm vacant
  | mwebStealthOffset =>
    simp only [arm, bind_eq_ok, pure_eq_ok, insertOffset_eq_ok] at inserted
    obtain ⟨_, ⟨vacant, size, rfl⟩, rfl⟩ := inserted
    exact .mwebStealthOffset _ arm vacant
  | mwebKernelCount =>
    simp only [arm] at inserted
    split at inserted
    · contradiction
    · obtain rfl := Except.ok.inj inserted
      exact .mwebKernelCount arm
  | mwebKernelField =>
    simp only [arm] at inserted
    obtain rfl := Except.ok.inj inserted
    exact .mwebKernelField arm
  | mwebOutputField =>
    simp only [arm] at inserted
    obtain rfl := Except.ok.inj inserted
    exact .mwebOutputField arm
  | mwebInputField =>
    simp only [arm] at inserted
    obtain rfl := Except.ok.inj inserted
    exact .mwebInputField arm
  | unknown =>
    simp only [arm, insertUnknown, bind_eq_ok, pure_eq_ok, BTreeMap.fillEntry_eq_ok, Except.ok.injEq]
      at inserted
    obtain ⟨_, ⟨vacant, _, rfl, rfl⟩, rfl⟩ := inserted
    exact .unknown arm vacant

/-- What every readable pair leaves true of the variables: whatever they hold can be
written, and is read back up to the ends of the MWEB lists and the index of peg-outs. -/
structure Kept (state : GlobalState) : Prop where
  tx : ∀ tx ∈ state.tx, Unsigned tx ∧ (sizedWire tx.plainWire).length ≤ maxVecSize
  version : ∀ version ∈ state.version, version = 0
  xpub : ∀ entry ∈ state.xpub.toList, (sizedWire (Value.keySourceBytes entry.2)).length ≤ maxVecSize
  children : ∀ entry ∈ state.xpub.toList, entry.1.childNumber.Bounded ∧ entry.2.2.Bounded
  proprietary : ∀ entry ∈ state.proprietary.toList, ProprietaryKey.tryFrom entry.1.toKey = .ok entry.1 ∧
    Pair.Readable { key := entry.1.toKey, value := entry.2 }
  unknown : ∀ entry ∈ state.unknown.toList, GlobalArm.ofKey entry.1 = .unknown ∧
    Pair.Readable { key := entry.1, value := entry.2 }
  kernels : ∀ kernel ∈ state.mwebKernels, kernel.Kept
  inputs : ∀ input ∈ state.mwebInputs, MwebInput.table.Kept input
  outputs : ∀ output ∈ state.mwebOutputs, MwebOutput.table.Readable output
  kernelCount : state.mwebKernels.length ≤ 2 ^ 32
  inputCount : state.mwebInputs.length ≤ 2 ^ 32
  outputCount : state.mwebOutputs.length ≤ 2 ^ 32

theorem initial_kept : initial.Kept where
  tx _ absent := absurd absent (Option.not_mem_none _)
  version _ absent := absurd absent (Option.not_mem_none _)
  xpub _ absent := absurd absent List.not_mem_nil
  children _ absent := absurd absent List.not_mem_nil
  proprietary _ absent := absurd absent List.not_mem_nil
  unknown _ absent := absurd absent List.not_mem_nil
  kernels _ absent := absurd absent List.not_mem_nil
  inputs _ absent := absurd absent List.not_mem_nil
  outputs _ absent := absurd absent List.not_mem_nil
  kernelCount := Nat.zero_le _
  inputCount := Nat.zero_le _
  outputCount := Nat.zero_le _

omit [Secp256k1] in
theorem mwebIndex_lt (key : Key) : mwebIndex key < 2 ^ 32 := by
  have bound := fromLittleEndian_lt (key.key.take 4)
  have short : 256 ^ (key.key.take 4).length ≤ 256 ^ 4 :=
    Nat.pow_le_pow_right (by decide) (List.length_take_le _ _)
  exact bound.trans_le short

omit [Secp256k1] in
theorem length_applyAt_le (default : α) (apply : α → φ → α) {vec : List α} (key : Key) (field : φ)
    (short : vec.length ≤ 2 ^ 32) :
    (applyAt default apply vec (mwebIndex key, field)).length ≤ 2 ^ 32 := by
  rw [length_applyAt]
  exact max_le short (mwebIndex_lt key)

theorem insertPair_kept [Secp256k1.Lawful] {state next : GlobalState} (kept : state.Kept)
    (readable : pair.Readable) (inserted : state.insertPair pair = .ok next) : next.Kept := by
  cases insertPair_inserts inserted with
  | unsignedTx arm unkeyed vacant read =>
    obtain ⟨⟨unsigned, _⟩, same⟩ := (readUnsignedTx_reads _ _ _).mp read
    rw [List.append_nil] at same
    have short := readable.2
    rw [same] at short
    exact { kept with tx := by rintro _ ⟨⟩; exact ⟨unsigned, short⟩ }
  | xpub source arm parsed vacant bounded size =>
    refine { kept with
      xpub := BTreeMap.forall_mem_insert kept.xpub ?_
      children := BTreeMap.forall_mem_insert kept.children ⟨(Xpub.decode_eq_ok.mp parsed).2, bounded⟩ }
    exact sizedWire_short.mpr (size.trans (sizedWire_short.mp readable.2))
  | version => exact { kept with version := by rintro _ ⟨⟩; rfl }
  | proprietary arm parsed vacant =>
    refine { kept with proprietary := BTreeMap.forall_mem_insert kept.proprietary ?_ }
    rw [← (ProprietaryKey.tryFrom_eq_ok.mp parsed).1]
    exact ⟨parsed, readable⟩
  | mwebTxOffset => exact { kept with }
  | mwebStealthOffset => exact { kept with }
  | mwebKernelCount => exact kept
  | mwebKernelField =>
    refine { kept with kernels := ?_, kernelCount := length_applyAt_le _ _ _ _ kept.kernelCount }
    apply forall_mem_applyAt _ _ kept.kernels MwebKernel.default_kept
    exact fun kernel => MwebKernel.applyField_kept (readable_drop readable 5)
  | mwebOutputField =>
    refine { kept with outputs := ?_, outputCount := length_applyAt_le _ _ _ _ kept.outputCount }
    apply forall_mem_applyAt _ _ kept.outputs MwebTable.empty_readable
    have unkeyed : (FieldMap.mwebPair (mwebFieldType pair.key, [], pair.value)).Readable :=
      ⟨Nat.zero_le _, readable.2⟩
    exact fun output => MwebTable.apply_readable MwebOutput.table_lawful unkeyed
  | mwebInputField =>
    refine { kept with inputs := ?_, inputCount := length_applyAt_le _ _ _ _ kept.inputCount }
    apply forall_mem_applyAt _ _ kept.inputs MwebTable.empty_kept
    exact fun input => MwebTable.apply_kept MwebInput.table_lawful (readable_drop readable 4)
  | unknown arm vacant =>
    exact { kept with unknown := BTreeMap.forall_mem_insert kept.unknown ⟨arm, readable⟩ }

theorem run_kept [Secp256k1.Lawful] {final : GlobalState} (readable : ∀ pair ∈ pairs, pair.Readable)
    (ran : run insertPair initial pairs = .ok final) : final.Kept := by
  refine run_invariant ?_ initial_kept ran
  exact fun state pair member next kept => insertPair_kept kept (readable pair member)

end GlobalState
theorem mwebIndex_indexBytes (typeValue : UInt8) (i : Nat) (tail : Bytes) (short : i < 2 ^ 32) :
    mwebIndex { typeValue, key := indexBytes i ++ tail } = i := by
  have size : (indexBytes i).length = 4 := littleEndian_length _ _
  have value : (UInt32.ofNat i).toNat = i := UInt32.toNat_ofNat_of_lt' short
  rw [mwebIndex, List.take_left' size, indexBytes, value, fromLittleEndian_littleEndian short]

theorem drop_indexBytes (i : Nat) (tail : Bytes) : (indexBytes i ++ tail).drop 4 = tail :=
  List.drop_left' (littleEndian_length _ _)

theorem length_indexBytes (i : Nat) : (indexBytes i).length = 4 := littleEndian_length _ _

theorem ofKey_kernelField (long : 5 ≤ key.length) :
    GlobalArm.ofKey { typeValue := 0x93, key } = .mwebKernelField := by
  simp [GlobalArm.ofKey, long]

theorem ofKey_outputField (size : key.length = 5) :
    GlobalArm.ofKey { typeValue := 0x94, key } = .mwebOutputField := by
  simp [GlobalArm.ofKey, size]

theorem ofKey_kernelPair (update : Nat × KvPair) :
    GlobalArm.ofKey (kernelPair update).key = .mwebKernelField := by
  apply ofKey_kernelField
  rw [List.length_append, length_indexBytes, List.length_cons]
  omega

theorem ofKey_outputPair (update : Nat × UInt8 × Bytes) :
    GlobalArm.ofKey (outputPair update).key = .mwebOutputField := by
  apply ofKey_outputField
  rw [List.length_append, length_indexBytes, List.length_singleton]

/-- With an index alone, or under a type byte no other family uses, a key is that of an
input field. -/
theorem ofKey_inputField {key : Key} (inRange : MwebInput.inRange key.typeValue = true)
    (long : 4 ≤ key.key.length)
    (own : key.key.length = 4 ∨ key.typeValue ≠ 0x93 ∧ key.typeValue ≠ 0x94) :
    GlobalArm.ofKey key = .mwebInputField := by
  have outside (typeValue : UInt8) (out : MwebInput.inRange typeValue = false) :
      key.typeValue ≠ typeValue := by
    rintro rfl
    rw [out] at inRange
    contradiction
  rw [GlobalArm.ofKey, if_neg (outside _ rfl), if_neg (outside _ rfl), if_neg (outside _ rfl),
    if_neg (outside _ rfl), if_neg, if_neg, if_neg, if_neg, if_neg, if_pos ⟨inRange, long⟩]
  · rintro ⟨same, size⟩
    obtain index | ⟨_, other⟩ := own
    · omega
    · exact other same
  · rintro ⟨same, size⟩
    obtain index | ⟨other, _⟩ := own
    · omega
    · exact other same
  · omega
  · omega
  · omega

variable [Secp256k1]

/-- The key data of an input field never makes its key one of another family. -/
theorem ofKey_inputPair {input : MwebInput} (member : update.2 ∈ input.toKvPairs) :
    GlobalArm.ofKey (inputPair update).key = .mwebInputField := by
  obtain ⟨i, kv⟩ := update
  obtain ⟨f, _, a, _, rfl⟩ := MwebTable.mem_kvPairs.mp member
  have size : (inputPair (i, MwebInput.typeValue f, (MwebInput.field f).render a)).key.key.length =
      4 + ((MwebInput.field f).render a).1.length := by
    simp [inputPair, length_indexBytes]
  apply ofKey_inputField
  · cases f <;> rfl
  · exact size ▸ Nat.le_add_right _ _
  · cases f with
    | masterScanKeyOrigin => exact .inr ⟨(by decide : (0x9A : UInt8) ≠ 0x93), (by decide : (0x9A : UInt8) ≠ 0x94)⟩
    | masterSpendKeyOrigin => exact .inr ⟨(by decide : (0x9B : UInt8) ≠ 0x93), (by decide : (0x9B : UInt8) ≠ 0x94)⟩
    | _ => exact .inl size

namespace GlobalState

theorem insertPair_kernelPair (state : GlobalState) (update : Nat × KvPair) (short : update.1 < 2 ^ 32) :
    state.insertPair (kernelPair update) = .ok { state with
      mwebKernels := applyAt MwebKernel.default MwebKernel.applyField state.mwebKernels update } := by
  have index : mwebIndex (kernelPair update).key = update.1 := mwebIndex_indexBytes _ _ _ short
  have tail : (kernelPair update).key.key.drop 4 = update.2.1 :: update.2.2.1 := drop_indexBytes _ _
  have suffix : (kernelPair update).key.key.drop 5 = update.2.2.1 := by
    rw [← List.drop_drop (i := 1) (j := 4), tail]
    rfl
  simp only [insertPair, ofKey_kernelPair, index, mwebFieldType, tail, suffix]
  rfl

theorem insertPair_outputPair (state : GlobalState) (update : Nat × UInt8 × Bytes)
    (short : update.1 < 2 ^ 32) :
    state.insertPair (outputPair update) = .ok { state with
      mwebOutputs := applyAt MwebOutput.table.empty MwebOutput.applyField state.mwebOutputs update } := by
  have index : mwebIndex (outputPair update).key = update.1 := mwebIndex_indexBytes _ _ _ short
  have tail : (outputPair update).key.key.drop 4 = [update.2.1] := drop_indexBytes _ _
  simp only [insertPair, ofKey_outputPair, index, mwebFieldType, tail]
  rfl

theorem insertPair_inputPair (state : GlobalState) {input : MwebInput} (update : Nat × KvPair)
    (member : update.2 ∈ input.toKvPairs) (short : update.1 < 2 ^ 32) :
    state.insertPair (inputPair update) = .ok { state with
      mwebInputs := applyAt MwebInput.table.empty MwebInput.applyKvField state.mwebInputs update } := by
  have index : mwebIndex (inputPair update).key = update.1 := mwebIndex_indexBytes _ _ _ short
  have tail : (inputPair update).key.key.drop 4 = update.2.2.1 := drop_indexBytes _ _
  simp only [insertPair, ofKey_inputPair member, index, tail]
  rfl

end GlobalState
/-- Extended keys with their sources as they are read back. -/
def restoredEntries (map : BTreeMap Xpub KeySource) : List (Xpub × KeySource) :=
  map.toList.map fun (xpub, source) => (xpub.restored, restoredSource source)

def restoredXpub (map : BTreeMap Xpub KeySource) : BTreeMap Xpub KeySource :=
  .ofList (restoredEntries map)

theorem restoredEntries_eq {map : BTreeMap Xpub KeySource}
    (bounded : ∀ entry ∈ map.toList, entry.1.childNumber.Bounded ∧ entry.2.2.Bounded) :
    restoredEntries map = map.toList := by
  refine (List.map_congr_left fun entry member => ?_).trans (List.map_id _)
  obtain ⟨child, path⟩ := bounded entry member
  exact Prod.ext (entry.1.restored_eq_iff.mpr child) (restoredSource_eq path)

theorem restoredXpub_eq {map : BTreeMap Xpub KeySource}
    (bounded : ∀ entry ∈ map.toList, entry.1.childNumber.Bounded ∧ entry.2.2.Bounded) :
    restoredXpub map = map := by
  rw [restoredXpub, restoredEntries_eq bounded]
  exact BTreeMap.ofList_toList map

namespace GlobalState

theorem run_unsignedTx (state : GlobalState) {tx : Transaction} {value : Bytes}
    (read : readUnsignedTx value = .ok (tx, [])) :
    run insertPair { state with tx := none } [{ key := { typeValue := 0x00, key := [] }, value }] =
      .ok { state with tx := some tx } := by
  refine run_cons_eq_ok.mpr ⟨{ state with tx := some tx }, ?_, rfl⟩
  have filled : insertUnsignedTx none { key := { typeValue := 0x00, key := [] }, value } =
      .ok (some tx) := insertUnsignedTx_eq_ok.mpr ⟨rfl, rfl, tx, read, rfl⟩
  exact bind_eq_ok.mpr ⟨some tx, filled, rfl⟩

theorem run_xpub [Secp256k1.Lawful] (state : GlobalState) {map : BTreeMap Xpub KeySource}
    (distinct : ∀ a ∈ map, ∀ b ∈ map, a.encode = b.encode → a = b) :
    run insertPair { state with xpub := ∅ } (map.toList.map xpubPair) =
      .ok { state with xpub := restoredXpub map } := by
  let put (xpub : BTreeMap Xpub KeySource) : GlobalState := { state with xpub }
  have same : map.toList.map xpubPair = (restoredEntries map).map xpubPair := by
    rw [restoredEntries, List.map_map]
    refine List.map_congr_left fun entry _ => ?_
    simp only [Function.comp_apply, xpubPair, Xpub.encode_restored, keySourceBytes_restoredSource]
  have listed {entry : Xpub × KeySource} (member : entry ∈ map.toList) : entry.1 ∈ map := by
    rw [← Std.ExtTreeMap.mem_keys, ← Std.ExtTreeMap.map_fst_toList_eq_keys]
    exact List.mem_map_of_mem member
  have apart : (restoredEntries map).Pairwise (fun a b => ¬ compare a.1 b.1 = .eq) := by
    rw [restoredEntries, List.pairwise_map]
    refine Std.ExtTreeMap.distinct_keys_toList.imp_of_mem fun {a b} left right apart same => apart ?_
    have restored : a.1.restored = b.1.restored := Std.LawfulEqCmp.eq_of_compare same
    have encoded : a.1.encode = b.1.encode := by
      rw [← a.1.encode_restored, restored, b.1.encode_restored]
    have keys := distinct _ (listed left) _ (listed right) encoded
    rw [keys]
    exact Std.ReflCmp.compare_self
  have filled : run insertPair (put ∅) ((restoredEntries map).map xpubPair) =
      .ok (put (restoredXpub map)) := by
    apply BTreeMap.run_ofList put apart
    intro taken entry member vacant
    obtain ⟨original, _, rfl⟩ := List.mem_map.mp member
    have own := insertXpub_own original.1.restored_bounded (restoredSource_bounded original.2) vacant
    exact bind_eq_ok.mpr ⟨_, own, rfl⟩
  rw [same]
  exact filled

theorem run_mwebTxOffset (state : GlobalState) :
    run insertPair { state with mwebTxOffset := none }
      (state.mwebTxOffset.toList.map fun offset =>
        { key := { typeValue := 0x90, key := [] }, value := offset.val }) = .ok state := by
  let put (mwebTxOffset : Option (ByteArr 32)) : GlobalState := { state with mwebTxOffset }
  apply run_option put
  intro offset _
  exact bind_eq_ok.mpr ⟨some offset, insertOffset_eq_ok.mpr ⟨rfl, offset.property, rfl⟩, rfl⟩

theorem run_mwebStealthOffset (state : GlobalState) :
    run insertPair { state with mwebStealthOffset := none }
      (state.mwebStealthOffset.toList.map fun offset =>
        { key := { typeValue := 0x91, key := [] }, value := offset.val }) = .ok state := by
  let put (mwebStealthOffset : Option (ByteArr 32)) : GlobalState := { state with mwebStealthOffset }
  apply run_option put
  intro offset _
  exact bind_eq_ok.mpr ⟨some offset, insertOffset_eq_ok.mpr ⟨rfl, offset.property, rfl⟩, rfl⟩

/-- The count is checked for its length and then forgotten. -/
theorem run_kernelCount (state : GlobalState) (kernels : List MwebKernel) :
    run insertPair state (kernelCountPairs kernels) = .ok state := by
  rw [kernelCountPairs]
  split
  · rfl
  · refine run_cons_eq_ok.mpr ⟨state, ?_, rfl⟩
    have arm : GlobalArm.ofKey { typeValue := 0x92, key := [] } = .mwebKernelCount := rfl
    simp [insertPair, arm, length_indexBytes]

theorem run_kernels (state : GlobalState) {updates : List (Nat × KvPair)}
    (short : ∀ update ∈ updates, update.1 < 2 ^ 32) :
    run insertPair { state with mwebKernels := [] } (updates.map kernelPair) = .ok { state with
      mwebKernels := updates.foldl (applyAt MwebKernel.default MwebKernel.applyField) [] } := by
  let put (mwebKernels : List MwebKernel) : GlobalState := { state with mwebKernels }
  apply run_foldl put
  intro kernels update member
  exact insertPair_kernelPair _ update (short update member)

theorem run_inputs (state : GlobalState) {updates : List (Nat × KvPair)}
    (own : ∀ update ∈ updates, update.1 < 2 ^ 32 ∧ ∃ input : MwebInput, update.2 ∈ input.toKvPairs) :
    run insertPair { state with mwebInputs := [] } (updates.map inputPair) = .ok { state with
      mwebInputs := updates.foldl (applyAt MwebInput.table.empty MwebInput.applyKvField) [] } := by
  let put (mwebInputs : List MwebInput) : GlobalState := { state with mwebInputs }
  apply run_foldl put
  intro inputs update member
  obtain ⟨short, input, written⟩ := own update member
  exact insertPair_inputPair _ update written short

theorem run_outputs (state : GlobalState) {updates : List (Nat × UInt8 × Bytes)}
    (short : ∀ update ∈ updates, update.1 < 2 ^ 32) :
    run insertPair { state with mwebOutputs := [] } (updates.map outputPair) = .ok { state with
      mwebOutputs := updates.foldl (applyAt MwebOutput.table.empty MwebOutput.applyField) [] } := by
  let put (mwebOutputs : List MwebOutput) : GlobalState := { state with mwebOutputs }
  apply run_foldl put
  intro outputs update member
  exact insertPair_outputPair _ update (short update member)

omit [Secp256k1] in
theorem ofKey_toKey (key : ProprietaryKey) : GlobalArm.ofKey key.toKey = .proprietary := by
  simp [GlobalArm.ofKey, ProprietaryKey.toKey, ProprietaryKey.typeValue]

theorem insertPair_proprietary {state : GlobalState} (arm : GlobalArm.ofKey pair.key = .proprietary)
    (parsed : ProprietaryKey.tryFrom pair.key = .ok key) (vacant : key ∉ state.proprietary) :
    state.insertPair pair =
      .ok { state with proprietary := state.proprietary.insert key pair.value } := by
  have filled : insertProprietary state.proprietary pair =
      .ok (state.proprietary.insert key pair.value) :=
    bind_eq_ok.mpr ⟨key, parsed, BTreeMap.fillEntry_eq_ok.mpr ⟨vacant, _, rfl, rfl⟩⟩
  simp only [insertPair, arm, filled]
  rfl

theorem run_proprietary (state : GlobalState) (parsed : ∀ entry ∈ state.proprietary.toList,
    ProprietaryKey.tryFrom entry.1.toKey = .ok entry.1) :
    run insertPair { state with proprietary := ∅ } (pushProprietary state.proprietary) = .ok state := by
  let put (proprietary : BTreeMap ProprietaryKey Bytes) : GlobalState := { state with proprietary }
  apply BTreeMap.run_toList put
  intro map entry member vacant
  have own : insertPair (put map) { key := entry.1.toKey, value := entry.2 } = _ :=
    insertPair_proprietary (ofKey_toKey entry.1) (parsed _ member) vacant
  exact own

theorem run_unknown (state : GlobalState)
    (arms : ∀ entry ∈ state.unknown.toList, GlobalArm.ofKey entry.1 = .unknown) :
    run insertPair { state with unknown := ∅ } (pushUnknown state.unknown) = .ok state := by
  let put (unknown : BTreeMap Key Bytes) : GlobalState := { state with unknown }
  apply BTreeMap.run_toList put
  rintro map ⟨key, value⟩ member vacant
  have filled : insertUnknown map { key, value } = .ok (map.insert key value) :=
    BTreeMap.fillEntry_eq_ok.mpr ⟨vacant, value, rfl, rfl⟩
  simp only [insertPair, arms _ member, bind_eq_ok, pure_eq_ok]
  exact ⟨_, filled, rfl⟩

end GlobalState

variable [Hashes]

/-- Everything outside the MWEB lists that reading the written global map relies on. -/
structure GlobalKept (psbt : Psbt) : Prop where
  tx : GlobalState.Unsigned psbt.unsignedTx
  version : psbt.version = 0
  xpub : ∀ a ∈ psbt.xpub, ∀ b ∈ psbt.xpub, a.encode = b.encode → a = b
  proprietary : ∀ entry ∈ psbt.proprietary.toList, entry.1.key.length ≤ ProprietaryKey.keyLimit
  unknown : ∀ entry ∈ psbt.unknown.toList, GlobalArm.ofKey entry.1 = .unknown
  kernels : psbt.mwebKernels.length ≤ 2 ^ 32
  inputs : psbt.mwebInputs.length ≤ 2 ^ 32
  outputs : psbt.mwebOutputs.length ≤ 2 ^ 32

/-- The lists as they are read back. -/
def restoredKernels (kernels : List MwebKernel) : List MwebKernel :=
  (indexedFields (kernels.map MwebKernel.toKvPairs)).foldl
    (applyAt MwebKernel.default MwebKernel.applyField) []

omit [Hashes] in
def restoredInputs (inputs : List MwebInput) : List MwebInput :=
  (indexedFields (inputs.map MwebInput.toKvPairs)).foldl
    (applyAt MwebInput.table.empty MwebInput.applyKvField) []

def restoredOutputs (outputs : List MwebOutput) : List MwebOutput :=
  (indexedFields (outputs.map MwebOutput.toPairs)).foldl
    (applyAt MwebOutput.table.empty MwebOutput.applyField) []

/-- The variables of `decode_global` once the written map is read. -/
def restoredState (psbt : Psbt) : GlobalState where
  tx := some psbt.unsignedTx
  version := none
  xpub := restoredXpub psbt.xpub
  proprietary := psbt.proprietary
  unknown := psbt.unknown
  mwebTxOffset := psbt.mwebTxOffset
  mwebStealthOffset := psbt.mwebStealthOffset
  mwebKernels := restoredKernels psbt.mwebKernels
  mwebInputs := restoredInputs psbt.mwebInputs
  mwebOutputs := restoredOutputs psbt.mwebOutputs

omit [Hashes] in
theorem unsignedTxBytes_eq (tx : Transaction) : unsignedTxBytes tx = tx.plainWire := by
  simp only [unsignedTxBytes, readI32_codec.emits, Transaction.inputs_emitted,
    Transaction.outputs_emitted, LockTime.codec.emits, vecWritten_written, Transaction.plainWire,
    List.append_assoc]

theorem mem_getPairs_unsignedTx (psbt : Psbt) :
    { key := { typeValue := 0x00, key := [] }, value := unsignedTxBytes psbt.unsignedTx } ∈
      psbt.getPairs := by
  simp [getPairs]

theorem mem_getPairs_proprietary {psbt : Psbt} (member : entry ∈ psbt.proprietary.toList) :
    { key := entry.1.toKey, value := entry.2 } ∈ psbt.getPairs := by
  have listed : { key := entry.1.toKey, value := entry.2 } ∈ pushProprietary psbt.proprietary :=
    List.mem_map_of_mem member
  simp [getPairs, listed]

/-- The written global map is read back, up to its MWEB lists. -/
theorem run_getPairs [Secp256k1.Lawful] {psbt : Psbt} (kept : psbt.GlobalKept)
    (small : (serializeMap psbt.getPairs).length ≤ maxVecSize) :
    run GlobalState.insertPair .initial psbt.getPairs = .ok psbt.restoredState := by
  have readable := readable_of_length small
  have txRead : GlobalState.readUnsignedTx (unsignedTxBytes psbt.unsignedTx) =
      .ok (psbt.unsignedTx, []) := by
    have short := (readable _ (mem_getPairs_unsignedTx psbt)).2
    rw [unsignedTxBytes_eq] at short ⊢
    rw [sizedWire, List.length_append, Transaction.plainWire, List.length_append, List.length_append,
      List.length_append] at short
    exact GlobalState.readUnsignedTx_reads.read_all ⟨kept.tx, by omega, by omega⟩
  have parsed : ∀ entry ∈ psbt.proprietary.toList, ProprietaryKey.tryFrom entry.1.toKey = .ok entry.1 := by
    intro entry member
    have short := (readable _ (mem_getPairs_proprietary member)).1
    rw [Key.Readable, ProprietaryKey.toKey_key, List.length_append] at short
    exact ProprietaryKey.tryFrom_eq_ok.mpr ⟨rfl, kept.proprietary entry member, by omega⟩
  let afterOutputs : GlobalState := { psbt.restoredState with proprietary := ∅, unknown := ∅ }
  let afterInputs : GlobalState := { afterOutputs with mwebOutputs := [] }
  let afterKernels : GlobalState := { afterInputs with mwebInputs := [] }
  let afterOffsets : GlobalState := { afterKernels with mwebKernels := [] }
  let afterTxOffset : GlobalState := { afterOffsets with mwebStealthOffset := none }
  let afterXpub : GlobalState := { afterTxOffset with mwebTxOffset := none }
  let afterTx : GlobalState := { afterXpub with xpub := ∅ }
  have version : ¬ 0 < psbt.version := by
    rw [kept.version]
    decide
  rw [getPairs, if_neg version, List.append_nil]
  simp only [List.append_assoc]
  have first : run GlobalState.insertPair .initial
      [{ key := { typeValue := 0x00, key := [] }, value := unsignedTxBytes psbt.unsignedTx }] =
      .ok afterTx := GlobalState.run_unsignedTx .initial txRead
  have kernels : ∀ update ∈ indexedFields (psbt.mwebKernels.map MwebKernel.toKvPairs),
      update.1 < 2 ^ 32 := by
    intro update member
    have bound := (mem_indexedFields member).1
    rw [List.length_map] at bound
    exact bound.trans_le kept.kernels
  have inputs : ∀ update ∈ indexedFields (psbt.mwebInputs.map MwebInput.toKvPairs),
      update.1 < 2 ^ 32 ∧ ∃ input : MwebInput, update.2 ∈ input.toKvPairs := by
    intro update member
    obtain ⟨bound, own, listed, found⟩ := mem_indexedFields member
    obtain ⟨input, _, rfl⟩ := List.mem_map.mp listed
    rw [List.length_map] at bound
    exact ⟨bound.trans_le kept.inputs, input, found⟩
  have outputs : ∀ update ∈ indexedFields (psbt.mwebOutputs.map MwebOutput.toPairs),
      update.1 < 2 ^ 32 := by
    intro update member
    have bound := (mem_indexedFields member).1
    rw [List.length_map] at bound
    exact bound.trans_le kept.outputs
  refine run_append_eq_ok.mpr ⟨afterTx, first, ?_⟩
  refine run_append_eq_ok.mpr ⟨afterXpub, GlobalState.run_xpub afterXpub kept.xpub, ?_⟩
  refine run_append_eq_ok.mpr ⟨afterTxOffset, GlobalState.run_mwebTxOffset afterTxOffset, ?_⟩
  refine run_append_eq_ok.mpr ⟨afterOffsets, GlobalState.run_mwebStealthOffset afterOffsets, ?_⟩
  refine run_append_eq_ok.mpr ⟨afterOffsets, GlobalState.run_kernelCount _ _, ?_⟩
  refine run_append_eq_ok.mpr ⟨afterKernels, GlobalState.run_kernels afterKernels kernels, ?_⟩
  refine run_append_eq_ok.mpr ⟨afterInputs, GlobalState.run_inputs afterInputs inputs, ?_⟩
  refine run_append_eq_ok.mpr ⟨afterOutputs, GlobalState.run_outputs afterOutputs outputs, ?_⟩
  refine run_append_eq_ok.mpr ⟨{ psbt.restoredState with unknown := ∅ },
    GlobalState.run_proprietary { psbt.restoredState with unknown := ∅ } parsed, ?_⟩
  exact GlobalState.run_unknown psbt.restoredState kept.unknown

/-- The global map is read exactly when it fits the limit, its pairs are inserted one after
the other, and one of them is the unsigned transaction. -/
theorem decodeGlobal_eq_ok {psbt : Psbt} :
    decodeGlobal bytes = .ok (psbt, rest) ↔ ∃ pairs state tx,
      (serializeMap pairs).length ≤ maxVecSize ∧ bytes = serializeMap pairs ++ rest ∧
      run GlobalState.insertPair .initial pairs = .ok state ∧ state.tx = some tx ∧
      psbt = ofGlobal state tx := by
  rw [decodeGlobal]
  let Image (psbt : Psbt) (image : Bytes) : Prop := ∃ pairs state tx, (∀ pair ∈ pairs, pair.Readable) ∧
    image = serializeMap pairs ∧ run GlobalState.insertPair .initial pairs = .ok state ∧
    state.tx = some tx ∧ psbt = ofGlobal state tx
  rw [Decoder.take_images Image]
  · constructor
    · rintro ⟨_, ⟨pairs, state, tx, _, rfl, found⟩, bound, rfl⟩
      exact ⟨pairs, state, tx, bound, rfl, found⟩
    · rintro ⟨pairs, state, tx, bound, rfl, found⟩
      exact ⟨_, ⟨pairs, state, tx, readable_of_length bound, rfl, found⟩, bound, rfl⟩
  · intro bytes psbt rest
    simp only [Decoder.bind_eq_ok, decodeMap_eq_ok]
    constructor
    · rintro ⟨state, _, ⟨pairs, readable, rfl, ran⟩, finished⟩
      cases found : state.tx with
      | none => simp [found] at finished
      | some tx =>
        simp only [found, Decoder.pure_eq_ok] at finished
        obtain ⟨rfl, rfl⟩ := finished
        exact ⟨_, ⟨pairs, state, tx, readable, rfl, ran, found, rfl⟩, rfl⟩
    · rintro ⟨_, ⟨pairs, state, tx, readable, rfl, ran, found, rfl⟩, rfl⟩
      refine ⟨state, rest, ⟨pairs, readable, rfl, ran⟩, ?_⟩
      simp [found]

end Litecoin.Psbt
