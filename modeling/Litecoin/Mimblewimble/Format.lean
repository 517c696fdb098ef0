import Litecoin.Mimblewimble.Codec

/-! The byte grammar of MWEB transactions, and the values that have an image in it. -/
namespace Litecoin.Mimblewimble
open Wire Consensus Secp256k1
variable [Secp256k1]

def keyWire (key : PublicKey) : Bytes := (serialize key).val

/-- A key that its own serialization stands for. -/
def KeyValid (key : PublicKey) : Prop := publicKeyFromSlice (keyWire key) = some key

theorem encodePublicKey_eq (key : PublicKey) : encodePublicKey key = .written (keyWire key) :=
  (readExact_codec 33).emits _

theorem readPublicKey_reads [Canonical] (message : String) :
    Reads (readPublicKey message) keyWire KeyValid := by
  intro bytes key rest
  simp only [readPublicKey, Decoder.bind_eq_ok, readExact, Decoder.exact_eq_ok]
  constructor
  · rintro ⟨chunk, middle, rfl, parsed⟩
    cases slice : publicKeyFromSlice chunk.val with
    | none => simp [slice] at parsed
    | some found =>
      simp only [slice, Decoder.pure_eq_ok] at parsed
      obtain ⟨rfl, rfl⟩ := parsed
      have image := Canonical.serialize_fromSlice chunk found slice
      refine ⟨?_, ?_⟩
      · rw [KeyValid, keyWire, image, slice]
      · rw [keyWire, image]
  · rintro ⟨valid, rfl⟩
    refine ⟨serialize key, rest, rfl, ?_⟩
    rw [KeyValid, keyWire] at valid
    simp [valid]

namespace PegOutCoin

def wire (coin : PegOutCoin) : Bytes := amountWire coin.amount ++ bytesWire coin.scriptPubKey

def Valid (coin : PegOutCoin) : Prop := 0 ≤ coin.amount ∧ coin.scriptPubKey.isEmpty = false

omit [Secp256k1] in
theorem consensusEncode_eq (coin : PegOutCoin) : coin.consensusEncode = .written coin.wire := by
  rw [consensusEncode, writeAmount_eq, encodeWithSize_eq, Emission.written_append, wire]

omit [Secp256k1] in
theorem reads : Reads consensusDecodeFromFiniteReader wire Valid := by
  refine (Reads.record (Reads.field (·.amount) readAmount_reads fun _ _ =>
    Reads.field (·.scriptPubKey) decodeBytes_reads fun _ _ =>
    Reads.check (fun coin : PegOutCoin => coin.scriptPubKey.isEmpty = false) ?_ fun _ =>
    Reads.done ?_)).congr ?_ ?_
  · rintro coin ⟨_, rfl⟩
    simp
  · intro coin
    cases coin
    simp
  · intro coin
    simp [Valid]
  · intro coin _
    simp [wire]

end PegOutCoin

namespace Kernel
open KernelFeatures

def lockHeightWire (height : UInt32) : Bytes := amountWire height.toUInt64.toInt64

omit [Secp256k1] in
theorem writeLockHeight_eq (height : UInt32) :
    writeLockHeight height = .written (lockHeightWire height) :=
  writeAmount_eq _

omit [Secp256k1] in
theorem lockHeight_ofAmount {raw : Int64} (range : ¬ (raw < 0 ∨ raw > 0xFFFFFFFF)) :
    raw.toUInt64.toUInt32.toUInt64.toInt64 = raw := by
  rw [not_or, Int64.not_lt] at range
  have upper : raw.toInt ≤ 0xFFFFFFFF := by
    simpa [Int64.lt_iff_toInt_lt] using range.2
  have value := Int64.cast_toNatClampNeg raw range.1
  have same : raw.toUInt64.toUInt32.toUInt64 = raw.toUInt64 := by
    apply UInt64.toNat_inj.mp
    rw [UInt32.toNat_toUInt64, UInt64.toNat_toUInt32, Int64.toNat_toUInt64_of_le range.1]
    omega
  rw [same, Int64.toInt64_toUInt64]

omit [Secp256k1] in
theorem lockHeight_toInt (height : UInt32) : height.toUInt64.toInt64.toInt = height.toNat := by
  have bound := height.toNat_lt
  have same : height.toUInt64 = UInt64.ofNat height.toNat := by simp
  rw [same, UInt64.toInt64_ofNat', Int64.toInt_ofNat_of_lt (by omega)]

omit [Secp256k1] in
theorem lockHeight_inRange (height : UInt32) :
    0 ≤ height.toUInt64.toInt64 ∧ ¬ height.toUInt64.toInt64 > 0xFFFFFFFF := by
  have bound := height.toNat_lt
  have value := lockHeight_toInt height
  constructor
  · simp [Int64.le_iff_toInt_le, value]
  · simp [Int64.lt_iff_toInt_lt, value]
    omega

omit [Secp256k1] in
theorem readLockHeight_reads : Reads readLockHeight lockHeightWire (fun _ => True) := by
  intro bytes height rest
  simp only [readLockHeight, Decoder.bind_eq_ok, Decoder.ite_eq_ok, Decoder.fail_eq_ok,
    Decoder.pure_eq_ok, readAmount_reads _ _ _, and_false, false_or, true_and]
  constructor
  · rintro ⟨raw, _, ⟨nonneg, rfl⟩, range, rfl, rfl⟩
    rw [lockHeightWire, lockHeight_ofAmount range]
  · rintro rfl
    obtain ⟨nonneg, upper⟩ := lockHeight_inRange height
    exact ⟨_, rest, ⟨nonneg, rfl⟩, not_or.mpr ⟨Int64.not_lt.mpr nonneg, upper⟩, by simp, rfl⟩

def wire (kernel : Kernel) : Bytes :=
  let has := hasBit kernel.features
  [kernel.features] ++
  (announced (has feeFeatureBit) (optionalWire amountWire kernel.fee) ++
  (announced (has peginFeatureBit) (optionalWire amountWire kernel.pegin) ++
  (announced (has pegoutFeatureBit) (vecWire PegOutCoin.wire kernel.pegouts) ++
  (announced (has heightLockFeatureBit) (optionalWire lockHeightWire kernel.lockHeight) ++
  (announced (has stealthExcessFeatureBit) (optionalWire keyWire kernel.stealthExcess) ++
  (announced (has extraDataFeatureBit) (bytesWire kernel.extraData) ++
  (kernel.excess.val ++ kernel.signature.val)))))))

/-- The kernels that can be read: the feature byte announces exactly the fields that
are there. -/
@[mk_iff] structure Valid (kernel : Kernel) : Prop where
  fee : kernel.fee.isSome = hasBit kernel.features feeFeatureBit ∧
    ∀ amount ∈ kernel.fee, 0 ≤ amount
  pegin : kernel.pegin.isSome = hasBit kernel.features peginFeatureBit ∧
    ∀ amount ∈ kernel.pegin, 0 ≤ amount
  pegouts : if hasBit kernel.features pegoutFeatureBit then
    ∀ coin ∈ kernel.pegouts.toList, coin.Valid else kernel.pegouts = .empty
  lockHeight : kernel.lockHeight.isSome = hasBit kernel.features heightLockFeatureBit
  stealthExcess : kernel.stealthExcess.isSome = hasBit kernel.features stealthExcessFeatureBit ∧
    ∀ key ∈ kernel.stealthExcess, KeyValid key
  extraData : if hasBit kernel.features extraDataFeatureBit then True
    else kernel.extraData = .empty

theorem reads [Canonical] : Reads consensusDecodeFromFiniteReader wire Valid := by
  refine (Reads.record (Reads.field features readU8_codec.reads fun _ _ =>
    Reads.gatedField fee (fun k : Kernel => hasBit k.features feeFeatureBit)
      readAmount_reads fun _ _ =>
    Reads.gatedField pegin (fun k : Kernel => hasBit k.features peginFeatureBit)
      readAmount_reads fun _ _ =>
    Reads.absentField pegouts (fun k : Kernel => hasBit k.features pegoutFeatureBit)
      (decodeVec_reads PegOutCoin.reads) fun _ _ =>
    Reads.gatedField lockHeight (fun k : Kernel => hasBit k.features heightLockFeatureBit)
      readLockHeight_reads fun _ _ =>
    Reads.gatedField stealthExcess (fun k : Kernel => hasBit k.features stealthExcessFeatureBit)
      (readPublicKey_reads _) fun _ _ =>
    Reads.absentField extraData (fun k : Kernel => hasBit k.features extraDataFeatureBit)
      decodeBytes_reads fun _ _ =>
    Reads.field excess (readExact_codec 33).reads fun _ _ =>
    Reads.field signature (readExact_codec 64).reads fun _ _ =>
    Reads.done ?_)).congr ?_ ?_
  · intro kernel
    cases kernel
    simp [and_assoc]
  · intro kernel
    simp only [valid_iff, true_and, and_true, implies_true]
  · intro kernel _
    simp only [wire, littleEndian_one, List.append_nil]

/-- Every announced field is there. -/
@[mk_iff] structure Complete (kernel : Kernel) : Prop where
  fee : hasBit kernel.features feeFeatureBit → kernel.fee.isSome
  pegin : hasBit kernel.features peginFeatureBit → kernel.pegin.isSome
  lockHeight : hasBit kernel.features heightLockFeatureBit → kernel.lockHeight.isSome
  stealthExcess : hasBit kernel.features stealthExcessFeatureBit → kernel.stealthExcess.isSome

theorem Valid.complete {kernel : Kernel} (valid : kernel.Valid) : kernel.Complete where
  fee := valid.fee.1.trans
  pegin := valid.pegin.1.trans
  lockHeight := valid.lockHeight.trans
  stealthExcess := valid.stealthExcess.1.trans

theorem consensusEncode_eq {kernel : Kernel} (complete : kernel.Complete) :
    kernel.consensusEncode = .written kernel.wire := by
  have pegouts : encodeVec PegOutCoin.consensusEncode kernel.pegouts =
      .written (vecWire PegOutCoin.wire kernel.pegouts) :=
    encodeVec_eq fun coin _ => coin.consensusEncode_eq
  simp only [consensusEncode, readU8_codec.emits, Emission.gated_required writeAmount_eq complete.fee,
    Emission.gated_required writeAmount_eq complete.pegin, pegouts,
    Emission.gated_required writeLockHeight_eq complete.lockHeight,
    Emission.gated_required encodePublicKey_eq complete.stealthExcess, bytes_codec.emits,
    (readExact_codec _).emits, Emission.gated_written, Emission.written_append, wire,
    littleEndian_one, List.append_assoc]

end Kernel

namespace Input

def wire (input : Input) : Bytes :=
  [input.features] ++ (input.outputId.val ++ (input.commitment.val ++
  (keyWire input.outputPublicKey ++
  (announced (hasBit input.features 1) (optionalWire keyWire input.inputPublicKey) ++
  (announced (hasBit input.features 2) (bytesWire input.extraData) ++ input.signature.val)))))

@[mk_iff] structure Valid (input : Input) : Prop where
  outputPublicKey : KeyValid input.outputPublicKey
  inputPublicKey : input.inputPublicKey.isSome = hasBit input.features 1 ∧
    ∀ key ∈ input.inputPublicKey, KeyValid key
  extraData : if hasBit input.features 2 then True else input.extraData = .empty

theorem reads [Canonical] : Reads consensusDecodeFromFiniteReader wire Valid := by
  refine (Reads.record (Reads.field features readU8_codec.reads fun _ _ =>
    Reads.field outputId (readExact_codec 32).reads fun _ _ =>
    Reads.field commitment (readExact_codec 33).reads fun _ _ =>
    Reads.field outputPublicKey (readPublicKey_reads _) fun _ _ =>
    Reads.gatedField inputPublicKey (fun i : Input => hasBit i.features 1)
      (readPublicKey_reads _) fun _ _ =>
    Reads.absentField extraData (fun i : Input => hasBit i.features 2) decodeBytes_reads fun _ _ =>
    Reads.field signature (readExact_codec 64).reads fun _ _ =>
    Reads.done ?_)).congr ?_ ?_
  · intro input
    cases input
    simp only [true_and, mk.injEq, and_assoc]
    tauto
  · intro input
    simp only [valid_iff, true_and, and_true]
  · intro input _
    simp only [wire, littleEndian_one, List.append_nil]

/-- The announced key is there. -/
def Complete (input : Input) : Prop := hasBit input.features 1 → input.inputPublicKey.isSome

theorem Valid.complete {input : Input} (valid : input.Valid) : input.Complete :=
  valid.inputPublicKey.1.trans

theorem consensusEncode_eq {input : Input} (complete : input.Complete) :
    input.consensusEncode = .written input.wire := by
  simp only [consensusEncode, readU8_codec.emits, encodePublicKey_eq,
    Emission.gated_required encodePublicKey_eq complete, bytes_codec.emits,
    (readExact_codec _).emits, Emission.gated_written, Emission.written_append, wire,
    littleEndian_one, List.append_assoc]

end Input

namespace OutputMessage
open OutputFeatures

def standardFieldsWire (fields : OutputMessageStandardFields) : Bytes :=
  keyWire fields.keyExchangePubkey ++ ([fields.viewTag] ++
  (littleEndian 8 fields.maskedValue.toNat ++ fields.maskedNonce.val))

theorem readStandardFields_reads [Canonical] :
    Reads readStandardFields standardFieldsWire (fun fields => KeyValid fields.keyExchangePubkey) := by
  refine (Reads.record (Reads.field OutputMessageStandardFields.keyExchangePubkey
      (readPublicKey_reads _) fun _ _ =>
    Reads.field OutputMessageStandardFields.viewTag readU8_codec.reads fun _ _ =>
    Reads.field OutputMessageStandardFields.maskedValue readU64_codec.reads fun _ _ =>
    Reads.field OutputMessageStandardFields.maskedNonce (readExact_codec 16).reads fun _ _ =>
    Reads.done ?_)).congr ?_ ?_
  · intro fields
    cases fields
    simp [and_assoc]
  · intro fields
    simp only [and_true]
  · intro fields _
    simp only [standardFieldsWire, littleEndian_one, List.append_nil]

theorem encodeStandardFields_eq (fields : OutputMessageStandardFields) :
    encodeStandardFields fields = .written (standardFieldsWire fields) := by
  simp only [encodeStandardFields, encodePublicKey_eq, readU8_codec.emits, readU64_codec.emits,
    (readExact_codec _).emits, Emission.written_append, standardFieldsWire, littleEndian_one, List.append_assoc]

/-- The writer's image. The standard fields are not announced by their bit. -/
def wire (message : OutputMessage) : Bytes :=
  [message.features] ++ (optionalWire standardFieldsWire message.standardFields ++
  announced (hasBit message.features extraDataFeatureBit) (bytesWire message.extraData))

@[mk_iff] structure Valid (message : OutputMessage) : Prop where
  standardFields : message.standardFields.isSome = hasBit message.features standardFieldsFeatureBit ∧
    ∀ fields ∈ message.standardFields, KeyValid fields.keyExchangePubkey
  extraData : if hasBit message.features extraDataFeatureBit then True
    else message.extraData = .empty

theorem reads [Canonical] : Reads consensusDecodeFromFiniteReader wire Valid := by
  refine (Reads.record (Reads.field features readU8_codec.reads fun _ _ =>
    Reads.gatedField standardFields
      (fun m : OutputMessage => hasBit m.features standardFieldsFeatureBit)
      readStandardFields_reads fun _ _ =>
    Reads.absentField extraData (fun m : OutputMessage => hasBit m.features extraDataFeatureBit)
      decodeBytes_reads fun _ _ =>
    Reads.done ?_)).congr ?_ ?_
  · intro message
    cases message
    simp [and_assoc]
  · intro message
    simp only [valid_iff, true_and, and_true]
  · intro message valid
    obtain ⟨_, ⟨same, _⟩, _⟩ := valid
    simp only [wire, littleEndian_one, List.append_nil, ← same]
    cases message.standardFields <;> rfl

theorem consensusEncode_eq (message : OutputMessage) :
    message.consensusEncode = .written message.wire := by
  cases fields : message.standardFields with
  | none =>
    simp only [consensusEncode, fields, readU8_codec.emits, bytes_codec.emits,
      Emission.gated_written, Emission.written_append, wire, optionalWire,   littleEndian_one, List.append_assoc]
  | some found =>
    simp only [consensusEncode, fields, readU8_codec.emits, encodeStandardFields_eq,
      bytes_codec.emits, Emission.gated_written, Emission.written_append, wire, optionalWire,
      littleEndian_one, List.append_assoc]

end OutputMessage

namespace Output

def wire (output : Output) : Bytes :=
  output.commitment.val ++ (keyWire output.senderPublicKey ++ (keyWire output.receiverPublicKey ++
  (output.message.wire ++ (output.rangeProof.val ++ output.signature.val))))

@[mk_iff] structure Valid (output : Output) : Prop where
  senderPublicKey : KeyValid output.senderPublicKey
  receiverPublicKey : KeyValid output.receiverPublicKey
  message : output.message.Valid

theorem reads [Canonical] : Reads consensusDecodeFromFiniteReader wire Valid := by
  refine (Reads.record (Reads.field commitment (readExact_codec 33).reads fun _ _ =>
    Reads.field senderPublicKey (readPublicKey_reads _) fun _ _ =>
    Reads.field receiverPublicKey (readPublicKey_reads _) fun _ _ =>
    Reads.field message OutputMessage.reads fun _ _ =>
    Reads.field rangeProof (readExact_codec 675).reads fun _ _ =>
    Reads.field signature (readExact_codec 64).reads fun _ _ =>
    Reads.done ?_)).congr ?_ ?_
  · intro output
    cases output
    simp [and_assoc]
  · intro output
    simp only [valid_iff, true_and, and_true]
  · intro output _
    simp only [wire, List.append_nil]

theorem consensusEncode_eq (output : Output) : output.consensusEncode = .written output.wire := by
  simp only [consensusEncode, encodePublicKey_eq, OutputMessage.consensusEncode_eq,
    (readExact_codec _).emits, Emission.written_append, wire, List.append_assoc]

end Output

namespace TxBody

def wire (body : TxBody) : Bytes :=
  vecWire Input.wire body.inputs ++ (vecWire Output.wire body.outputs ++
  vecWire Kernel.wire body.kernels)

@[mk_iff] structure Valid (body : TxBody) : Prop where
  inputs : ∀ input ∈ body.inputs.toList, input.Valid
  outputs : ∀ output ∈ body.outputs.toList, output.Valid
  kernels : ∀ kernel ∈ body.kernels.toList, kernel.Valid

theorem reads [Canonical] : Reads consensusDecodeFromFiniteReader wire Valid := by
  refine (Reads.record (Reads.field inputs (decodeVec_reads Input.reads) fun _ _ =>
    Reads.field outputs (decodeVec_reads Output.reads) fun _ _ =>
    Reads.field kernels (decodeVec_reads Kernel.reads) fun _ _ =>
    Reads.done ?_)).congr ?_ ?_
  · intro body
    cases body
    simp [and_assoc]
  · intro body
    simp only [valid_iff, and_true]
  · intro body _
    simp only [wire, List.append_nil]

/-- Every announced field of every record is there. -/
structure Complete (body : TxBody) : Prop where
  inputs : ∀ input ∈ body.inputs.toList, input.Complete
  kernels : ∀ kernel ∈ body.kernels.toList, kernel.Complete

theorem Valid.complete {body : TxBody} (valid : body.Valid) : body.Complete where
  inputs input member := (valid.inputs input member).complete
  kernels kernel member := (valid.kernels kernel member).complete

theorem consensusEncode_eq {body : TxBody} (complete : body.Complete) :
    body.consensusEncode = .written body.wire := by
  rw [consensusEncode,
    encodeVec_eq fun input member => Input.consensusEncode_eq (complete.inputs input member),
    encodeVec_eq fun output _ => Output.consensusEncode_eq output,
    encodeVec_eq fun kernel member => Kernel.consensusEncode_eq (complete.kernels kernel member)]
  simp only [Emission.written_append, wire, List.append_assoc]

end TxBody

namespace Transaction

def wire (tx : Transaction) : Bytes :=
  tx.kernelOffset.val ++ (tx.stealthOffset.val ++ tx.body.wire)

@[mk_iff] structure Valid (tx : Transaction) : Prop where
  body : tx.body.Valid
  kernels : tx.body.kernels.isEmpty = false

theorem reads [Canonical] : Reads consensusDecodeFromFiniteReader wire Valid := by
  refine (Reads.record (Reads.field kernelOffset (readExact_codec 32).reads fun _ _ =>
    Reads.field stealthOffset (readExact_codec 32).reads fun _ _ =>
    Reads.field body TxBody.reads fun _ _ =>
    Reads.check (fun tx : Transaction => tx.body.kernels.isEmpty = false) ?_ fun _ =>
    Reads.done ?_)).congr ?_ ?_
  · rintro tx ⟨_, rfl⟩
    simp
  · intro tx
    cases tx
    simp [and_assoc]
  · intro tx
    simp only [valid_iff, true_and, and_true]
  · intro tx _
    simp only [wire, List.append_nil]

theorem consensusEncode_eq {tx : Transaction} (complete : tx.body.Complete) :
    tx.consensusEncode = .written tx.wire := by
  simp only [consensusEncode, (readExact_codec _).emits, TxBody.consensusEncode_eq complete,
    Emission.written_append, wire, List.append_assoc]

end Transaction
end Litecoin.Mimblewimble
