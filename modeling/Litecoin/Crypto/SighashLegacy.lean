import Litecoin.Blockdata.TransactionExactness
import Litecoin.Crypto.Sighash
import Mathlib.Algebra.Group.Nat.Defs
import Mathlib.Data.List.Induction

/-! The legacy preimage against the signature serializer of the reference client, which
writes the fields of the signed transaction directly instead of building a second one. -/
namespace Litecoin.Sighash
open Wire Consensus Blockdata

/-! The reference serializer, in its own terms. -/
namespace Reference

/-- `OP_CODESEPARATOR`. -/
def codeSeparator : UInt8 := 0xab

/-- The bytes that the operation at the front of a script takes, operand included;
`none` when the script ends before the operation does. -/
def opLength : Bytes → Option Nat
  | [] => none
  | opcode :: rest =>
    let lengthBytes := if opcode = 0x4c then 1 else if opcode = 0x4d then 2
      else if opcode = 0x4e then 4 else 0
    let operand := if opcode < 0x4c then opcode.toNat else fromLittleEndian (rest.take lengthBytes)
    if rest.length < lengthBytes + operand then none else some (1 + lengthBytes + operand)

/-- Whether an operation of the script is a code separator. -/
def hasCodeSeparator : (fuel : Nat) → Bytes → Bool
  | 0, _ => false
  | fuel + 1, script => match opLength script with
    | none => false
    | some length => script.head? = some codeSeparator ∨ hasCodeSeparator fuel (script.drop length)

/-- The script without its code separators. -/
def dropCodeSeparators : (fuel : Nat) → Bytes → Bytes
  | 0, script => script
  | fuel + 1, script => match opLength script with
    | none => script
    | some length =>
      (if script.head? = some codeSeparator then [] else script.take length) ++
        dropCodeSeparators fuel (script.drop length)

/-- `SerializeScriptCode`. -/
def serializeScriptCode (scriptCode : Bytes) : Bytes :=
  let code := dropCodeSeparators scriptCode.length scriptCode
  VarInt.wire (UInt64.ofNat code.length) ++ code

def hashSingle (hashType : UInt32) : Bool := hashType &&& 0x1f = 3
def hashNone (hashType : UInt32) : Bool := hashType &&& 0x1f = 2
def anyoneCanPay (hashType : UInt32) : Bool := hashType &&& 0x80 ≠ 0

variable [Secp256k1]

/-- `SerializeInput`, where an index out of range stands for nothing. -/
def serializeInput (txTo : Transaction) (scriptCode : Bytes) (nIn : Nat) (hashType : UInt32)
    (nInput : Nat) : Bytes :=
  let nInput := if anyoneCanPay hashType then nIn else nInput
  match txTo.input.toList[nInput]? with
  | none => []
  | some txin =>
    txin.previousOutput.wire ++
    ((if nInput ≠ nIn then VarInt.wire 0 else serializeScriptCode scriptCode) ++
    littleEndian 4 (if nInput ≠ nIn ∧ (hashSingle hashType ∨ hashNone hashType) then 0
      else txin.sequence.toNat))

/-- `SerializeOutput`; the blank output has the value `-1` and no script. -/
def serializeOutput (txTo : Transaction) (nIn : Nat) (hashType : UInt32) (nOutput : Nat) : Bytes :=
  if hashSingle hashType ∧ nOutput ≠ nIn then List.replicate 8 0xff ++ VarInt.wire 0
  else match txTo.output.toList[nOutput]? with
    | none => []
    | some txout => txout.wire

def inputCount (txTo : Transaction) (hashType : UInt32) : Nat :=
  if anyoneCanPay hashType then 1 else txTo.input.toList.length

def outputCount (txTo : Transaction) (nIn : Nat) (hashType : UInt32) : Nat :=
  if hashNone hashType then 0 else if hashSingle hashType then nIn + 1
  else txTo.output.toList.length

/-- What `SignatureHash` hashes, the type included; `none` where it returns the constant
one instead. -/
def signatureHashData (txTo : Transaction) (scriptCode : Bytes) (nIn : Nat) (hashType : UInt32) :
    Option Bytes :=
  if hashSingle hashType ∧ txTo.output.toList.length ≤ nIn then none
  else some (littleEndian 4 txTo.version.toUInt32.toNat ++
    (VarInt.wire (UInt64.ofNat (inputCount txTo hashType)) ++
    ((List.range (inputCount txTo hashType)).flatMap (serializeInput txTo scriptCode nIn hashType) ++
    (VarInt.wire (UInt64.ofNat (outputCount txTo nIn hashType)) ++
    ((List.range (outputCount txTo nIn hashType)).flatMap (serializeOutput txTo nIn hashType) ++
    (littleEndian 4 txTo.lockTime.toConsensusU32.toNat ++ littleEndian 4 hashType.toNat))))))

omit [Secp256k1]

theorem dropCodeSeparators_eq {fuel : Nat} {script : Bytes}
    (absent : hasCodeSeparator fuel script = false) : dropCodeSeparators fuel script = script := by
  induction fuel generalizing script with
  | zero => rfl
  | succ fuel ih =>
    simp only [hasCodeSeparator, dropCodeSeparators] at absent ⊢
    cases found : opLength script with
    | none => rfl
    | some length =>
      simp only [found, decide_eq_false_iff_not, not_or, Bool.not_eq_true] at absent
      simp only [if_neg absent.1, ih absent.2, List.take_append_drop]

end Reference

/-- A mask of one byte sees the low byte of a type only. -/
theorem and_low (hashType : UInt32) (mask : UInt8) :
    hashType &&& mask.toUInt32 = hashType.toUInt8.toUInt32 &&& mask.toUInt32 := by
  apply UInt32.toNat_inj.mp
  simp only [UInt32.toNat_and, UInt8.toNat_toUInt32, UInt32.toNat_toUInt8]
  apply Nat.eq_of_testBit_eq
  intro i
  simp only [Nat.testBit_and, Nat.testBit_mod_two_pow]
  by_cases low : i < 8
  · simp only [low, decide_true, Bool.true_and]
  · have small : mask.toNat < 2 ^ i :=
      mask.toNat_lt.trans_le (Nat.pow_le_pow_right (by decide) (Nat.le_of_not_lt low))
    simp only [Nat.testBit_lt_two_pow small, Bool.and_false]

namespace EcdsaSighashType

/-- The base type with its two special values. -/
def baseType (hashType : UInt32) : EcdsaSighashType :=
  if Reference.hashNone hashType then none
  else if Reference.hashSingle hashType then single else all

theorem split_fromConsensus_byte (byte : UInt8) :
    (fromConsensus byte.toUInt32).splitAnyonecanpayFlag =
      (baseType byte.toUInt32, Reference.anyoneCanPay byte.toUInt32) := by
  obtain ⟨bits⟩ := byte
  revert bits
  decide

/-- The six values stand for the base type and the flag of every 32-bit type. -/
theorem split_fromConsensus (hashType : UInt32) :
    (fromConsensus hashType).splitAnyonecanpayFlag =
      (baseType hashType, Reference.anyoneCanPay hashType) := by
  have base : hashType &&& 0x1f = hashType.toUInt8.toUInt32 &&& 0x1f := and_low hashType 0x1f
  have flag : hashType &&& 0x80 = hashType.toUInt8.toUInt32 &&& 0x80 := and_low hashType 0x80
  have both : hashType &&& (0x1f ||| 0x80) = hashType.toUInt8.toUInt32 &&& (0x1f ||| 0x80) :=
    and_low hashType 0x9f
  have folded : fromConsensus hashType = fromConsensus hashType.toUInt8.toUInt32 := by
    simp only [fromConsensus, both]
  have isNone : Reference.hashNone hashType = Reference.hashNone hashType.toUInt8.toUInt32 := by
    simp only [Reference.hashNone, base]
  have isSingle : Reference.hashSingle hashType = Reference.hashSingle hashType.toUInt8.toUInt32 := by
    simp only [Reference.hashSingle, base]
  have isFlagged : Reference.anyoneCanPay hashType =
      Reference.anyoneCanPay hashType.toUInt8.toUInt32 := by
    simp only [Reference.anyoneCanPay, flag]
  rw [folded, baseType, isNone, isSingle, isFlagged]
  exact split_fromConsensus_byte hashType.toUInt8

theorem isSingle_eq (sighash : EcdsaSighashType) :
    sighash.isSingle = decide (sighash.splitAnyonecanpayFlag.1 = single) := by
  cases sighash <;> rfl

/-- The two special values exclude each other. -/
theorem hashNone_of_hashSingle {hashType : UInt32} (single : Reference.hashSingle hashType) :
    Reference.hashNone hashType = false := by
  simp only [Reference.hashSingle, Reference.hashNone, decide_eq_true_eq] at single ⊢
  rw [single]
  rfl

theorem isSingle_fromConsensus (hashType : UInt32) :
    (fromConsensus hashType).isSingle = Reference.hashSingle hashType := by
  rw [isSingle_eq, split_fromConsensus, baseType]
  cases isSingle : Reference.hashSingle hashType with
  | true => simp [hashNone_of_hashSingle isSingle]
  | false => cases Reference.hashNone hashType <;> simp

theorem blanks_iff (hashType : UInt32) :
    (baseType hashType = .single ∨ baseType hashType = .none) ↔
      Reference.hashSingle hashType ∨ Reference.hashNone hashType := by
  rw [baseType]
  cases Reference.hashNone hashType <;> cases Reference.hashSingle hashType <;> simp

end EcdsaSighashType

/-- A loop over indices with lookups, as the loop over the elements. -/
theorem flatMap_mapIdx (values : List α) (f : Nat → α → β) (g : β → Bytes) :
    (values.mapIdx f).flatMap g = (List.range values.length).flatMap fun index =>
      match values[index]? with
      | none => []
      | some a => g (f index a) := by
  induction values using List.reverseRecOn with
  | nil => rfl
  | append_singleton values a ih =>
    rw [List.mapIdx_concat, List.flatMap_append, ih, List.length_append, List.length_singleton,
      List.range_succ, List.flatMap_append]
    congr 1
    · apply List.flatMap_congr
      intro index member
      rw [List.getElem?_append_left (List.mem_range.mp member)]
    · simp

section
open EcdsaSighashType (baseType split_fromConsensus blanks_iff isSingle_fromConsensus)
variable [Secp256k1] {tx : Transaction} {inputIndex : Nat} {txin : TxIn}

theorem legacyTransaction_plain (found : txIn tx inputIndex = .ok txin) (scriptPubkey : ByteVec)
    (sighashType : UInt32) : (legacyTransaction tx inputIndex txin scriptPubkey sighashType).Plain where
  inputs := by
    rw [txIn_eq_ok] at found
    have some : tx.input.toList ≠ [] := by
      rintro empty
      rw [empty] at found
      contradiction
    simp only [legacyTransaction, legacyInput]
    split
    · rfl
    · simpa [Vec.isEmpty, Vec.mapIdx] using some
  witnesses := by
    simp only [legacyTransaction, legacyInput]
    split
    · simp [Vec.singleton]
    · intro input member
      simp only [Vec.mapIdx, List.mem_mapIdx] at member
      obtain ⟨n, _, rfl⟩ := member
      rfl
  mwTx := rfl
  isHogEx := rfl

omit [Secp256k1] in
/-- A script without code separators is written as it is. -/
theorem serializeScriptCode_eq {script : ByteVec}
    (absent : Reference.hasCodeSeparator script.toList.length script.toList = false) :
    Reference.serializeScriptCode script.toList = bytesWire script := by
  rw [Reference.serializeScriptCode, Reference.dropCodeSeparators_eq absent]
  rfl

theorem legacyInput_wire (found : txIn tx inputIndex = .ok txin) {script : ByteVec}
    (absent : Reference.hasCodeSeparator script.toList.length script.toList = false)
    (hashType : UInt32) :
    vecWire TxIn.wire (legacyInput tx inputIndex txin script
        (baseType hashType) (Reference.anyoneCanPay hashType)) =
      VarInt.wire (UInt64.ofNat (Reference.inputCount tx hashType)) ++
      (List.range (Reference.inputCount tx hashType)).flatMap
        (Reference.serializeInput tx script.toList inputIndex hashType) := by
  have code := serializeScriptCode_eq absent
  cases flag : Reference.anyoneCanPay hashType with
  | true =>
    have here := txIn_eq_ok.mp found
    simp [legacyInput, Reference.inputCount, Reference.serializeInput, flag, here, code, vecWire,
      Vec.len, Vec.singleton, TxIn.wire]
  | false =>
    rw [legacyInput, vecWire, Vec.len]
    simp only [Vec.mapIdx, Reference.inputCount, flag, Bool.false_eq_true, if_false,
      List.length_mapIdx, flatMap_mapIdx]
    congr 2
    funext n
    simp only [Reference.serializeInput, flag, Bool.false_eq_true, if_false]
    cases tx.input.toList[n]? with
    | none => rfl
    | some input =>
      by_cases this : n = inputIndex
      · simp [this, TxIn.wire, code]
      · simp only [TxIn.wire, this, if_false, ne_eq, not_false_iff, true_and, if_true, blanks_iff]
        split <;> rfl

theorem legacyOutput_wire {hashType : UInt32}
    (matched : Reference.hashSingle hashType → inputIndex < tx.output.toList.length) :
    vecWire TxOut.wire (legacyOutput tx inputIndex (baseType hashType)) =
      VarInt.wire (UInt64.ofNat (Reference.outputCount tx inputIndex hashType)) ++
      (List.range (Reference.outputCount tx inputIndex hashType)).flatMap
        (Reference.serializeOutput tx inputIndex hashType) := by
  cases isNone : Reference.hashNone hashType with
  | true => simp [baseType, isNone, legacyOutput, Reference.outputCount, vecWire, Vec.len, Vec.empty]
  | false =>
    cases isSingle : Reference.hashSingle hashType with
    | false =>
      have each := flatMap_mapIdx tx.output.toList (fun _ out => out) TxOut.wire
      have self : tx.output.toList.mapIdx (fun _ out => out) = tx.output.toList := by
        rw [List.mapIdx_eq_zipIdx_map]
        exact List.zipIdx_map_fst 0 _
      rw [self] at each
      simp only [baseType, isNone, isSingle, Bool.false_eq_true, if_false, legacyOutput, vecWire,
        Reference.outputCount, Vec.len, each]
      congr 2
      funext n
      simp only [Reference.serializeOutput, isSingle, Bool.false_eq_true, false_and, if_false]
      cases tx.output.toList[n]? <;> rfl
    | true =>
      have length : (tx.output.toList.take (inputIndex + 1)).length = inputIndex + 1 :=
        List.length_take_of_le (matched isSingle)
      simp only [baseType, isNone, isSingle, Bool.false_eq_true, if_false, if_true, legacyOutput,
        vecWire, Reference.outputCount, Vec.len, Vec.mapIdx, Vec.take, List.length_mapIdx, length,
        flatMap_mapIdx]
      congr 1
      apply List.flatMap_congr
      intro n member
      rw [List.getElem?_take_of_lt (List.mem_range.mp member), Reference.serializeOutput, isSingle]
      have inside : n < tx.output.toList.length :=
        (Nat.lt_succ_iff.mp (List.mem_range.mp member)).trans_lt (matched isSingle)
      rw [List.getElem?_eq_getElem inside]
      by_cases this : n = inputIndex
      · simp [this]
      · simp only [this, if_false, true_and, ne_eq, not_false_iff, if_true]
        decide

theorem legacyTransaction_wire (found : txIn tx inputIndex = .ok txin) {script : ByteVec}
    (absent : Reference.hasCodeSeparator script.toList.length script.toList = false)
    {hashType : UInt32}
    (matched : Reference.hashSingle hashType → inputIndex < tx.output.toList.length) :
    some ((legacyTransaction tx inputIndex txin script hashType).wire ++ littleEndian 4 hashType.toNat) =
      Reference.signatureHashData tx script.toList inputIndex hashType := by
  have regular : ¬ (Reference.hashSingle hashType ∧ tx.output.toList.length ≤ inputIndex) := by
    rintro ⟨single, beyond⟩
    exact absurd (matched single) (Nat.not_lt.mpr beyond)
  rw [(legacyTransaction_plain found script hashType).wire_eq, Reference.signatureHashData,
    if_neg regular, Transaction.plainWire]
  simp only [legacyTransaction, split_fromConsensus, legacyInput_wire found absent,
    legacyOutput_wire matched, LockTime.wire, List.append_assoc]

/-- The encoder writes what the reference hashes, and nothing when the reference hashes
nothing. -/
theorem legacyEncodeSigningDataTo_eq (cache : SighashCache) (written : Bytes)
    (found : txIn cache.tx inputIndex = .ok txin) {script : ByteVec}
    (absent : Reference.hasCodeSeparator script.toList.length script.toList = false)
    (hashType : UInt32) :
    cache.legacyEncodeSigningDataTo written inputIndex script hashType =
      match Reference.signatureHashData cache.tx script.toList inputIndex hashType with
      | none => (.sighashSingleBug, written)
      | some data => (.writeResult (.ok ()), written ++ data) := by
  have bug : isInvalidUseOfSighashSingle hashType inputIndex cache.tx.output.toList.length = true ↔
      Reference.hashSingle hashType ∧ cache.tx.output.toList.length ≤ inputIndex := by
    simp only [isInvalidUseOfSighashSingle, isSingle_fromConsensus, Bool.and_eq_true,
      decide_eq_true_eq]
  simp only [SighashCache.legacyEncodeSigningDataTo, found, bug]
  by_cases invalid : Reference.hashSingle hashType ∧ cache.tx.output.toList.length ≤ inputIndex
  · rw [if_pos invalid, Reference.signatureHashData, if_pos invalid]
  · have matched : Reference.hashSingle hashType → inputIndex < cache.tx.output.toList.length :=
      fun single => Nat.lt_of_not_le fun beyond => invalid ⟨single, beyond⟩
    have complete := (legacyTransaction_plain found script hashType).complete
    rw [if_neg invalid, ← legacyTransaction_wire found absent matched]
    simp only [Transaction.consensusEncode_eq complete, readU32_codec.emits, SighashCache.write_bind,
      SighashCache.write_written, List.append_assoc]

variable [Hashes]

/-- What is hashed is what the reference hashes, for every 32-bit type, and the constant
one is returned where the reference returns it. The last part needs that the preimage is
not one that hashes to this constant. -/
theorem legacy_sighash_eq_reference (cache : SighashCache) (inputIndex : Nat) (script : ByteVec)
    (hashType : UInt32) (valid : inputIndex < cache.tx.input.toList.length)
    (absent : Reference.hasCodeSeparator script.toList.length script.toList = false) :
    (cache.legacyEncodeSigningDataTo ([] : Bytes) inputIndex script hashType =
      match Reference.signatureHashData cache.tx script.toList inputIndex hashType with
      | none => (.sighashSingleBug, [])
      | some data => (.writeResult (.ok ()), data)) ∧
    (Reference.signatureHashData cache.tx script.toList inputIndex hashType = none ↔
      hashType &&& 0x1f = 3 ∧ cache.tx.output.toList.length ≤ inputIndex) ∧
    (cache.legacySignatureHash inputIndex script hashType =
      match Reference.signatureHashData cache.tx script.toList inputIndex hashType with
      | none => some (.ok SighashCache.uint256One)
      | some data => some (.ok (Hashes.sha256d data))) ∧
    ((∀ data, Reference.signatureHashData cache.tx script.toList inputIndex hashType = some data →
        Hashes.sha256d data ≠ SighashCache.uint256One) →
      (cache.legacySignatureHash inputIndex script hashType = some (.ok SighashCache.uint256One) ↔
        hashType &&& 0x1f = 3 ∧ cache.tx.output.toList.length ≤ inputIndex)) := by
  have found := txIn_eq_ok.mpr (List.getElem?_eq_getElem valid)
  have bytes := legacyEncodeSigningDataTo_eq cache [] found absent hashType
  have missing : Reference.signatureHashData cache.tx script.toList inputIndex hashType = none ↔
      hashType &&& 0x1f = 3 ∧ cache.tx.output.toList.length ≤ inputIndex := by
    simp [Reference.signatureHashData, Reference.hashSingle]
  have hashed : cache.legacySignatureHash inputIndex script hashType =
      match Reference.signatureHashData cache.tx script.toList inputIndex hashType with
      | none => some (.ok SighashCache.uint256One)
      | some data => some (.ok (Hashes.sha256d data)) := by
    rw [SighashCache.legacySignatureHash, bytes]
    cases Reference.signatureHashData cache.tx script.toList inputIndex hashType <;> rfl
  refine ⟨?_, missing, hashed, ?_⟩
  · rw [bytes]
    cases Reference.signatureHashData cache.tx script.toList inputIndex hashType <;> rfl
  · intro different
    rw [hashed, ← missing]
    cases found : Reference.signatureHashData cache.tx script.toList inputIndex hashType with
    | none => simp
    | some data => simpa using different data found

end

section
attribute [local instance] Secp256k1.generatorOnly Hashes.ofEmpty

theorem moreInputsThanOutputs_single :
    (SighashCache.new moreInputsThanOutputs).legacySignatureHash 1 .empty 3 =
      some (.ok SighashCache.uint256One) ∧
    (SighashCache.new moreInputsThanOutputs).legacySignatureHash 1 .empty 131 =
      some (.ok SighashCache.uint256One) ∧
    (SighashCache.new moreInputsThanOutputs).legacySignatureHash 0 .empty 3 ≠
      some (.ok SighashCache.uint256One) := by
  have plain : Reference.hasCodeSeparator (Vec.empty : ByteVec).toList.length
    (Vec.empty : ByteVec).toList = false := rfl
  have different (data : Bytes) : Hashes.sha256d data ≠ SighashCache.uint256One := by
    intro same
    have heads : (0x5d : UInt8) = 1 := congrArg (fun hash : ByteArr 32 => hash.val.headD 0) same
    exact absurd heads (by decide)
  have one (inputIndex hashType) (valid : inputIndex < 2) :=
    (legacy_sighash_eq_reference (SighashCache.new moreInputsThanOutputs) inputIndex .empty hashType
      valid plain).2.2.2 fun data _ => different data
  refine ⟨(one 1 3 (by decide)).mpr (by decide), (one 1 131 (by decide)).mpr (by decide), ?_⟩
  rw [Ne, one 0 3 (by decide)]
  decide

end
end Litecoin.Sighash
