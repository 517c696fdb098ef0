import Litecoin.Mimblewimble.Coherence
import Litecoin.Psbt.Extract

/-! Which extracted transactions can be broadcast: those that are written and read back, and that
hold what the MWEB maps hold. What this needs of the maps is what the extraction does not check. -/
namespace Litecoin.Psbt
open Wire Consensus Blockdata
open Mimblewimble (hasBit)

namespace Extraction

theorem allocate_eq_ok {values : List α} {vec : Vec α} :
    (allocate values).run = some (.ok vec) ↔ vec.toList = values := by
  rw [allocate]
  split
  · rw [run_pure_eq_ok, Vec.ext_iff, eq_comm]
  · rename_i unfit
    constructor
    · intro returned
      contradiction
    · rintro rfl
      exact absurd vec.fits unfit

theorem okOr_eq_ok {value : Option α} {error : Error} {a : α} :
    (okOr value error).run = some (.ok a) ↔ value = some a := by
  cases value with
  | none => exact ⟨fun failed => absurd (Option.some.inj failed) nofun, nofun⟩
  | some a => exact run_pure_eq_ok.trans (Option.some.injEq _ _).symm.to_iff

theorem optional_eq_ok {convert : α → Extraction β} {value : Option α} {result : Option β}
    (converted : (optional convert value).run = some (.ok result)) :
    Option.Rel (fun a b => (convert a).run = some (.ok b)) value result := by
  cases value with
  | none =>
    obtain rfl := run_pure_eq_ok.mp converted
    exact .none
  | some a =>
    rw [optional, map_eq_pure_bind] at converted
    obtain ⟨b, returned, wrapped⟩ := run_bind_eq_ok.mp converted
    obtain rfl := run_pure_eq_ok.mp wrapped
    exact .some returned

theorem isSome_of_rel {R : α → β → Prop} {value : Option α} {result : Option β}
    (related : Option.Rel R value result) : result.isSome = value.isSome := by
  cases related <;> rfl

end Extraction

open Extraction

/-- An empty vector, where the list is what matters. -/
theorem toList_eq_nil {vec : Vec α} : vec = .empty ↔ vec.toList = [] := Vec.ext_iff

theorem toInt64_nonneg_iff (amount : UInt64) : 0 ≤ amount.toInt64 ↔ amount.toNat < 2 ^ 63 := by
  have signed : amount.toInt64.toInt = amount.toBitVec.toInt := rfl
  rw [Int64.le_iff_toInt_le, Int64.toInt_zero, signed, BitVec.toInt_eq_toNat_cond, UInt64.toNat_toBitVec]
  have range := amount.toNat_lt
  split <;> omega

/-- A peg-out value with an amount that is not negative and a script that is not empty. -/
def PegoutWritable (raw : Bytes) : Prop := fromLittleEndian (raw.take 8) < 2 ^ 63 ∧ raw.drop 8 ≠ [0]

theorem script_isEmpty_iff {bytes : Bytes} {script : ByteVec}
    (read : Consensus.deserialize decodeBytes bytes = .ok script) :
    script.isEmpty = false ↔ bytes ≠ [0] := by
  have none : Consensus.deserialize decodeBytes [0] = .ok .empty := by rfl
  rw [ne_eq, ← Bool.not_eq_true, Vec.isEmpty_eq_true, not_iff_not]
  constructor
  · rintro rfl
    obtain ⟨_, image⟩ := (decodeBytes_reads _ _ _).mp (deserialize_eq_ok.mp read)
    rw [image, List.append_nil]
    rfl
  · rintro rfl
    exact Except.ok.inj (read.symm.trans none)

theorem pegoutCoin_eq_ok {raw : Bytes} {coin : Mimblewimble.PegOutCoin}
    (converted : (pegoutCoinFromPsbtValue raw).run = some (.ok coin)) :
    fromLittleEndian (raw.take 8) < 2 ^ 64 ∧
      Consensus.deserialize decodeBytes (raw.drop 8) = .ok coin.scriptPubKey ∧
      coin.amount = amountFromLeBytes (raw.take 8) := by
  rw [pegoutCoinFromPsbtValue] at converted
  split at converted
  · exact absurd (Option.some.inj converted) nofun
  · rename_i long
    obtain ⟨script, read, returned⟩ := run_bind_eq_ok.mp converted
    obtain rfl := run_pure_eq_ok.mp returned
    refine ⟨?_, mapError_eq_ok.mp (Option.some.inj read), rfl⟩
    have bound := fromLittleEndian_lt (raw.take 8)
    rwa [List.length_take, Nat.min_eq_left (by omega)] at bound

theorem pegoutCoin_valid_iff {raw : Bytes} {coin : Mimblewimble.PegOutCoin}
    (converted : (pegoutCoinFromPsbtValue raw).run = some (.ok coin)) :
    coin.Valid ↔ PegoutWritable raw := by
  obtain ⟨range, parsed, amount⟩ := pegoutCoin_eq_ok converted
  rw [Mimblewimble.PegOutCoin.Valid, PegoutWritable, script_isEmpty_iff parsed, amount,
    amountFromLeBytes, toInt64_nonneg_iff, UInt64.toNat_ofNat_of_lt' range]

/-- A cast amount is negative where it is too large. -/
theorem castAmounts_iff (on : Bool) (value : Option UInt64) :
    ((value.map UInt64.toInt64).isSome = on ∧ ∀ amount ∈ value.map UInt64.toInt64, 0 ≤ amount) ↔
      value.isSome = on ∧ ∀ amount, value = some amount → amount.toNat < 2 ^ 63 := by
  cases value with
  | none => simp
  | some amount => simp [toInt64_nonneg_iff]

theorem pegouts_valid_iff {raws : List Bytes} {coins : List Mimblewimble.PegOutCoin}
    {pegouts : Vec Mimblewimble.PegOutCoin}
    (converted : (raws.mapM pegoutCoinFromPsbtValue).run = some (.ok coins))
    (allocated : pegouts.toList = coins) (on : Bool) :
    (if on then ∀ coin ∈ pegouts.toList, coin.Valid else pegouts = .empty) ↔
      if on then ∀ raw ∈ raws, PegoutWritable raw else raws = [] := by
  subst allocated
  have related := run_mapM_forall₂ converted
  cases on with
  | false =>
    have length := related.length_eq
    simp only [Bool.false_eq_true, if_false, toList_eq_nil, ← List.length_eq_zero_iff, length]
  | true =>
    simp only [if_true]
    exact (forall_iff_of_forall₂ related fun raw coin returned => (pegoutCoin_valid_iff returned).symm).symm

section
variable [Secp256k1]

/-- A key is there where bytes are, and is the key they spell. -/
def KeySpelled : Option Bytes → Option Secp256k1.PublicKey → Prop :=
  Option.Rel fun bytes key => Secp256k1.publicKeyFromSlice bytes = some key

theorem keySpelled_of_optional {bytes : Option Bytes} {key : Option Secp256k1.PublicKey}
    (converted : (optional publicKey bytes).run = some (.ok key)) : KeySpelled bytes key := by
  cases optional_eq_ok converted with
  | none => exact .none
  | some parsed => exact .some (okOr_eq_ok.mp parsed)

/-- The optional fields of the record are those of the map. -/
structure MwebInput.Carried (map : MwebInput) (input : Mimblewimble.Input) : Prop where
  inputPubkey : KeySpelled (map .inputPubkey) input.inputPublicKey
  extraData : input.extraData.toList = map.wireExtraData

/-- The feature byte of an input map announces what the map holds. -/
structure MwebInput.Announced (input : MwebInput) : Prop where
  inputPubkey : (input .inputPubkey).isSome = hasBit input.wireFeatures 1
  extraData : input.wireExtraData ≠ [] → hasBit input.wireFeatures 2

omit [Secp256k1] in
theorem extraData_iff {extraData : ByteVec} {values : Bytes} (allocated : extraData.toList = values)
    (on : Bool) : (if on then True else extraData = .empty) ↔ (values ≠ [] → on) := by
  subst allocated
  cases on with
  | false => simpa using toList_eq_nil
  | true => simp

/-- An input record always holds what its map holds. -/
theorem wireInput_iff [Secp256k1.Lawful] {map : MwebInput} {input : Mimblewimble.Input}
    (converted : (wireInputFromMap map).run = some (.ok input)) :
    (input.Valid ∧ map.Carried input) ↔ map.Announced := by
  simp only [wireInputFromMap, run_bind_eq_ok, allocate_eq_ok, run_pure_eq_ok] at converted
  obtain ⟨outputId, _, commitment, _, pubkey, _, outputPublicKey, _, inputPublicKey, optional, _, _,
    signature, _, extraData, allocated, rfl⟩ := converted
  have spelled := keySpelled_of_optional optional
  constructor
  · rintro ⟨⟨_, ⟨announced, _⟩, extra⟩, _⟩
    exact ⟨(isSome_of_rel spelled).symm.trans announced, (extraData_iff allocated _).mp extra⟩
  · rintro ⟨announced, extra⟩
    exact ⟨⟨Mimblewimble.keyValid _,
      ⟨(isSome_of_rel spelled).trans announced, fun key _ => Mimblewimble.keyValid key⟩,
      (extraData_iff allocated _).mpr extra⟩, spelled, allocated⟩

end
section
variable [Secp256k1]
open Mimblewimble.OutputFeatures
open Mimblewimble.OutputMessage (standardFieldsWire)

/-- The standard fields are written as the map holds them, and the extra data is that of the
map. -/
structure MwebOutput.Carried (map : MwebOutput) (output : Mimblewimble.Output) : Prop where
  standardFields : Option.map standardFieldsWire output.message.standardFields = map .standardFields
  extraData : output.message.extraData.toList = map.wireExtraData

/-- The feature byte of an output map announces what the map holds, and standard fields are
neither cut short nor too long. -/
structure MwebOutput.Announced (output : MwebOutput) : Prop where
  standardFields : (output .standardFields).isSome =
    hasBit output.wireFeatures standardFieldsFeatureBit
  exact : ∀ blob : Bytes, output .standardFields = some blob → blob.length = standardFieldsLength
  extraData : output.wireExtraData ≠ [] → hasBit output.wireFeatures extraDataFeatureBit

/-- A record is written as the first bytes of the blob it is read from. -/
theorem standardFieldsWire_fromBlob [Secp256k1.Canonical] {blob : Bytes}
    {fields : Mimblewimble.OutputMessageStandardFields}
    (converted : (standardFieldsFromBlob (some blob)).run = some (.ok (some fields))) :
    standardFieldsWire fields = blob.take standardFieldsLength := by
  rw [standardFieldsFromBlob] at converted
  split at converted
  · rename_i enough
    obtain ⟨key, parsed, returned⟩ := run_bind_eq_ok.mp converted
    obtain rfl := Option.some.inj (run_pure_eq_ok.mp returned)
    rw [standardFieldsLength] at enough ⊢
    have spelled : (blob.take 33).length = 33 := by
      rw [List.length_take]
      omega
    have keyBytes : Mimblewimble.keyWire key = blob.take 33 :=
      congrArg Subtype.val
        (Secp256k1.Canonical.serialize_fromSlice ⟨_, spelled⟩ key (okOr_eq_ok.mp parsed))
    have eight : ((blob.drop 34).take 8).length = 8 := by
      rw [List.length_take, List.length_drop]
      omega
    have value : littleEndian 8 (fromLittleEndian ((blob.drop 34).take 8)) =
        (blob.drop 34).take 8 := by
      simpa only [eight] using littleEndian_fromLittleEndian ((blob.drop 34).take 8)
    have range : fromLittleEndian ((blob.drop 34).take 8) < 2 ^ 64 := by
      have bound := fromLittleEndian_lt ((blob.drop 34).take 8)
      rwa [eight] at bound
    have tag : (blob.drop 33).take 1 = [blob.get ⟨33, by omega⟩] := by
      rw [List.drop_eq_getElem_cons (by omega)]
      rfl
    rw [standardFieldsWire, keyBytes, UInt64.toNat_ofNat_of_lt' range, value, ← tag, List.take_add,
      List.take_add, List.take_add, List.append_assoc, List.append_assoc]
  · exact absurd (run_pure_eq_ok.mp converted) nofun

/-- Standard fields are written as the map holds them where they have exactly their length. -/
theorem standardFields_carried_iff [Secp256k1.Canonical] {blob : Option Bytes}
    {fields : Option Mimblewimble.OutputMessageStandardFields}
    (converted : (standardFieldsFromBlob blob).run = some (.ok fields)) :
    fields.map standardFieldsWire = blob ↔
      ∀ held, blob = some held → held.length = standardFieldsLength := by
  cases blob with
  | none =>
    obtain rfl := run_pure_eq_ok.mp converted
    exact iff_of_true rfl nofun
  | some held =>
    simp only [Option.some.injEq, forall_eq']
    cases fields with
    | none =>
      refine iff_of_false nofun fun exact => ?_
      rw [standardFieldsFromBlob, dif_pos exact.ge] at converted
      obtain ⟨key, _, returned⟩ := run_bind_eq_ok.mp converted
      exact absurd (run_pure_eq_ok.mp returned) nofun
    | some fields =>
      have enough : standardFieldsLength ≤ held.length := by
        by_contra short
        rw [standardFieldsFromBlob, dif_neg short] at converted
        exact absurd (run_pure_eq_ok.mp converted) nofun
      rw [Option.map_some, Option.some.injEq, standardFieldsWire_fromBlob converted]
      constructor
      · intro same
        rw [← same, List.length_take, Nat.min_eq_left enough]
      · intro exact
        exact List.take_of_length_le exact.le

theorem wireOutput_iff [Secp256k1.Lawful] {map : MwebOutput} {output : Mimblewimble.Output}
    (converted : (wireOutputFromMap map).run = some (.ok output)) :
    (output.Valid ∧ map.Carried output) ↔ map.Announced := by
  simp only [wireOutputFromMap, run_bind_eq_ok, allocate_eq_ok, run_pure_eq_ok] at converted
  obtain ⟨commitment, _, _, _, senderPublicKey, _, _, _, receiverPublicKey, _, standardFields, blob, _,
    _, rangeProof, _, _, _, signature, _, extraData, allocated, rfl⟩ := converted
  have carried := standardFields_carried_iff blob
  have present (written : standardFields.map standardFieldsWire = map .standardFields) :
      standardFields.isSome = (map .standardFields).isSome :=
    Option.isSome_map.symm.trans (congrArg Option.isSome written)
  constructor
  · rintro ⟨⟨_, _, ⟨announced, _⟩, extra⟩, written, _⟩
    exact ⟨(present written).symm.trans announced, carried.mp written,
      (extraData_iff allocated _).mp extra⟩
  · rintro ⟨announced, exact, extra⟩
    have written := carried.mpr exact
    exact ⟨⟨Mimblewimble.keyValid _, Mimblewimble.keyValid _,
      ⟨(present written).trans announced, fun fields _ => Mimblewimble.keyValid _⟩,
      (extraData_iff allocated _).mpr extra⟩, written, allocated⟩

end
section
variable [Secp256k1]
open Mimblewimble.KernelFeatures

/-- A record's amount is the number the map holds. -/
def AmountHeld : Option UInt64 → Option Int64 → Prop :=
  Option.Rel fun amount held => held.toInt = amount.toNat

/-- A record's peg-out has the number and the script that the value holds. -/
structure PegoutCarried (raw : Bytes) (coin : Mimblewimble.PegOutCoin) : Prop where
  amount : coin.amount.toInt = fromLittleEndian (raw.take 8)
  scriptPubKey : Consensus.deserialize decodeBytes (raw.drop 8) = .ok coin.scriptPubKey

/-- The optional fields and the peg-outs of the record are those of the map. -/
structure MwebKernel.Carried (map : MwebKernel) (kernel : Mimblewimble.Kernel) : Prop where
  fee : AmountHeld (map.fields .fee) kernel.fee
  pegin : AmountHeld (map.fields .peginAmount) kernel.pegin
  pegouts : List.Forall₂ PegoutCarried map.pegouts kernel.pegouts.toList
  lockHeight : kernel.lockHeight = map.fields .lockHeight
  stealthCommit : KeySpelled (map.fields .stealthCommit) kernel.stealthExcess
  extraData : kernel.extraData.toList = map.wireExtraData

/-- The feature byte of a kernel map announces what the map holds, and every amount is
one of `i64`. -/
structure MwebKernel.Announced (kernel : MwebKernel) : Prop where
  fee : (kernel.fields .fee).isSome = hasBit kernel.wireFeatures feeFeatureBit ∧
    ∀ amount : UInt64, kernel.fields .fee = some amount → amount.toNat < 2 ^ 63
  pegin : (kernel.fields .peginAmount).isSome = hasBit kernel.wireFeatures peginFeatureBit ∧
    ∀ amount : UInt64, kernel.fields .peginAmount = some amount → amount.toNat < 2 ^ 63
  pegouts : if hasBit kernel.wireFeatures pegoutFeatureBit then
    ∀ raw ∈ kernel.pegouts, PegoutWritable raw else kernel.pegouts = []
  lockHeight : (kernel.fields .lockHeight).isSome = hasBit kernel.wireFeatures heightLockFeatureBit
  stealthCommit : (kernel.fields .stealthCommit).isSome =
    hasBit kernel.wireFeatures stealthExcessFeatureBit
  extraData : kernel.wireExtraData ≠ [] → hasBit kernel.wireFeatures extraDataFeatureBit

omit [Secp256k1] in
/-- An amount that is not negative after the cast is the amount before it. -/
theorem toInt_of_nonneg {amount : UInt64} (nonneg : 0 ≤ amount.toInt64) :
    amount.toInt64.toInt = amount.toNat := by
  have small := (toInt64_nonneg_iff amount).mp nonneg
  have signed : amount.toInt64.toInt = amount.toBitVec.toInt := rfl
  rw [signed, BitVec.toInt_eq_toNat_cond, UInt64.toNat_toBitVec, if_pos (by omega)]

omit [Secp256k1] in
theorem amountHeld_of_nonneg {value : Option UInt64}
    (nonneg : ∀ amount ∈ value.map UInt64.toInt64, 0 ≤ amount) :
    AmountHeld value (value.map UInt64.toInt64) := by
  cases value with
  | none => exact .none
  | some amount => exact .some (toInt_of_nonneg (nonneg _ rfl))

omit [Secp256k1] in
theorem pegoutCoin_carried {raw : Bytes} {coin : Mimblewimble.PegOutCoin}
    (converted : (pegoutCoinFromPsbtValue raw).run = some (.ok coin)) (nonneg : 0 ≤ coin.amount) :
    PegoutCarried raw coin := by
  obtain ⟨range, read, amount⟩ := pegoutCoin_eq_ok converted
  refine ⟨?_, read⟩
  rw [amount, amountFromLeBytes] at nonneg ⊢
  rw [toInt_of_nonneg nonneg, UInt64.toNat_ofNat_of_lt' range]

omit [Secp256k1] in
theorem pegouts_carried {raws : List Bytes} {coins : List Mimblewimble.PegOutCoin}
    (related : List.Forall₂ (fun raw coin => (pegoutCoinFromPsbtValue raw).run = some (.ok coin))
      raws coins) (nonneg : ∀ coin ∈ coins, 0 ≤ coin.amount) :
    List.Forall₂ PegoutCarried raws coins := by
  induction related with
  | nil => exact .nil
  | cons head _ ih =>
    rw [List.forall_mem_cons] at nonneg
    exact .cons (pegoutCoin_carried head nonneg.1) (ih nonneg.2)

/-- What a kernel that can be read holds is what the map holds. -/
theorem wireKernel_carried {map : MwebKernel} {kernel : Mimblewimble.Kernel}
    (converted : (wireKernelFromMap map).run = some (.ok kernel)) (valid : kernel.Valid) :
    map.Carried kernel := by
  simp only [wireKernelFromMap, run_bind_eq_ok, allocate_eq_ok, run_pure_eq_ok] at converted
  obtain ⟨excess, _, signature, _, coins, mapped, pegouts, rfl, stealthExcess, optional, extraData,
    extraAllocated, rfl⟩ := converted
  refine ⟨amountHeld_of_nonneg valid.fee.2, amountHeld_of_nonneg valid.pegin.2,
    pegouts_carried (run_mapM_forall₂ mapped) ?_, rfl, keySpelled_of_optional optional, extraAllocated⟩
  have pegoutsValid := valid.pegouts
  split at pegoutsValid
  · exact fun coin member => (pegoutsValid coin member).1
  · intro coin member
    rw [toList_eq_nil.mp pegoutsValid] at member
    exact absurd member List.not_mem_nil

theorem wireKernel_valid_iff [Secp256k1.Lawful] {map : MwebKernel} {kernel : Mimblewimble.Kernel}
    (converted : (wireKernelFromMap map).run = some (.ok kernel)) : kernel.Valid ↔ map.Announced := by
  simp only [wireKernelFromMap, run_bind_eq_ok, allocate_eq_ok, run_pure_eq_ok] at converted
  obtain ⟨excess, _, signature, _, coins, mapped, pegouts, pegoutsAllocated, stealthExcess, optional,
    extraData, extraAllocated, rfl⟩ := converted
  have present := isSome_of_rel (optional_eq_ok optional)
  constructor
  · rintro ⟨fee, pegin, pegouts, lockHeight, ⟨stealth, _⟩, extra⟩
    exact ⟨(castAmounts_iff _ _).mp fee, (castAmounts_iff _ _).mp pegin,
      (pegouts_valid_iff mapped pegoutsAllocated _).mp pegouts, lockHeight, present.symm.trans stealth,
      (extraData_iff extraAllocated _).mp extra⟩
  · rintro ⟨fee, pegin, pegouts, lockHeight, stealth, extra⟩
    exact ⟨(castAmounts_iff _ _).mpr fee, (castAmounts_iff _ _).mpr pegin,
      (pegouts_valid_iff mapped pegoutsAllocated _).mpr pegouts, lockHeight,
      ⟨present.trans stealth, fun key _ => Mimblewimble.keyValid key⟩,
      (extraData_iff extraAllocated _).mpr extra⟩

theorem wireKernel_iff [Secp256k1.Lawful] {map : MwebKernel} {kernel : Mimblewimble.Kernel}
    (converted : (wireKernelFromMap map).run = some (.ok kernel)) :
    (kernel.Valid ∧ map.Carried kernel) ↔ map.Announced := by
  rw [and_iff_left_of_imp (wireKernel_carried converted)]
  exact wireKernel_valid_iff converted

end

section
variable [Secp256k1]

/-- The records of an MWEB transaction hold what the maps hold. -/
structure Carried (inputs : List MwebInput) (outputs : List MwebOutput) (kernels : List MwebKernel)
    (mw : Mimblewimble.Transaction) : Prop where
  inputs : List.Forall₂ MwebInput.Carried inputs mw.body.inputs.toList
  outputs : List.Forall₂ MwebOutput.Carried outputs mw.body.outputs.toList
  kernels : List.Forall₂ MwebKernel.Carried kernels mw.body.kernels.toList

theorem assembled_iff [Secp256k1.Lawful] {kernelOffset stealthOffset : ByteArr 32}
    {inputs : List MwebInput} {outputs : List MwebOutput} {kernels : List MwebKernel}
    {mw : Mimblewimble.Transaction}
    (assembled : (assembleMwTx kernelOffset stealthOffset inputs outputs kernels).run = some (.ok mw)) :
    (mw.Valid ∧ Carried inputs outputs kernels mw) ↔ (∀ input ∈ inputs, input.Announced) ∧
      (∀ output ∈ outputs, output.Announced) ∧ (∀ kernel ∈ kernels, kernel.Announced) ∧
      kernels ≠ [] := by
  simp only [assembleMwTx, run_bind_eq_ok, allocate_eq_ok, run_pure_eq_ok] at assembled
  obtain ⟨_, inputsMapped, wireInputs, rfl, _, outputsMapped, wireOutputs, rfl, _, kernelsMapped,
    wireKernels, rfl, rfl⟩ := assembled
  have kernelsRelated := run_mapM_forall₂ kernelsMapped
  have nonempty : wireKernels.isEmpty = false ↔ kernels ≠ [] := by
    rw [Vec.isEmpty, List.isEmpty_eq_false_iff, ← List.length_pos_iff, ← List.length_pos_iff,
      kernelsRelated.length_eq]
  rw [← forall_and_forall₂_iff (run_mapM_forall₂ inputsMapped) fun _ _ => wireInput_iff,
    ← forall_and_forall₂_iff (run_mapM_forall₂ outputsMapped) fun _ _ => wireOutput_iff,
    ← forall_and_forall₂_iff kernelsRelated fun _ _ => wireKernel_iff, ← nonempty]
  constructor
  · rintro ⟨⟨⟨inputs, outputs, kernels⟩, some⟩, inputsHeld, outputsHeld, kernelsHeld⟩
    exact ⟨⟨inputs, inputsHeld⟩, ⟨outputs, outputsHeld⟩, ⟨kernels, kernelsHeld⟩, some⟩
  · rintro ⟨⟨inputs, inputsHeld⟩, ⟨outputs, outputsHeld⟩, ⟨kernels, kernelsHeld⟩, some⟩
    exact ⟨⟨⟨inputs, outputs, kernels⟩, some⟩, inputsHeld, outputsHeld, kernelsHeld⟩

variable [Hashes]

/-- The witness an input is extracted with. -/
def extractedWitness (vin : TxIn) : Option Input → Witness
  | some psbtin => psbtin.finalWitness
  | none => vin.witness

theorem finalized_valid_iff {vins result : List TxIn} {inputs : List Input}
    (finalized : (finalizeInputs vins inputs).run = some (.ok result)) :
    (∀ txin ∈ result, txin.witness.Valid) ↔
      ∀ (k : Nat) (vin : TxIn), vins[k]? = some vin → (extractedWitness vin inputs[k]?).Valid := by
  induction vins generalizing inputs result with
  | nil =>
    obtain rfl := run_pure_eq_ok.mp finalized
    simp
  | cons vin vins ih =>
    cases inputs with
    | nil =>
      obtain rfl := run_pure_eq_ok.mp finalized
      simp only [List.getElem?_nil, extractedWitness, List.mem_iff_getElem?]
      exact ⟨fun valid k txin found => valid txin ⟨k, found⟩, fun valid txin ⟨k, found⟩ => valid k txin found⟩
    | cons psbtin inputs =>
      rw [finalizeInputs] at finalized
      obtain ⟨scriptSig, _, finalized⟩ := run_bind_eq_ok.mp finalized
      obtain ⟨rest, tail, returned⟩ := run_bind_eq_ok.mp finalized
      obtain rfl := run_pure_eq_ok.mp returned
      rw [List.forall_mem_cons, ih tail]
      constructor
      · rintro ⟨head, others⟩ (_ | k) txin found
        · exact head
        · exact others k txin found
      · intro all
        exact ⟨all 0 vin rfl, fun k txin found => all (k + 1) txin found⟩

/-- What the wire format asks of a PSBT and the extraction does not check. -/
structure Representable (psbt : Psbt) : Prop where
  isHogEx : psbt.unsignedTx.isHogEx = false
  witnesses : ∀ (k : Nat) (vin : TxIn), psbt.unsignedTx.input.toList[k]? = some vin →
    (extractedWitness vin psbt.inputs[k]?).Valid
  inputs : ∀ input ∈ psbt.extractedInputs, input.Announced
  outputs : ∀ output ∈ psbt.extractedOutputs, output.Announced
  kernels : ∀ kernel ∈ psbt.mwebKernels, kernel.Announced
  someKernel : psbt.mwebKernels ≠ []

/-- What can be sent: a transaction that is written and read back, and that leaves out nothing the
MWEB maps hold. -/
def Broadcastable (psbt : Psbt) (tx : Transaction) : Prop :=
  (∃ bytes, Consensus.serialize tx.consensusEncode = .ok bytes ∧
    Consensus.deserialize Transaction.consensusDecodeFromFiniteReader bytes = .ok tx) ∧
  ∃ mw, tx.mwTx = some mw ∧ Carried psbt.extractedInputs psbt.extractedOutputs psbt.mwebKernels mw

/-- An extracted transaction can be broadcast exactly when the maps can be represented on the
wire. -/
theorem extracted_broadcastable_iff [Secp256k1.Lawful] {psbt : Psbt} {tx : Transaction}
    (extracted : psbt.extractTxWithMweb.run = some (.ok tx)) :
    psbt.Broadcastable tx ↔ psbt.Representable := by
  simp only [extractTxWithMweb, run_bind_eq_ok, allocate_eq_ok, run_pure_eq_ok] at extracted
  obtain ⟨kernelOffset, _, stealthOffset, _, mw, assembled, _, finalized, input, rfl, rfl⟩ := extracted
  rw [Broadcastable, Transaction.roundtrip_iff, finalized_valid_iff finalized]
  have assembled := assembled_iff assembled
  simp only [Option.mem_some_iff, forall_eq', Option.isSome_some, true_and, Option.some.injEq,
    exists_eq_left']
  constructor
  · rintro ⟨⟨exclusive, _, valid, witnesses⟩, carried⟩
    obtain ⟨inputs, outputs, kernels, some⟩ := assembled.mp ⟨valid, carried⟩
    exact ⟨Bool.eq_false_iff.mpr exclusive, witnesses, inputs, outputs, kernels, some⟩
  · rintro ⟨isHogEx, witnesses, inputs, outputs, kernels, some⟩
    obtain ⟨valid, carried⟩ := assembled.mpr ⟨inputs, outputs, kernels, some⟩
    exact ⟨⟨Bool.eq_false_iff.mp isHogEx, by simp [isHogEx], valid, witnesses⟩, carried⟩

end
section
attribute [local instance] Secp256k1.generatorOnly Hashes.ofEmpty

/-- A kernel with a fee, behind the given feature byte. -/
def feeKernel (features : Option UInt8) : MwebKernel where
  fields
    | .excessCommit => some (.filled 33 0)
    | .signature => some (.filled 64 0)
    | .fee => some (5 : UInt64)
    | .features => features
    | _ => none
  pegouts := []
  unknowns := []

/-- Nothing but that kernel. -/
def feePsbt (features : Option UInt8) : Psbt where
  unsignedTx := { version := 2, lockTime := .fromConsensus 0, input := .empty, output := .empty,
                  mwTx := none, isHogEx := false }
  version := 0
  xpub := ∅
  proprietary := ∅
  unknown := ∅
  inputs := []
  outputs := []
  mwebTxOffset := some (.filled 32 0)
  mwebStealthOffset := some (.filled 32 0)
  mwebKernels := [feeKernel features]
  mwebInputs := []
  mwebOutputs := []

theorem feePsbt_extracted (features : Option UInt8) :
    ∃ tx, (feePsbt features).extractTxWithMweb.run = some (.ok tx) := ⟨_, rfl⟩

theorem feeKernel_announced : (feeKernel (some 1)).Announced where
  fee := by
    refine ⟨rfl, fun amount same => ?_⟩
    obtain rfl := Option.some.inj same
    decide
  pegin := ⟨rfl, nofun⟩
  pegouts := rfl
  lockHeight := rfl
  stealthCommit := rfl
  extraData := fun some => absurd rfl some

theorem announcedFee_broadcastable : ∃ tx,
    (feePsbt (some 1)).extractTxWithMweb.run = some (.ok tx) ∧ (feePsbt (some 1)).Broadcastable tx := by
  have := Secp256k1.generatorOnly_lawful
  obtain ⟨tx, extracted⟩ := feePsbt_extracted (some 1)
  have representable : (feePsbt (some 1)).Representable :=
    { isHogEx := rfl
      witnesses := nofun
      inputs := nofun
      outputs := nofun
      kernels := fun kernel member => List.mem_singleton.mp member ▸ feeKernel_announced
      someKernel := nofun }
  exact ⟨tx, extracted, (extracted_broadcastable_iff extracted).mpr representable⟩

/-- A fee without a feature byte is extracted, and lost on the wire. -/
theorem silentFee_not_broadcastable : ∃ tx,
    (feePsbt none).extractTxWithMweb.run = some (.ok tx) ∧
      (∃ bytes, Consensus.serialize tx.consensusEncode = .ok bytes) ∧
      ¬ ∃ bytes, Consensus.serialize tx.consensusEncode = .ok bytes ∧
        Consensus.deserialize Transaction.consensusDecodeFromFiniteReader bytes = .ok tx := by
  have := Secp256k1.generatorOnly_lawful
  refine ⟨_, rfl, ⟨_, rfl⟩, ?_⟩
  rw [Transaction.roundtrip_iff]
  rintro ⟨_, _, valid, _⟩
  have announced := ((valid _ rfl).body.kernels _ List.mem_cons_self).fee.1
  exact absurd announced nofun

end
end Litecoin.Psbt
