import Litecoin.Psbt.Sign

/-! Which arguments the signature hashes take (`crypto/sighash.rs`). -/
namespace Litecoin.Sighash
open Wire Consensus Blockdata Process

section
variable [Secp256k1] [Hashes]

/-- The cache is for the transaction. -/
def For (tx : Transaction) (state : SighashCache × ω) : Prop := state.1.tx = tx

section
variable {tx : Transaction}

omit [Secp256k1] [Hashes] in
theorem mapError_returns {result : Except ε α} (wrap : ε → ε') :
    (∃ a, result = .ok a) ↔ ∃ a, result.mapError wrap = .ok a := by
  cases result with
  | error e => exact ⟨fun ⟨_, same⟩ => by contradiction, fun ⟨_, same⟩ => by contradiction⟩
  | ok a => exact ⟨fun _ => ⟨a, rfl⟩, fun _ => ⟨a, rfl⟩⟩

omit [Hashes] in
theorem decides_write {emit : Emission IoError} {bytes : Bytes} (emission : emit = .written bytes) :
    Decides (For tx) (SighashCache.write emit : Sighasher Bytes ε Unit) True fun _ => True := by
  subst emission
  rintro ⟨cache, written⟩ same
  exact ⟨fun _ => ⟨(), (cache, written ++ bytes), rfl, same, trivial⟩, fun never =>
    absurd trivial never⟩

omit [Hashes] in
theorem decides_check {result : Except ε α} {Cond : Prop} {Post : α → Prop}
    (decided : Cond ↔ ∃ a, result = .ok a) (post : ∀ a, result = .ok a → Post a) :
    Decides (For tx) (SighashCache.check result : Sighasher Bytes ε α) Cond Post := by
  refine .ofExcept (decided.trans (mapError_returns _)) fun a found => post a ?_
  cases result with
  | error e => contradiction
  | ok b => exact congrArg _ (Except.ok.inj found)

omit [Hashes] in
theorem decides_transaction :
    Decides (For tx) (SighashCache.transaction : Sighasher Bytes ε Transaction) True (· = tx) :=
  .look fun _ same => same

theorem decides_filling {spent : List TxOut} {fill : SighashCache → α × SighashCache}
    {value : Transaction → α} (fills : Fills spent fill value) :
    Decides (For tx) (SighashCache.filling fill : Sighasher Bytes ε α) True fun _ => True :=
  .update (fun state same => (fills.tx state.1).trans same) fun _ _ => trivial

omit [Hashes] in
theorem decides_getAll (prevouts : Prevouts) :
    Decides (For tx) (SighashCache.check prevouts.getAll : Sighasher Bytes TaprootError (List TxOut))
      (∃ all, prevouts = .all all) fun _ => True := by
  refine decides_check ?_ fun _ _ => trivial
  cases prevouts with
  | one index prevout => exact ⟨fun ⟨_, same⟩ => by contradiction, fun ⟨_, same⟩ => by contradiction⟩
  | all given => exact ⟨fun _ => ⟨given, rfl⟩, fun _ => ⟨given, rfl⟩⟩

/-- The data of all inputs needs an output for each of them. -/
theorem decides_writeAllInputs (prevouts : Prevouts) :
    Decides (For tx) (SighashCache.writeAllInputs prevouts : Sighasher Bytes TaprootError Unit)
      (∃ all, prevouts = .all all) fun _ => True := by
  refine .andThen (decides_filling (SighashCache.fillCommon_fills [])) fun _ _ => ?_
  refine .andThen (decides_write (array_emits _)) fun _ _ => ?_
  refine .mono (.bind (decides_getAll prevouts) fun all _ => ?_) and_self_iff.symm
  refine .andThen (decides_filling (SighashCache.fillTaproot_fills all)) fun _ _ => ?_
  refine .andThen (decides_write (array_emits _)) fun _ _ => ?_
  refine .mono (.bind (decides_getAll prevouts) fun all _ => ?_) (and_true _).symm.to_iff
  refine .andThen (decides_filling (SighashCache.fillTaproot_fills all)) fun _ _ => ?_
  refine .andThen (decides_write (array_emits _)) fun _ _ => ?_
  refine .andThen (decides_filling (SighashCache.fillCommon_fills [])) fun _ _ => ?_
  exact decides_write (array_emits _)

theorem decides_writeAllOutputs :
    Decides (For tx) (SighashCache.writeAllOutputs : Sighasher Bytes TaprootError Unit) True
      fun _ => True :=
  .andThen (decides_filling (SighashCache.fillCommon_fills [])) fun _ _ => decides_write (array_emits _)

omit [Secp256k1] [Hashes] in
theorem lt_length_iff {values : List α} {index : Nat} :
    index < values.length ↔ values[index]?.isSome = true :=
  (isSome_getElem? values index).symm.to_iff

omit [Hashes] in
theorem txIn_returns {inputIndex : Nat} :
    inputIndex < tx.input.toList.length ↔ ∃ txin, txIn tx inputIndex = .ok txin := by
  simp only [lt_length_iff, txIn_eq_ok, Option.isSome_iff_exists]

omit [Hashes] in
/-- The input itself is looked up, and the output that it spends. -/
theorem decides_writeOneInput (inputIndex : Nat) (prevouts : Prevouts) :
    Decides (For tx) (SighashCache.writeOneInput inputIndex prevouts :
      Sighasher Bytes TaprootError Unit)
      (inputIndex < tx.input.toList.length ∧ ∃ prevout, prevouts.get inputIndex = .ok prevout)
      fun _ => True := by
  refine .andThen decides_transaction fun _ same => ?_
  subst same
  refine .bind (decides_check (txIn_returns.trans (mapError_returns _)) fun _ _ => trivial)
    fun txin _ => ?_
  refine .mono (.bind (decides_check Iff.rfl fun _ _ => trivial) fun prevout _ => ?_)
    (and_true _).symm.to_iff
  refine .andThen (decides_write (OutPoint.codec.emits _)) fun _ _ => ?_
  refine .andThen (decides_write (readU64_codec.emits _)) fun _ _ => ?_
  refine .andThen (decides_write (bytes_codec.emits _)) fun _ _ => ?_
  exact decides_write (readU32_codec.emits _)

omit [Hashes] in
/-- The index itself is written without looking. -/
theorem decides_writeThisInput (anyoneCanPay : Bool) (inputIndex : Nat) (prevouts : Prevouts) :
    Decides (For tx) (SighashCache.writeThisInput anyoneCanPay inputIndex prevouts :
      Sighasher Bytes TaprootError Unit)
      (anyoneCanPay = true → inputIndex < tx.input.toList.length ∧
        ∃ prevout, prevouts.get inputIndex = .ok prevout) fun _ => True :=
  .ite (decides_writeOneInput inputIndex prevouts) (decides_write (readU32_codec.emits _))

theorem decides_writeAnnex (annex : Option Annex) :
    Decides (For tx) (SighashCache.writeAnnex annex : Sighasher Bytes TaprootError Unit) True
      fun _ => True := by
  cases annex with
  | none => exact .pure trivial
  | some annex => exact decides_write (array_emits _)

theorem decides_writeSingleOutput (inputIndex : Nat) :
    Decides (For tx) (SighashCache.writeSingleOutput inputIndex : Sighasher Bytes TaprootError Unit)
      (inputIndex < tx.output.toList.length) fun _ => True := by
  refine .andThen decides_transaction fun tx' same => ?_
  subst same
  refine .mono (.bind (decides_check ?_ fun _ _ => trivial) fun _ _ => decides_write (array_emits _))
    (and_true _).symm.to_iff
  rw [lt_length_iff]
  cases tx'.output.toList[inputIndex]? with
  | none => exact ⟨fun absent => by contradiction, fun ⟨_, same⟩ => by contradiction⟩
  | some txout => exact ⟨fun _ => ⟨txout, rfl⟩, fun _ => rfl⟩

omit [Hashes] in
theorem decides_writeLeaf (leaf : Option (Taproot.TapLeafHash × UInt32)) :
    Decides (For tx) (SighashCache.writeLeaf leaf : Sighasher Bytes TaprootError Unit) True
      fun _ => True := by
  cases leaf with
  | none => exact .pure trivial
  | some leaf =>
    refine .andThen (decides_write (array_emits _)) fun _ _ => ?_
    refine .andThen (decides_write (readU8_codec.emits _)) fun _ _ => ?_
    exact decides_write (readU32_codec.emits _)

end

namespace Prevouts

/-- One entry for each input. -/
def Whole (tx : Transaction) : Prevouts → Prop
  | .all prevouts => prevouts.length = tx.input.toList.length
  | .one _ _ => False

omit [Secp256k1] in
/-- The one entry is for this input. -/
def Names (inputIndex : Nat) : Prevouts → Prop
  | .all _ => False
  | .one index _ => index = inputIndex

end Prevouts

/-- `SIGHASH_SINGLE` finds its output. -/
def HasOutput (tx : Transaction) (inputIndex : Nat) (sighash : TapSighashType) : Prop :=
  sighash = .single → inputIndex < tx.output.toList.length

/-- What the encoder asks for: the index counts with `SIGHASH_ANYONECANPAY` only. -/
def Accepts (tx : Transaction) (inputIndex : Nat) (prevouts : Prevouts) (sighashType : TapSighashType) :
    Prop :=
  (if sighashType.splitAnyonecanpayFlag.2 then
    inputIndex < tx.input.toList.length ∧ (prevouts.Whole tx ∨ prevouts.Names inputIndex)
  else prevouts.Whole tx) ∧ HasOutput tx inputIndex sighashType.splitAnyonecanpayFlag.1

omit [Hashes] in
/-- The prevouts are for the transaction and the input; the flag is what lets a single one do. -/
theorem prevouts_checks (tx : Transaction) (inputIndex : Nat) (prevouts : Prevouts)
    (anyoneCanPay : Bool) :
    (if anyoneCanPay then
      inputIndex < tx.input.toList.length ∧ (prevouts.Whole tx ∨ prevouts.Names inputIndex)
    else prevouts.Whole tx) ↔
    (∃ all, prevouts.checkAll tx = .ok all) ∧ (anyoneCanPay = false → ∃ all, prevouts = .all all) ∧
      (anyoneCanPay = true → inputIndex < tx.input.toList.length ∧
        ∃ prevout, prevouts.get inputIndex = .ok prevout) := by
  cases prevouts with
  | one index prevout =>
    have asked : (∃ found, (Prevouts.one index prevout).get inputIndex = .ok found) ↔
        index = inputIndex := by
      rw [Prevouts.get]
      split
      case isTrue same => exact ⟨fun _ => same.symm, fun _ => ⟨prevout, rfl⟩⟩
      case isFalse other =>
        exact iff_of_false (by simp) fun same => other same.symm
    cases anyoneCanPay <;> simp [asked, Prevouts.Whole, Prevouts.Names, Prevouts.checkAll]
  | all prevouts =>
    have sizes : (∃ all, (Prevouts.all prevouts).checkAll tx = .ok all) ↔
        prevouts.length = tx.input.toList.length := by
      rw [Prevouts.checkAll]
      split
      case isTrue other => exact iff_of_false (by simp) other
      case isFalse same => exact ⟨fun _ => not_not.mp same, fun _ => ⟨(), rfl⟩⟩
    have asked : (∃ found, (Prevouts.all prevouts).get inputIndex = .ok found) ↔
        inputIndex < prevouts.length := by
      rw [lt_length_iff, Prevouts.get]
      cases prevouts[inputIndex]? with
      | none => exact iff_of_false (by simp) Bool.false_ne_true
      | some prevout => exact ⟨fun _ => rfl, fun _ => ⟨prevout, rfl⟩⟩
    rw [sizes, asked]
    cases anyoneCanPay <;> simp [Prevouts.Whole, Prevouts.Names]
    omega

theorem taproot_decides (tx : Transaction) (inputIndex : Nat) (prevouts : Prevouts)
    (annex : Option Annex) (leaf : Option (Taproot.TapLeafHash × UInt32))
    (sighashType : TapSighashType) :
    Decides (For tx)
      (SighashCache.taprootEncodeSigningDataTo inputIndex prevouts annex leaf sighashType :
      Sighasher Bytes TaprootError Unit) (Accepts tx inputIndex prevouts sighashType)
      fun _ => True := by
  simp only [SighashCache.taprootEncodeSigningDataTo, Accepts, prevouts_checks, and_assoc, HasOutput]
  rcases sighashType.splitAnyonecanpayFlag with ⟨sighash, anyoneCanPay⟩
  refine .andThen decides_transaction fun _ same => ?_
  subst same
  refine .bind (decides_check Iff.rfl fun _ _ => trivial) fun _ _ => ?_
  refine .andThen (decides_write (readU8_codec.emits _)) fun _ _ => ?_
  refine .andThen (decides_write (readU8_codec.emits _)) fun _ _ => ?_
  refine .andThen (decides_write (readI32_codec.emits _)) fun _ _ => ?_
  refine .andThen (decides_write (LockTime.codec.emits _)) fun _ _ => ?_
  refine .bind (.gated (decides_writeAllInputs prevouts) fun _ => trivial) fun _ _ => ?_
  refine .andThen (.mono (.gated decides_writeAllOutputs fun _ => trivial) (imp_true_iff _).symm)
    fun _ _ => ?_
  refine .andThen (decides_write (readU8_codec.emits _)) fun _ _ => ?_
  refine .bind (decides_writeThisInput anyoneCanPay inputIndex prevouts) fun _ _ => ?_
  refine .andThen (decides_writeAnnex annex) fun _ _ => ?_
  refine .mono (.bind (.gated (decides_writeSingleOutput inputIndex) fun _ => trivial) fun _ _ => ?_)
    (and_true _).symm.to_iff
  exact decides_writeLeaf leaf

theorem taprootSignatureHash_returns_iff [SighashTag] (cache : SighashCache) (inputIndex : Nat)
    (prevouts : Prevouts) (annex : Option Annex) (leaf : Option (Taproot.TapLeafHash × UInt32))
    (sighashType : TapSighashType) :
    (∃ hash after, cache.taprootSignatureHash inputIndex prevouts annex leaf sighashType =
      some (.ok hash, after)) ↔ Accepts cache.tx inputIndex prevouts sighashType := by
  have decides := taproot_decides cache.tx inputIndex prevouts annex leaf sighashType
  refine Iff.trans ?_ (decides.returns_iff (show For cache.tx (cache, ([] : Bytes)) from rfl))
  rw [SighashCache.taprootSignatureHash]
  rcases SighashCache.taprootEncodeSigningDataTo inputIndex prevouts annex leaf sighashType
    (cache, ([] : Bytes)) with ⟨(_ | _) | _, after, engine⟩
  · simp
  · simp
  · simp

section
variable {tx : Transaction}

theorem decides_writeHash {committed : Prop} [Decidable committed] {part : SegwitCache → ByteArr 32} :
    Decides (For tx) (SighashCache.writeHash committed part : Sighasher Bytes ε Unit) True
      fun _ => True := by
  refine .mono (.ite (.andThen (decides_filling (SighashCache.fillSegwit_fills [])) fun _ _ => ?_) ?_)
    (imp_true_iff _).symm
  · exact decides_write (array_emits _)
  · exact decides_write (array_emits _)

theorem decides_writeOutputsHash (inputIndex : Nat) (sighash : EcdsaSighashType) :
    Decides (For tx) (SighashCache.writeOutputsHash inputIndex sighash : Sighasher Bytes ε Unit) True
      fun _ => True :=
  .mono (.ite (.andThen decides_transaction fun _ _ => decides_write (array_emits _)) decides_writeHash)
    (imp_true_iff _).symm

/-- Only the input is looked up; a missing output is hashed as zeros. -/
theorem segwitV0_decides (tx : Transaction) (inputIndex : Nat) (scriptCode : ByteVec) (value : UInt64)
    (sighashType : EcdsaSighashType) :
    Decides (For tx) (SighashCache.segwitV0EncodeSigningDataTo inputIndex scriptCode value sighashType :
      Sighasher Bytes InputsIndexError Unit) (inputIndex < tx.input.toList.length) fun _ => True := by
  refine .andThen decides_transaction fun _ same => ?_
  subst same
  refine .andThen (decides_write (readI32_codec.emits _)) fun _ _ => ?_
  refine .andThen decides_writeHash fun _ _ => ?_
  refine .andThen decides_writeHash fun _ _ => ?_
  refine .mono (.bind (decides_check txIn_returns fun _ _ => trivial) fun txin _ => ?_)
    (and_true _).symm.to_iff
  refine .andThen (decides_write (OutPoint.codec.emits _)) fun _ _ => ?_
  refine .andThen (decides_write (bytes_codec.emits _)) fun _ _ => ?_
  refine .andThen (decides_write (readU64_codec.emits _)) fun _ _ => ?_
  refine .andThen (decides_write (readU32_codec.emits _)) fun _ _ => ?_
  refine .andThen (decides_writeOutputsHash inputIndex _) fun _ _ => ?_
  refine .andThen (decides_write (LockTime.codec.emits _)) fun _ _ => ?_
  exact decides_write (readU32_codec.emits _)

end

theorem p2wshSignatureHash_returns_iff (cache : SighashCache) (inputIndex : Nat) (scriptCode : ByteVec)
    (value : UInt64) (sighashType : EcdsaSighashType) :
    (∃ hash after, Psbt.p2wshSignatureHash cache inputIndex scriptCode value sighashType =
      some (.ok hash, after)) ↔ inputIndex < cache.tx.input.toList.length := by
  have decides := segwitV0_decides cache.tx inputIndex scriptCode value sighashType
  refine Iff.trans ?_ (decides.returns_iff (show For cache.tx (cache, ([] : Bytes)) from rfl))
  rw [Psbt.p2wshSignatureHash]
  rcases SighashCache.segwitV0EncodeSigningDataTo inputIndex scriptCode value sighashType
    (cache, ([] : Bytes)) with ⟨(_ | _) | _, after, engine⟩
  · simp
  · simp
  · simp

theorem p2wpkhSignatureHash_inputs {cache after : SighashCache} {inputIndex : Nat}
    {scriptPubkey : Script.ScriptBuf} {value : UInt64} {sighashType : EcdsaSighashType}
    {hash : ByteArr 32} (returned : Psbt.p2wpkhSignatureHash cache inputIndex scriptPubkey value
      sighashType = some (.ok hash, after)) : inputIndex < cache.tx.input.toList.length := by
  rw [Psbt.p2wpkhSignatureHash, Option.bind_eq_bind, Option.bind_eq_some_iff] at returned
  obtain ⟨code | code, -, returned⟩ := returned
  · simp at returned
  obtain ⟨script, -, returned⟩ := Option.bind_eq_some_iff.mp returned
  obtain ⟨⟨result, cache'⟩, hashed, returned⟩ := Option.bind_eq_some_iff.mp returned
  obtain ⟨found, -⟩ := Prod.mk.inj (Option.some.inj returned)
  obtain ⟨hash', rfl⟩ := (mapError_returns _).mpr ⟨hash, found⟩
  exact (p2wshSignatureHash_returns_iff cache inputIndex script value sighashType).mp
    ⟨hash', cache', hashed⟩

/-- The arguments are validated: the input exists, the prevouts are those of the transaction or
the one that is needed, `SIGHASH_SINGLE` finds its output, and the index that is hashed in place of
the input is the index given. -/
structure Validated (tx : Transaction) (inputIndex : Nat) (prevouts : Prevouts)
    (sighashType : TapSighashType) (Returns : Prop) : Prop where
  index : Returns → inputIndex < tx.input.toList.length
  arguments : Returns ↔ inputIndex < tx.input.toList.length ∧
    (prevouts.Whole tx ∨ prevouts.Names inputIndex ∧ sighashType.splitAnyonecanpayFlag.2 = true) ∧
    HasOutput tx inputIndex sighashType.splitAnyonecanpayFlag.1
  untruncated : Returns → sighashType.splitAnyonecanpayFlag.2 = false →
    (UInt32.ofNat inputIndex).toNat = inputIndex

/-- The index is in range wherever it is hashed without having been looked up. -/
def IndexInRange (tx : Transaction) (inputIndex : Nat) (prevouts : Prevouts)
    (sighashType : TapSighashType) : Prop :=
  sighashType.splitAnyonecanpayFlag.2 = false → prevouts.Whole tx →
    HasOutput tx inputIndex sighashType.splitAnyonecanpayFlag.1 →
    inputIndex < tx.input.toList.length ∧ inputIndex < 2 ^ 32

omit [Secp256k1] [Hashes] in
theorem untruncated_iff (index : Nat) : (UInt32.ofNat index).toNat = index ↔ index < 2 ^ 32 := by
  rw [UInt32.toNat_ofNat']
  exact ⟨fun same => same ▸ Nat.mod_lt index (by decide), Nat.mod_eq_of_lt⟩

omit [Hashes] in
theorem validated_iff (tx : Transaction) (inputIndex : Nat) (prevouts : Prevouts)
    (sighashType : TapSighashType) :
    Validated tx inputIndex prevouts sighashType (Accepts tx inputIndex prevouts sighashType) ↔
      IndexInRange tx inputIndex prevouts sighashType := by
  simp only [Accepts, IndexInRange]
  constructor
  · rintro ⟨index, -, untruncated⟩ flag whole output
    simp only [flag, Bool.false_eq_true, if_false, untruncated_iff] at index untruncated
    exact ⟨index ⟨whole, output⟩, untruncated ⟨whole, output⟩ trivial⟩
  · intro inRange
    cases flag : sighashType.splitAnyonecanpayFlag.2 with
    | true =>
      refine ⟨fun accepts => accepts.1.1, ?_, fun _ without => ?_⟩
      · simp only [flag, if_true, and_true, and_assoc]
      · rw [flag] at without
        contradiction
    | false =>
      simp only [Bool.false_eq_true, if_false]
      have found (accepts : prevouts.Whole tx ∧
          HasOutput tx inputIndex sighashType.splitAnyonecanpayFlag.1) :=
        inRange flag accepts.1 accepts.2
      refine ⟨fun accepts => (found accepts).1, ?_, fun accepts _ =>
        (untruncated_iff inputIndex).mpr (found accepts).2⟩
      simp only [flag, Bool.false_eq_true, and_false, or_false]
      exact ⟨fun accepts => ⟨(found accepts).1, accepts⟩, And.right⟩

/-- Each of the signature hashes refuses a missing input, except that the taproot one takes any
index that it does not have to look up. -/
theorem signature_hash_arguments [SighashTag] (cache : SighashCache) (inputIndex : Nat) :
    (∀ prevouts annex leaf sighashType,
      Validated cache.tx inputIndex prevouts sighashType
        (∃ hash after, cache.taprootSignatureHash inputIndex prevouts annex leaf sighashType =
          some (.ok hash, after)) ↔
        IndexInRange cache.tx inputIndex prevouts sighashType) ∧
    (∀ scriptCode value sighashType hash after,
      Psbt.p2wshSignatureHash cache inputIndex scriptCode value sighashType = some (.ok hash, after) →
        inputIndex < cache.tx.input.toList.length) ∧
    (∀ scriptPubkey value sighashType hash after,
      Psbt.p2wpkhSignatureHash cache inputIndex scriptPubkey value sighashType =
        some (.ok hash, after) → inputIndex < cache.tx.input.toList.length) ∧
    (∀ script sighashType hash, cache.legacySignatureHash inputIndex script sighashType =
      some (.ok hash) → inputIndex < cache.tx.input.toList.length) := by
  refine ⟨?_, ?_, ?_, ?_⟩
  · intro prevouts annex leaf sighashType
    rw [taprootSignatureHash_returns_iff]
    exact validated_iff cache.tx inputIndex prevouts sighashType
  · intro scriptCode value sighashType hash after returned
    exact (p2wshSignatureHash_returns_iff cache inputIndex scriptCode value sighashType).mp
      ⟨hash, after, returned⟩
  · intro scriptPubkey value sighashType hash after returned
    exact p2wpkhSignatureHash_inputs returned
  · intro script sighashType hash returned
    exact (Psbt.legacySignatureHash_returns_iff cache inputIndex script sighashType).mp ⟨hash, returned⟩

end

section
attribute [local instance] Secp256k1.generatorOnly

/-- The sighashes of no concern. -/
@[reducible] def plainTag : SighashTag := ⟨fun _ => SighashCache.zeroHash⟩

attribute [local instance] Hashes.ofEmpty plainTag

/-- A transaction with two inputs is hashed for a third one, and for the input that has the low
bits of the index. -/
theorem taproot_hashes_missing_input :
    (∃ hash after, (SighashCache.new moreInputsThanOutputs).taprootSignatureHash 2
      (.all [nullTxOut, nullTxOut]) none none .all = some (.ok hash, after)) ∧
    ¬ 2 < moreInputsThanOutputs.input.toList.length ∧
    (∃ hash after, (SighashCache.new moreInputsThanOutputs).taprootSignatureHash 0x100000000
      (.all [nullTxOut, nullTxOut]) none none .all = some (.ok hash, after)) ∧
    (UInt32.ofNat 0x100000000).toNat = 0 := by
  have accepts (inputIndex : Nat) : Accepts moreInputsThanOutputs inputIndex
      (.all [nullTxOut, nullTxOut]) .all := ⟨rfl, fun single => by contradiction⟩
  exact ⟨(taprootSignatureHash_returns_iff _ 2 _ none none .all).mpr (accepts 2), by decide,
    (taprootSignatureHash_returns_iff _ _ _ none none .all).mpr (accepts _), rfl⟩

end
end Litecoin.Sighash
