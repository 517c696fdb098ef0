import Litecoin.Crypto.SighashFields
import Litecoin.Crypto.SighashTransparency

/-! Successful calls of the segwit and taproot encoders write the preimage of the fields
they commit to, so that two of them write the same bytes when these fields agree and,
without hash collisions, only then. -/
namespace Litecoin.Sighash
open Wire Consensus Blockdata

section
variable [Secp256k1] [Hashes]
open SighashCache

theorem common_of (tx : Transaction) : CommonCache.of tx = {
    prevouts := Hashes.sha256 (SegwitV0Fields.outpointsWire (tx.input.toList.map TxIn.previousOutput))
    sequences := Hashes.sha256 (SegwitV0Fields.sequencesWire (tx.input.toList.map TxIn.sequence))
    outputs := Hashes.sha256 (SegwitV0Fields.outputsWire tx.output.toList) } := by
  have prevouts : Emission.each (fun txin : TxIn => txin.previousOutput.consensusEncode) tx.input.toList
      = .written (tx.input.toList.flatMap fun txin => txin.previousOutput.wire) :=
    Emission.each_written fun txin _ => OutPoint.codec.emits _
  have sequences : Emission.each (fun txin : TxIn => encodeU32 txin.sequence) tx.input.toList
      = .written (tx.input.toList.flatMap fun txin => littleEndian 4 txin.sequence.toNat) :=
    Emission.each_written fun txin _ => readU32_codec.emits _
  have outputs : Emission.each TxOut.consensusEncode tx.output.toList
      = .written (tx.output.toList.flatMap TxOut.wire) :=
    Emission.each_written fun txout _ => TxOut.codec.emits _
  simp only [CommonCache.of, prevouts, sequences, outputs, received, Emission.written,
    SegwitV0Fields.outpointsWire, SegwitV0Fields.sequencesWire, SegwitV0Fields.outputsWire,
    List.flatMap_map]

/-- Coherent caches over one transaction. -/
def Over (spent : List TxOut) (tx : Transaction) (cache : SighashCache) : Prop :=
  Coherent spent cache ∧ cache.tx = tx

section
open Process
variable {spent : List TxOut} {tx : Transaction}

theorem appends_write {Post : Unit → Bytes → Prop} (emission : emit = .written bytes)
    (post : Post () bytes) :
    Appends (Over spent tx) (write emit : Sighasher Bytes ε Unit) Post := by
  subst emission
  rintro cache written a after holds ran
  obtain ⟨-, rfl⟩ := Prod.mk.inj ran
  exact ⟨holds, bytes, rfl, post⟩

theorem appends_check {result : Except ε α} {Post : α → Bytes → Prop}
    (post : ∀ a, result = .ok a → Post a []) :
    Appends (Over spent tx) (check result : Sighasher Bytes ε α) Post := by
  refine .ofExcept fun a found => post a ?_
  cases result with
  | error e => contradiction
  | ok b => exact congrArg _ (Except.ok.inj found)

theorem appends_transaction {Post : Transaction → Bytes → Prop} (post : Post tx []) :
    Appends (Over spent tx) (transaction : Sighasher Bytes ε Transaction) Post := by
  rintro cache written a after ⟨coherent, rfl⟩ ran
  obtain ⟨same, rfl⟩ := Prod.mk.inj ran
  obtain rfl := Except.ok.inj same
  exact ⟨⟨coherent, rfl⟩, [], (List.append_nil written).symm, post⟩

theorem appends_filling {fill : SighashCache → α × SighashCache} {value : Transaction → α}
    (fills : Fills spent fill value) {Post : α → Bytes → Prop} (post : Post (value tx) []) :
    Appends (Over spent tx) (filling fill : Sighasher Bytes ε α) Post := by
  rintro cache written a after ⟨coherent, rfl⟩ ran
  obtain ⟨same, rfl⟩ := Prod.mk.inj ran
  obtain rfl := Except.ok.inj same
  refine ⟨⟨fills.coherent cache coherent, fills.tx cache⟩, [], (List.append_nil written).symm, ?_⟩
  rw [fills.value cache coherent]
  exact post

omit [Secp256k1] [Hashes] in
theorem array_emits (bytes : ByteArr n) : encodeArray bytes = .written bytes.val :=
  (readExact_codec n).emits bytes

theorem appends_writeHash {committed : Prop} [Decidable committed] {part : SegwitCache → ByteArr 32}
    {Post : Unit → Bytes → Prop}
    (post : Post () (if committed then part (.of (.of tx)) else zeroHash).val) :
    Appends (Over spent tx) (writeHash committed part : Sighasher Bytes ε Unit) Post := by
  refine .ite (fun yes => .bind (appends_filling (fillSegwit_fills spent) ?_)) fun no =>
    appends_write (array_emits _) ?_
  · rw [if_pos yes] at post
    exact appends_write (array_emits _) post
  · rw [if_neg no] at post
    exact post

/-- The hash of the outputs in the preimage. -/
def outputsHash (tx : Transaction) (inputIndex : Nat) (sighash : EcdsaSighashType) : ByteArr 32 :=
  if sighash = .single then match tx.output.toList[inputIndex]? with
    | some txout => Hashes.sha256d (received txout.consensusEncode)
    | none => zeroHash
  else if sighash ≠ .none then (SegwitCache.of (.of tx)).outputs else zeroHash

omit [Secp256k1] [Hashes] in
theorem received_txOut (txout : TxOut) : received txout.consensusEncode = txout.wire := by
  rw [TxOut.codec.emits]
  rfl

theorem outputsHash_eq (tx : Transaction) (inputIndex : Nat) (txin : TxIn) (scriptCode : ByteVec)
    (value : UInt64) (sighashType : EcdsaSighashType) :
    outputsHash tx inputIndex sighashType.splitAnyonecanpayFlag.1 = SegwitV0Fields.hashOutputs
      (SegwitV0Fields.of tx inputIndex txin scriptCode value sighashType).outputs := by
  cases sighashType
  case single | singlePlusAnyoneCanPay =>
    simp only [outputsHash, EcdsaSighashType.splitAnyonecanpayFlag, SegwitV0Fields.of, if_true,
      received_txOut]
    cases tx.output.toList[inputIndex]? <;> rfl
  all_goals
    simp only [outputsHash, EcdsaSighashType.splitAnyonecanpayFlag, SegwitV0Fields.of,
      SegwitV0Fields.hashOutputs, SegwitCache.of, common_of, hashTwice]
    rfl

theorem appends_writeOutputsHash {inputIndex : Nat} {sighash : EcdsaSighashType}
    {Post : Unit → Bytes → Prop} (post : Post () (outputsHash tx inputIndex sighash).val) :
    Appends (Over spent tx) (writeOutputsHash inputIndex sighash : Sighasher Bytes ε Unit) Post := by
  rw [outputsHash] at post
  refine .ite (fun yes => .bind (appends_transaction ?_)) fun no => appends_writeHash ?_
  · rw [if_pos yes] at post
    exact appends_write (array_emits _) post
  · rw [if_neg no] at post
    exact post

/-- A call that succeeds has written the preimage of the call's fields. -/
theorem segwitV0_appends (inputIndex : Nat) (scriptCode : ByteVec) (value : UInt64)
    (sighashType : EcdsaSighashType) :
    Appends (Over spent tx) (segwitV0EncodeSigningDataTo inputIndex scriptCode value sighashType :
        Sighasher Bytes InputsIndexError Unit) fun _ bytes =>
      ∃ txin, txIn tx inputIndex = .ok txin ∧
        bytes = (SegwitV0Fields.of tx inputIndex txin scriptCode value sighashType).preimage := by
  refine .bind (appends_transaction ?_)
  refine .bind (appends_write (readI32_codec.emits _) ?_)
  refine .bind (appends_writeHash ?_)
  refine .bind (appends_writeHash ?_)
  refine .bind (appends_check fun txin found => ?_)
  refine .bind (appends_write (OutPoint.codec.emits _) ?_)
  refine .bind (appends_write (bytes_codec.emits _) ?_)
  refine .bind (appends_write (readU64_codec.emits _) ?_)
  refine .bind (appends_write (readU32_codec.emits _) ?_)
  refine .bind (appends_writeOutputsHash ?_)
  refine .bind (appends_write (LockTime.codec.emits _) ?_)
  refine appends_write (readU32_codec.emits _) ⟨txin, found, ?_⟩
  have outputs := outputsHash_eq tx inputIndex txin scriptCode value sighashType
  cases sighashType
  all_goals
    simp only [EcdsaSighashType.splitAnyonecanpayFlag] at outputs
    simp only [outputs, List.nil_append]
    simp only [SegwitV0Fields.preimage, SegwitV0Fields.of, EcdsaSighashType.splitAnyonecanpayFlag,
      SegwitV0Fields.hashOption, hashTwice, SegwitCache.of, common_of]
    rfl

omit [Secp256k1] in
theorem taprootCache_of (prevouts : List TxOut) : TaprootCache.of prevouts = {
    amounts := Hashes.sha256 (TaprootFields.amountsWire (prevouts.map TxOut.value))
    scriptPubkeys := Hashes.sha256
      (TaprootFields.scriptPubkeysWire (prevouts.map TxOut.scriptPubkey)) } := by
  have amounts : Emission.each (fun prevout : TxOut => encodeU64 prevout.value) prevouts
      = .written (prevouts.flatMap fun prevout => littleEndian 8 prevout.value.toNat) :=
    Emission.each_written fun prevout _ => readU64_codec.emits _
  have scriptPubkeys : Emission.each (fun prevout : TxOut => encodeWithSize prevout.scriptPubkey) prevouts
      = .written (prevouts.flatMap fun prevout => bytesWire prevout.scriptPubkey) :=
    Emission.each_written fun prevout _ => bytes_codec.emits _
  simp only [TaprootCache.of, amounts, scriptPubkeys, received, Emission.written,
    TaprootFields.amountsWire, TaprootFields.scriptPubkeysWire, List.flatMap_map]

theorem appends_getAll {prevouts : Prevouts} (spends : ∀ all, prevouts = .all all → all = spent)
    {Post : List TxOut → Bytes → Prop} (post : prevouts = .all spent → Post spent []) :
    Appends (Over spent tx) (check prevouts.getAll : Sighasher Bytes TaprootError (List TxOut)) Post := by
  refine appends_check fun all found => ?_
  cases prevouts with
  | one index prevout => contradiction
  | all given =>
    obtain rfl : given = all := Except.ok.inj found
    obtain rfl := spends given rfl
    exact post rfl

theorem appends_inputs {anyoneCanPay : Bool} {prevouts : Prevouts}
    (spends : ∀ all, prevouts = .all all → all = spent) {Post : Unit → Bytes → Prop}
    (post : ∀ inputs, TaprootFields.inputsOf anyoneCanPay tx prevouts = some inputs →
      Post () (TaprootFields.inputsPart inputs)) :
    Appends (Over spent tx) ((writeAllInputs prevouts).gated (anyoneCanPay = false) :
      Sighasher Bytes TaprootError Unit) Post := by
  refine .gated (fun without => ?_) fun with_ => ?_
  · refine .bind (appends_filling (fillCommon_fills spent) ?_)
    refine .bind (appends_write (array_emits _) ?_)
    refine .bind (appends_getAll spends fun all => ?_)
    refine .bind (appends_filling (fillTaproot_fills spent) ?_)
    refine .bind (appends_write (array_emits _) ?_)
    refine .bind (appends_getAll spends fun _ => ?_)
    refine .bind (appends_filling (fillTaproot_fills spent) ?_)
    refine .bind (appends_write (array_emits _) ?_)
    refine .bind (appends_filling (fillCommon_fills spent) ?_)
    refine appends_write (array_emits _) ?_
    subst without all
    simpa only [common_of, taprootCache_of, TaprootFields.inputsPart, List.nil_append] using post _ rfl
  · have flag : anyoneCanPay = true := by simpa using with_
    subst flag
    exact post none rfl

theorem appends_allOutputs {sighash : TapSighashType} (inputIndex : Nat) {Post : Unit → Bytes → Prop}
    (post : Post () (TaprootFields.allOutputsPart (TaprootFields.outputsOf sighash tx inputIndex))) :
    Appends (Over spent tx) (writeAllOutputs.gated (sighash ≠ .none ∧ sighash ≠ .single) :
      Sighasher Bytes TaprootError Unit) Post := by
  refine .gated (fun all => ?_) fun partly => ?_
  · refine .bind (appends_filling (fillCommon_fills spent) (appends_write (array_emits _) ?_))
    rw [common_of]
    cases sighash with
    | none => exact absurd rfl all.1
    | single => exact absurd rfl all.2
    | default | all | allPlusAnyoneCanPay | nonePlusAnyoneCanPay | singlePlusAnyoneCanPay => exact post
  · cases sighash with
    | none | single => exact post
    | default | all | allPlusAnyoneCanPay | nonePlusAnyoneCanPay | singlePlusAnyoneCanPay =>
      exact absurd ⟨by decide, by decide⟩ partly

theorem appends_input {anyoneCanPay : Bool} {inputIndex : Nat} {prevouts : Prevouts}
    {Post : Unit → Bytes → Prop}
    (post : ∀ input, TaprootFields.inputOf anyoneCanPay tx inputIndex prevouts = some input →
      Post () (TaprootFields.inputPart input)) :
    Appends (Over spent tx) (writeThisInput anyoneCanPay inputIndex prevouts :
      Sighasher Bytes TaprootError Unit) Post := by
  refine .ite (fun with_ => ?_) fun without => appends_write (readU32_codec.emits _) ?_
  · refine .bind (appends_transaction ?_)
    refine .bind (appends_check fun txin found => ?_)
    refine .bind (appends_check fun prevout given => ?_)
    refine .bind (appends_write (OutPoint.codec.emits _) ?_)
    refine .bind (appends_write (readU64_codec.emits _) ?_)
    refine .bind (appends_write (bytes_codec.emits _) ?_)
    refine appends_write (readU32_codec.emits _) ?_
    refine post (.own _ _ _ _) ?_
    have here : txIn tx inputIndex = .ok txin := by
      cases lookup : txIn tx inputIndex with
      | error e =>
        rw [lookup] at found
        contradiction
      | ok other =>
        rw [lookup] at found
        rw [Except.ok.inj found]
    rw [TaprootFields.inputOf, if_pos with_, txIn_eq_ok.mp here, given]
    rfl
  · obtain rfl := Bool.eq_false_iff.mpr without
    exact post (.index inputIndex) rfl

theorem appends_annex {annex : Option Annex} {Post : Unit → Bytes → Prop}
    (post : Post () (TaprootFields.annexPart annex)) :
    Appends (Over spent tx) (writeAnnex annex : Sighasher Bytes ε Unit) Post := by
  cases annex with
  | none => exact .pure post
  | some annex =>
    refine appends_write (array_emits _) ?_
    rw [bytes_codec.emits]
    exact post

theorem appends_singleOutput {sighash : TapSighashType} {inputIndex : Nat}
    {Post : Unit → Bytes → Prop}
    (post : (∀ output, TaprootFields.outputsOf sighash tx inputIndex = .matching output →
        output.isSome = true) →
      Post () (TaprootFields.singleOutputPart (TaprootFields.outputsOf sighash tx inputIndex))) :
    Appends (Over spent tx) ((writeSingleOutput inputIndex).gated (sighash = .single) :
      Sighasher Bytes TaprootError Unit) Post := by
  refine .gated (fun single => ?_) fun other => ?_
  · subst single
    refine .bind (appends_transaction ?_)
    refine .bind (appends_check fun txout found => appends_write (array_emits _) ?_)
    cases lookup : tx.output.toList[inputIndex]? with
    | none =>
      rw [lookup] at found
      contradiction
    | some here =>
      rw [lookup] at found
      obtain rfl : here = txout := Except.ok.inj found
      simp only [TaprootFields.outputsOf, lookup] at post
      rw [received_txOut]
      refine post fun output same => ?_
      obtain rfl := CommittedOutputs.matching.inj same
      rfl
  · cases sighash with
    | single => exact absurd rfl other
    | none | default | all | allPlusAnyoneCanPay | nonePlusAnyoneCanPay | singlePlusAnyoneCanPay =>
      exact post fun output same => by contradiction

theorem appends_leaf {leaf : Option (Taproot.TapLeafHash × UInt32)} {Post : Unit → Bytes → Prop}
    (post : Post () (TaprootFields.leafPart leaf)) :
    Appends (Over spent tx) (writeLeaf leaf : Sighasher Bytes ε Unit) Post := by
  cases leaf with
  | none => exact .pure post
  | some leaf =>
    refine .bind (appends_write (array_emits _) ?_)
    refine .bind (appends_write (readU8_codec.emits _) ?_)
    exact appends_write (readU32_codec.emits _) post

/-- A call that succeeds has written the preimage of the call's fields. -/
theorem taproot_appends (inputIndex : Nat) {prevouts : Prevouts}
    (spends : ∀ all, prevouts = .all all → all = spent) (annex : Option Annex)
    (leaf : Option (Taproot.TapLeafHash × UInt32)) (sighashType : TapSighashType) :
    Appends (Over spent tx) (taprootEncodeSigningDataTo inputIndex prevouts annex leaf sighashType :
        Sighasher Bytes TaprootError Unit) fun _ bytes =>
      ∃ fields, TaprootFields.of tx inputIndex prevouts annex leaf sighashType = some fields ∧
        (∀ output, fields.outputs = .matching output → output.isSome = true) ∧
        bytes = fields.preimage := by
  simp only [taprootEncodeSigningDataTo, TaprootFields.of]
  rcases sighashType.splitAnyonecanpayFlag with ⟨sighash, anyoneCanPay⟩
  refine .bind (appends_transaction ?_)
  refine .bind (appends_check fun _ _ => ?_)
  refine .bind (appends_write (readU8_codec.emits _) ?_)
  refine .bind (appends_write (readU8_codec.emits _) ?_)
  refine .bind (appends_write (readI32_codec.emits _) ?_)
  refine .bind (appends_write (LockTime.codec.emits _) ?_)
  refine .bind (appends_inputs spends fun inputs someInputs => ?_)
  refine .bind (appends_allOutputs inputIndex ?_)
  refine .bind (appends_write (readU8_codec.emits _) ?_)
  refine .bind (appends_input fun input someInput => ?_)
  refine .bind (appends_annex ?_)
  refine .bind (appends_singleOutput fun matched => ?_)
  refine appends_leaf ⟨{
    sighashType, version := tx.version, lockTime := tx.lockTime, inputs
    outputs := TaprootFields.outputsOf sighash tx inputIndex
    input, annex, leaf }, ?_, matched, ?_⟩
  · simp only [someInputs, someInput]
    rfl
  · simp only [TaprootFields.preimage, littleEndian_one, List.nil_append]

end

/-- A call of the segwit version 0 encoder on a cache. -/
structure SegwitV0Call where
  cache : SighashCache
  inputIndex : Nat
  scriptCode : ByteVec
  value : UInt64
  sighashType : EcdsaSighashType

/-- A call of the taproot encoder on a cache. -/
structure TaprootCall where
  cache : SighashCache
  inputIndex : Nat
  prevouts : Prevouts
  annex : Option Annex
  leafHashCodeSeparator : Option (Taproot.TapLeafHash × UInt32)
  sighashType : TapSighashType

namespace SegwitV0Call

/-- What a call writes, if it succeeds. -/
def written (call : SegwitV0Call) : Option Bytes :=
  match segwitV0EncodeSigningDataTo call.inputIndex call.scriptCode call.value call.sighashType
      (call.cache, ([] : Bytes)) with
  | (.ok (), _, bytes) => some bytes
  | (.error _, _, _) => none

omit [Hashes] in
/-- What a call commits to, unless there is no such input. -/
def fields (call : SegwitV0Call) : Option SegwitV0Fields :=
  call.cache.tx.input.toList[call.inputIndex]?.map fun txin =>
    .of call.cache.tx call.inputIndex txin call.scriptCode call.value call.sighashType

theorem written_eq {call : SegwitV0Call} {spent : List TxOut} (coherent : Coherent spent call.cache)
    (success : call.written = some bytes) :
    ∃ fields, call.fields = some fields ∧ bytes = fields.preimage ∧
      fields.sighashType = call.sighashType := by
  rw [written] at success
  split at success
  case h_2 => contradiction
  case h_1 cache log ran =>
    obtain rfl := Option.some.inj success
    obtain ⟨-, appended, same, txin, found, preimage⟩ := segwitV0_appends call.inputIndex
      call.scriptCode call.value call.sighashType call.cache [] () _ ⟨coherent, rfl⟩ ran
    exact ⟨_, by rw [fields, txIn_eq_ok.mp found]; rfl, same.trans preimage, rfl⟩

end SegwitV0Call

namespace TaprootCall

/-- What a call writes, if it succeeds. -/
def written (call : TaprootCall) : Option Bytes :=
  match taprootEncodeSigningDataTo call.inputIndex call.prevouts call.annex
      call.leafHashCodeSeparator call.sighashType (call.cache, ([] : Bytes)) with
  | (.ok (), _, bytes) => some bytes
  | (.error _, _, _) => none

omit [Hashes] in
/-- What a call commits to, unless it lacks one of the fields. -/
def fields (call : TaprootCall) : Option TaprootFields :=
  TaprootFields.of call.cache.tx call.inputIndex call.prevouts call.annex
    call.leafHashCodeSeparator call.sighashType

omit [Hashes] in
/-- All spent outputs, where they are given, are the ones the cache has been used with. -/
def Spends (spent : List TxOut) (call : TaprootCall) : Prop :=
  ∀ all, call.prevouts = .all all → all = spent

theorem written_eq {call : TaprootCall} {spent : List TxOut} (coherent : Coherent spent call.cache)
    (spends : call.Spends spent) (success : call.written = some bytes) :
    ∃ fields, call.fields = some fields ∧ bytes = fields.preimage ∧
      fields.outputs ≠ .matching none := by
  rw [written] at success
  split at success
  case h_2 => contradiction
  case h_1 cache log ran =>
    obtain rfl := Option.some.inj success
    obtain ⟨-, appended, same, fields, found, matched, preimage⟩ := taproot_appends call.inputIndex
      spends call.annex call.leafHashCodeSeparator call.sighashType call.cache [] () _
      ⟨coherent, rfl⟩ ran
    refine ⟨fields, found, same.trans preimage, fun none => ?_⟩
    have present := matched _ none
    contradiction

end TaprootCall

theorem segwitV0_binds {call call' : SegwitV0Call} {spent spent' : List TxOut}
    (reached : Reached spent call.cache) (reached' : Reached spent' call'.cache)
    (success : call.written = some bytes) (success' : call'.written = some bytes') :
    ∃ fields fields', call.fields = some fields ∧ call'.fields = some fields' ∧
      (fields = fields' → bytes = bytes') ∧
      (CollisionFree (fields.hashed ∪ fields'.hashed) → bytes = bytes' → fields = fields') := by
  obtain ⟨fields, found, rfl, type⟩ := SegwitV0Call.written_eq reached.coherent success
  obtain ⟨fields', found', rfl, type'⟩ := SegwitV0Call.written_eq reached'.coherent success'
  refine ⟨fields, fields', found, found', congrArg _, fun free same => ?_⟩
  refine SegwitV0Fields.preimage_inj free (fun sameType => ?_) same
  rw [type, type'] at sameType
  simp only [SegwitV0Call.fields, Option.map_eq_some_iff] at found found'
  obtain ⟨txin, -, rfl⟩ := found
  obtain ⟨txin', -, rfl⟩ := found'
  rw [sameType]
  exact SegwitV0Fields.of_shape call'.sighashType

theorem taproot_binds {call call' : TaprootCall} {spent spent' : List TxOut}
    (reached : Reached spent call.cache) (reached' : Reached spent' call'.cache)
    (spends : call.Spends spent) (spends' : call'.Spends spent')
    (fits : call.inputIndex < 2 ^ 32) (fits' : call'.inputIndex < 2 ^ 32)
    (success : call.written = some bytes) (success' : call'.written = some bytes') :
    ∃ fields fields', call.fields = some fields ∧ call'.fields = some fields' ∧
      (fields = fields' → bytes = bytes') ∧
      (Set.InjOn Hashes.sha256 (fields.hashed ∪ fields'.hashed) → bytes = bytes' →
        fields = fields') := by
  obtain ⟨fields, found, rfl, matched⟩ := TaprootCall.written_eq reached.coherent spends success
  obtain ⟨fields', found', rfl, matched'⟩ := TaprootCall.written_eq reached'.coherent spends' success'
  refine ⟨fields, fields', found, found', congrArg _, fun free same => ?_⟩
  exact TaprootFields.preimage_inj free
    (TaprootFields.of_shape fits fits' found found' matched matched') same

/-- Two successful calls write the same bytes if they agree on the type and on all fields
it commits to, and without hash collisions only then. Nothing else of the transactions
is seen. -/
theorem sighash_preimages_bind :
    (∀ (call call' : SegwitV0Call) (spent spent' : List TxOut) (bytes bytes' : Bytes),
      Reached spent call.cache → Reached spent' call'.cache →
      call.written = some bytes → call'.written = some bytes' →
      ∃ fields fields', call.fields = some fields ∧ call'.fields = some fields' ∧
        (fields = fields' → bytes = bytes') ∧
        (CollisionFree (fields.hashed ∪ fields'.hashed) → bytes = bytes' → fields = fields')) ∧
    (∀ (call call' : TaprootCall) (spent spent' : List TxOut) (bytes bytes' : Bytes),
      Reached spent call.cache → Reached spent' call'.cache →
      call.Spends spent → call'.Spends spent' →
      call.inputIndex < 2 ^ 32 → call'.inputIndex < 2 ^ 32 →
      call.written = some bytes → call'.written = some bytes' →
      ∃ fields fields', call.fields = some fields ∧ call'.fields = some fields' ∧
        (fields = fields' → bytes = bytes') ∧
        (Set.InjOn Hashes.sha256 (fields.hashed ∪ fields'.hashed) → bytes = bytes' →
          fields = fields')) := by
  refine ⟨?_, ?_⟩
  · intro call call' spent spent' bytes bytes' reached reached' success success'
    exact segwitV0_binds reached reached' success success'
  · intro call call' spent spent' bytes bytes' reached reached' spends spends' fits fits' success
      success'
    exact taproot_binds reached reached' spends spends' fits fits' success success'

end

section
attribute [local instance] Secp256k1.generatorOnly

/-- The outpoints of two default inputs in a row. -/
def nullOutpoints : Bytes :=
  (List.replicate 32 0 ++ [0xff, 0xff, 0xff, 0xff]) ++ (List.replicate 32 0 ++ [0xff, 0xff, 0xff, 0xff])

/-- SHA-256 of these outpoints, of that hash, and of the hash of the hash. -/
def nullOutpointsHash : ByteArr 32 :=
  ⟨[0x86, 0x22, 0x0b, 0x40, 0xc4, 0x39, 0x9a, 0x88, 0x3d, 0x03, 0x6d, 0xb2, 0xe5, 0x60, 0x9a, 0x1a,
    0x0b, 0xcc, 0x6f, 0x41, 0xcb, 0x57, 0x26, 0x2c, 0x36, 0x2f, 0x10, 0xc6, 0x91, 0xb5, 0xa9, 0x52], rfl⟩

def nullOutpointsHash2 : ByteArr 32 :=
  ⟨[0x27, 0xb0, 0xc0, 0x2f, 0x00, 0x14, 0xec, 0x96, 0x70, 0x4a, 0xd9, 0xaf, 0xe3, 0x0a, 0x56, 0xe7,
    0xcb, 0xb0, 0x3a, 0x44, 0xd0, 0x07, 0x01, 0x83, 0xfa, 0xee, 0x8f, 0x50, 0x8f, 0x57, 0x91, 0xb9], rfl⟩

def nullOutpointsHash3 : ByteArr 32 :=
  ⟨[0xf6, 0x75, 0x83, 0x37, 0xae, 0xf0, 0x1f, 0xd2, 0x94, 0xf7, 0x07, 0x1c, 0x0d, 0xca, 0xf3, 0x5f,
    0x5c, 0x91, 0xc2, 0xee, 0x03, 0x8b, 0x8b, 0x66, 0x08, 0x6b, 0xf2, 0xd5, 0xe5, 0x39, 0x48, 0x51], rfl⟩

/-- SHA-256 of two amounts `-1`, of two empty scripts and of two final sequences. -/
def nullAmountsHash : ByteArr 32 :=
  ⟨[0x5a, 0xc6, 0xa5, 0x94, 0x5f, 0x16, 0x50, 0x09, 0x11, 0x21, 0x91, 0x29, 0x98, 0x4b, 0xa8, 0xb3,
    0x87, 0xa0, 0x6f, 0x24, 0xfe, 0x38, 0x3c, 0xe4, 0xe8, 0x1a, 0x73, 0x29, 0x40, 0x65, 0x46, 0x1b], rfl⟩

def emptyScriptsHash : ByteArr 32 :=
  ⟨[0x96, 0xa2, 0x96, 0xd2, 0x24, 0xf2, 0x85, 0xc6, 0x7b, 0xee, 0x93, 0xc3, 0x0f, 0x8a, 0x30, 0x91,
    0x57, 0xf0, 0xda, 0xa3, 0x5d, 0xc5, 0xb8, 0x7e, 0x41, 0x0b, 0x78, 0x63, 0x0a, 0x09, 0xcf, 0xc7], rfl⟩

def finalSequencesHash : ByteArr 32 :=
  ⟨[0x12, 0xa3, 0xae, 0x44, 0x56, 0x61, 0xce, 0x5d, 0xee, 0x78, 0xd0, 0x65, 0x0d, 0x33, 0x36, 0x2d,
    0xec, 0x29, 0xc4, 0xf8, 0x2a, 0xf0, 0x5e, 0x7e, 0x57, 0xfb, 0x59, 0x5b, 0xbb, 0xac, 0xf0, 0xca], rfl⟩

/-- The hashes as far as the calls below need them. -/
@[reducible] def nullOutpointsHashes : Hashes :=
  { Hashes.ofEmpty with
    sha256 := fun bytes =>
      if bytes = nullOutpoints then nullOutpointsHash
      else if bytes = nullOutpointsHash.val then nullOutpointsHash2
      else if bytes = List.replicate 16 0xff then nullAmountsHash
      else if bytes = [0, 0] then emptyScriptsHash
      else if bytes = List.replicate 8 0xff then finalSequencesHash
      else Hashes.ofEmpty.sha256 bytes
    sha256d := fun bytes =>
      if bytes = nullOutpoints then nullOutpointsHash2
      else if bytes = nullOutpointsHash.val then nullOutpointsHash3
      else Hashes.ofEmpty.sha256d bytes }

attribute [local instance] nullOutpointsHashes

/-- The sequence of the second input replaced. -/
def withSecondSequence (sequence : UInt32) : Transaction :=
  { moreInputsThanOutputs with
    input := moreInputsThanOutputs.input.modify 1 fun txin => { txin with sequence } }

def noneCall (sequence : UInt32) (value : UInt64) : SegwitV0Call where
  cache := .new (withSecondSequence sequence)
  inputIndex := 0
  scriptCode := .empty
  value
  sighashType := .none

theorem noneCall_fields (sequence : UInt32) (value : UInt64) : (noneCall sequence value).fields = some {
    sighashType := .none
    version := 1
    lockTime := .fromConsensus 0
    outpoint := { txid := SighashCache.zeroHash, vout := 0xffffffff }
    scriptCode := .empty
    value
    sequence := 0xffffffff
    outpoints := some (List.replicate 2 { txid := SighashCache.zeroHash, vout := 0xffffffff })
    sequences := none
    outputs := .nothing } := rfl

theorem noneCall_hashed {fields : SegwitV0Fields} {sequence : UInt32} {value : UInt64}
    (found : (noneCall sequence value).fields = some fields) :
    fields.hashed ⊆ {nullOutpoints, nullOutpointsHash.val} := by
  rw [noneCall_fields] at found
  obtain rfl := Option.some.inj found
  rintro bytes ((⟨outpoints, some, equal⟩ | ⟨sequences, none, -⟩) | impossible)
  · obtain rfl := Option.some.inj some
    obtain rfl | rfl := equal
    · exact .inl (by decide)
    · exact .inr (by decide)
  · contradiction
  · contradiction

theorem nullOutpoints_collisionFree :
    CollisionFree {nullOutpoints, nullOutpointsHash.val} := by
  refine ⟨?_, ?_, ?_⟩
  · rintro bytes (rfl | rfl) bytes' (rfl | rfl) same
    · rfl
    · exact absurd same (by decide)
    · exact absurd same (by decide)
    · rfl
  · rintro bytes (rfl | rfl) bytes' (rfl | rfl) same
    · rfl
    · exact absurd same (by decide)
    · exact absurd same (by decide)
    · rfl
  · rintro bytes (rfl | rfl)
    · decide
    · decide

theorem noneCalls_collisionFree {fields fields' : SegwitV0Fields} {sequence sequence' : UInt32}
    {value value' : UInt64}
    (found : (noneCall sequence value).fields = some fields)
    (found' : (noneCall sequence' value').fields = some fields') :
    CollisionFree (fields.hashed ∪ fields'.hashed) := by
  have inside := Set.union_subset (noneCall_hashed found) (noneCall_hashed found')
  have free := nullOutpoints_collisionFree
  exact ⟨free.sha256.mono inside, free.sha256d.mono inside, fun bytes mem => free.nonzero _ (inside mem)⟩

/-- A key spend with a given index, which is not looked up. -/
def indexCall (inputIndex : Nat) : TaprootCall where
  cache := .new moreInputsThanOutputs
  inputIndex
  prevouts := .all [nullTxOut, nullTxOut]
  annex := none
  leafHashCodeSeparator := none
  sighashType := .none

theorem indexCall_fields (inputIndex : Nat) : (indexCall inputIndex).fields = some {
    sighashType := .none
    version := 1
    lockTime := .fromConsensus 0
    inputs := some {
      outpoints := List.replicate 2 { txid := SighashCache.zeroHash, vout := 0xffffffff }
      amounts := List.replicate 2 0xffffffffffffffff
      scriptPubkeys := List.replicate 2 .empty
      sequences := List.replicate 2 0xffffffff }
    outputs := .nothing
    input := .index inputIndex
    annex := none
    leaf := none } := rfl

theorem indexCall_hashed {fields : TaprootFields} {inputIndex : Nat}
    (found : (indexCall inputIndex).fields = some fields) (bytes : Bytes) (mem : bytes ∈ fields.hashed) :
    bytes ∈ [nullOutpoints, List.replicate 16 0xff, [0, 0], List.replicate 8 0xff] := by
  rw [indexCall_fields] at found
  obtain rfl := Option.some.inj found
  obtain ((rfl | rfl | rfl | rfl) | impossible) | impossible := mem
  · decide
  · decide
  · decide
  · decide
  · contradiction
  · contradiction

theorem indexCalls_injOn {fields fields' : TaprootFields}
    (found : (indexCall inputIndex).fields = some fields)
    (found' : (indexCall inputIndex').fields = some fields') :
    Set.InjOn Hashes.sha256 (fields.hashed ∪ fields'.hashed) := by
  have table : ∀ bytes ∈ [nullOutpoints, List.replicate 16 0xff, [0, 0], List.replicate 8 0xff],
      ∀ bytes' ∈ [nullOutpoints, List.replicate 16 0xff, [0, 0], List.replicate 8 0xff],
      Hashes.sha256 bytes = Hashes.sha256 bytes' → bytes = bytes' := by decide
  have listed (bytes : Bytes) (mem : bytes ∈ fields.hashed ∪ fields'.hashed) :=
    mem.elim (indexCall_hashed found bytes) (indexCall_hashed found' bytes)
  intro bytes mem bytes' mem'
  exact table bytes (listed bytes mem) bytes' (listed bytes' mem')

/-- Under `SIGHASH_NONE` without `SIGHASH_ANYONECANPAY` a segwit version 0 signature does
not commit to another input's sequence, and a taproot signature commits to the low 32
bits of an index only: the bytes are the same, and no hash collides. -/
theorem none_leaves_sequences_free :
    ((noneCall 1 5).written = (noneCall 2 5).written ∧ (noneCall 1 5).written.isSome = true ∧
      (noneCall 1 5).sighashType.splitAnyonecanpayFlag.2 = false ∧
      (noneCall 1 5).cache.tx.input.toList.map TxIn.sequence ≠
        (noneCall 2 5).cache.tx.input.toList.map TxIn.sequence ∧
      ∃ fields fields', (noneCall 1 5).fields = some fields ∧ (noneCall 2 5).fields = some fields' ∧
        CollisionFree (fields.hashed ∪ fields'.hashed)) ∧
    (indexCall 0).written = (indexCall 0x100000000).written ∧ (indexCall 0).written.isSome = true ∧
    ∃ fields fields', (indexCall 0).fields = some fields ∧
      (indexCall 0x100000000).fields = some fields' ∧ fields ≠ fields' ∧
      Set.InjOn Hashes.sha256 (fields.hashed ∪ fields'.hashed) := by
  refine ⟨⟨by decide +kernel, by decide +kernel, rfl, by decide +kernel, _, _, noneCall_fields 1 5,
    noneCall_fields 2 5, noneCalls_collisionFree (noneCall_fields 1 5) (noneCall_fields 2 5)⟩,
    by decide, by decide, _, _, indexCall_fields _, indexCall_fields _, ?_,
    indexCalls_injOn (indexCall_fields _) (indexCall_fields _)⟩
  intro same
  have indices := congrArg TaprootFields.input same
  contradiction

def anyoneCanPayCall (value : UInt64) (outputs : Vec TxOut) : TaprootCall where
  cache := .new { moreInputsThanOutputs with output := outputs }
  inputIndex := 1
  prevouts := .one 1 { value, scriptPubkey := .empty }
  annex := none
  leafHashCodeSeparator := none
  sighashType := .nonePlusAnyoneCanPay

theorem anyoneCanPayCall_fields (value : UInt64) (outputs : Vec TxOut) :
    (anyoneCanPayCall value outputs).fields = some {
      sighashType := .nonePlusAnyoneCanPay
      version := 1
      lockTime := .fromConsensus 0
      inputs := none
      outputs := .nothing
      input := .own { txid := SighashCache.zeroHash, vout := 0xffffffff } value .empty 0xffffffff
      annex := none
      leaf := none } := rfl

/-- Sequences and outputs that are not committed to leave the bytes alone; amounts do not. -/
theorem uncommitted_fields_are_free :
    (noneCall 1 5).written = (noneCall 2 5).written ∧ (noneCall 1 5).written ≠ (noneCall 1 6).written ∧
    (anyoneCanPayCall 5 .empty).written = (anyoneCanPayCall 5 (.singleton nullTxOut)).written ∧
    (anyoneCanPayCall 5 .empty).written ≠ (anyoneCanPayCall 6 .empty).written := by
  obtain ⟨segwit, taproot⟩ := sighash_preimages_bind
  obtain ⟨bytes₁, success₁⟩ := Option.isSome_iff_exists.mp
    (show (noneCall 1 5).written.isSome by decide)
  obtain ⟨bytes₂, success₂⟩ := Option.isSome_iff_exists.mp
    (show (noneCall 2 5).written.isSome by decide)
  obtain ⟨bytes₃, success₃⟩ := Option.isSome_iff_exists.mp
    (show (noneCall 1 6).written.isSome by decide)
  obtain ⟨bytes₄, success₄⟩ := Option.isSome_iff_exists.mp
    (show (anyoneCanPayCall 5 .empty).written.isSome by decide)
  obtain ⟨bytes₅, success₅⟩ := Option.isSome_iff_exists.mp
    (show (anyoneCanPayCall 5 (.singleton nullTxOut)).written.isSome by decide)
  obtain ⟨bytes₆, success₆⟩ := Option.isSome_iff_exists.mp
    (show (anyoneCanPayCall 6 .empty).written.isSome by decide)
  have spends (value : UInt64) (outputs : Vec TxOut) : (anyoneCanPayCall value outputs).Spends [] :=
    fun all impossible => by contradiction
  have fits (value : UInt64) (outputs : Vec TxOut) :
      (anyoneCanPayCall value outputs).inputIndex < 2 ^ 32 := Nat.one_lt_two_pow (by decide)
  rw [success₁, success₂, success₃, success₄, success₅, success₆]
  refine ⟨?_, ?_, ?_, ?_⟩
  · obtain ⟨fields, fields', found, found', same, -⟩ := segwit _ _ [] [] _ _ (.new _ _) (.new _ _)
      success₁ success₂
    exact congrArg some (same (Option.some.inj (found.symm.trans found')))
  · obtain ⟨fields, fields', found, found', -, binds⟩ := segwit _ _ [] [] _ _ (.new _ _) (.new _ _)
      success₁ success₃
    intro equal
    have same := binds (noneCalls_collisionFree found found') (Option.some.inj equal)
    rw [← Option.some_inj, ← found, ← found', noneCall_fields, noneCall_fields] at same
    exact absurd same (by decide)
  · obtain ⟨fields, fields', found, found', same, -⟩ := taproot _ _ [] [] _ _ (.new _ _) (.new _ _)
      (spends _ _) (spends _ _) (fits _ _) (fits _ _) success₄ success₅
    exact congrArg some (same (Option.some.inj (found.symm.trans found')))
  · obtain ⟨fields, fields', found, found', -, binds⟩ := taproot _ _ [] [] _ _ (.new _ _) (.new _ _)
      (spends _ _) (spends _ _) (fits _ _) (fits _ _) success₄ success₆
    intro equal
    have nothing : fields.hashed ∪ fields'.hashed = ∅ := by
      rw [anyoneCanPayCall_fields] at found found'
      obtain rfl := Option.some.inj found
      obtain rfl := Option.some.inj found'
      simp [TaprootFields.hashed, TaprootFields.hashedInputs, TaprootFields.hashedOutputs,
        TaprootFields.hashedAnnex]
    have same := binds (nothing ▸ Set.injOn_empty _) (Option.some.inj equal)
    rw [← Option.some_inj, ← found, ← found', anyoneCanPayCall_fields, anyoneCanPayCall_fields] at same
    exact absurd same (by decide)

end
end Litecoin.Sighash
