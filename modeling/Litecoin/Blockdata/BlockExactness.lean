import Litecoin.Blockdata.Block
import Litecoin.Blockdata.TransactionExactness
import Litecoin.Mimblewimble.Coherence
import Litecoin.Wire.Run

/-! The byte grammar of blocks. The reader rederives from the bytes whether an
extension block may follow, and comes to the writer's decision. -/
namespace Litecoin.Blockdata
open Wire Consensus Mimblewimble

namespace Header

def wire (header : Header) : Bytes :=
  littleEndian 4 header.version.toUInt32.toNat ++ (header.prevBlockhash.val ++
  (header.merkleRoot.val ++ (littleEndian 4 header.time.toNat ++
  (littleEndian 4 header.bits.toNat ++ littleEndian 4 header.nonce.toNat))))

theorem codec : Codec consensusEncode consensusDecodeFromFiniteReader wire where
  emits header := by
    simp only [consensusEncode, readI32_codec.emits, (readExact_codec _).emits, readU32_codec.emits,
      Emission.written_append, wire, List.append_assoc]
  reads := by
    refine (Reads.record (Reads.field version readI32_codec.reads fun _ _ =>
      Reads.field prevBlockhash (readExact_codec 32).reads fun _ _ =>
      Reads.field merkleRoot (readExact_codec 32).reads fun _ _ =>
      Reads.field time readU32_codec.reads fun _ _ =>
      Reads.field bits readU32_codec.reads fun _ _ =>
      Reads.field nonce readU32_codec.reads fun _ _ => Reads.done ?_)).congr ?_ ?_
    · intro header
      cases header
      simp [and_assoc]
    · intro header
      simp only [and_self]
    · intro header _
      simp only [wire, List.append_nil]

end Header

namespace MwebBlockHeader

def wire (header : MwebBlockHeader) : Bytes :=
  varintWire header.height.toNat ++ (header.outputRoot.val ++ (header.kernelRoot.val ++
  (header.leafsetRoot.val ++ (header.kernelOffset.val ++ (header.stealthOffset.val ++
  (varintWire header.outputMmrSize.toNat ++ varintWire header.kernelMmrSize.toNat))))))

theorem decodeHeight_reads :
    Reads decodeHeight (fun height => varintWire height.toNat) (fun _ => True) := by
  intro bytes height rest
  simp only [decodeHeight, Decoder.bind_eq_ok, Decoder.ite_eq_ok, Decoder.pure_eq_ok,
    Decoder.fail_eq_ok, readCompactVarint_codec.reads _ _ _, Function.comp_apply, true_and, and_false,
    or_false]
  constructor
  · rintro ⟨raw, _, rfl, fits, rfl, rfl⟩
    rw [UInt64.toNat_toUInt32, Nat.mod_eq_of_lt fits]
  · rintro rfl
    refine ⟨height.toUInt64, rest, ?_, ?_, ?_, rfl⟩
    · rw [UInt32.toNat_toUInt64]
    · rw [UInt32.toNat_toUInt64]
      exact height.toNat_lt
    · exact UInt32.toUInt32_toUInt64 height

theorem codec : Codec consensusEncode consensusDecodeFromFiniteReader wire where
  emits header := by
    simp only [consensusEncode, readCompactVarint_codec.emits, (readExact_codec _).emits,
      Emission.written_append, Function.comp_apply, UInt32.toNat_toUInt64, wire, List.append_assoc]
  reads := by
    refine (Reads.record (Reads.field height decodeHeight_reads fun _ _ =>
      Reads.field outputRoot (readExact_codec 32).reads fun _ _ =>
      Reads.field kernelRoot (readExact_codec 32).reads fun _ _ =>
      Reads.field leafsetRoot (readExact_codec 32).reads fun _ _ =>
      Reads.field kernelOffset (readExact_codec 32).reads fun _ _ =>
      Reads.field stealthOffset (readExact_codec 32).reads fun _ _ =>
      Reads.field outputMmrSize readCompactVarint_codec.reads fun _ _ =>
      Reads.field kernelMmrSize readCompactVarint_codec.reads fun _ _ =>
      Reads.done ?_)).congr ?_ ?_
    · intro header
      cases header
      simp [and_assoc]
    · intro header
      simp only [and_self]
    · intro header _
      simp only [wire, Function.comp_apply, List.append_nil]

end MwebBlockHeader

section
variable [Secp256k1]

namespace MwebBlock

def wire (block : MwebBlock) : Bytes := block.header.wire ++ block.txBody.wire

def Valid (block : MwebBlock) : Prop := block.txBody.Valid

theorem reads [Secp256k1.Canonical] : Reads consensusDecodeFromFiniteReader wire Valid := by
  refine (Reads.record (Reads.field header MwebBlockHeader.codec.reads fun _ _ =>
    Reads.field txBody TxBody.reads fun _ _ => Reads.done ?_)).congr ?_ ?_
  · intro block
    cases block
    simp
  · intro block
    simp only [Valid, true_and, and_true]
  · intro block _
    simp only [wire, List.append_nil]

theorem consensusEncode_eq {block : MwebBlock} (complete : block.txBody.Complete) :
    block.consensusEncode = .written block.wire := by
  rw [consensusEncode, MwebBlockHeader.codec.emits, TxBody.consensusEncode_eq complete,
    Emission.written_append, wire]

end MwebBlock

namespace Transaction

theorem decoderExtends [Secp256k1.Canonical] :
    Decoder.Extends consensusDecodeFromFiniteReader := by
  intro bytes tx rest read suffix
  rw [consensusDecode_eq_ok] at read ⊢
  obtain ⟨plain, rfl⟩ | ⟨segwit, mweb, presence, extended, rfl⟩ := read
  · exact .inl ⟨plain, List.append_assoc _ _ _⟩
  · exact .inr ⟨segwit, mweb, presence, extended, List.append_assoc _ _ _⟩

theorem complete_of_encoded {tx : Transaction} (emitted : tx.consensusEncode = .ok result) :
    ∀ mw ∈ tx.mwTx, mw.body.Complete := by
  intro mw member
  have mweb : tx.hasMweb = true := by
    rw [hasMweb, Option.isSome_of_mem member, Bool.true_or]
  obtain ⟨count, bytes⟩ := result
  rw [consensusEncode, mweb, Bool.not_true, Bool.and_false, if_neg Bool.false_ne_true] at emitted
  simp only [Emission.append_eq_ok] at emitted
  obtain ⟨_, _, _, _, ⟨_, _, _, _, _, ⟨_, _, _, _, _, part, _⟩, _⟩, _⟩ := emitted
  rw [Emission.gated, if_pos rfl, encodeMwebPart, Option.mem_def.mp member] at part
  obtain ⟨_, _, _, _, _, body, _⟩ := Emission.append_eq_ok.mp part
  exact Mimblewimble.Transaction.complete_of_encoded body

/-- The writer only succeeds on transactions it writes as their image. -/
theorem consensusEncode_eq_ok {tx : Transaction} (emitted : tx.consensusEncode = .ok result) :
    tx.consensusEncode = .written tx.wire :=
  consensusEncode_eq (complete_of_encoded emitted)

/-- `deserialize(serialize(tx))` returns `tx`. -/
def RoundTrips (tx : Transaction) : Prop :=
  ∃ bytes, serialize tx.consensusEncode = .ok bytes ∧
    deserialize consensusDecodeFromFiniteReader bytes = .ok tx

theorem RoundTrips.emits {tx : Transaction} (back : tx.RoundTrips) :
    tx.consensusEncode = .written tx.wire := by
  obtain ⟨bytes, written, _⟩ := back
  obtain ⟨count, emitted⟩ := Emission.toBytes_eq_ok.mp written
  exact consensusEncode_eq_ok emitted

theorem RoundTrips.read [Secp256k1.Canonical] {tx : Transaction} (back : tx.RoundTrips)
    (rest : Bytes) : consensusDecodeFromFiniteReader (tx.wire ++ rest) = .ok (tx, rest) := by
  obtain ⟨bytes, written, read⟩ := id back
  rw [back.emits, serialize_written] at written
  rw [deserialize_eq_ok] at read
  subst written
  exact decoderExtends read rest

end Transaction

namespace Block

def RoundTrips (block : Block) : Prop :=
  ∃ bytes, serialize block.consensusEncode = .ok bytes ∧
    deserialize consensusDecodeFromFiniteReader bytes = .ok block

/-- Only the last transaction may be a HogEx. -/
def HogExLast (block : Block) : Prop := ∀ tx ∈ block.txdata.toList.dropLast, tx.isHogEx = false

def carriesMweb (block : Block) : Bool :=
  blockCarriesMweb block.header.version block.txdata.toList

def extensionWire (block : Block) : Bytes :=
  match block.mwebBlock with
  | some mw => 1 :: mw.wire
  | none => [0]

def wire (block : Block) : Bytes :=
  block.header.wire ++ (vecWire Transaction.wire block.txdata ++
  announced block.carriesMweb block.extensionWire)

theorem consensusEncode_eq {block : Block}
    (transactions : ∀ tx ∈ block.txdata.toList, tx.consensusEncode = .written tx.wire)
    (complete : ∀ mw ∈ block.mwebBlock, mw.txBody.Complete) :
    block.consensusEncode = .written block.wire := by
  rw [consensusEncode, Header.codec.emits, encodeVec_eq transactions]
  cases extension : block.mwebBlock with
  | none =>
    simp only [readU8_codec.emits, littleEndian_one, Emission.gated_written,
      Emission.written_append, wire, extensionWire, extension, List.append_assoc]
    rfl
  | some mw =>
    simp only [readU8_codec.emits, littleEndian_one,
      MwebBlock.consensusEncode_eq (complete mw extension), Emission.gated_written,
      Emission.written_append, wire, extensionWire, extension, List.append_assoc]
    rfl

theorem decodeMwebBlock_extension [Secp256k1.Canonical] {block : Block}
    (gate : block.mwebBlock.isSome → block.carriesMweb)
    (valid : ∀ mw ∈ block.mwebBlock, mw.Valid) (rest : Bytes) :
    decodeMwebBlock block.header.version block.txdata.toList
      (announced block.carriesMweb block.extensionWire ++ rest) = .ok (block.mwebBlock, rest) := by
  rw [decodeMwebBlock]
  change (if block.carriesMweb then _ else _ : Decoder Error (Option MwebBlock)) _ = _
  cases carries : block.carriesMweb with
  | false =>
    cases extension : block.mwebBlock with
    | none => rfl
    | some mw =>
      rw [extension, carries] at gate
      exact absurd (gate rfl) Bool.false_ne_true
  | true =>
    simp only [if_true, announced, extensionWire, Decoder.bind_eq_ok, Decoder.ite_eq_ok,
      Decoder.map_eq_ok, Decoder.pure_eq_ok, readU8_codec.reads _ _ _, littleEndian_one, true_and]
    cases extension : block.mwebBlock with
    | none => exact ⟨0, rest, rfl, .inr ⟨by decide, rfl, rfl⟩⟩
    | some mw =>
      exact ⟨1, mw.wire ++ rest, rfl,
        .inl ⟨by decide, mw, MwebBlock.reads.read (valid mw extension) rest, rfl⟩⟩

theorem hogExLast_iff (block : Block) : block.HogExLast ↔
    ¬ (block.txdata.toList.take (block.txdata.toList.length - 1)).any (·.isHogEx) = true := by
  rw [HogExLast, List.dropLast_eq_take, Bool.not_eq_true, List.any_eq_false]
  simp

/-- Blocks of transactions that round-trip round-trip themselves when their extension
block can be read, and accepted blocks only carry an extension behind a HogEx. -/
theorem roundTrips_and_gated [Secp256k1.Canonical] :
    (∀ block : Block, (∀ tx ∈ block.txdata.toList, tx.RoundTrips) → block.HogExLast →
      (block.mwebBlock.isSome → blockCarriesMweb block.header.version block.txdata.toList) →
      (∀ mw ∈ block.mwebBlock, ∃ bytes rest,
        MwebBlock.consensusDecodeFromFiniteReader bytes = .ok (mw, rest)) → block.RoundTrips) ∧
    ∀ bytes (block : Block) rest, consensusDecodeFromFiniteReader bytes = .ok (block, rest) →
      block.HogExLast ∧ (block.mwebBlock.isSome →
        block.header.version &&& mwebVersionBit ≠ 0 ∧ 2 ≤ block.txdata.toList.length ∧
        ∃ last, block.txdata.toList.getLast? = some last ∧ last.isHogEx = true) := by
  constructor
  · intro block transactions last gate extension
    have valid : ∀ mw ∈ block.mwebBlock, mw.Valid := by
      intro mw member
      obtain ⟨bytes, rest, read⟩ := extension mw member
      exact ((MwebBlock.reads _ _ _).mp read).1
    have emitted := consensusEncode_eq (fun tx member => (transactions tx member).emits)
      fun mw member => (valid mw member).complete
    refine ⟨block.wire, by rw [emitted, serialize_written], ?_⟩
    rw [deserialize_eq_ok]
    have transactionsRead := decodeVec_images (fun tx member => (transactions tx member).read)
    have extensionRead := decodeMwebBlock_extension gate valid []
    simp only [consensusDecodeFromFiniteReader, wire, Decoder.bind_eq_ok, Decoder.ite_eq_ok,
      Decoder.fail_eq_ok, Decoder.pure_eq_ok, Header.codec.reads _ _ _, true_and, and_false, false_or]
    refine ⟨block.header, _, rfl, block.txdata, _, transactionsRead _, (hogExLast_iff block).mp last,
      block.mwebBlock, [], ?_, rfl, rfl⟩
    rwa [List.append_nil] at extensionRead
  · intro bytes block rest read
    simp only [consensusDecodeFromFiniteReader, Decoder.bind_eq_ok, Decoder.ite_eq_ok,
      Decoder.fail_eq_ok, Decoder.pure_eq_ok, and_false, false_or] at read
    obtain ⟨header, _, _, txdata, _, _, last, mwebBlock, _, extension, rfl, rfl⟩ := read
    refine ⟨(hogExLast_iff _).mpr last, fun present => ?_⟩
    by_cases carries : blockCarriesMweb header.version txdata.toList = true
    · simp only [blockCarriesMweb, Bool.and_eq_true, decide_eq_true_eq, bne_iff_ne, ne_eq,
        Option.any_eq_true] at carries
      obtain ⟨⟨count, version⟩, last, found, hogEx⟩ := carries
      exact ⟨version, count, last, found, hogEx⟩
    · rw [decodeMwebBlock, if_neg carries, Decoder.pure_eq_ok] at extension
      rw [← extension.1] at present
      contradiction

end Block
end

namespace Block

/-- An empty transaction before a HogEx, with an extension block of one kernel. -/
def extended (kernel : @Kernel Secp256k1.generatorOnly) : @Block Secp256k1.generatorOnly :=
  letI := Secp256k1.generatorOnly
  { header := { version := 0x20000000, prevBlockhash := .filled 32 0, merkleRoot := .filled 32 0,
                time := 0, bits := 0, nonce := 0 }
    txdata := ⟨[{ Transaction.emptyPeg with output := .empty, isHogEx := false },
      Transaction.emptyPeg], by decide⟩
    mwebBlock := some {
      header := { height := 0, outputRoot := .filled 32 0, kernelRoot := .filled 32 0,
                  leafsetRoot := .filled 32 0, kernelOffset := .filled 32 0, stealthOffset := .filled 32 0,
                  outputMmrSize := 0, kernelMmrSize := 0 }
      txBody := { inputs := .empty, outputs := .empty, kernels := ⟨[kernel], by simp⟩ } } }

theorem extended_transactions (kernel : @Kernel Secp256k1.generatorOnly) :
    letI := Secp256k1.generatorOnly
    ∀ tx ∈ (extended kernel).txdata.toList, tx.RoundTrips := by
  intro tx member
  obtain rfl | member := List.mem_cons.mp member
  · exact ⟨[1, 0, 0, 0, 0, 1, 0, 0, 0, 0, 0, 0], by decide, by decide⟩
  · obtain rfl := List.mem_singleton.mp member
    exact ⟨Transaction.emptyPegBytes 8, by decide, by decide⟩

theorem extended_hogExLast (kernel : @Kernel Secp256k1.generatorOnly) :
    letI := Secp256k1.generatorOnly
    (extended kernel).HogExLast := by
  intro tx member
  obtain rfl := List.mem_singleton.mp member
  rfl

def minimalExtensionBytes : Bytes := List.replicate 165 0 ++ [1] ++ List.replicate 98 0

theorem minimalExtension_read :
    letI := Secp256k1.generatorOnly
    MwebBlock.consensusDecodeFromFiniteReader minimalExtensionBytes =
      .ok ((extended minimalKernel).mwebBlock.get rfl, []) := by
  decide +kernel

theorem extended_roundTrips : @RoundTrips Secp256k1.generatorOnly (extended minimalKernel) := by
  let := Secp256k1.generatorOnly
  have := Secp256k1.generatorOnly_lawful
  refine roundTrips_and_gated.1 _ (extended_transactions _) (extended_hogExLast _)
    (fun _ => by decide) fun mw member => ?_
  obtain rfl := Option.some.inj member
  exact ⟨_, _, minimalExtension_read⟩

/-- A kernel that pegs out to nowhere. -/
def nowhereKernel : @Kernel Secp256k1.generatorOnly :=
  letI := Secp256k1.generatorOnly
  { minimalKernel with
    features := KernelFeatures.pegoutFeatureBit
    pegouts := ⟨[{ amount := 0, scriptPubKey := .empty }], by decide⟩ }

/-- It is written, and the reader refuses it. -/
theorem nowhere_wire :
    letI := Secp256k1.generatorOnly
    serialize (extended nowhereKernel).consensusEncode = .ok (extended nowhereKernel).wire ∧
    deserialize Block.consensusDecodeFromFiniteReader (extended nowhereKernel).wire =
      .error (.parseFailed "Pegout scriptPubKey must not be empty") := by
  decide +kernel

theorem error_ne_ok {e : ε} {a : α} : (Except.error e : Except ε α) ≠ .ok a := by
  simp

/-- The writer puts an extension block on the wire that its reader refuses. -/
theorem nowhere_not_roundTrips :
    letI := Secp256k1.generatorOnly
    (∀ tx ∈ (extended nowhereKernel).txdata.toList, tx.RoundTrips) ∧
    (extended nowhereKernel).HogExLast ∧
    blockCarriesMweb (extended nowhereKernel).header.version
      (extended nowhereKernel).txdata.toList ∧
    ¬ (extended nowhereKernel).RoundTrips := by
  refine ⟨extended_transactions _, extended_hogExLast _, rfl, ?_⟩
  rintro ⟨bytes, written, read⟩
  rw [← Except.ok.inj (nowhere_wire.1.symm.trans written)] at read
  exact error_ne_ok (nowhere_wire.2.symm.trans read)

end Block

section
variable [Secp256k1]

namespace Transaction

/-- What the documentation of the two ids says of a transaction without witnesses: the
same bytes are hashed, so the ids coincide and the witness tree has the txid as leaf. -/
def WtxidIsTxid (tx : Transaction) : Prop :=
  serialize tx.consensusEncode = serialize tx.txidPreimage ∧
  ∀ sha256d, tx.computeWtxid sha256d = tx.computeTxid sha256d ∧
    ∀ (block : Block) hashes i, block.witnessHashes sha256d = .ok hashes → 0 < i →
      block.txdata.toList[i]? = some tx →
      ∃ txid, tx.computeTxid sha256d = .ok txid ∧ hashes[i]? = some txid

end Transaction

theorem Block.witnessHashes_getElem? {block : Block} (hashed : block.witnessHashes sha256d = .ok hashes)
    (later : 0 < i) (found : block.txdata.toList[i]? = some tx) :
    ∃ wtxid, tx.computeWtxid sha256d = .ok wtxid ∧ hashes[i]? = some wtxid := by
  have indexed : block.txdata.toList.zipIdx[i]? = some (tx, i) := by
    simp [found]
  have each := mapM_forall₂ hashed
  obtain ⟨inside, at_⟩ := List.getElem?_eq_some_iff.mp indexed
  have placed : i < hashes.length := each.length_eq ▸ inside
  have computed := each.get inside placed
  simp only [List.get_eq_getElem, at_, Nat.ne_of_gt later, if_false] at computed
  exact ⟨hashes.get ⟨i, placed⟩, computed, List.getElem?_eq_getElem placed⟩

namespace Transaction

theorem plainWire_ne_extendedWire {tx : Transaction} (nonempty : tx.input.isEmpty = false) :
    tx.extendedWire segwit mweb presence ≠ tx.plainWire := by
  intro same
  obtain ⟨first, tail, image, nonzero⟩ := vecWire_head nonempty
  rw [extendedWire, plainWire, List.append_cancel_left_eq, image] at same
  simp only [List.cons_append, List.cons.injEq] at same
  exact nonzero same.1.symm

/-- The two ids of a transaction without witnesses are computed from the same bytes
exactly when it carries nothing of MWEB. -/
theorem wtxidIsTxid_iff (tx : Transaction) (inputs : tx.input.isEmpty = false)
    (witnesses : ∀ txin ∈ tx.input.toList, txin.witness.isEmpty = true) :
    tx.WtxidIsTxid ↔ tx.mwTx = none ∧ tx.isHogEx = false := by
  have bare : ∀ txin ∈ tx.input.toList, txin.witness = .new := fun txin member =>
    (Witness.isEmpty_iff _).mp (witnesses txin member)
  constructor
  · rintro ⟨same, _⟩
    rw [txidPreimage_eq, (serialize_written _ _).mpr rfl] at same
    obtain ⟨count, emitted⟩ := Emission.toBytes_eq_ok.mp same
    have image := consensusEncode_eq_ok emitted
    rw [image, serialize_written] at same
    by_contra mweb
    have hasMweb : tx.hasMweb = true := by
      rw [Transaction.hasMweb, Bool.or_eq_true]
      rcases mwTx : tx.mwTx with _ | mwTx
      · right
        cases hogEx : tx.isHogEx with
        | false => exact absurd ⟨mwTx, hogEx⟩ mweb
        | true => rfl
      · exact .inl rfl
    rw [wire, hasMweb, Bool.not_true, Bool.and_false, if_neg Bool.false_ne_true] at same
    exact plainWire_ne_extendedWire inputs same
  · rintro ⟨absent, plain⟩
    have form : tx.Plain := ⟨inputs, bare, absent, plain⟩
    have same : serialize tx.consensusEncode = serialize tx.txidPreimage := by
      rw [consensusEncode_eq form.complete, form.wire_eq, txidPreimage_eq]
    refine ⟨same, fun sha256d => ?_⟩
    have ids : tx.computeWtxid sha256d = tx.computeTxid sha256d := by
      rw [computeWtxid, computeTxid, same]
    refine ⟨ids, fun block hashes i hashed later found => ?_⟩
    rw [← ids]
    exact Block.witnessHashes_getElem? hashed later found

end Transaction
end

namespace Transaction

/-- One input without a witness. -/
def spending (isHogEx : Bool) : @Transaction Secp256k1.generatorOnly :=
  letI := Secp256k1.generatorOnly
  { emptyPeg with
    input := ⟨[{ previousOutput := { txid := .filled 32 0, vout := 0 }, scriptSig := .empty,
                 sequence := 0, witness := .new }], by decide⟩
    isHogEx := isHogEx }

theorem spending_wtxid : @WtxidIsTxid Secp256k1.generatorOnly (spending false) := by
  let := Secp256k1.generatorOnly
  exact (wtxidIsTxid_iff (spending false) rfl (by decide)).mpr ⟨rfl, rfl⟩

/-- The flag byte of a HogEx is hashed into its wtxid. -/
theorem hogEx_wtxid : ¬ @WtxidIsTxid Secp256k1.generatorOnly (spending true) := by
  intro law
  have differs : serialize (@consensusEncode Secp256k1.generatorOnly (spending true)) ≠
      serialize (@txidPreimage Secp256k1.generatorOnly (spending true)) := by
    decide
  exact differs law.1

end Transaction
end Litecoin.Blockdata
