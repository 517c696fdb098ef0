import Litecoin.Blockdata.Transaction

/-! The byte grammar of transactions. A transaction is read from its plain form or
from one of the extended forms, which a flag byte and a presence byte select. -/
namespace Litecoin.Blockdata
open Wire Consensus

namespace LockTime

def wire (lockTime : LockTime) : Bytes := littleEndian 4 lockTime.toConsensusU32.toNat

theorem fromConsensus_toConsensusU32 (lockTime : LockTime) :
    fromConsensus lockTime.toConsensusU32 = lockTime := by
  cases lockTime with
  | blocks height => exact dif_pos height.property
  | seconds time => exact dif_neg time.property

theorem toConsensusU32_fromConsensus (n : UInt32) : (fromConsensus n).toConsensusU32 = n := by
  rw [fromConsensus]
  split <;> rfl

theorem codec : Codec consensusEncode consensusDecode wire where
  emits lockTime := readU32_codec.emits _
  reads := by
    refine (readU32_codec.reads.map fromConsensus toConsensusU32 ?_ ?_).congr ?_ ?_
    · exact fun n _ => toConsensusU32_fromConsensus n
    · exact fun lockTime _ => fromConsensus_toConsensusU32 lockTime
    · exact fun _ => Iff.rfl
    · exact fun _ _ => rfl

end LockTime

namespace OutPoint

def wire (outPoint : OutPoint) : Bytes := outPoint.txid.val ++ littleEndian 4 outPoint.vout.toNat

theorem codec : Codec consensusEncode consensusDecode wire where
  emits outPoint := by
    simp only [consensusEncode, (readExact_codec _).emits, readU32_codec.emits,
      Emission.written_append]
    rfl
  reads := by
    refine (Reads.record (Reads.field txid (readExact_codec 32).reads fun _ _ =>
      Reads.field vout readU32_codec.reads fun _ _ => Reads.done ?_)).congr ?_ ?_
    · intro outPoint
      cases outPoint
      simp
    · intro outPoint
      simp only [and_self]
    · intro outPoint _
      simp only [wire, List.append_nil]

end OutPoint

namespace TxIn

def wire (txin : TxIn) : Bytes :=
  txin.previousOutput.wire ++ (bytesWire txin.scriptSig ++ littleEndian 4 txin.sequence.toNat)

/-- An input as it stands before its witness is read. -/
def bare (txin : TxIn) : TxIn := { txin with witness := .new }

theorem wire_bare (txin : TxIn) : txin.bare.wire = txin.wire := rfl

theorem bare_eq_iff (txin : TxIn) : txin.bare = txin ↔ txin.witness = .new := by
  cases txin
  simp [bare, eq_comm]

theorem consensusEncode_eq (txin : TxIn) : txin.consensusEncode = .written txin.wire := by
  simp only [consensusEncode, OutPoint.codec.emits, bytes_codec.emits, readU32_codec.emits,
    Emission.written_append, wire, List.append_assoc]

theorem reads : Reads consensusDecodeFromFiniteReader wire (fun txin => txin.witness = .new) := by
  intro bytes txin rest
  simp only [consensusDecodeFromFiniteReader, Decoder.bind_eq_ok, Decoder.pure_eq_ok,
    OutPoint.codec.reads _ _ _, decodeBytes_reads _ _ _, readU32_codec.reads _ _ _, true_and]
  constructor
  · rintro ⟨_, _, rfl, _, _, rfl, _, _, rfl, rfl, rfl⟩
    simp only [wire, List.append_assoc, and_self]
  · rintro ⟨bare, rfl⟩
    refine ⟨txin.previousOutput, _, by rw [wire, List.append_assoc], txin.scriptSig, _,
      List.append_assoc _ _ _, txin.sequence, rest, rfl, ?_, rfl⟩
    rw [← bare]

end TxIn

namespace TxOut

def wire (txout : TxOut) : Bytes := littleEndian 8 txout.value.toNat ++ bytesWire txout.scriptPubkey

theorem codec : Codec consensusEncode consensusDecodeFromFiniteReader wire where
  emits txout := by
    simp only [consensusEncode, readU64_codec.emits, bytes_codec.emits, Emission.written_append]
    rfl
  reads := by
    refine (Reads.record (Reads.field value readU64_codec.reads fun _ _ =>
      Reads.field scriptPubkey decodeBytes_reads fun _ _ => Reads.done ?_)).congr ?_ ?_
    · intro txout
      cases txout
      simp
    · intro txout
      simp only [and_self]
    · intro txout _
      simp only [wire, List.append_nil]

end TxOut

namespace Transaction

theorem fillWitnesses_eq_ok {input : List TxIn}
    {filled : { filled : List TxIn // filled.length = input.length }} :
    fillWitnesses input bytes = .ok (filled, rest) ↔
      filled.val.map TxIn.bare = input.map TxIn.bare ∧
      (∀ txin ∈ filled.val, txin.witness.Valid) ∧
      bytes = filled.val.flatMap (fun txin => txin.witness.wire) ++ rest := by
  induction input generalizing bytes rest with
  | nil =>
    obtain ⟨filled, count⟩ := filled
    obtain rfl := List.eq_nil_of_length_eq_zero count
    simp [fillWitnesses]
  | cons txin input ih =>
    obtain ⟨filled, count⟩ := filled
    cases filled with
    | nil => simp at count
    | cons first filled =>
      simp only [fillWitnesses, Decoder.bind_eq_ok, Decoder.pure_eq_ok, Witness.reads _ _ _, ih,
        Subtype.mk.injEq, List.cons.injEq, List.map_cons, List.forall_mem_cons, List.flatMap_cons,
        List.append_assoc]
      constructor
      · rintro ⟨witness, _, ⟨valid, rfl⟩, ⟨others, _⟩, _, ⟨same, valids, rfl⟩, ⟨rfl, rfl⟩, rfl⟩
        exact ⟨⟨rfl, same⟩, ⟨valid, valids⟩, rfl⟩
      · rintro ⟨⟨sameFirst, same⟩, ⟨valid, valids⟩, rfl⟩
        have count' : filled.length = input.length := by simpa using count
        refine ⟨first.witness, _, ⟨valid, rfl⟩, ⟨filled, count'⟩, rest, ⟨same, valids, rfl⟩,
          ⟨?_, rfl⟩, rfl⟩
        cases first
        cases txin
        simp only [TxIn.bare, TxIn.mk.injEq, and_true] at sameFirst ⊢
        exact ⟨sameFirst.1.symm, sameFirst.2.1.symm, sameFirst.2.2.symm⟩

/-- The flag bytes that are read. -/
theorem flag_supported (flag : UInt8) :
    ¬ (flag &&& (flagsSegwit ||| flagsMwebTx) ≠ flag ∨ flag = 0) ↔
      ∃ segwit mweb, (segwit || mweb) = true ∧ flag = flagByte segwit mweb := by
  obtain ⟨bits⟩ := flag
  revert bits
  decide

theorem flagByte_segwit (segwit mweb : Bool) :
    flagByte segwit mweb &&& flagsSegwit ≠ 0 ↔ segwit = true := by
  cases segwit <;> cases mweb <;> decide

theorem flagByte_mweb (segwit mweb : Bool) :
    flagByte segwit mweb &&& flagsMwebTx ≠ 0 ↔ mweb = true := by
  cases segwit <;> cases mweb <;> decide

def witnessesWire (input : Vec TxIn) : Bytes :=
  input.toList.flatMap fun txin => txin.witness.wire

/-- The witnesses that can stand behind a flag: none, or a stack for each input of
which one has an element. -/
def WitnessPart (segwit : Bool) (input : Vec TxIn) : Prop :=
  if segwit then (∀ txin ∈ input.toList, txin.witness.Valid) ∧
    (input.isEmpty = true ∨ input.toList.any (fun txin => !txin.witness.isEmpty) = true)
  else ∀ txin ∈ input.toList, txin.witness = .new

theorem map_bare_eq_self {input : Vec TxIn} :
    input.map TxIn.bare = input ↔ ∀ txin ∈ input.toList, txin.witness = .new := by
  simp only [Vec.map_eq_self, TxIn.bare_eq_iff]

theorem witnessCheck_iff (input : Vec TxIn) :
    ¬ (!input.isEmpty && input.toList.all (fun txin => txin.witness.isEmpty)) = true ↔
      input.isEmpty = true ∨ input.toList.any (fun txin => !txin.witness.isEmpty) = true := by
  cases input.isEmpty
  · simp
  · simp

theorem decodeWitnesses_eq_ok {input filled : Vec TxIn}
    (bare : ∀ txin ∈ input.toList, txin.witness = .new) :
    decodeWitnesses (flagByte segwit mweb) input bytes = .ok (filled, rest) ↔
      filled.map TxIn.bare = input ∧ WitnessPart segwit filled ∧
      bytes = announced segwit (witnessesWire filled) ++ rest := by
  have inputBare := map_bare_eq_self.mpr bare
  cases segwit with
  | false =>
    simp only [decodeWitnesses, (flagByte_segwit _ _).not.mpr Bool.false_ne_true, if_false,
      Decoder.pure_eq_ok, WitnessPart, announced, Bool.false_eq_true, List.nil_append]
    constructor
    · rintro ⟨rfl, rfl⟩
      exact ⟨inputBare, bare, rfl⟩
    · rintro ⟨rfl, filledBare, rfl⟩
      exact ⟨map_bare_eq_self.mpr filledBare, rfl⟩
  | true =>
    simp only [decodeWitnesses, (flagByte_segwit true mweb).mpr rfl, if_true, Decoder.bind_eq_ok,
      Decoder.ite_eq_ok, Decoder.fail_eq_ok, Decoder.pure_eq_ok, fillWitnesses_eq_ok, WitnessPart,
      announced, and_false, false_or, not_false_iff, ne_eq]
    constructor
    · rintro ⟨⟨elements, count⟩, _, ⟨same, valid, rfl⟩, checked, rfl, rfl⟩
      refine ⟨?_, ⟨valid, (witnessCheck_iff _).mp checked⟩, rfl⟩
      exact Vec.ext (same.trans (congrArg Vec.toList inputBare))
    · rintro ⟨rfl, ⟨valid, checked⟩, rfl⟩
      have count : filled.toList.length = (filled.map TxIn.bare).toList.length := by simp
      refine ⟨⟨filled.toList, count⟩, rest, ⟨?_, valid, rfl⟩, (witnessCheck_iff filled).mpr checked,
        rfl, rfl⟩
      exact (congrArg Vec.toList inputBare).symm

theorem inputs_emitted (input : Vec TxIn) :
    encodeVec TxIn.consensusEncode input = .written (vecWire TxIn.wire input) :=
  encodeVec_eq fun txin _ => txin.consensusEncode_eq

theorem outputs_emitted (output : Vec TxOut) :
    encodeVec TxOut.consensusEncode output = .written (vecWire TxOut.wire output) :=
  encodeVec_eq fun txout _ => TxOut.codec.emits txout

theorem witnesses_emitted (input : Vec TxIn) :
    Emission.each (fun txin => txin.witness.consensusEncode) input.toList =
      .written (witnessesWire input) :=
  Emission.each_written fun txin _ => txin.witness.consensusEncode_eq

variable [Secp256k1]

/-- What the presence byte selects behind the MWEB bit. -/
def MwebPart (mweb : Bool) (presence : UInt8) (tx : Transaction) : Prop :=
  if mweb then
    if presence ≠ 0 then tx.isHogEx = false ∧ ∃ mw, tx.mwTx = some mw ∧ mw.Valid
    else tx.mwTx = none ∧ tx.isHogEx = true ∧ tx.output.isEmpty = false
  else tx.mwTx = none ∧ tx.isHogEx = false

def mwebWire (presence : UInt8) (tx : Transaction) : Bytes :=
  presence :: optionalWire Mimblewimble.Transaction.wire tx.mwTx

theorem decodeMwebPart_eq_ok [Secp256k1.Canonical] (tx : Transaction) :
    decodeMwebPart (flagByte segwit mweb) tx.output bytes = .ok ((tx.mwTx, tx.isHogEx), rest) ↔
      ∃ presence, MwebPart mweb presence tx ∧
        bytes = announced mweb (mwebWire presence tx) ++ rest := by
  cases mweb with
  | false =>
    simp only [decodeMwebPart, (flagByte_mweb _ _).not.mpr Bool.false_ne_true, if_false,
      Decoder.pure_eq_ok, Prod.mk.injEq, MwebPart, announced, Bool.false_eq_true, List.nil_append]
    exact ⟨fun ⟨⟨absent, plain⟩, same⟩ => ⟨0, ⟨absent.symm, plain.symm⟩, same⟩,
      fun ⟨_, ⟨absent, plain⟩, same⟩ => ⟨⟨absent.symm, plain.symm⟩, same⟩⟩
  | true =>
    rw [decodeMwebPart, if_pos ((flagByte_mweb segwit true).mpr rfl)]
    simp only [if_true, Decoder.bind_eq_ok, Decoder.ite_eq_ok, Decoder.fail_eq_ok, Decoder.pure_eq_ok, readU8_codec.reads _ _ _,
      Mimblewimble.Transaction.reads _ _ _, littleEndian_one, Prod.mk.injEq, true_and, MwebPart,
      announced, mwebWire, and_false, false_or, List.singleton_append]
    constructor
    · rintro ⟨presence, _, rfl, ⟨present, mw, _, ⟨valid, rfl⟩, ⟨body, plain⟩, rfl⟩ |
        ⟨missing, nonempty, ⟨absent, hogEx⟩, rfl⟩⟩
      · refine ⟨presence, ?_, ?_⟩
        · rw [if_pos present]
          exact ⟨plain.symm, mw, body.symm, valid⟩
        · rw [← body, optionalWire, List.cons_append]
      · refine ⟨presence, ?_, ?_⟩
        · rw [if_neg missing]
          exact ⟨absent.symm, hogEx.symm, Bool.eq_false_iff.mpr nonempty⟩
        · rw [← absent]
          rfl
    · rintro ⟨presence, part, rfl⟩
      refine ⟨presence, _, rfl, ?_⟩
      by_cases present : presence ≠ 0
      · rw [if_pos present] at part
        obtain ⟨plain, mw, body, valid⟩ := part
        exact .inl ⟨present, mw, rest, ⟨valid, by rw [body]; rfl⟩, ⟨body.symm, plain.symm⟩, rfl⟩
      · rw [if_neg present] at part
        obtain ⟨absent, hogEx, nonempty⟩ := part
        refine .inr ⟨present, Bool.eq_false_iff.mp nonempty, ⟨absent.symm, hogEx.symm⟩, ?_⟩
        rw [absent]
        rfl

/-- The form without marker, which is also what `compute_txid` hashes. -/
def plainWire (tx : Transaction) : Bytes :=
  littleEndian 4 tx.version.toUInt32.toNat ++ (vecWire TxIn.wire tx.input ++
  (vecWire TxOut.wire tx.output ++ tx.lockTime.wire))

def extendedWire (segwit mweb : Bool) (presence : UInt8) (tx : Transaction) : Bytes :=
  littleEndian 4 tx.version.toUInt32.toNat ++ ([segwitMarker, flagByte segwit mweb] ++
  (vecWire TxIn.wire tx.input ++ (vecWire TxOut.wire tx.output ++
  (announced segwit (witnessesWire tx.input) ++ (announced mweb (mwebWire presence tx) ++
  tx.lockTime.wire)))))

/-- The transactions read without a marker. -/
structure Plain (tx : Transaction) : Prop where
  inputs : tx.input.isEmpty = false
  witnesses : ∀ txin ∈ tx.input.toList, txin.witness = .new
  mwTx : tx.mwTx = none
  isHogEx : tx.isHogEx = false

/-- The transactions read behind the flag byte of `segwit` and `mweb`. -/
structure Extended (segwit mweb : Bool) (presence : UInt8) (tx : Transaction) : Prop where
  flag : (segwit || mweb) = true
  witnesses : WitnessPart segwit tx.input
  mwebPart : MwebPart mweb presence tx

theorem decodeExtended_eq_ok [Secp256k1.Canonical] {v : Int32} {tx : Transaction} :
    decodeExtended v bytes = .ok (tx, rest) ↔ tx.version = v ∧
      ∃ segwit mweb presence, tx.Extended segwit mweb presence ∧
        bytes = [flagByte segwit mweb] ++ (vecWire TxIn.wire tx.input ++
          (vecWire TxOut.wire tx.output ++ (announced segwit (witnessesWire tx.input) ++
          (announced mweb (mwebWire presence tx) ++ (tx.lockTime.wire ++ rest))))) := by
  simp only [decodeExtended, Decoder.bind_eq_ok, Decoder.ite_eq_ok, Decoder.fail_eq_ok,
    Decoder.pure_eq_ok, readU8_codec.reads _ _ _, littleEndian_one, decodeVec_reads TxIn.reads _ _ _,
    decodeVec_reads TxOut.codec.reads _ _ _, LockTime.codec.reads _ _ _, flag_supported, true_and,
    and_false, false_or]
  constructor
  · rintro ⟨_, _, rfl, ⟨segwit, mweb, flag, rfl⟩, input, _, ⟨bare, rfl⟩, output, _, ⟨_, rfl⟩,
      filled, _, read, ⟨mwTx, isHogEx⟩, _, readMweb, lockTime, _, rfl, rfl, rfl⟩
    obtain ⟨rfl, witnesses, rfl⟩ := (decodeWitnesses_eq_ok bare).mp read
    let tx : Transaction := { version := v, lockTime, input := filled, output, mwTx, isHogEx }
    obtain ⟨presence, part, rfl⟩ := (decodeMwebPart_eq_ok tx).mp readMweb
    refine ⟨rfl, segwit, mweb, presence, ⟨flag, witnesses, part⟩, ?_⟩
    rw [vecWire_map _ TxIn.wire_bare]
  · rintro ⟨rfl, segwit, mweb, presence, extended, rfl⟩
    have bare : ∀ txin ∈ (tx.input.map TxIn.bare).toList, txin.witness = .new := by
      simp [TxIn.bare]
    refine ⟨_, _, rfl, ⟨segwit, mweb, extended.flag, rfl⟩, tx.input.map TxIn.bare, _, ⟨bare, ?_⟩,
      tx.output, _, ⟨fun _ _ => trivial, rfl⟩, tx.input, _,
      (decodeWitnesses_eq_ok bare).mpr ⟨rfl, extended.witnesses, rfl⟩, (tx.mwTx, tx.isHogEx), _,
      (decodeMwebPart_eq_ok tx).mpr ⟨presence, extended.mwebPart, rfl⟩, tx.lockTime, rest, rfl, rfl, rfl⟩
    rw [vecWire_map _ TxIn.wire_bare]

omit [Secp256k1] in
/-- A count of zero is the marker. -/
theorem vecWire_empty {input : Vec TxIn} (empty : input.isEmpty = true) :
    vecWire TxIn.wire input = [segwitMarker] := by
  rw [Vec.isEmpty_eq_true] at empty
  subst empty
  rfl

theorem consensusDecode_eq_ok [Secp256k1.Canonical] {tx : Transaction} :
    consensusDecodeFromFiniteReader bytes = .ok (tx, rest) ↔
      (tx.Plain ∧ bytes = tx.plainWire ++ rest) ∨
      ∃ segwit mweb presence, tx.Extended segwit mweb presence ∧
        bytes = tx.extendedWire segwit mweb presence ++ rest := by
  simp only [consensusDecodeFromFiniteReader, Decoder.bind_eq_ok, Decoder.ite_eq_ok,
    Decoder.pure_eq_ok, readI32_codec.reads _ _ _, decodeVec_reads TxIn.reads _ _ _,
    decodeVec_reads TxOut.codec.reads _ _ _, LockTime.codec.reads _ _ _, decodeExtended_eq_ok,
    true_and]
  constructor
  · rintro ⟨v, _, rfl, input, _, ⟨bare, rfl⟩, ⟨empty, rfl, segwit, mweb, presence, extended, rfl⟩ |
      ⟨nonempty, output, _, ⟨_, rfl⟩, lockTime, _, rfl, rfl, rfl⟩⟩
    · refine .inr ⟨segwit, mweb, presence, extended, ?_⟩
      simp only [extendedWire, vecWire_empty empty, List.append_assoc, List.cons_append,
        List.nil_append]
    · refine .inl ⟨⟨Bool.eq_false_iff.mpr nonempty, bare, rfl, rfl⟩, ?_⟩
      simp only [plainWire, List.append_assoc]
  · rintro (⟨plain, rfl⟩ | ⟨segwit, mweb, presence, extended, rfl⟩)
    · refine ⟨tx.version, _, by rw [plainWire, List.append_assoc], tx.input, _,
        ⟨plain.witnesses, List.append_assoc _ _ _⟩, .inr ⟨Bool.eq_false_iff.mp plain.inputs,
        tx.output, _, ⟨fun _ _ => trivial, List.append_assoc _ _ _⟩, tx.lockTime, rest, rfl, ?_, rfl⟩⟩
      rw [← plain.mwTx, ← plain.isHogEx]
    · refine ⟨tx.version, _, by rw [extendedWire, List.append_assoc], .empty, _, ⟨?_, ?_⟩,
        .inl ⟨rfl, rfl, segwit, mweb, presence, extended, rfl⟩⟩
      · intro txin member
        exact absurd member List.not_mem_nil
      · simp only [vecWire_empty (rfl : (Vec.empty : Vec TxIn).isEmpty = true), List.append_assoc,
          List.cons_append, List.nil_append]

/-- The presence byte the writer puts before an MWEB part. -/
def presenceByte (tx : Transaction) : UInt8 := if tx.mwTx.isSome then 1 else 0

/-- The writer's image. -/
def wire (tx : Transaction) : Bytes :=
  if !tx.segwitRequired && !tx.hasMweb then tx.plainWire
  else tx.extendedWire tx.segwitRequired tx.hasMweb tx.presenceByte

theorem encodeMwebPart_eq {tx : Transaction} (complete : ∀ mw ∈ tx.mwTx, mw.body.Complete) :
    tx.encodeMwebPart = .written (tx.mwebWire tx.presenceByte) := by
  cases body : tx.mwTx with
  | none =>
    simp only [encodeMwebPart, body, readU8_codec.emits, littleEndian_one, mwebWire, presenceByte,
      optionalWire]
    rfl
  | some mw =>
    simp only [encodeMwebPart, body, readU8_codec.emits, littleEndian_one, mwebWire, presenceByte,
      optionalWire, Mimblewimble.Transaction.consensusEncode_eq (complete mw body),
      Emission.written_append]
    rfl

theorem consensusEncode_eq {tx : Transaction} (complete : ∀ mw ∈ tx.mwTx, mw.body.Complete) :
    tx.consensusEncode = .written tx.wire := by
  rw [consensusEncode, wire]
  split
  · simp only [readI32_codec.emits, inputs_emitted, outputs_emitted, LockTime.codec.emits,
      Emission.written_append, plainWire, List.append_assoc]
  · simp only [readI32_codec.emits, readU8_codec.emits, littleEndian_one, inputs_emitted,
      outputs_emitted, witnesses_emitted, encodeMwebPart_eq complete, LockTime.codec.emits,
      Emission.gated_written, Emission.written_append, extendedWire, List.append_assoc,
      List.cons_append, List.nil_append]

theorem txidPreimage_eq (tx : Transaction) : tx.txidPreimage = .written tx.plainWire := by
  simp only [txidPreimage, readI32_codec.emits, inputs_emitted, outputs_emitted,
    LockTime.codec.emits, Emission.written_append, plainWire, List.append_assoc]

end Transaction
end Litecoin.Blockdata
