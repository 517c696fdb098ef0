import Litecoin.Blockdata.TransactionFormat
import Litecoin.Mimblewimble.Exactness

/-! When a transaction is written back as the bytes it was read from, and when it is
read back from the bytes it was written as. -/
namespace Litecoin.Blockdata
open Wire Consensus

namespace Transaction
section
variable [Secp256k1]

theorem MwebPart.hasMweb {tx : Transaction} (part : MwebPart mweb presence tx) :
    tx.hasMweb = mweb := by
  rw [Transaction.hasMweb]
  cases mweb with
  | false =>
    obtain ⟨absent, plain⟩ := part
    rw [absent, plain]
    rfl
  | true =>
    rw [MwebPart, if_pos rfl] at part
    split at part
    · obtain ⟨_, mw, body, _⟩ := part
      rw [body]
      rfl
    · rw [part.2.1, Bool.or_true]

theorem WitnessPart.hasWitnesses {tx : Transaction} (part : WitnessPart segwit tx.input) :
    tx.hasWitnesses = (segwit && !tx.input.isEmpty) := by
  rw [Transaction.hasWitnesses]
  cases segwit with
  | false =>
    rw [WitnessPart, if_neg Bool.false_ne_true] at part
    rw [Bool.false_and, List.any_eq_false]
    intro txin member
    rw [part txin member]
    decide
  | true =>
    rw [WitnessPart, if_pos rfl] at part
    cases empty : tx.input.isEmpty with
    | false =>
      obtain empty' | nonempty := part.2
      · rw [empty] at empty'
        contradiction
      · exact nonempty
    | true =>
      rw [Vec.isEmpty_eq_true] at empty
      rw [empty]
      rfl

/-- The writer needs the witness bit exactly when the reader saw it, unless there is
nothing to disambiguate. -/
theorem Extended.segwitRequired {tx : Transaction} (extended : tx.Extended segwit mweb presence) :
    tx.segwitRequired = (segwit && !(mweb && tx.input.isEmpty)) := by
  have flag := extended.flag
  rw [Transaction.segwitRequired, extended.witnesses.hasWitnesses, extended.mwebPart.hasMweb]
  cases segwit <;> cases mweb <;> cases tx.input.isEmpty <;> simp_all

theorem Plain.segwitRequired {tx : Transaction} (plain : tx.Plain) : tx.segwitRequired = false := by
  have witnesses : WitnessPart false tx.input := plain.witnesses
  rw [Transaction.segwitRequired, witnesses.hasWitnesses, plain.inputs]
  rfl

theorem Plain.hasMweb {tx : Transaction} (plain : tx.Plain) : tx.hasMweb = false := by
  rw [Transaction.hasMweb, plain.mwTx, plain.isHogEx]
  rfl

theorem Plain.wire_eq {tx : Transaction} (plain : tx.Plain) : tx.wire = tx.plainWire := by
  rw [wire, plain.segwitRequired, plain.hasMweb]
  rfl

theorem Extended.complete {tx : Transaction} (extended : tx.Extended segwit mweb presence) :
    ∀ mw ∈ tx.mwTx, mw.body.Complete := by
  intro mw member
  have part := extended.mwebPart
  rw [MwebPart] at part
  split at part
  · split at part
    · obtain ⟨_, mw', body, valid⟩ := part
      obtain rfl : mw' = mw := Option.some.inj (body.symm.trans member)
      exact valid.body.complete
    · rw [part.1] at member
      contradiction
  · rw [part.1] at member
    contradiction

theorem Plain.complete {tx : Transaction} (plain : tx.Plain) :
    ∀ mw ∈ tx.mwTx, mw.body.Complete := by
  intro mw member
  rw [plain.mwTx] at member
  contradiction

/-- The forms differ as soon as their flag bytes or announced presence bytes do. -/
theorem extendedWire_inj {tx : Transaction}
    (same : tx.extendedWire segwit mweb presence = tx.extendedWire segwit' mweb' presence') :
    segwit = segwit' ∧ mweb = mweb' ∧ (mweb = true → presence = presence') := by
  rw [extendedWire, extendedWire, List.append_cancel_left_eq, List.cons_append, List.cons_append,
    List.cons_append, List.cons_append, List.cons.injEq, List.cons.injEq] at same
  obtain ⟨_, flag, tail⟩ := same
  have bits : segwit = segwit' ∧ mweb = mweb' := by
    revert flag
    cases segwit <;> cases mweb <;> cases segwit' <;> cases mweb' <;> decide
  obtain ⟨rfl, rfl⟩ := bits
  refine ⟨rfl, rfl, ?_⟩
  rintro rfl
  simp only [List.nil_append, List.append_cancel_left_eq, announced, if_true, mwebWire,
    List.cons_append, List.cons.injEq] at tail
  exact tail.1

omit [Secp256k1] in
theorem vecWire_head {input : Vec TxIn} (nonempty : input.isEmpty = false) :
    ∃ first tail, vecWire TxIn.wire input = first :: tail ∧ first ≠ 0 := by
  have positive : input.len.toNat ≠ 0 := by
    rw [input.len_toNat]
    intro zero
    rw [Vec.isEmpty, List.eq_nil_of_length_eq_zero zero] at nonempty
    contradiction
  obtain ⟨first, tail, image, nonzero⟩ := VarInt.wire_head positive
  exact ⟨first, tail ++ input.toList.flatMap TxIn.wire, by rw [vecWire, image, List.cons_append],
    nonzero⟩

/-- Marker, both flag bits and a count of zero inputs, right after the version. -/
def emptyWithBothFlags (data : Bytes) : Bool :=
  (data.drop 4).take 3 == [segwitMarker, flagByte true true, 0]

/-- The byte in front of an MWEB body, found by the transaction's own readers. -/
def readPresence : Decoder Error (Option UInt8) := do
  let _ ← readI32
  let input ← decodeVec TxIn.consensusDecodeFromFiniteReader
  if input.isEmpty then do
    let segwitFlag ← readU8
    let input ← decodeVec TxIn.consensusDecodeFromFiniteReader
    let _ ← decodeVec TxOut.consensusDecodeFromFiniteReader
    let _ ← decodeWitnesses segwitFlag input
    if segwitFlag &&& flagsMwebTx ≠ 0 then some <$> readU8 else pure none
  else pure none

/-- The presence byte of `data` is missing, zero or one. -/
def presenceIsBoolean (data : Bytes) : Bool :=
  match readPresence data with
  | .ok (some presence, _) => presence ≤ 1
  | _ => true

theorem emptyWithBothFlags_plain {tx : Transaction} (plain : tx.Plain) :
    emptyWithBothFlags tx.plainWire = false := by
  obtain ⟨first, tail, image, nonzero⟩ := vecWire_head plain.inputs
  have version : (littleEndian 4 tx.version.toUInt32.toNat).length = 4 := littleEndian_length _ _
  rw [emptyWithBothFlags, plainWire, List.drop_left' version, image]
  simp only [List.cons_append, List.take_succ_cons, beq_eq_false_iff_ne, ne_eq, List.cons.injEq,
    not_and]
  intro marker
  exact absurd marker nonzero

theorem emptyWithBothFlags_extended (tx : Transaction) :
    emptyWithBothFlags (tx.extendedWire segwit mweb presence) =
      (segwit && mweb && tx.input.isEmpty) := by
  have version : (littleEndian 4 tx.version.toUInt32.toNat).length = 4 := littleEndian_length _ _
  rw [emptyWithBothFlags, extendedWire, List.drop_left' version]
  cases empty : tx.input.isEmpty with
  | true =>
    rw [vecWire_empty empty]
    cases segwit <;> cases mweb <;> rfl
  | false =>
    obtain ⟨first, tail, image, nonzero⟩ := vecWire_head empty
    rw [image, Bool.and_false]
    simp only [List.cons_append, List.nil_append, List.take_succ_cons, beq_eq_false_iff_ne, ne_eq,
      List.cons.injEq, not_and]
    intro _ _ zero
    exact absurd zero nonzero

theorem presenceIsBoolean_plain {tx : Transaction} (plain : tx.Plain) :
    presenceIsBoolean tx.plainWire = true := by
  have read : readPresence tx.plainWire =
      .ok (none, vecWire TxOut.wire tx.output ++ tx.lockTime.wire) := by
    simp only [readPresence, plainWire, Decoder.bind_eq_ok, Decoder.ite_eq_ok, Decoder.pure_eq_ok,
      readI32_codec.reads _ _ _, decodeVec_reads TxIn.reads _ _ _, true_and]
    exact ⟨tx.version, _, rfl, tx.input, _, ⟨plain.witnesses, rfl⟩,
      .inr ⟨Bool.eq_false_iff.mp plain.inputs, rfl⟩⟩
  rw [presenceIsBoolean, read]

theorem presenceIsBoolean_extended {tx : Transaction}
    (witnesses : WitnessPart segwit tx.input) :
    presenceIsBoolean (tx.extendedWire segwit mweb presence) =
      (!mweb || decide (presence ≤ 1)) := by
  have bare : ∀ txin ∈ (tx.input.map TxIn.bare).toList, txin.witness = .new := by
    simp [TxIn.bare]
  have readTo (rest : Bytes) (found : Option UInt8) (left : Bytes)
      (last : (if flagByte segwit mweb &&& flagsMwebTx ≠ 0 then some <$> readU8 else pure none :
        Decoder Error (Option UInt8)) rest = .ok (found, left)) :
      readPresence (littleEndian 4 tx.version.toUInt32.toNat ++
        ([segwitMarker, flagByte segwit mweb] ++ (vecWire TxIn.wire tx.input ++
        (vecWire TxOut.wire tx.output ++ (announced segwit (witnessesWire tx.input) ++ rest))))) =
        .ok (found, left) := by
    simp only [readPresence, Decoder.bind_eq_ok, Decoder.ite_eq_ok, Decoder.pure_eq_ok,
      readI32_codec.reads _ _ _, readU8_codec.reads _ _ _, littleEndian_one,
      decodeVec_reads TxIn.reads _ _ _, decodeVec_reads TxOut.codec.reads _ _ _, true_and]
    refine ⟨tx.version, _, rfl, .empty, _, ⟨fun _ member => absurd member List.not_mem_nil, rfl⟩, .inl ⟨rfl,
      flagByte segwit mweb, _, rfl, tx.input.map TxIn.bare, _, ⟨bare, ?_⟩, tx.output,
      announced segwit (witnessesWire tx.input) ++ rest, ⟨fun _ _ => trivial, rfl⟩, tx.input, rest,
      ?_, ?_⟩⟩
    · rw [vecWire_map _ TxIn.wire_bare]
    · exact (decodeWitnesses_eq_ok bare).mpr ⟨rfl, witnesses, rfl⟩
    · simpa only [Decoder.ite_eq_ok, Decoder.pure_eq_ok] using last
  cases mweb with
  | false =>
    rw [presenceIsBoolean, extendedWire, readTo _ none tx.lockTime.wire]
    · rfl
    · rw [if_neg ((flagByte_mweb _ _).not.mpr Bool.false_ne_true)]
      rfl
  | true =>
    rw [presenceIsBoolean, extendedWire, readTo _ (some presence)
      (optionalWire Mimblewimble.Transaction.wire tx.mwTx ++ tx.lockTime.wire)]
    · simp
    · rw [if_pos ((flagByte_mweb _ _).mpr rfl), Decoder.map_eq_ok]
      refine ⟨presence, (readU8_codec.reads _ _ _).mpr ⟨trivial, ?_⟩, rfl⟩
      rw [littleEndian_one]
      rfl

theorem Extended.wire_eq {tx : Transaction} (extended : tx.Extended segwit mweb presence) :
    tx.wire = tx.extendedWire (segwit && !(mweb && tx.input.isEmpty)) mweb tx.presenceByte := by
  have flag := extended.flag
  rw [wire, extended.segwitRequired, extended.mwebPart.hasMweb, if_neg]
  cases segwit <;> cases mweb <;> simp_all

/-- The presence byte agrees with the writer's when it is a boolean. -/
theorem MwebPart.presence_eq_iff {tx : Transaction} (part : MwebPart true presence tx) :
    tx.presenceByte = presence ↔ presence ≤ 1 := by
  rw [MwebPart, if_pos rfl] at part
  by_cases present : presence ≠ 0
  · rw [if_pos present] at part
    obtain ⟨_, mw, body, _⟩ := part
    rw [presenceByte, body, Option.isSome_some, if_pos rfl]
    rw [UInt8.le_iff_toNat_le, ← UInt8.toNat_inj]
    rw [ne_eq, ← UInt8.toNat_inj] at present
    simp at present ⊢
    omega
  · rw [if_neg present] at part
    rw [presenceByte, part.1]
    simp only [ne_eq, Decidable.not_not] at present
    subst present
    simp

/-- A transaction that was read is written back as the bytes it was read from, except
when both flags stood before an empty input list or the presence byte was not a boolean. -/
theorem serialize_deserialized_iff [Secp256k1.Canonical] {data : Bytes} {tx : Transaction}
    (read : deserialize consensusDecodeFromFiniteReader data = .ok tx) :
    serialize tx.consensusEncode = .ok data ↔
      emptyWithBothFlags data = false ∧ presenceIsBoolean data = true := by
  rw [deserialize_eq_ok, consensusDecode_eq_ok] at read
  obtain ⟨plain, rfl⟩ | ⟨segwit, mweb, presence, extended, rfl⟩ := read
  · rw [List.append_nil, consensusEncode_eq plain.complete, serialize_written, plain.wire_eq]
    exact iff_of_true rfl ⟨emptyWithBothFlags_plain plain, presenceIsBoolean_plain plain⟩
  · rw [List.append_nil, consensusEncode_eq extended.complete, serialize_written, extended.wire_eq,
      emptyWithBothFlags_extended, presenceIsBoolean_extended extended.witnesses]
    constructor
    · intro same
      obtain ⟨flag, _, present⟩ := extendedWire_inj same
      refine ⟨?_, ?_⟩
      · cases segwit <;> cases mweb <;> simp_all
      · cases mweb with
        | false => rfl
        | true => simpa using extended.mwebPart.presence_eq_iff.mp (present rfl)
    · rintro ⟨flag, present⟩
      have sameFlag : (segwit && !(mweb && tx.input.isEmpty)) = segwit := by
        cases segwit <;> cases mweb <;> simp_all
      rw [sameFlag]
      cases mweb with
      | false => rfl
      | true => rw [extended.mwebPart.presence_eq_iff.mpr (by simpa using present)]

/-- Every transaction whose MWEB data is consistent has a form. -/
theorem wire_form {tx : Transaction} (exclusive : ¬ (tx.mwTx.isSome ∧ tx.isHogEx))
    (bridge : tx.isHogEx → tx.output.isEmpty = false) (body : ∀ mw ∈ tx.mwTx, mw.Valid)
    (witnesses : ∀ txin ∈ tx.input.toList, txin.witness.Valid) :
    (tx.Plain ∧ tx.wire = tx.plainWire) ∨
      (tx.Extended tx.segwitRequired tx.hasMweb tx.presenceByte ∧
        tx.wire = tx.extendedWire tx.segwitRequired tx.hasMweb tx.presenceByte) := by
  have bare (none : tx.hasWitnesses = false) : ∀ txin ∈ tx.input.toList, txin.witness = .new := by
    intro txin member
    have := List.any_eq_false.mp none txin member
    exact (Witness.isEmpty_iff _).mp (by simpa using this)
  have mwebPart : MwebPart tx.hasMweb tx.presenceByte tx := by
    rw [MwebPart, hasMweb, presenceByte]
    cases mwTx : tx.mwTx with
    | none =>
      cases hogEx : tx.isHogEx with
      | false => simp
      | true => simpa using bridge hogEx
    | some mw =>
      have plain : tx.isHogEx = false := by
        rw [mwTx] at exclusive
        simpa using exclusive
      simpa [plain] using body mw mwTx
  have witnessPart : WitnessPart tx.segwitRequired tx.input := by
    rw [WitnessPart]
    split
    · rename_i required
      refine ⟨witnesses, ?_⟩
      rw [segwitRequired, Bool.or_eq_true, Bool.and_eq_true] at required
      exact required.symm.imp And.left id
    · rename_i optional
      rw [segwitRequired, Bool.or_eq_true, not_or] at optional
      exact bare (Bool.eq_false_iff.mpr optional.1)
  by_cases form : (!tx.segwitRequired && !tx.hasMweb) = true
  · have absent : tx.segwitRequired = false ∧ tx.hasMweb = false := by
      simpa using form
    refine .inl ⟨?_, by rw [wire, if_pos form]⟩
    rw [absent.1, WitnessPart, if_neg Bool.false_ne_true] at witnessPart
    rw [absent.2, MwebPart, if_neg Bool.false_ne_true] at mwebPart
    refine ⟨?_, witnessPart, mwebPart.1, mwebPart.2⟩
    have required := absent.1
    rw [segwitRequired, absent.2] at required
    cases empty : tx.input.isEmpty <;> simp_all
  · refine .inr ⟨⟨?_, witnessPart, mwebPart⟩, by rw [wire, if_neg form]⟩
    revert form
    cases tx.segwitRequired <;> cases tx.hasMweb <;> decide

theorem extendedWire_length (tx : Transaction) :
    (tx.extendedWire (segwit && !(mweb && tx.input.isEmpty)) mweb presence').length =
      (tx.extendedWire segwit mweb presence).length := by
  simp only [extendedWire, List.length_append, List.length_cons, announced]
  cases empty : tx.input.isEmpty with
  | false => cases segwit <;> cases mweb <;> simp [mwebWire]
  | true =>
    rw [Vec.isEmpty_eq_true] at empty
    cases segwit <;> cases mweb <;> simp [mwebWire, witnessesWire, empty, Vec.empty]

theorem Extended.consistent {tx : Transaction} (extended : tx.Extended segwit mweb presence) :
    ¬ (tx.mwTx.isSome ∧ tx.isHogEx) ∧ (tx.isHogEx → tx.output.isEmpty = false) ∧
      (∀ mw ∈ tx.mwTx, mw.Valid) ∧ ∀ txin ∈ tx.input.toList, txin.witness.Valid := by
  have part := extended.mwebPart
  have witnesses := extended.witnesses
  rw [MwebPart] at part
  rw [WitnessPart] at witnesses
  have valid : ∀ txin ∈ tx.input.toList, txin.witness.Valid := by
    split at witnesses
    · exact witnesses.1
    · intro txin member
      rw [witnesses txin member]
      exact Nat.zero_le _
  split at part
  · split at part
    · obtain ⟨plain, mw, body, mwValid⟩ := part
      simp [plain, body, mwValid]
      exact valid
    · obtain ⟨absent, hogEx, bridge⟩ := part
      simp [absent, bridge]
      exact valid
  · simp [part]
    exact valid

theorem Plain.consistent {tx : Transaction} (plain : tx.Plain) :
    ¬ (tx.mwTx.isSome ∧ tx.isHogEx) ∧ (tx.isHogEx → tx.output.isEmpty = false) ∧
      (∀ mw ∈ tx.mwTx, mw.Valid) ∧ ∀ txin ∈ tx.input.toList, txin.witness.Valid := by
  simp only [plain.mwTx, plain.isHogEx]
  refine ⟨nofun, nofun, nofun, fun txin member => ?_⟩
  rw [plain.witnesses txin member]
  exact Nat.zero_le _

/-- A transaction that was read is written with the length it was read with, and read
back. -/
theorem reread [Secp256k1.Canonical] {data : Bytes} {tx : Transaction}
    (read : deserialize consensusDecodeFromFiniteReader data = .ok tx) :
    serialize tx.consensusEncode = .ok tx.wire ∧
      deserialize consensusDecodeFromFiniteReader tx.wire = .ok tx ∧
      tx.wire.length = data.length := by
  rw [deserialize_eq_ok, consensusDecode_eq_ok] at read ⊢
  obtain ⟨plain, rfl⟩ | ⟨segwit, mweb, presence, extended, rfl⟩ := read
  · refine ⟨?_, .inl ⟨plain, ?_⟩, ?_⟩
    · rw [consensusEncode_eq plain.complete, serialize_written]
    · rw [plain.wire_eq, List.append_nil]
    · rw [plain.wire_eq, List.append_nil]
  · obtain ⟨exclusive, bridge, body, witnesses⟩ := extended.consistent
    refine ⟨?_, ?_, ?_⟩
    · rw [consensusEncode_eq extended.complete, serialize_written]
    · obtain ⟨plain, same⟩ | ⟨form, same⟩ := wire_form exclusive bridge body witnesses
      · exact .inl ⟨plain, by rw [same, List.append_nil]⟩
      · exact .inr ⟨_, _, _, form, by rw [same, List.append_nil]⟩
    · rw [extended.wire_eq, List.append_nil, extendedWire_length]

/-- The transactions that are read back from what they are written as. -/
theorem roundtrip_iff [Secp256k1.Canonical] (tx : Transaction) :
    (∃ bytes, serialize tx.consensusEncode = .ok bytes ∧
      deserialize consensusDecodeFromFiniteReader bytes = .ok tx) ↔
    ¬ (tx.mwTx.isSome ∧ tx.isHogEx) ∧ (tx.isHogEx → tx.output.isEmpty = false) ∧
      (∀ mw ∈ tx.mwTx, mw.Valid) ∧ ∀ txin ∈ tx.input.toList, txin.witness.Valid := by
  constructor
  · rintro ⟨bytes, _, read⟩
    rw [deserialize_eq_ok, consensusDecode_eq_ok] at read
    obtain ⟨plain, _⟩ | ⟨segwit, mweb, presence, extended, _⟩ := read
    · exact plain.consistent
    · exact extended.consistent
  · rintro ⟨exclusive, bridge, body, witnesses⟩
    have emitted := consensusEncode_eq fun mw member => (body mw member).body.complete
    refine ⟨tx.wire, by rw [emitted, serialize_written], ?_⟩
    rw [deserialize_eq_ok, consensusDecode_eq_ok, List.append_nil]
    obtain ⟨plain, same⟩ | ⟨extended, same⟩ := wire_form exclusive bridge body witnesses
    · exact .inl ⟨plain, by rw [same]⟩
    · exact .inr ⟨_, _, _, extended, by rw [same, List.append_nil]⟩

/-- A consistent transaction is read back from what it is written as, and the writer
counts the bytes it writes. -/
theorem deserialize_serialized [Secp256k1.Canonical] (tx : Transaction)
    (exclusive : ¬ (tx.mwTx.isSome ∧ tx.isHogEx))
    (bridge : tx.isHogEx → tx.output.isEmpty = false)
    (body : ∀ mw ∈ tx.mwTx, ∃ bytes rest,
      Mimblewimble.Transaction.consensusDecodeFromFiniteReader bytes = .ok (mw, rest))
    (witnesses : ∀ txin ∈ tx.input.toList, ∀ count bytes,
      txin.witness.consensusEncode = .ok (count, bytes) → bytes.length ≤ maxVecSize) :
    ∃ bytes, tx.consensusEncode = .ok (bytes.length, bytes) ∧
      serialize tx.consensusEncode = .ok bytes ∧
      deserialize consensusDecodeFromFiniteReader bytes = .ok tx := by
  have body : ∀ mw ∈ tx.mwTx, mw.Valid := by
    intro mw member
    obtain ⟨bytes, rest, read⟩ := body mw member
    exact ((Mimblewimble.Transaction.reads _ _ _).mp read).1
  have witnesses : ∀ txin ∈ tx.input.toList, txin.witness.Valid := fun txin member =>
    Witness.valid_of_wire_length
      (witnesses txin member _ _ txin.witness.consensusEncode_eq)
  have emitted := consensusEncode_eq fun mw member => (body mw member).body.complete
  obtain ⟨bytes, written, read⟩ := (roundtrip_iff tx).mpr ⟨exclusive, bridge, body, witnesses⟩
  rw [emitted, serialize_written] at written
  subst written
  exact ⟨tx.wire, emitted, by rw [emitted, serialize_written], read⟩

end

/-- A peg transaction without inputs, behind the given flag byte. -/
def emptyPegBytes (flag : UInt8) : Bytes :=
  [1, 0, 0, 0, 0, flag, 0, 1, 0, 0, 0, 0, 0, 0, 0, 0, 0, 0, 0, 0, 0, 0]

def emptyPeg : @Transaction Secp256k1.generatorOnly :=
  letI := Secp256k1.generatorOnly
  { version := 1, lockTime := .fromConsensus 0, input := .empty,
    output := ⟨[{ value := 0, scriptPubkey := .empty }], by decide⟩, mwTx := none, isHogEx := true }

theorem emptyPeg_read : deserialize (@consensusDecodeFromFiniteReader Secp256k1.generatorOnly)
    (emptyPegBytes 8) = .ok emptyPeg := by
  decide

theorem emptyPeg_reserialized :
    serialize (@consensusEncode Secp256k1.generatorOnly emptyPeg) = .ok (emptyPegBytes 8) := by
  let := Secp256k1.generatorOnly
  have := Secp256k1.generatorOnly_lawful
  exact (serialize_deserialized_iff emptyPeg_read).mpr ⟨by decide, by decide⟩

/-- With both flag bits the same transaction is read, and written with only one. -/
theorem emptyPeg_bothFlags_changed :
    ¬ ∀ tx, deserialize (@consensusDecodeFromFiniteReader Secp256k1.generatorOnly)
        (emptyPegBytes 9) = .ok tx →
      serialize (@consensusEncode Secp256k1.generatorOnly tx) = .ok (emptyPegBytes 9) := by
  intro canonical
  have read : deserialize (@consensusDecodeFromFiniteReader Secp256k1.generatorOnly)
      (emptyPegBytes 9) = .ok emptyPeg := by
    decide
  have differs : serialize (@consensusEncode Secp256k1.generatorOnly emptyPeg) ≠
      .ok (emptyPegBytes 9) := by
    decide
  exact differs (canonical emptyPeg read)

/-- A transaction that only carries an MWEB body. -/
def bodyOnly : @Transaction Secp256k1.generatorOnly :=
  letI := Secp256k1.generatorOnly
  { version := 2, lockTime := .fromConsensus 0, input := .empty, output := .empty,
    mwTx := some Mimblewimble.minimalTransaction, isHogEx := false }

theorem bodyOnly_roundtrip :
    ∃ bytes, @consensusEncode Secp256k1.generatorOnly bodyOnly = .ok (bytes.length, bytes) ∧
      serialize (@consensusEncode Secp256k1.generatorOnly bodyOnly) = .ok bytes ∧
      deserialize (@consensusDecodeFromFiniteReader Secp256k1.generatorOnly) bytes =
        .ok bodyOnly := by
  let := Secp256k1.generatorOnly
  have := Secp256k1.generatorOnly_lawful
  refine deserialize_serialized bodyOnly (by decide) (by decide) ?_ ?_
  · intro mw member
    obtain rfl : Mimblewimble.minimalTransaction = mw := Option.some.inj member
    exact ⟨_, _, Mimblewimble.minimalBytes_read⟩
  · intro txin member
    exact absurd member List.not_mem_nil

end Transaction
end Litecoin.Blockdata
