import Litecoin.Psbt.Map
import Litecoin.Psbt.MwebFormat

/-! Input and output maps are written as pairs that are read back as the same map. -/
namespace Litecoin.Psbt
open Wire Consensus Crypto Bip32 Taproot

namespace ProprietaryKey

theorem toKey_key (key : ProprietaryKey) :
    key.toKey.key = bytesWire key.prefixBytes ++ (key.subtype :: key.key) := by
  have counted : Emission.counted key.key.length key.key = (.written key.key : Emission IoError) := rfl
  rw [toKey, consensusEncode, encodeWithSize_eq, readU8_codec.emits, littleEndian_one, counted,
    Emission.written_append, Emission.written_append, vecWritten_written, List.append_assoc]
  rfl

/-- A raw key is proprietary exactly when it is what a proprietary key within the
limits is written as. -/
theorem tryFrom_eq_ok {raw : Key} {key : ProprietaryKey} :
    tryFrom raw = .ok key ↔ raw = key.toKey ∧ key.key.length ≤ keyLimit ∧
      (bytesWire key.prefixBytes).length ≤ maxVecSize := by
  have decoded : Consensus.deserialize consensusDecode raw.key = .ok key ↔ raw.key = key.toKey.key ∧
      key.key.length ≤ keyLimit ∧ (bytesWire key.prefixBytes).length ≤ maxVecSize := by
    obtain ⟨prefixBytes, subtype, data⟩ := key
    have limited (bytes : Bytes) : readToLimit keyLimit bytes = .ok (data, []) ↔
        bytes = data ∧ data.length ≤ keyLimit := by
      rw [readToLimit, Except.ok.injEq, Prod.mk.injEq, List.drop_eq_nil_iff]
      constructor
      · rintro ⟨rfl, short⟩
        rw [List.take_of_length_le short]
        exact ⟨rfl, short⟩
      · rintro ⟨rfl, short⟩
        exact ⟨List.take_of_length_le short, short⟩
    rw [deserialize_eq_ok, toKey_key]
    simp only [consensusDecode, Decoder.bind_eq_ok, Decoder.pure_eq_ok, Consensus.consensusDecode,
      decodeBytes_reads.take maxVecSize _ _ _, readU8_codec.reads _ _ _, littleEndian_one, true_and,
      mk.injEq]
    constructor
    · rintro ⟨_, _, ⟨short, same⟩, _, _, rfl, _, _, tail, ⟨rfl, rfl, rfl⟩, rfl⟩
      obtain ⟨rfl, bound⟩ := (limited _).mp tail
      exact ⟨same, bound, short⟩
    · rintro ⟨same, bound, short⟩
      exact ⟨prefixBytes, _, ⟨short, same⟩, subtype, data, rfl, data, [],
        (limited data).mpr ⟨rfl, bound⟩, ⟨rfl, rfl, rfl⟩, rfl⟩
  obtain ⟨raw, data⟩ := raw
  rw [tryFrom]
  split
  · rename_i other
    constructor
    · intro accepted
      contradiction
    · rintro ⟨same, _⟩
      exact absurd (congrArg Key.typeValue same) other
  · rename_i proprietary
    have type : raw = typeValue := not_not.mp proprietary
    have keys : (⟨raw, data⟩ : Key) = key.toKey ↔ data = key.toKey.key := by
      rw [Key.mk.injEq, type]
      exact and_iff_right rfl
    rw [keys, ← decoded]
    cases Consensus.deserialize consensusDecode data with
    | error e => simp
    | ok found => simp

end ProprietaryKey

section
variable {value : Value α}

theorem insertUnkeyed_eq_ok :
    insertUnkeyed value slot pair = .ok next ↔ pair.key.key = [] ∧ slot = none ∧
      ∃ a, value.deserialize pair.value = .ok a ∧ next = some a := by
  cases slot with
  | some a =>
    cases empty : pair.key.key with
    | nil => simp [insertUnkeyed, empty]
    | cons byte tail => simp [insertUnkeyed, empty]
  | none =>
    cases empty : pair.key.key with
    | nil => simp [insertUnkeyed, empty, @eq_comm _ next]
    | cons byte tail => simp [insertUnkeyed, empty]

theorem pushUnkeyed_run {slot : Option α} (kept : ∀ a ∈ slot, value.Kept a) (typeValue : UInt8) :
    ∃ pairs, pushUnkeyed value typeValue slot = .ok pairs ∧
      (∀ pair ∈ pairs, pair.Readable ∧ pair.key.typeValue = typeValue) ∧
      run (insertUnkeyed value) none pairs = .ok slot := by
  cases slot with
  | none => exact ⟨[], rfl, fun _ member => absurd member List.not_mem_nil, rfl⟩
  | some a =>
    obtain ⟨data, written, read, short⟩ := kept a rfl
    refine ⟨[{ key := { typeValue, key := [] }, value := data }], ?_, ?_, ?_⟩
    · simp [pushUnkeyed, written]
    · simp [Pair.Readable, Key.Readable, short]
    · refine run_cons_eq_ok.mpr ⟨some a, ?_, rfl⟩
      exact insertUnkeyed_eq_ok.mpr ⟨rfl, rfl, a, read, rfl⟩

end

section
variable [Ord κ] [Std.TransOrd κ] {key : Value κ} {value : κ → Value α}

theorem insertKeyed_eq_ok {map next : BTreeMap κ α} :
    insertKeyed key value map pair = .ok next ↔ pair.key.key ≠ [] ∧
      ∃ k, key.deserialize pair.key.key = .ok k ∧ k ∉ map ∧
        ∃ a, (value k).deserialize pair.value = .ok a ∧ next = map.insert k a := by
  rw [insertKeyed]
  cases empty : pair.key.key with
  | nil => simp
  | cons byte tail => simp [BTreeMap.fillEntry_eq_ok]

theorem pushMap_run [Std.LawfulEqOrd κ] {map : BTreeMap κ α} (isKey : key.IsKey)
    (kept : ∀ entry ∈ map.toList, (value entry.1).Kept entry.2) (typeValue : UInt8) :
    ∃ pairs, pushMap key value typeValue map = .ok pairs ∧
      (∀ pair ∈ pairs, pair.Readable ∧ pair.key.typeValue = typeValue) ∧
      run (insertKeyed key value) ∅ pairs = .ok map := by
  choose keyData keyWritten keyRead nonempty keyShort using isKey
  have entries : ∀ entry, ∃ data, entry ∈ map.toList → (value entry.1).serialize entry.2 = .ok data ∧
      (value entry.1).deserialize data = .ok entry.2 ∧ (sizedWire data).length ≤ maxVecSize := by
    intro entry
    by_cases member : entry ∈ map.toList
    · exact (kept entry member).imp fun _ found _ => found
    · exact ⟨[], fun listed => absurd listed member⟩
  choose data written using entries
  let item (entry : κ × α) : Pair :=
    { key := { typeValue, key := keyData entry.1 }, value := data entry }
  refine ⟨map.toList.map item, ?_, ?_, ?_⟩
  · apply mapM_ok
    rintro ⟨k, a⟩ member
    simp only [bind_eq_ok, pure_eq_ok]
    exact ⟨_, keyWritten k, _, (written (k, a) member).1, rfl⟩
  · intro pair member
    obtain ⟨entry, listed, rfl⟩ := List.mem_map.mp member
    exact ⟨⟨(keyShort entry.1).trans (by decide), (written entry listed).2.2⟩, rfl⟩
  · apply BTreeMap.run_toList id
    rintro map ⟨k, a⟩ member vacant
    exact insertKeyed_eq_ok.mpr ⟨nonempty k, k, keyRead k, vacant, a, (written (k, a) member).2.1, rfl⟩

end

namespace Shape

/-- Keys are told apart, and whatever is read is kept. -/
def Stable : Shape → Prop
  | unkeyed value => value.Stable
  | keyed key value => key.IsKey ∧ ∀ k, (value k).Stable

/-- Everything in a slot can be written and read back. -/
def Kept : (shape : Shape) → shape.Slot → Prop
  | @unkeyed α value, slot => ∀ a ∈ (show Option α from slot), value.Kept a
  | @keyed κ α _ _ _ _ value, map =>
    ∀ entry ∈ (show BTreeMap κ α from map).toList, (value entry.1).Kept entry.2

theorem empty_kept (shape : Shape) : shape.Kept shape.empty := by
  cases shape with
  | unkeyed value => exact fun _ absent => absurd absent (Option.not_mem_none _)
  | keyed key value => exact fun _ absent => absurd absent List.not_mem_nil

theorem insert_kept {shape : Shape} {slot next : shape.Slot} (stable : shape.Stable)
    (kept : shape.Kept slot) (readable : pair.Readable) (inserted : shape.insert slot pair = .ok next) :
    shape.Kept next := by
  cases shape with
  | unkeyed value =>
    obtain ⟨_, _, a, read, rfl⟩ := insertUnkeyed_eq_ok.mp inserted
    rintro _ ⟨⟩
    exact stable _ _ readable.2 read
  | keyed key value =>
    obtain ⟨_, k, _, _, a, read, rfl⟩ := insertKeyed_eq_ok.mp inserted
    exact BTreeMap.forall_mem_insert kept (stable.2 k _ _ readable.2 read)

/-- The pairs of a slot fill it again. -/
theorem getPairs_run {shape : Shape} {slot : shape.Slot} (stable : shape.Stable)
    (kept : shape.Kept slot) (typeValue : UInt8) :
    ∃ pairs, shape.getPairs typeValue slot = .ok pairs ∧
      (∀ pair ∈ pairs, pair.Readable ∧ pair.key.typeValue = typeValue) ∧
      run shape.insert shape.empty pairs = .ok slot := by
  cases shape with
  | unkeyed value => exact pushUnkeyed_run kept typeValue
  | keyed key value => exact pushMap_run stable.1 kept typeValue

end Shape
/-- The type bytes of a table select its arms, and everything it takes in is written
within the limits and restored. Its MWEB part stays in `MwebKept`. -/
structure MapTable.Lawful (table : MapTable F M) (MwebKept : M → Prop) : Prop where
  typed : ∀ f, table.armOf (table.typeValue f) = .typed f
  proprietary : table.armOf ProprietaryKey.typeValue = .proprietary
  listed : ∀ f, f ∈ table.fields
  nodup : table.fields.Nodup
  stable : ∀ f, (table.shape f).Stable
  admitted : ∀ mweb, ∀ kv ∈ table.mwebPairs mweb,
    table.armOf kv.1 = .mweb ∧ table.admitsMweb { typeValue := kv.1, key := kv.2.1 } = true
  restored : ∀ mweb, MwebKept mweb →
    (table.mwebPairs mweb).foldl table.applyMweb table.noMweb = mweb
  noMweb : MwebKept table.noMweb
  readable : ∀ mweb, MwebKept mweb → ∀ kv ∈ table.mwebPairs mweb, (FieldMap.mwebPair kv).Readable
  applied : ∀ mweb kv, (FieldMap.mwebPair kv).Readable → MwebKept mweb →
    MwebKept (table.applyMweb mweb kv)

namespace FieldMap
variable {table : MapTable F M} {MwebKept : M → Prop}

/-- Everything in a map can be written and read back. -/
structure Kept (MwebKept : M → Prop) (map : FieldMap table) : Prop where
  fields : ∀ f, (table.shape f).Kept (map.fields f)
  mweb : MwebKept map.mweb
  proprietary : ∀ entry ∈ map.proprietary.toList, ProprietaryKey.tryFrom entry.1.toKey = .ok entry.1 ∧
    Pair.Readable { key := entry.1.toKey, value := entry.2 }
  unknown : ∀ entry ∈ map.unknown.toList, table.armOf entry.1.typeValue = .unknown ∧
    Pair.Readable { key := entry.1, value := entry.2 }

theorem default_kept (lawful : table.Lawful MwebKept) : (default table).Kept MwebKept where
  fields f := (table.shape f).empty_kept
  mweb := lawful.noMweb
  proprietary _ member := absurd member List.not_mem_nil
  unknown _ member := absurd member List.not_mem_nil

section
variable [DecidableEq F]

/-- What an accepted pair changes, arm by arm. -/
theorem insertPair_cases {map next : FieldMap table} (inserted : map.insertPair pair = .ok next) :
    (∃ f slot, table.armOf pair.key.typeValue = .typed f ∧
      (table.shape f).insert (map.fields f) pair = .ok slot ∧
      next = { map with fields := Function.update map.fields f slot }) ∨
    (table.armOf pair.key.typeValue = .proprietary ∧ ∃ key, ProprietaryKey.tryFrom pair.key = .ok key ∧
      key ∉ map.proprietary ∧
      next = { map with proprietary := map.proprietary.insert key pair.value }) ∨
    (table.armOf pair.key.typeValue = .mweb ∧ table.admitsMweb pair.key = true ∧
      next = { map with
        mweb := table.applyMweb map.mweb (pair.key.typeValue, pair.key.key, pair.value) }) ∨
    (table.armOf pair.key.typeValue = .unknown ∧ pair.key ∉ map.unknown ∧
      next = { map with unknown := map.unknown.insert pair.key pair.value }) := by
  rw [insertPair] at inserted
  split at inserted
  · rename_i f arm
    simp only [bind_eq_ok, pure_eq_ok] at inserted
    obtain ⟨slot, filled, rfl⟩ := inserted
    exact .inl ⟨f, slot, arm, filled, rfl⟩
  · rename_i arm
    simp only [insertProprietary, bind_eq_ok, pure_eq_ok, BTreeMap.fillEntry_eq_ok, Except.ok.injEq]
      at inserted
    obtain ⟨_, ⟨key, parsed, vacant, _, rfl, rfl⟩, rfl⟩ := inserted
    exact .inr (.inl ⟨arm, key, parsed, vacant, rfl⟩)
  · rename_i arm
    split at inserted
    · rename_i admitted
      obtain rfl := Except.ok.inj inserted
      exact .inr (.inr (.inl ⟨arm, admitted, rfl⟩))
    · contradiction
  · rename_i arm
    simp only [insertUnknown, bind_eq_ok, pure_eq_ok, BTreeMap.fillEntry_eq_ok, Except.ok.injEq]
      at inserted
    obtain ⟨_, ⟨vacant, _, rfl, rfl⟩, rfl⟩ := inserted
    exact .inr (.inr (.inr ⟨arm, vacant, rfl⟩))

theorem insertPair_typed {map : FieldMap table} {slot : (table.shape f).Slot}
    (arm : table.armOf pair.key.typeValue = .typed f)
    (filled : (table.shape f).insert (map.fields f) pair = .ok slot) :
    map.insertPair pair = .ok { map with fields := Function.update map.fields f slot } := by
  simp only [insertPair, arm, filled]
  rfl

theorem insertPair_proprietary {map : FieldMap table} {pair : Pair}
    (arm : table.armOf pair.key.typeValue = .proprietary)
    (parsed : ProprietaryKey.tryFrom pair.key = .ok key) (vacant : key ∉ map.proprietary) :
    map.insertPair pair = .ok { map with proprietary := map.proprietary.insert key pair.value } := by
  simp only [insertPair, arm, insertProprietary, bind_eq_ok, pure_eq_ok, BTreeMap.fillEntry_eq_ok]
  exact ⟨_, ⟨key, parsed, vacant, _, rfl, rfl⟩, rfl⟩

theorem insertPair_mweb {map : FieldMap table} {pair : Pair}
    (arm : table.armOf pair.key.typeValue = .mweb) (admitted : table.admitsMweb pair.key = true) :
    map.insertPair pair = .ok { map with
      mweb := table.applyMweb map.mweb (pair.key.typeValue, pair.key.key, pair.value) } := by
  simp only [insertPair, arm, admitted, if_true]

theorem insertPair_unknown {map : FieldMap table} {pair : Pair}
    (arm : table.armOf pair.key.typeValue = .unknown) (vacant : pair.key ∉ map.unknown) :
    map.insertPair pair = .ok { map with unknown := map.unknown.insert pair.key pair.value } := by
  simp only [insertPair, arm, insertUnknown, bind_eq_ok, pure_eq_ok, BTreeMap.fillEntry_eq_ok]
  exact ⟨_, ⟨vacant, _, rfl, rfl⟩, rfl⟩

theorem insertPair_kept (lawful : table.Lawful MwebKept) {map next : FieldMap table}
    (kept : map.Kept MwebKept) (readable : pair.Readable)
    (inserted : map.insertPair pair = .ok next) : next.Kept MwebKept := by
  obtain ⟨f, slot, _, filled, rfl⟩ | ⟨_, key, parsed, _, rfl⟩ | ⟨_, _, rfl⟩ | ⟨arm, _, rfl⟩ :=
    insertPair_cases inserted
  · have filledKept := Shape.insert_kept (lawful.stable f) (kept.fields f) readable filled
    have allKept := (Function.forall_update_iff map.fields fun f => (table.shape f).Kept).mpr
      ⟨filledKept, fun g _ => kept.fields g⟩
    exact { kept with fields := allKept }
  · refine { kept with proprietary := BTreeMap.forall_mem_insert kept.proprietary ?_ }
    obtain ⟨same, _⟩ := ProprietaryKey.tryFrom_eq_ok.mp parsed
    rw [← same]
    exact ⟨parsed, readable⟩
  · exact { kept with mweb := lawful.applied _ _ readable kept.mweb }
  · exact { kept with unknown := BTreeMap.forall_mem_insert kept.unknown ⟨arm, readable⟩ }

/-- A map is written as pairs that are read back as the same map. -/
theorem getPairs_run (lawful : table.Lawful MwebKept) {map : FieldMap table}
    (kept : map.Kept MwebKept) :
    ∃ pairs, map.getPairs = .ok pairs ∧ (∀ pair ∈ pairs, pair.Readable) ∧
      run insertPair (default table) pairs = .ok map := by
  have slots := fun f => Shape.getPairs_run (lawful.stable f) (kept.fields f) (table.typeValue f)
  choose items written own fills using slots
  refine ⟨table.fields.flatMap items ++ (table.mwebPairs map.mweb).map mwebPair ++
    pushProprietary map.proprietary ++ pushUnknown map.unknown, ?_, ?_, ?_⟩
  · simp only [getPairs, bind_eq_ok, pure_eq_ok]
    exact ⟨table.fields.map items, mapM_ok fun f _ => written f, by rw [List.flatMap_def]⟩
  · simp only [List.mem_append]
    rintro pair (((member | member) | member) | member)
    · obtain ⟨f, _, member⟩ := List.mem_flatMap.mp member
      exact (own f pair member).1
    · obtain ⟨kv, listed, rfl⟩ := List.mem_map.mp member
      exact lawful.readable _ kept.mweb kv listed
    · obtain ⟨entry, listed, rfl⟩ := List.mem_map.mp member
      exact (kept.proprietary entry listed).2
    · obtain ⟨entry, listed, rfl⟩ := List.mem_map.mp member
      exact (kept.unknown entry listed).2
  · have typed : run insertPair (default table) (table.fields.flatMap items) =
        .ok ⟨map.fields, ∅, ∅, table.noMweb⟩ := by
      let put (fields : (f : F) → (table.shape f).Slot) : FieldMap table := ⟨fields, ∅, ∅, table.noMweb⟩
      apply run_slots put lawful.nodup
      · intro slots f pair member slot filled
        have arm := lawful.typed f
        rw [← (own f pair member).2] at arm
        exact insertPair_typed arm filled
      · exact fun f _ => fills f
      · exact fun f absent => absurd (lawful.listed f) absent
    have mweb : run insertPair (⟨map.fields, ∅, ∅, table.noMweb⟩ : FieldMap table)
        ((table.mwebPairs map.mweb).map mwebPair) = .ok ⟨map.fields, ∅, ∅, map.mweb⟩ := by
      let put (mweb : M) : FieldMap table := ⟨map.fields, ∅, ∅, mweb⟩
      have applied : ∀ mweb, ∀ kv ∈ table.mwebPairs map.mweb,
          (put mweb).insertPair (mwebPair kv) = .ok (put (table.applyMweb mweb kv)) := by
        intro mweb kv member
        obtain ⟨arm, admitted⟩ := lawful.admitted _ kv member
        exact insertPair_mweb arm admitted
      have folded := run_foldl put applied table.noMweb
      rw [lawful.restored _ kept.mweb] at folded
      exact folded
    have proprietary : run insertPair (⟨map.fields, ∅, ∅, map.mweb⟩ : FieldMap table)
        (pushProprietary map.proprietary) = .ok ⟨map.fields, map.proprietary, ∅, map.mweb⟩ := by
      let put (proprietary : BTreeMap ProprietaryKey Bytes) : FieldMap table :=
        ⟨map.fields, proprietary, ∅, map.mweb⟩
      apply BTreeMap.run_toList put
      rintro taken ⟨key, value⟩ member vacant
      exact insertPair_proprietary lawful.proprietary (kept.proprietary _ member).1 vacant
    have unknown : run insertPair (⟨map.fields, map.proprietary, ∅, map.mweb⟩ : FieldMap table)
        (pushUnknown map.unknown) = .ok map := by
      let put (unknown : BTreeMap Key Bytes) : FieldMap table :=
        ⟨map.fields, map.proprietary, unknown, map.mweb⟩
      apply BTreeMap.run_toList put
      rintro taken ⟨key, value⟩ member vacant
      exact insertPair_unknown (kept.unknown _ member).1 vacant
    rw [List.append_assoc, List.append_assoc, run_append typed, run_append mweb, run_append proprietary,
      unknown]

end
end FieldMap
/-- All fields are written as readable pairs. -/
def MwebTable.Readable (table : MwebTable F) (record : table.Record) : Prop :=
  ∀ kv ∈ table.kvPairs table.fields record, (FieldMap.mwebPair kv).Readable

theorem MwebTable.empty_readable {table : MwebTable F} : table.Readable table.empty := by
  intro kv member
  obtain ⟨f, _, a, absent, _⟩ := mem_kvPairs.mp member
  exact absurd absent (Option.not_mem_none _)

/-- Fields taken from readable pairs are written as readable pairs. -/
theorem MwebTable.apply_readable [DecidableEq F] {table : MwebTable F} (lawful : table.Lawful)
    {record : table.Record} (readable : (FieldMap.mwebPair kv).Readable)
    (others : table.Readable record) : table.Readable (table.apply record kv) := by
  intro own member
  obtain ⟨f, listed, a, value, rfl⟩ := mem_kvPairs.mp member
  have kept (old : a ∈ record f) := others _ (mem_kvPairs.mpr ⟨f, listed, a, old, rfl⟩)
  obtain same | ⟨g, b, parsed, set⟩ := apply_cases record kv
  · exact kept (same ▸ value)
  · rw [set] at value
    by_cases same : f = g
    · subst same
      rw [Function.update_self] at value
      obtain rfl := Option.some.inj value
      have short : kv.2.2.length ≤ maxVecSize - 5 := sizedWire_short.mp readable.2
      refine ⟨((lawful.bounded f).key b).trans (by decide), sizedWire_short.mpr ?_⟩
      exact ((lawful.bounded f).value _ _ _ parsed).trans (max_le short (by decide))
    · rw [Function.update_of_ne same] at value
      exact kept value

/-- All fields are written as readable pairs, and read back from them. -/
structure MwebTable.Kept (table : MwebTable F) (record : table.Record) : Prop where
  readable : table.Readable record
  restorable : table.Restorable record

theorem MwebTable.empty_kept {table : MwebTable F} : table.Kept table.empty :=
  ⟨empty_readable, empty_restorable⟩

theorem MwebTable.apply_kept [DecidableEq F] {table : MwebTable F} (lawful : table.Lawful)
    {record : table.Record} (readable : (FieldMap.mwebPair kv).Readable) (kept : table.Kept record) :
    table.Kept (table.apply record kv) :=
  ⟨apply_readable lawful readable kept.readable, apply_restorable lawful kept.restorable kv⟩

section
variable [Secp256k1] [Secp256k1.Inverse] [Hashes]

theorem Input.shape_stable (f : Input.Field) : (Input.shape f).Stable := by
  cases f with
  | nonWitnessUtxo => exact Value.transaction_stable
  | witnessUtxo => exact Value.txOut_stable
  | partialSigs => exact ⟨Value.publicKey_isKey, fun _ => Value.ecdsaSignature_stable⟩
  | sighashType => exact Value.sighashType_stable
  | redeemScript | witnessScript | finalScriptSig => exact Value.bytes_stable
  | bip32Derivation => exact ⟨Value.secpPublicKey_isKey, fun _ => Value.keySource_stable⟩
  | finalScriptWitness => exact Value.witness_stable
  | ripemd160Preimages | sha256Preimages | hash160Preimages | hash256Preimages =>
    exact ⟨Value.hash_isKey (by decide) (by decide), Value.preimageOf_stable _ _⟩
  | tapKeySig => exact Value.taprootSignature_stable
  | tapScriptSigs => exact ⟨Value.keyAndLeaf_isKey, fun _ => Value.taprootSignature_stable⟩
  | tapScripts => exact ⟨Value.controlBlock_isKey, fun _ => Value.scriptVersion_stable⟩
  | tapKeyOrigins => exact ⟨Value.xOnlyPublicKey_isKey, fun _ => Value.leafHashesSource_stable⟩
  | tapInternalKey => exact Value.xOnlyPublicKey_isKey.stable
  | tapMerkleRoot => exact (Value.hash_isKey (by decide) (by decide)).stable

omit [Secp256k1.Inverse] in
theorem Input.admitted (input : MwebInput) : ∀ kv ∈ input.toKvPairs,
    Input.table.armOf kv.1 = .mweb ∧ Input.admitsMweb { typeValue := kv.1, key := kv.2.1 } = true := by
  intro kv member
  obtain ⟨f, _, a, _, rfl⟩ := MwebTable.mem_kvPairs.mp member
  cases f with
  | masterScanKeyOrigin | masterSpendKeyOrigin =>
    obtain ⟨key, source⟩ := a
    refine ⟨rfl, ?_⟩
    have nonempty : (Secp256k1.serialize key).val ≠ [] := by
      intro empty
      have size := (Secp256k1.serialize key).property
      rw [empty] at size
      contradiction
    exact Bool.not_eq_true' _ ▸ List.isEmpty_eq_false_iff.mpr nonempty
  | _ => exact ⟨rfl, rfl⟩

theorem Input.table_lawful : Input.table.Lawful MwebInput.table.Kept where
  typed f := by cases f <;> rfl
  proprietary := rfl
  listed f := by cases f <;> simp [Input.table]
  nodup := by simp [Input.table]
  stable := Input.shape_stable
  admitted := Input.admitted
  restored _ kept := MwebInput.foldl_toKvPairs kept.restorable
  noMweb := MwebTable.empty_kept
  readable _ kept := kept.readable
  applied _ _ := MwebTable.apply_kept MwebInput.table_lawful

theorem Output.shape_stable (f : Output.Field) : (Output.shape f).Stable := by
  cases f with
  | redeemScript | witnessScript => exact Value.bytes_stable
  | bip32Derivation => exact ⟨Value.secpPublicKey_isKey, fun _ => Value.keySource_stable⟩
  | tapInternalKey => exact Value.xOnlyPublicKey_isKey.stable
  | tapTree => exact Value.tapTree_stable
  | tapKeyOrigins => exact ⟨Value.xOnlyPublicKey_isKey, fun _ => Value.leafHashesSource_stable⟩

theorem Output.table_lawful : Output.table.Lawful MwebOutput.table.Readable where
  typed f := by cases f <;> rfl
  proprietary := rfl
  listed f := by cases f <;> simp [Output.table]
  nodup := by simp [Output.table]
  stable := Output.shape_stable
  admitted output kv member := by
    simp only [Output.table, MwebOutput.toPairs_keyed] at member
    obtain ⟨f, _, a, _, rfl⟩ := MwebTable.mem_kvPairs.mp member
    cases f <;> exact ⟨rfl, rfl⟩
  restored output _ := by
    simp only [Output.table, List.foldl_map]
    exact output.foldl_toPairs
  noMweb := MwebTable.empty_readable
  readable output kept kv member := by
    simp only [Output.table, MwebOutput.toPairs_keyed] at member
    exact kept kv member
  applied output kv readable kept := by
    have unkeyed : (FieldMap.mwebPair (kv.1, [], kv.2.2)).Readable := ⟨Nat.zero_le _, readable.2⟩
    exact MwebTable.apply_readable MwebOutput.table_lawful unkeyed kept

end
end Litecoin.Psbt
