import Litecoin.Psbt.Raw

/-! The byte grammar of maps: a map is read exactly when its bytes are the images of
pairs that the insertion accepts one after the other. -/
namespace Litecoin.Psbt
open Wire Consensus

theorem fromConsensus_eq_ok {d : Decoder Consensus.Error α} :
    fromConsensus d bytes = .ok (a, rest) ↔ d bytes = .ok (a, rest) :=
  Decoder.mapError_eq_ok

theorem Reads.fromConsensus {d : Decoder Consensus.Error α} (reads : Reads d wire Valid) :
    Reads (fromConsensus d) wire Valid := fun bytes a rest =>
  fromConsensus_eq_ok.trans (reads bytes a rest)

/-- The image of a byte vector and its length. -/
def sizedWire (data : Bytes) : Bytes := VarInt.wire (UInt64.ofNat data.length) ++ data

theorem bytesWire_eq (data : ByteVec) : bytesWire data = sizedWire data.toList := rfl

theorem length_lt_of_sizedWire {data : Bytes} (short : (sizedWire data).length ≤ maxVecSize) :
    data.length < 2 ^ 64 := by
  rw [sizedWire, List.length_append] at short
  simp only [maxVecSize] at short
  omega

namespace Key

/-- Key data that the reader allocates. -/
def Readable (key : Key) : Prop := key.key.length ≤ maxVecSize

theorem each_encodeU8 (bytes : Bytes) : Emission.each encodeU8 bytes = .written bytes := by
  have emits : ∀ byte ∈ bytes, encodeU8 byte = .written [byte] := fun byte _ => by
    rw [readU8_codec.emits, littleEndian_one]
  rw [Emission.each_written emits, List.flatMap_singleton']

theorem serialize_eq (key : Key) :
    key.serialize = VarInt.wire (UInt64.ofNat (key.key.length + 1)) ++ (key.typeValue :: key.key) := by
  rw [serialize, sizeVarInt, VarInt.codec.emits, readU8_codec.emits, littleEndian_one, each_encodeU8]
  simp

theorem toNat_size {n : Nat} (short : n ≤ maxVecSize) : (UInt64.ofNat (n + 1)).toNat = n + 1 := by
  rw [UInt64.toNat_ofNat']
  simp only [maxVecSize] at short
  omega

theorem toNat_pos {n : UInt64} (nonzero : n ≠ 0) : 1 ≤ n.toNat := by
  rw [Nat.one_le_iff_ne_zero]
  exact fun zero => nonzero (UInt64.toNat_inj.mp zero)

theorem toNat_pred {n : UInt64} (nonzero : n ≠ 0) : (n - 1).toNat = n.toNat - 1 :=
  UInt64.toNat_sub_of_le _ _ (UInt64.le_iff_toNat_le.mpr (toNat_pos nonzero))

theorem times_readU8_eq_ok {bytes rest : Bytes} {data : { data : Bytes // data.length = n }} :
    readU8.times n bytes = .ok (data, rest) ↔ bytes = data.val ++ rest := by
  have reads := readU8_codec.reads.times n bytes data rest
  simp only [littleEndian_one, implies_true, true_and, List.flatMap_singleton'] at reads
  exact reads

/-- The image of the next key, or of the end of the map. -/
def nextWire : Option Key → Bytes
  | none => [0x00]
  | some key => key.serialize

theorem decode_reads : Reads decode nextWire (fun next => ∀ key ∈ next, key.Readable) := by
  intro bytes next rest
  simp only [decode, Decoder.bind_eq_ok, Decoder.ite_eq_ok, Decoder.pure_eq_ok, Decoder.fail_eq_ok,
    fromConsensus_eq_ok, VarInt.reads _ _ _, readU8_codec.reads _ _ _, times_readU8_eq_ok,
    littleEndian_one, true_and, and_false, false_or]
  cases next with
  | none =>
    simp only [nextWire, Option.not_mem_none, false_imp_iff, implies_true, true_and, reduceCtorEq,
      false_and, and_false, exists_false, or_false]
    constructor
    · rintro ⟨_, _, rfl, rfl, rfl⟩
      rfl
    · rintro rfl
      exact ⟨0, rest, rfl, rfl, rfl⟩
  | some key =>
    simp only [nextWire, reduceCtorEq, false_and, and_false, false_or, Option.mem_def,
      Option.some.injEq, forall_eq']
    rw [serialize_eq]
    constructor
    · rintro ⟨byteSize, _, rfl, nonzero, short, typeValue, _, rfl, ⟨data, size⟩, _, rfl, rfl, rfl⟩
      rw [toNat_pred nonzero] at size short
      have positive := toNat_pos nonzero
      have same : byteSize = UInt64.ofNat (data.length + 1) := by
        rw [size, Nat.sub_add_cancel positive, UInt64.ofNat_toNat]
      refine ⟨Nat.not_lt.mp (size ▸ short), ?_⟩
      dsimp only
      rw [← same]
      simp
    · rintro ⟨readable, rfl⟩
      have size := toNat_size readable
      have nonzero : UInt64.ofNat (key.key.length + 1) ≠ 0 := by
        intro zero
        rw [zero] at size
        exact Nat.succ_ne_zero _ size.symm
      have length : key.key.length = (UInt64.ofNat (key.key.length + 1) - 1).toNat := by
        rw [toNat_pred nonzero, size, Nat.add_sub_cancel]
      exact ⟨_, _, List.append_assoc _ _ _, nonzero, length ▸ Nat.not_lt.mpr readable,
        key.typeValue, _, rfl, ⟨key.key, length⟩, rest, rfl, rfl, rfl⟩

end Key

namespace Pair

/-- Pairs that the reader takes in. -/
def Readable (pair : Pair) : Prop :=
  pair.key.Readable ∧ (sizedWire pair.value).length ≤ maxVecSize

theorem serialize_eq (pair : Pair) : pair.serialize = pair.key.serialize ++ sizedWire pair.value := by
  rw [serialize, sizeVarInt, VarInt.codec.emits]
  rfl

def nextWire : Option Pair → Bytes
  | none => [0x00]
  | some pair => pair.serialize

theorem decodeValue_eq_ok {bytes rest : Bytes} {value : ByteVec} :
    Consensus.consensusDecode decodeBytes bytes = .ok (value, rest) ↔
      (sizedWire value.toList).length ≤ maxVecSize ∧ bytes = sizedWire value.toList ++ rest := by
  simp only [Consensus.consensusDecode, decodeBytes_reads.take maxVecSize bytes value rest, true_and,
    bytesWire_eq]

theorem decode_reads : Reads decode nextWire (fun next => ∀ pair ∈ next, pair.Readable) := by
  intro bytes next rest
  simp only [decode, Decoder.bind_eq_ok, Key.decode_reads _ _ _]
  constructor
  · rintro ⟨key, middle, ⟨readable, rfl⟩, read⟩
    cases key with
    | none =>
      obtain ⟨rfl, rfl⟩ := Decoder.pure_eq_ok.mp read
      exact ⟨fun _ member => absurd member (Option.not_mem_none _), rfl⟩
    | some key =>
      simp only [Decoder.bind_eq_ok, Decoder.pure_eq_ok, fromConsensus_eq_ok, decodeValue_eq_ok]
        at read
      obtain ⟨value, _, ⟨short, rfl⟩, rfl, rfl⟩ := read
      refine ⟨?_, ?_⟩
      · rintro _ ⟨⟩
        exact ⟨readable key rfl, short⟩
      · rw [nextWire, serialize_eq, List.append_assoc]
        rfl
  · rintro ⟨readable, rfl⟩
    cases next with
    | none =>
      exact ⟨none, rest, ⟨fun _ member => absurd member (Option.not_mem_none _), rfl⟩, rfl⟩
    | some pair =>
      obtain ⟨keyReadable, short⟩ := readable pair rfl
      refine ⟨some pair.key, sizedWire pair.value ++ rest, ⟨?_, ?_⟩, ?_⟩
      · rintro _ ⟨⟩
        exact keyReadable
      · rw [nextWire, serialize_eq, List.append_assoc]
        rfl
      · simp only [Decoder.bind_eq_ok, Decoder.pure_eq_ok, fromConsensus_eq_ok, decodeValue_eq_ok]
        exact ⟨⟨pair.value, length_lt_of_sizedWire short⟩, rest, ⟨short, rfl⟩, rfl, rfl⟩

theorem serialize_length_pos (pair : Pair) : 1 ≤ pair.serialize.length := by
  rw [serialize_eq, Key.serialize_eq]
  simp only [List.length_append, List.length_cons]
  omega

end Pair

theorem decodePairs_eq_ok {insertPair : σ → Pair → Except Error σ} :
    decodePairs insertPair fuel state bytes = .ok (final, rest) ↔
      ∃ pairs, pairs.length < fuel ∧ (∀ pair ∈ pairs, pair.Readable) ∧
        bytes = serializeMap pairs ++ rest ∧ run insertPair state pairs = .ok final := by
  induction fuel generalizing state bytes with
  | zero => simp [decodePairs]
  | succ fuel ih =>
    simp only [decodePairs, Decoder.bind_eq_ok, Pair.decode_reads _ _ _]
    constructor
    · rintro ⟨next, middle, ⟨readable, rfl⟩, read⟩
      cases next with
      | none =>
        obtain ⟨rfl, rfl⟩ := Decoder.pure_eq_ok.mp read
        exact ⟨[], Nat.succ_pos _, fun _ member => absurd member List.not_mem_nil, rfl, rfl⟩
      | some pair =>
        simp only [Decoder.bind_eq_ok, Decoder.ofExcept_eq_ok, ih] at read
        obtain ⟨next, _, ⟨inserted, rfl⟩, pairs, count, others, rfl, ran⟩ := read
        refine ⟨pair :: pairs, Nat.succ_lt_succ count,
          List.forall_mem_cons.mpr ⟨readable pair rfl, others⟩, ?_,
          run_cons_eq_ok.mpr ⟨next, inserted, ran⟩⟩
        rw [serializeMap, serializeMap, List.flatMap_cons, List.append_assoc, List.append_assoc]
        simp only [Pair.nextWire, List.append_assoc]
    · rintro ⟨pairs, count, readable, rfl, ran⟩
      cases pairs with
      | nil =>
        obtain rfl := Except.ok.inj ran
        exact ⟨none, rest, ⟨fun _ member => absurd member (Option.not_mem_none _), rfl⟩, rfl⟩
      | cons pair pairs =>
        obtain ⟨next, inserted, ran⟩ := run_cons_eq_ok.mp ran
        rw [List.forall_mem_cons] at readable
        refine ⟨some pair, serializeMap pairs ++ rest, ⟨?_, ?_⟩, ?_⟩
        · rintro _ ⟨⟩
          exact readable.1
        · simp only [serializeMap, List.flatMap_cons, Pair.nextWire, List.append_assoc]
        · simp only [Decoder.bind_eq_ok, Decoder.ofExcept_eq_ok, ih]
          exact ⟨next, _, ⟨inserted, rfl⟩, pairs, Nat.lt_of_succ_lt_succ count, readable.2, rfl, ran⟩

theorem length_le_serializeMap (pairs : List Pair) : pairs.length < (serializeMap pairs).length := by
  rw [serializeMap, List.length_append, List.length_singleton, Nat.lt_succ_iff]
  induction pairs with
  | nil => exact Nat.le_refl _
  | cons pair pairs ih =>
    have first := pair.serialize_length_pos
    rw [List.flatMap_cons, List.length_append, List.length_cons]
    omega

/-- A map is read exactly when it is the image of pairs that are inserted one after
the other. -/
theorem decodeMap_eq_ok {insertPair : σ → Pair → Except Error σ} :
    decodeMap insertPair state bytes = .ok (final, rest) ↔
      ∃ pairs, (∀ pair ∈ pairs, pair.Readable) ∧ bytes = serializeMap pairs ++ rest ∧
        run insertPair state pairs = .ok final := by
  rw [decodeMap, decodePairs_eq_ok]
  constructor
  · rintro ⟨pairs, _, accepted⟩
    exact ⟨pairs, accepted⟩
  · rintro ⟨pairs, readable, rfl, ran⟩
    have count := length_le_serializeMap pairs
    refine ⟨pairs, ?_, readable, rfl, ran⟩
    rw [List.length_append]
    omega

/-- A map within the limit of a value only holds readable pairs. -/
theorem readable_of_length {pairs : List Pair} (short : (serializeMap pairs).length ≤ maxVecSize) :
    ∀ pair ∈ pairs, pair.Readable := by
  intro pair member
  have part : pair.serialize.length ≤ (pairs.flatMap Pair.serialize).length := by
    rw [List.flatMap_def]
    exact (List.sublist_flatten_of_mem (List.mem_map_of_mem member)).length_le
  rw [serializeMap, List.length_append] at short
  rw [Pair.serialize_eq, Key.serialize_eq, List.length_append, List.length_append,
    List.length_cons] at part
  exact ⟨by rw [Key.Readable]; omega, by omega⟩

/-- The pairs of a map, whatever they are. -/
def readPairs : Decoder Error (List Pair) := decodeMap (fun taken pair => .ok (taken ++ [pair])) []

theorem readPairs_reads : Reads readPairs serializeMap (fun pairs => ∀ pair ∈ pairs, pair.Readable) := by
  intro bytes pairs rest
  have taken : ∀ pairs taken : List Pair,
      run (fun taken pair => (.ok (taken ++ [pair]) : Except Error (List Pair))) taken pairs =
        .ok (taken ++ pairs) := by
    intro pairs
    induction pairs with
    | nil => intro taken; rw [List.append_nil]; rfl
    | cons pair pairs ih =>
      intro taken
      rw [run_cons rfl, ih, List.append_assoc]
      rfl
  simp only [readPairs, decodeMap_eq_ok, taken, List.nil_append, Except.ok.injEq]
  constructor
  · rintro ⟨_, readable, rfl, rfl⟩
    exact ⟨readable, rfl⟩
  · rintro ⟨readable, rfl⟩
    exact ⟨pairs, readable, rfl, rfl⟩

end Litecoin.Psbt
