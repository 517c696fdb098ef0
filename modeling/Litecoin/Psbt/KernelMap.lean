import Litecoin.Psbt.Duplicates

/-! The standalone map of one MWEB kernel (`psbt/mweb/kernel.rs`): the typed fields, the
peg-outs under their indices and the unknown pairs behind them. -/
namespace Litecoin.Psbt
open Wire Consensus

namespace MwebKernel

/-- One pair of the map. Types above that of the signature are kept as they are. -/
def insertLtcdPair (kernel : MwebKernel) (pair : Pair) : Except Error MwebKernel :=
  if pair.key.typeValue ≤ typeValue .signature then
    .ok (kernel.applyField (pair.key.typeValue, pair.key.key, pair.value))
  else
    let fullKey := pair.key.typeValue :: pair.key.key
    .ok { kernel with unknowns := kernel.unknowns ++ [(fullKey, pair.value)] }

/-- Bytes behind the separator are left alone. -/
def deserializeLtcdMap (data : Bytes) : Except Error MwebKernel :=
  (decodeMap insertLtcdPair default data).map Prod.fst

def fieldPair (kv : KvPair) : Pair :=
  { key := { typeValue := kv.1, key := kv.2.1 }, value := kv.2.2 }

/-- Unknown pairs with an empty key are skipped. -/
def unknownPair : Bytes × Bytes → Option Pair
  | ([], _) => none
  | (typeValue :: key, value) => some { key := { typeValue, key }, value }

def ltcdPairs (kernel : MwebKernel) : List Pair :=
  kernel.toKvPairs.map fieldPair ++ kernel.unknowns.filterMap unknownPair

def serializeLtcdMap (kernel : MwebKernel) : Bytes := serializeMap kernel.ltcdPairs

/-- The unknown pairs have a key, and its type is none of the fields'. -/
def Tagged (kernel : MwebKernel) : Prop :=
  ∀ unknown ∈ kernel.unknowns, ∃ typeValue key,
    unknown.1 = typeValue :: key ∧ 8 < typeValue

theorem run_fieldPairs {kvs : List KvPair} (known : ∀ kv ∈ kvs, kv.1 ≤ 8) (kernel : MwebKernel) :
    run insertLtcdPair kernel (kvs.map fieldPair) = .ok (kvs.foldl applyField kernel) := by
  induction kvs generalizing kernel with
  | nil => rfl
  | cons kv rest ih =>
    rw [List.forall_mem_cons] at known
    exact (run_cons (if_pos known.1)).trans (ih known.2 _)

theorem run_unknownPairs {unknowns : List (Bytes × Bytes)}
    (tagged : ∀ unknown ∈ unknowns, ∃ typeValue key, unknown.1 = typeValue :: key ∧ 8 < typeValue)
    (kernel : MwebKernel) : run insertLtcdPair kernel (unknowns.filterMap unknownPair) =
      .ok { kernel with unknowns := kernel.unknowns ++ unknowns } := by
  induction unknowns generalizing kernel with
  | nil => simp
  | cons unknown rest ih =>
    rw [List.forall_mem_cons] at tagged
    obtain ⟨⟨typeValue, key, same, above⟩, others⟩ := tagged
    obtain ⟨fullKey, value⟩ := unknown
    obtain rfl : fullKey = typeValue :: key := same
    have kept : insertLtcdPair kernel { key := { typeValue, key }, value } =
        .ok { kernel with unknowns := kernel.unknowns ++ [(typeValue :: key, value)] } :=
      if_neg (UInt8.not_le.mpr above)
    have listed : ((typeValue :: key, value) :: rest).filterMap unknownPair =
        { key := { typeValue, key }, value } :: rest.filterMap unknownPair := rfl
    rw [listed, run_cons kept, ih others, List.append_assoc]
    rfl

theorem typeValue_le (f : Field) : typeValue f ≤ 8 := by
  cases f <;> decide

theorem toKvPairs_type (kernel : MwebKernel) : ∀ kv ∈ kernel.toKvPairs, kv.1 ≤ 8 := by
  intro kv member
  have field {fields : List Field} (inside : kv ∈ table.kvPairs fields kernel.fields) : kv.1 ≤ 8 := by
    obtain ⟨f, _, _, _, rfl⟩ := MwebTable.mem_kvPairs.mp inside
    exact typeValue_le f
  rw [toKvPairs, List.mem_append, List.mem_append] at member
  rcases member with (before | pegout) | after
  · exact field before
  · obtain ⟨entry, _, rfl⟩ := List.mem_map.mp pegout
    exact (by decide : pegoutType ≤ 8)
  · exact field after

/-- The pairs of a kernel insert it again, its peg-outs under their one-byte indices. -/
theorem run_ltcdPairs {kernel : MwebKernel} (tagged : kernel.Tagged) :
    run insertLtcdPair default kernel.ltcdPairs = .ok { kernel with
      pegouts := (pegoutUpdates kernel.pegouts).foldl (applyAt [] fun _ value => value) [] } := by
  rw [ltcdPairs, run_append (run_fieldPairs kernel.toKvPairs_type default),
    run_unknownPairs tagged, foldl_toKvPairs]
  rfl

/-- What is read back from the map of a kernel, if it is. -/
theorem deserializeLtcdMap_serialize {kernel : MwebKernel} (tagged : kernel.Tagged)
    (sized : ∀ pair ∈ kernel.ltcdPairs, pair.Sized) :
    deserializeLtcdMap kernel.serializeLtcdMap = .ok other ↔
      (∀ pair ∈ kernel.ltcdPairs, pair.Readable) ∧ other = { kernel with
        pegouts := (pegoutUpdates kernel.pegouts).foldl (applyAt [] fun _ value => value) [] } := by
  have whole : deserializeLtcdMap kernel.serializeLtcdMap = .ok other ↔
      ∃ rest, decodeMap insertLtcdPair default kernel.serializeLtcdMap = .ok (other, rest) := by
    rw [deserializeLtcdMap]
    cases decodeMap insertLtcdPair default kernel.serializeLtcdMap <;> simp [Except.map, Prod.ext_iff]
  simp only [whole, decodeMap_eq_ok]
  constructor
  · rintro ⟨rest, pairs, readable, same, ran⟩
    have unread : serializeMap kernel.ltcdPairs ++ [] = serializeMap pairs ++ rest := by
      rw [List.append_nil]
      exact same
    obtain ⟨rfl, _⟩ := serializeMap_unique sized (fun pair member =>
      (readable pair member).sized) unread
    rw [run_ltcdPairs tagged] at ran
    exact ⟨readable, (Except.ok.inj ran).symm⟩
  · rintro ⟨readable, rfl⟩
    exact ⟨[], kernel.ltcdPairs, readable, (List.append_nil _).symm, run_ltcdPairs tagged⟩

theorem pegouts_of_roundTrips {kernel : MwebKernel} (tagged : kernel.Tagged)
    (sized : ∀ pair ∈ kernel.ltcdPairs, pair.Sized)
    (accepted : deserializeLtcdMap kernel.serializeLtcdMap = .ok kernel) :
    kernel.pegouts.length ≤ 256 := by
  have restored := ((deserializeLtcdMap_serialize tagged sized).mp accepted).2
  exact foldl_pegoutUpdates_eq_iff.mp (congrArg pegouts restored).symm

/-- A kernel with up to 256 peg-outs is read back from its map as soon as all pairs
are within the limits of the reader. -/
theorem ltcdMap_roundTrips {kernel : MwebKernel} (tagged : kernel.Tagged)
    (sized : ∀ pair ∈ kernel.ltcdPairs, pair.Sized) (indexed : kernel.pegouts.length ≤ 256) :
    deserializeLtcdMap kernel.serializeLtcdMap = .ok kernel ↔
      ∀ pair ∈ kernel.ltcdPairs, pair.Readable := by
  rw [deserializeLtcdMap_serialize tagged sized, foldl_pegoutUpdates_eq_iff.mpr indexed]
  exact and_iff_left rfl

/-- A fee, two peg-outs and an unknown pair. -/
def paying : MwebKernel where
  fields := Function.update table.empty .fee (some (1000 : UInt64))
  pegouts := [[0x01], []]
  unknowns := [([0xfc, 0x00], [0x02])]

/-- Extra data that is written, but longer than a vector that is read. -/
def bulky : MwebKernel where
  fields := Function.update table.empty .extraData (some (List.replicate 4000000 (0x00 : UInt8)))
  pegouts := []
  unknowns := []

/-- More peg-outs than one byte enumerates. -/
def crowded : MwebKernel where
  fields := table.empty
  pegouts := List.replicate 257 []
  unknowns := []

theorem paying_roundTrips : deserializeLtcdMap paying.serializeLtcdMap = .ok paying := by
  have readable : ∀ pair ∈ paying.ltcdPairs, pair.Readable := by
    simp only [Pair.Readable, Key.Readable]
    decide
  refine (ltcdMap_roundTrips ?_ (fun pair member => (readable pair member).sized) ?_).mpr readable
  · intro unknown member
    obtain rfl := List.mem_singleton.mp member
    exact ⟨0xfc, [0x00], rfl, by decide⟩
  · decide

theorem bulky_crowded_lost :
    (bulky.Tagged ∧ deserializeLtcdMap bulky.serializeLtcdMap ≠ .ok bulky) ∧
      crowded.Tagged ∧ deserializeLtcdMap crowded.serializeLtcdMap ≠ .ok crowded := by
  refine ⟨⟨fun _ member => absurd member List.not_mem_nil, ?_⟩,
    fun _ member => absurd member List.not_mem_nil, ?_⟩
  · have listed : bulky.ltcdPairs =
        [{ key := { typeValue := 7, key := [] }, value := List.replicate 4000000 0x00 }] := rfl
    intro accepted
    have sized : ∀ pair ∈ bulky.ltcdPairs, pair.Sized := by
      rw [listed, List.forall_mem_singleton, Pair.Sized, List.length_replicate]
      decide
    have readable := ((deserializeLtcdMap_serialize
      (fun _ member => absurd member List.not_mem_nil) sized).mp accepted).1
    rw [listed, List.forall_mem_singleton] at readable
    have short := readable.2
    simp only [sizedWire, List.length_append, List.length_replicate, maxVecSize] at short
    have counted : 1 ≤ (VarInt.wire (UInt64.ofNat 4000000)).length := by decide
    omega
  · intro accepted
    have readable : ∀ pair ∈ crowded.ltcdPairs, pair.Readable := by
      simp only [Pair.Readable, Key.Readable]
      decide +kernel
    have short := pegouts_of_roundTrips (fun _ member => absurd member List.not_mem_nil)
      (fun pair member => (readable pair member).sized) accepted
    rw [crowded, List.length_replicate] at short
    omega

end MwebKernel
end Litecoin.Psbt
