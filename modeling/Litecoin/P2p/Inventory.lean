import Litecoin.P2p.Network

/-! Inventories (`message_blockdata.rs`). An error item is written with 32 zero bytes that
its reader leaves for the next item. -/
namespace Litecoin.P2p
open Wire Consensus

inductive Inventory where
  | error
  | transaction (txid : ByteArr 32)
  | block (hash : ByteArr 32)
  | compactBlock (hash : ByteArr 32)
  | wTx (wtxid : ByteArr 32)
  | witnessTransaction (txid : ByteArr 32)
  | witnessBlock (hash : ByteArr 32)
  | unknown (invType : UInt32) (hash : ByteArr 32)
deriving DecidableEq

namespace Inventory

/-- `encode_inv!`. -/
def encodeInv (code : UInt32) (item : ByteArr 32) : Emission IoError :=
  encodeU32 code ++ encodeArray item

/-- `Hash::all_zeros`. -/
def allZeros : ByteArr 32 := ⟨(Vector.replicate 32 0).toList, Vector.length_toList⟩

def consensusEncode : Inventory → Emission IoError
  | .error => encodeInv 0 allZeros
  | .transaction t => encodeInv 1 t
  | .block b => encodeInv 2 b
  | .compactBlock b => encodeInv 4 b
  | .wTx w => encodeInv 5 w
  | .witnessTransaction t => encodeInv 0x40000001 t
  | .witnessBlock b => encodeInv 0x40000002 b
  | .unknown t d => encodeInv t d

def decodeOf (invType : UInt32) : Decoder Error Inventory :=
  if invType = 0 then pure .error
  else if invType = 1 then .transaction <$> readExact 32
  else if invType = 2 then .block <$> readExact 32
  else if invType = 4 then .compactBlock <$> readExact 32
  else if invType = 5 then .wTx <$> readExact 32
  else if invType = 0x40000001 then .witnessTransaction <$> readExact 32
  else if invType = 0x40000002 then .witnessBlock <$> readExact 32
  else .unknown invType <$> readExact 32

def consensusDecode : Decoder Error Inventory := do
  let invType ← readU32
  decodeOf invType

/-- The number in front of an item. -/
def code : Inventory → UInt32
  | .error => 0
  | .transaction _ => 1
  | .block _ => 2
  | .compactBlock _ => 4
  | .wTx _ => 5
  | .witnessTransaction _ => 0x40000001
  | .witnessBlock _ => 0x40000002
  | .unknown invType _ => invType

/-- The hash that is written. -/
def hash : Inventory → ByteArr 32
  | .error => allZeros
  | .transaction hash | .block hash | .compactBlock hash | .wTx hash | .witnessTransaction hash
  | .witnessBlock hash | .unknown _ hash => hash

def wire (item : Inventory) : Bytes := littleEndian 4 item.code.toNat ++ item.hash.val

/-- The bytes that an item is read from. -/
def span (item : Inventory) : Bytes :=
  littleEndian 4 item.code.toNat ++ if item = .error then [] else item.hash.val

theorem consensusEncode_eq (item : Inventory) : item.consensusEncode = .written item.wire := by
  have written (code : UInt32) (hash : ByteArr 32) :
      encodeInv code hash = .written (littleEndian 4 code.toNat ++ hash.val) := by
    rw [encodeInv, readU32_codec.emits, (readExact_codec 32).emits, Emission.written_append]
  cases item <;> exact written _ _

/-- Only error items have the number zero. -/
def Readable (item : Inventory) : Prop := item.code = 0 → item = .error

theorem decodeOf_eq_ok {invType : UInt32} (read : decodeOf invType bytes = .ok (item, rest)) :
    item.code = invType ∧ item.Readable ∧
      bytes = (if item = .error then [] else item.hash.val) ++ rest := by
  have hashed (make : ByteArr 32 → Inventory)
      (made : ∀ hash, (make hash).hash = hash ∧ make hash ≠ .error)
      (read : (make <$> readExact 32 : Decoder Error Inventory) bytes = .ok (item, rest)) :
      ∃ hash, item = make hash ∧ bytes = (if item = .error then [] else item.hash.val) ++ rest := by
    obtain ⟨hash, readHash, rfl⟩ := Decoder.map_eq_ok.mp read
    obtain ⟨-, rfl⟩ := ((readExact_codec 32).reads _ _ _).mp readHash
    exact ⟨hash, rfl, by rw [if_neg (made hash).2, (made hash).1]⟩
  have numbered (number : item.code = invType) (nonzero : invType ≠ 0)
      (same : bytes = (if item = .error then [] else item.hash.val) ++ rest) :
      item.code = invType ∧ item.Readable ∧
        bytes = (if item = .error then [] else item.hash.val) ++ rest :=
    ⟨number, fun nothing => absurd (number.symm.trans nothing) nonzero, same⟩
  rw [decodeOf] at read
  split_ifs at read with zero one two four five witnessTx witnessBlock
  · obtain ⟨rfl, rfl⟩ := Decoder.pure_eq_ok.mp read
    exact ⟨zero.symm, fun _ => rfl, rfl⟩
  all_goals
    obtain ⟨hash, rfl, same⟩ := hashed _ (fun _ => ⟨rfl, by simp⟩) read
    refine numbered ?_ zero same
    first | rfl | exact Eq.symm ‹_›

theorem consensusDecode_eq_ok (read : consensusDecode bytes = .ok (item, rest)) :
    item.Readable ∧ bytes = item.span ++ rest := by
  obtain ⟨invType, middle, readType, readItem⟩ := Decoder.bind_eq_ok.mp read
  obtain ⟨-, rfl⟩ := (readU32_codec.reads _ _ _).mp readType
  obtain ⟨number, readable, rfl⟩ := decodeOf_eq_ok readItem
  exact ⟨readable, by rw [span, number, List.append_assoc]⟩

theorem times_eq_ok {items : { items : List Inventory // items.length = n }}
    (read : consensusDecode.times n bytes = .ok (items, rest)) :
    (∀ item ∈ items.val, item.Readable) ∧ bytes = items.val.flatMap span ++ rest := by
  induction n generalizing bytes with
  | zero =>
    obtain ⟨rfl, rfl⟩ := Decoder.pure_eq_ok.mp read
    exact ⟨by simp, rfl⟩
  | succ n ih =>
    obtain ⟨item, middle, readItem, read⟩ := Decoder.bind_eq_ok.mp read
    obtain ⟨others, left, readOthers, read⟩ := Decoder.bind_eq_ok.mp read
    obtain ⟨rfl, rfl⟩ := Decoder.pure_eq_ok.mp read
    obtain ⟨readable, rfl⟩ := consensusDecode_eq_ok readItem
    obtain ⟨readables, rfl⟩ := ih readOthers
    refine ⟨List.forall_mem_cons.mpr ⟨readable, readables⟩, ?_⟩
    rw [List.flatMap_cons, List.append_assoc]

theorem span_error : span .error = List.replicate 4 0 := rfl

theorem wire_error : wire .error = List.replicate 36 0 := rfl

theorem span_eq_wire {item : Inventory} (other : item ≠ .error) : item.span = item.wire := by
  rw [span, wire, if_neg other]

theorem replicate_add_cancel {a : α} {n m : Nat} {left right : List α} :
    List.replicate n a ++ left = List.replicate (n + m) a ++ right ↔
      left = List.replicate m a ++ right := by
  rw [List.replicate_add, List.append_assoc, List.append_cancel_left_eq]

/-- Behind an error item, the zeros that belong to it are read as more error items. -/
theorem spans_behind_error {items : List Inventory} (readable : ∀ item ∈ items, item.Readable)
    (zeros : Nat) : items.flatMap span ++ rest = List.replicate (zeros + 4) 0 ++ items.flatMap wire ↔
      (∀ item ∈ items, item = .error) ∧
        rest = List.replicate (zeros + 4 + 32 * items.length) 0 := by
  induction items generalizing zeros with
  | nil => simp
  | cons item items ih =>
    obtain ⟨first, others⟩ := List.forall_mem_cons.mp readable
    by_cases isError : item = .error
    · subst isError
      rw [List.flatMap_cons, List.flatMap_cons, span_error, wire_error, ← List.append_assoc,
        List.replicate_append_replicate, List.append_assoc, Nat.add_comm zeros 4, Nat.add_assoc,
        replicate_add_cancel]
      rw [show zeros + 36 = (zeros + 32) + 4 by omega, ih others, List.forall_mem_cons]
      have total : zeros + 32 + 4 + 32 * items.length = 4 + zeros + 32 * (items.length + 1) := by omega
      rw [total, List.length_cons]
      simp
    · have nonzero : item.code ≠ 0 := fun zero => isError (first zero)
      refine iff_of_false (fun same => ?_) fun all => isError (all.1 item List.mem_cons_self)
      have heads := congrArg (List.take 4) same
      have short : (littleEndian 4 item.code.toNat).length = 4 := littleEndian_length _ _
      rw [List.flatMap_cons, span, List.append_assoc, List.append_assoc, List.take_left' short,
        Nat.add_comm zeros 4, List.replicate_add, List.append_assoc,
        List.take_left' List.length_replicate] at heads
      have value := congrArg fromLittleEndian heads
      rw [fromLittleEndian_littleEndian item.code.toNat_lt] at value
      exact nonzero (UInt32.toNat_inj.mp value)

/-- Error items, if any, come last and are followed by the zeros that belong to them. -/
def TrailingErrors (items : List Inventory) (rest : Bytes) : Prop :=
  (∀ item ∈ items.dropWhile (· ≠ .error), item = .error) ∧
    rest = List.replicate (32 * items.count .error) 0

theorem spans_eq_wires {items : List Inventory} (readable : ∀ item ∈ items, item.Readable) :
    items.flatMap span ++ rest = items.flatMap wire ↔ TrailingErrors items rest := by
  induction items with
  | nil => simp [TrailingErrors]
  | cons item items ih =>
    obtain ⟨first, others⟩ := List.forall_mem_cons.mp readable
    by_cases isError : item = .error
    · subst isError
      rw [List.flatMap_cons, List.flatMap_cons, span_error, wire_error, List.append_assoc]
      rw [show (36 : Nat) = 4 + 32 from rfl, replicate_add_cancel, show (32 : Nat) = 28 + 4 from rfl,
        spans_behind_error others, TrailingErrors]
      simp only [ne_eq, not_true, decide_false, Bool.false_eq_true, not_false_eq_true,
        List.dropWhile_cons_of_neg, List.forall_mem_cons, true_and, List.count_cons_self]
      refine and_congr_right fun errors => ?_
      rw [List.count_eq_length.mpr fun item member => (errors item member).symm]
      rw [Nat.mul_add, Nat.add_comm (32 * _)]
    · rw [List.flatMap_cons, List.flatMap_cons, span_eq_wire isError, List.append_assoc,
        List.append_cancel_left_eq, ih others, TrailingErrors, TrailingErrors,
        List.dropWhile_cons_of_pos (by simpa using isError), List.count_cons_of_ne isError]

instance decidableTrailingErrors (items : List Inventory) (rest : Bytes) :
    Decidable (TrailingErrors items rest) :=
  inferInstanceAs (Decidable (_ ∧ _))

/-- What the bytes of a list were, and what they are when it is written. -/
theorem decodeVec_eq_ok {items : Vec Inventory}
    (read : decodeVec consensusDecode bytes = .ok (items, rest)) :
    (∀ item ∈ items.toList, item.Readable) ∧
      bytes = VarInt.wire items.len ++ (items.toList.flatMap span ++ rest) := by
  obtain ⟨len, middle, readLen, read⟩ := Decoder.bind_eq_ok.mp read
  obtain ⟨elements, left, readElements, read⟩ := Decoder.bind_eq_ok.mp read
  obtain ⟨rfl, rfl⟩ := Decoder.pure_eq_ok.mp read
  obtain ⟨-, rfl⟩ := (VarInt.reads _ _ _).mp readLen
  obtain ⟨readable, rfl⟩ := times_eq_ok readElements
  have number : (⟨elements.val, by rw [elements.property]; exact len.toNat_lt⟩ : Vec Inventory).len =
      len := by
    rw [Vec.len, elements.property, UInt64.ofNat_toNat]
  exact ⟨readable, by rw [number]⟩

/-- An inventory that is written as the bytes it was read from. -/
theorem decodeVec_rewritten {items : Vec Inventory}
    (read : decodeVec consensusDecode bytes = .ok (items, rest)) :
    ∃ image, encodeVec consensusEncode items = .written image ∧
      (TrailingErrors items.toList rest ↔ bytes = image) := by
  obtain ⟨readable, rfl⟩ := decodeVec_eq_ok read
  refine ⟨_, encodeVec_eq fun item _ => consensusEncode_eq item, ?_⟩
  rw [← spans_eq_wires readable, vecWire, List.append_cancel_left_eq]

/-- The numbers that a variant of its own goes with. -/
def knownTypes : List UInt32 := [0, 1, 2, 4, 5, 0x40000001, 0x40000002]

/-- An unknown type is not one of the known ones. -/
def Proper (item : Inventory) : Prop :=
  ∀ invType hash, item = .unknown invType hash → invType ∉ knownTypes

theorem decodeOf_code {item : Inventory} (proper : item.Proper) (other : item ≠ .error) (rest : Bytes) :
    decodeOf item.code (item.hash.val ++ rest) = .ok (item, rest) := by
  have hashed (make : ByteArr 32 → Inventory) (hash : ByteArr 32) :
      (make <$> readExact 32 : Decoder Error Inventory) (hash.val ++ rest) = .ok (make hash, rest) :=
    Decoder.map_eq_ok.mpr ⟨hash, (readExact_codec 32).reads.read trivial rest, rfl⟩
  cases item with
  | error => contradiction
  | unknown invType hash =>
    have listed := proper invType hash rfl
    simp only [knownTypes, List.mem_cons, List.not_mem_nil, or_false, not_or] at listed
    obtain ⟨zero, one, two, four, five, witnessTx, witnessBlock⟩ := listed
    rw [decodeOf, code, if_neg zero, if_neg one, if_neg two, if_neg four, if_neg five,
      if_neg witnessTx, if_neg witnessBlock]
    exact hashed (.unknown invType) hash
  | _ => exact hashed _ _

theorem consensusDecode_wire {item : Inventory} (proper : item.Proper) (other : item ≠ .error)
    (rest : Bytes) : consensusDecode (item.wire ++ rest) = .ok (item, rest) := by
  rw [wire, List.append_assoc]
  exact Decoder.bind_eq_ok.mpr ⟨item.code, _, readU32_codec.reads.read trivial _,
    decodeOf_code proper other rest⟩

theorem wire_length (item : Inventory) : item.wire.length = 36 := by
  rw [wire, List.length_append, littleEndian_length, item.hash.property]

theorem length_wires (items : List Inventory) : (items.flatMap wire).length = 36 * items.length := by
  induction items with
  | nil => rfl
  | cons item items ih =>
    rw [List.flatMap_cons, List.length_append, wire_length, ih, List.length_cons]
    omega

/-- An error item is read from 32 bytes less than it is written with. -/
theorem length_spans (items : List Inventory) :
    (items.flatMap span).length + 32 * items.count .error = (items.flatMap wire).length := by
  induction items with
  | nil => rfl
  | cons item items ih =>
    rw [List.flatMap_cons, List.flatMap_cons, List.length_append, List.length_append, ← ih]
    by_cases isError : item = .error
    · subst isError
      rw [List.count_cons_self, span_error, wire_error, List.length_replicate, List.length_replicate]
      omega
    · rw [List.count_cons_of_ne isError, span_eq_wire isError, Nat.add_assoc]

theorem spans_eq_wires_iff {items : List Inventory} :
    items.flatMap span = items.flatMap wire ↔ .error ∉ items := by
  constructor
  · intro same
    have lengths := length_spans items
    rw [same] at lengths
    exact List.count_eq_zero.mp (by omega)
  · intro none
    rw [List.flatMap_def, List.flatMap_def]
    refine congrArg List.flatten (List.map_congr_left fun item member => span_eq_wire ?_)
    rintro rfl
    exact none member

/-- The limit on the reader hides nothing of what it accepts. -/
theorem taken_eq_ok {items : Vec Inventory}
    (read : Consensus.consensusDecode (decodeVec consensusDecode) bytes = .ok (items, rest)) :
    (∀ item ∈ items.toList, item.Readable) ∧
      bytes = VarInt.wire items.len ++ (items.toList.flatMap span ++ rest) := by
  obtain ⟨left, cut, rfl⟩ := Decoder.take_eq_ok.mp read
  obtain ⟨readable, same⟩ := decodeVec_eq_ok cut
  refine ⟨readable, ?_⟩
  rw [← List.append_assoc (items.toList.flatMap span), ← List.append_assoc, ← same,
    List.take_append_drop]

/-- The limit on the reader takes nothing away from an image that is not longer. -/
theorem taken_image {items : Vec Inventory}
    (each : ∀ item ∈ items.toList, ∀ rest, consensusDecode (item.wire ++ rest) = .ok (item, rest))
    (bound : (vecWire wire items).length ≤ maxVecSize) (rest : Bytes) :
    Consensus.consensusDecode (decodeVec consensusDecode) (vecWire wire items ++ rest) =
      .ok (items, rest) := by
  refine Decoder.take_eq_ok.mpr ⟨rest.take (maxVecSize - (vecWire wire items).length), ?_, ?_⟩
  · rw [List.take_append, List.take_of_length_le bound]
    exact decodeVec_images each _
  · rw [List.drop_append, List.drop_of_length_le bound, List.nil_append, List.take_append_drop]

/-- The count is followed by as many items of 36 bytes, and none of them starts with the number of
an error. -/
def Aligned (bytes : Bytes) : Prop :=
  ∃ (len : UInt64) (blocks : List (ByteArr 36)) (rest : Bytes), blocks.length = len.toNat ∧
    (∀ block ∈ blocks, block.val.take 4 ≠ List.replicate 4 0) ∧
    bytes = VarInt.wire len ++ (blocks.flatMap Subtype.val ++ rest)

theorem code_eq_zero_iff (item : Inventory) :
    littleEndian 4 item.code.toNat = List.replicate 4 0 ↔ item.code = 0 := by
  constructor
  · intro zeros
    have value := congrArg fromLittleEndian zeros
    rw [fromLittleEndian_littleEndian item.code.toNat_lt] at value
    exact UInt32.toNat_inj.mp value
  · intro zero
    rw [zero]
    rfl

theorem take_wire (item : Inventory) : item.wire.take 4 = littleEndian 4 item.code.toNat :=
  List.take_left' (littleEndian_length 4 _)

/-- Blocks that are read as items hold no errors. -/
theorem error_not_mem_of_blocks {items : List Inventory} {blocks : List (ByteArr 36)}
    (count : blocks.length = items.length)
    (nonzero : ∀ block ∈ blocks, block.val.take 4 ≠ List.replicate 4 0)
    (same : items.flatMap span ++ rest = blocks.flatMap Subtype.val ++ rest') : .error ∉ items := by
  induction items generalizing blocks with
  | nil => exact List.not_mem_nil
  | cons item items ih =>
    cases blocks with
    | nil => contradiction
    | cons block blocks =>
      rw [List.forall_mem_cons] at nonzero
      rw [List.flatMap_cons, List.flatMap_cons, List.append_assoc, List.append_assoc] at same
      have number : block.val.take 4 = littleEndian 4 item.code.toNat := by
        have heads := congrArg (List.take 4) same
        rw [span, List.append_assoc, List.take_left' (littleEndian_length 4 _),
          List.take_append_of_le_length (by rw [block.property]; decide)] at heads
        exact heads.symm
      have other : .error ≠ item := by
        rintro rfl
        exact nonzero.1 number
      have whole : item.span.length = block.val.length := by
        rw [span_eq_wire (Ne.symm other), wire_length, block.property]
      have others := (List.append_inj same whole).2
      exact List.not_mem_cons_of_ne_of_not_mem other (ih (Nat.succ.inj count) nonzero.2 others)

theorem aligned_iff {items : Vec Inventory} (readable : ∀ item ∈ items.toList, item.Readable) :
    Aligned (VarInt.wire items.len ++ (items.toList.flatMap span ++ rest)) ↔
      .error ∉ items.toList := by
  constructor
  · rintro ⟨len, blocks, rest', count, nonzero, same⟩
    obtain ⟨number, tails⟩ := VarInt.reads.unique trivial trivial same
    rw [← number, Vec.len_toNat] at count
    exact error_not_mem_of_blocks count nonzero tails
  · intro none
    refine ⟨items.len, items.toList.map fun item => ⟨item.wire, item.wire_length⟩, rest, ?_, ?_, ?_⟩
    · rw [List.length_map, Vec.len_toNat]
    · rw [List.forall_mem_map]
      intro item member zeros
      rw [take_wire, code_eq_zero_iff] at zeros
      exact none (readable item member zeros ▸ member)
    · rw [List.flatMap_map, spans_eq_wires_iff.mpr none]

/-- A list is read back from what it is written as exactly when there is no error in it, and
bytes that are accepted are written again exactly when they have no error in them. -/
theorem lists_in_step (items : Vec Inventory) :
    ((∀ item ∈ items.toList, item.Proper) →
      ∃ image, encodeVec consensusEncode items = .written image ∧
        image.length = VarInt.size items.len + 36 * items.toList.length ∧
        (image.length ≤ maxVecSize → ∀ rest,
          Consensus.consensusDecode (decodeVec consensusDecode) (image ++ rest) = .ok (items, rest) ↔
            .error ∉ items.toList)) ∧
    ∀ bytes rest, Consensus.consensusDecode (decodeVec consensusDecode) bytes = .ok (items, rest) →
      ∃ image, encodeVec consensusEncode items = .written image ∧
        (bytes = image ++ rest ↔ Aligned bytes) := by
  constructor
  · intro proper
    refine ⟨_, encodeVec_eq fun item _ => consensusEncode_eq item, ?_, ?_⟩
    · rw [vecWire, List.length_append, VarInt.wire_length, length_wires]
    · intro bound rest
      constructor
      · intro read
        obtain ⟨-, same⟩ := taken_eq_ok read
        rw [vecWire, List.append_assoc, List.append_cancel_left_eq,
          List.append_cancel_right_eq] at same
        exact spans_eq_wires_iff.mp same.symm
      · intro none
        refine taken_image (fun item member rest => ?_) bound rest
        refine consensusDecode_wire (proper item member) ?_ rest
        rintro rfl
        exact none member
  · intro bytes rest read
    refine ⟨_, encodeVec_eq fun item _ => consensusEncode_eq item, ?_⟩
    obtain ⟨readable, rfl⟩ := taken_eq_ok read
    rw [aligned_iff readable, vecWire, List.append_assoc, List.append_cancel_left_eq,
      List.append_cancel_right_eq]
    exact spans_eq_wires_iff

/-- A type without a variant next to a hash. -/
theorem unknown_in_step :
    ∃ image, encodeVec consensusEncode (Vec.singleton (.unknown 3 allZeros)) = .written image ∧
      image.length = 37 ∧
      Consensus.consensusDecode (decodeVec consensusDecode) (image ++ [7]) =
        .ok (Vec.singleton (.unknown 3 allZeros), [7]) := by
  have proper : ∀ item ∈ (Vec.singleton (unknown 3 allZeros)).toList, item.Proper := by
    intro item member invType hash same
    obtain rfl := List.mem_singleton.mp member
    obtain ⟨rfl, -⟩ := Inventory.unknown.inj same
    decide
  obtain ⟨image, written, total, read⟩ :=
    (lists_in_step (Vec.singleton (.unknown 3 allZeros))).1 proper
  have length : image.length = 37 := total
  exact ⟨image, written, length, (read (by rw [length]; decide) [7]).mpr (by decide)⟩

/-- An error in a list of its own leaves 32 of its bytes to whatever is read next. -/
theorem error_out_of_step :
    ¬ ∀ items : Vec Inventory, (∀ item ∈ items.toList, item.Proper) →
      ∃ image, encodeVec consensusEncode items = .written image ∧
        (image.length ≤ maxVecSize →
          Consensus.consensusDecode (decodeVec consensusDecode) image = .ok (items, [])) := by
  intro claimed
  have proper : ∀ item ∈ (Vec.singleton error).toList, item.Proper := by
    intro item member invType hash same
    obtain rfl := List.mem_singleton.mp member
    contradiction
  obtain ⟨image, written, read⟩ := claimed (Vec.singleton .error) proper
  rw [encodeVec_eq fun item _ => consensusEncode_eq item] at written
  obtain rfl := (Prod.mk.inj (Except.ok.inj written)).2
  obtain ⟨-, same⟩ := taken_eq_ok (read (by decide))
  exact absurd same (by decide)

end Inventory
end Litecoin.P2p
