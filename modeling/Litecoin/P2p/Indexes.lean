import Litecoin.P2p.CompactBlocks

/-! The indexes of a block transactions request are exactly the strictly increasing ones
(`bip152.rs`). -/
namespace Litecoin.P2p.BlockTransactionsRequest
open Wire Consensus

/-- Each index is at least the successor of the one before, which `u64` has. -/
def Follows : (lastIdx : UInt64) → List UInt64 → Prop
  | _, [] => True
  | lastIdx, idx :: rest => lastIdx ≤ idx ∧ idx.toNat + 1 < 2 ^ 64 ∧ Follows (idx + 1) rest

def indexesWire : (lastIdx : UInt64) → List UInt64 → Bytes
  | _, [] => []
  | lastIdx, idx :: rest => VarInt.wire (idx - lastIdx) ++ indexesWire (idx + 1) rest

theorem toNat_succ {idx : UInt64} (fits : idx.toNat + 1 < 2 ^ 64) :
    (idx + 1).toNat = idx.toNat + 1 := by
  rw [UInt64.toNat_add]
  exact Nat.mod_eq_of_lt fits

/-- The encoder overflows on no list that follows. -/
theorem encodeIndexes_eq {lastIdx : UInt64} {indexes : List UInt64}
    (follows : Follows lastIdx indexes) :
    encodeIndexes lastIdx indexes = .written (indexesWire lastIdx indexes) := by
  induction indexes generalizing lastIdx with
  | nil => rfl
  | cons idx rest ih =>
    obtain ⟨least, fits, follows⟩ := follows
    rw [encodeIndexes, if_neg (UInt64.not_lt.mpr least), if_neg fits.ne, ih follows,
      VarInt.consensusEncode_eq, Emission.written_append]
    rfl

/-- The step of the decoder, from the index that it finds. -/
theorem advance_eq_ok {lastIndex differential idx next : UInt64} {bytes rest : Bytes} :
    advance lastIndex differential bytes = .ok ((idx, next), rest) ↔
      (lastIndex ≤ idx ∧ idx.toNat + 1 < 2 ^ 64 ∧ next = idx + 1 ∧ differential = idx - lastIndex) ∧
        bytes = rest := by
  rw [advance_eq]
  constructor
  · intro read
    split at read
    case isTrue fits =>
      obtain ⟨sums, rfl⟩ := Decoder.pure_eq_ok.mp read
      obtain ⟨rfl, rfl⟩ := Prod.mk.inj sums
      refine ⟨⟨?_, fits.2, rfl, ?_⟩, rfl⟩
      · rw [UInt64.le_iff_toNat_le, UInt64.toNat_add, Nat.mod_eq_of_lt fits.1]
        exact Nat.le_add_right _ _
      · rw [UInt64.add_comm, UInt64.add_sub_cancel]
    case isFalse => exact absurd read Decoder.fail_eq_ok.mp
  · rintro ⟨⟨least, fits, rfl, rfl⟩, rfl⟩
    have sum : lastIndex + (idx - lastIndex) = idx := by rw [UInt64.add_comm, UInt64.sub_add_cancel]
    have exact : lastIndex.toNat + (idx - lastIndex).toNat = idx.toNat := by
      rw [UInt64.toNat_sub_of_le _ _ least]
      exact Nat.add_sub_cancel' (UInt64.le_iff_toNat_le.mp least)
    rw [sum, exact, if_pos ⟨idx.toNat_lt, fits⟩]
    rfl

/-- The two checked additions of the decoder fail where the encoder would overflow. -/
theorem decodeIndexes_reads (count : Nat) (lastIndex : UInt64) :
    Reads (decodeIndexes count lastIndex) (fun indexes => indexesWire lastIndex indexes.val)
      (fun indexes => Follows lastIndex indexes.val) := by
  induction count generalizing lastIndex with
  | zero =>
    rintro bytes ⟨indexes, length⟩ rest
    obtain rfl := List.eq_nil_of_length_eq_zero length
    simp [decodeIndexes, Follows, indexesWire]
  | succ count ih =>
    rintro bytes ⟨indexes, length⟩ rest
    obtain ⟨idx, others, rfl⟩ := List.exists_cons_of_length_eq_add_one length
    rw [decodeIndexes, Decoder.bind_eq_ok]
    constructor
    · rintro ⟨differential, middle, gap, read⟩
      obtain ⟨⟨index, next⟩, _, advanced, read⟩ := Decoder.bind_eq_ok.mp read
      obtain ⟨⟨tail, sized⟩, left, behind, same⟩ := Decoder.bind_eq_ok.mp read
      obtain ⟨values, rfl⟩ := Decoder.pure_eq_ok.mp same
      obtain ⟨rfl, rfl⟩ := List.cons.inj (congrArg Subtype.val values)
      obtain ⟨-, rfl⟩ := (VarInt.reads _ _ _).mp gap
      obtain ⟨⟨least, fits, rfl, rfl⟩, rfl⟩ := advance_eq_ok.mp advanced
      obtain ⟨follows, rfl⟩ := (ih _ _ _ _).mp behind
      exact ⟨⟨least, fits, follows⟩, (List.append_assoc _ _ _).symm⟩
    · rintro ⟨⟨least, fits, follows⟩, rfl⟩
      have sized : others.length = count := Nat.succ.inj length
      refine ⟨idx - lastIndex, indexesWire (idx + 1) others ++ rest,
        (VarInt.reads _ _ _).mpr ⟨trivial, List.append_assoc _ _ _⟩, ?_⟩
      refine Decoder.bind_eq_ok.mpr ⟨(idx, idx + 1), _, advance_eq_ok.mpr
        ⟨⟨least, fits, rfl, rfl⟩, rfl⟩, ?_⟩
      exact Decoder.bind_eq_ok.mpr ⟨⟨others, sized⟩, rest, (ih _ _ _ _).mpr ⟨follows, rfl⟩,
        Decoder.pure_eq_ok.mpr ⟨rfl, rfl⟩⟩

/-- To follow is to increase strictly, from a start and up to the greatest number, which is left out. -/
theorem follows_iff {lastIdx : UInt64} {indexes : List UInt64} : Follows lastIdx indexes ↔
    indexes.Pairwise (· < ·) ∧ ∀ idx ∈ indexes, lastIdx ≤ idx ∧ idx < 0xffffffffffffffff := by
  induction indexes generalizing lastIdx with
  | nil => simp [Follows]
  | cons idx rest ih =>
    have bound : idx < 0xffffffffffffffff ↔ idx.toNat + 1 < 2 ^ 64 := by
      rw [UInt64.lt_iff_toNat_lt]
      show idx.toNat < 2 ^ 64 - 1 ↔ _
      omega
    rw [Follows, ih, List.pairwise_cons, List.forall_mem_cons, bound]
    constructor
    · rintro ⟨least, fits, increasing, behind⟩
      have after (other : UInt64) (inside : other ∈ rest) : idx < other := by
        rw [UInt64.lt_iff_toNat_lt, ← Nat.succ_le_iff, Nat.succ_eq_add_one, ← toNat_succ fits]
        exact UInt64.le_iff_toNat_le.mp (behind other inside).1
      exact ⟨⟨after, increasing⟩, ⟨least, fits⟩, fun other inside =>
        ⟨UInt64.le_trans least (UInt64.le_of_lt (after other inside)), (behind other inside).2⟩⟩
    · rintro ⟨⟨after, increasing⟩, ⟨least, fits⟩, behind⟩
      refine ⟨least, fits, increasing, fun other inside => ⟨?_, (behind other inside).2⟩⟩
      rw [UInt64.le_iff_toNat_le, toNat_succ fits]
      exact Nat.succ_le_of_lt (UInt64.lt_iff_toNat_lt.mp (after other inside))

section
variable [Layout]

/-- The indexes increase, and as many transactions fit a vector. -/
structure Valid (request : BlockTransactionsRequest) : Prop where
  follows : Follows 0 request.indexes.toList
  fits : request.indexes.toList.length * Layout.sizeOfTransaction ≤ maxVecSize

omit [Layout] in
def wire (request : BlockTransactionsRequest) : Bytes :=
  request.blockHash.val ++ (VarInt.wire request.indexes.len ++ indexesWire 0 request.indexes.toList)

theorem reads : Reads consensusDecode wire Valid := by
  rintro bytes ⟨hash, indexes⟩ rest
  rw [consensusDecode, Decoder.bind_eq_ok]
  constructor
  · rintro ⟨blockHash, middle, hashed, behind⟩
    obtain ⟨nbIndexes, left, counted, read⟩ := Decoder.bind_eq_ok.mp behind
    obtain ⟨-, rfl⟩ := ((readExact_codec 32).reads _ _ _).mp hashed
    obtain ⟨-, rfl⟩ := (VarInt.reads _ _ _).mp counted
    rw [decodeBody] at read
    split at read
    case isTrue => exact absurd read Decoder.fail_eq_ok.mp
    split at read
    case isTrue => exact absurd read Decoder.fail_eq_ok.mp
    case isFalse fits =>
      obtain ⟨⟨values, sized⟩, last, decoded, same⟩ := Decoder.bind_eq_ok.mp read
      obtain ⟨requests, rfl⟩ := Decoder.pure_eq_ok.mp same
      obtain ⟨rfl, rfl⟩ := BlockTransactionsRequest.mk.inj requests
      obtain ⟨follows, rfl⟩ := (decodeIndexes_reads _ _ _ _ _).mp decoded
      refine ⟨⟨follows, ?_⟩, ?_⟩
      · rw [sized]
        exact Nat.le_of_not_lt fits
      · simp only [wire, Vec.len, sized, UInt64.ofNat_toNat, List.append_assoc]
  · rintro ⟨⟨follows, fits⟩, rfl⟩
    have count : indexes.len.toNat = indexes.toList.length := UInt64.toNat_ofNat_of_lt' indexes.fits
    refine ⟨hash, VarInt.wire indexes.len ++ (indexesWire 0 indexes.toList ++ rest),
      ((readExact_codec 32).reads _ _ _).mpr ⟨trivial, by simp only [wire, List.append_assoc]⟩, ?_⟩
    refine Decoder.bind_eq_ok.mpr ⟨indexes.len, _, (VarInt.reads _ _ _).mpr ⟨trivial, rfl⟩, ?_⟩
    have small : ¬ 2 ^ 64 ≤ indexes.len.toNat * Layout.sizeOfTransaction := by
      rw [count, Nat.not_le]
      exact fits.trans_lt (by decide)
    rw [decodeBody, if_neg small, if_neg (by rw [count]; exact Nat.not_lt.mpr fits)]
    refine Decoder.bind_eq_ok.mpr ⟨⟨indexes.toList, count.symm⟩, rest,
      (decodeIndexes_reads _ _ _ _ _).mpr ⟨follows, rfl⟩, Decoder.pure_eq_ok.mpr ⟨rfl, rfl⟩⟩

omit [Layout] in
theorem consensusEncode_eq {request : BlockTransactionsRequest}
    (follows : Follows 0 request.indexes.toList) :
    request.consensusEncode = .written request.wire := by
  rw [consensusEncode, (readExact_codec 32).emits, VarInt.consensusEncode_eq, encodeIndexes_eq follows,
    Emission.written_append, Emission.written_append, List.append_assoc]
  rfl

/-- What is accepted has strictly increasing indexes and is what they are written as; and every
strictly increasing list below the greatest number that fits the limit is read back. -/
theorem indexes_round_trip :
    (∀ bytes request rest, consensusDecode bytes = .ok (request, rest) →
      request.indexes.toList.Pairwise (· < ·) ∧
      ∃ image, request.consensusEncode = .written image ∧ bytes = image ++ rest) ∧
    ∀ request : BlockTransactionsRequest, request.indexes.toList.Pairwise (· < ·) →
      (∀ idx ∈ request.indexes.toList, idx < 0xffffffffffffffff) →
      request.indexes.toList.length * Layout.sizeOfTransaction ≤ maxVecSize →
      ∃ image, request.consensusEncode = .written image ∧
        ∀ rest, consensusDecode (image ++ rest) = .ok (request, rest) := by
  constructor
  · intro bytes request rest read
    obtain ⟨valid, same⟩ := (reads _ _ _).mp read
    exact ⟨(follows_iff.mp valid.follows).1, request.wire, consensusEncode_eq valid.follows, same⟩
  · intro request increasing below fits
    have follows : Follows 0 request.indexes.toList :=
      follows_iff.mpr ⟨increasing, fun idx inside => ⟨UInt64.zero_le, below idx inside⟩⟩
    exact ⟨request.wire, consensusEncode_eq follows, reads.read ⟨follows, fits⟩⟩

end

section
attribute [local instance] Layout.wide

def sevens : ByteArr 32 := .filled 32 7

/-- The first two transactions and a later one. -/
def three : BlockTransactionsRequest where
  blockHash := sevens
  indexes := ⟨[0, 1, 258], by decide⟩

theorem three_round_trips :
    three.indexes.toList.Pairwise (· < ·) ∧ (∀ idx ∈ three.indexes.toList, idx < 0xffffffffffffffff) ∧
    three.indexes.toList.length * Layout.sizeOfTransaction ≤ maxVecSize ∧
    ∃ image, three.consensusEncode = .written image ∧
      consensusDecode (sevens.val ++ [3, 0, 0, 253, 0, 1] ++ [9]) = .ok (three, [9]) ∧
      sevens.val ++ [3, 0, 0, 253, 0, 1] ++ [9] = image ++ [9] ∧
      ∀ rest, consensusDecode (image ++ rest) = .ok (three, rest) := by
  have increasing : three.indexes.toList.Pairwise (· < ·) := by decide
  have below : ∀ idx ∈ three.indexes.toList, idx < 0xffffffffffffffff := by
    simp [three]
  have fits : three.indexes.toList.length * Layout.sizeOfTransaction ≤ maxVecSize := by decide
  have read : consensusDecode (sevens.val ++ [3, 0, 0, 253, 0, 1] ++ [9]) = .ok (three, [9]) := by
    decide +kernel
  obtain ⟨image, written, back⟩ := indexes_round_trip.2 three increasing below fits
  obtain ⟨_, image', written', same⟩ := indexes_round_trip.1 _ _ _ read
  obtain rfl : image = image' := congrArg Prod.snd (Except.ok.inj (written.symm.trans written'))
  exact ⟨increasing, below, fits, image, written, read, same, back⟩

end
end Litecoin.P2p.BlockTransactionsRequest
