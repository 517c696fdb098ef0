import Litecoin.Consensus.Format
import Litecoin.MerkleTree.Extraction
import Mathlib.Data.List.GetD
import Mathlib.Data.List.Induction
import Mathlib.Data.Nat.Bitwise

/-! Partial trees built from a block are encoded, decoded and extracted again. The wire
form pads the bits to whole bytes. -/
namespace Litecoin.MerkleTree
open Wire Consensus

namespace PartialMerkleTree

/-! A byte of flags, bit by bit. -/

theorem toNat_one_shiftLeft {i : Nat} (inside : i < 8) :
    ((1 : UInt8) <<< UInt8.ofNat i).toNat = 2 ^ i := by
  have small : 2 ^ i < 2 ^ 8 := Nat.pow_lt_pow_right (by decide) inside
  rw [UInt8.toNat_shiftLeft, UInt8.toNat_ofNat_of_lt' (Nat.lt_trans inside (by decide)),
    Nat.mod_eq_of_lt inside, UInt8.toNat_one, Nat.one_shiftLeft, Nat.mod_eq_of_lt small]

theorem packByte_concat (chunk : List Bool) (bit : Bool) :
    packByte (chunk ++ [bit]) = packByte chunk ||| (bit.toUInt8 <<< UInt8.ofNat chunk.length) := by
  rw [packByte, List.zipIdx_append, List.foldl_append, Nat.zero_add]
  rfl

theorem testBit_packByte {chunk : List Bool} (short : chunk.length ≤ 8) (j : Nat) :
    (packByte chunk).toNat.testBit j = chunk.getD j false := by
  induction chunk using List.reverseRecOn with
  | nil => exact Nat.zero_testBit j
  | append_singleton chunk bit ih =>
    rw [List.length_append, List.length_singleton] at short
    have here : (bit.toUInt8 <<< UInt8.ofNat chunk.length).toNat.testBit j =
        (bit && decide (chunk.length = j)) := by
      cases bit with
      | false =>
        rw [show false.toUInt8 = 0 from rfl, UInt8.zero_shiftLeft]
        exact Nat.zero_testBit j
      | true =>
        rw [show true.toUInt8 = 1 from rfl, toNat_one_shiftLeft short, Nat.testBit_two_pow,
          Bool.true_and]
    rw [packByte_concat, UInt8.toNat_or, Nat.testBit_or, ih (by omega), here]
    rcases Nat.lt_trichotomy j chunk.length with before | rfl | behind
    · simp [List.getElem?_append_left before, Nat.ne_of_gt before]
    · simp
    · have beyond : (chunk ++ [bit]).length ≤ j := by
        rw [List.length_append, List.length_singleton]
        exact behind
      simp [List.getElem?_eq_none beyond, List.getElem?_eq_none (Nat.le_of_lt behind), Nat.ne_of_lt behind]

theorem unpackByte_eq (byte : UInt8) : unpackByte byte = (List.range 8).map byte.toNat.testBit := by
  apply List.map_congr_left
  intro i listed
  have masked : (byte &&& (1 <<< UInt8.ofNat i)).toNat = (byte.toNat.testBit i).toNat * 2 ^ i := by
    rw [UInt8.toNat_and, toNat_one_shiftLeft (List.mem_range.mp listed), Nat.and_two_pow]
  rw [Bool.eq_iff_iff, bne_iff_ne, Ne, ← UInt8.toNat_inj, masked]
  cases byte.toNat.testBit i <;> simp

theorem unpackByte_packByte {chunk : List Bool} (short : chunk.length ≤ 8) :
    unpackByte (packByte chunk) = chunk ++ List.replicate (8 - chunk.length) false := by
  rw [unpackByte_eq]
  apply List.ext_getElem
  · simp
    omega
  · intro i _ inside
    rw [List.getElem_map, List.getElem_range, testBit_packByte short]
    by_cases known : i < chunk.length
    · rw [List.getElem_append_left known, List.getD_eq_getElem _ _ known]
    · rw [List.getElem_append_right (Nat.le_of_not_lt known), List.getElem_replicate,
        List.getD_eq_default _ _ (Nat.le_of_not_lt known)]

theorem packByte_unpackByte (byte : UInt8) : packByte (unpackByte byte) = byte := by
  have length : (unpackByte byte).length = 8 := by
    rw [unpackByte, List.length_map, List.length_range]
  apply UInt8.toNat_inj.mp
  apply Nat.eq_of_testBit_eq
  intro j
  rw [testBit_packByte length.le]
  by_cases inside : j < 8
  · rw [List.getD_eq_getElem _ _ (length ▸ inside)]
    simp only [unpackByte_eq, List.getElem_map, List.getElem_range]
  · rw [List.getD_eq_default _ _ (length ▸ Nat.le_of_not_lt inside)]
    have small : byte.toNat < 2 ^ j :=
      Nat.lt_of_lt_of_le byte.toNat_lt (Nat.pow_le_pow_right (by decide) (Nat.le_of_not_lt inside))
    exact (Nat.testBit_lt_two_pow small).symm

/-! The flags of a tree. -/

variable (engine : Bytes → ByteArr 32)

theorem chunks_of_ne_nil {bits : List Bool} (nonempty : bits ≠ []) :
    chunks bits = bits.take 8 :: chunks (bits.drop 8) := by
  have positive := List.length_pos_iff.mpr nonempty
  have count : (bits.length + 7) / 8 = ((bits.drop 8).length + 7) / 8 + 1 := by
    rw [List.length_drop]
    omega
  rw [chunks, count, List.range_succ_eq_map, List.map_cons, List.map_map, chunks]
  congr 1
  apply List.map_congr_left
  intro i _
  simp only [Function.comp_apply, List.drop_drop, Nat.succ_eq_add_one, Nat.mul_add]
  congr 2
  omega

/-- The bits that are read back. -/
theorem unpack_chunks (bits : List Bool) :
    ((chunks bits).map packByte).flatMap unpackByte =
      bits ++ List.replicate ((bits.length + 7) / 8 * 8 - bits.length) false := by
  induction length : bits.length using Nat.strong_induction_on generalizing bits with
  | _ n ih =>
    subst length
    by_cases nonempty : bits = []
    · subst nonempty
      rfl
    · have positive := List.length_pos_iff.mpr nonempty
      rw [chunks_of_ne_nil nonempty, List.map_cons, List.flatMap_cons,
        unpackByte_packByte (List.length_take_le 8 bits)]
      have rest := ih (bits.drop 8).length (by rw [List.length_drop]; omega) (bits.drop 8) rfl
      rw [rest, List.length_drop, List.length_take]
      by_cases short : bits.length ≤ 8
      · rw [List.take_of_length_le short, List.drop_of_length_le short, List.nil_append,
          List.append_assoc, List.replicate_append_replicate]
        congr 2
        omega
      · rw [Nat.min_eq_left (by omega), Nat.sub_self, List.replicate_zero, List.append_nil,
          ← List.append_assoc, List.take_append_drop]
        congr 2
        omega

@[simp] theorem length_chunks (bits : List Bool) : (chunks bits).length = (bits.length + 7) / 8 := by
  rw [chunks, List.length_map, List.length_range]

/-- The number of bytes that the bits take. -/
def bitBytes (tree : PartialMerkleTree) : UInt64 := UInt64.ofNat ((tree.bits.toList.length + 7) / 8)

theorem bitBytes_toNat (tree : PartialMerkleTree) :
    tree.bitBytes.toNat = (tree.bits.toList.length + 7) / 8 := by
  have fits := tree.bits.fits
  exact UInt64.toNat_ofNat_of_lt' (by simp only [UInt64.size]; omega)

def wire (tree : PartialMerkleTree) : Bytes :=
  littleEndian 4 tree.numTransactions.toNat ++ (vecWire Subtype.val tree.hashes ++
    (VarInt.wire tree.bitBytes ++ (chunks tree.bits.toList).map packByte))

theorem consensusEncode_eq (tree : PartialMerkleTree) :
    tree.consensusEncode = .written tree.wire := by
  have bytes : Emission.each (fun chunk => encodeU8 (packByte chunk)) (chunks tree.bits.toList) =
      .written ((chunks tree.bits.toList).map packByte) := by
    rw [Emission.each_written (fun chunk _ => readU8_codec.emits (packByte chunk))]
    simp only [littleEndian_one, List.map_eq_flatMap]
  rw [consensusEncode, bytes, readU32_codec.emits, encodeVec_eq fun hash _ =>
    (readExact_codec 32).emits hash, VarInt.codec.emits, Emission.written_append,
    Emission.written_append, Emission.written_append, wire, List.append_assoc, List.append_assoc]
  rfl

/-- The bits of a decoded tree, padded to whole bytes. -/
def paddedBits (bits : List Bool) : List Bool :=
  bits ++ List.replicate ((bits.length + 7) / 8 * 8 - bits.length) false

theorem length_paddedBits (bits : List Bool) :
    (paddedBits bits).length = (bits.length + 7) / 8 * 8 := by
  rw [paddedBits, List.length_append, List.length_replicate]
  omega

theorem deserialize_wire {tree : PartialMerkleTree}
    (shortHashes : (vecWire Subtype.val tree.hashes).length ≤ maxVecSize)
    (shortBits : (tree.bits.toList.length + 7) / 8 ≤ maxVecSize) :
    ∃ decoded : PartialMerkleTree,
      deserialize consensusDecodeFromFiniteReader tree.wire = .ok decoded ∧
      decoded.numTransactions = tree.numTransactions ∧ decoded.hashes = tree.hashes ∧
      decoded.bits.toList = paddedBits tree.bits.toList := by
  have bytesCount : ((chunks tree.bits.toList).map packByte).length = tree.bitBytes.toNat := by
    rw [List.length_map, length_chunks, bitBytes_toNat]
  have readBytes := readU8_codec.reads.times tree.bitBytes.toNat
  have hashesReads := (decodeVec_reads (readExact_codec 32).reads).take maxVecSize
  have fits : (paddedBits tree.bits.toList).length < 2 ^ 64 := by
    rw [length_paddedBits]
    simp only [maxVecSize] at shortBits
    omega
  refine ⟨{ tree with bits := ⟨paddedBits tree.bits.toList, fits⟩ }, ?_, rfl, rfl, rfl⟩
  rw [deserialize_eq_ok, consensusDecodeFromFiniteReader]
  simp only [Decoder.bind_eq_ok]
  refine ⟨tree.numTransactions, _, readU32_codec.reads.read trivial _, tree.hashes, _,
    hashesReads.read ⟨fun _ _ => trivial, shortHashes⟩ _, tree.bitBytes, _,
    VarInt.reads.read trivial _, ?_⟩
  rw [dif_pos (by rw [bitBytes_toNat]; exact shortBits)]
  simp only [Decoder.bind_eq_ok, Decoder.pure_eq_ok]
  refine ⟨⟨(chunks tree.bits.toList).map packByte, bytesCount⟩, [], ?_, ?_, rfl⟩
  · refine (readBytes _ _ _).mpr ⟨fun _ _ => trivial, ?_⟩
    simp only [littleEndian_one, List.append_nil, ← List.map_eq_flatMap, List.map_id']
  · simp only [unpack_chunks, paddedBits]

/-- Whether the transaction at a position is asked for. -/
def marks (matched : List Bool) (i : Nat) : Bool := matched.getD i false

theorem scanMatches_eq {matched : List Bool} {remaining p : Nat}
    (inside : p + remaining ≤ matched.length) (found : Bool) :
    scanMatches matched remaining p found =
      some (found || (List.range' p remaining).any (marks matched)) := by
  induction remaining generalizing p found with
  | zero => simp [scanMatches]
  | succ remaining ih =>
    have here : matched[p]? = some (marks matched p) := by
      rw [marks, List.getD_eq_getElem?_getD, List.getElem?_eq_getElem (by omega), Option.getD_some]
    rw [scanMatches, here]
    simp only [Option.bind_eq_bind, Option.bind_some]
    rw [ih (by omega), List.range'_succ, List.any_cons, Bool.or_assoc]

/-- The flag of a node: some marked leaf below it. -/
theorem parentOfMatch_eq {tree : PartialMerkleTree} {matched : List Bool}
    (count : matched.length = tree.numTransactions.toNat)
    (small : tree.numTransactions.toNat < 2 ^ 31) {height pos : Nat}
    (bound : height ≤ treeHeight tree.numTransactions.toNat)
    (inside : pos < Tree.width tree.numTransactions.toNat height) :
    ∃ flag, tree.parentOfMatch matched height pos = some flag ∧
      (flag = false ↔ ∀ i, pos * 2 ^ height ≤ i → i < (pos + 1) * 2 ^ height →
        i < tree.numTransactions.toNat → marks matched i = false) := by
  obtain ⟨short, fits⟩ := height_fits small bound
  have early := lt_of_lt_of_le inside (Tree.width_le tree.numTransactions.toNat height)
  rw [Tree.lt_width] at inside
  have limit : (pos + 1) * 2 ^ height < 2 ^ 32 := by
    rw [add_one_mul]
    omega
  have positive := Nat.two_pow_pos height
  rw [parentOfMatch, u32_eq (by omega)]
  simp only [Option.bind_eq_bind, Option.bind_some, if_pos short, Nat.shiftLeft_eq,
    Nat.mod_eq_of_lt limit, Nat.mod_eq_of_lt (by omega : pos * 2 ^ height < 2 ^ 32)]
  refine ⟨_, scanMatches_eq (by omega) false, ?_⟩
  simp only [Bool.false_or, List.any_eq_false, List.mem_range'_1, Bool.not_eq_true]
  constructor
  · intro unmarked i low high exists_
    exact unmarked i (by omega)
  · intro unmarked i range
    exact unmarked i (by omega) (by omega) (by omega)

theorem push_eq (values : Vec α) (room : values.toList.length + 1 < 2 ^ 64) (value : α) :
    ∃ pushed, push values value = some pushed ∧ pushed.toList = values.toList ++ [value] := by
  have fits : (values.toList ++ [value]).length < 2 ^ 64 := by
    rw [List.length_append, List.length_singleton]
    exact room
  exact ⟨⟨_, fits⟩, dif_pos fits, rfl⟩

/-- `built` continues `tree` with the listing of `part`. -/
structure Continues (tree built : PartialMerkleTree) (part : Tree.Pruned (ByteArr 32) n height pos) :
    Prop where
  numTransactions_eq : built.numTransactions = tree.numTransactions
  bits_eq : built.bits.toList = tree.bits.toList ++ part.bits
  hashes_eq : built.hashes.toList = tree.hashes.toList ++ part.hashes

/-- Building a subtree appends the listing of an honest tree with the marked leaves. -/
theorem traverseAndBuild_eq {txids : List (ByteArr 32)} {matched : List Bool}
    (sameLength : matched.length = txids.length) (small : txids.length < 2 ^ 31) {height pos : Nat}
    (bound : height ≤ treeHeight txids.length) (inside : pos < Tree.width txids.length height)
    (tree : PartialMerkleTree) (count : tree.numTransactions.toNat = txids.length)
    (room : tree.bits.toList.length + 2 ^ (height + 1) ≤ 2 ^ 64)
    (covered : tree.hashes.toList.length ≤ tree.bits.toList.length) :
    ∃ (built : PartialMerkleTree) (part : Tree.Pruned (ByteArr 32) txids.length height pos),
      traverseAndBuild engine txids matched height pos tree = some built ∧
      Continues tree built part ∧ part.Honest (hashPair engine) txids ∧
      part.Marked (marks matched) := by
  induction height generalizing pos tree with
  | zero =>
    obtain ⟨flag, flagged, unmarked⟩ := parentOfMatch_eq (sameLength.trans count.symm) (by omega)
      (Nat.zero_le _) (count ▸ inside)
    rw [Tree.width_zero] at inside
    obtain ⟨txid, stored⟩ : ∃ txid, txids[pos]? = some txid := ⟨_, List.getElem?_eq_getElem inside⟩
    obtain ⟨bits, pushedBit, bitsEq⟩ := push_eq tree.bits (by omega) flag
    obtain ⟨hashes, pushedHash, hashesEq⟩ := push_eq tree.hashes (by omega) txid
    refine ⟨{ tree with bits, hashes }, .leaf txid flag, ?_, ⟨rfl, bitsEq, hashesEq⟩, ?_, ?_⟩
    · rw [traverseAndBuild, flagged]
      simp only [Option.bind_eq_bind, Option.bind_some, pushedBit, calcHash, stored, pushedHash]
    · rw [Tree.Pruned.Honest]
      exact stored
    · rw [Tree.Pruned.Marked]
      have only : flag = false ↔ marks matched pos = false := by
        rw [unmarked]
        constructor
        · intro all
          exact all pos (by omega) (by omega) (by omega)
        · intro here i low high _
          obtain rfl : i = pos := by omega
          exact here
      cases flag <;> cases here : marks matched pos <;> simp_all
  | succ height ih =>
    obtain ⟨flag, flagged, unmarked⟩ := parentOfMatch_eq (sameLength.trans count.symm) (by omega)
      (count ▸ bound) (count ▸ inside)
    have powers : 2 ^ (height + 1 + 1) = 2 ^ (height + 1) + 2 ^ (height + 1) := by ring
    have positive := Nat.two_pow_pos (height + 1)
    obtain ⟨bits, pushedBit, bitsEq⟩ := push_eq tree.bits (by omega) flag
    have bitsLength : bits.toList.length = tree.bits.toList.length + 1 := by
      rw [bitsEq, List.length_append, List.length_singleton]
    cases flag with
    | false =>
      obtain ⟨node, stored⟩ : ∃ node,
          (Tree.level (hashPair engine) txids (height + 1))[pos]? = some node :=
        ⟨_, List.getElem?_eq_getElem (by rw [Tree.length_level]; exact inside)⟩
      obtain ⟨hashes, pushedHash, hashesEq⟩ := push_eq tree.hashes (by omega) node
      refine ⟨{ tree with bits, hashes }, .hidden node, ?_, ⟨rfl, bitsEq, hashesEq⟩, ?_, ?_⟩
      · rw [traverseAndBuild, flagged]
        simp only [Option.bind_eq_bind, Option.bind_some, pushedBit, Bool.false_eq_true, if_false,
          calcHash_eq engine count small bound inside, stored, pushedHash]
      · rw [Tree.Pruned.Honest]
        exact stored
      · rw [Tree.Pruned.Marked, ← count]
        exact unmarked.mp rfl
    | true =>
      obtain ⟨short, fits⟩ := height_fits small (by omega : height ≤ treeHeight txids.length)
      have left := Tree.left_lt_width inside
      have narrow := Tree.width_le txids.length height
      have leftPos : u32 (pos * 2) = some (2 * pos) := by rw [mul_comm]; exact u32_eq (by omega)
      have rightPos : u32 (pos * 2 + 1) = some (2 * pos + 1) := by
        rw [mul_comm]; exact u32_eq (by omega)
      obtain ⟨middle, child, builtLeft, continues, honest, marked⟩ := ih (by omega) left
        { tree with bits } count (by simp only [bitsLength]; omega) (by simp only [bitsLength]; omega)
      have middleCount : middle.numTransactions.toNat = txids.length := by
        rw [continues.numTransactions_eq]
        exact count
      have middleBits : middle.bits.toList = tree.bits.toList ++ (true :: child.bits) := by
        rw [continues.bits_eq, bitsEq, List.append_assoc, List.singleton_append]
      have built : traverseAndBuild engine txids matched (height + 1) pos tree =
          if 2 * pos + 1 < Tree.width txids.length height then
            traverseAndBuild engine txids matched height (2 * pos + 1) middle
          else some middle := by
        rw [traverseAndBuild, flagged]
        simp only [Option.bind_eq_bind, Option.bind_some, pushedBit, if_true, leftPos, builtLeft,
          rightPos, calcTreeWidth_eq short (middleCount ▸ fits), middleCount]
      by_cases more : 2 * pos + 1 < Tree.width txids.length height
      · have leftBits := child.bits_length_lt
        have leftHashes := child.hashes_length_le
        have middleLength := congrArg List.length middleBits
        have hashesLength := congrArg List.length continues.hashes_eq
        rw [List.length_append, List.length_cons] at middleLength
        rw [List.length_append] at hashesLength
        dsimp only at hashesLength
        obtain ⟨final, sibling, builtRight, continues', honest', marked'⟩ := ih (by omega) more
          middle middleCount (by omega) (by omega)
        refine ⟨final, .branch child sibling more, ?_, ⟨?_, ?_, ?_⟩, ⟨honest, honest'⟩,
          ⟨marked, marked'⟩⟩
        · rw [built, if_pos more, builtRight]
        · rw [continues'.numTransactions_eq, continues.numTransactions_eq]
        · rw [continues'.bits_eq, middleBits, List.append_assoc, List.cons_append]
          rfl
        · rw [continues'.hashes_eq, continues.hashes_eq, List.append_assoc]
          rfl
      · refine ⟨middle, .single child more, ?_, ⟨?_, ?_, ?_⟩, honest, marked⟩
        · rw [built, if_neg more]
        · exact continues.numTransactions_eq
        · exact middleBits
        · exact continues.hashes_eq

/-- The positions asked for, in increasing order. -/
def matchedPositions (matched : List Bool) : List Nat :=
  (List.range matched.length).filter (marks matched)

theorem filter_marks {matched : List Bool} (enough : matched.length ≤ m) :
    (List.range' 0 m).filter (marks matched) = matchedPositions matched := by
  obtain ⟨extra, rfl⟩ := Nat.exists_eq_add_of_le enough
  have beyond : ((List.range extra).map (matched.length + ·)).filter (marks matched) = [] := by
    rw [List.filter_eq_nil_iff]
    intro i member
    obtain ⟨offset, -, rfl⟩ := List.mem_map.mp member
    rw [marks, List.getD_eq_getElem?_getD, List.getElem?_eq_none (by omega), Option.getD_none]
    exact Bool.false_ne_true
  rw [← List.range_eq_range', List.range_add, List.filter_append, beyond, List.append_nil,
    matchedPositions]

theorem listing_at_positions {txids : List α} {positions : List Nat}
    (inside : ∀ i ∈ positions, i < txids.length) :
    (positions.filterMap fun i => txids[i]?.map (·, i)).map Prod.snd = positions ∧
    ((positions.filterMap fun i => txids[i]?.map (·, i)).map Prod.fst).map some =
      positions.map (txids[·]?) := by
  induction positions with
  | nil => exact ⟨rfl, rfl⟩
  | cons i rest ih =>
    simp only [List.forall_mem_cons] at inside
    obtain ⟨indexes, values⟩ := ih inside.2
    have here : txids[i]? = some txids[i] := List.getElem?_eq_getElem inside.1
    constructor
    · rw [List.filterMap_cons, here, Option.map_some, List.map_cons, indexes]
    · rw [List.filterMap_cons, here, Option.map_some, List.map_cons, List.map_cons, values,
        List.map_cons, here]

theorem length_vecWire_val (values : Vec (ByteArr n)) :
    (vecWire Subtype.val values).length ≤ 9 + values.toList.length * n := by
  have count := VarInt.wire_length_le values.len
  have elements : (values.toList.flatMap Subtype.val).length = values.toList.length * n := by
    rw [List.length_flatMap, List.map_congr_left fun a _ => a.property, List.map_const',
      List.sum_replicate_nat]
  rw [vecWire, List.length_append, elements]
  omega

theorem extractMatches_of_part {tree : PartialMerkleTree}
    (same : tree.numTransactions.toNat = n) {part : Tree.Pruned (ByteArr 32) n (treeHeight n) 0}
    (accepts : tree.Accepts part) (listed : tree.Lists ⟨0, 0, [], []⟩ part)
    (distinct : part.Distinct (hashPair engine)) :
    tree.extractMatches engine = .ok (part.hash (hashPair engine), part.matched.map Prod.fst,
      part.matched.map Prod.snd) := by
  subst same
  exact (extractMatches_eq_ok engine).mpr ⟨part, accepts, listed, distinct, rfl, rfl, rfl⟩

/-- A tree built for some transactions of a block shows the merkle root and exactly these
transactions after it has been encoded and decoded. -/
theorem extractMatches_fromTxids {txids : List (ByteArr 32)} {matched : List Bool}
    (nonempty : 1 ≤ txids.length) (few : txids.length ≤ maxBlockWeight / minTransactionWeight)
    (sameLength : matched.length = txids.length) (different : txids.Nodup)
    (injective : Set.InjOn (Function.uncurry (hashPair engine)) {pair | pair ∈ rootPairs engine txids}) :
    ∃ tree data decoded root found,
      fromTxids engine txids matched = some tree ∧
      serialize tree.consensusEncode = .ok data ∧
      deserialize consensusDecodeFromFiniteReader data = .ok decoded ∧
      decoded.extractMatches engine = .ok (root, found, matchedPositions matched) ∧
      calculateRoot engine txids = some root ∧
      found.map some = (matchedPositions matched).map (txids[·]?) := by
  have small := few_lt few
  have count : (UInt32.ofNat txids.length).toNat = txids.length :=
    UInt32.toNat_ofNat_of_lt' (by simp only [UInt32.size]; omega)
  have short : treeHeight txids.length ≤ 15 := by
    refine (Nat.clog_le_iff_le_pow one_lt_two).mpr (few.trans ?_)
    decide
  have power : 2 ^ (treeHeight txids.length + 1) ≤ 2 ^ 16 :=
    Nat.pow_le_pow_right (by decide) (by omega)
  have top := Tree.width_pos nonempty (treeHeight txids.length)
  -- The build lists an honest tree, and padding it to bytes keeps it listed.
  obtain ⟨tree, part, built, continues, honest, marked⟩ := traverseAndBuild_eq engine sameLength
    small le_rfl top ⟨UInt32.ofNat txids.length, .empty, .empty⟩ count
    (by simp only [Vec.empty, List.length_nil]; omega) le_rfl
  have bitsEq : tree.bits.toList = part.bits := continues.bits_eq
  have hashesEq : tree.hashes.toList = part.hashes := continues.hashes_eq
  have numEq : tree.numTransactions = UInt32.ofNat txids.length := continues.numTransactions_eq
  have manyBits := part.bits_length_lt
  have hashesLe := part.hashes_length_le
  have hashesCovered := part.hashes_length_covered top
  have covered : part.hashes.length ≤ txids.length := by omega
  have limit : maxBlockWeight / minTransactionWeight = 16666 := rfl
  have shortHashes : (vecWire Subtype.val tree.hashes).length ≤ maxVecSize := by
    have length := length_vecWire_val tree.hashes
    rw [hashesEq] at length
    rw [maxVecSize]
    omega
  obtain ⟨decoded, decodes, decodedNum, decodedHashes, decodedBits⟩ := deserialize_wire shortHashes
    (by rw [bitsEq, maxVecSize]; omega)
  have decodedCount : decoded.numTransactions.toNat = txids.length := by
    rw [decodedNum, numEq, count]
  have decodedLength : decoded.bits.toList.length = (part.bits.length + 7) / 8 * 8 := by
    rw [decodedBits, length_paddedBits, bitsEq]
  rw [← decodedHashes] at hashesEq
  have accepts : decoded.Accepts part :=
    { some_transactions := by rintro zero; simp [zero] at decodedCount; omega
      few_transactions := by rw [decodedCount]; exact few
      few_hashes := by rw [hashesEq, decodedCount]; omega
      enough_bits := by rw [hashesEq, decodedLength]; omega
      bits_fit := by rw [decodedLength]; omega
      bits_consumed := by rw [decodedLength]; omega
      hashes_consumed := by rw [hashesEq]; omega }
  have listed : decoded.Lists ⟨0, 0, [], []⟩ part := by
    refine ⟨?_, ?_⟩
    · rw [List.drop_zero, decodedBits, bitsEq]
      exact List.prefix_append _ _
    · have all : decoded.hashes.toList.drop 0 = part.hashes := List.drop_zero.trans hashesEq
      exact all ▸ List.prefix_rfl
  have extracted := extractMatches_of_part engine decodedCount accepts listed
    (honest.distinct rfl different injective le_rfl)
  have listing : part.matched = (matchedPositions matched).filterMap fun i => txids[i]?.map (·, i) := by
    rw [marked.matched_eq rfl honest, Nat.zero_mul, filter_marks]
    rw [sameLength]
    exact Nat.le_pow_clog one_lt_two _
  have inside : ∀ i ∈ matchedPositions matched, i < txids.length := by
    intro i member
    rw [← sameLength]
    exact List.mem_range.mp (List.mem_filter.mp member).1
  obtain ⟨indexes, values⟩ := listing_at_positions inside
  refine ⟨tree, tree.wire, decoded, part.hash (hashPair engine), part.matched.map Prod.fst, ?_, ?_,
    decodes, ?_, ?_, ?_⟩
  · have climbed : (⟨UInt32.ofNat txids.length, .empty, .empty⟩ : PartialMerkleTree).calcTreeHeight =
        some (treeHeight txids.length) := by
      rw [calcTreeHeight_eq (by rw [count]; exact small), count]
    rw [fromTxids, if_neg (by omega)]
    simp only [climbed, Option.bind_eq_bind, Option.bind_some]
    exact built
  · rw [consensusEncode_eq]
    rfl
  · rw [extracted, listing, indexes]
  · rw [calculateRoot_eq, Tree.root_eq_level _ (width_treeHeight _) fun _ => width_below_treeHeight,
      honest.hash_eq rfl]
  · rw [listing, values]

theorem txids80000_extracted : txids80000.Nodup ∧ ∃ tree data decoded root found,
    fromTxids engine80000 txids80000 [false, true] = some tree ∧
    serialize tree.consensusEncode = .ok data ∧
    deserialize consensusDecodeFromFiniteReader data = .ok decoded ∧
    decoded.extractMatches engine80000 = .ok (root, found, matchedPositions [false, true]) ∧
    calculateRoot engine80000 txids80000 = some root ∧
    found.map some = (matchedPositions [false, true]).map (txids80000[·]?) := by
  have different : txids80000.Nodup := by decide
  exact ⟨different, extractMatches_fromTxids engine80000 (by decide) (by decide) rfl different
    (proof80000_injective.mono fun _ => .inr)⟩

end PartialMerkleTree
end Litecoin.MerkleTree
