import Litecoin.Taproot.Rebuild
import Litecoin.Wire.Blocks
import Litecoin.Wire.Emission
import Litecoin.Wire.Outcome

/-! The bytes of control blocks (`taproot/mod.rs`, `taproot/merkle_branch.rs`): which are
accepted, that each block has only one encoding, and that no step of the decoder panics. -/
namespace Litecoin.Taproot
open Wire Consensus

/-- `FutureLeafVersion`. -/
abbrev FutureLeafVersion : Type :=
  { v : UInt8 // v ≠ leafTapscript ∧ v ≠ annexPrefix ∧ v &&& leafMask = v }

/-- `FutureLeafVersion::from_consensus`; the first branch is `unreachable!`. -/
def FutureLeafVersion.fromConsensus (version : UInt8) :
    ExceptT TaprootError Option FutureLeafVersion :=
  if tapscript : version = leafTapscript then ExceptT.mk none
  else if annex : version = annexPrefix then throw (.invalidTaprootLeafVersion annexPrefix)
  else if odd : version &&& 0xFE ≠ version then throw (.invalidTaprootLeafVersion version)
  else pure ⟨version, tapscript, annex, not_not.mp odd⟩

namespace LeafVersion

/-- `from_consensus`, with the function that it calls. -/
def fromConsensusOrPanic (version : UInt8) : ExceptT TaprootError Option LeafVersion :=
  if version = leafTapscript then pure .tapScript
  else if version = annexPrefix then throw (.invalidTaprootLeafVersion annexPrefix)
  else .future <$> FutureLeafVersion.fromConsensus version

/-- The unreachable branch is not reached. -/
theorem fromConsensusOrPanic_eq (version : UInt8) :
    fromConsensusOrPanic version = liftM (fromConsensus version) := by
  rw [fromConsensusOrPanic, fromConsensus]
  by_cases tapscript : version = leafTapscript
  · rw [if_pos tapscript, dif_pos tapscript]
    rfl
  rw [if_neg tapscript, dif_neg tapscript]
  by_cases annex : version = annexPrefix
  · rw [if_pos annex, dif_pos annex]
    rfl
  rw [if_neg annex, dif_neg annex, FutureLeafVersion.fromConsensus, dif_neg tapscript, dif_neg annex]
  by_cases even : version &&& leafMask = version
  · have same : version &&& 0xFE = version := even
    rw [dif_pos even, dif_neg (not_not.mpr same)]
    rfl
  · have other : version &&& 0xFE ≠ version := even
    rw [dif_neg even, dif_pos other]
    rfl

/-- A masked byte is a leaf version unless it is the annex prefix. -/
theorem fromConsensus_masked {version : UInt8} (even : version &&& leafMask = version) :
    (∃ leafVersion, fromConsensus version = .ok leafVersion) ↔ version ≠ annexPrefix := by
  rw [fromConsensus]
  split_ifs with tapscript annex
  · refine iff_of_true ⟨_, rfl⟩ fun annex => ?_
    rw [tapscript] at annex
    exact absurd annex (by decide)
  · exact iff_of_false (by simp) fun other => other annex
  · exact iff_of_true ⟨_, rfl⟩ annex

end LeafVersion

/-- `TapNodeHash::from_slice`. -/
def tapNodeHashFromSlice (slice : Bytes) : Option TapNodeHash :=
  if whole : slice.length = 32 then some ⟨slice, whole⟩ else none

namespace TaprootMerkleBranch

/-- `decode`, where each chunk is expected to be a hash. -/
def decodeOrPanic (sl : Bytes) : ExceptT TaprootError Option TaprootMerkleBranch :=
  if sl.length % controlNodeSize ≠ 0 then throw (.invalidMerkleBranchSize sl.length)
  else if controlNodeSize * controlMaxNodeCount < sl.length then
    throw (.invalidMerkleTreeDepth (sl.length / controlNodeSize))
  else do
    let inner ← orPanic (((blocks 32 sl).map Subtype.val).mapM tapNodeHashFromSlice)
    -- the code does not look at the depth again
    if shallow : inner.length ≤ controlMaxNodeCount then pure ⟨inner, shallow⟩
    else ExceptT.mk none

/-- Bytes of a size that is not refused are those of a branch. -/
theorem exists_branch {sl : Bytes} (whole : sl.length % controlNodeSize = 0)
    (shallow : sl.length ≤ controlNodeSize * controlMaxNodeCount) :
    ∃ branch : TaprootMerkleBranch, branch.serialize = sl := by
  have flat := flatten_blocks (by decide : 0 < 32) (Nat.dvd_of_mod_eq_zero whole)
  have total := length_flatten_pieces (blocks 32 sl)
  rw [flat] at total
  refine ⟨⟨blocks 32 sl, ?_⟩, ?_⟩
  · simp only [controlNodeSize, controlMaxNodeCount] at shallow ⊢
    omega
  · rw [serialize, List.flatMap_def]
    exact flat

theorem mapM_fromSlice (nodes : List TapNodeHash) :
    (nodes.map Subtype.val).mapM tapNodeHashFromSlice = some nodes := by
  induction nodes with
  | nil => rfl
  | cons node rest ih =>
    have parsed : tapNodeHashFromSlice node.val = some node := dif_pos node.property
    rw [List.map_cons, List.mapM_cons, parsed, ih]
    rfl

/-- Chunks of the right size are all there is to decode. -/
theorem decodeOrPanic_eq (sl : Bytes) : decodeOrPanic sl = liftM (decode sl) := by
  rw [decodeOrPanic]
  by_cases whole : sl.length % controlNodeSize ≠ 0
  · rw [if_pos whole, decode, if_pos whole]
    rfl
  rw [if_neg whole]
  by_cases deep : controlNodeSize * controlMaxNodeCount < sl.length
  · rw [if_pos deep, decode, if_neg whole, dif_pos deep]
    rfl
  rw [if_neg deep]
  obtain ⟨branch, same⟩ := exists_branch (not_not.mp whole) (Nat.not_lt.mp deep)
  have pieces : blocks 32 sl = branch.val := by
    rw [← same, serialize, List.flatMap_def]
    exact blocks_flatten (by decide) branch.val
  have back := decode_serialize branch
  rw [same] at back
  simp only [pieces, mapM_fromSlice, orPanic_bind, dif_pos branch.property, back]
  rfl

theorem decode_eq_ok {sl : Bytes} {branch : TaprootMerkleBranch} :
    decode sl = .ok branch ↔ branch.serialize = sl := by
  constructor
  · intro decoded
    have accepted := decoded
    rw [decode] at accepted
    split_ifs at accepted with whole deep
    obtain ⟨other, same⟩ := exists_branch (not_not.mp whole) (Nat.not_lt.mp deep)
    rw [← same, decode_serialize] at decoded
    rw [← Except.ok.inj decoded, same]
  · rintro rfl
    exact decode_serialize branch

/-- The sizes of branches. -/
theorem exists_decode {sl : Bytes} : (∃ branch, decode sl = .ok branch) ↔
    ∃ k ≤ controlMaxNodeCount, sl.length = controlNodeSize * k := by
  constructor
  · rintro ⟨branch, decoded⟩
    refine ⟨branch.val.length, branch.property, ?_⟩
    rw [← decode_eq_ok.mp decoded]
    exact serialize_length branch.val
  · rintro ⟨k, shallow, length⟩
    have whole : sl.length % controlNodeSize = 0 := by rw [length, Nat.mul_mod_right]
    obtain ⟨branch, same⟩ := exists_branch whole (length ▸ Nat.mul_le_mul_left _ shallow)
    exact ⟨branch, decode_eq_ok.mpr same⟩

/-- `encode` writes the hashes and returns how many bytes they have. -/
def encode (branch : TaprootMerkleBranch) : Emission IoError :=
  .counted (branch.val.length * 32) branch.serialize

end TaprootMerkleBranch

namespace ControlBlock

/-- The two parts of the first byte make up all of it. -/
theorem firstByte_whole (first : UInt8) :
    (if (first &&& 1 != 0) then 1 else 0) ||| (first &&& leafMask) = first := by
  have all : ∀ n < 256, (if (UInt8.ofNat n &&& 1 != 0) then 1 else 0) ||| (UInt8.ofNat n &&& leafMask) =
      UInt8.ofNat n := by decide +kernel
  rw [← UInt8.ofNat_toNat (x := first)]
  exact all _ first.toNat_lt

variable [Secp256k1]

/-- `&sl[start..stop]`. -/
def slice (sl : Bytes) (start stop : Nat) : Option Bytes :=
  if start ≤ stop ∧ stop ≤ sl.length then some ((sl.take stop).drop start) else none

/-- `decode`, with every step that could panic. -/
def decodeOrPanic (sl : Bytes) : ExceptT TaprootError Option ControlBlock :=
  if sl.length < controlBaseSize ∨ (sl.length - controlBaseSize) % controlNodeSize ≠ 0 then
    throw (.invalidControlBlockSize sl.length)
  else do
    let outputKeyParity := (← orPanic sl.head?) &&& 1 != 0
    let leafVersion ← LeafVersion.fromConsensusOrPanic ((← orPanic sl.head?) &&& leafMask)
    let internalKey ← match
        Secp256k1.xOnlyPublicKeyFromSlice (← orPanic (slice sl 1 controlBaseSize)) with
      | some key => pure key
      | none => throw .invalidInternalKey
    let merkleBranch ←
      TaprootMerkleBranch.decodeOrPanic (← orPanic (slice sl controlBaseSize sl.length))
    pure { leafVersion, outputKeyParity, internalKey, merkleBranch }

def size (block : ControlBlock) : Nat :=
  controlBaseSize + controlNodeSize * block.merkleBranch.val.length

/-- `encode`; what the branch counts is dropped for the size of the block. -/
def encode (block : ControlBlock) : Emission IoError :=
  let firstByte := (if block.outputKeyParity then 1 else 0) ||| block.leafVersion.toConsensus
  let key := (Secp256k1.serializeXOnly block.internalKey).val
  block.merkleBranch.encode.map fun branch => (block.size, firstByte :: (key ++ branch.2))

theorem length_serialize (block : ControlBlock) : block.serialize.length = block.size := by
  have branch := TaprootMerkleBranch.serialize_length block.merkleBranch.val
  have key := (Secp256k1.serializeXOnly block.internalKey).property
  rw [serialize, List.length_cons, List.length_append, key, TaprootMerkleBranch.serialize, branch, size,
    controlBaseSize]
  omega

theorem encode_eq (block : ControlBlock) : block.encode = .written block.serialize := by
  rw [Emission.written, length_serialize]
  rfl

theorem decodeOrPanic_eq (sl : Bytes) : decodeOrPanic sl = liftM (decode sl) := by
  rw [decodeOrPanic, decode]
  split_ifs with wrong
  · rfl
  obtain ⟨long, whole⟩ := not_or.mp wrong
  have enough : controlBaseSize ≤ sl.length := Nat.not_lt.mp long
  obtain ⟨first, tail, rfl⟩ := List.exists_cons_of_length_pos (Nat.lt_of_lt_of_le (by decide) enough)
  have key : slice (first :: tail) 1 controlBaseSize = some (((first :: tail).drop 1).take 32) := by
    rw [slice, if_pos ⟨by decide, enough⟩, List.drop_take]
    rfl
  have branch : slice (first :: tail) controlBaseSize (first :: tail).length =
      some ((first :: tail).drop controlBaseSize) := by
    rw [slice, if_pos ⟨enough, le_rfl⟩, List.take_length]
  simp only [List.head?_cons, orPanic_bind, key, branch, LeafVersion.fromConsensusOrPanic_eq,
    TaprootMerkleBranch.decodeOrPanic_eq, List.headD_cons]
  cases LeafVersion.fromConsensus (first &&& leafMask) with
  | error e => rfl
  | ok leafVersion =>
    cases Secp256k1.xOnlyPublicKeyFromSlice (((first :: tail).drop 1).take 32) with
    | none => rfl
    | some internalKey =>
      cases TaprootMerkleBranch.decode ((first :: tail).drop controlBaseSize) with
      | error e => rfl
      | ok merkleBranch => rfl

/-- What is accepted, field by field. -/
theorem decode_eq_ok {sl : Bytes} {block : ControlBlock} : decode sl = .ok block ↔
    controlBaseSize ≤ sl.length ∧ (sl.headD 0 &&& 1 != 0) = block.outputKeyParity ∧
      sl.headD 0 &&& leafMask = block.leafVersion.toConsensus ∧
      Secp256k1.xOnlyPublicKeyFromSlice ((sl.drop 1).take 32) = some block.internalKey ∧
      block.merkleBranch.serialize = sl.drop controlBaseSize := by
  rw [decode]
  constructor
  · intro decoded
    split_ifs at decoded with wrong
    have enough : controlBaseSize ≤ sl.length := Nat.not_lt.mp (not_or.mp wrong).1
    simp only [bind_eq_ok] at decoded
    obtain ⟨leafVersion, version, decoded⟩ := decoded
    cases key : Secp256k1.xOnlyPublicKeyFromSlice ((sl.drop 1).take 32) with
    | none => simp only [key, bind_eq_ok, reduceCtorEq, false_and, exists_false] at decoded
    | some internalKey =>
      simp only [key, bind_eq_ok, pure_eq_ok, Except.ok.injEq] at decoded
      obtain ⟨_, rfl, merkleBranch, branch, rfl⟩ := decoded
      exact ⟨enough, rfl, LeafVersion.fromConsensus_eq_ok.mp version, rfl,
        TaprootMerkleBranch.decode_eq_ok.mp branch⟩
  · rintro ⟨enough, parity, version, key, branch⟩
    have total := congrArg List.length branch
    rw [TaprootMerkleBranch.serialize, TaprootMerkleBranch.serialize_length, List.length_drop] at total
    rw [if_neg (by rw [← total, Nat.mul_mod_right]; simp [enough])]
    simp only [key, LeafVersion.fromConsensus_eq_ok.mpr version,
      TaprootMerkleBranch.decode_eq_ok.mpr branch, parity]
    rfl

/-- A control block has one encoding. -/
theorem serialize_of_decode [Secp256k1.XOnlyInverse] {sl : Bytes} {block : ControlBlock}
    (decoded : decode sl = .ok block) : block.serialize = sl := by
  obtain ⟨enough, parity, version, parsed, branch⟩ := decode_eq_ok.mp decoded
  have length : ((sl.drop 1).take 32).length = 32 := by
    rw [List.length_take, List.length_drop]
    simp only [controlBaseSize] at enough
    omega
  have key := Secp256k1.XOnlyInverse.serializeXOnly_fromSlice ⟨_, length⟩ _ parsed
  obtain ⟨first, tail, rfl⟩ := List.exists_cons_of_length_pos (Nat.lt_of_lt_of_le (by decide) enough)
  rw [serialize, ← parity, ← version, key, branch]
  have front : tail.take 32 ++ tail.drop 32 = tail := List.take_append_drop 32 tail
  exact congrArg₂ List.cons (firstByte_whole first) front

/-- The lengths, the first bytes and the keys that are accepted. -/
theorem exists_decode {sl : Bytes} : (∃ block, decode sl = .ok block) ↔
    (∃ k ≤ 128, sl.length = 33 + 32 * k) ∧ sl.headD 0 &&& leafMask ≠ annexPrefix ∧
      ∃ key, Secp256k1.xOnlyPublicKeyFromSlice ((sl.drop 1).take 32) = some key := by
  have masked : (sl.headD 0 &&& leafMask) &&& leafMask = sl.headD 0 &&& leafMask := by
    rw [UInt8.and_assoc, UInt8.and_self]
  constructor
  · rintro ⟨block, decoded⟩
    obtain ⟨enough, -, version, key, branch⟩ := decode_eq_ok.mp decoded
    refine ⟨⟨block.merkleBranch.val.length, block.merkleBranch.property, ?_⟩, ?_, _, key⟩
    · have total := congrArg List.length branch
      rw [TaprootMerkleBranch.serialize, TaprootMerkleBranch.serialize_length, List.length_drop] at total
      simp only [controlBaseSize, controlNodeSize] at enough total
      omega
    · exact (LeafVersion.fromConsensus_masked masked).mp
        ⟨_, LeafVersion.fromConsensus_eq_ok.mpr version⟩
  · rintro ⟨⟨k, shallow, length⟩, plain, key, parsed⟩
    obtain ⟨leafVersion, version⟩ := (LeafVersion.fromConsensus_masked masked).mpr plain
    have size : (sl.drop controlBaseSize).length = controlNodeSize * k := by
      rw [List.length_drop, length, controlBaseSize, Nat.add_sub_cancel_left]
      rfl
    obtain ⟨branch, decoded⟩ := TaprootMerkleBranch.exists_decode.mpr ⟨k, shallow, size⟩
    refine ⟨⟨leafVersion, _, key, branch⟩, decode_eq_ok.mpr ⟨?_, rfl,
      LeafVersion.fromConsensus_eq_ok.mp version, parsed, TaprootMerkleBranch.decode_eq_ok.mp decoded⟩⟩
    rw [length]
    exact Nat.le_add_right 33 _

/-- Each accepted byte string is the encoding of the control block, with the size that the block
gives. Each block is read back. Errors are about the length, the annex prefix and the key, and
nothing panics. -/
theorem controlBlock_codec [Secp256k1.XOnlyInverse] :
    (∀ sl block, decode sl = .ok block →
      block.serialize = sl ∧ block.encode = .written sl ∧ sl.length = block.size) ∧
    (∀ block, decode block.serialize = .ok block) ∧
    (∀ sl, (∃ e, decode sl = .error e) ↔
      (¬ ∃ k ≤ 128, sl.length = 33 + 32 * k) ∨ sl.headD 0 &&& leafMask = annexPrefix ∨
        Secp256k1.xOnlyPublicKeyFromSlice ((sl.drop 1).take 32) = none) ∧
    ∀ sl, decodeOrPanic sl = liftM (decode sl) := by
  refine ⟨fun sl block decoded => ?_, decode_serialize_of
    Secp256k1.XOnlyInverse.xOnlyFromSlice_serialize, fun sl => ?_, decodeOrPanic_eq⟩
  · have same := serialize_of_decode decoded
    exact ⟨same, by rw [encode_eq, same], by rw [← same, length_serialize]⟩
  · have failed : (∃ e, decode sl = .error e) ↔ ¬ ∃ block, decode sl = .ok block := by
      cases decode sl with
      | error e => simp
      | ok block => simp
    rw [failed, exists_decode, not_and_or, not_and_or, not_not, Option.eq_none_iff_forall_ne_some]
    simp only [not_exists, ne_eq]

end ControlBlock

namespace ControlBlock.Sample

attribute [local instance] Secp256k1.generatorOnly Secp256k1.generatorOnly_xOnlyInverse

/-- The base point under a future version and an odd output key, two levels deep. -/
def bytes : Bytes := 0xc3 :: (Secp256k1.generatorXOnly.val ++ List.replicate 64 7)

theorem bytes_reserialized : ∃ block, decode bytes = .ok block ∧ block.serialize = bytes := by
  have accepted : ∃ block, decode bytes = .ok block :=
    exists_decode.mpr ⟨⟨2, by decide, rfl⟩, by decide, (), rfl⟩
  obtain ⟨block, decoded⟩ := accepted
  exact ⟨block, decoded, (controlBlock_codec.1 bytes block decoded).1⟩

end ControlBlock.Sample
end Litecoin.Taproot
