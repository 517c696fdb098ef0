import Litecoin.MerkleTree.Extraction
import Litecoin.Blockdata.BlockExactness
import Litecoin.Tree.Binding
import Litecoin.Wire.Run

/-! A merkle root binds the hashes below it, up to repetitions at the end when their number is not
known. -/
namespace Litecoin.MerkleTree
open Wire Consensus Blockdata PartialMerkleTree

section
variable (engine : Bytes → ByteArr 32)

theorem calculateRoot_eq_level (hashes : List (ByteArr 32)) :
    calculateRoot engine hashes = (Tree.level (hashPair engine) hashes (treeHeight hashes.length))[0]? := by
  rw [calculateRoot_eq]
  exact Tree.root_eq_level _ (width_treeHeight _) fun _ => width_below_treeHeight

/-- The top level has the root alone. -/
theorem top_level {hashes : List (ByteArr 32)} (nonempty : hashes ≠ []) {root : ByteArr 32}
    (found : calculateRoot engine hashes = some root) :
    Tree.level (hashPair engine) hashes (treeHeight hashes.length) = [root] := by
  rw [calculateRoot_eq_level] at found
  have one : (Tree.level (hashPair engine) hashes (treeHeight hashes.length)).length = 1 := by
    rw [Tree.length_level]
    exact Nat.le_antisymm (width_treeHeight _) (Tree.width_pos (List.length_pos_iff.mpr nonempty) _)
  obtain ⟨top, shape⟩ := List.length_eq_one_iff.mp one
  rw [shape] at found ⊢
  exact congrArg (fun node => [node]) (Option.some.inj found)

/-- No two of the pairs that are hashed for the two roots collide. -/
def CollisionFree (first second : List (ByteArr 32)) : Prop :=
  Set.InjOn (Function.uncurry (hashPair engine)) {pair | pair ∈ rootPairs engine first ∨ pair ∈ rootPairs engine second}

variable {first second : List (ByteArr 32)} (nonempty : first ≠ []) (injective : CollisionFree engine first second)
  (sameRoot : calculateRoot engine first = calculateRoot engine second)
include nonempty injective sameRoot

theorem extends_of_calculateRoot (more : first.length ≤ second.length)
    (sameHeight : treeHeight first.length = treeHeight second.length) : Tree.Extends first second := by
  obtain ⟨root, found⟩ := Option.ne_none_iff_exists'.mp
    (show calculateRoot engine first ≠ none by rwa [calculateRoot_eq, Ne, Tree.root_eq_none])
  have some' : second ≠ [] := by
    rintro rfl
    exact nonempty (List.length_eq_zero_iff.mp (Nat.le_zero.mp more))
  have top := top_level engine nonempty found
  have otherTop := top_level engine some' (sameRoot ▸ found)
  refine Tree.extends_of_level (hashPair engine) injective (fun p member => .inl member) ?_ more ?_
  · intro p member
    rw [sameHeight] at member
    exact .inr member
  · rw [top, sameHeight, otherTop]
    exact .refl

theorem eq_of_calculateRoot (count : first.length = second.length) : first = second := by
  have prefix' := (extends_of_calculateRoot engine nonempty injective sameRoot (Nat.le_of_eq count)
    (congrArg treeHeight count)).isPrefix
  exact prefix'.eq_of_length count

/-- Without a hash that is also a node, a longer list repeats hashes at its end. -/
theorem extends_of_longer (more : first.length < second.length)
    (leaves : ∀ hash ∈ first, ∀ pair ∈ rootPairs engine second, Function.uncurry (hashPair engine) pair ≠ hash) :
    Tree.Extends first second := by
  have heights : treeHeight first.length ≤ treeHeight second.length := Nat.clog_mono_right 2 (Nat.le_of_lt more)
  rcases Nat.lt_or_eq_of_le heights with below | same
  · obtain ⟨root, found⟩ := Option.ne_none_iff_exists'.mp
      (show calculateRoot engine first ≠ none by rwa [calculateRoot_eq, Ne, Tree.root_eq_none])
    have top := found
    have otherTop := sameRoot ▸ found
    rw [calculateRoot_eq_level] at top otherTop
    obtain ⟨pair, member, leaf⟩ := Tree.leaf_of_higher (hashPair engine) injective below
      (fun p member => .inl member) (fun p member => .inr member) top otherTop
    exact absurd rfl (leaves _ leaf pair member)
  · exact extends_of_calculateRoot engine nonempty injective sameRoot (Nat.le_of_lt more) same

end

section
variable [Secp256k1] (sha256d : Bytes → ByteArr 32)

theorem checkMerkleRoot_eq_true {block : Block} :
    block.checkMerkleRoot sha256d = .ok true ↔
      ∃ txids, block.txids sha256d = .ok txids ∧ calculateRoot sha256d txids = some block.header.merkleRoot := by
  rw [Block.checkMerkleRoot, Block.computeMerkleRoot]
  rcases block.txids sha256d with e | txids
  · simp [Except.map]
  · rcases found : calculateRoot sha256d txids with _ | root
    · simp [Except.map, found]
    · simp [Except.map, found, eq_comm]

theorem length_txids {block : Block} {txids : List (ByteArr 32)} (hashed : block.txids sha256d = .ok txids) :
    txids.length = block.txdata.toList.length :=
  (mapM_forall₂ hashed).length_eq.symm

/-- Roots of lists of one length, and with them `check_merkle_root`, bind the hashes and their
order. A longer list with the same root repeats hashes at its end, unless a hash is a node. -/
theorem merkle_root_binds (engine : Bytes → ByteArr 32) :
    (∀ first second : List (ByteArr 32), first ≠ [] → CollisionFree engine first second →
      calculateRoot engine first = calculateRoot engine second →
      (first.length = second.length → first = second) ∧
      (first.length < second.length →
        (∀ hash ∈ first, ∀ pair ∈ rootPairs engine second, Function.uncurry (hashPair engine) pair ≠ hash) →
        Tree.Extends first second ∧ ¬ second.Nodup)) ∧
    ∀ block other : Block, block.header = other.header →
      block.txdata.toList.length = other.txdata.toList.length →
      (∀ txids others, block.txids engine = .ok txids → other.txids engine = .ok others →
        CollisionFree engine txids others) →
      block.checkMerkleRoot engine = .ok true → other.checkMerkleRoot engine = .ok true →
      ∃ txids, block.txids engine = .ok txids ∧ other.txids engine = .ok txids := by
  constructor
  · intro first second nonempty injective sameRoot
    refine ⟨eq_of_calculateRoot engine nonempty injective sameRoot, fun more leaves => ?_⟩
    have repeats := extends_of_longer engine nonempty injective sameRoot more leaves
    exact ⟨repeats, repeats.not_nodup more⟩
  · intro block other sameHeader count injective checked otherChecked
    obtain ⟨txids, hashed, root⟩ := (checkMerkleRoot_eq_true engine).mp checked
    obtain ⟨others, otherHashed, otherRoot⟩ := (checkMerkleRoot_eq_true engine).mp otherChecked
    have nonempty : txids ≠ [] := by
      rintro rfl
      exact absurd root nofun
    have length : txids.length = others.length := by
      rw [length_txids engine hashed, length_txids engine otherHashed, count]
    have same := eq_of_calculateRoot engine nonempty (injective txids others hashed otherHashed)
      (by rw [root, otherRoot, sameHeader]) length
    exact ⟨txids, hashed, by rw [otherHashed, same]⟩

end

/-! Two lists and two blocks with the same root. -/
namespace Sample

def txid : ByteArr 32 := hashOf 0x50fa7bd4e5e2d3220fd2e84effec495b9845aba379d853408779d59a4b0b4f59

/-- The double SHA-256 of what is hashed here. -/
def engine (preimage : Bytes) : ByteArr 32 :=
  if preimage.length = 60 then txid
  else if preimage = txid.val ++ txid.val then
    hashOf 0x12811666f1d226c3b3d15d29955c8a82ffaf968e67bb028b146d726ec9abd594
  else if preimage.take 32 = (engine80000 []).val then
    hashOf 0xdfd7cde3c9c891dd75e83c23228e0d859a98953a6cc0dfe8740f51a4c89a490d
  else engine80000 preimage

def long : List (ByteArr 32) := txids80000 ++ [txid, txid]

attribute [local instance] Secp256k1.generatorOnly

/-- A block of one transaction; whether it is a HogEx is not part of its txid. -/
def block (isHogEx : Bool) : Block where
  header := { version := 1, prevBlockhash := hashOf 0, merkleRoot := txid, time := 2, bits := 3, nonce := 4 }
  txdata := .singleton (Transaction.spending isHogEx)
  mwebBlock := none

theorem collisionFree_of_pairs {first second : List (ByteArr 32)}
    (each : ∀ pair ∈ rootPairs engine first ++ rootPairs engine second,
      ∀ other ∈ rootPairs engine first ++ rootPairs engine second,
        Function.uncurry (hashPair engine) pair = Function.uncurry (hashPair engine) other → pair = other) :
    CollisionFree engine first second :=
  fun _ member _ other => each _ (List.mem_append.mpr member) _ (List.mem_append.mpr other)

theorem block_txids (isHogEx : Bool) : (block isHogEx).txids engine = .ok [txid] := by
  cases isHogEx <;> decide

theorem roots_bound :
    Tree.Extends (txids80000 ++ [txid]) long ∧ ¬ long.Nodup ∧
    ∃ txids, (block false).txids engine = .ok txids ∧ (block true).txids engine = .ok txids := by
  have lists := (merkle_root_binds engine).1 (txids80000 ++ [txid]) long (by decide)
    (collisionFree_of_pairs (by decide)) (by decide)
  have repeats := lists.2 (by decide) (by decide)
  refine ⟨repeats.1, repeats.2, (merkle_root_binds engine).2 (block false) (block true) rfl rfl ?_
    (by decide) (by decide)⟩
  intro txids others hashed otherHashed
  obtain rfl := Except.ok.inj ((block_txids false).symm.trans hashed)
  obtain rfl := Except.ok.inj ((block_txids true).symm.trans otherHashed)
  exact collisionFree_of_pairs (by decide)

end Sample
end Litecoin.MerkleTree
