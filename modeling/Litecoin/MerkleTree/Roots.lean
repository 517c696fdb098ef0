import Litecoin.MerkleTree.Block
import Litecoin.Tree.Levels
import Mathlib.Data.UInt

/-! The root computations against the tree of levels: the level folded from an
iterator, the level overwritten in place, and the recursion by height and position. -/
namespace Litecoin.MerkleTree
open Wire Consensus

variable (engine : Bytes → ByteArr 32)

theorem firstLevel_eq (hashes : List (ByteArr 32)) :
    firstLevel engine hashes = Tree.pairUp (hashPair engine) hashes := by
  fun_induction firstLevel engine hashes <;> simp_all [Tree.pairUp]

/-- The loop overwrites nodes that are no longer read: before round `idx` the slice is
the finished part of the next level followed by the untouched rest of this one. -/
theorem overwriteLevel_eq (hashes : List (ByteArr 32)) {remaining idx : Nat}
    (rounds : idx + remaining = (hashes.length + 1) / 2) :
    overwriteLevel engine remaining idx
        ((Tree.pairUp (hashPair engine) hashes).take idx ++ hashes.drop idx) =
      some (Tree.pairUp (hashPair engine) hashes ++ hashes.drop ((hashes.length + 1) / 2)) := by
  induction remaining generalizing idx with
  | zero =>
    rw [overwriteLevel, ← rounds, Nat.add_zero, List.take_of_length_le]
    rw [Tree.length_pairUp]
    omega
  | succ remaining ih =>
    have prefixLength : ((Tree.pairUp (hashPair engine) hashes).take idx).length = idx := by
      rw [List.length_take, Tree.length_pairUp]
      omega
    have sliceLength : ((Tree.pairUp (hashPair engine) hashes).take idx ++ hashes.drop idx).length =
        hashes.length := by
      rw [List.length_append, prefixLength, List.length_drop]
      omega
    have untouched : ∀ i, idx ≤ i → ((Tree.pairUp (hashPair engine) hashes).take idx ++
        hashes.drop idx)[i]? = hashes[i]? := by
      intro i later
      rw [List.getElem?_append_right (by omega), prefixLength, List.getElem?_drop]
      congr 1
      omega
    obtain ⟨left, atLeft⟩ : ∃ left, hashes[2 * idx]? = some left :=
      ⟨_, List.getElem?_eq_getElem (by omega)⟩
    -- At the odd end the second index falls back on the first.
    have atRight : hashes[min (2 * idx + 1) (hashes.length - 1)]? =
        some (hashes[2 * idx + 1]?.getD left) := by
      by_cases inside : 2 * idx + 1 < hashes.length
      · rw [Nat.min_eq_left (by omega), List.getElem?_eq_getElem inside, Option.getD_some]
      · have beyond : hashes[2 * idx + 1]? = none := List.getElem?_eq_none (by omega)
        rw [beyond, Option.getD_none, ← atLeft]
        congr 1
        omega
    have node : (Tree.pairUp (hashPair engine) hashes)[idx]? =
        some (hashPair engine left (hashes[2 * idx + 1]?.getD left)) := by
      rw [Tree.getElem?_pairUp, atLeft, Option.map_some]
    have stepped : ((Tree.pairUp (hashPair engine) hashes).take idx ++ hashes.drop idx).set idx
        (hashPair engine left (hashes[2 * idx + 1]?.getD left)) =
        (Tree.pairUp (hashPair engine) hashes).take (idx + 1) ++ hashes.drop (idx + 1) := by
      rw [List.take_add_one, node, Option.toList_some, List.append_assoc,
        List.set_append_right _ _ (by omega), prefixLength, Nat.sub_self]
      congr 1
      rw [List.drop_eq_getElem_cons (by omega)]
      rfl
    rw [overwriteLevel, sliceLength, untouched _ (by omega), untouched _ (by omega), atLeft, atRight]
    simp only [Option.bind_eq_bind, Option.bind_some]
    rw [stepped, ih (by omega)]

theorem merkleRootR_eq {hashes : List (ByteArr 32)} {fuel : Nat} (nonempty : hashes ≠ [])
    (enough : hashes.length ≤ fuel) :
    merkleRootR engine fuel hashes = Tree.root (hashPair engine) hashes := by
  induction fuel generalizing hashes with
  | zero => exact absurd (List.eq_nil_of_length_eq_zero (by omega)) nonempty
  | succ fuel ih =>
    match hashes, nonempty, enough with
    | [hash], _, _ => simp [merkleRootR, Tree.root]
    | hash₁ :: hash₂ :: rest, _, enough =>
      set hashes := hash₁ :: hash₂ :: rest with whole
      have several : 2 ≤ hashes.length := by simp [whole]
      have level := overwriteLevel_eq engine hashes (Nat.zero_add ((hashes.length + 1) / 2))
      rw [List.take_zero, List.drop_zero, List.nil_append] at level
      rw [merkleRootR, if_neg (by omega), level]
      simp only [Option.bind_eq_bind, Option.bind_some]
      rw [List.take_append_of_le_length (by rw [Tree.length_pairUp]; omega),
        List.take_of_length_le (by rw [Tree.length_pairUp]; omega), ← Tree.root_pairUp _ several]
      apply ih
      · rw [whole, Tree.pairUp]
        exact List.cons_ne_nil _ _
      · rw [Tree.length_pairUp]
        omega

theorem calculateRoot_eq (hashes : List (ByteArr 32)) :
    calculateRoot engine hashes = Tree.root (hashPair engine) hashes := by
  match hashes with
  | [] => simp [calculateRoot, Tree.root]
  | [hash] => simp [calculateRoot, Tree.root]
  | hash₁ :: hash₂ :: rest =>
    rw [calculateRoot.eq_3 _ _ (by simp) (by simp), firstLevel_eq, merkleRootR_eq engine _ le_rfl,
      Tree.root_pairUp _ (by simp)]
    rw [Tree.pairUp]
    exact List.cons_ne_nil _ _

theorem calculateRootInline_eq (hashes : List (ByteArr 32)) :
    calculateRootInline engine hashes = Tree.root (hashPair engine) hashes := by
  match hashes with
  | [] => simp [calculateRootInline, Tree.root]
  | [hash] => simp [calculateRootInline, Tree.root]
  | hash₁ :: hash₂ :: rest => exact merkleRootR_eq engine (by simp) le_rfl

namespace PartialMerkleTree

theorem u32_eq {n : Nat} (fits : n < 2 ^ 32) : u32 n = some n := if_pos fits

theorem calcTreeWidth_eq {tree : PartialMerkleTree} {height : Nat} (short : height < 32)
    (fits : tree.numTransactions.toNat + 2 ^ height < 2 ^ 32) :
    tree.calcTreeWidth height = some (Tree.width tree.numTransactions.toNat height) := by
  simp only [calcTreeWidth, if_pos short, Nat.one_shiftLeft, u32_eq fits, Option.bind_eq_bind,
    Option.bind_some, Nat.shiftRight_eq_div_pow, Tree.width]

/-- The height of the tree over `n` leaves. -/
def treeHeight (n : Nat) : Nat := Nat.clog 2 n

theorem width_treeHeight (n : Nat) : Tree.width n (treeHeight n) ≤ 1 := by
  rw [Tree.width_le_one]
  exact Nat.le_pow_clog one_lt_two n

theorem width_below_treeHeight {n lower : Nat} (below : lower < treeHeight n) :
    1 < Tree.width n lower := by
  rw [← not_le, Tree.width_le_one, not_le]
  exact (Nat.lt_clog_iff_pow_lt one_lt_two).mp below

/-- The heights at which no sum overflows. -/
theorem height_fits {n height : Nat} (small : n < 2 ^ 31) (bound : height ≤ treeHeight n) :
    height < 32 ∧ n + 2 ^ height < 2 ^ 32 := by
  have short : height ≤ 31 := bound.trans ((Nat.clog_le_iff_le_pow one_lt_two).mpr small.le)
  have power : 2 ^ height ≤ 2 ^ 31 := Nat.pow_le_pow_right (by decide) short
  omega

theorem calcTreeHeight_eq {tree : PartialMerkleTree}
    (small : tree.numTransactions.toNat < 2 ^ 31) :
    tree.calcTreeHeight = some (treeHeight tree.numTransactions.toNat) := by
  have climbs : ∀ fuel height, height ≤ treeHeight tree.numTransactions.toNat →
      treeHeight tree.numTransactions.toNat < height + fuel →
      tree.climb fuel height = some (treeHeight tree.numTransactions.toNat) := by
    intro fuel
    induction fuel with
    | zero => intros; omega
    | succ fuel ih =>
      intro height bound enough
      obtain ⟨short, fits⟩ := height_fits small bound
      rw [climb, calcTreeWidth_eq short fits]
      simp only [Option.bind_eq_bind, Option.bind_some]
      rcases bound.lt_or_eq with below | rfl
      · rw [if_pos (width_below_treeHeight below), ih _ below (by omega)]
      · rw [if_neg (not_lt.mpr (width_treeHeight _))]
  exact climbs 33 0 (Nat.zero_le _) (by have := (height_fits small le_rfl).1; omega)

theorem calcTreeHeight_panics {tree : PartialMerkleTree}
    (large : 2 ^ 31 ≤ tree.numTransactions.toNat) : tree.calcTreeHeight = none := by
  have climbs : ∀ fuel height, height ≤ 31 → tree.climb fuel height = none := by
    intro fuel
    induction fuel with
    | zero => intros; rfl
    | succ fuel ih =>
      intro height bound
      by_cases fits : tree.numTransactions.toNat + 2 ^ height < 2 ^ 32
      · have lower : height < 31 := by
          rcases bound.lt_or_eq with lower | rfl
          · exact lower
          · omega
        have power : 2 ^ height < 2 ^ 31 := Nat.pow_lt_pow_right (by decide) lower
        rw [climb, calcTreeWidth_eq (by omega) fits]
        simp only [Option.bind_eq_bind, Option.bind_some]
        rw [if_pos, ih _ lower]
        rw [← not_le, Tree.width_le_one]
        omega
      · have overflows : tree.calcTreeWidth height = none := by
          simp only [calcTreeWidth, if_pos (by omega : height < 32), Nat.one_shiftLeft, u32,
            if_neg fits, Option.bind_eq_bind, Option.bind_some, Option.bind_none]
        rw [climb, overflows]
        rfl
  exact climbs 33 0 (Nat.zero_le _)

theorem calcHash_eq {tree : PartialMerkleTree} {txids : List (ByteArr 32)}
    (count : tree.numTransactions.toNat = txids.length) (small : txids.length < 2 ^ 31)
    {height pos : Nat} (bound : height ≤ treeHeight txids.length)
    (inside : pos < Tree.width txids.length height) :
    tree.calcHash engine txids height pos =
      (Tree.level (hashPair engine) txids height)[pos]? := by
  induction height generalizing pos with
  | zero => rfl
  | succ height ih =>
    obtain ⟨short, fits⟩ := height_fits small (by omega : height ≤ treeHeight txids.length)
    have left := Tree.left_lt_width inside
    have narrow := Tree.width_le txids.length height
    rw [Tree.getElem?_level_succ, mul_comm 2 pos, calcHash, u32_eq (by omega), u32_eq (by omega),
      calcTreeWidth_eq short (count ▸ fits), count]
    simp only [Option.bind_eq_bind, Option.bind_some]
    rw [ih (by omega) (by omega)]
    obtain ⟨node, found⟩ : ∃ node, (Tree.level (hashPair engine) txids height)[pos * 2]? =
        some node := ⟨_, List.getElem?_eq_getElem (by rw [Tree.length_level]; omega)⟩
    rw [found]
    simp only [Option.bind_some, Option.map_some]
    split_ifs with more
    · obtain ⟨other, beside⟩ : ∃ other, (Tree.level (hashPair engine) txids height)[pos * 2 + 1]? =
          some other := ⟨_, List.getElem?_eq_getElem (by rw [Tree.length_level]; omega)⟩
      rw [ih (by omega) more, beside]
      rfl
    · have beyond : (Tree.level (hashPair engine) txids height)[pos * 2 + 1]? = none :=
        List.getElem?_eq_none (by rw [Tree.length_level]; omega)
      rw [beyond]
      rfl

end PartialMerkleTree

/-- The root computations return the root of the tree of levels. -/
def RootsAgree (hashes : List (ByteArr 32)) (tree : PartialMerkleTree) : Prop :=
  (calculateRoot engine hashes = none ↔ hashes = []) ∧
  (hashes ≠ [] →
    calculateRoot engine hashes = Tree.root (hashPair engine) hashes ∧
    calculateRootInline engine hashes = Tree.root (hashPair engine) hashes ∧
    (tree.calcTreeHeight.bind fun height => tree.calcHash engine hashes height 0) =
      Tree.root (hashPair engine) hashes)

theorem not_rootsAgree_of_large {hashes : List (ByteArr 32)} {tree : PartialMerkleTree}
    (count : tree.numTransactions.toNat = hashes.length) (large : 2 ^ 31 ≤ hashes.length) :
    ¬ RootsAgree engine hashes tree := by
  rintro ⟨empty, agree⟩
  have nonempty : hashes ≠ [] := by
    rintro rfl
    simp at large
  have partialRoot := (agree nonempty).2.2
  rw [PartialMerkleTree.calcTreeHeight_panics (by omega), Option.bind_none, eq_comm,
    Tree.root_eq_none] at partialRoot
  exact nonempty partialRoot

/-- For a tree over that many hashes, up to the number at which its widths overflow. -/
theorem rootsAgree_iff {hashes : List (ByteArr 32)} {tree : PartialMerkleTree}
    (count : tree.numTransactions.toNat = hashes.length) :
    RootsAgree engine hashes tree ↔ hashes.length < 2 ^ 31 := by
  constructor
  · intro agree
    by_contra large
    exact not_rootsAgree_of_large engine count (by omega) agree
  · intro small
    refine ⟨?_, fun nonempty => ⟨calculateRoot_eq engine hashes, calculateRootInline_eq engine hashes, ?_⟩⟩
    · rw [calculateRoot_eq, Tree.root_eq_none]
    · have positive := List.length_pos_iff.mpr nonempty
      rw [PartialMerkleTree.calcTreeHeight_eq (by omega), count, Option.bind_some,
        PartialMerkleTree.calcHash_eq engine count small le_rfl (Tree.width_pos positive _),
        Tree.root_eq_level _ (PartialMerkleTree.width_treeHeight _)
          fun _ => PartialMerkleTree.width_below_treeHeight]

/-- A hash from the number its reversed hexadecimal form shows. -/
def hashOf (shown : Nat) : ByteArr 32 := ⟨littleEndian 32 shown, littleEndian_length 32 shown⟩

/-- The two transactions of block 80000. -/
def txids80000 : List (ByteArr 32) :=
  [hashOf 0xc06fbab289f723c6261d3030ddb6be121f7d2508d77862bb1e484f5cd7f92b25,
   hashOf 0x5a4ebf66822b0b2d56bd9dc64ece0bc38ee7844a23ff1d7320a88c5fdb2ad3e2]

/-- The double SHA-256 of the one pair that block 80000 hashes. -/
def engine80000 (_ : Bytes) : ByteArr 32 :=
  hashOf 0x8fb300e3fdb6f30a4c67233b997f99fdd518b968b9a3fd65857bfe78b2600719

def tree80000 : PartialMerkleTree where
  numTransactions := 2
  bits := .empty
  hashes := .empty

theorem txids80000_rootsAgree : tree80000.numTransactions.toNat = txids80000.length ∧
    (RootsAgree engine80000 txids80000 tree80000 ↔ txids80000.length < 2 ^ 31) :=
  ⟨rfl, rootsAgree_iff engine80000 rfl⟩

/-- One hash more than `2 ^ 31` is enough for the width of the top level to overflow. -/
theorem manyHashes_disagree : ¬ RootsAgree engine80000 (List.replicate (2 ^ 31 + 1) (hashOf 0))
    { tree80000 with numTransactions := 2 ^ 31 + 1 } := by
  have count : ((2 ^ 31 + 1 : UInt32)).toNat = 2 ^ 31 + 1 := by decide
  refine not_rootsAgree_of_large engine80000 ?_ ?_
  · rw [List.length_replicate]
    exact count
  · rw [List.length_replicate]
    exact Nat.le_succ _

end Litecoin.MerkleTree
