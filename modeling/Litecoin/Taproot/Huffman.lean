import Litecoin.Taproot.Commitment
import Litecoin.Tree.Huffman
import Litecoin.Wire.Heap

/-! The builder's tree for weighted scripts (`with_huffman_tree`), and that no other tree
over them has a lower weighted path length. -/
namespace Litecoin.Taproot
open Wire Consensus Litecoin.Tree

/-! ### The order of the queue -/

/-- Scripts come before hidden nodes. -/
def TapLeaf.key : TapLeaf → Bool × Option (ByteVec × LeafVersion) × Option TapNodeHash
  | .script code version => (false, some (code, version), none)
  | .hidden hash => (true, none, some hash)

theorem TapLeaf.key_injective : Function.Injective TapLeaf.key := by
  intro leaf other same
  cases leaf <;> cases other <;> simp_all [TapLeaf.key]

instance tapLeafOrd : Ord TapLeaf := ⟨compareOn TapLeaf.key⟩

instance tapLeafTransOrd : Std.TransOrd TapLeaf := inferInstanceAs (Std.TransCmp (compareOn _))

instance tapLeafLawfulEqOrd : Std.LawfulEqOrd TapLeaf := lawfulEq_compareOn TapLeaf.key_injective

instance leafNodeOrd : Ord LeafNode := ⟨compareOn fun node => (node.leaf, node.merkleBranch)⟩

instance leafNodeTransOrd : Std.TransOrd LeafNode := inferInstanceAs (Std.TransCmp (compareOn _))

instance leafNodeLawfulEqOrd : Std.LawfulEqOrd LeafNode := lawfulEq_compareOn fun node other same => by
  cases node
  cases other
  simpa using same

instance nodeInfoOrd : Ord NodeInfo :=
  ⟨compareOn fun node => (node.hash, node.leaves, node.hasHiddenNodes)⟩

instance nodeInfoTransOrd : Std.TransOrd NodeInfo := inferInstanceAs (Std.TransCmp (compareOn _))

instance nodeInfoLawfulEqOrd : Std.LawfulEqOrd NodeInfo := lawfulEq_compareOn fun node other same => by
  cases node
  cases other
  simpa using same

/-- A light node is great. -/
abbrev NodeWeight : Type := Reverse UInt32 × NodeInfo

/-- `u32::saturating_add`. -/
def saturatingAdd (a b : UInt32) : UInt32 := UInt32.ofNat (min (a.toNat + b.toNat) (2 ^ 32 - 1))

theorem toNat_saturatingAdd {a b : UInt32} (fits : a.toNat + b.toNat < 2 ^ 32) :
    (saturatingAdd a b).toNat = a.toNat + b.toNat := by
  rw [saturatingAdd, Nat.min_eq_left (Nat.le_sub_one_of_lt fits), UInt32.toNat_ofNat_of_lt' fits]

theorem weight_le {item greatest : NodeWeight} (below : (compare item greatest).isLE) :
    greatest.1.val.toNat ≤ item.1.val.toNat := by
  have lexicographic : compare item greatest =
      (compare greatest.1.val item.1.val).then (compare item.2 greatest.2) := rfl
  rw [lexicographic] at below
  exact UInt32.le_iff_toNat_le.mp (Std.isLE_compare.mp (Ordering.isLE_left_of_isLE_then below))

section
variable [Hashes]

/-- The `while` loop: as long as there are several nodes, the two that come first are combined. -/
def combineNodes : {len : Nat} → BinaryHeap NodeWeight (len + 1) → Except TaprootBuilderError NodeInfo
  | 0, nodeWeights => .ok nodeWeights.pop.1.2
  | _ + 1, nodeWeights => do
    let ((p1, s1), nodeWeights) := nodeWeights.pop
    let ((p2, s2), nodeWeights) := nodeWeights.pop
    let p := Reverse.mk (saturatingAdd p1.val p2.val)
    let parent ← NodeInfo.combine s1 s2
    combineNodes (nodeWeights.push (p, parent))

def TaprootBuilder.withHuffmanTree (scriptWeights : List (UInt32 × ByteVec)) :
    Except TaprootBuilderError TaprootBuilder :=
  match scriptWeights.map fun (p, leaf) => (Reverse.mk p, NodeInfo.newLeafWithVer leaf .tapScript) with
  | [] => .error .emptyTree
  | first :: rest => do
    let node ← combineNodes (.collect first rest)
    .ok ⟨[some node]⟩

/-- The order tells all nodes apart, so that what the queue holds decides what is built. -/
theorem combineNodes_congr {len otherLen : Nat} {nodeWeights : BinaryHeap NodeWeight (len + 1)}
    {other : BinaryHeap NodeWeight (otherLen + 1)} (same : nodeWeights.items.Perm other.items) :
    combineNodes nodeWeights = combineNodes other := by
  have lengths := same.length_eq
  rw [nodeWeights.length_items, other.length_items] at lengths
  obtain rfl := Nat.succ.inj lengths
  clear lengths
  induction len with
  | zero =>
    rw [combineNodes, combineNodes, (BinaryHeap.pop_perm_congr same).1]
  | succ len ih =>
    obtain ⟨first, left⟩ := BinaryHeap.pop_perm_congr same
    rw [combineNodes, combineNodes]
    generalize nodeWeights.pop = popped at first left ⊢
    generalize other.pop = otherPopped at first left ⊢
    obtain ⟨⟨p1, s1⟩, popped⟩ := popped
    obtain ⟨_, otherPopped⟩ := otherPopped
    dsimp only at first left ⊢
    subst first
    obtain ⟨second, rest⟩ := BinaryHeap.pop_perm_congr left
    generalize popped.pop = popped at second rest ⊢
    generalize otherPopped.pop = otherPopped at second rest ⊢
    obtain ⟨⟨p2, s2⟩, popped⟩ := popped
    obtain ⟨_, otherPopped⟩ := otherPopped
    dsimp only at second rest ⊢
    subst second
    exact bind_congr fun parent => ih (rest.cons _)

/-- Scripts may be given in any order. -/
theorem withHuffmanTree_congr {scriptWeights other : List (UInt32 × ByteVec)}
    (same : scriptWeights.Perm other) :
    TaprootBuilder.withHuffmanTree scriptWeights = TaprootBuilder.withHuffmanTree other := by
  have nodes := same.map fun item => (Reverse.mk item.1, NodeInfo.newLeafWithVer item.2 .tapScript)
  rw [TaprootBuilder.withHuffmanTree, TaprootBuilder.withHuffmanTree]
  generalize scriptWeights.map _ = items at nodes ⊢
  generalize other.map _ = others at nodes ⊢
  cases items with
  | nil =>
    obtain rfl := nodes.nil_eq
    rfl
  | cons first rest =>
    cases others with
    | nil => exact absurd nodes.length_eq (Nat.succ_ne_zero _)
    | cons first' rest' =>
      have built : combineNodes (.collect first rest) = combineNodes (.collect first' rest') :=
        combineNodes_congr nodes
      dsimp only
      rw [built]

/-! ### The trees that nodes stand for -/

abbrev WeightedScript : Type := UInt32 × ByteVec

namespace WeightedScript

omit [Hashes] in
def weight (item : WeightedScript) : Nat := item.1.toNat

omit [Hashes] in
def leaf (item : WeightedScript) : TapLeaf := .script item.2 .tapScript

end WeightedScript

/-- A node combines a tree of weighted scripts, and has its weight. -/
structure Combines (entry : NodeWeight) (tree : Binary WeightedScript) : Prop where
  node : ScriptTree.nodeInfo (tree.map WeightedScript.leaf) = .ok entry.2
  weight : entry.1.val.toNat = tree.total WeightedScript.weight

theorem combines_leaf (item : WeightedScript) :
    Combines (Reverse.mk item.1, NodeInfo.newLeafWithVer item.2 .tapScript) (.leaf item) where
  node := rfl
  weight := (Nat.add_zero _).symm

/-- One turn of the loop: the parent combines the trees of both nodes. -/
theorem Combines.parent {p1 p2 : Reverse UInt32} {s1 s2 parent : NodeInfo}
    {first second : Binary WeightedScript}
    (one : Combines (p1, s1) first) (two : Combines (p2, s2) second)
    (fits : first.total WeightedScript.weight + second.total WeightedScript.weight < 2 ^ 32)
    (combined : NodeInfo.combine s1 s2 = .ok parent) :
    Combines (Reverse.mk (saturatingAdd p1.val p2.val), parent) (.node second first) where
  node := (ScriptTree.nodeInfo_node two.node one.node).trans combined
  weight := by
    have weight1 : p1.val.toNat = _ := one.weight
    have weight2 : p2.val.toNat = _ := two.weight
    rw [← weight1, ← weight2] at fits
    rw [toNat_saturatingAdd fits, weight1, weight2, Binary.total_node, Nat.add_comm]

omit [Hashes] in
theorem exists_of_forall₂ {R : α → β → Prop} {items : List α} {others : List β} {other : β}
    (each : List.Forall₂ R items others) (member : other ∈ others) : ∃ item ∈ items, R item other := by
  induction each with
  | nil => contradiction
  | cons head _ ih =>
    rcases List.mem_cons.mp member with rfl | later
    · exact ⟨_, List.mem_cons_self, head⟩
    · obtain ⟨item, listed, related⟩ := ih later
      exact ⟨item, List.mem_cons_of_mem _ listed, related⟩

/-- The loop is a run of the greedy construction, whichever of equally light nodes come first. -/
theorem combineNodes_greedy {len : Nat} {nodeWeights : BinaryHeap NodeWeight (len + 1)}
    {forest : List (Binary WeightedScript)} {node : NodeInfo}
    (combines : List.Forall₂ Combines nodeWeights.items forest)
    (fits : (forest.map (Binary.total WeightedScript.weight)).sum < 2 ^ 32)
    (ok : combineNodes nodeWeights = .ok node) :
    ∃ tree, Greedy WeightedScript.weight forest tree ∧
      ScriptTree.nodeInfo (tree.map WeightedScript.leaf) = .ok node := by
  induction len generalizing forest with
  | zero =>
    obtain ⟨items, length⟩ := nodeWeights
    obtain ⟨only, rfl⟩ := List.length_eq_one_iff.mp length
    obtain ⟨tree, _, stands, empty, rfl⟩ := List.forall₂_cons_left_iff.mp combines
    obtain rfl := List.forall₂_nil_left_iff.mp empty
    obtain rfl : only.2 = node := Except.ok.inj ok
    exact ⟨tree, .done tree, stands.node⟩
  | succ len ih =>
    have greatest := nodeWeights.pop_greatest
    have perm := nodeWeights.pop_perm
    have greatest' := nodeWeights.pop.2.pop_greatest
    have perm' := nodeWeights.pop.2.pop_perm
    rw [combineNodes] at ok
    generalize nodeWeights.pop = popped at ok greatest perm greatest' perm'
    obtain ⟨⟨p1, s1⟩, left⟩ := popped
    dsimp only at ok greatest perm greatest' perm'
    generalize left.pop = popped at ok greatest' perm'
    obtain ⟨⟨p2, s2⟩, rest⟩ := popped
    dsimp only at ok greatest' perm'
    obtain ⟨parent, combined, later⟩ := bind_eq_ok.mp ok
    obtain ⟨forest', each, same⟩ := List.perm_comp_forall₂ ((perm'.cons _).trans perm) combines
    obtain ⟨first, _, one, more, rfl⟩ := List.forall₂_cons_left_iff.mp each
    obtain ⟨second, trees, two, others, rfl⟩ := List.forall₂_cons_left_iff.mp more
    have total : (forest.map (Binary.total WeightedScript.weight)).sum =
        first.total WeightedScript.weight + (second.total WeightedScript.weight +
          (trees.map (Binary.total WeightedScript.weight)).sum) := by
      rw [← (same.map _).sum_eq, List.map_cons, List.map_cons, List.sum_cons, List.sum_cons]
    have joined := one.parent two (by omega) combined
    have fits' : ((Binary.node second first :: trees).map
      (Binary.total WeightedScript.weight)).sum < 2 ^ 32 := by
      rw [List.map_cons, List.sum_cons, Binary.total_node]
      omega
    obtain ⟨tree, greedy, built⟩ := ih (.cons joined others) fits' later
    refine ⟨tree, .merge second first (same.symm.trans (.swap _ _ _)) ?_ greedy, built⟩
    intro other member
    obtain ⟨entry, listed, stands⟩ := exists_of_forall₂ others member
    rw [← stands.weight, ← one.weight, ← two.weight]
    exact ⟨weight_le (greatest' _ listed),
      weight_le (greatest _ (perm'.subset (List.mem_cons_of_mem _ listed)))⟩

/-! ### The finished tree -/

/-- What a builder holds when it is done: one node, with the leaves of a tree at their depths. -/
structure TaprootBuilder.Holds (builder : TaprootBuilder) (tree : ScriptTree) (node : NodeInfo) :
    Prop where
  only : builder.branch = [some node]
  finalizable : builder.isFinalizable = true
  finalized : builder.tryIntoNodeInfo = .ok (.ok node)
  complete : ∃ visible, TapTree.tryFrom builder = .ok (.ok ⟨node, visible⟩)
  root : node.hash = ScriptTree.rootHash tree
  leaves : (node.leaves.map fun leaf => (leaf.merkleBranch.val.length, leaf.leaf)).Perm (tree.walk 0)

omit [Hashes] in
theorem isScript_of_mem_walk {tree : Binary WeightedScript} :
    ∀ entry ∈ (tree.map WeightedScript.leaf).walk 0, entry.2.isScript = true := by
  rw [Binary.walk_map]
  intro entry member
  obtain ⟨item, -, rfl⟩ := List.mem_map.mp member
  rfl

theorem holds_of_nodeInfo {tree : Binary WeightedScript} {node : NodeInfo}
    (built : ScriptTree.nodeInfo (tree.map WeightedScript.leaf) = .ok node) :
    TaprootBuilder.Holds ⟨[some node]⟩ (tree.map WeightedScript.leaf) node where
  only := rfl
  finalizable := rfl
  finalized := rfl
  complete := by
    have visible := (ScriptTree.nodeInfo_visible built 0).mpr isScript_of_mem_walk
    exact ⟨visible, dif_pos visible⟩
  root := ScriptTree.nodeInfo_hash built
  leaves := by
    have listed := (ScriptTree.nodeInfo_leaves built 0).map LeafPath.entry
    rw [ScriptTree.map_scriptPaths, List.filter_eq_self.mpr isScript_of_mem_walk,
      List.map_map] at listed
    simpa only [Function.comp_def, LeafPath.entry, LeafNode.path, Nat.zero_add] using listed

/-- The tree that is built for weighted scripts has all of them as its leaves, and no tree over
them has a lower sum of weight times depth; in whatever order they are given, it is the same one. -/
theorem withHuffmanTree_optimal {scriptWeights : List WeightedScript} {builder : TaprootBuilder}
    (total : (scriptWeights.map WeightedScript.weight).sum < 2 ^ 32)
    (ok : TaprootBuilder.withHuffmanTree scriptWeights = .ok builder) :
    (∃ (tree : Binary WeightedScript) (node : NodeInfo),
      builder.Holds (tree.map WeightedScript.leaf) node ∧ tree.leaves.Perm scriptWeights ∧
      ∀ other : Binary WeightedScript, other.leaves.Perm scriptWeights →
        tree.cost WeightedScript.weight ≤ other.cost WeightedScript.weight) ∧
    ∀ others : List WeightedScript, others.Perm scriptWeights →
      TaprootBuilder.withHuffmanTree others = .ok builder := by
  refine ⟨?_, fun others same => (withHuffmanTree_congr same).trans ok⟩
  cases scriptWeights with
  | nil => contradiction
  | cons first rest =>
    rw [TaprootBuilder.withHuffmanTree, List.map_cons] at ok
    obtain ⟨node, combined, built⟩ := bind_eq_ok.mp ok
    obtain rfl := Except.ok.inj built
    have combines : List.Forall₂ Combines
        (BinaryHeap.collect (Reverse.mk first.1, NodeInfo.newLeafWithVer first.2 .tapScript)
          (rest.map fun item => (Reverse.mk item.1, NodeInfo.newLeafWithVer item.2 .tapScript))).items
        ((first :: rest).map .leaf) := by
      refine .cons (combines_leaf first) ?_
      rw [List.forall₂_map_left_iff, List.forall₂_map_right_iff, List.forall₂_same]
      exact fun item _ => combines_leaf item
    have fits : ((((first :: rest) : List WeightedScript).map Binary.leaf).map
        (Binary.total WeightedScript.weight)).sum < 2 ^ 32 := by
      rw [List.map_map]
      exact total
    obtain ⟨tree, greedy, nodeOk⟩ := combineNodes_greedy combines fits combined
    obtain ⟨leaves, optimal⟩ := greedy.optimal
    exact ⟨tree, node, holds_of_nodeInfo nodeOk, leaves,
      fun other same => optimal other (same.trans leaves.symm)⟩

end

namespace Sample
attribute [local instance] hashes

/-- A likely script, and two that are as unlikely: one is `OP_1` again. -/
def weighted : List WeightedScript := [(5, one), (1, two), (1, one)]

theorem weighted_tree : (weighted.map WeightedScript.weight).sum < 2 ^ 32 ∧
    TaprootBuilder.withHuffmanTree weighted = .ok ⟨[some node]⟩ ∧
    (∃ (tree : Binary WeightedScript) (root : NodeInfo),
      TaprootBuilder.Holds ⟨[some node]⟩ (tree.map WeightedScript.leaf) root ∧
        tree.leaves.Perm weighted ∧
      ∀ other : Binary WeightedScript, other.leaves.Perm weighted →
        tree.cost WeightedScript.weight ≤ other.cost WeightedScript.weight) ∧
    ∀ others : List WeightedScript, others.Perm weighted →
      TaprootBuilder.withHuffmanTree others = .ok ⟨[some node]⟩ := by
  have total : (weighted.map WeightedScript.weight).sum < 2 ^ 32 := by decide
  have built : TaprootBuilder.withHuffmanTree weighted = .ok ⟨[some node]⟩ := by decide
  exact ⟨total, built, withHuffmanTree_optimal total built⟩

end Sample
end Litecoin.Taproot
