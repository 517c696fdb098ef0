import Litecoin.Taproot.SpendInfo
import Litecoin.Tree.Walk

/-! The builder follows depth-first walks: the forest of script trees that its branch
stands for, what a finished walk builds, and which calls it turns away. -/
namespace Litecoin.Taproot
open Wire Consensus Litecoin.Tree

/-- A leaf with its depth and its hashing partners from the bottom up. -/
abbrev LeafPath : Type := Nat × TapLeaf × List TapNodeHash

def LeafPath.entry (path : LeafPath) : Nat × TapLeaf := (path.1, path.2.1)

/-- One more partner above a leaf. -/
def LeafPath.under (hash : TapNodeHash) (path : LeafPath) : LeafPath :=
  (path.1, path.2.1, path.2.2 ++ [hash])

namespace LeafNode

theorem push_eq_ok {node pushed : LeafNode} {hash : TapNodeHash} :
    node.push hash = .ok pushed ↔ pushed.leaf = node.leaf ∧
      pushed.merkleBranch.val = node.merkleBranch.val ++ [hash] := by
  obtain ⟨leaf, branch, bound⟩ := node
  obtain ⟨leaf', branch', bound'⟩ := pushed
  simp only [push, TaprootMerkleBranch.push]
  split
  · rename_i full
    constructor
    · intro failed
      contradiction
    · rintro ⟨rfl, rfl⟩
      rw [List.length_append, List.length_singleton] at bound'
      omega
  · constructor
    · intro ok
      have same := Except.ok.inj ok
      injection same with leaf branch
      injection branch with branch
      exact ⟨leaf.symm, branch.symm⟩
    · rintro ⟨rfl, rfl⟩
      rfl

theorem exists_push {node : LeafNode} (hash : TapNodeHash)
    (room : node.merkleBranch.val.length < controlMaxNodeCount) :
    ∃ pushed, node.push hash = .ok pushed :=
  ⟨⟨node.leaf, node.merkleBranch.val ++ [hash], by
    rw [List.length_append]
    exact room⟩, push_eq_ok.mpr ⟨rfl, rfl⟩⟩

/-- The path of a leaf below a node at `depth`. -/
def path (depth : Nat) (node : LeafNode) : LeafPath :=
  (depth + node.merkleBranch.val.length, node.leaf, node.merkleBranch.val)

end LeafNode

theorem map_path_pushed {leaves pushed : List LeafNode} {hash : TapNodeHash} (depth : Nat)
    (ok : leaves.mapM (LeafNode.push hash) = .ok pushed) :
    pushed.map (LeafNode.path depth) = (leaves.map (LeafNode.path (depth + 1))).map (LeafPath.under hash) := by
  have each := mapM_forall₂ ok
  clear ok
  induction each with
  | nil => rfl
  | @cons node result _ _ head tail ih =>
    obtain ⟨leaf, branch⟩ := LeafNode.push_eq_ok.mp head
    have same : result.path depth = LeafPath.under hash (node.path (depth + 1)) := by
      rw [LeafNode.path, leaf, branch, List.length_append, LeafNode.path, LeafPath.under, List.length_singleton,
        Nat.add_right_comm, Nat.add_assoc]
    rw [List.map_cons, List.map_cons, List.map_cons, same, ih]

/-- Whether a leaf is known. -/
def TapLeaf.isScript : TapLeaf → Bool
  | .script _ _ => true
  | .hidden _ => false

/-- A tree with versioned scripts and hidden hashes at its leaves. -/
abbrev ScriptTree : Type := Binary TapLeaf

section
variable [Hashes]

theorem combineNodeHashes_comm (a b : TapNodeHash) :
    (combineNodeHashes a b).1 = (combineNodeHashes b a).1 := by
  have swapped : compare b a = (compare a b).swap := Std.OrientedCmp.eq_swap
  simp only [combineNodeHashes, swapped]
  cases order : compare a b with
  | lt => rfl
  | gt => rfl
  | eq =>
    obtain rfl := Std.LawfulEqCmp.eq_of_compare order
    rfl

namespace NodeInfo

omit [Hashes] in
theorem join_eq_ok {hash : TapNodeHash} {first second node : NodeInfo} :
    join hash first second = .ok node ↔ ∃ pushedFirst pushedSecond,
      first.leaves.mapM (LeafNode.push second.hash) = .ok pushedFirst ∧
      second.leaves.mapM (LeafNode.push first.hash) = .ok pushedSecond ∧
      node = ⟨hash, pushedFirst ++ pushedSecond, first.hasHiddenNodes || second.hasHiddenNodes⟩ := by
  simp only [join, bind_eq_ok, pure_eq_ok]
  constructor
  · rintro ⟨pushedFirst, firstLeaves, pushedSecond, secondLeaves, rfl⟩
    exact ⟨pushedFirst, pushedSecond, firstLeaves, secondLeaves, rfl⟩
  · rintro ⟨pushedFirst, pushedSecond, firstLeaves, secondLeaves, rfl⟩
    exact ⟨pushedFirst, firstLeaves, pushedSecond, secondLeaves, rfl⟩

omit [Hashes] in
theorem join_paths {hash : TapNodeHash} {first second node : NodeInfo}
    (ok : join hash first second = .ok node) (depth : Nat) :
    node.leaves.map (LeafNode.path depth) =
      (first.leaves.map (LeafNode.path (depth + 1))).map (LeafPath.under second.hash) ++
        (second.leaves.map (LeafNode.path (depth + 1))).map (LeafPath.under first.hash) := by
  obtain ⟨pushedFirst, pushedSecond, firstLeaves, secondLeaves, rfl⟩ := join_eq_ok.mp ok
  rw [List.map_append, map_path_pushed depth firstLeaves, map_path_pushed depth secondLeaves]

/-- A parent lists the leaves of both children, those of the smaller hash first. The
children can be combined again in the order in which they are listed. -/
theorem combine_eq_ok {a b node : NodeInfo} (ok : combine a b = .ok node) :
    node.hash = (combineNodeHashes a.hash b.hash).1 ∧
    node.hasHiddenNodes = (a.hasHiddenNodes || b.hasHiddenNodes) ∧
    ∃ first second, (first = a ∧ second = b ∨ first = b ∧ second = a) ∧
      combine second first = .ok node ∧ ∀ depth, node.leaves.map (LeafNode.path depth) =
        (first.leaves.map (LeafNode.path (depth + 1))).map (LeafPath.under second.hash) ++
          (second.leaves.map (LeafNode.path (depth + 1))).map (LeafPath.under first.hash) := by
  by_cases before : compare a.hash b.hash = .lt
  · have swapped : compare b.hash a.hash = (compare a.hash b.hash).swap := Std.OrientedCmp.eq_swap
    have after : ¬ compare b.hash a.hash = .lt := by
      rw [swapped, before]
      decide
    simp only [combine, combineNodeHashes, before, if_true] at ok ⊢
    obtain ⟨_, _, _, _, rfl⟩ := join_eq_ok.mp ok
    refine ⟨rfl, rfl, a, b, .inl ⟨rfl, rfl⟩, ?_, join_paths ok⟩
    simp only [after, if_false]
    exact ok
  · have again := ok
    simp only [combine, combineNodeHashes, before, if_false] at ok ⊢
    obtain ⟨_, _, _, _, rfl⟩ := join_eq_ok.mp ok
    exact ⟨rfl, Bool.or_comm _ _, b, a, .inr ⟨rfl, rfl⟩, again, join_paths ok⟩

theorem exists_combine {a b : NodeInfo}
    (room : ∀ leaf ∈ a.leaves ++ b.leaves, leaf.merkleBranch.val.length < controlMaxNodeCount) :
    ∃ node, combine a b = .ok node := by
  obtain ⟨pushedA, okA⟩ := exists_mapM_ok fun leaf member =>
    LeafNode.exists_push b.hash (room leaf (List.mem_append_left _ member))
  obtain ⟨pushedB, okB⟩ := exists_mapM_ok fun leaf member =>
    LeafNode.exists_push a.hash (room leaf (List.mem_append_right _ member))
  rw [combine]
  simp only
  split
  · exact ⟨_, join_eq_ok.mpr ⟨pushedA, pushedB, okA, okB, rfl⟩⟩
  · exact ⟨_, join_eq_ok.mpr ⟨pushedB, pushedA, okB, okA, rfl⟩⟩

/-- The node of a single leaf. -/
def ofLeaf : TapLeaf → NodeInfo
  | .script script version => newLeafWithVer script version
  | .hidden hash => newHiddenNode hash

end NodeInfo

namespace ScriptTree

/-- The root of the tree, hashed from the bottom up. -/
def rootHash : ScriptTree → TapNodeHash
  | .leaf (.script script version) => leafHashFromScript script version
  | .leaf (.hidden hash) => hash
  | .node left right => (combineNodeHashes (rootHash left) (rootHash right)).1

/-- The script leaves from left to right, with their depths and the hashes of the
siblings on the way up. -/
def scriptPaths : ScriptTree → (depth : Nat) → List LeafPath
  | .leaf (.script script version), depth => [(depth, .script script version, [])]
  | .leaf (.hidden _), _ => []
  | .node left right, depth => (scriptPaths left (depth + 1)).map (LeafPath.under (rootHash right)) ++
      (scriptPaths right (depth + 1)).map (LeafPath.under (rootHash left))

/-- The script leaves are those that a walk comes across. -/
theorem map_scriptPaths (tree : ScriptTree) (depth : Nat) :
    (scriptPaths tree depth).map LeafPath.entry =
      (tree.walk depth).filter fun entry => entry.2.isScript := by
  induction tree generalizing depth with
  | leaf leaf =>
    cases leaf with
    | script script version => rfl
    | hidden hash => rfl
  | node left right ihLeft ihRight =>
    rw [scriptPaths, List.map_append, List.map_map, List.map_map, Binary.walk, List.filter_append,
      ← ihLeft, ← ihRight]
    rfl

/-- The node that the tree is combined to. As in `insert`, a right child is combined with
the sibling that waits for it. -/
def nodeInfo : ScriptTree → Except TaprootBuilderError NodeInfo
  | .leaf leaf => .ok (.ofLeaf leaf)
  | .node left right => do
    let left ← nodeInfo left
    let right ← nodeInfo right
    right.combine left

theorem nodeInfo_node {left right : ScriptTree} {leftNode rightNode : NodeInfo}
    (leftOk : nodeInfo left = .ok leftNode) (rightOk : nodeInfo right = .ok rightNode) :
    nodeInfo (.node left right) = rightNode.combine leftNode := by
  rw [nodeInfo, leftOk, rightOk]
  rfl

theorem nodeInfo_hash {tree : ScriptTree} {node : NodeInfo} (ok : nodeInfo tree = .ok node) :
    node.hash = rootHash tree := by
  induction tree generalizing node with
  | leaf leaf =>
    obtain rfl := Except.ok.inj ok
    cases leaf with
    | script script version => rfl
    | hidden hash => rfl
  | node left right ihLeft ihRight =>
    simp only [nodeInfo, bind_eq_ok] at ok
    obtain ⟨leftNode, leftOk, rightNode, rightOk, combined⟩ := ok
    rw [(NodeInfo.combine_eq_ok combined).1, ihLeft leftOk, ihRight rightOk, rootHash,
      combineNodeHashes_comm]

/-- The listed leaves are the script leaves, each with its siblings, in some order. -/
theorem nodeInfo_leaves {tree : ScriptTree} {node : NodeInfo} (ok : nodeInfo tree = .ok node)
    (depth : Nat) : (node.leaves.map (LeafNode.path depth)).Perm (scriptPaths tree depth) := by
  induction tree generalizing node depth with
  | leaf leaf =>
    obtain rfl := Except.ok.inj ok
    cases leaf with
    | script script version => exact .refl _
    | hidden hash => exact .refl _
  | node left right ihLeft ihRight =>
    simp only [nodeInfo, bind_eq_ok] at ok
    obtain ⟨leftNode, leftOk, rightNode, rightOk, combined⟩ := ok
    have leftPaths := (ihLeft leftOk (depth + 1)).map (LeafPath.under rightNode.hash)
    have rightPaths := (ihRight rightOk (depth + 1)).map (LeafPath.under leftNode.hash)
    obtain ⟨_, _, first, second, order, _, paths⟩ := NodeInfo.combine_eq_ok combined
    rw [paths, scriptPaths, ← nodeInfo_hash leftOk, ← nodeInfo_hash rightOk]
    obtain ⟨rfl, rfl⟩ | ⟨rfl, rfl⟩ := order
    · exact (rightPaths.append leftPaths).trans List.perm_append_comm
    · exact leftPaths.append rightPaths

theorem nodeInfo_visible {tree : ScriptTree} {node : NodeInfo} (ok : nodeInfo tree = .ok node)
    (depth : Nat) : node.hasHiddenNodes = false ↔ ∀ entry ∈ tree.walk depth, entry.2.isScript = true := by
  induction tree generalizing node depth with
  | leaf leaf =>
    obtain rfl := Except.ok.inj ok
    cases leaf with
    | script script version => simp [NodeInfo.ofLeaf, NodeInfo.newLeafWithVer, Binary.walk, TapLeaf.isScript]
    | hidden hash => simp [NodeInfo.ofLeaf, NodeInfo.newHiddenNode, Binary.walk, TapLeaf.isScript]
  | node left right ihLeft ihRight =>
    simp only [nodeInfo, bind_eq_ok] at ok
    obtain ⟨leftNode, leftOk, rightNode, rightOk, combined⟩ := ok
    rw [(NodeInfo.combine_eq_ok combined).2.1, Bool.or_eq_false_iff, Binary.walk, List.forall_mem_append,
      ihLeft leftOk (depth + 1), ihRight rightOk (depth + 1), and_comm]

theorem leaf_depth_le {tree : ScriptTree} {node : NodeInfo} (ok : nodeInfo tree = .ok node) :
    ∀ leaf ∈ node.leaves, leaf.merkleBranch.val.length ≤ tree.height := by
  intro leaf member
  have listed := (nodeInfo_leaves ok 0).subset (List.mem_map_of_mem member)
  have walked : (leaf.path 0).entry ∈ (tree.walk 0).filter fun entry => entry.2.isScript :=
    map_scriptPaths tree 0 ▸ List.mem_map_of_mem listed
  have bounded := Binary.height_le_iff.mp (Nat.le_of_eq (Nat.zero_add tree.height)) _
    (List.mem_filter.mp walked).1
  simpa only [LeafNode.path, LeafPath.entry, Nat.zero_add] using bounded

/-- A tree of script leaves that was combined is not too high. -/
theorem height_le_of_visible {tree : ScriptTree} {node : NodeInfo} (ok : nodeInfo tree = .ok node)
    (visible : ∀ entry ∈ tree.walk 0, entry.2.isScript = true) : tree.height ≤ controlMaxNodeCount := by
  rw [← Nat.zero_add tree.height, Binary.height_le_iff]
  intro entry member
  have listed := (nodeInfo_leaves ok 0).map LeafPath.entry
  rw [map_scriptPaths, List.filter_eq_self.mpr visible] at listed
  obtain ⟨path, found, rfl⟩ := List.mem_map.mp (listed.symm.subset member)
  obtain ⟨leaf, _, rfl⟩ := List.mem_map.mp found
  rw [LeafPath.entry, LeafNode.path, Nat.zero_add]
  exact leaf.merkleBranch.property

theorem exists_nodeInfo {tree : ScriptTree} (bounded : tree.height ≤ controlMaxNodeCount) :
    ∃ node, nodeInfo tree = .ok node := by
  induction tree with
  | leaf leaf => exact ⟨_, rfl⟩
  | node left right ihLeft ihRight =>
    rw [Binary.height] at bounded
    obtain ⟨leftNode, leftOk⟩ := ihLeft (by omega)
    obtain ⟨rightNode, rightOk⟩ := ihRight (by omega)
    rw [nodeInfo_node leftOk rightOk]
    apply NodeInfo.exists_combine
    intro leaf member
    rcases List.mem_append.mp member with member | member
    · have deep := leaf_depth_le rightOk leaf member
      omega
    · have deep := leaf_depth_le leftOk leaf member
      omega

end ScriptTree

namespace TaprootBuilder

theorem insert_eq {builder : TaprootBuilder} {node : NodeInfo} (deep : depth ≤ controlMaxNodeCount)
    (bound : builder.branch.length ≤ depth + 1) :
    builder.insert node depth =
      (fun (branch, node, depth) => place branch node depth) <$>
        propagate builder.branch node depth := by
  rw [insert, if_neg (by omega), if_neg (by omega)]
  rfl

/-- Depths that are too large or above an unfinished branch are turned away. -/
theorem bounds_of_insert {builder next : TaprootBuilder} {node : NodeInfo}
    (ok : builder.insert node depth = .ok next) :
    depth ≤ controlMaxNodeCount ∧ builder.branch.length ≤ depth + 1 := by
  rw [insert] at ok
  split_ifs at ok
  omega

/-- A node deeper than the branch waits there for its sibling. -/
theorem insert_waiting {builder : TaprootBuilder} {node : NodeInfo}
    (deep : depth ≤ controlMaxNodeCount) (bound : builder.branch.length ≤ depth) :
    builder.insert node depth = .ok ⟨builder.branch ++
      List.replicate (depth - builder.branch.length) none ++ [some node]⟩ := by
  have ready : propagate builder.branch node depth = .ok (builder.branch, node, depth) := by
    cases depth with
    | zero => rw [propagate, if_neg (by omega)]
    | succ depth => rw [propagate, if_neg (by omega)]
  have padded : builder.branch ++ List.replicate (depth + 1 - builder.branch.length) none =
      (builder.branch ++ List.replicate (depth - builder.branch.length) none) ++ [none] := by
    rw [show depth + 1 - builder.branch.length = (depth - builder.branch.length) + 1 by omega,
      List.replicate_succ', ← List.append_assoc]
  have size : (builder.branch ++ List.replicate (depth - builder.branch.length)
      (none : Option NodeInfo)).length = depth := by
    rw [List.length_append, List.length_replicate]
    omega
  rw [insert_eq deep (by omega), ready]
  change Except.ok (place _ _ _) = _
  rw [place, padded, List.set_append_right _ _ (by omega), size, Nat.sub_self]
  rfl

/-- A node whose place is free is put there. -/
theorem insert_vacant {branch : List (Option NodeInfo)} {node : NodeInfo}
    (deep : depth ≤ controlMaxNodeCount) (size : branch.length = depth) :
    insert ⟨branch ++ [none]⟩ node depth = .ok ⟨branch ++ [some node]⟩ := by
  have ready : propagate (branch ++ [none]) node depth = .ok (branch ++ [none], node, depth) := by
    cases depth with
    | zero => rw [propagate, List.getLast?_concat, ite_self]
    | succ depth => rw [propagate, List.getLast?_concat, ite_self]
  rw [insert_eq deep (by simp [size]), ready]
  change Except.ok (place _ _ _) = _
  rw [place, List.length_append, size, List.length_singleton, Nat.sub_self, List.replicate_zero,
    List.append_nil, List.set_append_right _ _ (by omega), size, Nat.sub_self]
  rfl

/-- A node whose sibling waits is combined with it and moves up. -/
theorem insert_sibling {branch : List (Option NodeInfo)} {node child : NodeInfo}
    (deep : depth + 1 ≤ controlMaxNodeCount) (size : branch.length = depth + 1) :
    insert ⟨branch ++ [some child]⟩ node (depth + 1) =
      node.combine child >>= fun parent => insert ⟨branch⟩ parent depth := by
  rw [insert_eq deep (by simp [size]), propagate, if_pos (by simp [size]), List.getLast?_concat,
    List.dropLast_concat]
  simp only [insert_eq (show depth ≤ controlMaxNodeCount by omega) (Nat.le_of_eq size)]
  cases node.combine child with
  | error e => rfl
  | ok parent => rfl

/-- The root has no sibling. -/
theorem insert_root (root node : NodeInfo) : insert ⟨[some root]⟩ node 0 = .error .overCompleteTree := by
  rfl

/-- Padding the branch up to the depth of a node does not change where it goes. -/
theorem insert_padded {branch : List (Option NodeInfo)} {node : NodeInfo}
    (deep : depth ≤ controlMaxNodeCount) (bound : branch.length ≤ depth + 1) :
    insert ⟨branch ++ List.replicate (depth + 1 - branch.length) none⟩ node depth =
      insert ⟨branch⟩ node depth := by
  obtain short | full := Nat.lt_or_eq_of_le bound
  · have padded : branch ++ List.replicate (depth + 1 - branch.length) none =
        (branch ++ List.replicate (depth - branch.length) none) ++ [none] := by
      rw [show depth + 1 - branch.length = (depth - branch.length) + 1 by omega,
        List.replicate_succ', ← List.append_assoc]
    have size : (branch ++ List.replicate (depth - branch.length)
        (none : Option NodeInfo)).length = depth := by
      rw [List.length_append, List.length_replicate]
      omega
    rw [insert_waiting deep (Nat.le_of_lt_succ short), padded, insert_vacant deep size]
  · rw [full, Nat.sub_self, List.replicate_zero, List.append_nil]

/-- The builder's step on one leaf. -/
def insertLeaf (builder : TaprootBuilder) (entry : Nat × TapLeaf) :
    Except TaprootBuilderError TaprootBuilder :=
  builder.insert (.ofLeaf entry.2) entry.1

/-- Inserting the leaves of a tree one by one inserts the tree. -/
theorem run_insertLeaf {tree : ScriptTree} {node : NodeInfo} (ok : ScriptTree.nodeInfo tree = .ok node)
    {builder : TaprootBuilder} (deep : depth + tree.height ≤ controlMaxNodeCount)
    (bound : builder.branch.length ≤ depth + 1) :
    run insertLeaf builder (tree.walk depth) = builder.insert node depth := by
  induction tree generalizing node builder depth with
  | leaf leaf =>
    obtain rfl := Except.ok.inj ok
    rw [Binary.walk, run, insertLeaf]
    cases builder.insert (.ofLeaf leaf) depth with
    | error e => rfl
    | ok next => rfl
  | node left right ihLeft ihRight =>
    simp only [ScriptTree.nodeInfo, bind_eq_ok] at ok
    obtain ⟨leftNode, leftOk, rightNode, rightOk, combined⟩ := ok
    rw [Binary.height] at deep
    have room : depth + 1 ≤ controlMaxNodeCount := by omega
    -- the left child waits at `depth + 1` until the right one is complete
    have waiting : run insertLeaf builder (left.walk (depth + 1)) = .ok ⟨builder.branch ++
        List.replicate (depth + 1 - builder.branch.length) none ++ [some leftNode]⟩ := by
      rw [ihLeft leftOk (by omega) (by omega), insert_waiting room bound]
    have size : (builder.branch ++ List.replicate (depth + 1 - builder.branch.length)
        (none : Option NodeInfo)).length = depth + 1 := by
      rw [List.length_append, List.length_replicate]
      omega
    rw [Binary.walk, run_append waiting, ihRight rightOk (by omega) (Nat.le_of_eq (by rw [List.length_append, size]; rfl)),
      insert_sibling room size, combined]
    exact insert_padded (by omega) bound

theorem run_walk {tree : ScriptTree} {node : NodeInfo} (ok : ScriptTree.nodeInfo tree = .ok node)
    (deep : tree.height ≤ controlMaxNodeCount) :
    run insertLeaf new (tree.walk 0) = .ok ⟨[some node]⟩ := by
  rw [run_insertLeaf ok (by omega) (Nat.zero_le _), insert_waiting (Nat.zero_le _) (Nat.le_refl _)]
  rfl

/-- A forest of script trees stands for the branch of a builder. -/
inductive Represents : List (Option ScriptTree) → List (Option NodeInfo) → Prop where
  | nil : Represents [] []
  | vacant {forest : List (Option ScriptTree)} {branch : List (Option NodeInfo)} :
      Represents forest branch → Represents (forest ++ [none]) (branch ++ [none])
  | waiting {forest : List (Option ScriptTree)} {branch : List (Option NodeInfo)} {tree : ScriptTree}
      {node : NodeInfo} : Represents forest branch → ScriptTree.nodeInfo tree = .ok node →
      Represents (forest ++ [some tree]) (branch ++ [some node])

section
variable {forest : List (Option ScriptTree)} {branch : List (Option NodeInfo)}

theorem Represents.length_eq (represents : Represents forest branch) : forest.length = branch.length := by
  induction represents with
  | nil => rfl
  | vacant _ ih => rw [List.length_append, List.length_append, ih]; rfl
  | waiting _ _ ih => rw [List.length_append, List.length_append, ih]; rfl

theorem Represents.padded (represents : Represents forest branch) (n : Nat) :
    Represents (forest ++ List.replicate n none) (branch ++ List.replicate n none) := by
  induction n with
  | zero => simpa using represents
  | succ n ih =>
    rw [List.replicate_succ', ← List.append_assoc, List.replicate_succ', ← List.append_assoc]
    exact ih.vacant

/-- A node whose place or whose sibling's place is taken moves up until it finds a free
place; the forest keeps its leaves in order. -/
theorem insert_full_eq_ok {tree : ScriptTree} {node : NodeInfo} {next : TaprootBuilder}
    (represents : Represents forest branch) (ok : ScriptTree.nodeInfo tree = .ok node)
    (size : branch.length = depth + 1) (inserted : insert ⟨branch⟩ node depth = .ok next) :
    ∃ init last, Represents (init ++ [some last]) next.branch ∧
      pending 0 (init ++ [some last]) = pending 0 forest ++ tree.walk depth := by
  induction depth generalizing forest branch tree node with
  | zero =>
    cases represents with
    | nil => contradiction
    | @vacant forest branch represents =>
      obtain rfl : branch = [] := by simpa using size
      rw [insert_vacant (Nat.zero_le _) rfl] at inserted
      obtain rfl := Except.ok.inj inserted
      obtain rfl : forest = [] := List.eq_nil_of_length_eq_zero represents.length_eq
      exact ⟨[], tree, represents.waiting ok, List.append_nil _⟩
    | @waiting forest branch other root represents rootOk =>
      obtain rfl : branch = [] := by simpa using size
      rw [List.nil_append, insert_root] at inserted
      contradiction
  | succ depth ih =>
    have deep := (bounds_of_insert inserted).1
    cases represents with
    | nil => contradiction
    | @vacant forest branch represents =>
      have size : branch.length = depth + 1 := by simpa using size
      rw [insert_vacant deep size] at inserted
      obtain rfl := Except.ok.inj inserted
      refine ⟨forest, tree, represents.waiting ok, ?_⟩
      simp only [pending_append, pending, represents.length_eq, size, List.append_nil, Nat.zero_add]
    | @waiting forest branch sibling child represents childOk =>
      have size : branch.length = depth + 1 := by simpa using size
      rw [insert_sibling deep size] at inserted
      obtain ⟨parent, combined, inserted⟩ := bind_eq_ok.mp inserted
      have parentOk := (ScriptTree.nodeInfo_node childOk ok).trans combined
      obtain ⟨init, last, represents', leaves⟩ := ih represents parentOk size inserted
      refine ⟨init, last, represents', leaves.trans ?_⟩
      simp only [pending_append, pending, represents.length_eq, size, List.append_nil, Nat.zero_add,
        Binary.walk, List.append_assoc]

/-- An accepted tree is the last of the forest, after those that were there before. -/
theorem insert_eq_ok {tree : ScriptTree} {node : NodeInfo} {next : TaprootBuilder}
    (represents : Represents forest branch) (ok : ScriptTree.nodeInfo tree = .ok node)
    (inserted : insert ⟨branch⟩ node depth = .ok next) :
    ∃ init last, Represents (init ++ [some last]) next.branch ∧
      pending 0 (init ++ [some last]) = pending 0 forest ++ tree.walk depth := by
  obtain ⟨deep, bound⟩ := bounds_of_insert inserted
  rcases Nat.lt_or_eq_of_le bound with short | full
  · have short : branch.length ≤ depth := Nat.le_of_lt_succ short
    rw [insert_waiting deep short] at inserted
    obtain rfl := Except.ok.inj inserted
    refine ⟨_, tree, (represents.padded _).waiting ok, ?_⟩
    have index : forest.length + (depth - branch.length) = depth := by
      rw [represents.length_eq]
      omega
    simp only [pending_append, pending_vacant, pending, List.append_nil, List.length_append,
      List.length_replicate, Nat.zero_add, index]
  · exact insert_full_eq_ok represents ok full inserted

end

/-- Every builder stands for the leaves that were added, in the order of the calls. -/
theorem run_insertLeaf_eq_ok {entries : List (Nat × TapLeaf)} {builder : TaprootBuilder}
    (ran : run insertLeaf new entries = .ok builder) :
    ∃ forest, Represents forest builder.branch ∧ pending 0 forest = entries ∧
      (forest = [] ∨ ∃ init last, forest = init ++ [some last]) ∧
      ∀ entry ∈ entries, entry.1 ≤ controlMaxNodeCount := by
  induction entries using List.reverseRecOn generalizing builder with
  | nil =>
    obtain rfl := Except.ok.inj ran
    exact ⟨[], .nil, rfl, .inl rfl, fun _ absent => absurd absent List.not_mem_nil⟩
  | append_singleton entries entry ih =>
    obtain ⟨middle, before, last⟩ := run_append_eq_ok.mp ran
    obtain ⟨next, inserted, finish⟩ := run_cons_eq_ok.mp last
    obtain rfl := Except.ok.inj finish
    obtain ⟨forest, represents, rfl, _, bounded⟩ := ih before
    have leafOk : ScriptTree.nodeInfo (.leaf entry.2) = .ok (.ofLeaf entry.2) := rfl
    obtain ⟨init, tree, represents', leaves⟩ := insert_eq_ok represents leafOk inserted
    refine ⟨_, represents', leaves, .inr ⟨init, tree, rfl⟩, ?_⟩
    intro other member
    rcases List.mem_append.mp member with member | member
    · exact bounded other member
    · obtain rfl := List.mem_singleton.mp member
      exact (bounds_of_insert inserted).1

theorem addTapLeaf_eq (builder : TaprootBuilder) (call : UInt8 × TapLeaf) :
    builder.addTapLeaf call = builder.insertLeaf (call.1.toNat, call.2) := by
  obtain ⟨depth, leaf⟩ := call
  cases leaf with
  | script script version => rfl
  | hidden hash => rfl

theorem run_addTapLeaf (builder : TaprootBuilder) (calls : List (UInt8 × TapLeaf)) :
    run addTapLeaf builder calls =
      run insertLeaf builder (calls.map fun call => (call.1.toNat, call.2)) := by
  rw [run_map]
  congr
  funext builder call
  exact addTapLeaf_eq builder call

omit [Hashes] in
theorem isFinalizable_eq_true {builder : TaprootBuilder} :
    builder.isFinalizable = true ↔ ∃ node, builder.branch = [some node] := by
  obtain ⟨branch⟩ := builder
  rcases branch with _ | ⟨_ | node, _ | ⟨slot, rest⟩⟩ <;> simp [isFinalizable]

theorem Represents.concat {init forest : List (Option ScriptTree)} {branch : List (Option NodeInfo)}
    {tree : ScriptTree} (represents : Represents forest branch) (shape : forest = init ++ [some tree]) :
    ∃ branchInit node, branch = branchInit ++ [some node] ∧ tree.nodeInfo = .ok node := by
  cases represents with
  | nil => simp at shape
  | vacant represents =>
    have last := (List.append_inj' shape rfl).2
    simp at last
  | @waiting _ branchInit _ node represents ok =>
    have last := (List.append_inj' shape rfl).2
    simp only [List.cons.injEq, Option.some.injEq, and_true] at last
    exact ⟨branchInit, node, rfl, last ▸ ok⟩

/-- The last slot of a branch is never vacant. -/
theorem branch_ne_vacant {entries : List (Nat × TapLeaf)} {builder : TaprootBuilder}
    (ran : run insertLeaf new entries = .ok builder) : builder.branch ≠ [none] := by
  obtain ⟨forest, represents, _, rfl | ⟨init, last, shape⟩, _⟩ := run_insertLeaf_eq_ok ran
  · have empty := represents.length_eq
    intro vacant
    rw [vacant] at empty
    contradiction
  · obtain ⟨branchInit, node, same, _⟩ := represents.concat shape
    intro vacant
    have last := congrArg List.getLast? (vacant.symm.trans same)
    simp at last

/-- A finished builder holds the tree whose walk the calls were. -/
theorem tree_of_run {entries : List (Nat × TapLeaf)} {node : NodeInfo}
    (ran : run insertLeaf new entries = .ok ⟨[some node]⟩) :
    ∃ tree : ScriptTree, entries = tree.walk 0 ∧ tree.nodeInfo = .ok node := by
  obtain ⟨forest, represents, leaves, ends, _⟩ := run_insertLeaf_eq_ok ran
  have size := represents.length_eq
  rcases ends with rfl | ⟨init, last, rfl⟩
  · contradiction
  · obtain rfl : init = [] := by simpa using size
    obtain ⟨branchInit, other, same, ok⟩ := represents.concat rfl
    obtain rfl : node = other := by simpa using congrArg List.getLast? same
    exact ⟨last, leaves.symm.trans (List.append_nil _), ok⟩

/-- A builder is finalizable just when the calls were the walk of a tree. -/
theorem isFinalizable_iff {entries : List (Nat × TapLeaf)} {builder : TaprootBuilder}
    (ran : run insertLeaf new entries = .ok builder) :
    builder.isFinalizable = true ↔ ∃ tree : ScriptTree, entries = tree.walk 0 := by
  rw [isFinalizable_eq_true]
  constructor
  · rintro ⟨node, finished⟩
    obtain ⟨branch⟩ := builder
    obtain rfl : branch = [some node] := finished
    obtain ⟨tree, walked, _⟩ := tree_of_run ran
    exact ⟨tree, walked⟩
  · rintro ⟨tree, rfl⟩
    obtain ⟨_, _, _, _, bounded⟩ := run_insertLeaf_eq_ok ran
    have deep := Binary.height_le_iff.mpr bounded
    rw [Nat.zero_add] at deep
    obtain ⟨node, ok⟩ := ScriptTree.exists_nodeInfo deep
    rw [run_walk ok deep] at ran
    obtain rfl := Except.ok.inj ran
    exact ⟨node, rfl⟩

end TaprootBuilder
end

/-- Depths in the order of a depth-first walk, up to some point of it. -/
def StartsWalk (depths : List Nat) : Prop :=
  ∃ tree : ScriptTree, tree.height ≤ controlMaxNodeCount ∧ depths <+: (tree.walk 0).map Prod.fst

/-- The depths of a whole walk. -/
def EndsWalk (depths : List Nat) : Prop :=
  ∃ tree : ScriptTree, tree.height ≤ controlMaxNodeCount ∧ depths = (tree.walk 0).map Prod.fst

def depthsOf (calls : List (UInt8 × TapLeaf)) : List Nat := calls.map fun call => call.1.toNat

/-- The calls that build a tree. -/
def ScriptTree.calls (tree : ScriptTree) : List (UInt8 × TapLeaf) :=
  (tree.walk 0).map fun entry => (UInt8.ofNat entry.1, entry.2)

theorem ScriptTree.calls_eq {tree : ScriptTree} (deep : tree.height ≤ controlMaxNodeCount) :
    tree.calls.map (fun call => (call.1.toNat, call.2)) = tree.walk 0 := by
  rw [calls, List.map_map]
  refine (List.map_congr_left fun entry member => ?_).trans (List.map_id _)
  rw [← Nat.zero_add tree.height, Binary.height_le_iff] at deep
  have bounded := deep entry member
  simp only [controlMaxNodeCount] at bounded
  simp only [Function.comp_apply, id_eq]
  rw [UInt8.toNat_ofNat_of_lt' (Nat.lt_of_le_of_lt bounded (by decide))]

theorem StartsWalk.of_prefix (starts : StartsWalk depths) (front : before <+: depths) :
    StartsWalk before := by
  obtain ⟨tree, deep, whole⟩ := starts
  exact ⟨tree, deep, front.trans whole⟩

/-- The empty script. -/
def TapLeaf.empty : TapLeaf := .script ⟨[], by decide⟩ .tapScript

theorem startsWalk_nil : StartsWalk [] := ⟨.leaf .empty, Nat.zero_le _, List.nil_prefix⟩

/-- Nothing follows a whole walk. -/
theorem EndsWalk.eq_of_prefix (ends : EndsWalk before) (starts : StartsWalk depths)
    (front : before <+: depths) : before = depths := by
  obtain ⟨tree, _, rfl⟩ := ends
  obtain ⟨other, _, whole⟩ := starts
  have same := Binary.walk_prefix (front.trans whole)
  exact front.eq_of_length_le (same ▸ whole.length_le)

section
variable [Hashes]

namespace TaprootBuilder

theorem run_of_startsWalk {entries : List (Nat × TapLeaf)} (starts : StartsWalk (entries.map Prod.fst)) :
    ∃ builder, run insertLeaf new entries = .ok builder := by
  obtain ⟨tree, deep, front⟩ := starts
  obtain ⟨labelled, rest, walked, depths⟩ := Binary.exists_walk_append front
  have deep := Binary.height_le_of_walk depths deep
  obtain ⟨node, ok⟩ := ScriptTree.exists_nodeInfo deep
  have ran := run_walk ok deep
  rw [walked] at ran
  obtain ⟨builder, first, _⟩ := run_append_eq_ok.mp ran
  exact ⟨builder, first⟩

/-- Accepted calls start a walk, unless they go on after the end of one. -/
theorem startsWalk_or_beyond {entries : List (Nat × TapLeaf)} {builder : TaprootBuilder}
    (ran : run insertLeaf new entries = .ok builder) :
    StartsWalk (entries.map Prod.fst) ∨ ∃ (tree : ScriptTree) (rest : List (Nat × TapLeaf)),
      rest ≠ [] ∧ entries = tree.walk 0 ++ rest := by
  obtain ⟨forest, _, rfl, ends, bounded⟩ := run_insertLeaf_eq_ok ran
  rcases ends with rfl | ⟨init, last, rfl⟩
  · exact .inl startsWalk_nil
  rcases init with _ | ⟨_ | tree, init⟩
  · refine .inl ⟨last, ?_, ?_⟩
    · rw [← Nat.zero_add last.height, Binary.height_le_iff]
      intro entry member
      exact bounded entry (List.mem_append_left _ member)
    · rw [List.nil_append, pending, pending, List.append_nil]
  · -- nothing waits at the root: the walk can be completed
    have room := length_le_of_pending bounded
    have deep : 0 + (close .empty (init ++ [some last])).height ≤ controlMaxNodeCount := by
      apply height_close_le bounded
      change 0 + (init ++ [some last]).length ≤ _
      rwa [List.length_append]
    refine .inl ⟨_, ?_, (pending_prefix_close .empty 0 (init ++ [some last])).map Prod.fst⟩
    rwa [Nat.zero_add] at deep
  · refine .inr ⟨tree, pending 1 (init ++ [some last]), ?_, rfl⟩
    rw [pending_append, pending]
    exact List.append_ne_nil_of_right_ne_nil _ (List.append_ne_nil_of_left_ne_nil (last.walk_ne_nil _) _)

/-- After a whole walk, just the leaves below the root are still accepted. -/
theorem insertLeaf_after_walk {entries : List (Nat × TapLeaf)} {builder : TaprootBuilder}
    (ran : run insertLeaf new entries = .ok builder) (ends : EndsWalk (entries.map Prod.fst))
    (entry : Nat × TapLeaf) : (∃ next, builder.insertLeaf entry = .ok next) ↔
      0 < entry.1 ∧ entry.1 ≤ controlMaxNodeCount := by
  obtain ⟨tree, _, depths⟩ := ends
  obtain ⟨labelled, walked⟩ := Binary.exists_walk_eq depths
  obtain ⟨node, finished⟩ := isFinalizable_eq_true.mp ((isFinalizable_iff ran).mpr ⟨labelled, walked.symm⟩)
  obtain ⟨branch⟩ := builder
  obtain rfl : branch = [some node] := finished
  obtain ⟨depth, leaf⟩ := entry
  constructor
  · rintro ⟨next, inserted⟩
    refine ⟨Nat.pos_of_ne_zero ?_, (bounds_of_insert inserted).1⟩
    rintro rfl
    rw [insertLeaf, insert_root] at inserted
    contradiction
  · rintro ⟨below, deep⟩
    exact ⟨_, insert_waiting deep below⟩

/-- A leaf that leaves the walk is turned away, unless the walk was at its end. -/
theorem insertLeaf_eq_ok {entries : List (Nat × TapLeaf)} {builder next : TaprootBuilder}
    (ran : run insertLeaf new entries = .ok builder) (starts : StartsWalk (entries.map Prod.fst))
    (leaves : ¬ StartsWalk ((entries ++ [entry]).map Prod.fst))
    (inserted : builder.insertLeaf entry = .ok next) : EndsWalk (entries.map Prod.fst) := by
  have whole : run insertLeaf new (entries ++ [entry]) = .ok next :=
    run_append_eq_ok.mpr ⟨builder, ran, run_cons_eq_ok.mpr ⟨next, inserted, rfl⟩⟩
  have bounded := (run_insertLeaf_eq_ok ran).choose_spec.2.2.2
  rcases startsWalk_or_beyond whole with again | ⟨tree, rest, some, walked⟩
  · contradiction
  rcases List.eq_nil_or_concat' rest with rfl | ⟨rest, last, rfl⟩
  · contradiction
  rw [← List.append_assoc] at walked
  obtain ⟨rfl, _⟩ := List.append_inj' walked rfl
  have ends : EndsWalk ((tree.walk 0).map Prod.fst) := by
    refine ⟨tree, ?_, rfl⟩
    rw [← Nat.zero_add tree.height, Binary.height_le_iff]
    exact fun entry member => bounded entry (List.mem_append_left _ member)
  exact ends.eq_of_prefix starts ((List.prefix_append _ _).map Prod.fst) ▸ ends

end TaprootBuilder

/-- The calls are turned away at the first one that is not in the order of a walk. -/
def RejectedAtOnce (calls : List (UInt8 × TapLeaf)) : Prop :=
  ∃ before call after, calls = before ++ call :: after ∧ StartsWalk (depthsOf before) ∧
    ¬ StartsWalk (depthsOf (before ++ [call])) ∧ ∃ builder e,
      run TaprootBuilder.addTapLeaf .new before = .ok builder ∧ builder.addTapLeaf call = .error e

omit [Hashes] in
/-- After the whole walk of a tree comes a leaf below its root. -/
def GoesOnBelowRoot (calls : List (UInt8 × TapLeaf)) : Prop :=
  ∃ before call after, calls = before ++ call :: after ∧ EndsWalk (depthsOf before) ∧
    0 < call.1.toNat ∧ call.1.toNat ≤ controlMaxNodeCount

omit [Hashes] in
theorem depthsOf_eq (calls : List (UInt8 × TapLeaf)) :
    depthsOf calls = (calls.map fun call => (call.1.toNat, call.2)).map Prod.fst := by
  rw [depthsOf, List.map_map]
  rfl

omit [Hashes] in
theorem exists_first_leaving {calls : List (UInt8 × TapLeaf)} (leaves : ¬ StartsWalk (depthsOf calls)) :
    ∃ before call after, calls = before ++ call :: after ∧ StartsWalk (depthsOf before) ∧
      ¬ StartsWalk (depthsOf (before ++ [call])) := by
  induction calls using List.reverseRecOn with
  | nil => exact absurd startsWalk_nil leaves
  | append_singleton init last ih =>
    by_cases starts : StartsWalk (depthsOf init)
    · exact ⟨init, last, [], rfl, starts, leaves⟩
    · obtain ⟨before, call, after, rfl, first⟩ := ih starts
      exact ⟨before, call, after ++ [last], by simp, first⟩

theorem rejectedAtOnce_iff {calls : List (UInt8 × TapLeaf)} (leaves : ¬ StartsWalk (depthsOf calls)) :
    RejectedAtOnce calls ↔ ¬ GoesOnBelowRoot calls := by
  constructor
  · rintro ⟨before, call, after, rfl, starts, beyond, builder, e, ran, failed⟩
      ⟨whole, next, others, same, ends, below, deep⟩
    -- the walk ends just where the first call leaves it
    have atEnd : whole = before := by
      rcases List.prefix_or_prefix_of_prefix (same ▸ List.prefix_append whole _)
        (List.prefix_append before (call :: after)) with front | ⟨_ | ⟨first, rest⟩, rfl⟩
      · have depths := ends.eq_of_prefix starts (front.map _)
        exact front.eq_of_length (by simpa [depthsOf] using congrArg List.length depths)
      · exact List.append_nil _
      · rw [List.append_assoc] at same
        obtain ⟨rfl, _⟩ := List.cons_eq_cons.mp (List.append_cancel_left same)
        obtain ⟨tree, bounded, walked⟩ := ends
        have starts : StartsWalk (depthsOf (before ++ call :: rest)) := ⟨tree, bounded, walked ▸ List.prefix_refl _⟩
        exact absurd (starts.of_prefix (List.IsPrefix.map _ ⟨rest, by simp⟩)) beyond
    subst atEnd
    obtain ⟨rfl, _⟩ := List.cons_eq_cons.mp (List.append_cancel_left same)
    rw [TaprootBuilder.run_addTapLeaf] at ran
    rw [depthsOf_eq] at ends
    have accepted := TaprootBuilder.insertLeaf_after_walk ran ends (call.1.toNat, call.2)
    obtain ⟨next, inserted⟩ := accepted.mpr ⟨below, deep⟩
    rw [TaprootBuilder.addTapLeaf_eq, inserted] at failed
    contradiction
  · intro none
    obtain ⟨before, call, after, rfl, starts, beyond⟩ := exists_first_leaving leaves
    have starts' := starts
    rw [depthsOf_eq] at starts' beyond
    obtain ⟨builder, ran⟩ := TaprootBuilder.run_of_startsWalk starts'
    refine ⟨before, call, after, rfl, starts, (depthsOf_eq _).symm ▸ beyond, builder, ?_⟩
    rw [TaprootBuilder.run_addTapLeaf, TaprootBuilder.addTapLeaf_eq]
    cases inserted : builder.insertLeaf (call.1.toNat, call.2) with
    | error e => exact ⟨e, ran, rfl⟩
    | ok next =>
      rw [List.map_append] at beyond
      have ends := TaprootBuilder.insertLeaf_eq_ok ran starts' beyond inserted
      have accepted := (TaprootBuilder.insertLeaf_after_walk ran ends _).mp ⟨next, inserted⟩
      exact absurd ⟨before, call, after, rfl, (depthsOf_eq _).symm ▸ ends, accepted⟩ none

omit [Hashes] in
theorem LeafNode.depth_toNat (node : LeafNode) : node.depth.toNat = node.merkleBranch.val.length :=
  UInt8.toNat_ofNat_of_lt' (Nat.lt_of_le_of_lt node.merkleBranch.property (by decide))

/-- Every proper part of a walk leaves the builder unfinished. -/
theorem isFinalizable_walk {tree : ScriptTree} (deep : tree.height ≤ controlMaxNodeCount)
    {before after : List (UInt8 × TapLeaf)} (whole : tree.calls = before ++ after) :
    ∃ builder, run TaprootBuilder.addTapLeaf .new before = .ok builder ∧
      (builder.isFinalizable = true ↔ after = []) := by
  have walked := ScriptTree.calls_eq deep
  rw [whole, List.map_append] at walked
  have starts : StartsWalk ((before.map fun call => (call.1.toNat, call.2)).map Prod.fst) :=
    ⟨tree, deep, walked ▸ (List.prefix_append _ _).map Prod.fst⟩
  obtain ⟨builder, ran⟩ := TaprootBuilder.run_of_startsWalk starts
  refine ⟨builder, by rw [TaprootBuilder.run_addTapLeaf, ran], ?_⟩
  rw [TaprootBuilder.isFinalizable_iff ran]
  constructor
  · rintro ⟨other, ends⟩
    have front : (other.walk 0).map Prod.fst <+: (tree.walk 0).map Prod.fst := by
      rw [← walked, ends]
      exact (List.prefix_append _ _).map Prod.fst
    have lengths := congrArg List.length (Binary.walk_prefix front)
    rw [← walked, ends] at lengths
    simpa using lengths
  · rintro rfl
    exact ⟨tree, by simpa using walked⟩

variable [Secp256k1] [Secp256k1.KeyTweaks] [TweakHash]

omit [Hashes] in
theorem tapTweak_ne_lastMissing (key : Secp256k1.XOnlyPublicKey) (merkleRoot : Option TapNodeHash) :
    tapTweak key merkleRoot ≠ .error .lastMissing := by
  rw [tapTweak, toScalar]
  cases Secp256k1.KeyTweaks.scalarFromBeBytes (fromKeyAndTweak key merkleRoot) with
  | none => simp [bind, Except.bind]
  | some tweak =>
    simp only [bind, Except.bind]
    cases Secp256k1.KeyTweaks.addTweak key tweak with
    | none => simp
    | some tweaked => simp

omit [Hashes] in
/-- Only a vacant root makes `finalize` panic for want of a node. -/
theorem finalize_ne_lastMissing {builder : TaprootBuilder} (known : builder.branch ≠ [none])
    (key : Secp256k1.XOnlyPublicKey) : builder.finalize key ≠ .error .lastMissing := by
  have spends : ∀ root, TaprootSpendInfo.newKeySpend key root ≠ .error .lastMissing := by
    intro root
    have known := tapTweak_ne_lastMissing key root
    rw [TaprootSpendInfo.newKeySpend]
    cases tweaked : tapTweak key root with
    | error why =>
      rw [tweaked] at known
      intro same
      exact known (congrArg Except.error (Except.error.inj same))
    | ok output => exact nofun
  obtain ⟨branch⟩ := builder
  rcases branch with _ | ⟨_ | node, _ | ⟨slot, rest⟩⟩
  · rw [TaprootBuilder.finalize, Ne, map_eq_error]
    exact spends none
  · exact absurd rfl known
  · exact nofun
  · rw [TaprootBuilder.finalize, Ne, map_eq_error, TaprootSpendInfo.fromNodeInfo]
    have known := spends (some node.hash)
    cases spent : TaprootSpendInfo.newKeySpend key (some node.hash) with
    | error why =>
      rw [spent] at known
      exact known
    | ok info => exact nofun
  · exact nofun

/-- The builder builds the tree whose walk it is given, and it turns away just those
calls that leave a walk before its end or repeat the root. -/
theorem builder_follows_walks :
    (∀ tree : ScriptTree, tree.height ≤ controlMaxNodeCount →
      (∀ before after, tree.calls = before ++ after → ∃ builder,
        run TaprootBuilder.addTapLeaf .new before = .ok builder ∧
        (builder.isFinalizable = true ↔ after = [])) ∧
      ∃ builder node, run TaprootBuilder.addTapLeaf .new tree.calls = .ok builder ∧
        builder.tryIntoNodeInfo = .ok (.ok node) ∧ node.hash = tree.rootHash ∧
        (node.leaves.map fun leaf => (leaf.depth.toNat, leaf.leaf, leaf.merkleBranch.val)).Perm
          (tree.scriptPaths 0)) ∧
    (∀ calls, ¬ StartsWalk (depthsOf calls) → (RejectedAtOnce calls ↔ ¬ GoesOnBelowRoot calls)) ∧
    (∀ calls builder, run TaprootBuilder.addTapLeaf .new calls = .ok builder →
      builder.tryIntoNodeInfo ≠ .error .nodeMissing ∧
      ∀ key, builder.finalize key ≠ .error .lastMissing) := by
  refine ⟨fun tree deep => ⟨fun before after => isFinalizable_walk deep, ?_⟩,
    fun calls => rejectedAtOnce_iff, fun calls builder ran => ?_⟩
  · obtain ⟨node, ok⟩ := ScriptTree.exists_nodeInfo deep
    refine ⟨⟨[some node]⟩, node, ?_, rfl, ScriptTree.nodeInfo_hash ok, ?_⟩
    · rw [TaprootBuilder.run_addTapLeaf, ScriptTree.calls_eq deep, TaprootBuilder.run_walk ok deep]
    · have paths : (fun leaf => (leaf.depth.toNat, leaf.leaf, leaf.merkleBranch.val)) =
          LeafNode.path 0 := by
        funext leaf
        rw [LeafNode.path, Nat.zero_add, leaf.depth_toNat]
      rw [paths]
      exact ScriptTree.nodeInfo_leaves ok 0
  · rw [TaprootBuilder.run_addTapLeaf] at ran
    have known := TaprootBuilder.branch_ne_vacant ran
    refine ⟨?_, finalize_ne_lastMissing known⟩
    rw [TaprootBuilder.tryIntoNodeInfo]
    split
    · exact nofun
    · contradiction
    · exact nofun

end

section
attribute [local instance] Sample.hashes Sample.keys Sample.tweaks Sample.tweakHash

/-- `OP_1` beside the hash of the branch over `OP_1` and `OP_2`. -/
def Sample.pruned : ScriptTree :=
  .node (.leaf (.script Sample.one .tapScript)) (.leaf (.hidden Sample.lowerHash))

/-- `OP_1` as the whole tree, and `OP_2` below it. -/
def Sample.belowRoot : List (UInt8 × TapLeaf) :=
  [(0, .script Sample.one .tapScript), (1, .script Sample.two .tapScript)]

theorem Sample.belowRoot_leaves : ¬ StartsWalk (depthsOf belowRoot) := by
  rintro ⟨tree, _, front⟩
  have ends : EndsWalk [0] := ⟨.leaf .empty, Nat.zero_le _, rfl⟩
  have same := ends.eq_of_prefix ⟨tree, ‹_›, front⟩ ⟨[1], rfl⟩
  contradiction

theorem Sample.walks_followed :
    (∃ builder node, run TaprootBuilder.addTapLeaf .new Sample.pruned.calls = .ok builder ∧
      builder.tryIntoNodeInfo = .ok (.ok node) ∧ node.hash = Sample.rootHash ∧
      (node.leaves.map fun leaf => (leaf.depth.toNat, leaf.leaf, leaf.merkleBranch.val)).Perm
        [(1, .script Sample.one .tapScript, [Sample.lowerHash])]) ∧
    ¬ StartsWalk (depthsOf Sample.belowRoot) ∧
    (RejectedAtOnce Sample.belowRoot ↔ ¬ GoesOnBelowRoot Sample.belowRoot) ∧
    (run TaprootBuilder.addTapLeaf .new Sample.belowRoot).isOk = true := by
  obtain ⟨built, rejected, _⟩ := builder_follows_walks
  obtain ⟨_, builder, node, ran, taken, hash, leaves⟩ := built Sample.pruned (by decide)
  have root : Sample.pruned.rootHash = Sample.rootHash := by decide
  refine ⟨⟨builder, node, ran, taken, hash.trans root, leaves⟩, Sample.belowRoot_leaves,
    rejected _ Sample.belowRoot_leaves, ?_⟩
  decide

theorem Sample.belowRoot_accepted : ¬ StartsWalk (depthsOf Sample.belowRoot) ∧
    ¬ RejectedAtOnce Sample.belowRoot := by
  refine ⟨Sample.belowRoot_leaves, ?_⟩
  rintro ⟨before, call, after, whole, _, beyond, builder, e, ran, failed⟩
  rcases before with _ | ⟨first, _ | ⟨second, rest⟩⟩
  · obtain ⟨rfl, _⟩ := List.cons_eq_cons.mp whole
    exact beyond ⟨.leaf .empty, Nat.zero_le _, List.prefix_refl _⟩
  · obtain ⟨rfl, rest⟩ := List.cons_eq_cons.mp whole
    obtain ⟨rfl, _⟩ := List.cons_eq_cons.mp rest
    have accepted : (run TaprootBuilder.addTapLeaf .new Sample.belowRoot).isOk = true := by
      decide
    rw [Sample.belowRoot, ← List.singleton_append, run_append ran, run, failed] at accepted
    contradiction
  · have lengths := congrArg List.length whole
    simp [Sample.belowRoot] at lengths

end
end Litecoin.Taproot
