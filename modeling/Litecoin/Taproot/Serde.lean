import Litecoin.Psbt.Stability
import Litecoin.Taproot.Commitment

/-! Trees as sequences of depths and leaves: the `serde` form of nodes, and the form that
trees have in a PSBT (`taproot/mod.rs`, `psbt/serialize.rs`). -/
namespace Litecoin.Taproot
open Wire Consensus Litecoin.Tree

/-- An element of the sequence that is handed to `serde`. -/
inductive SerdeElement where
  | depth (depth : Nat)
  | leaf (leaf : TapLeaf)
deriving DecidableEq

/-- The errors of the sequence visitor. -/
inductive SerdeError where
  /-- The element is not of the type that was asked for. -/
  | invalidType
  /-- "Missing tap_leaf" -/
  | missingTapLeaf
  /-- "Leaf insertion error: {}" -/
  | leafInsertion (error : TaprootBuilderError)
  /-- "Hidden node insertion error: {}" -/
  | hiddenNodeInsertion (error : TaprootBuilderError)
  /-- "Incomplete taproot tree: {}" -/
  | incompleteTree (error : IncompleteBuilderError)
deriving DecidableEq

namespace NodeInfo

/-- Two elements for each leaf that is listed. -/
def serialize (node : NodeInfo) : List SerdeElement :=
  node.leaves.flatMap fun leaf => [.depth leaf.merkleBranch.val.length, .leaf leaf.leaf]

section
variable [Hashes]

/-- One leaf of the sequence. -/
def visitLeaf (builder : TaprootBuilder) (depth : UInt8) : TapLeaf → Except SerdeError TaprootBuilder
  | .script script version => (builder.addLeafWithVer depth script version).mapError .leafInsertion
  | .hidden hash => (builder.addHiddenNode depth hash).mapError .hiddenNodeInsertion

/-- `visit_seq`; depths are read as `u8`. -/
def visitSeq (builder : TaprootBuilder) : List SerdeElement → Except Panic (Except SerdeError NodeInfo)
  | [] => (·.mapError .incompleteTree) <$> builder.tryIntoNodeInfo
  | .leaf _ :: _ => .ok (.error .invalidType)
  | [.depth depth] => .ok (.error (if depth < 256 then .missingTapLeaf else .invalidType))
  | .depth _ :: .depth _ :: _ => .ok (.error .invalidType)
  | .depth depth :: .leaf leaf :: rest =>
    if depth < 256 then
      match visitLeaf builder (UInt8.ofNat depth) leaf with
      | .ok next => visitSeq next rest
      | .error e => .ok (.error e)
    else .ok (.error .invalidType)

def deserialize (elements : List SerdeElement) : Except Panic (Except SerdeError NodeInfo) :=
  visitSeq .new elements

theorem visitLeaf_eq_ok {builder next : TaprootBuilder} {depth : UInt8} {leaf : TapLeaf} :
    visitLeaf builder depth leaf = .ok next ↔ builder.addTapLeaf (depth, leaf) = .ok next := by
  cases leaf with
  | script script version => exact mapError_eq_ok
  | hidden hash => exact mapError_eq_ok

/-- A node is read just when the leaves finish a builder with it. -/
theorem visitSeq_eq_ok {builder : TaprootBuilder} {leaves : List LeafNode} {node : NodeInfo} :
    visitSeq builder (leaves.flatMap fun leaf => [.depth leaf.merkleBranch.val.length, .leaf leaf.leaf]) =
        .ok (.ok node) ↔
      run TaprootBuilder.insertLeaf builder ((leaves.map (LeafNode.path 0)).map LeafPath.entry) =
        .ok ⟨[some node]⟩ := by
  induction leaves generalizing builder with
  | nil =>
    obtain ⟨branch⟩ := builder
    rcases branch with _ | ⟨_ | root, _ | ⟨slot, rest⟩⟩ <;>
      simp [visitSeq, TaprootBuilder.tryIntoNodeInfo, Functor.map, Except.map, Except.mapError]
  | cons leaf rest ih =>
    have small : leaf.merkleBranch.val.length < 256 :=
      Nat.lt_of_le_of_lt leaf.merkleBranch.property (by decide)
    have step : builder.insertLeaf (leaf.path 0).entry =
        builder.addTapLeaf (UInt8.ofNat leaf.merkleBranch.val.length, leaf.leaf) := by
      rw [TaprootBuilder.addTapLeaf_eq, UInt8.toNat_ofNat_of_lt' small, LeafPath.entry, LeafNode.path,
        Nat.zero_add]
    rw [List.flatMap_cons, List.cons_append, List.cons_append, List.nil_append, visitSeq, if_pos small,
      List.map_cons, List.map_cons, run, step]
    cases added : builder.addTapLeaf (UInt8.ofNat leaf.merkleBranch.val.length, leaf.leaf) with
    | ok next =>
      rw [visitLeaf_eq_ok.mpr added]
      exact ih
    | error e =>
      cases visited : visitLeaf builder (UInt8.ofNat leaf.merkleBranch.val.length) leaf.leaf with
      | ok next =>
        rw [visitLeaf_eq_ok, added] at visited
        contradiction
      | error e => simp

/-- A node comes back from its sequence just when it has no hidden nodes; only then do the
leaves in the sequence make up a tree. -/
theorem serde_roundTrip_iff {node : NodeInfo} (combined : node.Combined) :
    (∃ read, deserialize node.serialize = .ok (.ok read) ∧ read.hash = node.hash ∧
      read.leaves = node.leaves) ↔ node.hasHiddenNodes = false := by
  obtain ⟨tree, ok, paths⟩ := combined.exists_tree
  have entries : (node.leaves.map (LeafNode.path 0)).map LeafPath.entry =
      (tree.walk 0).filter fun entry => entry.2.isScript := by
    rw [paths, ScriptTree.map_scriptPaths]
  rw [ScriptTree.nodeInfo_visible ok 0]
  constructor
  · rintro ⟨read, deserialized, _⟩
    rw [deserialize, serialize, visitSeq_eq_ok, entries] at deserialized
    obtain ⟨other, walked, _⟩ := TaprootBuilder.tree_of_run deserialized
    apply Binary.forall_of_share_filter
    rw [walked]
    exact other.share_walk 0
  · intro visible
    refine ⟨node, ?_, rfl, rfl⟩
    rw [deserialize, serialize, visitSeq_eq_ok, entries, List.filter_eq_self.mpr visible]
    exact TaprootBuilder.run_walk ok (ScriptTree.height_le_of_visible ok visible)

end
end NodeInfo

section
variable [Hashes]

/-- Every finished tree was combined from leaves and hidden nodes. -/
theorem combined_of_run {calls : List (UInt8 × TapLeaf)} {builder : TaprootBuilder} {tree : TapTree}
    (ran : run TaprootBuilder.addTapLeaf .new calls = .ok builder)
    (taken : TapTree.tryFrom builder = .ok (.ok tree)) : tree.nodeInfo.Combined := by
  obtain ⟨branch⟩ := builder
  obtain rfl : branch = [some tree.nodeInfo] := TapTree.tryFrom_eq_ok.mp taken
  rw [TaprootBuilder.run_addTapLeaf] at ran
  obtain ⟨_, _, ok⟩ := TaprootBuilder.tree_of_run ran
  exact NodeInfo.combined_of_tree ok

/-- Trees come back from a PSBT as they were, and nodes come back from `serde` just when
they have no hidden nodes. -/
theorem tapTree_roundTrip_iff :
    (∀ calls builder tree, run TaprootBuilder.addTapLeaf .new calls = .ok builder →
      TapTree.tryFrom builder = .ok (.ok tree) → tree.nodeInfo.Combined) ∧
    (∀ tree : TapTree, tree.nodeInfo.Combined → ∃ data read,
      Psbt.Value.tapTree.serialize tree = .ok data ∧ Psbt.Value.tapTree.deserialize data = .ok read ∧
      read.nodeInfo.hash = tree.nodeInfo.hash ∧ read.nodeInfo.leaves = tree.nodeInfo.leaves) ∧
    ∀ node : NodeInfo, node.Combined →
      ((∃ read, NodeInfo.deserialize node.serialize = .ok (.ok read) ∧ read.hash = node.hash ∧
        read.leaves = node.leaves) ↔ node.hasHiddenNodes = false) := by
  refine ⟨fun calls builder tree => combined_of_run, fun tree combined => ?_,
    fun node => NodeInfo.serde_roundTrip_iff⟩
  have built := NodeInfo.built_iff.mpr ⟨combined, tree.visible⟩
  exact ⟨_, tree, Psbt.Value.tapTree_serialize built, Psbt.Value.tapTree_deserialize_own built, rfl, rfl⟩

end

namespace Sample
attribute [local instance] hashes

/-- `OP_1` with the branch beside it hidden, as it is combined. -/
def prunedNode : NodeInfo where
  hash := rootHash
  leaves := [⟨.script one .tapScript, branchOne⟩]
  hasHiddenNodes := true

theorem prunedNode_combined : prunedNode.Combined := by
  have ok : (NodeInfo.newLeafWithVer one .tapScript).combine (.newHiddenNode lowerHash) =
      .ok prunedNode := by decide
  exact .combine (.leaf _ _) (.hidden _) ok

theorem node_roundTrip :
    (∃ data read, Psbt.Value.tapTree.serialize ⟨node, rfl⟩ = .ok data ∧
      Psbt.Value.tapTree.deserialize data = .ok read ∧ read.nodeInfo.hash = node.hash ∧
      read.nodeInfo.leaves = node.leaves) ∧
    (∃ read, NodeInfo.deserialize node.serialize = .ok (.ok read) ∧ read.hash = node.hash ∧
      read.leaves = node.leaves) := by
  obtain ⟨_, psbt, serde⟩ := tapTree_roundTrip_iff
  have combined := (NodeInfo.built_iff.mp node_built).1
  exact ⟨psbt ⟨node, rfl⟩ combined, (serde node combined).mpr rfl⟩

theorem prunedNode_lost : prunedNode.Combined ∧
    NodeInfo.deserialize prunedNode.serialize = .ok (.error (.incompleteTree (.notFinalized
      [none, some (.newLeafWithVer one .tapScript)]))) ∧
    ¬ ∃ read, NodeInfo.deserialize prunedNode.serialize = .ok (.ok read) := by
  have failed : NodeInfo.deserialize prunedNode.serialize = .ok (.error (.incompleteTree (.notFinalized
      [none, some (.newLeafWithVer one .tapScript)]))) := by decide
  refine ⟨prunedNode_combined, failed, ?_⟩
  rintro ⟨read, deserialized⟩
  rw [failed] at deserialized
  exact absurd (Except.ok.inj deserialized) nofun

end Sample
end Litecoin.Taproot
