import Litecoin.Taproot.Walk

/-! A finished tree lists its leaves in an order that builds it again, and control
blocks are read back. -/
namespace Litecoin.Taproot
open Wire Consensus Litecoin.Tree

/-- A script leaf and its depth. -/
abbrev Entry : Type := Nat × ByteVec × LeafVersion

def LeafNode.entryAt (depth : Nat) (node : LeafNode) : Option Entry :=
  match node.leaf with
  | .script script version => some (depth + node.merkleBranch.val.length, script, version)
  | .hidden _ => none

/-- Script leaves with the depths they have below a node at `depth`. -/
def entriesAt (depth : Nat) (leaves : List LeafNode) : List Entry :=
  leaves.filterMap (LeafNode.entryAt depth)

theorem depth_le_controlMax {leaves : List LeafNode} (member : entry ∈ entriesAt 0 leaves) :
    entry.1 ≤ controlMaxNodeCount := by
  obtain ⟨leaf, _, found⟩ := List.mem_filterMap.mp member
  rw [LeafNode.entryAt] at found
  split at found
  · obtain rfl := Option.some.inj found
    rw [Nat.zero_add]
    exact leaf.merkleBranch.property
  · contradiction

/-- The leaf of an entry. -/
def Entry.leaf (entry : Entry) : Nat × TapLeaf := (entry.1, .script entry.2.1 entry.2.2)

/-- The entry of a leaf, if it is known. -/
def Entry.ofLeaf (leaf : Nat × TapLeaf) : Option Entry :=
  match leaf.2 with
  | .script script version => some (leaf.1, script, version)
  | .hidden _ => none

theorem Entry.filterMap_leaf (entries : List Entry) :
    (entries.map Entry.leaf).filterMap Entry.ofLeaf = entries := by
  rw [List.filterMap_map]
  exact List.filterMap_some

theorem entriesAt_eq (depth : Nat) (leaves : List LeafNode) :
    entriesAt depth leaves =
      ((leaves.map (LeafNode.path depth)).map LeafPath.entry).filterMap Entry.ofLeaf := by
  rw [entriesAt, List.map_map, List.filterMap_map]
  rfl

theorem map_leaf_filterMap {entries : List (Nat × TapLeaf)}
    (visible : ∀ entry ∈ entries, entry.2.isScript = true) :
    (entries.filterMap Entry.ofLeaf).map Entry.leaf = entries := by
  induction entries with
  | nil => rfl
  | cons entry rest ih =>
    rw [List.forall_mem_cons] at visible
    obtain ⟨depth, script | hash⟩ := entry
    · exact congrArg _ (ih visible.2)
    · exact absurd visible.1 nofun

section
variable [Hashes]

namespace NodeInfo

omit [Hashes] in
/-- The script leaves below a node. -/
def scripts (node : NodeInfo) : List (ByteVec × LeafVersion) :=
  (entriesAt 0 node.leaves).map Prod.snd

/-- Nodes that were combined from script leaves and hidden nodes. -/
inductive Combined : NodeInfo → Prop where
  | leaf (script : ByteVec) (version : LeafVersion) : Combined (newLeafWithVer script version)
  | hidden (hash : TapNodeHash) : Combined (newHiddenNode hash)
  | combine {a b node : NodeInfo} : Combined a → Combined b → a.combine b = .ok node → Combined node

/-- Nodes that were combined from script leaves. -/
inductive Built : NodeInfo → Prop where
  | leaf (script : ByteVec) (version : LeafVersion) : Built (newLeafWithVer script version)
  | combine {a b node : NodeInfo} : Built a → Built b → a.combine b = .ok node → Built node

theorem built_iff {node : NodeInfo} : node.Built ↔ node.Combined ∧ node.hasHiddenNodes = false := by
  constructor
  · intro built
    induction built with
    | leaf script version => exact ⟨.leaf script version, rfl⟩
    | combine _ _ ok ihA ihB =>
      refine ⟨.combine ihA.1 ihB.1 ok, ?_⟩
      rw [(combine_eq_ok ok).2.1, ihA.2, ihB.2]
      rfl
  · rintro ⟨combined, visible⟩
    induction combined with
    | leaf script version => exact .leaf script version
    | hidden hash => contradiction
    | combine _ _ ok ihA ihB =>
      rw [(combine_eq_ok ok).2.1, Bool.or_eq_false_iff] at visible
      exact .combine (ihA visible.1) (ihB visible.2) ok

/-- A node lists its leaves in the order of a tree that combines to it. -/
theorem Combined.exists_tree {node : NodeInfo} (combined : node.Combined) :
    ∃ tree : ScriptTree, tree.nodeInfo = .ok node ∧
      ∀ depth, node.leaves.map (LeafNode.path depth) = tree.scriptPaths depth := by
  induction combined with
  | leaf script version => exact ⟨.leaf (.script script version), rfl, fun _ => rfl⟩
  | hidden hash => exact ⟨.leaf (.hidden hash), rfl, fun _ => rfl⟩
  | combine _ _ ok ihA ihB =>
    obtain ⟨_, _, first, second, order, again, paths⟩ := combine_eq_ok ok
    have both : (∃ tree : ScriptTree, tree.nodeInfo = .ok first ∧
          ∀ depth, first.leaves.map (LeafNode.path depth) = tree.scriptPaths depth) ∧
        ∃ tree : ScriptTree, tree.nodeInfo = .ok second ∧
          ∀ depth, second.leaves.map (LeafNode.path depth) = tree.scriptPaths depth := by
      obtain ⟨rfl, rfl⟩ | ⟨rfl, rfl⟩ := order
      · exact ⟨ihA, ihB⟩
      · exact ⟨ihB, ihA⟩
    obtain ⟨⟨left, leftOk, leftPaths⟩, right, rightOk, rightPaths⟩ := both
    refine ⟨.node left right, (ScriptTree.nodeInfo_node leftOk rightOk).trans again, fun depth => ?_⟩
    rw [paths, leftPaths, rightPaths, ScriptTree.scriptPaths, ← ScriptTree.nodeInfo_hash leftOk,
      ← ScriptTree.nodeInfo_hash rightOk]

theorem combined_of_tree {tree : ScriptTree} {node : NodeInfo} (ok : tree.nodeInfo = .ok node) :
    node.Combined := by
  induction tree generalizing node with
  | leaf leaf =>
    obtain rfl := Except.ok.inj ok
    cases leaf with
    | script script version => exact .leaf script version
    | hidden hash => exact .hidden hash
  | node left right ihLeft ihRight =>
    simp only [ScriptTree.nodeInfo, bind_eq_ok] at ok
    obtain ⟨leftNode, leftOk, rightNode, rightOk, combined⟩ := ok
    exact .combine (ihRight rightOk) (ihLeft leftOk) combined

/-- Hidden nodes are not listed. -/
theorem Combined.leaf_isScript {node : NodeInfo} (combined : node.Combined) :
    ∀ leaf ∈ node.leaves, leaf.leaf.isScript = true := by
  obtain ⟨tree, _, paths⟩ := combined.exists_tree
  intro leaf member
  have listed : (leaf.path 0).entry ∈ (tree.walk 0).filter fun entry => entry.2.isScript := by
    rw [← ScriptTree.map_scriptPaths, ← paths]
    exact List.mem_map_of_mem (List.mem_map_of_mem member)
  exact (List.mem_filter.mp listed).2

end NodeInfo

namespace TaprootBuilder

/-- The builder's step on one leaf. -/
def addEntry (builder : TaprootBuilder) (entry : Entry) : Except TaprootBuilderError TaprootBuilder :=
  builder.insert (.newLeafWithVer entry.2.1 entry.2.2) entry.1

theorem run_addEntry (builder : TaprootBuilder) (entries : List Entry) :
    run addEntry builder entries = run insertLeaf builder (entries.map Entry.leaf) := by
  rw [run_map]
  rfl

/-- A finished tree is built again from its own leaves. -/
theorem run_addEntry_new {node : NodeInfo} (built : node.Built) :
    run addEntry new (entriesAt 0 node.leaves) = .ok ⟨[some node]⟩ := by
  obtain ⟨combined, visible⟩ := NodeInfo.built_iff.mp built
  obtain ⟨tree, ok, paths⟩ := combined.exists_tree
  have shown := (ScriptTree.nodeInfo_visible ok 0).mp visible
  have walked : (entriesAt 0 node.leaves).map Entry.leaf = tree.walk 0 := by
    rw [entriesAt_eq, paths, ScriptTree.map_scriptPaths, List.filter_eq_self.mpr shown,
      map_leaf_filterMap shown]
  rw [run_addEntry, walked, run_walk ok (ScriptTree.height_le_of_visible ok shown)]

/-- A tree that was finished from script leaves has just those. -/
theorem built_of_run {node : NodeInfo} (ran : run addEntry new entries = .ok ⟨[some node]⟩) :
    node.Built ∧ node.scripts.Perm (entries.map Prod.snd) := by
  rw [run_addEntry] at ran
  obtain ⟨tree, walked, ok⟩ := tree_of_run ran
  have shown : ∀ entry ∈ tree.walk 0, entry.2.isScript = true := by
    rw [← walked]
    intro entry member
    obtain ⟨own, _, rfl⟩ := List.mem_map.mp member
    rfl
  refine ⟨NodeInfo.built_iff.mpr ⟨NodeInfo.combined_of_tree ok, (ScriptTree.nodeInfo_visible ok 0).mpr shown⟩, ?_⟩
  have leaves := ((ScriptTree.nodeInfo_leaves ok 0).map LeafPath.entry).filterMap Entry.ofLeaf
  rw [← entriesAt_eq, ScriptTree.map_scriptPaths, List.filter_eq_self.mpr shown, ← walked,
    Entry.filterMap_leaf] at leaves
  exact leaves.map Prod.snd

end TaprootBuilder

omit [Hashes] in
theorem TapTree.tryFrom_eq_ok {builder : TaprootBuilder} {tree : TapTree} :
    tryFrom builder = .ok (.ok tree) ↔ builder.branch = [some tree.nodeInfo] := by
  obtain ⟨node, visible⟩ := tree
  obtain ⟨branch⟩ := builder
  constructor
  · intro ok
    obtain ⟨result, finished, ok⟩ := bind_eq_ok.mp ok
    rw [TaprootBuilder.tryIntoNodeInfo] at finished
    split at finished
    · rename_i other single
      obtain rfl := Except.ok.inj finished
      dsimp only at ok
      split at ok
      · have same : other = node :=
          congrArg TapTree.nodeInfo (Except.ok.inj (pure_eq_ok.mp ok))
        rw [single, same]
      · cases pure_eq_ok.mp ok
    · contradiction
    · obtain rfl := Except.ok.inj finished
      cases pure_eq_ok.mp ok
  · rintro rfl
    exact dif_pos visible

omit [Hashes] in
/-- The branch is not a single vacant slot. -/
def TaprootBuilder.Settled (builder : TaprootBuilder) : Prop := builder.branch ≠ [none]

omit [Hashes] in
theorem TaprootBuilder.new_settled : new.Settled := nofun

omit [Hashes] in
theorem TapTree.tryFrom_returns {builder : TaprootBuilder} (settled : builder.Settled) :
    ∃ result, tryFrom builder = .ok result := by
  obtain ⟨branch⟩ := builder
  rcases branch with _ | ⟨_ | root, _ | ⟨slot, rest⟩⟩
  · exact ⟨_, rfl⟩
  · contradiction
  · exact ⟨_, rfl⟩
  · by_cases hidden : root.hasHiddenNodes = false
    · exact ⟨_, dif_pos hidden⟩
    · exact ⟨_, dif_neg hidden⟩
  · exact ⟨_, rfl⟩

/-- The slot of a node that was inserted is not vacant. -/
theorem TaprootBuilder.insert_settled {builder next : TaprootBuilder} {node : NodeInfo}
    (inserted : builder.insert node depth = .ok next) : next.Settled := by
  rw [insert] at inserted
  split at inserted
  · contradiction
  · split at inserted
    · contradiction
    · obtain ⟨⟨branch, top, depth⟩, _, placed⟩ := bind_eq_ok.mp inserted
      obtain rfl := pure_eq_ok.mp placed
      intro vacant
      have filled : some top ∈ (place branch top depth).branch := by
        apply List.mem_set
        simp
        omega
      rw [vacant] at filled
      simp at filled

omit [Hashes] in
theorem TapTree.collect_eq {leaves : List LeafNode}
    (visible : ∀ leaf ∈ leaves, leaf.leaf.isScript = true) :
    (scriptLeaves.collect leaves).map (fun leaf => (leaf.merkleBranch.val.length, leaf.script, leaf.version)) =
      entriesAt 0 leaves := by
  induction leaves with
  | nil => rfl
  | cons node rest ih =>
    rw [List.forall_mem_cons] at visible
    obtain ⟨script | hash, merkleBranch⟩ := node
    · have own : LeafNode.entryAt 0 ⟨.script script ‹_›, merkleBranch⟩ =
          some (merkleBranch.val.length, script, ‹_›) := by
        rw [LeafNode.entryAt, Nat.zero_add]
      rw [entriesAt, List.filterMap_cons, own, scriptLeaves.collect, List.map_cons, ih visible.2]
      rfl
    · exact absurd visible.1 nofun

end

namespace TaprootMerkleBranch

theorem serialize_length (nodes : List TapNodeHash) :
    (nodes.flatMap Subtype.val).length = controlNodeSize * nodes.length := by
  induction nodes with
  | nil => rfl
  | cons node rest ih =>
    rw [List.flatMap_cons, List.length_append, ih, node.property, List.length_cons]
    simp only [controlNodeSize]
    omega

theorem decode_serialize (branch : TaprootMerkleBranch) : decode branch.serialize = .ok branch := by
  obtain ⟨nodes, bound⟩ := branch
  have size : (serialize ⟨nodes, bound⟩).length = controlNodeSize * nodes.length :=
    serialize_length nodes
  have count : nodes.length = (serialize ⟨nodes, bound⟩).length / controlNodeSize := by
    rw [size, Nat.mul_div_cancel_left _ (by decide)]
  have chunks : ∀ e : TaprootError,
      (Decoder.exact 32 e).times ((serialize ⟨nodes, bound⟩).length / controlNodeSize)
        (serialize ⟨nodes, bound⟩) = .ok (⟨nodes, count⟩, []) :=
    fun e => ((Reads.exact 32 e).times _).read_all (a := ⟨nodes, count⟩) fun _ _ => trivial
  rw [decode, if_neg (by rw [size]; simp), dif_neg (by
    rw [size]
    exact Nat.not_lt.mpr (Nat.mul_le_mul_left _ bound))]
  simp only [Decoder.whole_eq_ok.mpr (chunks _)]

end TaprootMerkleBranch

namespace ControlBlock

theorem firstByte_bits (parity : Bool) (version : LeafVersion) :
    (((if parity then 1 else 0) ||| version.toConsensus) &&& 1 != 0) = parity ∧
      ((if parity then 1 else 0) ||| version.toConsensus) &&& leafMask = version.toConsensus := by
  have even := version.toConsensus_even
  have low : version.toConsensus &&& 1 = 0 := by
    rw [← even, UInt8.and_assoc]
    exact UInt8.and_zero
  have distrib : ∀ a b c : UInt8, (a ||| b) &&& c = a &&& c ||| b &&& c :=
    fun _ _ _ => UInt8.toBitVec_inj.mp BitVec.and_or_distrib_right
  have masked : (1 : UInt8) &&& leafMask = 0 := rfl
  rw [distrib, distrib, low, even]
  cases parity <;> simp [masked]

variable [Secp256k1]

theorem decode_serialize_of (parses : ∀ key : Secp256k1.XOnlyPublicKey,
    Secp256k1.xOnlyPublicKeyFromSlice (Secp256k1.serializeXOnly key).val = some key)
    (block : ControlBlock) : decode block.serialize = .ok block := by
  obtain ⟨leafVersion, parity, internalKey, merkleBranch⟩ := block
  obtain ⟨parityBit, versionBits⟩ := firstByte_bits parity leafVersion
  have keySize := (Secp256k1.serializeXOnly internalKey).property
  have branchSize : merkleBranch.serialize.length = controlNodeSize * merkleBranch.val.length :=
    TaprootMerkleBranch.serialize_length _
  have size : (serialize ⟨leafVersion, parity, internalKey, merkleBranch⟩).length =
      controlBaseSize + controlNodeSize * merkleBranch.val.length := by
    rw [serialize, List.length_cons, List.length_append, keySize, branchSize]
    simp only [controlBaseSize]
    omega
  have key : ((serialize ⟨leafVersion, parity, internalKey, merkleBranch⟩).drop 1).take 32 =
      (Secp256k1.serializeXOnly internalKey).val := by
    exact List.take_left' keySize
  have branch : (serialize ⟨leafVersion, parity, internalKey, merkleBranch⟩).drop controlBaseSize =
      merkleBranch.serialize := by
    exact List.drop_left' keySize
  have first : (serialize ⟨leafVersion, parity, internalKey, merkleBranch⟩).headD 0 =
      (if parity then 1 else 0) ||| leafVersion.toConsensus := rfl
  rw [decode, size, if_neg (by simp)]
  simp only [first, key, branch, versionBits, parityBit, parses,
    TaprootMerkleBranch.decode_serialize, LeafVersion.fromConsensus_toConsensus]
  rfl

theorem decode_serialize [Secp256k1.Inverse] (block : ControlBlock) :
    decode block.serialize = .ok block :=
  decode_serialize_of Secp256k1.Inverse.xOnlyFromSlice_serialize block

end ControlBlock
end Litecoin.Taproot
