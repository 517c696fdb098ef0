import Litecoin.Taproot.Rebuild

/-! Control blocks prove what an output key commits to: every script of the tree has
one, and no other script has. -/
namespace Litecoin.Taproot
open Wire Consensus Litecoin.Tree

/-- What a tagged hash is taken of. -/
inductive TapPreimage where
  | leaf (bytes : Bytes)
  | branch (bytes : Bytes)
deriving DecidableEq

namespace TapPreimage

def ofScript (script : ByteVec) (version : LeafVersion) : TapPreimage :=
  .leaf (version.toConsensus :: bytesWire script)

/-- Two nodes under their parent, the smaller one first. -/
def ofNodes (a b : TapNodeHash) : TapPreimage :=
  .branch (if compare a b = .lt then a.val ++ b.val else b.val ++ a.val)

theorem ofScript_inj {script other : ByteVec} {version otherVersion : LeafVersion}
    (same : ofScript script version = ofScript other otherVersion) :
    script = other ∧ version = otherVersion := by
  injection same with same
  obtain ⟨versions, scripts⟩ := List.cons_eq_cons.mp same
  have parsed := version.fromConsensus_toConsensus
  rw [versions, otherVersion.fromConsensus_toConsensus] at parsed
  exact ⟨bytesWire_inj scripts, (Except.ok.inj parsed).symm⟩

/-- The order of the two nodes is lost, and nothing else. -/
theorem ofNodes_inj {a b c d : TapNodeHash} (same : ofNodes a b = ofNodes c d) :
    a = c ∧ b = d ∨ a = d ∧ b = c := by
  have pairs : ∀ {a b c d : TapNodeHash}, a.val ++ b.val = c.val ++ d.val → a = c ∧ b = d := by
    intro a b c d same
    obtain ⟨first, second⟩ := List.append_inj same (a.property.trans c.property.symm)
    exact ⟨Subtype.ext first, Subtype.ext second⟩
  injection same with same
  split_ifs at same
  · exact .inl (pairs same)
  · exact .inr (pairs same)
  · obtain ⟨first, second⟩ := pairs same
    exact .inr ⟨second, first⟩
  · obtain ⟨first, second⟩ := pairs same
    exact .inl ⟨second, first⟩

end TapPreimage

section
variable [Hashes]

def TapPreimage.hash : TapPreimage → TapNodeHash
  | .leaf bytes => Hashes.tapLeaf bytes
  | .branch bytes => Hashes.tapBranch bytes

theorem combineNodeHashes_eq (a b : TapNodeHash) :
    (combineNodeHashes a b).1 = (TapPreimage.ofNodes a b).hash := by
  rw [combineNodeHashes, TapPreimage.ofNodes]
  split_ifs
  · rfl
  · rfl

/-- What is hashed above a node on the way along a branch. -/
def climb (current : TapNodeHash) : List TapNodeHash → List TapPreimage
  | [] => []
  | partner :: rest =>
    .ofNodes current partner :: climb (TapPreimage.ofNodes current partner).hash rest

theorem rootOver_concat (leaf : TapNodeHash) (branch : List TapNodeHash) (partner : TapNodeHash) :
    rootOver leaf (branch ++ [partner]) = (TapPreimage.ofNodes (rootOver leaf branch) partner).hash := by
  rw [rootOver, List.foldl_append, List.foldl_cons, List.foldl_nil, combineNodeHashes_eq]
  rfl

theorem climb_concat (leaf : TapNodeHash) (branch : List TapNodeHash) (partner : TapNodeHash) :
    climb leaf (branch ++ [partner]) = climb leaf branch ++ [.ofNodes (rootOver leaf branch) partner] := by
  induction branch generalizing leaf with
  | nil => rfl
  | cons first rest ih =>
    rw [List.cons_append, climb, climb, ih, List.cons_append, rootOver, rootOver, List.foldl_cons,
      combineNodeHashes_eq]

/-- What is hashed when a script is proved to be below a root. -/
def proofPreimages (script : ByteVec) (version : LeafVersion) (branch : List TapNodeHash) :
    List TapPreimage :=
  .ofScript script version :: climb (leafHashFromScript script version) branch

theorem proofPreimages_concat (script : ByteVec) (version : LeafVersion) (branch : List TapNodeHash)
    (partner : TapNodeHash) : proofPreimages script version (branch ++ [partner]) =
      proofPreimages script version branch ++
        [.ofNodes (rootOver (leafHashFromScript script version) branch) partner] := by
  rw [proofPreimages, climb_concat]
  rfl

theorem ofNodes_mem_proofPreimages (script : ByteVec) (version : LeafVersion)
    (branch : List TapNodeHash) (partner : TapNodeHash) :
    .ofNodes (rootOver (leafHashFromScript script version) branch) partner ∈
      proofPreimages script version (branch ++ [partner]) := by
  rw [proofPreimages_concat]
  exact List.mem_append_right _ (List.mem_singleton.mpr rfl)

/-- What is hashed for a leaf; nothing is for a hidden one. -/
def LeafPath.preimages (path : LeafPath) : List TapPreimage :=
  match path.2.1 with
  | .script script version => proofPreimages script version path.2.2
  | .hidden _ => []

theorem LeafPath.preimages_under (hash : TapNodeHash) (path : LeafPath) :
    path.preimages ⊆ (path.under hash).preimages := by
  obtain ⟨depth, script | hidden, branch⟩ := path
  · simp only [preimages, under, proofPreimages_concat]
    exact List.subset_append_left _ _
  · exact List.Subset.refl _

namespace ScriptTree

/-- The partners of a leaf lead to the root. -/
theorem rootOver_of_mem {tree : ScriptTree} {script : ByteVec} {version : LeafVersion}
    (member : (leafDepth, .script script version, branch) ∈ tree.scriptPaths depth) :
    rootOver (leafHashFromScript script version) branch = tree.rootHash := by
  induction tree generalizing depth branch with
  | leaf leaf =>
    cases leaf with
    | script script version =>
      have same := List.mem_singleton.mp member
      simp only [Prod.mk.injEq, TapLeaf.script.injEq] at same
      obtain ⟨_, ⟨rfl, rfl⟩, rfl⟩ := same
      rfl
    | hidden hash => contradiction
  | node left right ihLeft ihRight =>
    rcases List.mem_append.mp member with member | member
    · obtain ⟨⟨below, leaf, partners⟩, listed, same⟩ := List.mem_map.mp member
      simp only [LeafPath.under, Prod.mk.injEq] at same
      obtain ⟨rfl, rfl, rfl⟩ := same
      rw [rootOver_concat, ihLeft listed, ← combineNodeHashes_eq, rootHash]
    · obtain ⟨⟨below, leaf, partners⟩, listed, same⟩ := List.mem_map.mp member
      simp only [LeafPath.under, Prod.mk.injEq] at same
      obtain ⟨rfl, rfl, rfl⟩ := same
      rw [rootOver_concat, ihRight listed, ← combineNodeHashes_eq, rootHash, combineNodeHashes_comm]

theorem exists_path {tree : ScriptTree} (visible : ∀ entry ∈ tree.walk depth, entry.2.isScript = true) :
    ∃ leafDepth script version branch,
      (leafDepth, .script script version, branch) ∈ tree.scriptPaths depth := by
  obtain ⟨entry, rest, walked⟩ := List.exists_cons_of_ne_nil (tree.walk_ne_nil depth)
  have member : entry ∈ tree.walk depth := walked ▸ List.mem_cons_self
  rw [← List.filter_eq_self.mpr visible, ← map_scriptPaths] at member
  obtain ⟨⟨leafDepth, leaf, branch⟩, listed, rfl⟩ := List.mem_map.mp member
  have shown := visible (leafDepth, leaf) (walked ▸ List.mem_cons_self)
  cases leaf with
  | script script version => exact ⟨leafDepth, script, version, branch, listed⟩
  | hidden hash => contradiction

/-- A proof that leads to the root of a tree is the path of one of its leaves, when no
two different strings that are hashed for either have the same hash. -/
theorem mem_scriptPaths_of_rootOver {tree : ScriptTree} {script : ByteVec} {version : LeafVersion}
    (visible : ∀ entry ∈ tree.walk depth, entry.2.isScript = true)
    (apart : Set.InjOn TapPreimage.hash {preimage | preimage ∈ proofPreimages script version branch ∨
      ∃ path ∈ tree.scriptPaths depth, preimage ∈ path.preimages})
    (leads : rootOver (leafHashFromScript script version) branch = tree.rootHash) :
    ∃ leafDepth, (leafDepth, .script script version, branch) ∈ tree.scriptPaths depth := by
  induction tree generalizing depth branch with
  | leaf leaf =>
    obtain ⟨own, ownVersion⟩ | hash := leaf
    · have listed : TapPreimage.ofScript own ownVersion ∈ {preimage |
          preimage ∈ proofPreimages script version branch ∨
          ∃ path ∈ scriptPaths (.leaf (.script own ownVersion)) depth, preimage ∈ path.preimages} :=
        .inr ⟨_, List.mem_singleton.mpr rfl, List.mem_cons_self⟩
      rcases List.eq_nil_or_concat' branch with rfl | ⟨init, partner, rfl⟩
      · have same := apart (.inl List.mem_cons_self) listed leads
        obtain ⟨rfl, rfl⟩ := TapPreimage.ofScript_inj same
        exact ⟨depth, List.mem_singleton.mpr rfl⟩
      · rw [rootOver_concat] at leads
        have same := apart (.inl (ofNodes_mem_proofPreimages _ _ _ _)) listed leads
        contradiction
    · exact absurd (visible _ (List.mem_singleton.mpr rfl)) nofun
  | node left right ihLeft ihRight =>
    rw [Binary.walk, List.forall_mem_append] at visible
    -- the preimage of the root is hashed for every leaf, so for some leaf on the left
    have listed : TapPreimage.ofNodes (rootHash left) (rootHash right) ∈ {preimage |
        preimage ∈ proofPreimages script version branch ∨
        ∃ path ∈ scriptPaths (.node left right) depth, preimage ∈ path.preimages} := by
      obtain ⟨leafDepth, own, ownVersion, partners, path⟩ := exists_path visible.1
      refine .inr ⟨_, List.mem_append_left _ (List.mem_map_of_mem path), ?_⟩
      have last := ofNodes_mem_proofPreimages own ownVersion partners (rootHash right)
      rwa [rootOver_of_mem path] at last
    rw [rootHash, combineNodeHashes_eq] at leads
    rcases List.eq_nil_or_concat' branch with rfl | ⟨init, partner, rfl⟩
    · have same := apart (.inl List.mem_cons_self) listed leads
      contradiction
    · rw [rootOver_concat] at leads
      have same := apart (.inl (ofNodes_mem_proofPreimages _ _ _ _)) listed leads
      have shorter : proofPreimages script version init ⊆
          proofPreimages script version (init ++ [partner]) := by
        rw [proofPreimages_concat]
        exact List.subset_append_left _ _
      rcases TapPreimage.ofNodes_inj same with ⟨child, rfl⟩ | ⟨child, rfl⟩
      · obtain ⟨leafDepth, found⟩ := ihLeft visible.1 (apart.mono (by
          rintro preimage (own | ⟨path, listed, own⟩)
          · exact .inl (shorter own)
          · exact .inr ⟨_, List.mem_append_left _ (List.mem_map_of_mem listed),
              path.preimages_under _ own⟩)) child
        exact ⟨leafDepth, List.mem_append_left _ (List.mem_map_of_mem found)⟩
      · obtain ⟨leafDepth, found⟩ := ihRight visible.2 (apart.mono (by
          rintro preimage (own | ⟨path, listed, own⟩)
          · exact .inl (shorter own)
          · exact .inr ⟨_, List.mem_append_right _ (List.mem_map_of_mem listed),
              path.preimages_under _ own⟩)) child
        exact ⟨leafDepth, List.mem_append_right _ (List.mem_map_of_mem found)⟩

end ScriptTree
end

namespace ScriptMerkleProofMap

theorem add_script (map : ScriptMerkleProofMap) (script : ByteVec) (version : LeafVersion)
    (branch : TaprootMerkleBranch) : map.add ⟨.script script version, branch⟩ =
      map.insert (script, version) ((map[(script, version)]?.getD ∅).insert branch) := by
  rw [add]
  split
  · contradiction
  · rename_i same
    injection same with scripts versions
    subst scripts versions
    cases map[(script, version)]? with
    | none => rfl
    | some set => rfl

theorem keeps_iff {map : ScriptMerkleProofMap} {key : ByteVec × LeafVersion}
    {branch : TaprootMerkleBranch} : map.Keeps key branch ↔ branch ∈ map[key]?.getD ∅ := by
  rw [Keeps]
  cases map[key]? with
  | none => simp
  | some set => simp

theorem keeps_add (map : ScriptMerkleProofMap) (leaf : LeafNode) (key : ByteVec × LeafVersion)
    (branch : TaprootMerkleBranch) : (map.add leaf).Keeps key branch ↔
      map.Keeps key branch ∨ ⟨.script key.1 key.2, branch⟩ = leaf := by
  obtain ⟨⟨script, version⟩ | hash, own⟩ := leaf
  · rw [add_script, keeps_iff, keeps_iff, Std.ExtTreeMap.getElem?_insert]
    split
    · rename_i same
      obtain rfl := Std.LawfulEqCmp.eq_of_compare same
      rw [Option.getD_some, Std.ExtTreeSet.mem_insert, Std.LawfulEqCmp.compare_eq_iff_eq]
      simp only [LeafNode.mk.injEq, true_and, eq_comm, or_comm]
    · rename_i other
      have different : key ≠ (script, version) := by
        rintro rfl
        exact other Std.ReflCmp.compare_self
      have apart : (⟨.script key.1 key.2, branch⟩ : LeafNode) ≠ ⟨.script script version, own⟩ := by
        intro same
        injection same with leaves
        injection leaves with scripts versions
        exact different (Prod.ext scripts versions)
      simp only [apart, or_false]
  · simp [add]

theorem keeps_foldl (leaves : List LeafNode) (map : ScriptMerkleProofMap)
    (key : ByteVec × LeafVersion) (branch : TaprootMerkleBranch) :
    (leaves.foldl add map).Keeps key branch ↔
      map.Keeps key branch ∨ ⟨.script key.1 key.2, branch⟩ ∈ leaves := by
  induction leaves generalizing map with
  | nil => simp
  | cons leaf rest ih => rw [List.foldl_cons, ih, keeps_add, List.mem_cons, or_assoc]

end ScriptMerkleProofMap

theorem foldl_smaller {f : α → Nat} (rest : List α) (best : α) :
    let smallest := rest.foldl (fun best a => if compareOn f a best = .lt then a else best) best
    smallest ∈ best :: rest ∧ ∀ a ∈ best :: rest, f smallest ≤ f a := by
  induction rest generalizing best with
  | nil => simp
  | cons first rest ih =>
    obtain ⟨member, least⟩ := ih (if compareOn f first best = .lt then first else best)
    have smaller : compareOn f first best = .lt ↔ f first < f best := Nat.compare_eq_lt
    simp only [smaller, List.foldl_cons] at member least ⊢
    rw [List.forall_mem_cons] at least
    split_ifs at member least ⊢ with less
    · refine ⟨List.mem_cons_of_mem _ member, ?_⟩
      rw [List.forall_mem_cons, List.forall_mem_cons]
      exact ⟨by omega, least⟩
    · rw [List.forall_mem_cons, List.forall_mem_cons]
      refine ⟨?_, least.1, by omega, least.2⟩
      rcases List.mem_cons.mp member with same | member
      · exact List.mem_cons.mpr (.inl same)
      · exact List.mem_cons_of_mem _ (List.mem_cons_of_mem _ member)

/-- The element that is found is one of the smallest. -/
theorem minBy_eq_some {f : α → Nat} {elements : List α} (some : elements ≠ []) :
    ∃ smallest, minBy (compareOn f) elements = .some smallest ∧ smallest ∈ elements ∧
      ∀ a ∈ elements, f smallest ≤ f a := by
  obtain ⟨first, rest, rfl⟩ := List.exists_cons_of_ne_nil some
  exact ⟨_, rfl, foldl_smaller rest first⟩

section
variable [Secp256k1] [Secp256k1.KeyTweaks] [TweakHash] [Hashes]

omit [Secp256k1.KeyTweaks] [TweakHash] [Hashes] in
/-- Every script has a control block with the shortest of its branches. -/
theorem TaprootSpendInfo.exists_controlBlock (info : TaprootSpendInfo) {leaves : List LeafNode}
    (kept : info.scriptMap = leaves.foldl ScriptMerkleProofMap.add ∅) {script : ByteVec}
    {version : LeafVersion} {branch : TaprootMerkleBranch}
    (member : ⟨.script script version, branch⟩ ∈ leaves) :
    ∃ smallest, info.controlBlock (script, version) =
        .ok (some ⟨version, info.outputKeyParity, info.internalKey, smallest⟩) ∧
      ⟨.script script version, smallest⟩ ∈ leaves ∧
      ∀ branch, ⟨.script script version, branch⟩ ∈ leaves →
        smallest.val.length ≤ branch.val.length := by
  have keeps : ∀ branch, info.scriptMap.Keeps (script, version) branch ↔
      ⟨.script script version, branch⟩ ∈ leaves := by
    intro branch
    rw [kept, ScriptMerkleProofMap.keeps_foldl, ScriptMerkleProofMap.keeps_iff]
    simp
  obtain ⟨set, found, inside⟩ := (keeps branch).mpr member
  have some : set.toList ≠ [] := List.ne_nil_of_mem (Std.ExtTreeSet.mem_toList.mpr inside)
  obtain ⟨smallest, first, listed, least⟩ :=
    minBy_eq_some (f := fun branch : TaprootMerkleBranch => branch.val.length) some
  refine ⟨smallest, ?_, ?_, ?_⟩
  · simp only [controlBlock, found, first]
  · exact (keeps smallest).mp ⟨set, found, Std.ExtTreeSet.mem_toList.mp listed⟩
  · intro other member
    obtain ⟨_, same, inside⟩ := (keeps other).mpr member
    obtain rfl := Option.some.inj (found.symm.trans same)
    exact least other (Std.ExtTreeSet.mem_toList.mpr inside)

omit [Hashes] in
theorem tapTweak_eq_ok {key output : Secp256k1.XOnlyPublicKey} {root : Option TapNodeHash} {parity : Parity} :
    tapTweak key root = .ok (output, parity) ↔ ∃ tweak, toScalar (fromKeyAndTweak key root) = .ok tweak ∧
      Secp256k1.KeyTweaks.addTweak key tweak = some (output, parity) := by
  rw [tapTweak, bind_eq_ok]
  constructor
  · rintro ⟨tweak, scalar, added⟩
    refine ⟨tweak, scalar, ?_⟩
    split at added
    · rename_i found
      rw [found, Except.ok.inj added]
    · contradiction
  · rintro ⟨tweak, scalar, added⟩
    exact ⟨tweak, scalar, by rw [added]⟩

omit [Secp256k1.KeyTweaks] [TweakHash] in
/-- The root that a control block proves a script to be below of. -/
def ControlBlock.root (block : ControlBlock) (script : ByteVec) : TapNodeHash :=
  rootOver (leafHashFromScript script block.leafVersion) block.merkleBranch.val

/-- A control block is accepted when its root tweaks its key to the output key. -/
theorem ControlBlock.verify_iff [Secp256k1.KeyTweaksChecked] {block : ControlBlock}
    {output : Secp256k1.XOnlyPublicKey} {script : ByteVec} :
    block.verifyTaprootCommitment output script = .ok true ↔
      tapTweak block.internalKey (some (block.root script)) = .ok (output, block.outputKeyParity) := by
  rw [tapTweak_eq_ok, verifyTaprootCommitment, bind_eq_ok]
  simp only [pure_eq_ok, Secp256k1.KeyTweaksChecked.tweakAddCheck_iff]
  rfl

namespace NodeInfo

omit [Secp256k1.KeyTweaks] [TweakHash] in
/-- What is hashed when the leaves of a node, and a script with its control block, are
proved to be below their roots. -/
def hashed (node : NodeInfo) (script : ByteVec) (block : ControlBlock) : Set TapPreimage :=
  {preimage | preimage ∈ proofPreimages script block.leafVersion block.merkleBranch.val ∨
    ∃ leaf ∈ node.leaves, preimage ∈ (leaf.path 0).preimages}

omit [Secp256k1] [Secp256k1.KeyTweaks] [TweakHash] in
theorem Built.exists_tree {node : NodeInfo} (built : node.Built) : ∃ tree : ScriptTree,
    tree.rootHash = node.hash ∧ node.leaves.map (LeafNode.path 0) = tree.scriptPaths 0 ∧
      ∀ entry ∈ tree.walk 0, entry.2.isScript = true := by
  obtain ⟨combined, visible⟩ := built_iff.mp built
  obtain ⟨tree, ok, paths⟩ := combined.exists_tree
  exact ⟨tree, (ScriptTree.nodeInfo_hash ok).symm, paths 0, (ScriptTree.nodeInfo_visible ok 0).mp visible⟩

omit [Secp256k1] [Secp256k1.KeyTweaks] [TweakHash] in
/-- The branch of a leaf leads to the hash of its node. -/
theorem Built.rootOver_leaf {node : NodeInfo} (built : node.Built) {script : ByteVec}
    {version : LeafVersion} {branch : TaprootMerkleBranch}
    (member : ⟨.script script version, branch⟩ ∈ node.leaves) :
    rootOver (leafHashFromScript script version) branch.val = node.hash := by
  obtain ⟨tree, root, paths, _⟩ := built.exists_tree
  rw [← root]
  have listed := List.mem_map_of_mem (f := LeafNode.path 0) member
  rw [paths] at listed
  exact ScriptTree.rootOver_of_mem listed

omit [Secp256k1.KeyTweaks] [TweakHash] in
theorem Built.mem_leaves {node : NodeInfo} (built : node.Built) {script : ByteVec} {block : ControlBlock}
    (apart : Set.InjOn TapPreimage.hash (node.hashed script block))
    (leads : block.root script = node.hash) :
    ⟨.script script block.leafVersion, block.merkleBranch⟩ ∈ node.leaves := by
  obtain ⟨tree, root, paths, visible⟩ := built.exists_tree
  rw [← root] at leads
  obtain ⟨depth, listed⟩ := ScriptTree.mem_scriptPaths_of_rootOver visible (apart.mono (by
    rintro preimage (own | ⟨path, listed, own⟩)
    · exact .inl own
    · rw [← paths] at listed
      obtain ⟨leaf, member, rfl⟩ := List.mem_map.mp listed
      exact .inr ⟨leaf, member, own⟩)) leads
  rw [← paths] at listed
  obtain ⟨⟨leaf, branch⟩, member, same⟩ := List.mem_map.mp listed
  simp only [LeafNode.path, Prod.mk.injEq] at same
  obtain ⟨_, rfl, branches⟩ := same
  rwa [Subtype.ext branches] at member

end NodeInfo

/-- The output key of a tree without hidden nodes commits to its scripts and to nothing
else: every leaf has a control block, the shortest there is, and a script with a control
block that is accepted is a leaf of the tree. -/
theorem commitment_complete_and_binding [Secp256k1.KeyTweaksChecked]
    {key output : Secp256k1.XOnlyPublicKey} {parity : Parity} {node : NodeInfo} (built : node.Built)
    (tweaked : tapTweak key (some node.hash) = .ok (output, parity)) :
    ∃ info, TaprootSpendInfo.fromNodeInfo key node = .ok info ∧ info.outputKey = output ∧
      (∀ script version, (∃ branch, ⟨.script script version, branch⟩ ∈ node.leaves) →
        ∃ block, info.controlBlock (script, version) = .ok (some block) ∧
          block.internalKey = key ∧ block.leafVersion = version ∧
          ⟨.script script version, block.merkleBranch⟩ ∈ node.leaves ∧
          (∀ branch, ⟨.script script version, branch⟩ ∈ node.leaves →
            block.merkleBranch.val.length ≤ branch.val.length) ∧
          block.verifyTaprootCommitment output script = .ok true) ∧
      ∀ (script : ByteVec) (block : ControlBlock), block.internalKey = key →
        Set.InjOn TapPreimage.hash (node.hashed script block) →
        Set.InjOn (fun root => (tapTweak key (some root)).map Prod.fst) {node.hash, block.root script} →
        block.verifyTaprootCommitment output script = .ok true →
        ⟨.script script block.leafVersion, block.merkleBranch⟩ ∈ node.leaves := by
  have spend : TaprootSpendInfo.newKeySpend key (some node.hash) =
      .ok ⟨key, some node.hash, parity, output, ∅⟩ := by
    rw [TaprootSpendInfo.newKeySpend, tweaked]
    rfl
  refine ⟨⟨key, some node.hash, parity, output, node.leaves.foldl ScriptMerkleProofMap.add ∅⟩,
    by rw [TaprootSpendInfo.fromNodeInfo, spend]; rfl, rfl, ?_, ?_⟩
  · rintro script version ⟨branch, member⟩
    obtain ⟨smallest, given, listed, least⟩ := TaprootSpendInfo.exists_controlBlock
      ⟨key, some node.hash, parity, output, node.leaves.foldl ScriptMerkleProofMap.add ∅⟩ rfl member
    refine ⟨_, given, rfl, rfl, listed, least, ControlBlock.verify_iff.mpr ?_⟩
    rw [ControlBlock.root, built.rootOver_leaf listed]
    exact tweaked
  · intro script block sameKey apart binds accepted
    have found := ControlBlock.verify_iff.mp accepted
    rw [sameKey] at found
    have roots : node.hash = block.root script := by
      apply binds (.inl rfl) (.inr rfl)
      simp only [tweaked, found]
      rfl
    exact built.mem_leaves apart roots.symm

end
namespace Sample
attribute [local instance] hashes keys tweaks tweakHash

theorem tweaks_checked : Secp256k1.KeyTweaksChecked where
  tweakAddCheck_iff _ _ _ _ := decide_eq_true_iff

/-- The branch over both scripts, as it is combined. -/
def lower : NodeInfo where
  hash := lowerHash
  leaves := [⟨.script one .tapScript, ⟨[twoHash], by decide⟩⟩,
    ⟨.script two .tapScript, ⟨[oneHash], by decide⟩⟩]
  hasHiddenNodes := false

/-- The branch of `OP_1` at depth one. -/
def branchOne : TaprootMerkleBranch := ⟨[lowerHash], by decide⟩

def node : NodeInfo where
  hash := rootHash
  leaves := [⟨.script one .tapScript, ⟨[twoHash, oneHash], by decide⟩⟩,
    ⟨.script two .tapScript, ⟨[oneHash, oneHash], by decide⟩⟩,
    ⟨.script one .tapScript, branchOne⟩]
  hasHiddenNodes := false

theorem node_built : node.Built := by
  have first : (NodeInfo.newLeafWithVer one .tapScript).combine (.newLeafWithVer two .tapScript) =
      .ok lower := by decide
  have second : lower.combine (.newLeafWithVer one .tapScript) = .ok node := by decide
  exact .combine (.combine (.leaf _ _) (.leaf _ _) first) (.leaf _ _) second

/-- The control block of `OP_2`. -/
def blockTwo : ControlBlock := ⟨.tapScript, true, false, ⟨[oneHash, oneHash], by decide⟩⟩

/-- No two of the strings that are hashed for the tree have the same hash. -/
theorem hashed_apart : Set.InjOn TapPreimage.hash (node.hashed two blockTwo) := by
  have apart : ∀ p ∈ proofPreimages two .tapScript [oneHash, oneHash] ++
        node.leaves.flatMap fun leaf => (leaf.path 0).preimages,
      ∀ q ∈ proofPreimages two .tapScript [oneHash, oneHash] ++
        node.leaves.flatMap fun leaf => (leaf.path 0).preimages,
      p.hash = q.hash → p = q := by decide
  have listed : ∀ p ∈ node.hashed two blockTwo, p ∈ proofPreimages two .tapScript [oneHash, oneHash] ++
      node.leaves.flatMap fun leaf => (leaf.path 0).preimages := by
    rintro p (own | ⟨leaf, member, own⟩)
    · exact List.mem_append_left _ own
    · exact List.mem_append_right _ (List.mem_flatMap.mpr ⟨leaf, member, own⟩)
  exact fun p member q other same => apart p (listed p member) q (listed q other) same

theorem node_commitment : tapTweak false (some node.hash) = .ok (true, true) ∧
    ∃ info block, TaprootSpendInfo.fromNodeInfo false node = .ok info ∧
      info.controlBlock (one, .tapScript) = .ok (some block) ∧ block.merkleBranch.val.length ≤ 1 ∧
      block.verifyTaprootCommitment true one = .ok true ∧
      blockTwo.verifyTaprootCommitment true two = .ok true ∧
      ⟨.script two .tapScript, blockTwo.merkleBranch⟩ ∈ node.leaves := by
  have tweaked : tapTweak false (some node.hash) = .ok (true, true) := by decide
  have accepted : blockTwo.verifyTaprootCommitment true two = .ok true := by decide
  have root : blockTwo.root two = node.hash := by decide
  have := tweaks_checked
  obtain ⟨info, spent, _, complete, binding⟩ := commitment_complete_and_binding node_built tweaked
  obtain ⟨block, given, _, _, _, least, verified⟩ := complete one .tapScript
    ⟨_, List.mem_cons_self⟩
  refine ⟨tweaked, info, block, spent, given, ?_, verified, accepted, ?_⟩
  · exact least branchOne (by simp [node])
  · refine binding two blockTwo rfl hashed_apart ?_ accepted
    rw [root, Set.pair_eq_singleton]
    exact Set.injOn_singleton _ _

end Sample
end Litecoin.Taproot
