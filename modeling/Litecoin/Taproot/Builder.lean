import Litecoin.Consensus.Format
import Litecoin.Crypto.Hashes
import Litecoin.Crypto.Key
import Litecoin.Wire.Run

/-! Script trees, the builder that assembles them from leaves in depth-first order,
and control blocks (`taproot/mod.rs`, `taproot/merkle_branch.rs`). -/
namespace Litecoin.Taproot
open Wire Consensus

/-- `TAPROOT_CONTROL_MAX_NODE_COUNT`. -/
def controlMaxNodeCount : Nat := 128
/-- `TAPROOT_CONTROL_NODE_SIZE`. -/
def controlNodeSize : Nat := 32
/-- `TAPROOT_CONTROL_BASE_SIZE`. -/
def controlBaseSize : Nat := 33
/-- `TAPROOT_LEAF_MASK`. -/
def leafMask : UInt8 := 0xfe
/-- `TAPROOT_LEAF_TAPSCRIPT`. -/
def leafTapscript : UInt8 := 0xc0
/-- `TAPROOT_ANNEX_PREFIX`. -/
def annexPrefix : UInt8 := 0x50

/-- `TaprootError`, as far as decoding control blocks reports it. -/
inductive TaprootError where
  | invalidMerkleBranchSize (size : Nat)
  | invalidMerkleTreeDepth (depth : Nat)
  | invalidTaprootLeafVersion (version : UInt8)
  | invalidControlBlockSize (size : Nat)
  | invalidInternalKey
deriving DecidableEq, Repr

/-- `LeafVersion`; a future version is even and neither tapscript nor an annex. -/
inductive LeafVersion where
  | tapScript
  | future (version : { v : UInt8 // v ≠ leafTapscript ∧ v ≠ annexPrefix ∧ v &&& leafMask = v })
deriving DecidableEq

namespace LeafVersion

def fromConsensus (version : UInt8) : Except TaprootError LeafVersion :=
  if tapscript : version = leafTapscript then .ok .tapScript
  else if annex : version = annexPrefix then .error (.invalidTaprootLeafVersion annexPrefix)
  else if even : version &&& leafMask = version then .ok (.future ⟨version, tapscript, annex, even⟩)
  else .error (.invalidTaprootLeafVersion version)

def toConsensus : LeafVersion → UInt8
  | .tapScript => leafTapscript
  | .future version => version.val

theorem fromConsensus_toConsensus (version : LeafVersion) :
    fromConsensus version.toConsensus = .ok version := by
  cases version with
  | tapScript => rfl
  | future version =>
    obtain ⟨version, tapscript, annex, even⟩ := version
    rw [toConsensus, fromConsensus, dif_neg tapscript, dif_neg annex, dif_pos even]

theorem fromConsensus_eq_ok {version : UInt8} {leafVersion : LeafVersion} :
    fromConsensus version = .ok leafVersion ↔ version = leafVersion.toConsensus := by
  constructor
  · intro parsed
    rw [fromConsensus] at parsed
    split_ifs at parsed with tapscript
    · obtain rfl := Except.ok.inj parsed
      exact tapscript
    · obtain rfl := Except.ok.inj parsed
      rfl
  · rintro rfl
    exact leafVersion.fromConsensus_toConsensus

theorem toConsensus_even (version : LeafVersion) :
    version.toConsensus &&& leafMask = version.toConsensus := by
  cases version with
  | tapScript => rfl
  | future version => exact version.property.2.2

/-- Tapscript comes before future versions. -/
instance : Ord LeafVersion := ⟨compareOn fun version => match version with
  | .tapScript => (false, leafTapscript)
  | .future version => (true, version.val)⟩

instance : Std.TransOrd LeafVersion := inferInstanceAs (Std.TransCmp (compareOn _))

instance : Std.LawfulEqOrd LeafVersion := lawfulEq_compareOn fun version other same => by
  cases version <;> cases other <;> simp_all [Subtype.ext_iff]

end LeafVersion

/-- `TaprootBuilderError`. -/
inductive TaprootBuilderError where
  | invalidMerkleTreeDepth (depth : Nat)
  | nodeNotInDfsOrder
  | overCompleteTree
  | emptyTree
deriving DecidableEq, Repr

abbrev TapNodeHash : Type := ByteArr 32
abbrev TapLeafHash : Type := ByteArr 32

/-- A proof of at most 128 hashing partners. -/
abbrev TaprootMerkleBranch : Type := { nodes : List TapNodeHash // nodes.length ≤ controlMaxNodeCount }

namespace TaprootMerkleBranch

def empty : TaprootMerkleBranch := ⟨[], Nat.zero_le _⟩

def push (branch : TaprootMerkleBranch) (hash : TapNodeHash) :
    Except TaprootBuilderError TaprootMerkleBranch :=
  if full : controlMaxNodeCount ≤ branch.val.length then
    .error (.invalidMerkleTreeDepth branch.val.length)
  else .ok ⟨branch.val ++ [hash], by
    rw [List.length_append, List.length_singleton]
    omega⟩

def serialize (branch : TaprootMerkleBranch) : Bytes := branch.val.flatMap Subtype.val

def decode (data : Bytes) : Except TaprootError TaprootMerkleBranch :=
  if data.length % controlNodeSize ≠ 0 then .error (.invalidMerkleBranchSize data.length)
  else if deep : controlNodeSize * controlMaxNodeCount < data.length then
    .error (.invalidMerkleTreeDepth (data.length / controlNodeSize))
  else
    let size := TaprootError.invalidMerkleBranchSize data.length
    let chunks : Decoder TaprootError _ := (Decoder.exact 32 size).times (data.length / controlNodeSize)
    match chunks.whole size data with
    | .error e => .error e
    | .ok nodes => .ok ⟨nodes.val, by
      rw [nodes.property]
      simp only [controlNodeSize, controlMaxNodeCount] at deep ⊢
      omega⟩

end TaprootMerkleBranch

inductive TapLeaf where
  | script (script : ByteVec) (version : LeafVersion)
  | hidden (hash : TapNodeHash)
deriving DecidableEq

structure LeafNode where
  leaf : TapLeaf
  merkleBranch : TaprootMerkleBranch
deriving DecidableEq

namespace LeafNode

def newScript (script : ByteVec) (version : LeafVersion) : LeafNode :=
  { leaf := .script script version, merkleBranch := .empty }

/-- Branches have at most 128 nodes. -/
def depth (node : LeafNode) : UInt8 := UInt8.ofNat node.merkleBranch.val.length

/-- Adds a hashing partner. -/
def push (hash : TapNodeHash) (node : LeafNode) : Except TaprootBuilderError LeafNode :=
  (fun merkleBranch => { node with merkleBranch }) <$> node.merkleBranch.push hash

end LeafNode

structure NodeInfo where
  hash : TapNodeHash
  leaves : List LeafNode
  hasHiddenNodes : Bool
deriving DecidableEq

/-- A node of which only the hash is known; it lists no leaf. -/
def NodeInfo.newHiddenNode (hash : TapNodeHash) : NodeInfo :=
  { hash, leaves := [], hasHiddenNodes := true }

/-- `IncompleteBuilderError`; each case holds the branch of the builder. -/
inductive IncompleteBuilderError where
  | notFinalized (branch : List (Option NodeInfo))
  | hiddenParts (branch : List (Option NodeInfo))
deriving DecidableEq

section
variable [Hashes]

/-- `TapLeafHash::from_script`. -/
def leafHashFromScript (script : ByteVec) (version : LeafVersion) : TapLeafHash :=
  Hashes.tapLeaf (version.toConsensus :: bytesWire script)

/-- The branch hash, and whether the left node was hashed first. -/
def combineNodeHashes (a b : TapNodeHash) : TapNodeHash × Bool :=
  if compare a b = .lt then (Hashes.tapBranch (a.val ++ b.val), true)
  else (Hashes.tapBranch (b.val ++ a.val), false)

namespace NodeInfo

def newLeafWithVer (script : ByteVec) (version : LeafVersion) : NodeInfo :=
  { hash := leafHashFromScript script version
    leaves := [.newScript script version]
    hasHiddenNodes := false }

/-- The parent that lists the leaves of `first` before those of `second`. -/
def join (hash : TapNodeHash) (first second : NodeInfo) : Except TaprootBuilderError NodeInfo := do
  let firstLeaves ← first.leaves.mapM (LeafNode.push second.hash)
  let secondLeaves ← second.leaves.mapM (LeafNode.push first.hash)
  pure {
    hash
    leaves := firstLeaves ++ secondLeaves
    hasHiddenNodes := first.hasHiddenNodes || second.hasHiddenNodes }

def combine (a b : NodeInfo) : Except TaprootBuilderError NodeInfo :=
  let (hash, leftFirst) := combineNodeHashes a.hash b.hash
  if leftFirst then join hash a b else join hash b a

end NodeInfo

/-- Index 0 is the root; an entry waits for its right sibling. -/
structure TaprootBuilder where
  branch : List (Option NodeInfo)
deriving DecidableEq

namespace TaprootBuilder

omit [Hashes] in
def new : TaprootBuilder := ⟨[]⟩

/-- The `while` loop of `insert`: combines with waiting siblings on the way up. -/
def propagate (branch : List (Option NodeInfo)) (node : NodeInfo) :
    (depth : Nat) → Except TaprootBuilderError (List (Option NodeInfo) × NodeInfo × Nat)
  | 0 =>
    if branch.length = 1 then
      match branch.getLast? with
      | some (some _) => .error .overCompleteTree
      | _ => .ok (branch, node, 0)
    else .ok (branch, node, 0)
  | depth + 1 =>
    if branch.length = depth + 2 then
      match branch.getLast? with
      | some (some child) => do
        let parent ← NodeInfo.combine node child
        propagate branch.dropLast parent depth
      | _ => .ok (branch, node, depth + 1)
    else .ok (branch, node, depth + 1)

omit [Hashes] in
/-- Extends the branch down to `depth` and puts the node there. -/
def place (branch : List (Option NodeInfo)) (node : NodeInfo) (depth : Nat) : TaprootBuilder :=
  ⟨(branch ++ List.replicate (depth + 1 - branch.length) none).set depth (some node)⟩

def insert (builder : TaprootBuilder) (node : NodeInfo) (depth : Nat) :
    Except TaprootBuilderError TaprootBuilder :=
  if controlMaxNodeCount < depth then .error (.invalidMerkleTreeDepth depth)
  else if depth + 1 < builder.branch.length then .error .nodeNotInDfsOrder
  else do
    let (branch, node, depth) ← propagate builder.branch node depth
    pure (place branch node depth)

def addLeafWithVer (builder : TaprootBuilder) (depth : UInt8) (script : ByteVec)
    (version : LeafVersion) : Except TaprootBuilderError TaprootBuilder :=
  builder.insert (.newLeafWithVer script version) depth.toNat

def addHiddenNode (builder : TaprootBuilder) (depth : UInt8) (hash : TapNodeHash) :
    Except TaprootBuilderError TaprootBuilder :=
  builder.insert (.newHiddenNode hash) depth.toNat

/-- `add_leaf_with_ver` or `add_hidden_node`, whichever the leaf calls for. -/
def addTapLeaf (builder : TaprootBuilder) (call : UInt8 × TapLeaf) :
    Except TaprootBuilderError TaprootBuilder :=
  match call.2 with
  | .script script version => builder.addLeafWithVer call.1 script version
  | .hidden hash => builder.addHiddenNode call.1 hash

end TaprootBuilder
end

/-- The ways in which taproot code panics. -/
inductive Panic where
  /-- "hash value greater than curve order" -/
  | scalarOverflow
  /-- "Tap tweak failed" -/
  | tweakFailed
  /-- "invariant guarantees node info exists" -/
  | nodeMissing
  /-- "Size checked above. Builder guarantees the last element is Some" -/
  | lastMissing
  /-- "Invariant: ScriptBuf map key must contain non-empty set value" -/
  | emptySet
deriving DecidableEq, Repr

namespace TaprootBuilder

def isFinalizable (builder : TaprootBuilder) : Bool :=
  builder.branch.length == 1 && builder.branch.head?.any Option.isSome

def tryIntoNodeInfo (builder : TaprootBuilder) :
    Except Panic (Except IncompleteBuilderError NodeInfo) :=
  match builder.branch with
  | [some node] => .ok (.ok node)
  | [none] => .error .nodeMissing
  | branch => .ok (.error (.notFinalized branch))

end TaprootBuilder

/-- A complete tree without hidden nodes. -/
structure TapTree where
  nodeInfo : NodeInfo
  visible : nodeInfo.hasHiddenNodes = false
deriving DecidableEq

namespace TapTree

/-- `try_into_taptree`. -/
def tryFrom (builder : TaprootBuilder) :
    Except Panic (Except IncompleteBuilderError TapTree) := do
  match ← builder.tryIntoNodeInfo with
  | .error e => pure (.error e)
  | .ok node =>
    if hidden : node.hasHiddenNodes = false then pure (.ok ⟨node, hidden⟩)
    else pure (.error (.hiddenParts [some node]))

/-- `ScriptLeaf`. -/
structure ScriptLeaf where
  version : LeafVersion
  script : ByteVec
  merkleBranch : TaprootMerkleBranch

/-- `script_leaves`: the iterator ends at the first hidden leaf. -/
def scriptLeaves (tree : TapTree) : List ScriptLeaf :=
  collect tree.nodeInfo.leaves
where
  collect : List LeafNode → List ScriptLeaf
    | [] => []
    | ⟨.script script version, merkleBranch⟩ :: rest =>
      { version, script, merkleBranch } :: collect rest
    | ⟨.hidden _, _⟩ :: _ => []

end TapTree

variable [Secp256k1]

/-- `secp256k1::Parity`, odd when set. -/
abbrev Parity : Type := Bool

structure ControlBlock where
  leafVersion : LeafVersion
  outputKeyParity : Parity
  internalKey : Secp256k1.XOnlyPublicKey
  merkleBranch : TaprootMerkleBranch

namespace ControlBlock

instance : Ord ControlBlock := ⟨compareOn fun block =>
  (block.leafVersion, block.outputKeyParity, block.internalKey, block.merkleBranch)⟩

instance : Std.TransOrd ControlBlock := inferInstanceAs (Std.TransCmp (compareOn _))

instance : Std.LawfulEqOrd ControlBlock := lawfulEq_compareOn fun block other same => by
  cases block
  cases other
  simpa using same

def decode (data : Bytes) : Except TaprootError ControlBlock :=
  if data.length < controlBaseSize ∨ (data.length - controlBaseSize) % controlNodeSize ≠ 0 then
    .error (.invalidControlBlockSize data.length)
  else do
    let first := data.headD 0
    let outputKeyParity := first &&& 1 != 0
    let leafVersion ← LeafVersion.fromConsensus (first &&& leafMask)
    let internalKey ← match Secp256k1.xOnlyPublicKeyFromSlice ((data.drop 1).take 32) with
      | some key => .ok key
      | none => .error .invalidInternalKey
    let merkleBranch ← TaprootMerkleBranch.decode (data.drop controlBaseSize)
    pure { leafVersion, outputKeyParity, internalKey, merkleBranch }

def serialize (block : ControlBlock) : Bytes :=
  ((if block.outputKeyParity then 1 else 0) ||| block.leafVersion.toConsensus) ::
    ((Secp256k1.serializeXOnly block.internalKey).val ++ block.merkleBranch.serialize)

end ControlBlock
end Litecoin.Taproot
