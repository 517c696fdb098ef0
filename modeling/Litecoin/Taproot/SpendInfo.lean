import Litecoin.Taproot.Builder

/-! What is kept of a script tree for spending: output keys, the branches of each
script, and control blocks with their verification (`taproot/mod.rs`, `crypto/key.rs`). -/
namespace Litecoin.Taproot
open Wire Consensus

/-- `Iterator::min_by`: the first of the smallest elements. -/
def minBy (cmp : α → α → Ordering) : List α → Option α
  | [] => none
  | first :: rest => some (rest.foldl (fun best a => if cmp a best = .lt then a else best) first)

instance vecOrd [Ord α] : Ord (Vec α) := ⟨compareOn Vec.toList⟩

instance vecTransOrd [Ord α] [Std.TransOrd α] : Std.TransOrd (Vec α) :=
  inferInstanceAs (Std.TransCmp (compareOn Vec.toList))

instance vecLawfulEqOrd [Ord α] [Std.LawfulEqOrd α] : Std.LawfulEqOrd (Vec α) :=
  lawfulEq_compareOn fun _ _ => Vec.ext

abbrev ScriptMerkleProofMap : Type := BTreeMap (ByteVec × LeafVersion) (BTreeSet TaprootMerkleBranch)

/-- The branch of one more leaf; hidden leaves are not kept. -/
def ScriptMerkleProofMap.add (map : ScriptMerkleProofMap) (leaf : LeafNode) : ScriptMerkleProofMap :=
  match leaf.leaf with
  | .hidden _ => map
  | .script script version => match map[(script, version)]? with
    | none => map.insert (script, version) ((∅ : BTreeSet TaprootMerkleBranch).insert leaf.merkleBranch)
    | some set => map.insert (script, version) (set.insert leaf.merkleBranch)

/-- A branch is kept for a script. -/
def ScriptMerkleProofMap.Keeps (map : ScriptMerkleProofMap) (key : ByteVec × LeafVersion)
    (branch : TaprootMerkleBranch) : Prop :=
  ∃ set, map[key]? = some set ∧ branch ∈ set

section
variable [Secp256k1]

/-- `TaprootSpendInfo`. -/
structure TaprootSpendInfo where
  internalKey : Secp256k1.XOnlyPublicKey
  merkleRoot : Option TapNodeHash
  outputKeyParity : Parity
  outputKey : Secp256k1.XOnlyPublicKey
  scriptMap : ScriptMerkleProofMap

variable [Secp256k1.KeyTweaks] [TweakHash]

/-- `TapTweakHash::from_key_and_tweak`. -/
def fromKeyAndTweak (internalKey : Secp256k1.XOnlyPublicKey) (merkleRoot : Option TapNodeHash) :
    ByteArr 32 :=
  TweakHash.tapTweak ((Secp256k1.serializeXOnly internalKey).val ++ merkleRoot.elim [] Subtype.val)

/-- `TapTweakHash::to_scalar`. -/
def toScalar (hash : ByteArr 32) : Except Panic Secp256k1.KeyTweaks.Scalar :=
  match Secp256k1.KeyTweaks.scalarFromBeBytes hash with
  | some scalar => .ok scalar
  | none => .error .scalarOverflow

/-- `tap_tweak` of an untweaked public key. -/
def tapTweak (key : Secp256k1.XOnlyPublicKey) (merkleRoot : Option TapNodeHash) :
    Except Panic (Secp256k1.XOnlyPublicKey × Parity) := do
  let tweak ← toScalar (fromKeyAndTweak key merkleRoot)
  match Secp256k1.KeyTweaks.addTweak key tweak with
  | some tweaked => .ok tweaked
  | none => .error .tweakFailed

namespace TaprootSpendInfo

def newKeySpend (internalKey : Secp256k1.XOnlyPublicKey) (merkleRoot : Option TapNodeHash) :
    Except Panic TaprootSpendInfo := do
  let (outputKey, outputKeyParity) ← tapTweak internalKey merkleRoot
  pure { internalKey, merkleRoot, outputKeyParity, outputKey, scriptMap := ∅ }

def fromNodeInfo (internalKey : Secp256k1.XOnlyPublicKey) (node : NodeInfo) :
    Except Panic TaprootSpendInfo := do
  let info ← newKeySpend internalKey (some node.hash)
  pure { info with scriptMap := node.leaves.foldl ScriptMerkleProofMap.add info.scriptMap }

omit [Secp256k1.KeyTweaks] [TweakHash] in
/-- The shortest branch of a script. -/
def controlBlock (info : TaprootSpendInfo) (scriptVer : ByteVec × LeafVersion) :
    Except Panic (Option ControlBlock) :=
  match info.scriptMap[scriptVer]? with
  | none => .ok none
  | some merkleBranchSet =>
    match minBy (compareOn fun branch => branch.val.length) merkleBranchSet.toList with
    | none => .error .emptySet
    | some smallest => .ok (some {
        internalKey := info.internalKey
        outputKeyParity := info.outputKeyParity
        leafVersion := scriptVer.2
        merkleBranch := smallest })

end TaprootSpendInfo

/-- `finalize`; a builder that is not finished is returned unchanged. -/
def TaprootBuilder.finalize (builder : TaprootBuilder) (internalKey : Secp256k1.XOnlyPublicKey) :
    Except Panic (Except TaprootBuilder TaprootSpendInfo) :=
  match builder.branch with
  | [] => .ok <$> TaprootSpendInfo.newKeySpend internalKey none
  | [some node] => .ok <$> TaprootSpendInfo.fromNodeInfo internalKey node
  | [none] => .error .lastMissing
  | _ => .ok (.error builder)

variable [Hashes]

omit [Secp256k1] [Secp256k1.KeyTweaks] [TweakHash] in
/-- The root that a branch leads to from a leaf. -/
def rootOver (leaf : TapNodeHash) (branch : List TapNodeHash) : TapNodeHash :=
  branch.foldl (fun current partner => (combineNodeHashes current partner).1) leaf

def ControlBlock.verifyTaprootCommitment (block : ControlBlock)
    (outputKey : Secp256k1.XOnlyPublicKey) (script : ByteVec) : Except Panic Bool := do
  let current := rootOver (leafHashFromScript script block.leafVersion) block.merkleBranch.val
  let tweak ← toScalar (fromKeyAndTweak block.internalKey (some current))
  pure (Secp256k1.KeyTweaks.tweakAddCheck block.internalKey outputKey block.outputKeyParity tweak)

end

/-! The tree that holds `OP_1` at depth one and, beside `OP_2`, at depth two, under the
base point as its internal key. -/
namespace Sample

/-- `OP_1`. -/
def one : ByteVec := ⟨[0x51], by decide⟩

/-- `OP_2`. -/
def two : ByteVec := ⟨[0x52], by decide⟩

def oneHash : ByteArr 32 :=
  ⟨[0xa8, 0x5b, 0x21, 0x07, 0xf7, 0x91, 0xb2, 0x6a, 0x84, 0xe7, 0x58, 0x6c, 0x28, 0xce, 0xc7, 0xcb,
    0x61, 0x20, 0x2e, 0xd3, 0xd0, 0x19, 0x44, 0xd8, 0x32, 0x50, 0x0f, 0x36, 0x37, 0x82, 0xd6, 0x75], rfl⟩

def twoHash : ByteArr 32 :=
  ⟨[0xc2, 0x76, 0xfe, 0xf1, 0x38, 0x68, 0x90, 0x61, 0x9b, 0x80, 0xe1, 0x0a, 0x4a, 0x32, 0x85, 0x72,
    0xd9, 0x74, 0x93, 0xad, 0xd2, 0x69, 0xdf, 0x1a, 0x15, 0xa7, 0xf8, 0x9f, 0x8a, 0xe8, 0xec, 0x09], rfl⟩

/-- The branch over both scripts. -/
def lowerHash : ByteArr 32 :=
  ⟨[0x64, 0x96, 0xf0, 0x77, 0x9f, 0x38, 0xb8, 0x71, 0x01, 0x3b, 0xe7, 0x1e, 0xe7, 0xdc, 0xce, 0x8f,
    0xcd, 0xcc, 0x02, 0xaf, 0xc4, 0xc6, 0x88, 0xac, 0xb1, 0x59, 0xfc, 0x5d, 0xe2, 0xfb, 0xa5, 0x5e], rfl⟩

def rootHash : ByteArr 32 :=
  ⟨[0xc8, 0xda, 0xfd, 0x4f, 0xf9, 0x06, 0x8a, 0xf4, 0x15, 0x3c, 0xf7, 0x51, 0x20, 0xf6, 0xdb, 0x77,
    0xc1, 0x42, 0x02, 0xea, 0x38, 0x5d, 0x2d, 0xbe, 0x51, 0xda, 0x60, 0x93, 0x6a, 0xbf, 0x16, 0x70], rfl⟩

/-- The tweak of the base point with the root. -/
def tweak : ByteArr 32 :=
  ⟨[0x9f, 0x02, 0xc2, 0x3a, 0xae, 0x93, 0x46, 0x5a, 0xcc, 0xff, 0x42, 0xc8, 0x0c, 0x3f, 0x3f, 0x31,
    0x59, 0x03, 0xcb, 0x11, 0x0a, 0x92, 0x54, 0xf6, 0xc9, 0xf0, 0x54, 0x95, 0x7a, 0x9e, 0xc3, 0x76], rfl⟩

/-- The tweak hash of the empty string. -/
def emptyTweak : ByteArr 32 :=
  ⟨[0x8a, 0xa4, 0x22, 0x94, 0x74, 0xab, 0x01, 0x00, 0xb2, 0xd6, 0xf0, 0x68, 0x7f, 0x03, 0x1d, 0x1f,
    0xc9, 0xd8, 0xee, 0xf9, 0x2a, 0x04, 0x2a, 0xd9, 0x7d, 0x27, 0x9b, 0xff, 0x45, 0x6b, 0x15, 0xe4], rfl⟩

/-- The first coordinate of the output key, whose second one is odd. -/
def outputX : ByteArr 32 :=
  ⟨[0x82, 0x13, 0x4a, 0xab, 0xde, 0x70, 0x03, 0xb7, 0xe6, 0x30, 0x1a, 0xa7, 0xae, 0x1b, 0xf2, 0x03,
    0x7a, 0x11, 0x64, 0x2e, 0xb2, 0xa8, 0x2d, 0x69, 0xfb, 0xc7, 0x38, 0x8b, 0xcd, 0x6f, 0x45, 0xaa], rfl⟩

/-- The hashes in the tree; every other string is taken for the empty one. -/
@[reducible] def hashes : Hashes :=
  { Hashes.ofEmpty with
    tapLeaf := fun bytes =>
      if bytes = [0xc0, 0x01, 0x51] then oneHash
      else if bytes = [0xc0, 0x01, 0x52] then twoHash
      else Hashes.ofEmpty.tapLeaf bytes
    tapBranch := fun bytes =>
      if bytes = oneHash.val ++ twoHash.val then lowerHash
      else if bytes = lowerHash.val ++ oneHash.val then rootHash
      else Hashes.ofEmpty.tapBranch bytes }

/-- The internal key, and the output key when set. -/
@[reducible] def keys : Secp256k1 :=
  { Secp256k1.generatorOnly with
    XOnlyPublicKey := Bool
    xOnlyPublicKeyOrder := inferInstance
    xOnlyPublicKeyFromSlice := fun bytes =>
      if bytes = Secp256k1.generatorXOnly.val then some false
      else if bytes = outputX.val then some true
      else none
    serializeXOnly := fun output => if output then outputX else Secp256k1.generatorXOnly }

/-- The one tweak that leads from key to key. -/
def addTweak (output : Bool) (scalar : ByteArr 32) : Option (Bool × Bool) :=
  if output = false ∧ scalar = tweak then some (true, true) else none

@[reducible] def tweaks : @Secp256k1.KeyTweaks keys :=
  letI := keys
  { Scalar := ByteArr 32
    scalarFromBeBytes := fun bytes =>
      if fromLittleEndian bytes.val.reverse < Secp256k1.order then some bytes else none
    addTweak
    tweakAddCheck := fun key tweaked parity scalar =>
      decide (addTweak key scalar = some (tweaked, parity)) }

@[reducible] def tweakHash : TweakHash where
  tapTweak bytes :=
    if bytes = Secp256k1.generatorXOnly.val ++ rootHash.val then tweak else emptyTweak

end Sample
end Litecoin.Taproot
