import Litecoin.Consensus.Encode

/-! Merkle roots over 32-byte hashes (`merkle_tree/mod.rs`). The engine that hashes a
pair is a parameter. -/
namespace Litecoin.MerkleTree
open Wire Consensus

variable (engine : Bytes → ByteArr 32)

def hashPair (hash₁ hash₂ : ByteArr 32) : ByteArr 32 := engine (hash₁.val ++ hash₂.val)

/-- The first level, folded from the iterator; an odd last hash is used twice. -/
def firstLevel : List (ByteArr 32) → List (ByteArr 32)
  | [] => []
  | [hash] => [hashPair engine hash hash]
  | hash₁ :: hash₂ :: rest => hashPair engine hash₁ hash₂ :: firstLevel rest

/-- The loop of `merkle_root_r`, which overwrites the slice it reads from. -/
def overwriteLevel : (remaining idx : Nat) → List (ByteArr 32) → Option (List (ByteArr 32))
  | 0, _, hashes => some hashes
  | remaining + 1, idx, hashes => do
    let hash₁ ← hashes[2 * idx]?
    let hash₂ ← hashes[min (2 * idx + 1) (hashes.length - 1)]?
    overwriteLevel remaining (idx + 1) (hashes.set idx (hashPair engine hash₁ hash₂))

/-- `merkle_root_r`. `fuel` bounds the number of levels. -/
def merkleRootR : (fuel : Nat) → List (ByteArr 32) → Option (ByteArr 32)
  | 0, _ => none
  | fuel + 1, hashes =>
    if hashes.length = 1 then hashes[0]?
    else do
      let level ← overwriteLevel engine ((hashes.length + 1) / 2) 0 hashes
      merkleRootR fuel (level.take (hashes.length / 2 + hashes.length % 2))

def calculateRootInline (hashes : List (ByteArr 32)) : Option (ByteArr 32) :=
  match hashes.length with
  | 0 => none
  | 1 => hashes[0]?
  | _ => merkleRootR engine hashes.length hashes

def calculateRoot : List (ByteArr 32) → Option (ByteArr 32)
  | [] => none
  | [first] => some first
  | hashes =>
    let level := firstLevel engine hashes
    merkleRootR engine level.length level

end Litecoin.MerkleTree
