import Litecoin.MerkleTree

/-! Partial merkle trees (`merkle_tree/block.rs`). `none` and `panic` stand for a panic
of the source: a failed assertion, an index out of range, or `u32` arithmetic that
overflows. The counters of an extraction are numbers without a bound, since the check of
the transaction count keeps them far below `2 ^ 32`. -/
namespace Litecoin.MerkleTree
open Wire Consensus

/-- The errors of `extract_matches`. -/
inductive MerkleBlockError where
  | noTransactions
  | tooManyTransactions
  | tooManyHashes
  | notEnoughBits
  | notAllBitsConsumed
  | notAllHashesConsumed
  | bitsArrayOverflow
  | hashesArrayOverflow
  | identicalHashesFound
deriving DecidableEq, Repr

/-- How an extraction ends early. -/
inductive Abort where
  | panic
  | refused (error : MerkleBlockError)
deriving DecidableEq, Repr

/-- `Weight::MAX_BLOCK`. -/
def maxBlockWeight : Nat := 4_000_000

/-- `Weight::MIN_TRANSACTION`. -/
def minTransactionWeight : Nat := 4 * 60

/-- The result of `u32` arithmetic. -/
def u32 (n : Nat) : Option Nat := if n < 2 ^ 32 then some n else none

structure PartialMerkleTree where
  numTransactions : UInt32
  bits : Vec Bool
  hashes : Vec (ByteArr 32)
deriving DecidableEq

namespace PartialMerkleTree

def calcTreeWidth (tree : PartialMerkleTree) (height : Nat) : Option Nat := do
  let unit ← if height < 32 then some (1 <<< height) else none
  let sum ← u32 (tree.numTransactions.toNat + unit)
  some ((sum - 1) >>> height)

/-- The loop of `calc_tree_height`. -/
def climb (tree : PartialMerkleTree) : (fuel height : Nat) → Option Nat
  | 0, _ => none
  | fuel + 1, height => do
    let width ← tree.calcTreeWidth height
    if 1 < width then tree.climb fuel (height + 1) else some height

/-- The shift by 32 panics, so the loop ends within 33 rounds. -/
def calcTreeHeight (tree : PartialMerkleTree) : Option Nat := tree.climb 33 0

variable (engine : Bytes → ByteArr 32)

def parentHash (left right : ByteArr 32) : ByteArr 32 := hashPair engine left right

def calcHash (tree : PartialMerkleTree) (txids : List (ByteArr 32)) :
    (height pos : Nat) → Option (ByteArr 32)
  | 0, pos => txids[pos]?
  | height + 1, pos => do
    let leftPos ← u32 (pos * 2)
    let left ← tree.calcHash txids height leftPos
    let rightPos ← u32 (pos * 2 + 1)
    let width ← tree.calcTreeWidth height
    let right ← if rightPos < width then tree.calcHash txids height rightPos else some left
    some (parentHash engine left right)

/-- The loop over `matches[p]`. -/
def scanMatches (matched : List Bool) : (remaining p : Nat) → Bool → Option Bool
  | 0, _, found => some found
  | remaining + 1, p, found => do
    let here ← matched[p]?
    scanMatches matched remaining (p + 1) (found || here)

/-- Whether a node is the parent of a matched txid. The shifts drop high bits. -/
def parentOfMatch (tree : PartialMerkleTree) (matched : List Bool) (height pos : Nat) :
    Option Bool := do
  let next ← u32 (pos + 1)
  if height < 32 then
    let start := (pos <<< height) % 2 ^ 32
    let limit := min ((next <<< height) % 2 ^ 32) tree.numTransactions.toNat
    scanMatches matched (limit - start) start false
  else none

/-- `Vec::push`, which panics at full capacity. -/
def push (values : Vec α) (value : α) : Option (Vec α) :=
  if fits : (values.toList ++ [value]).length < 2 ^ 64 then some ⟨values.toList ++ [value], fits⟩
  else none

def traverseAndBuild (txids : List (ByteArr 32)) (matched : List Bool) :
    (height pos : Nat) → PartialMerkleTree → Option PartialMerkleTree
  | 0, pos, tree => do
    let flag ← tree.parentOfMatch matched 0 pos
    let bits ← push tree.bits flag
    let hash ← tree.calcHash engine txids 0 pos
    let hashes ← push tree.hashes hash
    some { tree with bits, hashes }
  | height + 1, pos, tree => do
    let flag ← tree.parentOfMatch matched (height + 1) pos
    let bits ← push tree.bits flag
    if flag then do
      let leftPos ← u32 (pos * 2)
      let tree ← traverseAndBuild txids matched height leftPos { tree with bits }
      let rightPos ← u32 (pos * 2 + 1)
      let width ← tree.calcTreeWidth height
      if rightPos < width then traverseAndBuild txids matched height rightPos tree
      else some tree
    else do
      let hash ← tree.calcHash engine txids (height + 1) pos
      let hashes ← push tree.hashes hash
      some { tree with bits, hashes }

def fromTxids (txids : List (ByteArr 32)) (matched : List Bool) : Option PartialMerkleTree :=
  if txids.length = 0 ∨ txids.length ≠ matched.length then none
  else do
    let tree : PartialMerkleTree :=
      { numTransactions := UInt32.ofNat txids.length, bits := .empty, hashes := .empty }
    let height ← tree.calcTreeHeight
    traverseAndBuild engine txids matched height 0 tree

/-- The mutable arguments of `traverse_and_extract`. -/
structure Cursor where
  bitsUsed : Nat
  hashUsed : Nat
  matched : List (ByteArr 32)
  indexes : List Nat
deriving DecidableEq

def orPanic : Option α → Except Abort α
  | some a => .ok a
  | none => .error .panic

/-- The stored hash of a node that is not descended into. -/
def storedHash (tree : PartialMerkleTree) (cursor : Cursor) : Except Abort (ByteArr 32) :=
  match tree.hashes.toList[cursor.hashUsed]? with
  | some hash => .ok hash
  | none => .error (.refused .hashesArrayOverflow)

def traverseAndExtract (tree : PartialMerkleTree) :
    (height pos : Nat) → Cursor → Except Abort (ByteArr 32 × Cursor)
  | height, pos, cursor =>
    match tree.bits.toList[cursor.bitsUsed]? with
    | none => .error (.refused .bitsArrayOverflow)
    | some parentOfMatch =>
      let cursor := { cursor with bitsUsed := cursor.bitsUsed + 1 }
      match height, parentOfMatch with
      | 0, parentOfMatch => do
        let hash ← tree.storedHash cursor
        let cursor := { cursor with hashUsed := cursor.hashUsed + 1 }
        if parentOfMatch then
          .ok (hash, { cursor with
            matched := cursor.matched ++ [hash]
            indexes := cursor.indexes ++ [pos] })
        else .ok (hash, cursor)
      | _ + 1, false => do
        let hash ← tree.storedHash cursor
        .ok (hash, { cursor with hashUsed := cursor.hashUsed + 1 })
      | height + 1, true => do
        let leftPos ← orPanic (u32 (pos * 2))
        let (left, cursor) ← tree.traverseAndExtract height leftPos cursor
        let rightPos ← orPanic (u32 (pos * 2 + 1))
        let width ← orPanic (tree.calcTreeWidth height)
        if rightPos < width then do
          let (right, cursor) ← tree.traverseAndExtract height rightPos cursor
          if right = left then .error (.refused .identicalHashesFound)
          else .ok (parentHash engine left right, cursor)
        else .ok (parentHash engine left left, cursor)

/-- The merkle root, and what `matches` and `indexes` are filled with. -/
def extractMatches (tree : PartialMerkleTree) :
    Except Abort (ByteArr 32 × List (ByteArr 32) × List Nat) :=
  let hashCount := tree.hashes.toList.length % 2 ^ 32
  let bitCount := tree.bits.toList.length % 2 ^ 32
  if tree.numTransactions = 0 then .error (.refused .noTransactions)
  else if maxBlockWeight / minTransactionWeight < tree.numTransactions.toNat then
    .error (.refused .tooManyTransactions)
  else if tree.numTransactions.toNat < hashCount then .error (.refused .tooManyHashes)
  else if tree.bits.toList.length < tree.hashes.toList.length then
    .error (.refused .notEnoughBits)
  else do
    let height ← orPanic tree.calcTreeHeight
    let (root, cursor) ← tree.traverseAndExtract engine height 0 ⟨0, 0, [], []⟩
    let rounded ← orPanic (u32 (bitCount + 7))
    if (cursor.bitsUsed + 7) / 8 ≠ rounded / 8 then .error (.refused .notAllBitsConsumed)
    else if cursor.hashUsed ≠ hashCount then .error (.refused .notAllHashesConsumed)
    else .ok (root, cursor.matched, cursor.indexes)

/-- `bits.chunks(8)`. -/
def chunks (bits : List Bool) : List (List Bool) :=
  (List.range ((bits.length + 7) / 8)).map fun i => (bits.drop (8 * i)).take 8

/-- One byte of flag bits, least significant bit first. -/
def packByte (chunk : List Bool) : UInt8 :=
  chunk.zipIdx.foldl (fun byte (bit, i) => byte ||| (bit.toUInt8 <<< UInt8.ofNat i)) 0

def unpackByte (byte : UInt8) : List Bool :=
  (List.range 8).map fun i => byte &&& (1 <<< UInt8.ofNat i) != 0

def consensusEncode (tree : PartialMerkleTree) : Emission IoError :=
  encodeU32 tree.numTransactions ++
  encodeVec encodeArray tree.hashes ++
  VarInt.consensusEncode (UInt64.ofNat ((tree.bits.toList.length + 7) / 8)) ++
  Emission.each (fun chunk => encodeU8 (packByte chunk)) (chunks tree.bits.toList)

theorem length_unpackBytes (bytes : Bytes) : (bytes.flatMap unpackByte).length = bytes.length * 8 := by
  induction bytes with
  | nil => rfl
  | cons byte rest ih =>
    rw [List.flatMap_cons, List.length_append, ih, unpackByte, List.length_map, List.length_range,
      List.length_cons]
    omega

def consensusDecodeFromFiniteReader : Decoder Error PartialMerkleTree := do
  let numTransactions ← readU32
  let hashes ← Consensus.consensusDecode (decodeVec (readExact 32))
  let nbBytesForBits ← VarInt.consensusDecode
  if small : nbBytesForBits.toNat ≤ maxVecSize then do
    let bytes ← readU8.times nbBytesForBits.toNat
    let bits : Vec Bool := ⟨bytes.val.flatMap unpackByte, by
      rw [length_unpackBytes, bytes.property]; simp only [maxVecSize] at small; omega⟩
    pure { numTransactions, hashes, bits }
  else Decoder.fail (.oversizedVectorAllocation nbBytesForBits.toNat maxVecSize)

end PartialMerkleTree
end Litecoin.MerkleTree
