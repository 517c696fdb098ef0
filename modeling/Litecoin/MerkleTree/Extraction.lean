import Litecoin.MerkleTree.Roots
import Litecoin.Tree.Pruned
import Litecoin.Wire.Run

/-! Extraction against the pruned tree its bits and hashes list, and what an accepted
root says about the reported transactions. -/
namespace Litecoin.MerkleTree
open Wire Consensus Litecoin.Tree

namespace PartialMerkleTree

variable (engine : Bytes → ByteArr 32)

/-- The rest of the bits and hashes starts with the listing of `part`. -/
def Lists (tree : PartialMerkleTree) (cursor : Cursor) (part : Tree.Pruned (ByteArr 32) n height pos) :
    Prop :=
  part.bits <+: tree.bits.toList.drop cursor.bitsUsed ∧
  part.hashes <+: tree.hashes.toList.drop cursor.hashUsed

/-- The cursor behind the listing of `part`. -/
def Cursor.advance (cursor : Cursor) (part : Tree.Pruned (ByteArr 32) n height pos) : Cursor where
  bitsUsed := cursor.bitsUsed + part.bits.length
  hashUsed := cursor.hashUsed + part.hashes.length
  matched := cursor.matched ++ part.matched.map Prod.fst
  indexes := cursor.indexes ++ part.matched.map Prod.snd

theorem orPanic_eq_ok {result : Option α} {a : α} : orPanic result = .ok a ↔ result = some a := by
  cases result <;> simp [orPanic]

theorem storedHash_eq_ok {tree : PartialMerkleTree} {cursor : Cursor} {hash : ByteArr 32} :
    tree.storedHash cursor = .ok hash ↔ tree.hashes.toList[cursor.hashUsed]? = some hash := by
  rw [storedHash]
  cases tree.hashes.toList[cursor.hashUsed]? <;> simp

/-- The cursor after a bit. -/
def Cursor.skipBit (cursor : Cursor) : Cursor := { cursor with bitsUsed := cursor.bitsUsed + 1 }

/-- The cursor after a bit and a hash. -/
def Cursor.skipHash (cursor : Cursor) : Cursor :=
  { cursor.skipBit with hashUsed := cursor.hashUsed + 1 }

theorem Cursor.advance_single (cursor : Cursor) (child : Tree.Pruned (ByteArr 32) n height (2 * pos))
    (last : ¬ 2 * pos + 1 < Tree.width n height) :
    cursor.advance (.single child last) = cursor.skipBit.advance child := by
  simp only [advance, skipBit, Tree.Pruned.bits, Tree.Pruned.hashes, Tree.Pruned.matched,
    List.length_cons, Nat.add_assoc, Nat.add_comm 1]

theorem Cursor.advance_branch (cursor : Cursor) (left : Tree.Pruned (ByteArr 32) n height (2 * pos))
    (right : Tree.Pruned (ByteArr 32) n height (2 * pos + 1))
    (more : 2 * pos + 1 < Tree.width n height) :
    cursor.advance (.branch left right more) = (cursor.skipBit.advance left).advance right := by
  simp only [advance, skipBit, Tree.Pruned.bits, Tree.Pruned.hashes, Tree.Pruned.matched,
    List.length_cons, List.length_append, List.map_append, List.append_assoc, Nat.add_assoc,
    Nat.add_comm 1]

theorem traverseAndExtract_zero {tree : PartialMerkleTree} {pos : Nat} {cursor next : Cursor}
    {hash : ByteArr 32} :
    tree.traverseAndExtract engine 0 pos cursor = .ok (hash, next) ↔
      ∃ bit, tree.bits.toList[cursor.bitsUsed]? = some bit ∧
        tree.hashes.toList[cursor.hashUsed]? = some hash ∧
        next = if bit then { cursor.skipHash with
            matched := cursor.matched ++ [hash]
            indexes := cursor.indexes ++ [pos] } else cursor.skipHash := by
  rw [traverseAndExtract]
  cases tree.bits.toList[cursor.bitsUsed]? with
  | none => simp
  | some bit =>
    simp only [Option.some.injEq, exists_eq_left', Wire.bind_eq_ok, storedHash_eq_ok]
    constructor
    · rintro ⟨stored, found, extracted⟩
      cases bit <;> obtain ⟨rfl, rfl⟩ := Prod.mk.inj (Except.ok.inj extracted) <;> exact ⟨found, rfl⟩
    · rintro ⟨found, rfl⟩
      cases bit <;> exact ⟨hash, found, rfl⟩

/-- What a node above the leaves can do. -/
theorem traverseAndExtract_succ {tree : PartialMerkleTree}
    (small : tree.numTransactions.toNat < 2 ^ 31) {height pos : Nat} {cursor next : Cursor}
    {hash : ByteArr 32} (bound : height < treeHeight tree.numTransactions.toNat)
    (inside : pos < Tree.width tree.numTransactions.toNat (height + 1)) :
    tree.traverseAndExtract engine (height + 1) pos cursor = .ok (hash, next) ↔
      (tree.bits.toList[cursor.bitsUsed]? = some false ∧
        tree.hashes.toList[cursor.hashUsed]? = some hash ∧ next = cursor.skipHash) ∨
      (tree.bits.toList[cursor.bitsUsed]? = some true ∧ ∃ left middle,
        tree.traverseAndExtract engine height (2 * pos) cursor.skipBit = .ok (left, middle) ∧
        ((2 * pos + 1 < Tree.width tree.numTransactions.toNat height ∧ ∃ right,
          tree.traverseAndExtract engine height (2 * pos + 1) middle = .ok (right, next) ∧
          right ≠ left ∧ hash = hashPair engine left right) ∨
        (¬ 2 * pos + 1 < Tree.width tree.numTransactions.toNat height ∧ next = middle ∧
          hash = hashPair engine left left))) := by
  obtain ⟨short, fits⟩ := height_fits small bound.le
  have left := Tree.left_lt_width inside
  have narrow := Tree.width_le tree.numTransactions.toNat height
  have leftPos : u32 (pos * 2) = some (2 * pos) := by rw [mul_comm]; exact u32_eq (by omega)
  have rightPos : u32 (pos * 2 + 1) = some (2 * pos + 1) := by rw [mul_comm]; exact u32_eq (by omega)
  rw [traverseAndExtract]
  cases tree.bits.toList[cursor.bitsUsed]? with
  | none => simp
  | some bit =>
    cases bit with
    | false =>
      simp only [Wire.bind_eq_ok, storedHash_eq_ok, Option.some.injEq, Except.ok.injEq,
        Prod.mk.injEq, Bool.false_eq_true, true_and, false_and, or_false]
      constructor
      · rintro ⟨stored, found, rfl, rfl⟩
        exact ⟨found, rfl⟩
      · rintro ⟨found, rfl⟩
        exact ⟨hash, found, rfl, rfl⟩
    | true =>
      simp only [Wire.bind_eq_ok, orPanic_eq_ok, leftPos, rightPos, calcTreeWidth_eq short fits,
        Option.some.injEq, exists_eq_left', Bool.true_eq_false, false_and, false_or, true_and]
      constructor
      · rintro ⟨⟨node, middle⟩, extracted, rest⟩
        refine ⟨node, middle, extracted, ?_⟩
        split_ifs at rest with more
        · obtain ⟨⟨other, last⟩, beside, rest⟩ := Wire.bind_eq_ok.mp rest
          dsimp only at rest
          split_ifs at rest with twins
          obtain ⟨rfl, rfl⟩ := Prod.mk.inj (Except.ok.inj rest)
          exact .inl ⟨more, other, beside, twins, rfl⟩
        · obtain ⟨rfl, rfl⟩ := Prod.mk.inj (Except.ok.inj rest)
          exact .inr ⟨more, rfl, rfl⟩
      · rintro ⟨node, middle, extracted, ⟨more, other, beside, twins, rfl⟩ | ⟨last, rfl, rfl⟩⟩
        · refine ⟨(node, middle), extracted, ?_⟩
          rw [if_pos more]
          refine Wire.bind_eq_ok.mpr ⟨(other, next), beside, ?_⟩
          exact if_neg twins
        · refine ⟨(node, next), extracted, ?_⟩
          rw [if_neg last]
          rfl

/-- The traversal reads the tree listed from the cursor on. -/
theorem traverseAndExtract_eq_ok {tree : PartialMerkleTree}
    (small : tree.numTransactions.toNat < 2 ^ 31) {height pos : Nat} {cursor next : Cursor}
    {hash : ByteArr 32} (bound : height ≤ treeHeight tree.numTransactions.toNat)
    (inside : pos < Tree.width tree.numTransactions.toNat height) :
    tree.traverseAndExtract engine height pos cursor = .ok (hash, next) ↔
      ∃ part : Tree.Pruned (ByteArr 32) tree.numTransactions.toNat height pos,
        tree.Lists cursor part ∧ part.Distinct (hashPair engine) ∧
          hash = part.hash (hashPair engine) ∧ next = cursor.advance part := by
  induction height generalizing pos cursor next hash with
  | zero =>
    rw [traverseAndExtract_zero]
    constructor
    · rintro ⟨bit, atBit, atHash, rfl⟩
      refine ⟨.leaf hash bit, ⟨?_, ?_⟩, trivial, rfl, ?_⟩
      · exact Tree.cons_prefix_drop.mpr ⟨atBit, List.nil_prefix⟩
      · exact Tree.cons_prefix_drop.mpr ⟨atHash, List.nil_prefix⟩
      · cases bit <;> simp [Cursor.advance, Cursor.skipHash, Cursor.skipBit, Tree.Pruned.bits,
          Tree.Pruned.hashes, Tree.Pruned.matched]
    · rintro ⟨part, ⟨bits, hashes⟩, -, rfl, rfl⟩
      cases part with
      | leaf stored bit =>
        refine ⟨bit, (Tree.cons_prefix_drop.mp bits).1, (Tree.cons_prefix_drop.mp hashes).1, ?_⟩
        cases bit <;> simp [Cursor.advance, Cursor.skipHash, Cursor.skipBit, Tree.Pruned.bits,
          Tree.Pruned.hashes, Tree.Pruned.matched, Tree.Pruned.hash]
  | succ height ih =>
    rw [traverseAndExtract_succ engine small bound inside]
    have left := Tree.left_lt_width inside
    constructor
    · rintro (⟨atBit, atHash, rfl⟩ | ⟨atBit, node, middle, extracted, rest⟩)
      · refine ⟨.hidden hash, ⟨?_, ?_⟩, trivial, rfl, ?_⟩
        · exact Tree.cons_prefix_drop.mpr ⟨atBit, List.nil_prefix⟩
        · exact Tree.cons_prefix_drop.mpr ⟨atHash, List.nil_prefix⟩
        · simp [Cursor.advance, Cursor.skipHash, Cursor.skipBit, Tree.Pruned.bits,
            Tree.Pruned.hashes, Tree.Pruned.matched]
      · obtain ⟨child, ⟨bits, hashes⟩, distinct, rfl, rfl⟩ := (ih (by omega) left).mp extracted
        rcases rest with ⟨more, other, beside, twins, rfl⟩ | ⟨last, rfl, rfl⟩
        · obtain ⟨sibling, ⟨bits', hashes'⟩, distinct', rfl, rfl⟩ := (ih (by omega) more).mp beside
          refine ⟨.branch child sibling more, ⟨?_, ?_⟩, ⟨distinct, distinct', twins⟩, rfl, ?_⟩
          · exact Tree.cons_prefix_drop.mpr ⟨atBit, Tree.append_prefix_drop.mpr ⟨bits, bits'⟩⟩
          · exact Tree.append_prefix_drop.mpr ⟨hashes, hashes'⟩
          · rw [Cursor.advance_branch]
        · refine ⟨.single child last, ⟨?_, hashes⟩, distinct, rfl, ?_⟩
          · exact Tree.cons_prefix_drop.mpr ⟨atBit, bits⟩
          · rw [Cursor.advance_single]
    · rintro ⟨part, ⟨bits, hashes⟩, distinct, rfl, rfl⟩
      cases part with
      | hidden stored =>
        refine .inl ⟨(Tree.cons_prefix_drop.mp bits).1, (Tree.cons_prefix_drop.mp hashes).1, ?_⟩
        simp [Cursor.advance, Cursor.skipHash, Cursor.skipBit, Tree.Pruned.bits,
          Tree.Pruned.hashes, Tree.Pruned.matched]
      | single child last =>
        obtain ⟨atBit, bits⟩ := Tree.cons_prefix_drop.mp bits
        refine .inr ⟨atBit, _, _, (ih (by omega) left).mpr ⟨child, ⟨bits, hashes⟩, distinct, rfl, rfl⟩,
          .inr ⟨last, ?_, rfl⟩⟩
        rw [Cursor.advance_single]
      | branch child sibling more =>
        obtain ⟨atBit, bits⟩ := Tree.cons_prefix_drop.mp bits
        obtain ⟨bits, bits'⟩ := Tree.append_prefix_drop.mp bits
        obtain ⟨hashes, hashes'⟩ := Tree.append_prefix_drop.mp hashes
        obtain ⟨distinct, distinct', twins⟩ := distinct
        refine .inr ⟨atBit, _, _, (ih (by omega) left).mpr ⟨child, ⟨bits, hashes⟩, distinct, rfl, rfl⟩,
          .inl ⟨more, _, (ih (by omega) more).mpr ⟨sibling, ⟨bits', hashes'⟩, distinct', rfl, ?_⟩,
            twins, rfl⟩⟩
        rw [Cursor.advance_branch]

/-- The counts an extraction accepts before and after it has read `part`. -/
structure Accepts (tree : PartialMerkleTree) (part : Tree.Pruned (ByteArr 32) n height pos) : Prop where
  some_transactions : tree.numTransactions ≠ 0
  few_transactions : tree.numTransactions.toNat ≤ maxBlockWeight / minTransactionWeight
  few_hashes : tree.hashes.toList.length % 2 ^ 32 ≤ tree.numTransactions.toNat
  enough_bits : tree.hashes.toList.length ≤ tree.bits.toList.length
  bits_fit : tree.bits.toList.length % 2 ^ 32 + 7 < 2 ^ 32
  bits_consumed : (part.bits.length + 7) / 8 = (tree.bits.toList.length % 2 ^ 32 + 7) / 8
  hashes_consumed : part.hashes.length = tree.hashes.toList.length % 2 ^ 32

theorem few_lt (few : n ≤ maxBlockWeight / minTransactionWeight) : n < 2 ^ 31 :=
  lt_of_le_of_lt few (by decide)

theorem numTransactions_pos {tree : PartialMerkleTree} (counted : tree.numTransactions ≠ 0) :
    0 < tree.numTransactions.toNat := by
  rw [Nat.pos_iff_ne_zero]
  exact fun zero => counted (UInt32.toNat_inj.mp zero)

theorem extractMatches_eq_ok {tree : PartialMerkleTree} {root : ByteArr 32}
    {matched : List (ByteArr 32)} {indexes : List Nat} :
    tree.extractMatches engine = .ok (root, matched, indexes) ↔
      ∃ part : Tree.Pruned (ByteArr 32) tree.numTransactions.toNat
          (treeHeight tree.numTransactions.toNat) 0,
        tree.Accepts part ∧ tree.Lists ⟨0, 0, [], []⟩ part ∧ part.Distinct (hashPair engine) ∧
          root = part.hash (hashPair engine) ∧ matched = part.matched.map Prod.fst ∧
          indexes = part.matched.map Prod.snd := by
  simp only [extractMatches]
  constructor
  · intro extracted
    split_ifs at extracted with empty many hashes bits
    simp only [Wire.bind_eq_ok, orPanic_eq_ok] at extracted
    obtain ⟨height, climbed, ⟨hash, cursor⟩, traversed, rounded, fits, checked⟩ := extracted
    have small := few_lt (not_lt.mp many)
    obtain rfl : treeHeight tree.numTransactions.toNat = height := by
      rw [calcTreeHeight_eq small] at climbed
      exact Option.some.inj climbed
    obtain ⟨part, listed, distinct, rfl, rfl⟩ := (traverseAndExtract_eq_ok engine small le_rfl
      (Tree.width_pos (numTransactions_pos empty) _)).mp traversed
    rw [u32] at fits
    split_ifs at fits with room
    obtain rfl := Option.some.inj fits
    split_ifs at checked with leftBits leftHashes
    obtain ⟨rfl, rest⟩ := Prod.mk.inj (Except.ok.inj checked)
    obtain ⟨rfl, rfl⟩ := Prod.mk.inj rest
    simp only [Cursor.advance, Nat.zero_add, not_not] at leftBits leftHashes
    exact ⟨part, ⟨empty, not_lt.mp many, not_lt.mp hashes, not_lt.mp bits, room, leftBits,
      leftHashes⟩, listed, distinct, rfl, List.nil_append _, List.nil_append _⟩
  · rintro ⟨part, accepts, listed, distinct, rfl, rfl, rfl⟩
    have small := few_lt accepts.few_transactions
    have traversed := (traverseAndExtract_eq_ok engine small le_rfl
      (Tree.width_pos (numTransactions_pos accepts.some_transactions) _)).mpr
      ⟨part, listed, distinct, rfl, rfl⟩
    rw [if_neg accepts.some_transactions, if_neg (not_lt.mpr accepts.few_transactions),
      if_neg (not_lt.mpr accepts.few_hashes), if_neg (not_lt.mpr accepts.enough_bits)]
    simp only [Wire.bind_eq_ok, orPanic_eq_ok]
    refine ⟨_, calcTreeHeight_eq small, _, traversed, _, u32_eq accepts.bits_fit, ?_⟩
    simp only [Cursor.advance, Nat.zero_add, List.nil_append, ← accepts.bits_consumed,
      ← accepts.hashes_consumed, ne_eq, not_true_eq_false, if_false]

/-- The tree an extraction reads. -/
def pruned (tree : PartialMerkleTree) : Option (Tree.Pruned (ByteArr 32) tree.numTransactions.toNat
    (treeHeight tree.numTransactions.toNat) 0) :=
  (Tree.Pruned.read _ _ _ tree.bits.toList tree.hashes.toList).map Prod.fst

theorem Lists.pruned_eq {tree : PartialMerkleTree} {part : Tree.Pruned (ByteArr 32)
      tree.numTransactions.toNat (treeHeight tree.numTransactions.toNat) 0}
    (listed : tree.Lists ⟨0, 0, [], []⟩ part) : tree.pruned = some part := by
  obtain ⟨⟨bits, sameBits⟩, ⟨hashes, sameHashes⟩⟩ := listed
  rw [List.drop_zero] at sameBits sameHashes
  rw [PartialMerkleTree.pruned, ← sameBits, ← sameHashes, Tree.Pruned.read_listing]
  rfl

/-- The pairs an extraction hashes. -/
def extractedPairs (tree : PartialMerkleTree) : List (ByteArr 32 × ByteArr 32) :=
  (tree.pruned.map (·.pairs (hashPair engine))).getD []

/-- The pairs hashed for the merkle root of `txids`. -/
def rootPairs (txids : List (ByteArr 32)) : List (ByteArr 32 × ByteArr 32) :=
  Tree.combined (hashPair engine) txids (treeHeight txids.length)

/-- A tree that shows the root of `txids` can only report them, whatever its bits and
hashes, as long as the pair hash is injective on the pairs hashed on either side. -/
theorem extractMatches_sound {tree : PartialMerkleTree} {txids : List (ByteArr 32)}
    (count : txids.length = tree.numTransactions.toNat)
    (injective : Set.InjOn (Function.uncurry (hashPair engine))
      {pair | pair ∈ tree.extractedPairs engine ∨ pair ∈ rootPairs engine txids})
    {root : ByteArr 32} {matched : List (ByteArr 32)} {indexes : List Nat}
    (extracted : tree.extractMatches engine = .ok (root, matched, indexes))
    (sameRoot : calculateRoot engine txids = some root) :
    List.Forall₂ (fun txid index => txids[index]? = some txid) matched indexes ∧
    indexes.Pairwise (· < ·) ∧ ∀ index ∈ indexes, index < tree.numTransactions.toNat := by
  obtain ⟨part, accepts, listed, -, rfl, rfl, rfl⟩ := (extractMatches_eq_ok engine).mp extracted
  have positive := numTransactions_pos accepts.some_transactions
  have top := Tree.width_pos positive (treeHeight tree.numTransactions.toNat)
  have found : (Tree.level (hashPair engine) txids (treeHeight tree.numTransactions.toNat))[0]? =
      some (part.hash (hashPair engine)) := by
    rw [← sameRoot, calculateRoot_eq, ← count]
    exact (Tree.root_eq_level _ (width_treeHeight _) fun _ => width_below_treeHeight).symm
  have honest : part.Honest (hashPair engine) txids := by
    refine Tree.Pruned.honest_of_hash count le_rfl ?_ found
    rwa [extractedPairs, listed.pruned_eq, rootPairs, count] at injective
  obtain ⟨ordered, bounded⟩ := part.matched_positions top
  refine ⟨?_, ordered, ?_⟩
  · rw [List.forall₂_map_left_iff, List.forall₂_map_right_iff, List.forall₂_same]
    exact honest.matched_eq
  · intro index member
    obtain ⟨entry, reported, rfl⟩ := List.mem_map.mp member
    exact (bounded entry reported).2.2

/-- A proof for the second transaction of block 80000, as it is decoded. -/
def proof80000 : PartialMerkleTree where
  numTransactions := 2
  bits := ⟨[true, false, true, false, false, false, false, false], by decide⟩
  hashes := ⟨txids80000, by decide⟩

theorem proof80000_injective : Set.InjOn (Function.uncurry (hashPair engine80000))
    {pair | pair ∈ proof80000.extractedPairs engine80000 ∨ pair ∈ rootPairs engine80000 txids80000} := by
  have extracted : ∀ pair ∈ proof80000.extractedPairs engine80000,
      some pair.1 = txids80000[0]? ∧ some pair.2 = txids80000[1]? := by decide
  have combined : ∀ pair ∈ rootPairs engine80000 txids80000,
      some pair.1 = txids80000[0]? ∧ some pair.2 = txids80000[1]? := by decide
  intro first memberFirst second memberSecond _
  have left := memberFirst.elim (extracted first) (combined first)
  have right := memberSecond.elim (extracted second) (combined second)
  exact Prod.ext (Option.some.inj (left.1.trans right.1.symm))
    (Option.some.inj (left.2.trans right.2.symm))

theorem proof80000_sound : ∃ root matched indexes,
    proof80000.extractMatches engine80000 = .ok (root, matched, indexes) ∧
    calculateRoot engine80000 txids80000 = some root ∧ matched ≠ [] ∧
    List.Forall₂ (fun txid index => txids80000[index]? = some txid) matched indexes ∧
    indexes.Pairwise (· < ·) ∧ ∀ index ∈ indexes, index < proof80000.numTransactions.toNat := by
  have extracted : proof80000.extractMatches engine80000 =
      .ok (engine80000 [], txids80000.drop 1, [1]) := by decide
  have sameRoot : calculateRoot engine80000 txids80000 = some (engine80000 []) := by decide
  exact ⟨_, _, _, extracted, sameRoot, by decide,
    extractMatches_sound engine80000 rfl proof80000_injective extracted sameRoot⟩

end PartialMerkleTree
end Litecoin.MerkleTree
