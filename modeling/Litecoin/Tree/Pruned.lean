import Litecoin.Tree.Levels

/-! Trees with some subtrees cut off and replaced by their hash, as a depth-first
listing of one bit a node and one hash a cut. The tree a listing stands for, what its
root says about the leaves, and which leaves it points out. -/
namespace Litecoin.Tree

theorem cons_prefix_drop {a : α} {tail whole : List α} {i : Nat} :
    a :: tail <+: whole.drop i ↔ whole[i]? = some a ∧ tail <+: whole.drop (i + 1) := by
  by_cases inside : i < whole.length
  · rw [List.drop_eq_getElem_cons inside, List.cons_prefix_cons, List.getElem?_eq_getElem inside,
      Option.some.injEq, eq_comm]
  · rw [List.drop_of_length_le (by omega), List.getElem?_eq_none (by omega)]
    simp

theorem append_prefix_drop {front tail whole : List α} {i : Nat} :
    front ++ tail <+: whole.drop i ↔
      front <+: whole.drop i ∧ tail <+: whole.drop (i + front.length) := by
  induction front generalizing i with
  | nil => simp
  | cons a front ih =>
    rw [List.cons_append, cons_prefix_drop, ih, cons_prefix_drop, List.length_cons, and_assoc,
      Nat.add_assoc, Nat.add_comm 1]

/-- The part of a tree over `n` leaves below the node `pos` of level `height`. A node
has a right child exactly when the level below reaches that far. -/
inductive Pruned (α : Type*) (n : Nat) : (height pos : Nat) → Type _
  | leaf (hash : α) (matched : Bool) : Pruned α n 0 pos
  | hidden (hash : α) : Pruned α n (height + 1) pos
  | single (child : Pruned α n height (2 * pos)) (last : ¬ 2 * pos + 1 < width n height) :
      Pruned α n (height + 1) pos
  | branch (left : Pruned α n height (2 * pos)) (right : Pruned α n height (2 * pos + 1))
      (inside : 2 * pos + 1 < width n height) : Pruned α n (height + 1) pos

namespace Pruned
variable {α : Type*} {n height pos : Nat} (pair : α → α → α)

def hash : {height pos : Nat} → Pruned α n height pos → α
  | _, _, .leaf hash _ => hash
  | _, _, .hidden hash => hash
  | _, _, .single child _ => pair child.hash child.hash
  | _, _, .branch left right _ => pair left.hash right.hash

/-- The pairs that are combined for the hash. -/
def pairs : {height pos : Nat} → Pruned α n height pos → List (α × α)
  | _, _, .leaf _ _ => []
  | _, _, .hidden _ => []
  | _, _, .single child _ => (child.hash pair, child.hash pair) :: child.pairs
  | _, _, .branch left right _ => (left.hash pair, right.hash pair) :: left.pairs ++ right.pairs

/-- No node has two equal children. -/
def Distinct : {height pos : Nat} → Pruned α n height pos → Prop
  | _, _, .leaf _ _ => True
  | _, _, .hidden _ => True
  | _, _, .single child _ => child.Distinct
  | _, _, .branch left right _ => left.Distinct ∧ right.Distinct ∧ right.hash pair ≠ left.hash pair

def bits : {height pos : Nat} → Pruned α n height pos → List Bool
  | _, _, .leaf _ matched => [matched]
  | _, _, .hidden _ => [false]
  | _, _, .single child _ => true :: child.bits
  | _, _, .branch left right _ => true :: (left.bits ++ right.bits)

def hashes : {height pos : Nat} → Pruned α n height pos → List α
  | _, _, .leaf hash _ => [hash]
  | _, _, .hidden hash => [hash]
  | _, _, .single child _ => child.hashes
  | _, _, .branch left right _ => left.hashes ++ right.hashes

/-- The matched leaves with their positions. -/
def matched : {height pos : Nat} → Pruned α n height pos → List (α × Nat)
  | _, pos, .leaf hash true => [(hash, pos)]
  | _, _, .leaf _ false => []
  | _, _, .hidden _ => []
  | _, _, .single child _ => child.matched
  | _, _, .branch left right _ => left.matched ++ right.matched

/-- The tree at the front of a listing, and what follows it. -/
def read (n : Nat) : (height pos : Nat) → List Bool → List α →
    Option (Pruned α n height pos × List Bool × List α)
  | 0, _, bit :: bits, hash :: hashes => some (.leaf hash bit, bits, hashes)
  | _ + 1, _, false :: bits, hash :: hashes => some (.hidden hash, bits, hashes)
  | height + 1, pos, true :: bits, hashes => do
    let (left, bits, hashes) ← read n height (2 * pos) bits hashes
    if inside : 2 * pos + 1 < width n height then do
      let (right, bits, hashes) ← read n height (2 * pos + 1) bits hashes
      some (.branch left right inside, bits, hashes)
    else some (.single left inside, bits, hashes)
  | _, _, _, _ => none

/-- Every listing is read back, whatever follows it. -/
theorem read_listing (tree : Pruned α n height pos) (bits : List Bool) (hashes : List α) :
    read n height pos (tree.bits ++ bits) (tree.hashes ++ hashes) = some (tree, bits, hashes) := by
  induction tree generalizing bits hashes with
  | leaf hash matched => simp [read, Pruned.bits, Pruned.hashes]
  | hidden hash => simp [read, Pruned.bits, Pruned.hashes]
  | single child last ih => simp [read, Pruned.bits, Pruned.hashes, ih, last]
  | branch left right inside ihLeft ihRight =>
    simp [read, Pruned.bits, Pruned.hashes, ihLeft, ihRight, inside]

theorem hashes_length_le (tree : Pruned α n height pos) : tree.hashes.length ≤ tree.bits.length := by
  induction tree with
  | leaf hash matched => simp [hashes, bits]
  | hidden hash => simp [hashes, bits]
  | single child last ih =>
    simp only [hashes, bits, List.length_cons]
    omega
  | branch left right inside ihLeft ihRight =>
    simp only [hashes, bits, List.length_cons, List.length_append]
    omega

/-- A subtree has fewer nodes than twice its leaves. -/
theorem bits_length_lt (tree : Pruned α n height pos) : tree.bits.length < 2 ^ (height + 1) := by
  induction tree with
  | leaf hash matched => simp [bits]
  | @hidden height pos hash =>
    have positive := Nat.two_pow_pos height
    rw [bits, List.length_singleton, pow_succ, pow_succ]
    omega
  | single child last ih =>
    rw [bits, List.length_cons, pow_succ]
    omega
  | branch left right inside ihLeft ihRight =>
    rw [bits, List.length_cons, List.length_append, pow_succ]
    omega

/-- Every hash covers a leaf of its own. -/
theorem hashes_length_covered (tree : Pruned α n height pos) (reached : pos < width n height) :
    tree.hashes.length ≤ min n ((pos + 1) * 2 ^ height) - pos * 2 ^ height := by
  induction tree with
  | leaf hash matched =>
    rw [width_zero] at reached
    simp only [hashes, List.length_singleton, pow_zero, mul_one]
    omega
  | @hidden height pos hash =>
    have positive := Nat.two_pow_pos (height + 1)
    rw [lt_width] at reached
    simp only [hashes, List.length_singleton, add_one_mul]
    omega
  | @single height pos child last ih =>
    have below := ih (left_lt_width reached)
    simp only [left_start, right_start, span_end, hashes] at below ⊢
    omega
  | @branch height pos left right inside ihLeft ihRight =>
    have below := ihLeft (left_lt_width reached)
    have beside := ihRight inside
    rw [lt_width] at inside
    simp only [left_start, right_start, right_end, span_end, hashes, List.length_append]
      at below beside inside ⊢
    omega

/-- Matched positions increase, and stay below the node and inside the tree. -/
theorem matched_positions (tree : Pruned α n height pos) (reached : pos < width n height) :
    (tree.matched.map Prod.snd).Pairwise (· < ·) ∧ ∀ entry ∈ tree.matched,
      pos * 2 ^ height ≤ entry.2 ∧ entry.2 < (pos + 1) * 2 ^ height ∧ entry.2 < n := by
  induction tree with
  | leaf hash matched =>
    rw [width_zero] at reached
    cases matched <;> simp [Pruned.matched, reached]
  | hidden hash => simp [Pruned.matched]
  | @single height pos child last ih =>
    obtain ⟨ordered, inside⟩ := ih (left_lt_width reached)
    refine ⟨ordered, fun entry member => ?_⟩
    have bounds := inside entry member
    simp only [left_start, right_start, span_end] at bounds ⊢
    omega
  | @branch height pos left right inside ihLeft ihRight =>
    obtain ⟨orderedLeft, insideLeft⟩ := ihLeft (left_lt_width reached)
    obtain ⟨orderedRight, insideRight⟩ := ihRight inside
    simp only [left_start, right_start, right_end] at insideLeft insideRight
    simp only [Pruned.matched, List.map_append, List.pairwise_append, List.mem_append, span_end]
    refine ⟨⟨orderedLeft, orderedRight, ?_⟩, ?_⟩
    · intro first memberFirst second memberSecond
      obtain ⟨entryLeft, member, rfl⟩ := List.mem_map.mp memberFirst
      obtain ⟨entryRight, member', rfl⟩ := List.mem_map.mp memberSecond
      exact lt_of_lt_of_le (insideLeft _ member).2.1 (insideRight _ member').1
    · rintro entry (member | member)
      · have bounds := insideLeft entry member
        omega
      · have bounds := insideRight entry member
        omega

/-- Every hash is the node of the tree over `leaves` it stands for. -/
def Honest (leaves : List α) : {height pos : Nat} → Pruned α n height pos → Prop
  | _, pos, .leaf hash _ => leaves[pos]? = some hash
  | height + 1, pos, .hidden hash => (level pair leaves (height + 1))[pos]? = some hash
  | _, _, .single child _ => child.Honest leaves
  | _, _, .branch left right _ => left.Honest leaves ∧ right.Honest leaves

variable {pair}

theorem Honest.hash_eq {leaves : List α} (count : leaves.length = n) {tree : Pruned α n height pos}
    (honest : tree.Honest pair leaves) :
    (level pair leaves height)[pos]? = some (tree.hash pair) := by
  induction tree with
  | leaf hash matched => exact honest
  | hidden hash => exact honest
  | @single height pos child last ih =>
    have absent : (level pair leaves height)[2 * pos + 1]? = none := by
      rw [List.getElem?_eq_none_iff, length_level, count]
      omega
    rw [getElem?_level_succ, ih honest, absent]
    rfl
  | branch left right inside ihLeft ihRight =>
    rw [getElem?_level_succ, ihLeft honest.1, ihRight honest.2]
    rfl

/-- Without collisions the hash of a node determines everything below it. -/
theorem honest_of_hash {leaves : List α} {top : Nat} (count : leaves.length = n)
    {tree : Pruned α n height pos} (bound : height ≤ top)
    (injective : Set.InjOn (Function.uncurry pair)
      {x | x ∈ tree.pairs pair ∨ x ∈ combined pair leaves top})
    (found : (level pair leaves height)[pos]? = some (tree.hash pair)) :
    tree.Honest pair leaves := by
  induction tree with
  | leaf hash matched => exact found
  | hidden hash => exact found
  | @single height pos child last ih =>
    rw [getElem?_level_succ] at found
    obtain ⟨left, foundLeft, same⟩ := Option.map_eq_some_iff.mp found
    have equal := injective (.inr (mem_combined pair bound foundLeft)) (.inl List.mem_cons_self) same
    refine ih (by omega) (injective.mono ?_) (foundLeft.trans (congrArg some (Prod.mk.inj equal).1))
    rintro x (member | member)
    · exact .inl (List.mem_cons_of_mem _ member)
    · exact .inr member
  | @branch height pos left right inside ihLeft ihRight =>
    rw [getElem?_level_succ] at found
    obtain ⟨node, foundLeft, same⟩ := Option.map_eq_some_iff.mp found
    have equal := injective (.inr (mem_combined pair bound foundLeft)) (.inl List.mem_cons_self) same
    have foundRight : (level pair leaves height)[2 * pos + 1]? = some (right.hash pair) := by
      rw [← count, ← length_level pair] at inside
      rw [List.getElem?_eq_getElem inside] at equal ⊢
      exact congrArg some (Prod.mk.inj equal).2
    refine ⟨ihLeft (by omega) (injective.mono ?_) (foundLeft.trans (congrArg some (Prod.mk.inj equal).1)),
      ihRight (by omega) (injective.mono ?_) foundRight⟩
    · rintro x (member | member)
      · exact .inl (List.mem_append_left _ (List.mem_cons_of_mem _ member))
      · exact .inr member
    · rintro x (member | member)
      · exact .inl (List.mem_append_right _ member)
      · exact .inr member

theorem Honest.matched_eq {leaves : List α} {tree : Pruned α n height pos}
    (honest : tree.Honest pair leaves) : ∀ entry ∈ tree.matched, leaves[entry.2]? = some entry.1 := by
  induction tree with
  | leaf hash matched =>
    cases matched with
    | false => simp [Pruned.matched]
    | true => simpa [Pruned.matched, Honest] using honest
  | hidden hash => simp [Pruned.matched]
  | single child last ih => exact ih honest
  | branch left right inside ihLeft ihRight =>
    rintro entry member
    rcases List.mem_append.mp member with member | member
    · exact ihLeft honest.1 entry member
    · exact ihRight honest.2 entry member

/-- Different leaves make different siblings when no two pairs collide. -/
theorem Honest.distinct {leaves : List α} {top : Nat} (count : leaves.length = n)
    (different : leaves.Nodup)
    (injective : Set.InjOn (Function.uncurry pair) {x | x ∈ combined pair leaves top})
    {tree : Pruned α n height pos} (bound : height ≤ top) (honest : tree.Honest pair leaves) :
    tree.Distinct pair := by
  induction tree with
  | leaf hash matched => trivial
  | hidden hash => trivial
  | single child last ih => exact ih (by omega) honest
  | @branch height pos left right inside ihLeft ihRight =>
    refine ⟨ihLeft (by omega) honest.1, ihRight (by omega) honest.2, fun equal => ?_⟩
    have nodes := getElem?_leaves_of_level pair injective (by omega)
      (honest.1.hash_eq count) (equal ▸ honest.2.hash_eq count)
    rw [lt_width, right_start, ← count] at inside
    rw [left_start, right_start] at nodes
    have positive := Nat.two_pow_pos height
    have positions := (List.getElem?_inj (by omega) different).mp nodes
    omega

/-- The bits point out exactly the marked leaves. -/
def Marked (marks : Nat → Bool) : {height pos : Nat} → Pruned α n height pos → Prop
  | _, pos, .leaf _ matched => matched = marks pos
  | height + 1, pos, .hidden _ =>
    ∀ i, pos * 2 ^ (height + 1) ≤ i → i < (pos + 1) * 2 ^ (height + 1) → i < n → marks i = false
  | _, _, .single child _ => child.Marked marks
  | _, _, .branch left right _ => left.Marked marks ∧ right.Marked marks

theorem Marked.matched_eq {leaves : List α} {marks : Nat → Bool} (count : leaves.length = n)
    {tree : Pruned α n height pos} (honest : tree.Honest pair leaves) (marked : tree.Marked marks) :
    tree.matched = ((List.range' (pos * 2 ^ height) (2 ^ height)).filter marks).filterMap
      fun i => leaves[i]?.map (·, i) := by
  induction tree with
  | @leaf pos hash matched =>
    simp only [Honest] at honest
    simp only [Marked] at marked
    subst marked
    cases mark : marks pos <;> simp [Pruned.matched, mark, honest]
  | @hidden height pos hash =>
    rw [Pruned.matched, eq_comm, List.filterMap_eq_nil_iff]
    intro i member
    obtain ⟨inside, mark⟩ := List.mem_filter.mp member
    obtain ⟨low, high⟩ := List.mem_range'_1.mp inside
    by_cases exists_ : i < n
    · have unmarked := marked i low (by rw [add_one_mul]; omega) exists_
      rw [unmarked] at mark
      contradiction
    · rw [List.getElem?_eq_none (by omega), Option.map_none]
  | @single height pos child last ih =>
    have beyond : ((List.range' (pos * 2 ^ (height + 1) + 2 ^ height) (2 ^ height)).filter
        marks).filterMap (fun i => leaves[i]?.map (·, i)) = [] := by
      rw [List.filterMap_eq_nil_iff]
      intro i member
      obtain ⟨low, high⟩ := List.mem_range'_1.mp (List.mem_filter.mp member).1
      rw [lt_width, right_start] at last
      rw [List.getElem?_eq_none (by omega), Option.map_none]
    rw [pow_succ 2 height, mul_two, ← List.range'_append_1, List.filter_append,
      List.filterMap_append, ← mul_two, ← pow_succ, beyond, List.append_nil, ← left_start]
    exact ih honest marked
  | @branch height pos left right inside ihLeft ihRight =>
    rw [pow_succ 2 height, mul_two, ← List.range'_append_1, List.filter_append,
      List.filterMap_append, ← mul_two, ← pow_succ, ← right_start, ← left_start, Pruned.matched,
      ihLeft honest.1 marked.1, ihRight honest.2 marked.2]

end Pruned
end Litecoin.Tree
