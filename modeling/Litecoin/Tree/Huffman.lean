import Litecoin.Tree.Walk

/-! Weighted path lengths, and the greedy construction of a tree with the least: two
lightest trees at a time become one, whichever of equally light ones are taken. -/
namespace Litecoin.Tree

/-- The sum of weight times depth. -/
def pathLength (weight : α → Nat) (entries : List (Nat × α)) : Nat :=
  (entries.map fun entry => entry.1 * weight entry.2).sum

section
variable {weight : α → Nat}

@[simp] theorem pathLength_nil : pathLength weight [] = 0 := rfl

@[simp] theorem pathLength_cons (entry : Nat × α) (rest : List (Nat × α)) :
    pathLength weight (entry :: rest) = entry.1 * weight entry.2 + pathLength weight rest :=
      List.sum_cons

@[simp] theorem pathLength_append (first second : List (Nat × α)) :
    pathLength weight (first ++ second) = pathLength weight first + pathLength weight second := by
  rw [pathLength, List.map_append, List.sum_append]
  rfl

namespace Binary

def map (f : α → β) : Binary α → Binary β
  | leaf label => leaf (f label)
  | node left right => node (left.map f) (right.map f)

theorem walk_map (f : α → β) (tree : Binary α) (depth : Nat) :
    (tree.map f).walk depth = (tree.walk depth).map (Prod.map id f) := by
  induction tree generalizing depth with
  | leaf label => rfl
  | node left right ihLeft ihRight => rw [map, walk, walk, ihLeft, ihRight, List.map_append]

def leaves (tree : Binary α) : List α := (tree.walk 0).map Prod.snd

def total (weight : α → Nat) (tree : Binary α) : Nat := (tree.leaves.map weight).sum

/-- The weighted path length. -/
def cost (weight : α → Nat) (tree : Binary α) : Nat := pathLength weight (tree.walk 0)

/-- A walk comes across the same leaves from wherever it starts. -/
theorem leaves_walk (tree : Binary α) (depth : Nat) : (tree.walk depth).map Prod.snd = tree.leaves := by
  rw [leaves]
  induction tree generalizing depth with
  | leaf label => rfl
  | node left right ihLeft ihRight =>
    rw [walk, walk, List.map_append, List.map_append, ihLeft, ihRight, ihLeft (0 + 1), ihRight (0 + 1)]

theorem leaves_node (left right : Binary α) :
    (node left right).leaves = left.leaves ++ right.leaves := by
  rw [leaves, walk, List.map_append, leaves_walk, leaves_walk]

theorem total_node (left right : Binary α) :
    (node left right).total weight = left.total weight + right.total weight := by
  rw [total, leaves_node, List.map_append, List.sum_append]
  rfl

/-- Every leaf is as much deeper as the root is. -/
theorem pathLength_walk (tree : Binary α) (depth : Nat) :
    pathLength weight (tree.walk depth) = tree.cost weight + depth * tree.total weight := by
  rw [cost]
  induction tree generalizing depth with
  | leaf label => simp [walk, total, leaves]
  | node left right ihLeft ihRight =>
    rw [walk, walk, pathLength_append, pathLength_append, ihLeft, ihRight, ihLeft (0 + 1),
      ihRight (0 + 1),
      total_node]
    ring

theorem cost_leaf (label : α) : (leaf label).cost weight = 0 := by
  rw [cost, walk, pathLength_cons, pathLength_nil, Nat.zero_mul]

theorem cost_node (left right : Binary α) : (node left right).cost weight =
    left.cost weight + right.cost weight + (left.total weight + right.total weight) := by
  rw [cost, walk, pathLength_append, pathLength_walk, pathLength_walk]
  ring

/-- Two siblings stand deepest, next to each other in a walk, and can be merged. -/
theorem exists_deepest {tree : Binary α} (several : 0 < tree.height) (depth : Nat) :
    ∃ front back bottom first second,
      tree.walk depth = front ++ (bottom + 1, first) :: (bottom + 1, second) :: back ∧
      bottom + 1 = depth + tree.height ∧
      ∀ label, ∃ merged : Binary α, merged.walk depth = front ++ (bottom, label) :: back := by
  induction tree generalizing depth with
  | leaf label => exact absurd several (Nat.lt_irrefl 0)
  | node left right ihLeft ihRight =>
    rcases Nat.lt_or_ge left.height right.height with lower | higher
    · obtain ⟨front, back, bottom, first, second, walked, deepest, merge⟩ :=
        ihRight (by omega) (depth + 1)
      refine ⟨left.walk (depth + 1) ++ front, back, bottom, first, second, ?_, ?_, fun label => ?_⟩
      · rw [walk, walked, List.append_assoc]
      · rw [height]
        omega
      · obtain ⟨merged, same⟩ := merge label
        exact ⟨.node left merged, by rw [walk, same, List.append_assoc]⟩
    · rcases Nat.eq_zero_or_pos left.height with flat | several
      · -- neither child can be lower
        cases left with
        | node _ _ => exact absurd flat (Nat.succ_ne_zero _)
        | leaf first =>
          cases right with
          | node _ _ => exact absurd (higher.trans flat.le) (Nat.not_succ_le_zero _)
          | leaf second =>
            exact ⟨[], [], depth, first, second, rfl, rfl, fun label => ⟨.leaf label, rfl⟩⟩
      · obtain ⟨front, back, bottom, first, second, walked, deepest, merge⟩ :=
          ihLeft several (depth + 1)
        refine ⟨front, back ++ right.walk (depth + 1), bottom, first, second, ?_, ?_, fun label => ?_⟩
        · rw [walk, walked, List.append_assoc]
          rfl
        · rw [height]
          omega
        · obtain ⟨merged, same⟩ := merge label
          exact ⟨.node merged right, by rw [walk, same, List.append_assoc]; rfl⟩

end Binary

/-- A lighter label takes a lower place: the label there goes to where the lighter one was. -/
theorem exchange {entries : List (Nat × α)} {bottom : Nat} {deep light : α} {others : List α}
    (shallow : ∀ entry ∈ entries, entry.1 ≤ bottom)
    (labels : (deep :: entries.map Prod.snd).Perm (light :: others))
    (lightest : ∀ other ∈ others, weight light ≤ weight other) :
    ∃ exchanged : List (Nat × α), exchanged.map Prod.fst = entries.map Prod.fst ∧
      (exchanged.map Prod.snd).Perm others ∧
      pathLength weight exchanged + bottom * weight light ≤
        pathLength weight entries + bottom * weight deep := by
  have listed : light ∈ deep :: entries.map Prod.snd := labels.symm.subset List.mem_cons_self
  rcases List.mem_cons.mp listed with rfl | elsewhere
  · exact ⟨entries, rfl, labels.cons_inv, le_rfl⟩
  · obtain ⟨⟨depth, other⟩, member, same⟩ := List.mem_map.mp elsewhere
    obtain rfl : other = light := same
    obtain ⟨front, back, rfl⟩ := List.append_of_mem member
    have above : depth ≤ bottom := shallow _ member
    rw [List.map_append, List.map_cons] at labels
    have swapped : (front.map Prod.snd ++ deep :: back.map Prod.snd).Perm others := by
      have swap := calc
        (other :: (front.map Prod.snd ++ deep :: back.map Prod.snd)).Perm
            (other :: deep :: (front.map Prod.snd ++ back.map Prod.snd)) := List.perm_middle.cons _
        _ |>.Perm (deep :: other :: (front.map Prod.snd ++ back.map Prod.snd)) := .swap _ _ _
        _ |>.Perm (deep :: (front.map Prod.snd ++ other :: back.map Prod.snd)) :=
          List.perm_middle.symm.cons _
      exact (swap.trans labels).cons_inv
    have heavier : weight other ≤ weight deep :=
      lightest deep (swapped.subset (List.mem_append_right _ List.mem_cons_self))
    refine ⟨front ++ (depth, deep) :: back, ?_, ?_, ?_⟩
    · simp only [List.map_append, List.map_cons]
    · simpa only [List.map_append, List.map_cons] using swapped
    · have rearranged := mul_add_mul_le_mul_add_mul above heavier
      rw [pathLength_append, pathLength_append, pathLength_cons, pathLength_cons]
      dsimp only
      omega

/-- Two lightest labels take the two lowest places. -/
theorem exchange_two {entries : List (Nat × α)} {bottom : Nat} {deep deeper light lighter : α}
    {others : List α} (shallow : ∀ entry ∈ entries, entry.1 ≤ bottom)
    (labels : (deep :: deeper :: entries.map Prod.snd).Perm (light :: lighter :: others))
    (ordered : weight light ≤ weight lighter)
    (lightest : ∀ other ∈ others, weight light ≤ weight other ∧ weight lighter ≤ weight other) :
    ∃ exchanged : List (Nat × α), exchanged.map Prod.fst = entries.map Prod.fst ∧
      (exchanged.map Prod.snd).Perm others ∧
      pathLength weight exchanged + bottom * (weight light + weight lighter) ≤
        pathLength weight entries + bottom * (weight deep + weight deeper) := by
  -- the place beside the deepest label is an entry like others for the first exchange
  have shallow₂ : ∀ entry ∈ (bottom, deeper) :: entries, entry.1 ≤ bottom :=
    List.forall_mem_cons.mpr ⟨le_rfl, shallow⟩
  obtain ⟨once, depths, rest, cheaper⟩ := exchange shallow₂ labels
    (List.forall_mem_cons.mpr ⟨ordered, fun other member => (lightest other member).1⟩)
  obtain ⟨⟨depth, beside⟩, between, rfl, place, same⟩ := List.map_eq_cons_iff.mp depths
  obtain rfl : depth = bottom := place
  have shallow' : ∀ entry ∈ between, entry.1 ≤ depth := by
    intro entry member
    have listed : entry.1 ∈ entries.map Prod.fst := same ▸ List.mem_map_of_mem member
    obtain ⟨other, found, eq⟩ := List.mem_map.mp listed
    exact eq ▸ shallow other found
  obtain ⟨twice, depths', labels', cheaper'⟩ := exchange shallow' rest
    fun other member => (lightest other member).2
  refine ⟨twice, depths'.trans same, labels', ?_⟩
  rw [pathLength_cons, pathLength_cons] at cheaper
  dsimp only at cheaper
  linarith

namespace Binary

/-- Two lightest labels can be merged into one of their joint weight. -/
theorem exists_merged {tree : Binary α} {light lighter joint : α} {others : List α}
    (labels : tree.leaves.Perm (light :: lighter :: others))
    (lightest : ∀ other ∈ others, weight light ≤ weight other ∧ weight lighter ≤ weight other)
    (sum : weight joint = weight light + weight lighter) :
    ∃ merged : Binary α, merged.leaves.Perm (joint :: others) ∧
      merged.cost weight + (weight light + weight lighter) ≤ tree.cost weight := by
  wlog ordered : weight light ≤ weight lighter generalizing light lighter
  · obtain ⟨merged, leaves, cheaper⟩ := this (labels.trans (.swap _ _ _))
      (fun other member => (lightest other member).symm) (by rw [sum, Nat.add_comm])
      (le_of_not_ge ordered)
    exact ⟨merged, leaves, by omega⟩
  have several : 0 < tree.height := by
    cases tree with
    | leaf label => exact absurd labels.length_eq (by simp [leaves, walk])
    | node left right => exact Nat.succ_pos _
  obtain ⟨front, back, bottom, first, second, walked, deepest, merge⟩ := exists_deepest several 0
  have shallow : ∀ entry ∈ front ++ back, entry.1 ≤ bottom + 1 := by
    intro entry member
    refine height_le_iff.mp deepest.ge entry ?_
    rw [walked]
    rcases List.mem_append.mp member with before | after
    · exact List.mem_append_left _ before
    · exact List.mem_append_right _ (List.mem_cons_of_mem _ (List.mem_cons_of_mem _ after))
  have places :
      (first :: second :: (front ++ back).map Prod.snd).Perm (light :: lighter :: others) := by
    refine List.Perm.trans ?_ labels
    rw [leaves, walked]
    simp only [List.map_cons, List.map_append]
    exact (List.perm_middle.trans (List.perm_middle.cons _)).symm
  obtain ⟨final, depths, finalLabels, cheaper⟩ := exchange_two shallow places ordered lightest
  obtain ⟨before, after, rfl, frontDepths, backDepths⟩ :=
    List.map_eq_append_iff.mp (depths.trans List.map_append)
  obtain ⟨shape, shaped⟩ := merge first
  have fitting : (before ++ (bottom, joint) :: after).map Prod.fst = (shape.walk 0).map Prod.fst := by
    rw [shaped, List.map_append, List.map_append, List.map_cons, List.map_cons, frontDepths, backDepths]
  obtain ⟨merged, same⟩ := exists_walk_eq fitting
  refine ⟨merged, ?_, ?_⟩
  · rw [leaves, same, List.map_append, List.map_cons]
    rw [List.map_append] at finalLabels
    exact List.perm_middle.trans (finalLabels.cons _)
  · rw [cost, cost, same, walked]
    simp only [pathLength_append, pathLength_cons, sum] at cheaper ⊢
    linarith

/-- No tree over the same leaves has a lower cost. -/
def Optimal (weight : α → Nat) (tree : Binary α) : Prop :=
  ∀ other : Binary α, other.leaves.Perm tree.leaves → tree.cost weight ≤ other.cost weight

end Binary

/-- A run of the greedy construction: as long as there are several trees, two that none of
the others is lighter than become one. -/
inductive Greedy (weight : α → Nat) : List (Binary α) → Binary α → Prop where
  | done (tree : Binary α) : Greedy weight [tree] tree
  | merge (first second : Binary α) (taken : forest.Perm (first :: second :: rest))
      (lightest : ∀ other ∈ rest, first.total weight ≤ other.total weight ∧
        second.total weight ≤ other.total weight)
      (later : Greedy weight (.node first second :: rest) tree) : Greedy weight forest tree

theorem Greedy.leaves_perm {forest : List (Binary α)} {tree : Binary α}
    (greedy : Greedy weight forest tree) : tree.leaves.Perm (forest.flatMap Binary.leaves) := by
  induction greedy with
  | done tree => rw [List.flatMap_cons, List.flatMap_nil, List.append_nil]
  | merge first second taken _ _ ih =>
    refine ih.trans (.trans ?_ (taken.flatMap_right _).symm)
    rw [List.flatMap_cons, List.flatMap_cons, List.flatMap_cons, Binary.leaves_node, List.append_assoc]

/-- What is built costs no more than any other way to build upon the trees there are. -/
theorem Greedy.cost_le {forest : List (Binary α)} {tree : Binary α} (greedy : Greedy weight forest tree)
    {above : Binary (Binary α)} (labels : above.leaves.Perm forest) :
    tree.cost weight ≤ (forest.map (Binary.cost weight)).sum + above.cost (Binary.total weight) := by
  induction greedy generalizing above with
  | done tree => rw [List.map_singleton, List.sum_singleton]; exact Nat.le_add_right _ _
  | merge first second taken lightest _ ih =>
    obtain ⟨merged, leaves, cheaper⟩ := Binary.exists_merged (labels.trans taken) lightest
      (Binary.total_node first second)
    have bound := ih leaves
    rw [List.map_cons, List.sum_cons, Binary.cost_node] at bound
    rw [(taken.map _).sum_eq, List.map_cons, List.map_cons, List.sum_cons, List.sum_cons]
    omega

/-- From single leaves the construction leads to a tree of the least cost. -/
theorem Greedy.optimal {items : List α} {tree : Binary α}
    (greedy : Greedy weight (items.map .leaf) tree) : tree.leaves.Perm items ∧ tree.Optimal weight := by
  have leaves : tree.leaves.Perm items := by
    have all := greedy.leaves_perm
    rw [List.flatMap_map] at all
    simpa [Binary.leaves, Binary.walk] using all
  refine ⟨leaves, fun other same => ?_⟩
  have labels : (other.map Binary.leaf).leaves.Perm (items.map Binary.leaf) := by
    have mapped := (same.trans leaves).map Binary.leaf
    rw [Binary.leaves, List.map_map] at mapped
    rw [Binary.leaves, Binary.walk_map, List.map_map]
    exact mapped
  have single : (other.map Binary.leaf).cost (Binary.total weight) = other.cost weight := by
    rw [Binary.cost, Binary.cost, Binary.walk_map, pathLength, pathLength, List.map_map]
    rfl
  have free : ((items.map Binary.leaf).map (Binary.cost weight)).sum = 0 := by
    rw [List.map_map, List.sum_eq_zero]
    intro cost member
    obtain ⟨label, -, rfl⟩ := List.mem_map.mp member
    exact Binary.cost_leaf label
  have bound := greedy.cost_le labels
  rwa [free, single, Nat.zero_add] at bound

end
end Litecoin.Tree
