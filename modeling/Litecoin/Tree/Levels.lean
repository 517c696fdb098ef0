import Mathlib.Data.List.Basic
import Mathlib.Data.Nat.Log
import Mathlib.Data.Set.Function
import Mathlib.Tactic.Ring

/-! Binary trees given by their levels: adjacent nodes are paired level by level, and
the last node of an odd level is paired with itself. Any pairing of any nodes. -/
namespace Litecoin.Tree

/-- The number of nodes `height` levels above `n` leaves. -/
def width (n height : Nat) : Nat := (n + 2 ^ height - 1) / 2 ^ height

theorem width_zero (n : Nat) : width n 0 = n := by
  simp [width]

theorem width_succ (n height : Nat) : width n (height + 1) = (width n height + 1) / 2 := by
  have positive := Nat.two_pow_pos height
  have shifted : n + 2 ^ (height + 1) - 1 = (n + 2 ^ height - 1) + 2 ^ height := by
    rw [pow_succ]; omega
  rw [width, width, shifted, pow_succ, ← Nat.div_div_eq_div_mul,
    Nat.add_div_right _ positive]

theorem width_pos {n : Nat} (positive : 0 < n) (height : Nat) : 0 < width n height := by
  induction height with
  | zero => rwa [width_zero]
  | succ height ih => rw [width_succ]; omega

theorem width_le_one (n height : Nat) : width n height ≤ 1 ↔ n ≤ 2 ^ height := by
  have positive := Nat.two_pow_pos height
  rw [width, ← Nat.lt_succ_iff, Nat.div_lt_iff_lt_mul positive]
  omega

theorem width_le (n height : Nat) : width n height ≤ n := by
  induction height with
  | zero => rw [width_zero]
  | succ height ih => rw [width_succ]; omega

theorem width_mono {n m : Nat} (more : n ≤ m) (height : Nat) : width n height ≤ width m height :=
  Nat.div_le_div_right (by omega)

/-- A node covers leaves that exist. -/
theorem lt_width {n height pos : Nat} : pos < width n height ↔ pos * 2 ^ height < n := by
  have positive := Nat.two_pow_pos height
  rw [width, Nat.lt_iff_add_one_le, Nat.le_div_iff_mul_le positive, add_one_mul]
  omega

/-- The leaves below the left child start where those of its parent do. -/
theorem left_start (height pos : Nat) : 2 * pos * 2 ^ height = pos * 2 ^ (height + 1) := by
  ring

theorem right_start (height pos : Nat) :
    (2 * pos + 1) * 2 ^ height = pos * 2 ^ (height + 1) + 2 ^ height := by
  ring

theorem right_end (height pos : Nat) :
    (2 * pos + 1 + 1) * 2 ^ height = pos * 2 ^ (height + 1) + 2 ^ height + 2 ^ height := by
  ring

theorem span_end (height pos : Nat) :
    (pos + 1) * 2 ^ (height + 1) = pos * 2 ^ (height + 1) + 2 ^ height + 2 ^ height := by
  ring

theorem left_lt_width {n height pos : Nat} (inside : pos < width n (height + 1)) :
    2 * pos < width n height := by
  rw [lt_width] at inside ⊢
  rwa [left_start]

variable {α : Type*} (pair : α → α → α)

/-- The pairs of one level. -/
def adjacent : List α → List (α × α)
  | [] => []
  | [node] => [(node, node)]
  | node₁ :: node₂ :: rest => (node₁, node₂) :: adjacent rest

/-- The next level. -/
def pairUp : List α → List α
  | [] => []
  | [node] => [pair node node]
  | node₁ :: node₂ :: rest => pair node₁ node₂ :: pairUp rest

theorem pairUp_eq_map (nodes : List α) :
    pairUp pair nodes = (adjacent nodes).map (Function.uncurry pair) := by
  fun_induction adjacent nodes <;> simp_all [pairUp, Function.uncurry_apply_pair]

@[simp] theorem length_adjacent (nodes : List α) : (adjacent nodes).length = (nodes.length + 1) / 2 := by
  fun_induction adjacent nodes with
  | case1 => simp
  | case2 => simp
  | case3 node₁ node₂ rest ih =>
    simp only [List.length_cons, ih]
    omega

@[simp] theorem length_pairUp (nodes : List α) : (pairUp pair nodes).length = (nodes.length + 1) / 2 := by
  rw [pairUp_eq_map, List.length_map, length_adjacent]

theorem getElem?_adjacent (nodes : List α) (i : Nat) :
    (adjacent nodes)[i]? =
      nodes[2 * i]?.map fun left => (left, nodes[2 * i + 1]?.getD left) := by
  induction nodes using adjacent.induct generalizing i with
  | case1 => simp [adjacent]
  | case2 node =>
    cases i with
    | zero => simp [adjacent]
    | succ i => simp [adjacent, Nat.mul_succ]
  | case3 node₁ node₂ rest ih =>
    cases i with
    | zero => simp [adjacent]
    | succ i =>
      rw [adjacent, List.getElem?_cons_succ, ih, Nat.mul_succ]
      simp

theorem getElem?_pairUp (nodes : List α) (i : Nat) :
    (pairUp pair nodes)[i]? =
      nodes[2 * i]?.map fun left => pair left (nodes[2 * i + 1]?.getD left) := by
  rw [pairUp_eq_map, List.getElem?_map, getElem?_adjacent, Option.map_map]
  rfl

/-- The root: levels are paired up until one node is left. -/
def root : List α → Option α
  | [] => none
  | [node] => some node
  | node₁ :: node₂ :: rest => root (pairUp pair (node₁ :: node₂ :: rest))
termination_by nodes => nodes.length
decreasing_by
  rw [length_pairUp]
  simp only [List.length_cons]
  omega

theorem root_eq_none {nodes : List α} : root pair nodes = none ↔ nodes = [] := by
  fun_induction root pair nodes with
  | case1 => simp
  | case2 => simp
  | case3 node₁ node₂ rest ih =>
    rw [ih]
    simp [pairUp]

/-- Pairing up keeps the root of two or more nodes. -/
theorem root_pairUp {nodes : List α} (several : 2 ≤ nodes.length) :
    root pair (pairUp pair nodes) = root pair nodes := by
  match nodes, several with
  | node₁ :: node₂ :: rest, _ => rw [root.eq_3]

/-- The nodes `height` levels above the leaves. -/
def level (leaves : List α) : Nat → List α
  | 0 => leaves
  | height + 1 => pairUp pair (level leaves height)

@[simp] theorem length_level (leaves : List α) (height : Nat) :
    (level pair leaves height).length = width leaves.length height := by
  induction height with
  | zero => rw [width_zero, level]
  | succ height ih => rw [level, length_pairUp, ih, width_succ]

theorem getElem?_level_succ (leaves : List α) (height pos : Nat) :
    (level pair leaves (height + 1))[pos]? =
      (level pair leaves height)[2 * pos]?.map fun left =>
        pair left ((level pair leaves height)[2 * pos + 1]?.getD left) :=
  getElem?_pairUp pair _ pos

/-- The root stands alone on the first level of width one. -/
theorem root_eq_level {leaves : List α} {height : Nat} (top : width leaves.length height ≤ 1)
    (below : ∀ lower < height, 1 < width leaves.length lower) :
    root pair leaves = (level pair leaves height)[0]? := by
  have climbs : ∀ reached ≤ height,
      root pair (level pair leaves reached) = root pair leaves := by
    intro reached bound
    induction reached with
    | zero => rfl
    | succ reached ih =>
      have several := below reached (by omega)
      rw [← length_level pair] at several
      rw [level, root_pairUp pair several, ih (by omega)]
  rw [← climbs height le_rfl]
  rw [← length_level pair] at top
  match level pair leaves height, top with
  | [], _ => simp [root]
  | [node], _ => simp [root]

/-- The pairs combined on the levels below `height`. -/
def combined (leaves : List α) (height : Nat) : List (α × α) :=
  (List.range height).flatMap fun lower => adjacent (level pair leaves lower)

theorem mem_combined {leaves : List α} {height lower pos : Nat} {left : α} (below : lower < height)
    (found : (level pair leaves lower)[2 * pos]? = some left) :
    (left, (level pair leaves lower)[2 * pos + 1]?.getD left) ∈ combined pair leaves height := by
  apply List.mem_flatMap.mpr
  refine ⟨lower, List.mem_range.mpr below, List.mem_of_getElem? (i := pos) ?_⟩
  rw [getElem?_adjacent, found]
  rfl

/-- Equal nodes of one level have equal first leaves when no two pairs collide. -/
theorem getElem?_leaves_of_level {leaves : List α} {height : Nat}
    (injective : Set.InjOn (Function.uncurry pair) {x | x ∈ combined pair leaves height})
    {reached pos₁ pos₂ : Nat} {node : α} (bound : reached ≤ height)
    (found₁ : (level pair leaves reached)[pos₁]? = some node)
    (found₂ : (level pair leaves reached)[pos₂]? = some node) :
    leaves[pos₁ * 2 ^ reached]? = leaves[pos₂ * 2 ^ reached]? := by
  induction reached generalizing pos₁ pos₂ node with
  | zero =>
    simp only [level] at found₁ found₂
    simp [found₁, found₂]
  | succ reached ih =>
    rw [getElem?_level_succ] at found₁ found₂
    obtain ⟨left₁, at₁, hash₁⟩ := Option.map_eq_some_iff.mp found₁
    obtain ⟨left₂, at₂, hash₂⟩ := Option.map_eq_some_iff.mp found₂
    have same := injective (mem_combined pair bound at₁) (mem_combined pair bound at₂)
      (hash₁.trans hash₂.symm)
    have children := ih (by omega) at₁ (by rw [at₂, (Prod.mk.inj same).1])
    rw [pow_succ', ← mul_assoc, ← mul_assoc, mul_comm pos₁, mul_comm pos₂]
    exact children

end Litecoin.Tree
