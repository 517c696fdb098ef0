import Mathlib.Algebra.Order.Field.Rat
import Mathlib.Data.List.Basic
import Mathlib.Tactic.Linarith
import Mathlib.Tactic.Positivity
import Mathlib.Tactic.Ring

/-! Binary trees with labelled leaves, their depth-first walks, and forests of left
siblings: what a walk has left behind when it stops part way. -/
namespace Litecoin.Tree

inductive Binary (α : Type*) where
  | leaf (label : α)
  | node (left right : Binary α)

namespace Binary

def height : Binary α → Nat
  | leaf _ => 0
  | node left right => max left.height right.height + 1

/-- The leaves from left to right with their depths, for a tree whose root is at `depth`. -/
def walk : Binary α → (depth : Nat) → List (Nat × α)
  | leaf label, depth => [(depth, label)]
  | node left right, depth => left.walk (depth + 1) ++ right.walk (depth + 1)

theorem walk_ne_nil (tree : Binary α) (depth : Nat) : tree.walk depth ≠ [] := by
  induction tree generalizing depth with
  | leaf label => exact List.cons_ne_nil _ _
  | node left right ihLeft _ => exact List.append_ne_nil_of_left_ne_nil (ihLeft _) _

theorem le_of_mem_walk {tree : Binary α} (member : entry ∈ tree.walk depth) : depth ≤ entry.1 := by
  induction tree generalizing depth with
  | leaf label =>
    obtain rfl := List.mem_singleton.mp member
    exact Nat.le_refl _
  | node left right ihLeft ihRight =>
    rcases List.mem_append.mp member with member | member
    · exact Nat.le_of_succ_le (ihLeft member)
    · exact Nat.le_of_succ_le (ihRight member)

/-- A tree is as high as its deepest leaf. -/
theorem height_le_iff {tree : Binary α} :
    depth + tree.height ≤ bound ↔ ∀ entry ∈ tree.walk depth, entry.1 ≤ bound := by
  induction tree generalizing depth with
  | leaf label => simp [height, walk]
  | node left right ihLeft ihRight =>
    simp only [walk, List.mem_append, or_imp, forall_and, ← ihLeft, ← ihRight, height]
    omega

/-- Any labels fit a walk. -/
theorem exists_walk_eq {tree : Binary α} {entries : List (Nat × β)}
    (depths : entries.map Prod.fst = (tree.walk depth).map Prod.fst) :
    ∃ labelled : Binary β, labelled.walk depth = entries := by
  induction tree generalizing depth entries with
  | leaf label =>
    obtain ⟨⟨depth', b⟩, rest, rfl, rfl, empty⟩ := List.map_eq_cons_iff.mp depths
    obtain rfl := List.map_eq_nil_iff.mp empty
    exact ⟨.leaf b, rfl⟩
  | node left right ihLeft ihRight =>
    rw [walk, List.map_append] at depths
    obtain ⟨first, second, rfl, firstDepths, secondDepths⟩ := List.map_eq_append_iff.mp depths
    obtain ⟨labelledLeft, rfl⟩ := ihLeft firstDepths
    obtain ⟨labelledRight, rfl⟩ := ihRight secondDepths
    exact ⟨.node labelledLeft labelledRight, rfl⟩

/-- Labelled leaves that begin like a walk begin a walk with their labels. -/
theorem exists_walk_append {tree : Binary α} {entries : List (Nat × α)}
    (front : entries.map Prod.fst <+: (tree.walk depth).map Prod.fst) :
    ∃ (labelled : Binary α) (rest : List (Nat × α)), labelled.walk depth = entries ++ rest ∧
      (labelled.walk depth).map Prod.fst = (tree.walk depth).map Prod.fst := by
  have whole : (entries ++ (tree.walk depth).drop entries.length).map Prod.fst =
      (tree.walk depth).map Prod.fst := by
    obtain ⟨rest, whole⟩ := front
    rw [List.map_append, List.map_drop, ← whole, List.drop_left' (List.length_map _)]
  obtain ⟨labelled, walked⟩ := exists_walk_eq whole
  exact ⟨labelled, _, walked, walked ▸ whole⟩

/-- Trees whose walks have the same depths are equally high. -/
theorem height_le_of_walk {tree : Binary α} {other : Binary β}
    (depths : (tree.walk 0).map Prod.fst = (other.walk 0).map Prod.fst)
    (bounded : other.height ≤ bound) : tree.height ≤ bound := by
  rw [← Nat.zero_add other.height, height_le_iff] at bounded
  rw [← Nat.zero_add tree.height, height_le_iff]
  intro entry member
  have listed : entry.1 ∈ (other.walk 0).map Prod.fst := depths ▸ List.mem_map_of_mem member
  obtain ⟨same, found, eq⟩ := List.mem_map.mp listed
  exact eq ▸ bounded same found

end Binary

/-- The share of a tree that leaves at some depths take up: a leaf at depth one is half
of it. -/
def share (depths : List Nat) : ℚ := (depths.map fun depth => (1 / 2 : ℚ) ^ depth).sum

@[simp] theorem share_nil : share [] = 0 := rfl

@[simp] theorem share_cons (depth : Nat) (depths : List Nat) :
    share (depth :: depths) = (1 / 2) ^ depth + share depths := List.sum_cons

@[simp] theorem share_append (first second : List Nat) :
    share (first ++ second) = share first + share second := by
  rw [share, List.map_append, List.sum_append]
  rfl

theorem share_nonneg (depths : List Nat) : 0 ≤ share depths := by
  induction depths with
  | nil => exact le_rfl
  | cons depth rest ih =>
    rw [share_cons]
    positivity

theorem share_pos {depths : List Nat} (some : depths ≠ []) : 0 < share depths := by
  obtain ⟨depth, rest, rfl⟩ := List.exists_cons_of_ne_nil some
  have others := share_nonneg rest
  rw [share_cons]
  positivity

/-- The leaves of a tree share the whole of it. -/
theorem Binary.share_walk (tree : Binary α) (depth : Nat) :
    share ((tree.walk depth).map Prod.fst) = (1 / 2) ^ depth := by
  induction tree generalizing depth with
  | leaf label => simp [walk]
  | node left right ihLeft ihRight =>
    rw [walk, List.map_append, share_append, ihLeft, ihRight, pow_succ]
    ring

/-- Some of the leaves share the whole of a tree only if they are all its leaves. -/
theorem Binary.forall_of_share_filter {tree : Binary α} {p : Nat × α → Bool}
    (whole : share (((tree.walk depth).filter p).map Prod.fst) = (1 / 2) ^ depth) :
    ∀ entry ∈ tree.walk depth, p entry = true := by
  have parts : ∀ entries : List (Nat × α), share ((entries.filter p).map Prod.fst) +
      share ((entries.filter fun entry => !p entry).map Prod.fst) = share (entries.map Prod.fst) := by
    intro entries
    induction entries with
    | nil => simp
    | cons entry rest ih =>
      rw [List.map_cons, share_cons, ← ih]
      cases kept : p entry with
      | true => simp [kept, add_assoc]
      | false => simp [kept, add_left_comm]
  have rest := parts (tree.walk depth)
  rw [whole, tree.share_walk] at rest
  have none : (tree.walk depth).filter (fun entry => !p entry) = [] := by
    by_contra some
    have left : 0 < share (((tree.walk depth).filter fun entry => !p entry).map Prod.fst) :=
      share_pos (List.map_eq_nil_iff.not.mpr some)
    linarith
  simpa using none

/-- No walk goes on after it has come to the end of a tree. -/
theorem Binary.walk_prefix {tree : Binary α} {other : Binary β}
    (front : (tree.walk depth).map Prod.fst <+: (other.walk depth).map Prod.fst) :
    (tree.walk depth).map Prod.fst = (other.walk depth).map Prod.fst := by
  obtain ⟨rest, whole⟩ := front
  have shares := congrArg share whole
  rw [share_append, tree.share_walk, other.share_walk] at shares
  have done : rest = [] := by
    by_contra some
    have left := share_pos some
    linarith
  rwa [done, List.append_nil] at whole

/-- The leaves of a forest that has at most one tree at each depth from `depth` on. -/
def pending (depth : Nat) : List (Option (Binary α)) → List (Nat × α)
  | [] => []
  | none :: rest => pending (depth + 1) rest
  | some tree :: rest => tree.walk depth ++ pending (depth + 1) rest

theorem pending_append (depth : Nat) (first second : List (Option (Binary α))) :
    pending depth (first ++ second) = pending depth first ++ pending (depth + first.length) second := by
  induction first generalizing depth with
  | nil => rfl
  | cons slot rest ih =>
    have deeper : depth + 1 + rest.length = depth + (slot :: rest).length := by
      rw [List.length_cons]
      omega
    cases slot with
    | none => rw [List.cons_append, pending, pending, ih, deeper]
    | some tree => rw [List.cons_append, pending, pending, ih, deeper, List.append_assoc]

theorem pending_vacant (depth n : Nat) : pending depth (List.replicate n (none : Option (Binary α))) = [] := by
  induction n generalizing depth with
  | zero => rfl
  | succ n ih => rw [List.replicate_succ, pending, ih]

/-- A forest with a tree in its last place has a leaf at least that deep. -/
theorem length_le_of_pending {init : List (Option (Binary α))} {last : Binary α}
    (bounded : ∀ entry ∈ pending depth (init ++ [some last]), entry.1 ≤ bound) :
    depth + init.length ≤ bound := by
  obtain ⟨entry, rest, walked⟩ := List.exists_cons_of_ne_nil (last.walk_ne_nil (depth + init.length))
  have member : entry ∈ last.walk (depth + init.length) := walked ▸ List.mem_cons_self
  apply (Binary.le_of_mem_walk member).trans (bounded entry _)
  rw [pending_append, pending]
  exact List.mem_append_right _ (List.mem_append_left _ member)

/-- Completes a forest: the trees wait on the left, and `filler` goes wherever a right
sibling is missing. -/
def close (filler : α) : List (Option (Binary α)) → Binary α
  | [] => .leaf filler
  | none :: rest => .node (close filler rest) (.leaf filler)
  | some tree :: rest => .node tree (close filler rest)

/-- A forest without a tree at the root is the start of a walk. -/
theorem pending_prefix_close (filler : α) (depth : Nat) (forest : List (Option (Binary α))) :
    pending (depth + 1) forest <+: (close filler forest).walk depth := by
  induction forest generalizing depth with
  | nil => exact List.nil_prefix
  | cons slot rest ih =>
    cases slot with
    | none => exact (ih (depth + 1)).trans (List.prefix_append _ _)
    | some tree => exact (List.prefix_append_right_inj _).mpr (ih (depth + 1))

theorem height_close_le {filler : α} {forest : List (Option (Binary α))}
    (bounded : ∀ entry ∈ pending (depth + 1) forest, entry.1 ≤ bound)
    (room : depth + forest.length ≤ bound) : depth + (close filler forest).height ≤ bound := by
  induction forest generalizing depth with
  | nil => exact room
  | cons slot rest ih =>
    rw [List.length_cons] at room
    cases slot with
    | none =>
      have below := ih bounded (by omega)
      simp only [close, Binary.height]
      omega
    | some tree =>
      simp only [pending, List.mem_append, or_imp, forall_and] at bounded
      have left := Binary.height_le_iff.mpr bounded.1
      have below := ih bounded.2 (by omega)
      simp only [close, Binary.height]
      omega

end Litecoin.Tree
