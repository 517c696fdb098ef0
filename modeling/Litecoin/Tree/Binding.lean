import Litecoin.Tree.Levels

/-! What a root says about the leaves: all of them, when their number is known, and otherwise all but
repetitions at the end. -/
namespace Litecoin.Tree
variable {α : Type*}

/-- A list that goes on by repeating trailing elements, all of them or the first few. -/
inductive Extends (short : List α) : List α → Prop where
  | refl : Extends short short
  | repeats {front back piece : List α} : Extends short (front ++ back) → piece <+: back →
      Extends short (front ++ back ++ piece)

namespace Extends
variable {short long : List α}

theorem isPrefix (extends' : Extends short long) : short <+: long := by
  induction extends' with
  | refl => exact List.prefix_rfl
  | repeats _ _ ih => exact ih.trans (List.prefix_append _ _)

/-- Elements at the end are there before. -/
theorem not_nodup (extends' : Extends short long) (more : short.length < long.length) : ¬ long.Nodup := by
  induction extends' with
  | refl => exact absurd more (Nat.lt_irrefl _)
  | repeats tail again ih =>
    rename_i front back piece
    intro nodup
    obtain ⟨before, -, apart⟩ := List.nodup_append.mp nodup
    cases piece with
    | nil =>
      rw [List.append_nil] at more
      exact ih more before
    | cons item rest =>
      have earlier : item ∈ back := again.subset List.mem_cons_self
      exact apart item (List.mem_append_right front earlier) item List.mem_cons_self rfl

theorem trans {longer : List α} (first : Extends short long) (second : Extends long longer) :
    Extends short longer := by
  induction second with
  | refl => exact first
  | repeats _ again ih => exact ih.repeats again

/-- A list that stops earlier. -/
theorem shorten (extends' : Extends short long) {part : List α} (stops : part <+: long)
    (covers : short.length ≤ part.length) : Extends short part := by
  induction extends' generalizing part with
  | refl =>
    rw [stops.eq_of_length_le covers]
    exact .refl
  | repeats tail again ih =>
    rename_i front back piece
    have begins := List.prefix_append (front ++ back) piece
    rcases List.prefix_or_prefix_of_prefix stops begins with earlier | ⟨rest, rfl⟩
    · exact ih earlier covers
    · have inside : rest <+: piece := (List.prefix_append_right_inj _).mp stops
      exact tail.repeats (inside.trans again)

theorem append_left (front : List α) (extends' : Extends short long) :
    Extends (front ++ short) (front ++ long) := by
  induction extends' with
  | refl => exact .refl
  | repeats tail again ih =>
    rename_i inner back piece
    have whole : front ++ (inner ++ back ++ piece) = front ++ inner ++ back ++ piece := by
      simp only [List.append_assoc]
    rw [← List.append_assoc] at ih
    rw [whole]
    exact ih.repeats again

end Extends

section
variable {β : Type*} {f : α → β} {distinct : Set α} (injective : Set.InjOn f distinct)
include injective

theorem prefix_of_map {short long : List α} (inShort : ∀ x ∈ short, x ∈ distinct)
    (inLong : ∀ x ∈ long, x ∈ distinct) (image : short.map f <+: long.map f) : short <+: long := by
  induction short generalizing long with
  | nil => exact List.nil_prefix
  | cons first rest ih =>
    cases long with
    | nil => exact absurd (List.prefix_nil.mp image) (List.cons_ne_nil _ _)
    | cons second others =>
      obtain ⟨same, tail⟩ := List.cons_prefix_cons.mp image
      obtain rfl := injective (inShort first List.mem_cons_self) (inLong second List.mem_cons_self) same
      refine List.cons_prefix_cons.mpr ⟨rfl, ih ?_ ?_ tail⟩
      · exact fun x member => inShort x (List.mem_cons_of_mem first member)
      · exact fun x member => inLong x (List.mem_cons_of_mem first member)

/-- What repeats under a map repeats, where no two elements collide. -/
theorem Extends.of_map {short long : List α} (inShort : ∀ x ∈ short, x ∈ distinct)
    (inLong : ∀ x ∈ long, x ∈ distinct) (image : Extends (short.map f) (long.map f)) : Extends short long := by
  generalize shape : long.map f = mapped at image
  induction image generalizing long with
  | refl =>
    have begins : long <+: short := prefix_of_map injective inLong inShort (shape ▸ List.prefix_refl _)
    have count := congrArg List.length shape
    rw [List.length_map, List.length_map] at count
    rw [begins.eq_of_length count]
    exact .refl
  | repeats tail again ih =>
    obtain ⟨before, piece, rfl, shown, rfl⟩ := List.map_eq_append_iff.mp shape
    obtain ⟨front, back, rfl, rfl, rfl⟩ := List.map_eq_append_iff.mp shown
    have inside : ∀ x ∈ front ++ back, x ∈ distinct := fun x member => inLong x (List.mem_append_left _ member)
    refine (ih inside List.map_append).repeats (prefix_of_map injective ?_ ?_ again)
    · exact fun x member => inLong x (List.mem_append_right _ member)
    · exact fun x member => inside x (List.mem_append_right _ member)

end

/-- The nodes of the pairs, one after another. -/
def spread (pairs : List (α × α)) : List α := pairs.flatMap fun p => [p.1, p.2]

theorem Extends.spread {short long : List (α × α)} (extends' : Extends short long) :
    Extends (spread short) (spread long) := by
  induction extends' with
  | refl => exact .refl
  | repeats tail again ih =>
    rename_i front back piece
    obtain ⟨rest, rfl⟩ := again
    simp only [Tree.spread, List.flatMap_append] at ih ⊢
    exact ih.repeats (List.prefix_append _ _)

/-- An odd level is completed by its last node. -/
theorem spread_adjacent (nodes : List α) :
    nodes <+: spread (adjacent nodes) ∧ Extends nodes (spread (adjacent nodes)) := by
  fun_induction adjacent nodes with
  | case1 => exact ⟨List.prefix_rfl, .refl⟩
  | case2 node =>
    refine ⟨List.prefix_append [node] [node], ?_⟩
    have start : Extends [node] ([] ++ [node]) := .refl
    exact start.repeats (List.prefix_refl [node])
  | case3 node₁ node₂ rest ih =>
    exact ⟨(List.prefix_append_right_inj [node₁, node₂]).mpr ih.1, ih.2.append_left [node₁, node₂]⟩

variable (pair : α → α → α) {distinct : Set (α × α)} (injective : Set.InjOn (Function.uncurry pair) distinct)
include injective

/-- One level down, a longer list still goes on by repetition. -/
theorem extends_of_pairUp {short long : List α} (inShort : ∀ p ∈ adjacent short, p ∈ distinct)
    (inLong : ∀ p ∈ adjacent long, p ∈ distinct) (longer : short.length ≤ long.length)
    (above : Extends (pairUp pair short) (pairUp pair long)) : Extends short long := by
  rw [pairUp_eq_map, pairUp_eq_map] at above
  have pairs := Extends.of_map injective inShort inLong above
  exact ((spread_adjacent short).2.trans pairs.spread).shorten (spread_adjacent long).1 longer

omit injective in
theorem adjacent_combined {leaves : List α} {height lower : Nat} (below : lower < height) {p : α × α}
    (member : p ∈ adjacent (level pair leaves lower)) : p ∈ combined pair leaves height :=
  List.mem_flatMap.mpr ⟨lower, List.mem_range.mpr below, member⟩

omit injective in
theorem combined_mono {leaves : List α} {height higher : Nat} (le : height ≤ higher) {p : α × α}
    (member : p ∈ combined pair leaves height) : p ∈ combined pair leaves higher := by
  obtain ⟨lower, inside, found⟩ := List.mem_flatMap.mp member
  exact adjacent_combined pair (Nat.lt_of_lt_of_le (List.mem_range.mp inside) le) found

/-- Trees of one height with one root. -/
theorem extends_of_level {short long : List α} {height : Nat}
    (inShort : ∀ p ∈ combined pair short height, p ∈ distinct)
    (inLong : ∀ p ∈ combined pair long height, p ∈ distinct) (longer : short.length ≤ long.length)
    (top : Extends (level pair short height) (level pair long height)) : Extends short long := by
  have descend : ∀ up ≤ height, Extends (level pair short (height - up)) (level pair long (height - up)) := by
    intro up bound
    induction up with
    | zero => exact top
    | succ up ih =>
      have below : height - (up + 1) < height := by omega
      have next := ih (by omega)
      rw [show height - up = height - (up + 1) + 1 by omega] at next
      refine extends_of_pairUp pair injective ?_ ?_ ?_ next
      · exact fun p member => inShort p (adjacent_combined pair below member)
      · exact fun p member => inLong p (adjacent_combined pair below member)
      · rw [length_level, length_level]
        exact width_mono longer _
  have leaves := descend height le_rfl
  rwa [Nat.sub_self] at leaves

/-- In a higher tree with the same root the first leaf of the lower one is a pair. -/
theorem leaf_of_higher {short long : List α} {height higher : Nat} (below : height < higher)
    (inShort : ∀ p ∈ combined pair short height, p ∈ distinct)
    (inLong : ∀ p ∈ combined pair long higher, p ∈ distinct) {node : α}
    (top : (level pair short height)[0]? = some node) (higherTop : (level pair long higher)[0]? = some node) :
    ∃ p ∈ combined pair long higher, Function.uncurry pair p ∈ short := by
  induction height generalizing higher node with
  | zero =>
    obtain ⟨lower, rfl⟩ := Nat.exists_eq_add_one.mpr below
    rw [getElem?_level_succ] at higherTop
    obtain ⟨left, found, hash⟩ := Option.map_eq_some_iff.mp higherTop
    refine ⟨_, mem_combined pair (Nat.lt_succ_self lower) found, ?_⟩
    rw [Function.uncurry_apply_pair, hash]
    exact List.mem_of_getElem? top
  | succ height ih =>
    obtain ⟨lower, rfl⟩ := Nat.exists_eq_add_one.mpr (Nat.zero_lt_of_lt below)
    rw [getElem?_level_succ] at top higherTop
    obtain ⟨left, found, hash⟩ := Option.map_eq_some_iff.mp top
    obtain ⟨first, higherFound, higherHash⟩ := Option.map_eq_some_iff.mp higherTop
    have same := injective (inShort _ (mem_combined pair (Nat.lt_succ_self height) found))
      (inLong _ (mem_combined pair (Nat.lt_succ_self lower) higherFound)) (hash.trans higherHash.symm)
    obtain ⟨rfl, -⟩ := Prod.mk.inj same
    have shortLower : ∀ p ∈ combined pair short height, p ∈ distinct :=
      fun p member => inShort p (combined_mono pair (Nat.le_succ height) member)
    have longLower : ∀ p ∈ combined pair long lower, p ∈ distinct :=
      fun p member => inLong p (combined_mono pair (Nat.le_succ lower) member)
    obtain ⟨p, member, leaf⟩ := ih (by omega) shortLower longLower found higherFound
    exact ⟨p, combined_mono pair (Nat.le_succ lower) member, leaf⟩

end Litecoin.Tree
