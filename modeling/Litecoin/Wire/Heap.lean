import Litecoin.Wire.Order
import Mathlib.Data.List.Perm.Basic

/-! Priority queues as the items that they hold: the greatest one comes out first. Which of
several equal ones it is depends on the layout of the queue; where the order tells any two
items apart, nothing does. -/
namespace Litecoin.Wire

/-- `cmp::Reverse`. -/
structure Reverse (α : Type) where
  val : α
deriving DecidableEq, Repr

instance reverseOrd [Ord α] : Ord (Reverse α) := ⟨fun a b => compare b.val a.val⟩

instance reverseTransOrd [Ord α] [Std.TransOrd α] : Std.TransOrd (Reverse α) where
  eq_swap {a b} := by
    show compare b.val a.val = (compare a.val b.val).swap
    exact Std.OrientedCmp.eq_swap
  isLE_trans {a b c} first second := by
    have below : (compare b.val a.val).isLE := first
    have above : (compare c.val b.val).isLE := second
    show (compare c.val a.val).isLE
    exact Std.TransCmp.isLE_trans above below

instance reverseLawfulEqOrd [Ord α] [Std.LawfulEqOrd α] : Std.LawfulEqOrd (Reverse α) where
  compare_self {a} := by
    show compare a.val a.val = .eq
    exact Std.ReflCmp.compare_self
  eq_of_compare {a b} same := by
    have values : compare b.val a.val = .eq := same
    obtain ⟨val⟩ := a
    obtain rfl : b.val = val := Std.LawfulEqCmp.eq_of_compare values
    rfl

/-- The greatest of some items, and the others. -/
def takeGreatest [Ord α] : α → List α → α × List α
  | best, [] => (best, [])
  | best, item :: rest =>
    if compare best item = .lt then
      let (greatest, others) := takeGreatest item rest
      (greatest, best :: others)
    else
      let (greatest, others) := takeGreatest best rest
      (greatest, item :: others)

/-- `BinaryHeap`, with so many items in it. -/
structure BinaryHeap (α : Type) (len : Nat) where
  items : List α
  length_items : items.length = len

namespace BinaryHeap
variable [Ord α]

omit [Ord α] in
/-- A heap onto which some items were pushed. -/
def collect (first : α) (rest : List α) : BinaryHeap α (rest.length + 1) := ⟨first :: rest, rfl⟩

omit [Ord α] in
def push (heap : BinaryHeap α len) (item : α) : BinaryHeap α (len + 1) :=
  ⟨item :: heap.items, by rw [List.length_cons, heap.length_items]⟩

theorem length_takeGreatest (best : α) (rest : List α) :
    (takeGreatest best rest).2.length = rest.length := by
  induction rest generalizing best with
  | nil => rfl
  | cons item rest ih =>
    rw [takeGreatest]
    split
    · exact congrArg Nat.succ (ih item)
    · exact congrArg Nat.succ (ih best)

/-- There is always an item in a heap that is not empty. -/
def pop : BinaryHeap α (len + 1) → α × BinaryHeap α len
  | ⟨first :: rest, length⟩ => ((takeGreatest first rest).1, ⟨(takeGreatest first rest).2, by
    rw [length_takeGreatest]
    exact Nat.succ.inj length⟩)

theorem takeGreatest_perm (best : α) (rest : List α) :
    ((takeGreatest best rest).1 :: (takeGreatest best rest).2).Perm (best :: rest) := by
  induction rest generalizing best with
  | nil => exact .refl _
  | cons item rest ih =>
    rw [takeGreatest]
    split
    · exact (List.Perm.swap _ _ _).trans ((ih item).cons best)
    · exact (List.Perm.swap _ _ _).trans (((ih best).cons item).trans (.swap _ _ _))

/-- Nothing among the others is greater than what was taken. -/
theorem takeGreatest_greatest [Std.TransOrd α] (best : α) (rest : List α) :
    (compare best (takeGreatest best rest).1).isLE ∧
      ∀ item ∈ (takeGreatest best rest).2, (compare item (takeGreatest best rest).1).isLE := by
  induction rest generalizing best with
  | nil => exact ⟨Std.ReflCmp.isLE_rfl, fun _ member => absurd member List.not_mem_nil⟩
  | cons item rest ih =>
    rw [takeGreatest]
    split
    case isTrue less =>
      obtain ⟨greater, others⟩ := ih item
      have below := Std.TransCmp.isLE_trans (Ordering.isLE_of_eq_lt less) greater
      exact ⟨below, List.forall_mem_cons.mpr ⟨below, others⟩⟩
    case isFalse notLess =>
      obtain ⟨greater, others⟩ := ih best
      have other : (compare item best).isLE := by
        rw [Std.OrientedOrd.eq_swap]
        cases order : compare best item with
        | lt => exact absurd order notLess
        | eq => rfl
        | gt => rfl
      exact ⟨greater, List.forall_mem_cons.mpr ⟨Std.TransCmp.isLE_trans other greater, others⟩⟩

theorem pop_perm (heap : BinaryHeap α (len + 1)) : (heap.pop.1 :: heap.pop.2.items).Perm heap.items := by
  obtain ⟨_ | ⟨first, rest⟩, length⟩ := heap
  · contradiction
  · exact takeGreatest_perm first rest

theorem pop_greatest [Std.TransOrd α] (heap : BinaryHeap α (len + 1)) :
    ∀ item ∈ heap.pop.2.items, (compare item heap.pop.1).isLE := by
  obtain ⟨_ | ⟨first, rest⟩, length⟩ := heap
  · contradiction
  · exact (takeGreatest_greatest first rest).2

/-- Where the order tells all items apart, any way to take out a greatest item is this one. -/
theorem pop_unique [Std.TransOrd α] [Std.LawfulEqOrd α] (heap : BinaryHeap α (len + 1)) {greatest : α}
    {others : List α} (taken : (greatest :: others).Perm heap.items)
    (above : ∀ item ∈ others, (compare item greatest).isLE) :
    greatest = heap.pop.1 ∧ others.Perm heap.pop.2.items := by
  have both := taken.trans heap.pop_perm.symm
  have same : greatest = heap.pop.1 := by
    rcases List.mem_cons.mp (both.subset List.mem_cons_self) with same | listed
    · exact same
    · rcases List.mem_cons.mp (both.symm.subset List.mem_cons_self) with same | listed'
      · exact same.symm
      · exact Std.LawfulEqCmp.eq_of_compare
          (Std.OrientedCmp.isLE_antisymm (heap.pop_greatest _ listed) (above _ listed'))
  subst same
  exact ⟨rfl, both.cons_inv⟩

/-- So the order in which items were pushed does not matter. -/
theorem pop_perm_congr [Std.TransOrd α] [Std.LawfulEqOrd α] {heap other : BinaryHeap α (len + 1)}
    (same : heap.items.Perm other.items) :
    heap.pop.1 = other.pop.1 ∧ heap.pop.2.items.Perm other.pop.2.items :=
  other.pop_unique (heap.pop_perm.trans same) heap.pop_greatest

end BinaryHeap
end Litecoin.Wire
