import Mathlib.Order.Lattice
import Mathlib.Data.List.Basic

/-! Ordered values looked through in one pass, for one query after the other. -/
namespace Litecoin.Wire
variable [LinearOrder α]

/-- Passing over the values below a query loses no later query. -/
theorem mem_dropWhile_lt {p q : α} (values : List α) (later : p ≤ q) :
    q ∈ values.dropWhile (· < p) ↔ q ∈ values := by
  induction values with
  | nil => rfl
  | cons value rest ih =>
    rw [List.dropWhile_cons]
    split
    · rename_i below
      have other : q ≠ value := fun same => absurd (same ▸ of_decide_eq_true below) (not_lt.mpr later)
      rw [ih, List.mem_cons, or_iff_right other]
    · rfl

/-- Where the values reach a query, the first one there decides whether it is among them. -/
theorem mem_iff_of_dropWhile_lt {p value : α} {values rest : List α} (sorted : values.Pairwise (· ≤ ·))
    (reached : values.dropWhile (· < p) = value :: rest) : p ∈ values ↔ value = p := by
  have suffix := List.dropWhile_suffix (l := values) (· < p)
  rw [reached] at suffix
  have least := (List.pairwise_cons.mp (sorted.sublist suffix.sublist)).1
  have above : ¬ value < p := by
    have head := List.head_dropWhile_not (l := values) (· < p)
      (by rw [reached]; exact List.cons_ne_nil _ _)
    simpa only [reached, List.head_cons, decide_eq_false_iff_not] using head
  rw [← mem_dropWhile_lt values le_rfl, reached, List.mem_cons]
  constructor
  · rintro (same | later)
    · exact same.symm
    · exact le_antisymm (least p later) (not_lt.mp above)
  · intro same
    exact .inl same.symm

end Litecoin.Wire
