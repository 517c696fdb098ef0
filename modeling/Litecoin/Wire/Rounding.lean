import Mathlib.Algebra.Order.Group.Nat
import Mathlib.Algebra.Order.Ring.Nat
import Mathlib.Algebra.Ring.Nat
import Mathlib.Tactic.Ring

/-! Rounding down to a mantissa below `limit` times a power of `base`. -/
namespace Litecoin.Wire

/-- The least exponent with which `n` has a mantissa below `limit`. -/
structure Spacing (base limit n exponent : Nat) : Prop where
  upper : n < limit * base ^ exponent
  lower : exponent ≠ 0 → limit * base ^ (exponent - 1) ≤ n

/-- The largest multiple of `base ^ exponent` that is not above `n`. -/
def roundDown (base exponent n : Nat) : Nat := n / base ^ exponent * base ^ exponent

theorem roundDown_le (base exponent n : Nat) : roundDown base exponent n ≤ n :=
  Nat.div_mul_le_self n _

theorem roundDown_of_dvd {base exponent n : Nat} (multiple : base ^ exponent ∣ n) :
    roundDown base exponent n = n :=
  Nat.div_mul_cancel multiple

theorem le_roundDown {base exponent m n : Nat} (multiple : base ^ exponent ∣ m) (below : m ≤ n) :
    m ≤ roundDown base exponent n := by
  obtain ⟨k, rfl⟩ := multiple
  rcases Nat.eq_zero_or_pos (base ^ exponent) with zero | positive
  · rw [zero, Nat.zero_mul]
    exact Nat.zero_le _
  · rw [Nat.mul_comm]
    refine Nat.mul_le_mul_right _ ((Nat.le_div_iff_mul_le positive).mpr ?_)
    rwa [Nat.mul_comm]

namespace Spacing
variable {base limit m n i j : Nat}

theorem le_of_le (positive : 0 < base) (first : Spacing base limit m i)
    (second : Spacing base limit n j) (ordered : m ≤ n) : i ≤ j := by
  by_contra larger
  have lower := first.lower (by omega)
  have powers : base ^ j ≤ base ^ (i - 1) := Nat.pow_le_pow_right positive (by omega)
  have upper := second.upper
  have scaled := Nat.mul_le_mul_left limit powers
  omega

/-- The mantissa of a larger number with a larger exponent is large enough. -/
theorem roundDown_mono (positive : 0 < base) (divides : base ∣ limit)
    (first : Spacing base limit m i) (second : Spacing base limit n j) (ordered : m ≤ n) :
    roundDown base i m ≤ roundDown base j n := by
  rcases (le_of_le positive first second ordered).lt_or_eq with smaller | rfl
  · obtain ⟨j, rfl⟩ := Nat.exists_eq_add_of_lt smaller
    have lower := second.lower (by omega)
    rw [Nat.add_sub_cancel] at lower
    have multiple : base ^ (i + j + 1) ∣ limit * base ^ (i + j) := by
      rw [pow_succ']
      exact Nat.mul_dvd_mul_right divides _
    have powers : base ^ i ≤ base ^ (i + j) := Nat.pow_le_pow_right positive (by omega)
    calc roundDown base i m ≤ m := roundDown_le base i m
      _ ≤ limit * base ^ i := first.upper.le
      _ ≤ limit * base ^ (i + j) := Nat.mul_le_mul_left limit powers
      _ ≤ roundDown base (i + j + 1) n := le_roundDown multiple lower
  · exact Nat.mul_le_mul_right _ (Nat.div_le_div_right ordered)

/-- What is lost is less than one part in `limit / base`. -/
theorem lost_lt (spacing : Spacing base limit n j) (positive : 0 < base) (nonzero : 0 < n) :
    (n - roundDown base j n) * limit < n * base := by
  have lost : n - roundDown base j n = n % base ^ j := Nat.mod_eq_sub_div_mul.symm
  rw [lost]
  rcases Nat.eq_zero_or_pos limit with zero | some_
  · rw [zero, Nat.mul_zero]
    exact Nat.mul_pos nonzero positive
  cases j with
  | zero =>
    rw [pow_zero, Nat.mod_one, Nat.zero_mul]
    exact Nat.mul_pos nonzero positive
  | succ j =>
    have lower := spacing.lower (by omega)
    rw [Nat.add_sub_cancel] at lower
    calc n % base ^ (j + 1) * limit
        < base ^ (j + 1) * limit :=
          Nat.mul_lt_mul_of_pos_right (Nat.mod_lt _ (Nat.pow_pos positive)) some_
      _ = limit * base ^ j * base := by ring
      _ ≤ n * base := Nat.mul_le_mul_right _ lower

/-- A number with a small enough mantissa is kept. -/
theorem roundDown_eq (spacing : Spacing base limit (m * base ^ i) j) (positive : 0 < base)
    (small : m < limit) : roundDown base j (m * base ^ i) = m * base ^ i := by
  refine roundDown_of_dvd (Nat.dvd_mul_left_of_dvd (Nat.pow_dvd_pow base ?_) m)
  by_contra larger
  have lower := spacing.lower (by omega)
  have powers : base ^ i ≤ base ^ (j - 1) := Nat.pow_le_pow_right positive (by omega)
  have scaled := Nat.mul_le_mul_left limit powers
  have upper := Nat.mul_lt_mul_of_pos_right small (Nat.pow_pos positive : 0 < base ^ i)
  omega

end Spacing
end Litecoin.Wire
