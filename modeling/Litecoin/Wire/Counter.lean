import Mathlib.Algebra.Group.Nat.Defs
import Mathlib.Order.Basic

/-! Counting in an `i32`, the type of a literal that nothing else gives one. -/
namespace Litecoin.Wire

/-- `count += 1`. -/
def increment (overflowChecks : Bool) (count : Int32) : Option Int32 :=
  if overflowChecks = true ∧ count = Int32.maxValue then none else some (count + 1)

/-- The count after `n` times, from zero. -/
def counted (overflowChecks : Bool) (n : Nat) : Option Int32 :=
  if overflowChecks = true ∧ 2 ^ 31 ≤ n then none else some (Int32.ofNat n)

variable {overflowChecks : Bool} {n : Nat}

theorem counted_zero : counted overflowChecks 0 = some 0 := if_neg (by omega)

theorem counted_of_lt (few : n < 2 ^ 31) : counted overflowChecks n = some (Int32.ofNat n) :=
  if_neg fun beyond => absurd beyond.2 (by omega)

theorem ofNat_eq_maxValue (few : n < 2 ^ 31) : Int32.ofNat n = Int32.maxValue ↔ 2 ^ 31 ≤ n + 1 := by
  rw [← Int32.toInt_inj, Int32.toInt_ofNat_of_lt few, Int32.toInt_maxValue]
  omega

/-- One more is counted unless the count has overflowed before or does now. -/
theorem counted_bind_increment :
    (counted overflowChecks n).bind (increment overflowChecks) = counted overflowChecks (n + 1) := by
  by_cases few : n < 2 ^ 31
  · rw [counted_of_lt few, Option.bind_some, increment, counted, Int32.ofNat_add]
    exact if_congr (and_congr_right fun _ => ofNat_eq_maxValue few) rfl rfl
  · cases overflowChecks with
    | false => exact congrArg some (Int32.ofNat_add n 1).symm
    | true => rw [counted, if_pos ⟨rfl, by omega⟩, counted, if_pos ⟨rfl, by omega⟩, Option.bind_none]

/-- What is counted is the number as far as the type goes. -/
theorem toNatClampNeg_ofNat_eq_iff : (Int32.ofNat n).toNatClampNeg = n ↔ n < 2 ^ 31 :=
  ⟨fun same => same.symm.trans_lt (Int32.toNatClampNeg_lt _), Int32.toNatClampNeg_ofNat_of_lt⟩

theorem ofNat_positive_iff (few : n < 2 ^ 31) : 0 < Int32.ofNat n ↔ 0 < n := by
  rw [Int32.lt_iff_toInt_lt, Int32.toInt_ofNat_of_lt few, Int32.toInt_zero]
  omega

/-- Up to where it wraps around, a count that has overflowed is negative or zero. -/
theorem ofNat_not_positive (many : 2 ^ 31 ≤ n) (bound : n ≤ 2 ^ 32) : ¬ 0 < Int32.ofNat n := by
  rw [Int32.lt_iff_toInt_lt, Int32.toInt_ofNat', Int32.toInt_zero]
  simp only [Int.bmod_def, Int32.size]
  omega

/-- `as u64`. -/
theorem toUInt64_ofNat (few : n < 2 ^ 31) : (Int32.ofNat n).toInt64.toUInt64 = UInt64.ofNat n := by
  have wide : (Int32.ofNat n).toInt64 = Int64.ofNat n := by
    rw [← Int64.toInt_inj, Int32.toInt_toInt64, Int32.toInt_ofNat_of_lt few,
      Int64.toInt_ofNat_of_lt (by omega)]
  rw [wide, Int64.toUInt64_ofNat']

end Litecoin.Wire
