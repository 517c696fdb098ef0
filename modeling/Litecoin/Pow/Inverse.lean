import Litecoin.Pow.Arithmetic

/-! The inverse of a 256-bit integer, and work as the inverse of a target (`pow.rs`). -/
namespace Litecoin.Pow
namespace U256

@[simp] theorem toNat_max : max.toNat = 2 ^ 256 - 1 := rfl

theorem isOne_iff (x : U256) : x.isOne = true ↔ x.toNat = 1 := by
  have same : x.toNat = 1 ↔ x = one := ⟨fun single => toNat_inj single, fun same => congrArg toNat same⟩
  rw [same]
  cases x
  simp [isOne, one]

theorem isMax_iff (x : U256) : x.isMax = true ↔ x.toNat = 2 ^ 256 - 1 := by
  have same : x.toNat = 2 ^ 256 - 1 ↔ x = max :=
    ⟨fun largest => toNat_inj largest, fun same => congrArg toNat same⟩
  rw [same]
  cases x
  simp [isMax, max]

theorem toNat_wrappingInc (x : U256) : x.wrappingInc.toNat = (x.toNat + 1) % 2 ^ 256 := by
  have high := x.high.isLt
  have low := x.low.isLt
  have one : (1 : BitVec 128).toNat = 1 := rfl
  have zero : (0 : BitVec 128).toNat = 0 := rfl
  rw [wrappingInc]
  split_ifs with carried
  · rw [← BitVec.toNat_inj, BitVec.toNat_add, one, zero] at carried
    simp only [toNat, BitVec.toNat_add, one]
    omega
  · rw [← BitVec.toNat_inj, BitVec.toNat_add, one, zero] at carried
    simp only [toNat, BitVec.toNat_add, one]
    omega

/-- `2 ^ 256 / (n + 1)`, with the largest number where that is not a number of the type or
the code has it so. -/
def inverseOf (n : Nat) : Nat := if n ≤ 1 then 2 ^ 256 - 1 else 2 ^ 256 / (n + 1)

theorem inverse_eq (x : U256) : ∃ inverse, x.inverse = some inverse ∧ inverse.toNat = inverseOf x.toNat := by
  have bound := x.toNat_lt
  rw [inverse, inverseOf]
  simp only [isZero_iff, isOne_iff, isMax_iff]
  by_cases small : x.toNat ≤ 1
  · rw [if_pos small]
    refine ⟨max, ?_, toNat_max⟩
    split_ifs with zero one largest
    · rfl
    · rfl
    · omega
    · omega
  · rw [if_neg small, if_neg (by omega), if_neg (by omega)]
    split_ifs with largest
    · refine ⟨one, rfl, ?_⟩
      rw [largest, toNat_one]
      rfl
    · have next : x.wrappingInc.toNat = x.toNat + 1 := by
        rw [toNat_wrappingInc, Nat.mod_eq_of_lt (by omega)]
      obtain ⟨quotient, divided, value⟩ := toNat_div x.not (y := x.wrappingInc) (by omega)
      rw [divided]
      refine ⟨quotient.wrappingInc, rfl, ?_⟩
      -- the dividend lacks one divisor, which the last step adds to the quotient
      have whole : 2 ^ 256 = x.not.toNat + (x.toNat + 1) := by
        rw [toNat_not]
        omega
      have quotient_eq : 2 ^ 256 / (x.toNat + 1) = quotient.toNat + 1 := by
        rw [value, next]
        conv_lhs => rw [whole]
        exact Nat.add_div_right _ (Nat.succ_pos _)
      have small : 2 ^ 256 / (x.toNat + 1) < 2 ^ 256 := Nat.div_lt_self (by decide) (by omega)
      rw [toNat_wrappingInc, ← quotient_eq, Nat.mod_eq_of_lt small]

theorem inverseOf_antitone {m n : Nat} (ordered : m ≤ n) : inverseOf n ≤ inverseOf m := by
  rw [inverseOf, inverseOf]
  split_ifs with large small
  · exact Nat.le_refl _
  · omega
  · have third : 2 ^ 256 / (n + 1) ≤ 2 ^ 256 / 3 := Nat.div_le_div_left (by omega) (by decide)
    exact third.trans (by decide)
  · exact Nat.div_le_div_left (by omega) (Nat.succ_pos m)

end U256

/-- `Target::to_work`. -/
def toWork (target : U256) : Option U256 := target.inverse

/-- Work is the inverse of the target, and less of it belongs to an easier target. -/
structure WorkInverts : Prop where
  inverse : ∀ x : U256, 1 < x.toNat → x.toNat < 2 ^ 256 - 1 →
    ∃ inverse, x.inverse = some inverse ∧ inverse.toNat = 2 ^ 256 / (x.toNat + 1)
  antitone : ∀ s t : U256, s.le t = true →
    ∃ workS workT, toWork s = some workS ∧ toWork t = some workT ∧ workT.le workS = true

theorem workInverts : WorkInverts where
  inverse x large _ := by
    obtain ⟨inverse, computed, value⟩ := x.inverse_eq
    refine ⟨inverse, computed, ?_⟩
    rw [value, U256.inverseOf, if_neg (Nat.not_le_of_lt large)]
  antitone s t ordered := by
    obtain ⟨workS, computedS, valueS⟩ := s.inverse_eq
    obtain ⟨workT, computedT, valueT⟩ := t.inverse_eq
    refine ⟨workS, workT, computedS, computedT, ?_⟩
    rw [U256.le_iff, valueS, valueT]
    exact U256.inverseOf_antitone ((U256.le_iff s t).mp ordered)

end Litecoin.Pow
