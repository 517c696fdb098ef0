import Litecoin.Pow.Arithmetic
import Mathlib.Data.Nat.GCD.Basic
import Mathlib.Data.Nat.Prime.Basic

/-! Multiplication of 256-bit integers: where the schoolbook product is the product. -/
namespace Litecoin.Pow
namespace U256

def wrappingMul (x y : U256) : U256 := (x.overflowingMul y).1

/-- The product by a word, with its overflow. -/
structure WordMultiplies (x : U256) (rhs : BitVec 64) : Prop where
  value : (x.mulU64 rhs).1.toNat = x.toNat * rhs.toNat % 2 ^ 256
  overflow : (x.mulU64 rhs).2 = true ↔ 2 ^ 256 ≤ x.toNat * rhs.toNat

/-- The product, with its overflow, as each of the operators has it. -/
structure Multiplies (x y : U256) : Prop where
  value : (x.overflowingMul y).1.toNat = x.toNat * y.toNat % 2 ^ 256
  overflow : (x.overflowingMul y).2 = true ↔ 2 ^ 256 ≤ x.toNat * y.toNat
  wrapping : (x.wrappingMul y).toNat = x.toNat * y.toNat % 2 ^ 256
  asserts : x.mul y = none ↔ 2 ^ 256 ≤ x.toNat * y.toNat

/-- The top word of the multiplier adds nothing, and the lower ones do not overflow unless
the top word does. -/
structure LowProduct (x y : U256) : Prop where
  top : 2 ^ 256 ∣ x.toNat * (y.toNat / 2 ^ 192)
  low : x.toNat * (y.toNat / 2 ^ 192) = 0 → x.toNat * y.toNat < 2 ^ 256

theorem wordMultiplies (x : U256) (rhs : BitVec 64) : WordMultiplies x rhs :=
  ⟨(mulU64_exact x rhs).1, (mulU64_exact x rhs).2⟩

theorem mul_eq_none (x y : U256) : x.mul y = none ↔ (x.overflowingMul y).2 = true := by
  simp only [mul]
  split_ifs with overflow
  · simp [overflow]
  · simp [overflow]

/-- A term may only move up by 192 bits if it vanishes. -/
theorem mod_eq_shifted_iff (low top : Nat) :
    (low + top) % 2 ^ 256 = (low + 2 ^ 192 * top) % 2 ^ 256 ↔ 2 ^ 256 ∣ top := by
  have moved : low + 2 ^ 192 * top = low + top + (2 ^ 192 - 1) * top := by
    rw [Nat.sub_mul]
    omega
  have odd : Nat.Coprime (2 ^ 256) (2 ^ 192 - 1) :=
    (Nat.coprime_two_left.mpr (by decide)).pow_left 256
  rw [moved]
  constructor
  · intro same
    have divides := (Nat.modEq_iff_dvd' (Nat.le_add_right (low + top) _)).mp same
    rw [Nat.add_sub_cancel_left] at divides
    exact odd.dvd_of_dvd_mul_left divides
  · intro divides
    refine (Nat.modEq_iff_dvd' (Nat.le_add_right (low + top) _)).mpr ?_
    rw [Nat.add_sub_cancel_left]
    exact divides.mul_left _

theorem toNat_mul_words (x y : U256) : x.toNat * y.toNat =
    x.toNat * (y.toNat % 2 ^ 192) + 2 ^ 192 * (x.toNat * (y.toNat / 2 ^ 192)) := by
  conv_lhs => rw [← Nat.mod_add_div y.toNat (2 ^ 192)]
  ring

theorem multiplies_of_lowProduct {x y : U256} (exact_ : LowProduct x y) : Multiplies x y := by
  obtain ⟨value, overflow⟩ := overflowingMul_limbs x y
  have words := toNat_mul_words x y
  have low := exact_.low
  have moved := (mod_eq_shifted_iff (x.toNat * (y.toNat % 2 ^ 192)) _).mpr exact_.top
  obtain ⟨multiple, top⟩ := exact_.top
  rw [← words] at moved
  have flagged : (x.overflowingMul y).2 = true ↔ 2 ^ 256 ≤ x.toNat * y.toNat := by
    rw [overflow]
    rw [top] at words low ⊢
    have wrapped := Nat.mod_lt (x.toNat * (y.toNat % 2 ^ 192)) (by decide : 0 < 2 ^ 256)
    rw [Nat.mul_mod_right, Nat.add_zero]
    rcases Nat.eq_zero_or_pos multiple with rfl | positive
    · have fits := low rfl
      omega
    · omega
  exact ⟨value.trans moved, flagged, value.trans moved, (mul_eq_none x y).trans flagged⟩

/-- The last product is added without its shift, and what the lower ones lose at the top is
not reported. -/
theorem multiplies_iff (x y : U256) :
    (∀ rhs, WordMultiplies x rhs) ∧ (Multiplies x y ↔ LowProduct x y) := by
  refine ⟨wordMultiplies x, fun multiplies => ?_, multiplies_of_lowProduct⟩
  obtain ⟨value, overflow⟩ := overflowingMul_limbs x y
  have words := toNat_mul_words x y
  have same := value.symm.trans multiplies.value
  rw [words] at same
  have top := (mod_eq_shifted_iff _ _).mp same
  refine ⟨top, fun nothing => ?_⟩
  rw [nothing, Nat.zero_mod, Nat.add_zero] at overflow
  have wrapped := Nat.mod_lt (x.toNat * (y.toNat % 2 ^ 192)) (by decide : 0 < 2 ^ 256)
  have quiet : ¬ (x.overflowingMul y).2 = true := by
    rw [overflow, not_or]
    exact ⟨by decide, Nat.not_le_of_lt wrapped⟩
  rw [multiplies.overflow] at quiet
  exact Nat.lt_of_not_le quiet

/-- One times `2 ^ 192` is one. -/
theorem one_not_multiplies : ¬ Multiplies one (ofNat (2 ^ 192)) := by
  intro multiplies
  have value := multiplies.value
  revert value
  decide

end U256
end Litecoin.Pow
