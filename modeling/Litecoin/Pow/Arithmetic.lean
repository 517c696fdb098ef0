import Litecoin.Pow.U256

/-! What the operations on halves and limbs compute, as numbers. -/
namespace Litecoin.Pow
namespace U256

theorem toNat_lt (x : U256) : x.toNat < 2 ^ 256 := by
  have high := x.high.isLt
  have low := x.low.isLt
  rw [toNat]
  omega

theorem toNat_inj {x y : U256} (same : x.toNat = y.toNat) : x = y := by
  have lowX := x.low.isLt
  have lowY := y.low.isLt
  rw [toNat, toNat] at same
  have high : x.high = y.high := BitVec.eq_of_toNat_eq (by omega)
  have low : x.low = y.low := BitVec.eq_of_toNat_eq (by omega)
  cases x
  cases y
  simp_all

theorem toNat_ofNat {n : Nat} (fits : n < 2 ^ 256) : (ofNat n).toNat = n := by
  simp only [ofNat, toNat, BitVec.toNat_ofNat]
  omega

theorem ofNat_toNat (x : U256) : ofNat x.toNat = x := toNat_inj (toNat_ofNat x.toNat_lt)

@[simp] theorem toNat_zero : zero.toNat = 0 := rfl

@[simp] theorem toNat_one : one.toNat = 1 := rfl

@[simp] theorem toNat_ofU128 (x : BitVec 128) : (ofU128 x).toNat = x.toNat := by
  simp [toNat, ofU128]

theorem isZero_iff (x : U256) : x.isZero = true ↔ x.toNat = 0 := by
  have same : x.toNat = 0 ↔ x = zero := ⟨fun nothing => toNat_inj nothing, fun same => congrArg toNat same⟩
  rw [same]
  cases x
  simp [isZero, zero]

theorem le_iff (x y : U256) : x.le y = true ↔ x.toNat ≤ y.toNat := by
  have lowX := x.low.isLt
  have lowY := y.low.isLt
  simp only [le, toNat, Bool.or_eq_true, Bool.and_eq_true, decide_eq_true_eq, BitVec.lt_def,
    BitVec.le_def, ← BitVec.toNat_inj]
  omega

theorem toNat_not (x : U256) : x.not.toNat = 2 ^ 256 - 1 - x.toNat := by
  have high := x.high.isLt
  have low := x.low.isLt
  simp only [not, toNat, BitVec.toNat_not]
  omega

/-- The sum, and whether it has wrapped. -/
theorem overflowingAdd_eq (x y : U256) :
    (x.overflowingAdd y).1.toNat = (x.toNat + y.toNat) % 2 ^ 256 ∧
    ((x.overflowingAdd y).2 = true ↔ 2 ^ 256 ≤ x.toNat + y.toNat) := by
  have highX := x.high.isLt
  have lowX := x.low.isLt
  have highY := y.high.isLt
  have lowY := y.low.isLt
  simp only [overflowingAdd]
  split_ifs with carried
  · simp only [BitVec.uaddOverflow, decide_eq_true_eq] at carried
    have one : (1 : BitVec 128).toNat = 1 := rfl
    simp only [toNat, BitVec.toNat_add, BitVec.uaddOverflow, Bool.or_eq_true, decide_eq_true_eq, one]
    omega
  · simp only [BitVec.uaddOverflow, decide_eq_true_eq] at carried
    simp only [toNat, BitVec.toNat_add, BitVec.uaddOverflow, decide_eq_true_eq]
    omega

theorem toNat_wrappingAdd (x y : U256) :
    (x.wrappingAdd y).toNat = (x.toNat + y.toNat) % 2 ^ 256 := (overflowingAdd_eq x y).1

theorem toNat_wrappingSub {x y : U256} (fits : y.toNat ≤ x.toNat) :
    (x.wrappingSub y).toNat = x.toNat - y.toNat := by
  have boundX := x.toNat_lt
  have boundY := y.toNat_lt
  rw [wrappingSub, toNat_wrappingAdd, toNat_wrappingAdd, toNat_not, toNat_one]
  omega

/-- A word and a carry hold a word product and the carry before. -/
theorem mulWord_eq (rhs : BitVec 64) {carry : BitVec 128} (small : carry.toNat < 2 ^ 64)
    (word : BitVec 64) :
    (mulWord rhs carry word).1.toNat + 2 ^ 64 * (mulWord rhs carry word).2.toNat =
        carry.toNat + rhs.toNat * word.toNat ∧
      (mulWord rhs carry word).2.toNat < 2 ^ 64 := by
  have product : rhs.toNat * word.toNat ≤ (2 ^ 64 - 1) * (2 ^ 64 - 1) :=
    Nat.mul_le_mul (Nat.le_pred_of_lt rhs.isLt) (Nat.le_pred_of_lt word.isLt)
  have value : (carry + rhs.setWidth 128 * word.setWidth 128).toNat =
      carry.toNat + rhs.toNat * word.toNat := by
    rw [BitVec.toNat_add, BitVec.toNat_mul, BitVec.toNat_setWidth_of_le (by decide),
      BitVec.toNat_setWidth_of_le (by decide), Nat.mod_eq_of_lt (by omega : rhs.toNat * word.toNat < _),
      Nat.mod_eq_of_lt (by omega)]
  simp only [mulWord, BitVec.toNat_setWidth, BitVec.toNat_ushiftRight, value,
    Nat.shiftRight_eq_div_pow]
  omega

/-- Two words side by side. -/
theorem toNat_joined (low high : BitVec 64) :
    (low.setWidth 128 ||| high.setWidth 128 <<< 64).toNat = low.toNat + 2 ^ 64 * high.toNat := by
  have boundLow := low.isLt
  have boundHigh := high.isLt
  rw [BitVec.toNat_or, BitVec.toNat_shiftLeft, BitVec.toNat_setWidth_of_le (by decide),
    BitVec.toNat_setWidth_of_le (by decide), Nat.mod_eq_of_lt (by rw [Nat.shiftLeft_eq]; omega),
    Nat.or_comm, ← Nat.shiftLeft_add_eq_or_of_lt boundLow, Nat.shiftLeft_eq]
  omega

/-- The two words of a half. -/
theorem toNat_split (x : BitVec 128) :
    (x.setWidth 64).toNat + 2 ^ 64 * ((x >>> 64).setWidth 64).toNat = x.toNat := by
  have bound := x.isLt
  simp only [BitVec.toNat_setWidth, BitVec.toNat_ushiftRight, Nat.shiftRight_eq_div_pow]
  omega

/-- The product by a word, up to the carry out of the last limb. -/
theorem mulU64_eq (x : U256) (rhs : BitVec 64) :
    ∃ carry, (x.mulU64 rhs).1.toNat + 2 ^ 256 * carry = x.toNat * rhs.toNat ∧
      ((x.mulU64 rhs).2 = true ↔ carry ≠ 0) := by
  rcases first : mulWord rhs 0 (x.low.setWidth 64) with ⟨word₀, carry₀⟩
  obtain ⟨round₀, small₀⟩ := mulWord_eq rhs (by decide : (0 : BitVec 128).toNat < 2 ^ 64)
    (x.low.setWidth 64)
  rw [first] at round₀ small₀
  rcases second : mulWord rhs carry₀ ((x.low >>> 64).setWidth 64) with ⟨word₁, carry₁⟩
  obtain ⟨round₁, small₁⟩ := mulWord_eq rhs small₀ ((x.low >>> 64).setWidth 64)
  rw [second] at round₁ small₁
  rcases third : mulWord rhs carry₁ (x.high.setWidth 64) with ⟨word₂, carry₂⟩
  obtain ⟨round₂, small₂⟩ := mulWord_eq rhs small₁ (x.high.setWidth 64)
  rw [third] at round₂ small₂
  rcases fourth : mulWord rhs carry₂ ((x.high >>> 64).setWidth 64) with ⟨word₃, carry₃⟩
  obtain ⟨round₃, small₃⟩ := mulWord_eq rhs small₂ ((x.high >>> 64).setWidth 64)
  rw [fourth] at round₃ small₃
  have words : x.toNat * rhs.toNat = rhs.toNat * (x.low.setWidth 64).toNat +
      2 ^ 64 * (rhs.toNat * ((x.low >>> 64).setWidth 64).toNat) +
      2 ^ 128 * (rhs.toNat * (x.high.setWidth 64).toNat) +
      2 ^ 192 * (rhs.toNat * ((x.high >>> 64).setWidth 64).toNat) := by
    rw [toNat, ← toNat_split x.low, ← toNat_split x.high]
    ring
  have zero : (0 : BitVec 128).toNat = 0 := rfl
  refine ⟨carry₃.toNat, ?_, ?_⟩
  · simp only [mulU64, first, second, third, fourth, words]
    rw [toNat, toNat_joined, toNat_joined]
    dsimp only at round₀ round₁ round₂ round₃
    omega
  · simp only [mulU64, first, second, third, fourth, bne_iff_ne, ne_eq, ← BitVec.toNat_inj, zero]

/-- A left shift of two halves, for a shift within a half. -/
theorem shl_halves {p q base high low : Nat} (positive : 0 < p) (split : base = p * q) :
    ((high * p % base + low / q) % base) * base + low * p % base =
      (high * base + low) * p % (base * base) := by
  have carried : low * p / base = low / q := by
    rw [split, mul_comm p q, Nat.mul_div_mul_right _ _ positive]
  have rearranged : (high * base + low) * p = low * p + base * (high * p) := by ring
  rw [Nat.mod_mul, rearranged, Nat.add_mul_mod_self_left]
  rcases Nat.eq_zero_or_pos base with zero | nonzero
  · simp [zero]
  · rw [Nat.add_mul_div_left _ _ nonzero, carried, Nat.mod_add_mod, Nat.add_comm (low / q)]
    ring

/-- A right shift of two halves, for a shift within a half. -/
theorem shr_halves {p q base high low : Nat} (split : base = p * q) (small : low < base) :
    (high / p) * base + (low / p + high * q % base) % base = (high * base + low) / p := by
  rcases Nat.eq_zero_or_pos p with zero | positive
  · simp [split, zero] at small
  have remainder : high % p < p := Nat.mod_lt _ positive
  have quotient : low / p < q := Nat.div_lt_of_lt_mul (split ▸ small)
  have product : high * q = (high / p) * base + (high % p) * q := by
    conv_lhs => rw [← Nat.div_add_mod high p]
    rw [split]
    ring
  have room : (high % p) * q + q ≤ base := by
    rw [split, ← Nat.succ_mul]
    exact Nat.mul_le_mul_right q remainder
  have shifted : (high * base + low) / p = high * q + low / p := by
    rw [split, show high * (p * q) + low = low + p * (high * q) by ring,
      Nat.add_mul_div_left _ _ positive, Nat.add_comm]
  have reduced : (high / p * base + high % p * q) % base = high % p * q := by
    rw [Nat.add_comm, Nat.add_mul_mod_self_right]
    exact Nat.mod_eq_of_lt (lt_of_lt_of_le (Nat.lt_add_of_pos_right (Nat.zero_lt_of_lt quotient)) room)
  have fits : low / p + high % p * q < base := by
    rw [Nat.add_comm]
    exact lt_of_lt_of_le (Nat.add_lt_add_left quotient _) room
  rw [shifted, product, reduced, Nat.mod_eq_of_lt fits]
  ring

theorem toNat_wrappingShl (x : U256) {shift : Nat} (small : shift < 256) :
    (x.wrappingShl shift).toNat = x.toNat * 2 ^ shift % 2 ^ 256 := by
  have square : (2 : Nat) ^ 256 = 2 ^ 128 * 2 ^ 128 := by norm_num
  rw [wrappingShl, Nat.mod_eq_of_lt small]
  split_ifs with word inside
  · obtain ⟨rest, rfl⟩ := Nat.exists_eq_add_of_le word
    rw [Nat.mod_eq_sub_mod word, Nat.add_sub_cancel_left, Nat.mod_eq_of_lt (by omega : rest < 128)]
    have product : x.toNat * 2 ^ (128 + rest) = (x.low.toNat * 2 ^ rest +
        2 ^ 128 * (x.high.toNat * 2 ^ rest)) * 2 ^ 128 := by
      rw [toNat, pow_add]
      ring
    rw [product, square, Nat.mul_mod_mul_right, Nat.add_mul_mod_self_left]
    simp [toNat, BitVec.toNat_shiftLeft, Nat.shiftLeft_eq]
  · rw [Nat.mod_eq_of_lt (by omega : shift < 128)]
    have split : (2 : Nat) ^ 128 = 2 ^ shift * 2 ^ (128 - shift) := by
      rw [← pow_add]
      congr 1
      omega
    rw [square, toNat.eq_1 x, ← shl_halves (Nat.two_pow_pos shift) split]
    simp only [toNat, BitVec.toNat_add, BitVec.toNat_shiftLeft, BitVec.toNat_ushiftRight, Nat.shiftLeft_eq,
      Nat.shiftRight_eq_div_pow]
  · obtain rfl : shift = 0 := by omega
    have bound := x.toNat_lt
    rw [pow_zero, mul_one, Nat.mod_eq_of_lt bound]
    simp [toNat]

theorem toNat_wrappingShr (x : U256) {shift : Nat} (small : shift < 256) :
    (x.wrappingShr shift).toNat = x.toNat / 2 ^ shift := by
  rw [wrappingShr, Nat.mod_eq_of_lt small]
  split_ifs with word inside
  · obtain ⟨rest, rfl⟩ := Nat.exists_eq_add_of_le word
    have low := x.low.isLt
    rw [Nat.mod_eq_sub_mod word, Nat.add_sub_cancel_left, Nat.mod_eq_of_lt (by omega : rest < 128),
      pow_add, ← Nat.div_div_eq_div_mul]
    have half : x.toNat / 2 ^ 128 = x.high.toNat := by
      rw [toNat]
      omega
    rw [half]
    simp [toNat, BitVec.toNat_ushiftRight, Nat.shiftRight_eq_div_pow]
  · rw [Nat.mod_eq_of_lt (by omega : shift < 128)]
    have split : (2 : Nat) ^ 128 = 2 ^ shift * 2 ^ (128 - shift) := by
      rw [← pow_add]
      congr 1
      omega
    rw [toNat, toNat, ← shr_halves split x.low.isLt]
    simp only [BitVec.toNat_add, BitVec.toNat_shiftLeft, BitVec.toNat_ushiftRight, Nat.shiftLeft_eq,
      Nat.shiftRight_eq_div_pow]
  · obtain rfl : shift = 0 := by omega
    simp [toNat]

/-- The product by a word is exact but for what is reported as an overflow. -/
theorem mulU64_exact (x : U256) (rhs : BitVec 64) :
    (x.mulU64 rhs).1.toNat = x.toNat * rhs.toNat % 2 ^ 256 ∧
      ((x.mulU64 rhs).2 = true ↔ 2 ^ 256 ≤ x.toNat * rhs.toNat) := by
  obtain ⟨carry, value, overflow⟩ := mulU64_eq x rhs
  have bound := toNat_lt (x.mulU64 rhs).1
  rw [overflow]
  omega

theorem toNat_mulU64 (x : U256) (rhs : BitVec 64) :
    (x.mulU64 rhs).1.toNat = x.toNat * rhs.toNat % 2 ^ 256 := (mulU64_exact x rhs).1

theorem toNat_lowU64 (x : U256) : x.lowU64.toNat = x.toNat % 2 ^ 64 := by
  rw [lowU64, BitVec.toNat_setWidth, toNat]
  omega

theorem toNat_lowU32 (x : U256) : x.lowU32.toNat = x.toNat % 2 ^ 32 := by
  rw [lowU32, BitVec.toNat_setWidth, toNat]
  omega

theorem toNat_term (x y : U256) {shift : Nat} (small : shift < 256) :
    ((x.mulU64 (y.wrappingShr shift).lowU64).1.wrappingShl shift).toNat =
      x.toNat * (y.toNat / 2 ^ shift % 2 ^ 64 * 2 ^ shift) % 2 ^ 256 := by
  rw [toNat_wrappingShl _ small, toNat_mulU64, toNat_lowU64, toNat_wrappingShr _ small,
    Nat.mod_mul_mod, mul_assoc]

/-- The three lower products, and the last one, which is not shifted. -/
theorem overflowingMul_limbs (x y : U256) :
    (x.overflowingMul y).1.toNat =
        (x.toNat * (y.toNat % 2 ^ 192) + x.toNat * (y.toNat / 2 ^ 192)) % 2 ^ 256 ∧
      ((x.overflowingMul y).2 = true ↔ 2 ^ 256 ≤ x.toNat * (y.toNat / 2 ^ 192) ∨
        2 ^ 256 ≤ x.toNat * (y.toNat % 2 ^ 192) % 2 ^ 256 +
          x.toNat * (y.toNat / 2 ^ 192) % 2 ^ 256) := by
  have boundY := y.toNat_lt
  have top : (y.wrappingShr 192).lowU64.toNat = y.toNat / 2 ^ 192 := by
    rw [toNat_lowU64, toNat_wrappingShr _ (by decide)]
    exact Nat.mod_eq_of_lt (by omega)
  obtain ⟨value, overflow⟩ := mulU64_exact x (y.wrappingShr 192).lowU64
  rw [top] at value overflow
  have words : y.toNat / 2 ^ (64 * 0) % 2 ^ 64 * 2 ^ (64 * 0) +
      y.toNat / 2 ^ (64 * 1) % 2 ^ 64 * 2 ^ (64 * 1) +
      y.toNat / 2 ^ (64 * 2) % 2 ^ 64 * 2 ^ (64 * 2) = y.toNat % 2 ^ 192 := by
    simp only [Nat.mul_zero, Nat.mul_one, Nat.reduceMul]
    omega
  have sum : (((zero.wrappingAdd
      ((x.mulU64 (y.wrappingShr (64 * 0)).lowU64).1.wrappingShl (64 * 0))).wrappingAdd
      ((x.mulU64 (y.wrappingShr (64 * 1)).lowU64).1.wrappingShl (64 * 1))).wrappingAdd
      ((x.mulU64 (y.wrappingShr (64 * 2)).lowU64).1.wrappingShl (64 * 2))).toNat =
      x.toNat * (y.toNat % 2 ^ 192) % 2 ^ 256 := by
    simp only [toNat_wrappingAdd, toNat_zero, Nat.zero_add]
    rw [toNat_term x y (by decide), toNat_term x y (by decide), toNat_term x y (by decide)]
    simp only [Nat.mod_add_mod, Nat.add_mod_mod, Nat.mod_mod, ← mul_add]
    rw [words]
  obtain ⟨total, carried⟩ := overflowingAdd_eq (((zero.wrappingAdd
      ((x.mulU64 (y.wrappingShr (64 * 0)).lowU64).1.wrappingShl (64 * 0))).wrappingAdd
      ((x.mulU64 (y.wrappingShr (64 * 1)).lowU64).1.wrappingShl (64 * 1))).wrappingAdd
      ((x.mulU64 (y.wrappingShr (64 * 2)).lowU64).1.wrappingShl (64 * 2)))
    (x.mulU64 (y.wrappingShr 192).lowU64).1
  rw [sum, value] at total carried
  simp only [overflowingMul]
  refine ⟨?_, ?_⟩
  · rw [total, Nat.mod_add_mod, Nat.add_mod_mod]
  · rw [Bool.or_eq_true, overflow, carried]

/-- A multiplier below `2 ^ 192` wraps without being reported. -/
theorem overflowingMul_eq (x : U256) {y : U256} (small : y.toNat < 2 ^ 192) :
    (x.overflowingMul y).1.toNat = x.toNat * y.toNat % 2 ^ 256 ∧ (x.overflowingMul y).2 = false := by
  obtain ⟨value, overflow⟩ := overflowingMul_limbs x y
  rw [Nat.mod_eq_of_lt small, Nat.div_eq_of_lt small, Nat.mul_zero] at value overflow
  rw [Nat.add_zero] at value
  refine ⟨value, ?_⟩
  rw [← Bool.not_eq_true, overflow, Nat.zero_mod, Nat.add_zero, not_or]
  exact ⟨by decide, Nat.not_le_of_lt (Nat.mod_lt _ (by decide))⟩

theorem mul_eq (x : U256) {y : U256} (small : y.toNat < 2 ^ 192) :
    ∃ product, x.mul y = some product ∧ product.toNat = x.toNat * y.toNat % 2 ^ 256 := by
  obtain ⟨value, quiet⟩ := overflowingMul_eq x small
  refine ⟨(x.overflowingMul y).1, ?_, value⟩
  simp only [mul, quiet, Bool.false_eq_true, if_false]

theorem leadingZeros_eq {x : BitVec 128} (nonzero : x.toNat ≠ 0) :
    128 - leadingZeros x = x.toNat.log2 + 1 := by
  have short := (Nat.log2_lt nonzero).mpr x.isLt
  rw [leadingZeros, if_neg fun zero => nonzero (congrArg BitVec.toNat zero)]
  omega

/-- The bits are those of the higher half that is not zero. -/
theorem bits_cases (x : U256) :
    (x.high.toNat = 0 ∧ x.low.toNat = 0 ∧ x.bits = 0) ∨
    (x.high.toNat = 0 ∧ x.low.toNat ≠ 0 ∧ x.bits = x.low.toNat.log2 + 1) ∨
    (x.high.toNat ≠ 0 ∧ x.bits = x.high.toNat.log2 + 1 + 128) := by
  by_cases high : x.high.toNat = 0
  · have absent : ¬ 0 < x.high := by
      rw [BitVec.lt_def, high]
      exact Nat.lt_irrefl 0
    rw [bits, if_neg absent]
    by_cases low : x.low.toNat = 0
    · have empty : x.low = 0 := BitVec.eq_of_toNat_eq low
      exact .inl ⟨high, low, by rw [leadingZeros, if_pos empty]⟩
    · exact .inr (.inl ⟨high, low, leadingZeros_eq low⟩)
  · have present : 0 < x.high := by
      rw [BitVec.lt_def]
      exact Nat.pos_of_ne_zero high
    rw [bits, if_pos present]
    have zeros := leadingZeros_eq high
    refine .inr (.inr ⟨high, ?_⟩)
    omega

theorem bits_eq_zero (x : U256) : x.bits = 0 ↔ x.toNat = 0 := by
  rw [toNat]
  rcases bits_cases x with ⟨high, low, bits⟩ | ⟨high, low, bits⟩ | ⟨high, bits⟩ <;> omega

theorem lt_two_pow_bits (x : U256) : x.toNat < 2 ^ x.bits := by
  have bound := x.low.isLt
  rcases bits_cases x with ⟨high, low, bits⟩ | ⟨high, low, bits⟩ | ⟨high, bits⟩
  · rw [toNat, high, low, bits]
    decide
  · rw [toNat, high, bits, Nat.zero_mul, Nat.zero_add]
    exact Nat.lt_log2_self
  · have top : x.high.toNat < 2 ^ (x.high.toNat.log2 + 1) := Nat.lt_log2_self
    rw [toNat, bits, pow_add]
    omega

theorem two_pow_bits_le {x : U256} (nonzero : x.toNat ≠ 0) : 2 ^ x.bits ≤ 2 * x.toNat := by
  rw [toNat] at nonzero ⊢
  rcases bits_cases x with ⟨high, low, bits⟩ | ⟨high, low, bits⟩ | ⟨high, bits⟩
  · omega
  · have top := Nat.log2_self_le low
    rw [bits, pow_succ]
    omega
  · have top := Nat.log2_self_le high
    rw [bits, pow_add, pow_succ]
    omega

theorem bits_le (x : U256) : x.bits ≤ 256 := by
  rcases bits_cases x with ⟨high, low, bits⟩ | ⟨high, low, bits⟩ | ⟨high, bits⟩
  · omega
  · have short := (Nat.log2_lt low).mpr x.low.isLt
    omega
  · have short := (Nat.log2_lt high).mpr x.high.isLt
    omega

theorem or_two_pow {n shift : Nat} (clear : 2 ^ (shift + 1) ∣ n) : n ||| 2 ^ shift = n + 2 ^ shift := by
  obtain ⟨k, rfl⟩ := clear
  have below : 2 ^ shift < 2 ^ (shift + 1) := Nat.pow_lt_pow_right (by decide) (Nat.lt_succ_self _)
  rw [mul_comm, ← Nat.shiftLeft_eq, Nat.shiftLeft_add_eq_or_of_lt below]

theorem toNat_one_shiftLeft {shift : Nat} (inside : shift < 128) :
    (1#128 <<< shift).toNat = 2 ^ shift := by
  have small : 2 ^ shift < 2 ^ 128 := Nat.pow_lt_pow_right (by decide) inside
  have one : (1#128).toNat = 1 := rfl
  rw [BitVec.toNat_shiftLeft, one, Nat.one_shiftLeft, Nat.mod_eq_of_lt small]

theorem toNat_setBit {x : U256} {shift : Nat} (inside : shift < 256)
    (clear : 2 ^ (shift + 1) ∣ x.toNat) : (x.setBit shift).toNat = x.toNat + 2 ^ shift := by
  rw [toNat] at clear
  rw [setBit]
  split_ifs with half
  · have short : shift < 128 := by omega
    have divides : 2 ^ (shift + 1) ∣ x.high.toNat * 2 ^ 128 :=
      Dvd.dvd.mul_left (Nat.pow_dvd_pow 2 (by omega)) _
    have low := (Nat.dvd_add_right divides).mp clear
    rw [Nat.mod_eq_of_lt short, toNat, toNat, BitVec.toNat_or, toNat_one_shiftLeft short,
      or_two_pow low, Nat.add_assoc]
  · obtain ⟨rest, rfl⟩ := Nat.exists_eq_add_of_le (by omega : 128 ≤ shift)
    have lowBound := x.low.isLt
    have divides : 2 ^ 128 ∣ x.high.toNat * 2 ^ 128 + x.low.toNat :=
      (Nat.pow_dvd_pow 2 (by omega)).trans clear
    have empty : x.low.toNat = 0 := by omega
    have high : 2 ^ (rest + 1) ∣ x.high.toNat := by
      rw [empty, Nat.add_zero (_ * _), show 128 + rest + 1 = rest + 1 + 128 by omega,
        pow_add 2 (rest + 1)] at clear
      exact Nat.dvd_of_mul_dvd_mul_right (Nat.two_pow_pos 128) clear
    rw [Nat.add_mod_left, Nat.mod_eq_of_lt (by omega : rest < 128), toNat, toNat, BitVec.toNat_or,
      toNat_one_shiftLeft (by omega), or_two_pow high, pow_add 2 128 rest]
    ring

/-- One round of the long division. -/
theorem divStep_eq {divisor dividend shift : Nat} (inside : shift < 256) {ret subCopy shiftCopy : U256}
    (aligned : shiftCopy.toNat = divisor * 2 ^ shift)
    (bounded : subCopy.toNat < divisor * 2 ^ (shift + 1)) (clear : 2 ^ (shift + 1) ∣ ret.toNat)
    (total : ret.toNat * divisor + subCopy.toNat = dividend) :
    ∃ nextRet nextSub : U256,
      (if shiftCopy.le subCopy then ret.setBit shift else ret) = nextRet ∧
      (if shiftCopy.le subCopy then subCopy.wrappingSub shiftCopy else subCopy) = nextSub ∧
      nextSub.toNat < divisor * 2 ^ shift ∧ 2 ^ shift ∣ nextRet.toNat ∧
      nextRet.toNat * divisor + nextSub.toNat = dividend := by
  refine ⟨_, _, rfl, rfl, ?_⟩
  have below : 2 ^ shift ∣ ret.toNat := (Nat.pow_dvd_pow 2 (Nat.le_succ shift)).trans clear
  have double : divisor * 2 ^ (shift + 1) = divisor * 2 ^ shift + divisor * 2 ^ shift := by ring
  by_cases fits : shiftCopy.le subCopy = true
  · have enough := (le_iff _ _).mp fits
    have share : (ret.toNat + 2 ^ shift) * divisor = ret.toNat * divisor + divisor * 2 ^ shift := by
      ring
    rw [if_pos fits, if_pos fits, toNat_setBit inside clear, toNat_wrappingSub enough, aligned]
    rw [aligned] at enough
    exact ⟨by omega, Nat.dvd_add below (Nat.dvd_refl _), by omega⟩
  · have short := mt (le_iff _ _).mpr fits
    rw [if_neg fits, if_neg fits]
    exact ⟨by omega, below, total⟩

/-- The long division loop: the remainder ends below the divisor, and quotient and
remainder always make up the dividend. -/
theorem divLoop_eq {divisor dividend shift : Nat} (inside : shift < 256) {ret subCopy shiftCopy : U256}
    (aligned : shiftCopy.toNat = divisor * 2 ^ shift)
    (bounded : subCopy.toNat < divisor * 2 ^ (shift + 1)) (clear : 2 ^ (shift + 1) ∣ ret.toNat)
    (total : ret.toNat * divisor + subCopy.toNat = dividend) :
    (divLoop shift ret subCopy shiftCopy).1.toNat * divisor +
        (divLoop shift ret subCopy shiftCopy).2.toNat = dividend ∧
      (divLoop shift ret subCopy shiftCopy).2.toNat < divisor := by
  induction shift generalizing ret subCopy shiftCopy with
  | zero =>
    obtain ⟨nextRet, nextSub, retEq, subEq, bounded, -, total⟩ :=
      divStep_eq inside aligned bounded clear total
    rw [divLoop]
    simp only [retEq, subEq]
    rw [pow_zero, mul_one] at bounded
    exact ⟨total, bounded⟩
  | succ shift ih =>
    obtain ⟨nextRet, nextSub, retEq, subEq, bounded, clear, total⟩ :=
      divStep_eq inside aligned bounded clear total
    rw [divLoop]
    simp only [retEq, subEq]
    refine ih (by omega) ?_ bounded clear total
    rw [toNat_wrappingShr _ (by decide), aligned, pow_one, pow_succ, ← mul_assoc,
      Nat.mul_div_cancel _ Nat.two_pos]

/-- Quotient and remainder. -/
theorem divRem_eq (x : U256) {y : U256} (nonzero : y.toNat ≠ 0) :
    ∃ quotient remainder, x.divRem y = some (quotient, remainder) ∧
      quotient.toNat * y.toNat + remainder.toNat = x.toNat ∧ remainder.toNat < y.toNat := by
  have someBits : y.bits ≠ 0 := mt (bits_eq_zero y).mp nonzero
  have upper := lt_two_pow_bits x
  have divisorBits := two_pow_bits_le nonzero
  rw [divRem, if_neg someBits]
  split_ifs with less
  · refine ⟨zero, x, rfl, ?_, ?_⟩
    · rw [toNat_zero, Nat.zero_mul, Nat.zero_add]
    · have ordered : 2 ^ (x.bits + 1) ≤ 2 ^ y.bits := Nat.pow_le_pow_right (by decide) less
      rw [pow_succ] at ordered
      omega
  · have bitsX := bits_le x
    have split : 2 ^ y.bits * 2 ^ (x.bits - y.bits) = 2 ^ x.bits := by
      rw [← pow_add]
      congr 1
      omega
    have largest : 2 ^ x.bits ≤ 2 ^ 256 := Nat.pow_le_pow_right (by decide) bitsX
    have fits : y.toNat * 2 ^ (x.bits - y.bits) < 2 ^ 256 := by
      refine lt_of_lt_of_le ?_ largest
      rw [← split]
      exact Nat.mul_lt_mul_of_pos_right (lt_two_pow_bits y) (Nat.two_pow_pos _)
    have aligned : (y.wrappingShl (x.bits - y.bits)).toNat = y.toNat * 2 ^ (x.bits - y.bits) := by
      rw [toNat_wrappingShl _ (by omega), Nat.mod_eq_of_lt fits]
    have bounded : x.toNat < y.toNat * 2 ^ (x.bits - y.bits + 1) := by
      refine lt_of_lt_of_le upper ?_
      rw [← split, pow_succ, ← mul_assoc, mul_right_comm]
      exact Nat.mul_le_mul_right _ (by omega)
    have start : zero.toNat * y.toNat + x.toNat = x.toNat := by
      rw [toNat_zero, Nat.zero_mul, Nat.zero_add]
    obtain ⟨total, remainder⟩ := divLoop_eq (by omega) aligned bounded
      (by rw [toNat_zero]; exact Nat.dvd_zero _) start
    exact ⟨_, _, rfl, total, remainder⟩

theorem toNat_div (x : U256) {y : U256} (nonzero : y.toNat ≠ 0) :
    ∃ quotient, x.div y = some quotient ∧ quotient.toNat = x.toNat / y.toNat := by
  obtain ⟨quotient, remainder, divided, total, less⟩ := divRem_eq x nonzero
  refine ⟨quotient, by rw [div, divided]; rfl, ?_⟩
  rw [← total, Nat.add_comm, Nat.add_mul_div_right _ _ (Nat.pos_of_ne_zero nonzero),
    Nat.div_eq_of_lt less, Nat.zero_add]

end U256
end Litecoin.Pow
