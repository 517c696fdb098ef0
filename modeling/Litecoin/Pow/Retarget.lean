import Litecoin.Pow.Arithmetic
import Litecoin.Pow.Target
import Mathlib.Data.Nat.Bitwise

/-! The difficulty adjustment against exact integers: the compact form keeps the order of
targets, and the product of target and timespan is exact up to 256 bits. -/
namespace Litecoin.Pow
namespace Target

/-- The compact form of a number of `size` bytes with the leading bytes `mantissa`. -/
def packed (size mantissa : Nat) : Nat :=
  if mantissa < 2 ^ 23 then size * 2 ^ 24 + mantissa else (size + 1) * 2 ^ 24 + mantissa / 256

/-- `size` is the number of bytes of `n`. -/
structure ByteSize (n size : Nat) : Prop where
  upper : n < 256 ^ size
  lower : size ≠ 0 → 256 ^ (size - 1) ≤ n

/-- The three leading bytes of a number of `size` bytes. -/
def leading (n size : Nat) : Nat := n * 256 ^ 3 / 256 ^ size

theorem leading_lt {n size : Nat} (bytes : ByteSize n size) : leading n size < 2 ^ 24 := by
  have positive : 0 < 256 ^ size := Nat.pow_pos (by decide)
  rw [leading, Nat.div_lt_iff_lt_mul positive, Nat.mul_comm]
  exact Nat.mul_lt_mul_of_pos_left bytes.upper (by decide)

theorem le_leading {n size : Nat} (bytes : ByteSize n size) (some_ : size ≠ 0) :
    2 ^ 16 ≤ leading n size := by
  obtain ⟨rest, rfl⟩ := Nat.exists_eq_succ_of_ne_zero some_
  have positive : 0 < 256 ^ (rest + 1) := Nat.pow_pos (by decide)
  have lower := bytes.lower some_
  rw [Nat.succ_eq_add_one, Nat.add_sub_cancel] at lower
  rw [leading, Nat.succ_eq_add_one, Nat.le_div_iff_mul_le positive, pow_succ]
  omega

theorem byteSize_mono {n₁ n₂ size₁ size₂ : Nat} (bytes₁ : ByteSize n₁ size₁)
    (bytes₂ : ByteSize n₂ size₂) (ordered : n₁ ≤ n₂) : size₁ ≤ size₂ := by
  by_contra longer
  have first := bytes₁.lower (by omega)
  have power : 256 ^ size₂ ≤ 256 ^ (size₁ - 1) := Nat.pow_le_pow_right (by decide) (by omega)
  have second := bytes₂.upper
  omega

/-- The compact form keeps the order, although it rounds down. -/
theorem packed_mono {n₁ n₂ size₁ size₂ : Nat} (bytes₁ : ByteSize n₁ size₁)
    (bytes₂ : ByteSize n₂ size₂) (ordered : n₁ ≤ n₂) :
    packed size₁ (leading n₁ size₁) ≤ packed size₂ (leading n₂ size₂) := by
  have sizes := byteSize_mono bytes₁ bytes₂ ordered
  have upper₁ := leading_lt bytes₁
  have upper₂ := leading_lt bytes₂
  rcases sizes.lt_or_eq with shorter | rfl
  · have lower₂ := le_leading bytes₂ (by omega)
    rw [packed, packed]
    split_ifs <;> omega
  · have mantissas : leading n₁ size₁ ≤ leading n₂ size₁ :=
      Nat.div_le_div_right (Nat.mul_le_mul_right _ ordered)
    rw [packed, packed]
    split_ifs <;> omega

theorem bits_byteSize (x : U256) : ByteSize x.toNat ((x.bits + 7) / 8) where
  upper := by
    refine lt_of_lt_of_le x.lt_two_pow_bits ?_
    rw [show (256 : Nat) = 2 ^ 8 by rfl, ← pow_mul]
    exact Nat.pow_le_pow_right (by decide) (by omega)
  lower := by
    intro some_
    have nonzero : x.toNat ≠ 0 := mt x.bits_eq_zero.mpr (by omega)
    have leadingBit := U256.two_pow_bits_le nonzero
    have power : 256 ^ ((x.bits + 7) / 8 - 1) * 2 ≤ 2 ^ x.bits := by
      rw [show (256 : Nat) = 2 ^ 8 by rfl, ← pow_mul, ← pow_succ]
      exact Nat.pow_le_pow_right (by decide) (by omega)
    omega

/-- The mantissa before the sign bit is cleared. -/
theorem toNat_leadingBytes (x : U256) :
    (leadingBytes x ((x.bits + 7) / 8)).toNat = leading x.toNat ((x.bits + 7) / 8) := by
  have bytes := bits_byteSize x
  have upper := leading_lt bytes
  have bitsLe := x.bits_le
  obtain ⟨size, sizeEq⟩ : ∃ size, size = (x.bits + 7) / 8 := ⟨_, rfl⟩
  have sizeLe : size ≤ 32 := by omega
  rw [← sizeEq] at bytes upper ⊢
  rw [leadingBytes]
  split_ifs with short
  · have shifted : leading x.toNat size = x.toNat * 2 ^ (8 * (3 - size)) := by
      have split : 256 ^ 3 = 2 ^ (8 * (3 - size)) * 256 ^ size := by
        rw [show (256 : Nat) = 2 ^ 8 by rfl, ← pow_mul, ← pow_mul, ← pow_add]
        congr 1
        omega
      rw [leading, split, ← mul_assoc, Nat.mul_div_cancel _ (Nat.pow_pos (by decide))]
    have small : x.toNat ≤ x.toNat * 2 ^ (8 * (3 - size)) :=
      Nat.le_mul_of_pos_right _ (Nat.two_pow_pos _)
    rw [shifted] at upper ⊢
    rw [BitVec.toNat_setWidth, BitVec.toNat_shiftLeft, U256.toNat_lowU64, Nat.shiftLeft_eq,
      Nat.mod_eq_of_lt (by omega : x.toNat < 2 ^ 64), Nat.mod_eq_of_lt (by omega : _ < 2 ^ 64),
      Nat.mod_eq_of_lt (by omega)]
  · obtain ⟨rest, rfl⟩ := Nat.exists_eq_add_of_le (by omega : 3 ≤ size)
    have shifted : leading x.toNat (3 + rest) = x.toNat / 2 ^ (8 * rest) := by
      rw [leading, pow_add, mul_comm x.toNat, Nat.mul_div_mul_left _ _ (by decide),
        show (256 : Nat) = 2 ^ 8 by rfl, ← pow_mul]
    rw [Nat.add_sub_cancel_left, U256.toNat_lowU32, U256.toNat_wrappingShr _ (by omega), ← shifted,
      Nat.mod_eq_of_lt (by omega)]

theorem sign_bit {compact : BitVec 32} (small : compact.toNat < 2 ^ 24) :
    compact &&& 0x00800000#32 ≠ 0 ↔ 2 ^ 23 ≤ compact.toNat := by
  have mask : (0x00800000#32).toNat = 2 ^ 23 := rfl
  have zero : (0 : BitVec 32).toNat = 0 := rfl
  rw [ne_eq, ← BitVec.toNat_inj, BitVec.toNat_and, mask, zero, Nat.and_two_pow,
    Nat.testBit_eq_decide_div_mod_eq]
  have quotient : compact.toNat / 2 ^ 23 % 2 = 1 ↔ 2 ^ 23 ≤ compact.toNat := by omega
  rw [← quotient]
  simp

theorem toNat_or_size {mantissa : BitVec 32} (small : mantissa.toNat < 2 ^ 24) {size : Nat}
    (short : size < 256) :
    (mantissa ||| BitVec.ofNat 32 size <<< 24).toNat = size * 2 ^ 24 + mantissa.toNat := by
  rw [BitVec.toNat_or, BitVec.toNat_shiftLeft, BitVec.toNat_ofNat,
    Nat.mod_eq_of_lt (by omega : size < 2 ^ 32), Nat.mod_eq_of_lt (by rw [Nat.shiftLeft_eq]; omega),
    Nat.or_comm,
    ← Nat.shiftLeft_add_eq_or_of_lt small, Nat.shiftLeft_eq]

theorem toNat_toCompactLossy (x : U256) : (toCompactLossy x).toNat =
    packed ((x.bits + 7) / 8) (leading x.toNat ((x.bits + 7) / 8)) := by
  have upper := leading_lt (bits_byteSize x)
  have bitsLe := x.bits_le
  rw [← toNat_leadingBytes] at upper ⊢
  rw [toCompactLossy, packed]
  simp only [sign_bit upper]
  split_ifs with high low low
  · omega
  · have shifted : (leadingBytes x ((x.bits + 7) / 8) >>> 8).toNat =
        (leadingBytes x ((x.bits + 7) / 8)).toNat / 256 := by
      rw [BitVec.toNat_ushiftRight, Nat.shiftRight_eq_div_pow]
    rw [toNat_or_size (by omega) (by omega), shifted]
  · rw [toNat_or_size upper (by omega)]
  · omega

theorem toCompactLossy_mono {x y : U256} (ordered : x.toNat ≤ y.toNat) :
    toCompactLossy x ≤ toCompactLossy y := by
  rw [BitVec.le_def, toNat_toCompactLossy, toNat_toCompactLossy]
  exact packed_mono (bits_byteSize x) (bits_byteSize y) ordered

end Target

open U256 Target

/-- The timespan within a quarter and four times the expected one. -/
def Params.clamped (params : Params) (timespan : BitVec 64) : Nat :=
  max (params.powTargetTimespan.toNat / 4)
    (min timespan.toNat (4 * params.powTargetTimespan.toNat))

theorem clamp_eq {params : Params} (short : 4 * params.powTargetTimespan.toNat < 2 ^ 64)
    (timespan : BitVec 64) :
    ∃ actual, clamp timespan (params.powTargetTimespan >>> 2) (params.powTargetTimespan <<< 2) =
      some actual ∧ actual.toNat = params.clamped timespan := by
  have lower : (params.powTargetTimespan >>> 2).toNat = params.powTargetTimespan.toNat / 4 := by
    rw [BitVec.toNat_ushiftRight, Nat.shiftRight_eq_div_pow]
  have upper : (params.powTargetTimespan <<< 2).toNat = 4 * params.powTargetTimespan.toNat := by
    rw [BitVec.toNat_shiftLeft, Nat.shiftLeft_eq]
    omega
  rw [clamp, Params.clamped]
  simp only [BitVec.lt_def, lower, upper]
  split_ifs with disorder below above
  · omega
  · exact ⟨_, rfl, by omega⟩
  · exact ⟨_, rfl, by omega⟩
  · exact ⟨_, rfl, by omega⟩

theorem toNat_maxTransitionThreshold {target : U256} (params : Params)
    (small : target.toNat * 4 < 2 ^ 256) :
    (maxTransitionThreshold target params).toNat =
      min (target.toNat * 4) params.maxAttainableTarget.toNat := by
  have shifted : (maxTransitionThresholdUnchecked target).toNat = target.toNat * 4 := by
    rw [maxTransitionThresholdUnchecked, toNat_wrappingShl _ (by decide)]
    exact Nat.mod_eq_of_lt small
  simp only [maxTransitionThreshold, le_iff, shifted]
  split_ifs with below
  · rw [shifted, Nat.min_eq_left below]
  · rw [Nat.min_eq_right (by omega)]

theorem fromNextWorkRequired_unfold {params : Params} (retargets : params.noPowRetargeting = false)
    {last : CompactTarget} {timespan actual : BitVec 64} {product quotient : U256}
    (clamped : clamp timespan (params.powTargetTimespan >>> 2) (params.powTargetTimespan <<< 2) =
      some actual)
    (multiplied : (fromCompact last).mul (ofU128 (actual.setWidth 128)) = some product)
    (divided : product.div (ofU128 (params.powTargetTimespan.setWidth 128)) = some quotient) :
    fromNextWorkRequired last timespan params =
      if (maxTransitionThreshold (fromCompact last) params).le quotient then
        some (toCompactLossy (maxTransitionThreshold (fromCompact last) params))
      else some (toCompactLossy quotient) := by
  simp only [fromNextWorkRequired, retargets, Bool.false_eq_true, if_false, clamped, multiplied,
    divided, Option.bind_eq_bind, Option.bind_some]

/-- The adjustment, with the product cut to 256 bits. -/
theorem fromNextWorkRequired_eq {params : Params} (retargets : params.noPowRetargeting = false)
    (positive : params.powTargetTimespan.toNat ≠ 0)
    (short : 4 * params.powTargetTimespan.toNat < 2 ^ 64) {last : CompactTarget}
    (small : (fromCompact last).toNat * 4 < 2 ^ 256) (timespan : BitVec 64) :
    fromNextWorkRequired last timespan params = some (toCompactLossy (U256.ofNat
      (min ((fromCompact last).toNat * params.clamped timespan % 2 ^ 256 /
          params.powTargetTimespan.toNat)
        (min ((fromCompact last).toNat * 4) params.maxAttainableTarget.toNat)))) := by
  obtain ⟨actual, clamped, actualEq⟩ := clamp_eq short timespan
  have multiplier : (ofU128 (actual.setWidth 128)).toNat = params.clamped timespan := by
    rw [toNat_ofU128, BitVec.toNat_setWidth_of_le (by decide), actualEq]
  have divisor : (ofU128 (params.powTargetTimespan.setWidth 128)).toNat =
      params.powTargetTimespan.toNat := by
    rw [toNat_ofU128, BitVec.toNat_setWidth_of_le (by decide)]
  have multiplierLt : (ofU128 (actual.setWidth 128)).toNat < 2 ^ 192 := by
    have bound := actual.isLt
    rw [multiplier, ← actualEq]
    omega
  obtain ⟨product, multiplied, productEq⟩ := mul_eq (fromCompact last) multiplierLt
  obtain ⟨quotient, divided, quotientEq⟩ := toNat_div product (divisor.trans_ne positive)
  have value : quotient.toNat = (fromCompact last).toNat * params.clamped timespan % 2 ^ 256 /
      params.powTargetTimespan.toNat := by
    rw [quotientEq, productEq, multiplier, divisor]
  have threshold := toNat_maxTransitionThreshold params small
  rw [fromNextWorkRequired_unfold retargets clamped multiplied divided, ← value, ← threshold]
  by_cases reached : (maxTransitionThreshold (fromCompact last) params).le quotient = true
  · rw [if_pos reached, Nat.min_eq_right ((le_iff _ _).mp reached), ofNat_toNat]
  · have below := not_le.mp (mt (le_iff _ _).mpr reached)
    rw [if_neg reached, Nat.min_eq_left below.le, ofNat_toNat]

/-- The product of target and timespan is the one of unbounded integers. -/
def ProductExact (params : Params) (last : CompactTarget) (timespan : BitVec 64) : Prop :=
  ((fromCompact last).overflowingMul (U256.ofNat (params.clamped timespan))).1.toNat =
    (fromCompact last).toNat * params.clamped timespan

/-- The adjusted target is the one of unbounded integers. -/
def ResultExact (params : Params) (last : CompactTarget) (timespan : BitVec 64) : Prop :=
  fromNextWorkRequired last timespan params = some (toCompactLossy (U256.ofNat
    (min params.maxAttainableTarget.toNat
      ((fromCompact last).toNat * params.clamped timespan / params.powTargetTimespan.toNat))))

/-- A longer timespan never gives a lower target. -/
def MonotoneInTimespan (params : Params) (last : CompactTarget) : Prop :=
  ∀ timespan₁ timespan₂ result₁ result₂, timespan₁ ≤ timespan₂ →
    fromNextWorkRequired last timespan₁ params = some result₁ →
    fromNextWorkRequired last timespan₂ params = some result₂ → result₁ ≤ result₂

/-- What the two networks share: both limits have 20 leading bits of 236. -/
structure Params.Deployed (params : Params) : Prop where
  retargets : params.noPowRetargeting = false
  timespan : params.powTargetTimespan.toNat = 302400
  limit : 0x0ffff0 * 2 ^ 216 ≤ params.maxAttainableTarget.toNat
  limit_le : params.maxAttainableTarget.toNat ≤ 0x0fffff * 2 ^ 216

theorem Params.deployed_of {params : Params} (known : params = .mainnet ∨ params = .testnet4) :
    params.Deployed := by
  rcases known with rfl | rfl
  · exact ⟨rfl, rfl, by decide, by decide⟩
  · exact ⟨rfl, rfl, by decide, by decide⟩

theorem Params.clamped_le (params : Params) (timespan : BitVec 64) :
    params.clamped timespan ≤ 4 * params.powTargetTimespan.toNat := by
  rw [clamped]
  omega

theorem Params.clamped_mono (params : Params) {timespan₁ timespan₂ : BitVec 64}
    (ordered : timespan₁ ≤ timespan₂) : params.clamped timespan₁ ≤ params.clamped timespan₂ := by
  rw [BitVec.le_def] at ordered
  rw [clamped, clamped]
  omega

section
variable {params : Params} {last : CompactTarget}

theorem adjusted_eq (known : params.Deployed)
    (attainable : (fromCompact last).toNat ≤ params.maxAttainableTarget.toNat)
    (timespan : BitVec 64) :
    fromNextWorkRequired last timespan params = some (toCompactLossy (U256.ofNat
      (min ((fromCompact last).toNat * params.clamped timespan % 2 ^ 256 /
          params.powTargetTimespan.toNat)
        (min ((fromCompact last).toNat * 4) params.maxAttainableTarget.toNat)))) := by
  have limit := known.limit_le
  have timespanEq := known.timespan
  exact fromNextWorkRequired_eq known.retargets (by omega) (by omega) (by omega) timespan

theorem productExact_iff (known : params.Deployed) (timespan : BitVec 64) :
    ProductExact params last timespan ↔
      (fromCompact last).toNat * params.clamped timespan < 2 ^ 256 := by
  have bound := params.clamped_le timespan
  have timespanEq := known.timespan
  have multiplier : (U256.ofNat (params.clamped timespan)).toNat = params.clamped timespan :=
    toNat_ofNat (by omega)
  rw [ProductExact, (overflowingMul_eq _ (by omega)).1, multiplier]
  exact ⟨fun exact => exact ▸ Nat.mod_lt _ (Nat.two_pow_pos 256), Nat.mod_eq_of_lt⟩

/-- Without wrapping the limits are applied to the exact quotient. -/
theorem resultExact_of_fits (known : params.Deployed)
    (attainable : (fromCompact last).toNat ≤ params.maxAttainableTarget.toNat)
    {timespan : BitVec 64} (fits : (fromCompact last).toNat * params.clamped timespan < 2 ^ 256) :
    ResultExact params last timespan := by
  have timespanEq := known.timespan
  have quotient : (fromCompact last).toNat * params.clamped timespan /
      params.powTargetTimespan.toNat ≤ (fromCompact last).toNat * 4 := by
    rw [Nat.div_le_iff_le_mul_add_pred (by omega), mul_comm _ (_ * 4), mul_assoc]
    exact (Nat.mul_le_mul_left _ (params.clamped_le timespan)).trans (Nat.le_add_right _ _)
  rw [ResultExact, adjusted_eq known attainable, Nat.mod_eq_of_lt fits]
  congr 3
  omega

/-- Far below the limit, the compact form differs from that of the limit. -/
theorem toCompactLossy_lt_limit (known : params.Deployed) {n : Nat} (low : n ≤ 0x0a0000 * 2 ^ 216) :
    toCompactLossy (U256.ofNat n) < toCompactLossy params.maxAttainableTarget := by
  have middle : (U256.ofNat n).toNat ≤ (U256.ofNat (0x0a0000 * 2 ^ 216)).toNat := by
    rw [toNat_ofNat (by omega), toNat_ofNat (by omega)]
    exact low
  have upper : (U256.ofNat (0x0ffff0 * 2 ^ 216)).toNat ≤ params.maxAttainableTarget.toNat := by
    rw [toNat_ofNat (by omega)]
    exact known.limit
  have apart : toCompactLossy (U256.ofNat (0x0a0000 * 2 ^ 216)) <
      toCompactLossy (U256.ofNat (0x0ffff0 * 2 ^ 216)) := by decide
  have first := toCompactLossy_mono middle
  have last := toCompactLossy_mono upper
  rw [BitVec.lt_def] at apart ⊢
  rw [BitVec.le_def] at first last
  omega

/-- A wrapped product gives a target far below the limit, where the limit is due. -/
theorem fits_of_resultExact (known : params.Deployed)
    (attainable : (fromCompact last).toNat ≤ params.maxAttainableTarget.toNat)
    {timespan : BitVec 64} (exact : ResultExact params last timespan) :
    (fromCompact last).toNat * params.clamped timespan < 2 ^ 256 := by
  by_contra wraps
  have limit := known.limit_le
  have timespanEq := known.timespan
  have largest : (fromCompact last).toNat * params.clamped timespan ≤
      (0x0fffff * 2 ^ 216) * (4 * 302400) :=
    Nat.mul_le_mul (attainable.trans limit) (timespanEq ▸ params.clamped_le timespan)
  have due : params.maxAttainableTarget.toNat ≤
      (fromCompact last).toNat * params.clamped timespan / params.powTargetTimespan.toNat := by
    rw [timespanEq]
    omega
  have wrapped : (fromCompact last).toNat * params.clamped timespan % 2 ^ 256 / 302400 ≤
      0x0a0000 * 2 ^ 216 := by
    omega
  rw [ResultExact, adjusted_eq known attainable, Nat.min_eq_left due, ofNat_toNat,
    Option.some.injEq, timespanEq] at exact
  have below := toCompactLossy_lt_limit known ((Nat.min_le_left _ (min
    ((fromCompact last).toNat * 4) params.maxAttainableTarget.toNat)).trans wrapped)
  rw [exact] at below
  exact BitVec.lt_irrefl _ below

/-- On the main and the test network the adjustment is exact, target by target, as long as
the product of target and clamped timespan stays below `2 ^ 256`. -/
theorem retarget_exact_iff (known : params = .mainnet ∨ params = .testnet4)
    (attainable : (fromCompact last).toNat ≤ params.maxAttainableTarget.toNat) :
    (∀ timespan,
      (ProductExact params last timespan ∧ ResultExact params last timespan ↔
        (fromCompact last).toNat * params.clamped timespan < 2 ^ 256) ∧
      (ResultExact params last timespan ↔
        (fromCompact last).toNat * params.clamped timespan < 2 ^ 256)) ∧
    ((∀ timespan, ProductExact params last timespan ∧ ResultExact params last timespan) ∧
        MonotoneInTimespan params last ↔
      (fromCompact last).toNat * (4 * params.powTargetTimespan.toNat) < 2 ^ 256) := by
  have deployed := Params.deployed_of known
  have pointwise : ∀ timespan, ResultExact params last timespan ↔
      (fromCompact last).toNat * params.clamped timespan < 2 ^ 256 := fun timespan =>
    ⟨fits_of_resultExact deployed attainable, resultExact_of_fits deployed attainable⟩
  have both : ∀ timespan, ProductExact params last timespan ∧ ResultExact params last timespan ↔
      (fromCompact last).toNat * params.clamped timespan < 2 ^ 256 := by
    intro timespan
    rw [pointwise, productExact_iff deployed, and_self]
  refine ⟨fun timespan => ⟨both timespan, pointwise timespan⟩, ?_, ?_⟩
  · rintro ⟨exact, -⟩
    have timespanEq := deployed.timespan
    have longest := (both 1209600).mp (exact 1209600)
    have clamped : params.clamped 1209600 = 4 * params.powTargetTimespan.toNat := by
      have value : (1209600 : BitVec 64).toNat = 1209600 := rfl
      rw [Params.clamped, timespanEq, value]
      rfl
    rwa [clamped] at longest
  · intro fits
    have each : ∀ timespan, (fromCompact last).toNat * params.clamped timespan < 2 ^ 256 :=
      fun timespan => lt_of_le_of_lt (Nat.mul_le_mul_left _ (params.clamped_le timespan)) fits
    refine ⟨fun timespan => (both timespan).mpr (each timespan), ?_⟩
    intro timespan₁ timespan₂ result₁ result₂ ordered first second
    rw [(pointwise timespan₁).mpr (each timespan₁), Option.some.injEq] at first
    rw [(pointwise timespan₂).mpr (each timespan₂), Option.some.injEq] at second
    subst first
    subst second
    apply toCompactLossy_mono
    have limit := params.maxAttainableTarget.toNat_lt
    rw [toNat_ofNat (lt_of_le_of_lt (Nat.min_le_left _ _) limit),
      toNat_ofNat (lt_of_le_of_lt (Nat.min_le_left _ _) limit)]
    exact min_le_min_left _ (Nat.div_le_div_right
      (Nat.mul_le_mul_left _ (params.clamped_mono ordered)))

theorem midTarget_exact : (fromCompact 0x1b0404cb).toNat ≤ Params.mainnet.maxAttainableTarget.toNat ∧
    (∀ timespan, ProductExact .mainnet 0x1b0404cb timespan ∧ ResultExact .mainnet 0x1b0404cb timespan) ∧
    MonotoneInTimespan .mainnet 0x1b0404cb := by
  have attainable : (fromCompact 0x1b0404cb).toNat ≤ Params.mainnet.maxAttainableTarget.toNat := by
    decide
  exact ⟨attainable, (retarget_exact_iff (.inl rfl) attainable).2.mpr (by decide)⟩

/-- At the limit, a timespan of 1048593 seconds wraps the product. -/
theorem limit_not_exact : 0 < (fromCompact 0x1e0ffff0).toNat ∧
    (fromCompact 0x1e0ffff0).toNat ≤ Params.mainnet.maxAttainableTarget.toNat ∧
    ¬ ProductExact .mainnet 0x1e0ffff0 1048593 ∧ ¬ ResultExact .mainnet 0x1e0ffff0 1048593 ∧
    ¬ MonotoneInTimespan .mainnet 0x1e0ffff0 := by
  refine ⟨by decide +kernel, by decide +kernel, ?_, ?_, ?_⟩
  · rw [ProductExact]
    decide +kernel
  · rw [ResultExact]
    decide +kernel
  · intro monotone
    have wrapped : fromNextWorkRequired 0x1e0ffff0 1048593 .mainnet = some 0x1c037773 := by
      decide +kernel
    have before : fromNextWorkRequired 0x1e0ffff0 1048592 .mainnet = some 0x1e0ffff0 := by
      decide +kernel
    exact absurd (monotone 1048592 1048593 _ _ (by decide) before wrapped) (by decide)

end

end Litecoin.Pow
