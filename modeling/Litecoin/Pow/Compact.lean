import Litecoin.Pow.Retarget
import Litecoin.Wire.Rounding

/-! The compact form of a target as a number: what decoding does over all exponents, and
encoding as rounding down. -/
namespace Litecoin.Pow
open Wire U256

namespace CompactTarget

def exponent (bits : CompactTarget) : Nat := bits.toNat / 2 ^ 24

def mantissa (bits : CompactTarget) : Nat := bits.toNat % 2 ^ 24

/-- The sign bit `0x00800000` is set. -/
def Negative (bits : CompactTarget) : Prop := 2 ^ 23 ≤ bits.mantissa

/-- `m * 256 ^ (e - 3)`, rounded down. -/
def value (bits : CompactTarget) : Nat := bits.mantissa * 256 ^ bits.exponent / 256 ^ 3

/-- `m * 256 ^ (e - 3)` does not fit 256 bits. -/
def Overflows (bits : CompactTarget) : Prop :=
  2 ^ 256 * 256 ^ 3 ≤ bits.mantissa * 256 ^ bits.exponent

instance decidableNegative (bits : CompactTarget) : Decidable bits.Negative :=
  inferInstanceAs (Decidable (_ ≤ _))

instance decidableOverflows (bits : CompactTarget) : Decidable bits.Overflows :=
  inferInstanceAs (Decidable (_ ≤ _))

theorem mantissa_lt (bits : CompactTarget) : bits.mantissa < 2 ^ 24 := Nat.mod_lt _ (by decide)

theorem toNat_shifted (bits : CompactTarget) : (bits >>> 24).toNat = bits.exponent := by
  rw [BitVec.toNat_ushiftRight, Nat.shiftRight_eq_div_pow, exponent]

theorem toNat_masked (bits : CompactTarget) : (bits &&& 0xFFFFFF#32).toNat = bits.mantissa := by
  have mask : (0xFFFFFF#32).toNat = 2 ^ 24 - 1 := rfl
  rw [BitVec.toNat_and, mask, Nat.and_two_pow_sub_one_eq_mod, mantissa]

theorem value_of_short {bits : CompactTarget} (short : bits.exponent ≤ 3) :
    bits.value = bits.mantissa / 256 ^ (3 - bits.exponent) := by
  have split : 256 ^ 3 = 256 ^ (3 - bits.exponent) * 256 ^ bits.exponent := by
    rw [← pow_add, Nat.sub_add_cancel short]
  rw [value, split, Nat.mul_div_mul_right _ _ (Nat.pow_pos (by decide))]

theorem product_of_long {bits : CompactTarget} (long : 3 < bits.exponent) :
    bits.mantissa * 256 ^ bits.exponent =
      bits.mantissa * 256 ^ (bits.exponent - 3) * 256 ^ 3 := by
  rw [Nat.mul_assoc, ← pow_add, Nat.sub_add_cancel long.le]

theorem value_of_long {bits : CompactTarget} (long : 3 < bits.exponent) :
    bits.value = bits.mantissa * 256 ^ (bits.exponent - 3) := by
  rw [value, product_of_long long, Nat.mul_div_cancel _ (by decide)]

theorem value_lt_iff {bits : CompactTarget} : bits.value < 2 ^ 256 ↔ ¬ bits.Overflows := by
  rw [value, Overflows, Nat.div_lt_iff_lt_mul (by decide), not_le]

end CompactTarget

open CompactTarget Target

theorem wrappingShl_mod (x : U256) (shift : Nat) : x.wrappingShl shift = x.wrappingShl (shift % 256) := by
  simp only [wrappingShl, Nat.mod_mod]

theorem two_pow_bytes (n : Nat) : 2 ^ (8 * n) = 256 ^ n := pow_mul 2 8 n

/-- The test of the sign, after the shift of short numbers. -/
theorem toNat_fromCompact_of_short {bits : CompactTarget} (short : bits.exponent ≤ 3) :
    (fromCompact bits).toNat = if 2 ^ 23 ≤ bits.value then 0 else bits.value := by
  have fits := bits.mantissa_lt
  have shifted : ((bits &&& 0xFFFFFF#32) >>> (8 * (3 - bits.exponent))).toNat = bits.value := by
    rw [BitVec.toNat_ushiftRight, toNat_masked, Nat.shiftRight_eq_div_pow, two_pow_bytes,
      value_of_short short]
  have limit : (0x7FFFFF#32).toNat = 2 ^ 23 - 1 := rfl
  simp only [fromCompact, toNat_shifted, if_pos short, BitVec.lt_def, limit, shifted]
  split_ifs with negative
  · rfl
  · omega
  · omega
  · rw [toNat_wrappingShl _ (by decide), toNat_ofU128, BitVec.toNat_setWidth_of_le (by decide),
      shifted, pow_zero, Nat.mul_one, Nat.mod_eq_of_lt (by omega)]

/-- The amount of the shift is taken modulo 256. -/
theorem toNat_fromCompact_of_long {bits : CompactTarget} (long : 3 < bits.exponent) :
    (fromCompact bits).toNat = if 2 ^ 23 ≤ bits.mantissa then 0
      else bits.mantissa * 256 ^ ((bits.exponent - 3) % 32) % 2 ^ 256 := by
  have limit : (0x7FFFFF#32).toNat = 2 ^ 23 - 1 := rfl
  simp only [fromCompact, toNat_shifted, if_neg (Nat.not_le.mpr long), BitVec.lt_def, limit,
    toNat_masked]
  split_ifs with negative
  · rfl
  · omega
  · omega
  · have amount : 8 * (bits.exponent - 3) % 256 = 8 * ((bits.exponent - 3) % 32) := by omega
    rw [wrappingShl_mod, toNat_wrappingShl _ (Nat.mod_lt _ (by decide)), toNat_ofU128,
      BitVec.toNat_setWidth_of_le (by decide), toNat_masked, amount, two_pow_bytes]

/-- Without a sign, decoding is exact below `2 ^ 256`. -/
theorem toNat_fromCompact {bits : CompactTarget} (positive : ¬ bits.Negative)
    (fits : bits.value < 2 ^ 256) : (fromCompact bits).toNat = bits.value := by
  have small : bits.mantissa < 2 ^ 23 := not_le.mp positive
  rcases Nat.lt_or_ge 3 bits.exponent with long | short
  · rw [toNat_fromCompact_of_long long, if_neg (not_le.mpr small)]
    rw [value_of_long long] at fits ⊢
    rcases Nat.eq_zero_or_pos bits.mantissa with zero | some_
    · rw [zero, Nat.zero_mul, Nat.zero_mul, Nat.zero_mod]
    · have short : bits.exponent - 3 < 32 := by
        by_contra long
        have powers : 256 ^ 32 ≤ 256 ^ (bits.exponent - 3) :=
          Nat.pow_le_pow_right (by decide) (not_lt.mp long)
        have scaled := Nat.mul_le_mul some_ powers
        omega
      rw [Nat.mod_eq_of_lt short, Nat.mod_eq_of_lt fits]
  · have shifted : bits.value ≤ bits.mantissa := by
      rw [value_of_short short]
      exact Nat.div_le_self _ _
    rw [toNat_fromCompact_of_short short, if_neg (by omega)]

/-- The target is not zero and comes from a shift by `8 * (e - 3)` modulo 256. -/
def WrapsShift (bits : CompactTarget) (target : U256) : Prop :=
  target ≠ .zero ∧ 256 ≤ 8 * (bits.exponent - 3) ∧
    target.toNat = bits.mantissa * 2 ^ (8 * (bits.exponent - 3) % 256) % 2 ^ 256

/-- The compact form as the consensus rules read it. -/
structure DecodesConsensus (bits : CompactTarget) : Prop where
  negative : bits.Negative → fromCompact bits = .zero
  exact : ¬ bits.Negative → bits.value < 2 ^ 256 → (fromCompact bits).toNat = bits.value
  overflow : bits.Overflows → ¬ WrapsShift bits (fromCompact bits)

theorem eq_zero_iff {x : U256} : x = .zero ↔ x.toNat = 0 :=
  ⟨fun same => same ▸ toNat_zero, fun same => toNat_inj (same.trans toNat_zero.symm)⟩

/-- A sign is missed where the number is shifted below it. -/
theorem fromCompact_negative_iff {bits : CompactTarget} (negative : bits.Negative) :
    fromCompact bits = .zero ↔ bits.exponent ≠ 1 ∧ bits.exponent ≠ 2 := by
  have large : 2 ^ 23 ≤ bits.mantissa := negative
  have fits := bits.mantissa_lt
  rw [eq_zero_iff]
  rcases Nat.lt_or_ge 3 bits.exponent with long | short
  · rw [toNat_fromCompact_of_long long, if_pos large]
    exact iff_of_true rfl (by omega)
  · rw [toNat_fromCompact_of_short short, value_of_short short]
    obtain zero | one | two | three : bits.exponent = 0 ∨ bits.exponent = 1 ∨ bits.exponent = 2 ∨
        bits.exponent = 3 := by omega
    · rw [zero]
      exact iff_of_true (by rw [if_neg (by omega)]; omega) (by omega)
    · rw [one]
      exact iff_of_false (by rw [if_neg] <;> omega) (by omega)
    · rw [two]
      exact iff_of_false (by rw [if_neg] <;> omega) (by omega)
    · rw [three]
      exact iff_of_true (if_pos (by omega)) (by omega)

/-- The shift of an overflowing number is wrapped unless nothing of the number is left. -/
theorem overflow_iff {bits : CompactTarget} (positive : ¬ bits.Negative) :
    (bits.Overflows → ¬ WrapsShift bits (fromCompact bits)) ↔
      (35 ≤ bits.exponent → 2 ^ 256 ∣ bits.mantissa * 256 ^ ((bits.exponent - 3) % 32)) := by
  have small : ¬ 2 ^ 23 ≤ bits.mantissa := positive
  by_cases long : 35 ≤ bits.exponent
  · have decoded := toNat_fromCompact_of_long (show 3 < bits.exponent by omega)
    rw [if_neg small] at decoded
    have amount : 8 * (bits.exponent - 3) % 256 = 8 * ((bits.exponent - 3) % 32) := by omega
    rw [imp_iff_right long, Nat.dvd_iff_mod_eq_zero, ← decoded, ← eq_zero_iff]
    constructor
    · intro unwrapped
      by_contra nonzero
      refine unwrapped ?_ ⟨nonzero, by omega, by rw [decoded, amount, two_pow_bytes]⟩
      have some_ : bits.mantissa ≠ 0 := by
        intro zero
        rw [eq_zero_iff, decoded, zero, Nat.zero_mul] at nonzero
        exact nonzero rfl
      have powers : 256 ^ 32 * 256 ^ 3 ≤ 256 ^ bits.exponent := by
        rw [← pow_add]
        exact Nat.pow_le_pow_right (by decide) long
      have scaled := Nat.mul_le_mul (Nat.one_le_iff_ne_zero.mpr some_) powers
      rw [Overflows]
      omega
    · intro zero _ wraps
      exact wraps.1 zero
  · refine iff_of_true (fun _ wraps => ?_) fun other => absurd other long
    have wrapped := wraps.2.1
    omega

/-- Compact targets are decoded by the consensus rules except for signed ones with the exponents
1 and 2 and those from the exponent 35 on that a shift modulo 256 leaves nonzero. -/
theorem decodesConsensus_iff (bits : CompactTarget) : DecodesConsensus bits ↔
    (bits.Negative → bits.exponent ≠ 1 ∧ bits.exponent ≠ 2) ∧
      (¬ bits.Negative → 35 ≤ bits.exponent →
        2 ^ 256 ∣ bits.mantissa * 256 ^ ((bits.exponent - 3) % 32)) := by
  by_cases negative : bits.Negative
  · rw [imp_iff_right negative, and_iff_left (absurd negative), ← fromCompact_negative_iff negative]
    refine ⟨fun decodes => decodes.negative negative, fun zero => ⟨fun _ => zero, absurd negative, ?_⟩⟩
    exact fun _ wraps => wraps.1 zero
  · rw [imp_iff_right negative, and_iff_right (fun signed => absurd signed negative),
      ← overflow_iff negative]
    exact ⟨DecodesConsensus.overflow, fun unwrapped =>
      ⟨fun signed => absurd signed negative, toNat_fromCompact, unwrapped⟩⟩

/-- `0x01800000` is decoded to 128 and `0x23000001` to 1. -/
theorem compact_not_decodesConsensus :
    ¬ DecodesConsensus 0x01800000 ∧ ¬ DecodesConsensus 0x23000001 := by
  constructor
  · intro decodes
    exact absurd (decodes.negative (by decide)) (by decide)
  · intro decodes
    exact decodes.overflow (by decide) ⟨by decide, by decide, by decide⟩

/-- A byte that is dropped from the leading bytes is one more byte of the size. -/
theorem leading_succ (n size : Nat) : leading n (size + 1) = leading n size / 256 := by
  rw [leading, leading, Nat.div_div_eq_div_mul, ← pow_succ]

/-- The number of bytes is chosen so that the mantissa has no sign. -/
theorem toCompactLossy_fields (t : U256) :
    (toCompactLossy t).mantissa = leading t.toNat (toCompactLossy t).exponent ∧
      leading t.toNat (toCompactLossy t).exponent < 2 ^ 23 ∧
      ((toCompactLossy t).exponent ≠ 0 → 2 ^ 15 * 256 ^ (toCompactLossy t).exponent ≤ t.toNat * 256 ^ 3) := by
  have bytes := bits_byteSize t
  have upper := leading_lt bytes
  have encoded := toNat_toCompactLossy t
  obtain ⟨size, sizeEq⟩ : ∃ size, size = (t.bits + 7) / 8 := ⟨_, rfl⟩
  rw [← sizeEq] at bytes upper encoded
  rw [packed] at encoded
  split_ifs at encoded with low
  · have fields : (toCompactLossy t).exponent = size ∧
        (toCompactLossy t).mantissa = leading t.toNat size := by
      rw [exponent, mantissa]
      omega
    rw [fields.1, fields.2]
    refine ⟨rfl, low, fun some_ => ?_⟩
    obtain ⟨rest, rfl⟩ := Nat.exists_eq_succ_of_ne_zero some_
    have lower := bytes.lower some_
    rw [Nat.succ_eq_add_one, Nat.add_sub_cancel] at lower
    rw [Nat.succ_eq_add_one, pow_succ]
    omega
  · have dropped := leading_succ t.toNat size
    have fields : (toCompactLossy t).exponent = size + 1 ∧
        (toCompactLossy t).mantissa = leading t.toNat (size + 1) := by
      rw [exponent, mantissa]
      omega
    rw [fields.1, fields.2]
    refine ⟨rfl, by omega, fun _ => ?_⟩
    have lower := (Nat.le_div_iff_mul_le (Nat.pow_pos (by decide))).mp (not_lt.mp low)
    rw [pow_succ]
    omega

/-- `2 ^ 23` bounds the mantissa of a compact target. -/
theorem toCompactLossy_spacing (t : U256) :
    Spacing 256 (2 ^ 23) t.toNat ((toCompactLossy t).exponent - 3) := by
  obtain ⟨_, small, lower⟩ := toCompactLossy_fields t
  rw [leading, Nat.div_lt_iff_lt_mul (Nat.pow_pos (by decide))] at small
  rcases Nat.lt_or_ge 3 (toCompactLossy t).exponent with long | short
  · obtain ⟨rest, same⟩ := Nat.exists_eq_add_of_lt long
    rw [same] at small lower ⊢
    have reduced : 3 + rest + 1 - 3 = rest + 1 := by omega
    rw [reduced]
    constructor
    · rw [show 3 + rest + 1 = (rest + 1) + 3 by omega, pow_add] at small
      omega
    · intro _
      have bound := lower (by omega)
      rw [show 3 + rest + 1 = rest + 4 by omega, pow_add] at bound
      rw [Nat.add_sub_cancel]
      omega
  · rw [Nat.sub_eq_zero_of_le short]
    refine ⟨?_, fun other => absurd rfl other⟩
    have powers : 256 ^ (toCompactLossy t).exponent ≤ 256 ^ 3 := Nat.pow_le_pow_right (by decide) short
    have scaled := Nat.mul_le_mul_left (2 ^ 23) powers
    rw [pow_zero]
    omega

/-- The target a compact target stands for. -/
def lossy (t : U256) : U256 := fromCompact (toCompactLossy t)

theorem toNat_lossy (t : U256) :
    (lossy t).toNat = roundDown 256 ((toCompactLossy t).exponent - 3) t.toNat := by
  obtain ⟨mantissaEq, small, _⟩ := toCompactLossy_fields t
  have value : (toCompactLossy t).value = roundDown 256 ((toCompactLossy t).exponent - 3) t.toNat := by
    rcases Nat.lt_or_ge 3 (toCompactLossy t).exponent with long | short
    · obtain ⟨rest, same⟩ := Nat.exists_eq_add_of_lt long
      rw [value_of_long long, mantissaEq, leading, roundDown, same]
      rw [show 3 + rest + 1 - 3 = rest + 1 by omega, show 3 + rest + 1 = (rest + 1) + 3 by omega,
        pow_add 256 (rest + 1) 3, Nat.mul_div_mul_right _ _ (by decide)]
    · obtain ⟨rest, same⟩ := Nat.exists_eq_add_of_le short
      rw [CompactTarget.value, mantissaEq, leading, roundDown, Nat.sub_eq_zero_of_le short]
      have split : 256 ^ 3 = 256 ^ rest * 256 ^ (toCompactLossy t).exponent := by
        rw [← pow_add, Nat.add_comm rest, ← same]
      have positive : 0 < 256 ^ (toCompactLossy t).exponent := Nat.pow_pos (by decide)
      rw [pow_zero, Nat.div_one, Nat.mul_one, split, ← Nat.mul_assoc, Nat.mul_div_cancel _ positive,
        Nat.mul_assoc, Nat.mul_div_cancel _ (by rw [← split]; decide)]
  rw [← value]
  refine toNat_fromCompact ?_ ?_
  · rw [Negative, mantissaEq]
    exact not_le.mpr small
  · rw [value]
    exact (roundDown_le _ _ _).trans_lt t.toNat_lt

/-- What decoding gives without overflowing has a mantissa below `2 ^ 23`. -/
theorem fromCompact_mantissa {bits : CompactTarget} (fits : ¬ bits.Overflows) :
    ∃ m k, m < 2 ^ 23 ∧ (fromCompact bits).toNat = m * 256 ^ k := by
  by_cases zero : (fromCompact bits).toNat = 0
  · exact ⟨0, 0, by decide, zero⟩
  rcases Nat.lt_or_ge 3 bits.exponent with long | short
  · have positive : ¬ bits.Negative := by
      intro negative
      have large : 2 ^ 23 ≤ bits.mantissa := negative
      rw [toNat_fromCompact_of_long long, if_pos large] at zero
      exact zero rfl
    refine ⟨bits.mantissa, bits.exponent - 3, not_le.mp positive, ?_⟩
    rw [toNat_fromCompact positive (value_lt_iff.mpr fits), value_of_long long]
  · refine ⟨(fromCompact bits).toNat, 0, ?_, (Nat.mul_one _).symm⟩
    rw [toNat_fromCompact_of_short short]
    split_ifs with large
    · decide
    · exact not_le.mp large

/-- The compact form of `t`, and of a target `s` below it, rounds down. -/
structure RoundsDown (s t : U256) : Prop where
  below : (lossy t).toNat ≤ t.toNat
  fixed : ∀ bits : CompactTarget, ¬ bits.Overflows → fromCompact bits = t → lossy t = t
  mono : (lossy s).toNat ≤ (lossy t).toNat
  unsigned : toCompactLossy t &&& 0x00800000#32 = 0

/-- The difference is below `t / 2 ^ 15`. -/
def Close (t : U256) : Prop := (t.toNat - (lossy t).toNat) * 2 ^ 15 < t.toNat

theorem close_of_ne_zero {t : U256} (nonzero : t ≠ .zero) : Close t := by
  have positive : 0 < t.toNat := Nat.pos_of_ne_zero (mt eq_zero_iff.mpr nonzero)
  have lost := (toCompactLossy_spacing t).lost_lt (by decide) positive
  rw [← toNat_lossy, show 2 ^ 23 = 2 ^ 15 * 256 by rfl, ← Nat.mul_assoc] at lost
  exact Nat.lt_of_mul_lt_mul_right lost

theorem toCompactLossy_unsigned (t : U256) : toCompactLossy t &&& 0x00800000#32 = 0 := by
  obtain ⟨mantissaEq, small, _⟩ := toCompactLossy_fields t
  rw [← mantissaEq, mantissa] at small
  have mask : (0x00800000#32).toNat = 2 ^ 23 := rfl
  rw [← BitVec.toNat_inj, BitVec.toNat_and, mask, Nat.and_two_pow, Nat.testBit_eq_decide_div_mod_eq]
  have clear : ¬ (toCompactLossy t).toNat / 2 ^ 23 % 2 = 1 := by omega
  rw [decide_eq_false clear]
  rfl

/-- Encoding rounds down to the next compact target; only zero is not closer than a part of it. -/
theorem toCompactLossy_roundsDown {s t : U256} (ordered : s.le t = true) :
    RoundsDown s t ∧ (t ≠ .zero → Close t) := by
  refine ⟨⟨?_, ?_, ?_, toCompactLossy_unsigned t⟩, close_of_ne_zero⟩
  · rw [toNat_lossy]
    exact roundDown_le _ _ _
  · rintro bits fits rfl
    obtain ⟨m, k, small, same⟩ := fromCompact_mantissa fits
    have spacing := toCompactLossy_spacing (fromCompact bits)
    refine toNat_inj ((toNat_lossy _).trans ?_)
    rw [same] at spacing ⊢
    exact spacing.roundDown_eq (by decide) small
  · rw [toNat_lossy, toNat_lossy]
    exact (toCompactLossy_spacing s).roundDown_mono (by decide) (by decide)
      (toCompactLossy_spacing t) ((le_iff s t).mp ordered)

theorem ones_roundsDown : U256.one.le (ofNat (2 ^ 200 + 1)) = true ∧
    RoundsDown .one (ofNat (2 ^ 200 + 1)) := by
  have ordered : U256.one.le (ofNat (2 ^ 200 + 1)) = true := by decide
  exact ⟨ordered, (toCompactLossy_roundsDown ordered).1⟩

/-- No difference is below the 32768th part of zero. -/
theorem zero_not_close : U256.zero.le .zero = true ∧ ¬ Close .zero := by
  exact ⟨rfl, Nat.not_lt_zero _⟩

end Litecoin.Pow
