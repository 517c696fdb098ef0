import Litecoin.Units.Amount
import Litecoin.Wire.Machine
import Mathlib.Algebra.Order.Floor.Div

/-! Fee rates, weights and the fees between them (`units/fee_rate.rs`, `units/weight.rs`). -/
namespace Litecoin.Units
open Wire

/-- In weight units. -/
structure Weight where
  wu : UInt64
deriving DecidableEq, Repr

/-- In satoshis per 1000 weight units. -/
structure FeeRate where
  satKwu : UInt64
deriving DecidableEq, Repr

namespace Weight

def fromVb (vb : UInt64) : Option Weight := (checkedWord64 (vb.toNat * 4)).map Weight.mk

end Weight

namespace FeeRate

def checkedMulByWeight (rate : FeeRate) (rhs : Weight) : Option Amount := do
  let product ← checkedWord64 (rate.satKwu.toNat * rhs.wu.toNat)
  let sum ← checkedWord64 (product.toNat + 999)
  some ⟨sum / 1000⟩

def feeWu (rate : FeeRate) (weight : Weight) : Option Amount := rate.checkedMulByWeight weight

def feeVb (rate : FeeRate) (vb : UInt64) : Option Amount := (Weight.fromVb vb).bind rate.feeWu

end FeeRate

/-- `Mul<FeeRate> for Weight`, to which `Mul<Weight> for FeeRate` turns. -/
def Weight.mul (overflowChecks : Bool) (weight : Weight) (rhs : FeeRate) : Option Amount := do
  let product ← word64 overflowChecks (rhs.satKwu.toNat * weight.wu.toNat)
  let sum ← word64 overflowChecks (product.toNat + 999)
  some ⟨sum / 1000⟩

def FeeRate.mul (overflowChecks : Bool) (rate : FeeRate) (rhs : Weight) : Option Amount :=
  rhs.mul overflowChecks rate

namespace Amount

/-- `Div<Weight> for Amount`; a division by zero panics in every build. -/
def div (overflowChecks : Bool) (amount : Amount) (rhs : Weight) : Option FeeRate := do
  let product ← word64 overflowChecks (amount.sat.toNat * 1000)
  let quotient ← checkedDiv64 product rhs.wu
  some ⟨quotient⟩

def divByWeightCeil (amount : Amount) (rhs : Weight) : Option FeeRate := do
  let sats ← checkedWord64 (amount.sat.toNat * 1000)
  let less ← checkedSub64 rhs.wu 1
  let sum ← checkedWord64 (sats.toNat + less.toNat)
  let feeRate ← checkedDiv64 sum rhs.wu
  some ⟨feeRate⟩

def divByWeightFloor (amount : Amount) (rhs : Weight) : Option FeeRate := do
  let product ← checkedWord64 (amount.sat.toNat * 1000)
  let feeRate ← checkedDiv64 product rhs.wu
  some ⟨feeRate⟩

end Amount

/-! What each form returns, as exact numbers. -/

variable {rate : FeeRate} {weight : Weight} {amount : Amount}

theorem feeWu_eq_some {fee : Amount} : rate.feeWu weight = some fee ↔
    rate.satKwu.toNat * weight.wu.toNat + 999 < 2 ^ 64 ∧
      fee.sat.toNat = (rate.satKwu.toNat * weight.wu.toNat) ⌈/⌉ 1000 := by
  rw [Nat.ceilDiv_eq_add_pred_div, FeeRate.feeWu, FeeRate.checkedMulByWeight, Option.bind_eq_bind,
    Option.bind_eq_some_iff]
  constructor
  · rintro ⟨product, multiplied, returned⟩
    obtain ⟨sum, added, returned⟩ := Option.bind_eq_some_iff.mp returned
    obtain rfl := Option.some.inj returned
    rw [checkedWord64_eq_some] at multiplied added
    rw [← multiplied]
    refine ⟨added ▸ sum.toNat_lt, ?_⟩
    show (sum / 1000).toNat = (product.toNat + 999) / 1000
    rw [← added]
    exact UInt64.toNat_div sum 1000
  · rintro ⟨fits, quotient⟩
    have product := toNat_ofNat64 (Nat.lt_of_le_of_lt (Nat.le_add_right _ 999) fits)
    refine ⟨_, checkedWord64_eq_some.mpr product, Option.bind_eq_some_iff.mpr
      ⟨_, checkedWord64_eq_some.mpr (toNat_ofNat64 (by rwa [product])), congrArg some ?_⟩⟩
    obtain ⟨sat⟩ := fee
    rw [Amount.mk.injEq, ← UInt64.toNat_inj, UInt64.toNat_div, toNat_ofNat64 (by rwa [product]), product]
    exact quotient.symm

theorem divByWeightFloor_eq_some {floor : FeeRate} : amount.divByWeightFloor weight = some floor ↔
    (amount.sat.toNat * 1000 < 2 ^ 64 ∧ 0 < weight.wu.toNat) ∧
      floor.satKwu.toNat = amount.sat.toNat * 1000 / weight.wu.toNat := by
  rw [Amount.divByWeightFloor, Option.bind_eq_bind, Option.bind_eq_some_iff]
  constructor
  · rintro ⟨product, multiplied, returned⟩
    obtain ⟨quotient, divided, returned⟩ := Option.bind_eq_some_iff.mp returned
    obtain rfl := Option.some.inj returned
    rw [checkedWord64_eq_some] at multiplied
    rw [← multiplied]
    obtain ⟨positive, quotient⟩ := checkedDiv64_eq_some.mp divided
    exact ⟨⟨product.toNat_lt, positive⟩, quotient⟩
  · rintro ⟨⟨fits, positive⟩, quotient⟩
    have product := toNat_ofNat64 fits
    exact ⟨_, checkedWord64_eq_some.mpr product, Option.bind_eq_some_iff.mpr
      ⟨floor.satKwu, checkedDiv64_eq_some.mpr ⟨positive, by rw [quotient, product]⟩, rfl⟩⟩

theorem divByWeightCeil_eq_some {ceil : FeeRate} : amount.divByWeightCeil weight = some ceil ↔
    (amount.sat.toNat * 1000 + (weight.wu.toNat - 1) < 2 ^ 64 ∧ 0 < weight.wu.toNat) ∧
      ceil.satKwu.toNat = (amount.sat.toNat * 1000) ⌈/⌉ weight.wu.toNat := by
  rw [Nat.ceilDiv_eq_add_pred_div, Amount.divByWeightCeil, Option.bind_eq_bind, Option.bind_eq_some_iff]
  constructor
  · rintro ⟨sats, multiplied, returned⟩
    obtain ⟨less, subtracted, returned⟩ := Option.bind_eq_some_iff.mp returned
    obtain ⟨sum, added, returned⟩ := Option.bind_eq_some_iff.mp returned
    obtain ⟨quotient, divided, returned⟩ := Option.bind_eq_some_iff.mp returned
    obtain rfl := Option.some.inj returned
    rw [checkedWord64_eq_some] at multiplied added
    obtain ⟨positive, quotient⟩ := checkedDiv64_eq_some.mp divided
    have less : less.toNat + 1 = weight.wu.toNat := checkedSub64_eq_some.mp subtracted
    have sum' : sum.toNat = amount.sat.toNat * 1000 + (weight.wu.toNat - 1) := by omega
    rw [Nat.add_sub_assoc positive, ← sum']
    exact ⟨⟨sum.toNat_lt, positive⟩, quotient⟩
  · rintro ⟨⟨fits, positive⟩, quotient⟩
    have sats := toNat_ofNat64 (Nat.lt_of_le_of_lt (Nat.le_add_right _ _) fits)
    have less := toNat_ofNat64 (Nat.lt_of_le_of_lt (Nat.sub_le weight.wu.toNat 1) weight.wu.toNat_lt)
    have sum := toNat_ofNat64 fits
    refine ⟨_, checkedWord64_eq_some.mpr sats, Option.bind_eq_some_iff.mpr
      ⟨_, checkedSub64_eq_some.mpr (?_ : (UInt64.ofNat (weight.wu.toNat - 1)).toNat + 1 = _),
        Option.bind_eq_some_iff.mpr ⟨_, checkedWord64_eq_some.mpr (sum.trans ?_),
          Option.bind_eq_some_iff.mpr ⟨ceil.satKwu, checkedDiv64_eq_some.mpr ⟨positive, ?_⟩, rfl⟩⟩⟩⟩
    · rw [less, Nat.sub_add_cancel positive]
    · rw [sats, less]
    · rw [sum, quotient, Nat.add_sub_assoc positive]

/-- A form that returns exactly one value under a condition fails without the condition. -/
theorem eq_none_iff {form : Option α} {Fits : Prop} {read : α → Nat} {exact : Nat}
    (spec : ∀ a, form = some a ↔ Fits ∧ read a = exact) (reached : Fits → ∃ a, read a = exact) :
    form = none ↔ ¬ Fits := by
  rw [Option.eq_none_iff_forall_ne_some]
  constructor
  · intro never fits
    obtain ⟨a, same⟩ := reached fits
    exact never a ((spec a).mpr ⟨fits, same⟩)
  · intro out a returned
    exact out ((spec a).mp returned).1

theorem feeWu_eq_none : rate.feeWu weight = none ↔
    2 ^ 64 ≤ rate.satKwu.toNat * weight.wu.toNat + 999 := by
  refine (eq_none_iff (fun _ => feeWu_eq_some) fun fits => ?_).trans Nat.not_lt
  refine ⟨⟨.ofNat _⟩, toNat_ofNat64 (Nat.lt_of_le_of_lt ?_ fits)⟩
  rw [Nat.ceilDiv_eq_add_pred_div]
  exact Nat.div_le_self _ _

theorem divByWeightFloor_eq_none : amount.divByWeightFloor weight = none ↔
    2 ^ 64 ≤ amount.sat.toNat * 1000 ∨ weight.wu.toNat = 0 := by
  refine (eq_none_iff (fun _ => divByWeightFloor_eq_some) fun fits => ?_).trans (by omega)
  exact ⟨⟨.ofNat _⟩, toNat_ofNat64 (Nat.lt_of_le_of_lt (Nat.div_le_self _ _) fits.1)⟩

theorem divByWeightCeil_eq_none : amount.divByWeightCeil weight = none ↔
    2 ^ 64 ≤ amount.sat.toNat * 1000 + (weight.wu.toNat - 1) ∨ weight.wu.toNat = 0 := by
  refine (eq_none_iff (fun _ => divByWeightCeil_eq_some) fun fits => ?_).trans (by omega)
  refine ⟨⟨.ofNat _⟩, toNat_ofNat64 (Nat.lt_of_le_of_lt ?_ fits.1)⟩
  rw [Nat.ceilDiv_eq_add_pred_div, Nat.add_sub_assoc fits.2]
  exact Nat.div_le_self _ _

/-! The operators do what the checked forms do, as long as these return. -/

theorem mul_of_feeWu (overflowChecks : Bool) {fee : Amount} (returned : rate.feeWu weight = some fee) :
    weight.mul overflowChecks rate = some fee := by
  obtain ⟨product, multiplied, returned⟩ := Option.bind_eq_some_iff.mp returned
  obtain ⟨sum, added, returned⟩ := Option.bind_eq_some_iff.mp returned
  rw [Weight.mul, word64_of_checked multiplied, Option.bind_eq_bind, Option.bind_some,
    word64_of_checked added]
  exact returned

theorem div_of_floor (overflowChecks : Bool) {floor : FeeRate}
    (returned : amount.divByWeightFloor weight = some floor) :
    amount.div overflowChecks weight = some floor := by
  obtain ⟨product, multiplied, returned⟩ := Option.bind_eq_some_iff.mp returned
  rw [Amount.div, word64_of_checked multiplied]
  exact returned

theorem feeVb_eq (vb : UInt64) : (∀ weight : Weight, weight.wu.toNat = 4 * vb.toNat →
    rate.feeVb vb = rate.feeWu weight) ∧ (2 ^ 64 ≤ 4 * vb.toNat → rate.feeVb vb = none) := by
  constructor
  · rintro ⟨wu⟩ same
    rw [FeeRate.feeVb, Weight.fromVb, checkedWord64_eq_some.mpr (same.trans (Nat.mul_comm 4 _))]
    rfl
  · intro exceeds
    rw [FeeRate.feeVb, Weight.fromVb, checkedWord64_eq_none.mpr (Nat.mul_comm 4 _ ▸ exceeds)]
    rfl

/-- A fee stays within an amount exactly when its rate stays within the amount's floor rate, and
reaches the amount from the ceiling rate on. The checked forms fail only where an exact number
does not fit or there is no weight to divide by. -/
theorem fees_adjoint (rate : FeeRate) (amount : Amount) (weight : Weight) :
    (∀ fee floor ceil, rate.feeWu weight = some fee → amount.divByWeightFloor weight = some floor →
      amount.divByWeightCeil weight = some ceil →
      (fee.sat ≤ amount.sat ↔ rate.satKwu ≤ floor.satKwu) ∧
      (ceil.satKwu ≤ rate.satKwu → amount.sat ≤ fee.sat)) ∧
    (rate.feeWu weight = none ↔ 2 ^ 64 ≤ rate.satKwu.toNat * weight.wu.toNat + 999) ∧
    (amount.divByWeightFloor weight = none ↔
      2 ^ 64 ≤ amount.sat.toNat * 1000 ∨ weight.wu.toNat = 0) ∧
    (amount.divByWeightCeil weight = none ↔
      2 ^ 64 ≤ amount.sat.toNat * 1000 + (weight.wu.toNat - 1) ∨ weight.wu.toNat = 0) ∧
    (∀ overflowChecks fee, rate.feeWu weight = some fee →
      weight.mul overflowChecks rate = some fee ∧ rate.mul overflowChecks weight = some fee) ∧
    (∀ overflowChecks floor, amount.divByWeightFloor weight = some floor →
      amount.div overflowChecks weight = some floor) ∧
    (∀ vb : UInt64, (weight.wu.toNat = 4 * vb.toNat → rate.feeVb vb = rate.feeWu weight) ∧
      (2 ^ 64 ≤ 4 * vb.toNat → rate.feeVb vb = none)) := by
  refine ⟨?_, feeWu_eq_none, divByWeightFloor_eq_none, divByWeightCeil_eq_none, ?_,
    fun checks _ => div_of_floor checks, fun vb => ⟨(feeVb_eq vb).1 weight, (feeVb_eq vb).2⟩⟩
  · intro fee floor ceil paid least most
    rw [feeWu_eq_some] at paid
    rw [divByWeightFloor_eq_some] at least
    rw [divByWeightCeil_eq_some] at most
    obtain ⟨-, paid⟩ := paid
    obtain ⟨⟨-, positive⟩, least⟩ := least
    obtain ⟨-, most⟩ := most
    have thousand : 0 < 1000 := by decide
    simp only [UInt64.le_iff_toNat_le, paid, least, most]
    constructor
    · rw [ceilDiv_le_iff_le_mul thousand, Nat.le_div_iff_mul_le positive, Nat.mul_comm 1000]
    · intro enough
      rw [ceilDiv_le_iff_le_mul positive] at enough
      have whole : rate.satKwu.toNat * weight.wu.toNat ≤
          1000 * ((rate.satKwu.toNat * weight.wu.toNat) ⌈/⌉ 1000) :=
        (ceilDiv_le_iff_le_mul thousand).mp le_rfl
      refine Nat.le_of_mul_le_mul_left (le_trans ?_ whole) thousand
      rw [Nat.mul_comm 1000, Nat.mul_comm rate.satKwu.toNat]
      exact enough
  · intro checks fee paid
    exact ⟨mul_of_feeWu checks paid, mul_of_feeWu checks paid⟩

end Litecoin.Units
