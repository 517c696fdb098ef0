import Mathlib.Data.UInt
import Mathlib.Tactic.Common

/-! Machine words as what becomes of an exact result: the `checked_` functions return
nothing when it does not fit, and the operators then panic in a build with overflow
checks and wrap in one without. -/
namespace Litecoin.Wire

/-- The outcome of `u64::checked_add` and its like. -/
def checkedWord64 (exact : Nat) : Option UInt64 :=
  if exact < 2 ^ 64 then some (.ofNat exact) else none

/-- The outcome of an operator on `u64`. -/
def word64 (overflowChecks : Bool) (exact : Nat) : Option UInt64 :=
  if overflowChecks ∧ 2 ^ 64 ≤ exact then none else some (.ofNat exact)

/-- The outcome of an operator on `u32`. -/
def word32 (overflowChecks : Bool) (exact : Nat) : Option UInt32 :=
  if overflowChecks ∧ 2 ^ 32 ≤ exact then none else some (.ofNat exact)

def checkedSub64 (a b : UInt64) : Option UInt64 := if b ≤ a then some (a - b) else none

def checkedDiv64 (a b : UInt64) : Option UInt64 := if b = 0 then none else some (a / b)

variable {overflowChecks : Bool} {exact : Nat}

theorem toNat_ofNat64 (fits : exact < 2 ^ 64) : (UInt64.ofNat exact).toNat = exact :=
  UInt64.toNat_ofNat_of_lt' fits

theorem toNat_ofNat32 (fits : exact < 2 ^ 32) : (UInt32.ofNat exact).toNat = exact :=
  UInt32.toNat_ofNat_of_lt' fits

theorem checkedWord64_eq_some {word : UInt64} :
    checkedWord64 exact = some word ↔ word.toNat = exact := by
  rw [checkedWord64]
  constructor
  · intro returned
    split at returned
    case isTrue fits =>
      obtain rfl := Option.some.inj returned
      exact toNat_ofNat64 fits
    case isFalse => contradiction
  · rintro rfl
    rw [if_pos word.toNat_lt, UInt64.ofNat_toNat]

theorem checkedWord64_eq_none : checkedWord64 exact = none ↔ 2 ^ 64 ≤ exact := by
  rw [checkedWord64, ite_eq_right_iff, ← Nat.not_lt]
  exact ⟨fun never fits => absurd (never fits) (Option.some_ne_none _), fun never fits => absurd fits never⟩

theorem word64_eq (fits : exact < 2 ^ 64) : word64 overflowChecks exact = some (.ofNat exact) :=
  if_neg fun exceeds => absurd fits (Nat.not_lt.mpr exceeds.2)

/-- A sum of words is the word of a sum: it overflows where a part of it does. -/
theorem word64_add (overflowChecks : Bool) (first second : Nat) :
    ((word64 overflowChecks first).bind fun a => (word64 overflowChecks second).bind fun b =>
      word64 overflowChecks (a.toNat + b.toNat)) = word64 overflowChecks (first + second) := by
  cases overflowChecks with
  | false =>
    simp only [word64, Bool.false_eq_true, false_and, if_false, Option.bind_some, Option.some.injEq]
    rw [← UInt64.toNat_inj]
    simp only [UInt64.toNat_ofNat', Nat.mod_add_mod, Nat.add_mod_mod]
  | true =>
    by_cases small : first + second < 2 ^ 64
    · rw [word64_eq ((Nat.le_add_right _ _).trans_lt small), word64_eq ((Nat.le_add_left _ _).trans_lt small),
        Option.bind_some, Option.bind_some, toNat_ofNat64 ((Nat.le_add_right _ _).trans_lt small),
        toNat_ofNat64 ((Nat.le_add_left _ _).trans_lt small)]
    · have exceeds : word64 true (first + second) = none := if_pos ⟨rfl, not_lt.mp small⟩
      rw [exceeds]
      rcases Nat.lt_or_ge first (2 ^ 64) with one | large
      · rw [word64_eq one, Option.bind_some]
        rcases Nat.lt_or_ge second (2 ^ 64) with two | large
        · rw [word64_eq two, Option.bind_some, toNat_ofNat64 one, toNat_ofNat64 two]
          exact exceeds
        · rw [word64, if_pos ⟨rfl, large⟩, Option.bind_none]
      · rw [word64, if_pos ⟨rfl, large⟩, Option.bind_none]

theorem word64_of_checked {word : UInt64} (returned : checkedWord64 exact = some word) :
    word64 overflowChecks exact = some word := by
  obtain rfl := checkedWord64_eq_some.mp returned
  rw [word64_eq word.toNat_lt, UInt64.ofNat_toNat]

theorem word32_eq (fits : exact < 2 ^ 32) : word32 overflowChecks exact = some (.ofNat exact) :=
  if_neg fun exceeds => absurd fits (Nat.not_lt.mpr exceeds.2)

/-- Where an operator does not panic, it returns what is left of the result. -/
theorem word32_wraps {word : UInt32} (returned : word32 overflowChecks exact = some word) :
    word.toNat = exact % 2 ^ 32 := by
  rw [word32] at returned
  split at returned
  case isTrue => contradiction
  case isFalse =>
    obtain rfl := Option.some.inj returned
    exact UInt32.toNat_ofNat'

theorem checkedSub64_eq_some {a b word : UInt64} :
    checkedSub64 a b = some word ↔ word.toNat + b.toNat = a.toNat := by
  rw [checkedSub64]
  constructor
  · intro returned
    split at returned
    case isTrue le =>
      obtain rfl := Option.some.inj returned
      rw [UInt64.toNat_sub_of_le _ _ le]
      exact Nat.sub_add_cancel (UInt64.le_iff_toNat_le.mp le)
    case isFalse => contradiction
  · intro sum
    have le : b ≤ a := UInt64.le_iff_toNat_le.mpr (sum ▸ Nat.le_add_left _ _)
    rw [if_pos le, Option.some_inj, ← UInt64.toNat_inj, UInt64.toNat_sub_of_le _ _ le, ← sum,
      Nat.add_sub_cancel]

theorem checkedDiv64_eq_some {a b word : UInt64} :
    checkedDiv64 a b = some word ↔ 0 < b.toNat ∧ word.toNat = a.toNat / b.toNat := by
  have zero : b = 0 ↔ b.toNat = 0 := by rw [← UInt64.toNat_inj, UInt64.toNat_zero]
  rw [checkedDiv64]
  split
  case isTrue none => simp [zero.mp none]
  case isFalse some =>
    rw [Option.some_inj, ← UInt64.toNat_inj, UInt64.toNat_div, eq_comm,
      and_iff_right (Nat.pos_of_ne_zero fun absent => some (zero.mpr absent))]

end Litecoin.Wire
