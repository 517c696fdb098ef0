import Litecoin.Wire.Machine
import Litecoin.Wire.Outcome
import Mathlib.Algebra.Order.Floor.Div
import Mathlib.Data.Nat.Bitwise
import Mathlib.GroupTheory.GroupAction.Ring

/-! Relative lock times (`units/locktime/relative.rs`) and the sequence numbers that carry
them (`blockdata/transaction.rs`). -/
namespace Litecoin.Units
open Wire

/-- `relative::Height`. -/
structure Height where
  blocks : UInt16
deriving DecidableEq, Repr

/-- `relative::Time`, in intervals of 512 seconds. -/
structure Time where
  intervals : UInt16
deriving DecidableEq, Repr

structure TimeOverflowError where
  seconds : UInt32
deriving DecidableEq, Repr

/-- `relative::LockTime`. -/
inductive RelativeLockTime where
  | blocks (height : Height)
  | time (time : Time)
deriving DecidableEq, Repr

/-- `(seconds + 511) / 512`. -/
def intervalsCeil (overflowChecks : Bool) (seconds : UInt32) : Option UInt32 := do
  let sum ← word32 overflowChecks (seconds.toNat + 511)
  some (sum / 512)

/-- `TimeOverflowError::new`, which asserts that the seconds overflow. -/
def TimeOverflowError.new (overflowChecks : Bool) (seconds : UInt32) : Option TimeOverflowError := do
  let interval ← intervalsCeil overflowChecks seconds
  if interval ≤ 0xffff then none else some { seconds }

namespace Time

def from512SecondIntervals (intervals : UInt16) : Time := ⟨intervals⟩

def fromSecondsFloor (seconds : UInt32) : Except TimeOverflowError Time :=
  let interval := seconds / 512
  if interval ≤ 0xffff then .ok (from512SecondIntervals interval.toUInt16)
  else .error { seconds }

def fromSecondsCeil (overflowChecks : Bool) (seconds : UInt32) :
    ExceptT TimeOverflowError Option Time := do
  let interval ← orPanic (intervalsCeil overflowChecks seconds)
  if interval ≤ 0xffff then pure (from512SecondIntervals interval.toUInt16)
  else throw { seconds }

end Time

structure Sequence where
  number : UInt32
deriving DecidableEq, Repr

namespace Sequence

def lockTimeDisableFlagMask : UInt32 := 0x80000000

def lockTypeMask : UInt32 := 0x00400000

def isRelativeLockTime (sequence : Sequence) : Bool := sequence.number &&& lockTimeDisableFlagMask = 0

def isTimeLocked (sequence : Sequence) : Bool :=
  sequence.isRelativeLockTime && decide (0 < sequence.number &&& lockTypeMask)

def from512SecondIntervals (intervals : UInt16) : Sequence := ⟨intervals.toUInt32 ||| lockTypeMask⟩

/-- The interval when it has 16 bits, else the error that is built for the seconds. -/
def ofInterval (overflowChecks : Bool) (seconds interval : UInt32) :
    ExceptT TimeOverflowError Option Sequence :=
  if interval ≤ 0xffff then pure (from512SecondIntervals interval.toUInt16)
  else do
    let error ← orPanic (TimeOverflowError.new overflowChecks seconds)
    throw error

def fromSecondsFloor (overflowChecks : Bool) (seconds : UInt32) :
    ExceptT TimeOverflowError Option Sequence :=
  ofInterval overflowChecks seconds (seconds / 512)

def fromSecondsCeil (overflowChecks : Bool) (seconds : UInt32) :
    ExceptT TimeOverflowError Option Sequence := do
  let interval ← orPanic (intervalsCeil overflowChecks seconds)
  ofInterval overflowChecks seconds interval

def lowU16 (sequence : Sequence) : UInt16 := sequence.number.toUInt16

def toRelativeLockTime (sequence : Sequence) : Option RelativeLockTime :=
  if sequence.isRelativeLockTime then
    let lockValue := sequence.lowU16
    if sequence.isTimeLocked then some (.time (.from512SecondIntervals lockValue))
    else some (.blocks ⟨lockValue⟩)
  else none

end Sequence

/-- The lock of so many intervals, or the error for the seconds. -/
def lockOf (intervals : Nat) (seconds : UInt32) : Except TimeOverflowError Time :=
  if intervals ≤ 0xffff then .ok ⟨.ofNat intervals⟩ else .error { seconds }

def Sequence.ofTime (time : Time) : Sequence := from512SecondIntervals time.intervals

theorem lockOf_eq (interval seconds : UInt32) :
    (if interval ≤ 0xffff then .ok (.from512SecondIntervals interval.toUInt16)
      else .error { seconds } : Except TimeOverflowError Time) = lockOf interval.toNat seconds := by
  have same : interval ≤ 0xffff ↔ interval.toNat ≤ 0xffff := UInt32.le_iff_toNat_le
  rw [lockOf]
  simp only [same]
  rfl

theorem Time.fromSecondsFloor_eq (seconds : UInt32) :
    fromSecondsFloor seconds = lockOf (seconds.toNat / 512) seconds := by
  rw [fromSecondsFloor, lockOf_eq, UInt32.toNat_div]
  rfl

theorem intervalsCeil_eq (overflowChecks : Bool) {seconds : UInt32} (fits : seconds.toNat + 511 < 2 ^ 32) :
    ∃ interval, intervalsCeil overflowChecks seconds = some interval ∧
      interval.toNat = seconds.toNat ⌈/⌉ 512 := by
  refine ⟨_, by rw [intervalsCeil, word32_eq fits]; rfl, ?_⟩
  rw [UInt32.toNat_div, toNat_ofNat32 fits, Nat.ceilDiv_eq_add_pred_div]
  rfl

theorem Time.fromSecondsCeil_eq {overflowChecks : Bool} {seconds : UInt32}
    (fits : seconds.toNat + 511 < 2 ^ 32) :
    (fromSecondsCeil overflowChecks seconds).run = some (lockOf (seconds.toNat ⌈/⌉ 512) seconds) := by
  obtain ⟨interval, found, same⟩ := intervalsCeil_eq overflowChecks fits
  rw [fromSecondsCeil, found, orPanic_bind, ← same, ← lockOf_eq]
  split
  · rfl
  · rfl

namespace Sequence

theorem and_high (intervals : UInt16) (bit : Nat) (high : 16 ≤ bit) (inside : bit < 32) :
    intervals.toUInt32 &&& .ofNat (2 ^ bit) = 0 := by
  have small : intervals.toNat < 2 ^ bit :=
    intervals.toNat_lt.trans_le (Nat.pow_le_pow_right Nat.two_pos high)
  rw [← UInt32.toNat_inj, UInt32.toNat_and, UInt16.toNat_toUInt32,
    toNat_ofNat32 (Nat.pow_lt_pow_right Nat.one_lt_two inside), Nat.and_two_pow,
    Nat.testBit_lt_two_pow small]
  exact Nat.zero_mul _

theorem or_and (a b mask : UInt32) : (a ||| b) &&& mask = a &&& mask ||| b &&& mask :=
  UInt32.eq_of_toBitVec_eq BitVec.and_or_distrib_right

/-- The bits of the interval meet neither flag. -/
theorem toRelativeLockTime_ofTime (time : Time) :
    (ofTime time).toRelativeLockTime = some (.time time) := by
  obtain ⟨intervals⟩ := time
  have disable : (intervals.toUInt32 ||| lockTypeMask) &&& lockTimeDisableFlagMask = 0 := by
    rw [or_and, show intervals.toUInt32 &&& lockTimeDisableFlagMask = 0 from
      and_high intervals 31 (by decide) (by decide)]
    rfl
  have type : (intervals.toUInt32 ||| lockTypeMask) &&& lockTypeMask = lockTypeMask := by
    rw [or_and, show intervals.toUInt32 &&& lockTypeMask = 0 from
      and_high intervals 22 (by decide) (by decide)]
    rfl
  have low : (intervals.toUInt32 ||| lockTypeMask).toUInt16 = intervals := by
    rw [UInt32.toUInt16_or, UInt16.toUInt16_toUInt32]
    exact UInt16.or_zero
  simp only [toRelativeLockTime, isTimeLocked, isRelativeLockTime, lowU16, ofTime,
    from512SecondIntervals, Time.from512SecondIntervals, disable, type, low]
  rfl

theorem ofInterval_eq {overflowChecks : Bool} {seconds : UInt32} (fits : seconds.toNat + 511 < 2 ^ 32)
    {interval : UInt32} (least : interval.toNat ≤ seconds.toNat ⌈/⌉ 512) :
    (ofInterval overflowChecks seconds interval).run =
      some ((lockOf interval.toNat seconds).map ofTime) := by
  obtain ⟨ceil, found, same⟩ := intervalsCeil_eq overflowChecks fits
  rw [ofInterval, ← lockOf_eq]
  split
  case isTrue => rfl
  case isFalse exceeds =>
    have overflows : ¬ ceil ≤ 0xffff := by
      rw [UInt32.le_iff_toNat_le] at exceeds ⊢
      omega
    rw [TimeOverflowError.new, found, Option.bind_eq_bind, Option.bind_some, if_neg overflows]
    rfl

end Sequence

/-- What the four conversions of a number of seconds are to return. -/
structure Converts (overflowChecks : Bool) (seconds : UInt32) : Prop where
  timeFloor : Time.fromSecondsFloor seconds = lockOf (seconds.toNat / 512) seconds
  timeCeil : (Time.fromSecondsCeil overflowChecks seconds).run =
    some (lockOf (seconds.toNat ⌈/⌉ 512) seconds)
  sequenceFloor : (Sequence.fromSecondsFloor overflowChecks seconds).run =
    some ((Time.fromSecondsFloor seconds).map Sequence.ofTime)
  sequenceCeil : (Sequence.fromSecondsCeil overflowChecks seconds).run =
    (Time.fromSecondsCeil overflowChecks seconds).run.map (Except.map Sequence.ofTime)
  floorBack : ∀ sequence, (Sequence.fromSecondsFloor overflowChecks seconds).run = some (.ok sequence) →
    ∃ time, Time.fromSecondsFloor seconds = .ok time ∧ sequence.toRelativeLockTime = some (.time time)
  ceilBack : ∀ sequence, (Sequence.fromSecondsCeil overflowChecks seconds).run = some (.ok sequence) →
    ∃ time, (Time.fromSecondsCeil overflowChecks seconds).run = some (.ok time) ∧
      sequence.toRelativeLockTime = some (.time time)

theorem Sequence.fromSecondsCeil_eq {overflowChecks : Bool} {seconds : UInt32}
    (fits : seconds.toNat + 511 < 2 ^ 32) :
    (fromSecondsCeil overflowChecks seconds).run =
      some ((lockOf (seconds.toNat ⌈/⌉ 512) seconds).map ofTime) := by
  obtain ⟨interval, found, same⟩ := intervalsCeil_eq overflowChecks fits
  rw [fromSecondsCeil, found, orPanic_bind, ofInterval_eq fits same.le, same]

theorem Sequence.fromSecondsFloor_eq {overflowChecks : Bool} {seconds : UInt32}
    (fits : seconds.toNat + 511 < 2 ^ 32) :
    (fromSecondsFloor overflowChecks seconds).run =
      some ((lockOf (seconds.toNat / 512) seconds).map ofTime) := by
  have least : (seconds / 512).toNat ≤ seconds.toNat ⌈/⌉ 512 := by
    rw [UInt32.toNat_div, Nat.ceilDiv_eq_add_pred_div]
    exact Nat.div_le_div_right (Nat.le_add_right _ 511)
  rw [fromSecondsFloor, ofInterval_eq fits least, UInt32.toNat_div]
  rfl

/-- A sequence that stands for a lock converts back to it. -/
theorem Sequence.back {lock : Except TimeOverflowError Time} {sequence : Sequence}
    (returned : some (lock.map ofTime) = some (.ok sequence)) :
    ∃ time, lock = .ok time ∧ sequence.toRelativeLockTime = some (.time time) := by
  cases lock with
  | error e => exact absurd (Option.some.inj returned) nofun
  | ok time =>
    obtain rfl : ofTime time = sequence := Except.ok.inj (Option.some.inj returned)
    exact ⟨time, rfl, toRelativeLockTime_ofTime time⟩

/-- A sum that is cut to 32 bits gives a lock of no time at all. -/
theorem intervalsCeil_over {overflowChecks : Bool} {seconds interval : UInt32}
    (exceeds : 2 ^ 32 ≤ seconds.toNat + 511)
    (found : intervalsCeil overflowChecks seconds = some interval) : interval = 0 := by
  obtain ⟨sum, returned, quotient⟩ := Option.bind_eq_some_iff.mp found
  obtain rfl := Option.some.inj quotient
  have wrapped := word32_wraps returned
  have bound := seconds.toNat_lt
  rw [← UInt32.toNat_inj, UInt32.toNat_div, wrapped]
  show _ / 512 = 0
  omega

/-- The conversions are right, and agree, up to the last 511 numbers of seconds. -/
theorem seconds_convert_iff (overflowChecks : Bool) (seconds : UInt32) :
    Converts overflowChecks seconds ↔ seconds.toNat + 511 < 2 ^ 32 := by
  constructor
  · intro converts
    by_contra exceeds
    rw [Nat.not_lt] at exceeds
    have returned := converts.timeCeil
    cases found : intervalsCeil overflowChecks seconds with
    | none =>
      rw [Time.fromSecondsCeil, found] at returned
      contradiction
    | some interval =>
      obtain rfl := intervalsCeil_over exceeds found
      have expected : lockOf (seconds.toNat ⌈/⌉ 512) seconds = .error { seconds } := by
        refine if_neg ?_
        rw [Nat.ceilDiv_eq_add_pred_div]
        omega
      rw [Time.fromSecondsCeil, found, expected] at returned
      exact absurd (Option.some.inj returned) nofun
  · intro fits
    refine ⟨Time.fromSecondsFloor_eq seconds, Time.fromSecondsCeil_eq fits, ?_, ?_, ?_, ?_⟩
    · rw [Sequence.fromSecondsFloor_eq fits, Time.fromSecondsFloor_eq]
    · rw [Sequence.fromSecondsCeil_eq fits, Time.fromSecondsCeil_eq fits]
      rfl
    · intro sequence returned
      rw [Sequence.fromSecondsFloor_eq fits] at returned
      rw [Time.fromSecondsFloor_eq]
      exact Sequence.back returned
    · intro sequence returned
      rw [Sequence.fromSecondsCeil_eq fits] at returned
      obtain ⟨time, lock, back⟩ := Sequence.back returned
      exact ⟨time, by rw [Time.fromSecondsCeil_eq fits, lock], back⟩

/-- Rounding up the greatest number of seconds panics or gives a lock of no time; rounding it down
to a sequence panics in every build. -/
theorem greatest_seconds :
    (Time.fromSecondsCeil true 0xffffffff).run = none ∧
    (Time.fromSecondsCeil false 0xffffffff).run = some (.ok ⟨0⟩) ∧
    (∀ overflowChecks, (Sequence.fromSecondsFloor overflowChecks 0xffffffff).run = none) ∧
    Time.fromSecondsFloor 0xffffffff = .error { seconds := 0xffffffff } := by
  decide

end Litecoin.Units
