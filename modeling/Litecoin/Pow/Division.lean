import Litecoin.Pow.Arithmetic
import Litecoin.Wire.Decimal
import Litecoin.Wire.Decoder

/-! Long division of 256-bit integers with the checks of its indices, and decimal printing by
repeated division (`pow.rs`). -/
namespace Litecoin.Pow
open Wire

namespace U256

/-- `setBit` with the check of the index into the two words. -/
def setBitChecked (ret : U256) (shift : Nat) : Option U256 :=
  if shift / 128 ≤ 1 then some (ret.setBit shift) else none

/-- The loop of `div_rem`, which panics outside of the two words. -/
def divLoopChecked : (shift : Nat) → (ret subCopy shiftCopy : U256) → Option (U256 × U256)
  | shift, ret, subCopy, shiftCopy => do
    let fits := shiftCopy.le subCopy
    let ret ← if fits then ret.setBitChecked shift else some ret
    let subCopy := if fits then subCopy.wrappingSub shiftCopy else subCopy
    match shift with
    | 0 => some (ret, subCopy)
    | shift + 1 => divLoopChecked shift ret subCopy (shiftCopy.wrappingShr 1)

def divRemChecked (x y : U256) : Option (U256 × U256) :=
  if y.bits = 0 then none
  else if x.bits < y.bits then some (zero, x)
  else
    let shift := x.bits - y.bits
    divLoopChecked shift zero x (y.wrappingShl shift)

def ten : U256 := ⟨0, 10⟩

/-- `DIGITS`. -/
def decimalDigitCount : Nat := 78

/-- The loop of `fmt_decimal` from index `i` down; a step below the first byte panics. -/
def fmtDecimalLoop : (i : Nat) → (buf : Bytes) → (cur : U256) → Option (Nat × Bytes)
  | i, buf, cur => do
    let digit ← cur.rem ten
    let buf ← if i < buf.length then some (buf.set i (UInt8.ofNat digit.low.toNat + 0x30)) else none
    let cur ← cur.div ten
    if cur.isZero then some (i, buf)
    else match i with
      | 0 => none
      | i + 1 => fmtDecimalLoop i buf cur

/-- `from_utf8` on bytes that are ASCII. -/
def asciiText (bytes : Bytes) : Option (List Char) :=
  if bytes.all (· < 0x80) then some (bytes.map fun byte => Char.ofNat byte.toNat) else none

/-- What is printed without a width. -/
def fmtDecimal (x : U256) : Option (List Char) := do
  let (i, buf) ← fmtDecimalLoop (decimalDigitCount - 1) (List.replicate decimalDigitCount 0) x
  asciiText (buf.drop i)

/-- `Display`. -/
def display (x : U256) : Option (List Char) := if x.isZero then some ['0'] else x.fmtDecimal

/-! The bit index stays within the two words. -/

theorem divLoopChecked_eq {shift : Nat} (inside : shift < 256) (ret subCopy shiftCopy : U256) :
    divLoopChecked shift ret subCopy shiftCopy = some (divLoop shift ret subCopy shiftCopy) := by
  induction shift generalizing ret subCopy shiftCopy with
  | zero =>
    rw [divLoopChecked, divLoop]
    split_ifs <;> rfl
  | succ shift ih =>
    have word : (shift + 1) / 128 ≤ 1 := by omega
    have rest := ih (by omega)
    rw [divLoopChecked, divLoop]
    split_ifs
    · rw [setBitChecked, if_pos word]
      exact rest _ _ _
    · exact rest _ _ _

theorem divRemChecked_eq (x y : U256) : x.divRemChecked y = x.divRem y := by
  have bound := bits_le x
  rw [divRemChecked, divRem]
  split_ifs with zero less
  · rfl
  · rfl
  · exact divLoopChecked_eq (by omega) _ _ _

theorem toNat_rem (x : U256) {y : U256} (nonzero : y.toNat ≠ 0) :
    ∃ remainder, x.rem y = some remainder ∧ remainder.toNat = x.toNat % y.toNat := by
  obtain ⟨quotient, remainder, divided, total, less⟩ := divRem_eq x nonzero
  refine ⟨remainder, by rw [rem, divided]; rfl, ?_⟩
  rw [← total, Nat.add_comm, Nat.add_mul_mod_self_right, Nat.mod_eq_of_lt less]

/-! Printing. -/

/-- The byte of a digit. -/
def digitByte (d : Nat) : UInt8 := UInt8.ofNat d + 0x30

theorem digitByte_ascii : ∀ d < 10, digitByte d < 0x80 ∧ Char.ofNat (digitByte d).toNat = digitChar d := by
  decide

theorem drop_set_self {buf : Bytes} {i : Nat} (inside : i < buf.length) (byte : UInt8) :
    (buf.set i byte).drop i = byte :: buf.drop (i + 1) := by
  rw [List.drop_set, if_neg (Nat.lt_irrefl i), List.drop_eq_getElem_cons inside, Nat.sub_self,
    List.set_cons_zero]

/-- A round writes the last digit and divides by ten. -/
theorem fmtDecimalLoop_round (i : Nat) (buf : Bytes) (cur : U256) :
    ∃ rest : U256, rest.toNat = cur.toNat / 10 ∧ (i < buf.length → fmtDecimalLoop i buf cur =
      if rest.isZero then some (i, buf.set i (digitByte (cur.toNat % 10)))
      else match i with
        | 0 => none
        | i + 1 => fmtDecimalLoop i (buf.set (i + 1) (digitByte (cur.toNat % 10))) rest) := by
  have nonzero : ten.toNat ≠ 0 := by decide
  obtain ⟨digit, reduced, digitValue⟩ := toNat_rem cur nonzero
  obtain ⟨rest, divided, restValue⟩ := toNat_div cur nonzero
  have low : digit.low.toNat = cur.toNat % 10 := by
    have small : digit.toNat < 10 := digitValue ▸ Nat.mod_lt _ (by decide)
    have value : digit.toNat = cur.toNat % 10 := digitValue
    rw [toNat] at small value
    omega
  refine ⟨rest, restValue, fun inside => ?_⟩
  rw [← low]
  cases i <;>
  · show (cur.rem ten).bind _ = _
    rw [reduced, Option.bind_some, if_pos inside]
    show (cur.div ten).bind _ = _
    rw [divided]
    rfl

/-- The digits are written from the last one on, and nothing below the first one. -/
theorem fmtDecimalLoop_eq {i : Nat} {buf : Bytes} (inside : i < buf.length) (cur : U256)
    (fits : cur.toNat < 10 ^ (i + 1)) :
    ∃ stop written, fmtDecimalLoop i buf cur = some (stop, written) ∧
      written.drop stop = (decimalDigits cur.toNat).map digitByte ++ buf.drop (i + 1) := by
  induction i generalizing buf cur with
  | zero =>
    obtain ⟨rest, value, round⟩ := fmtDecimalLoop_round _ buf cur
    have done : rest.isZero = true := (isZero_iff rest).mpr (by omega)
    refine ⟨_, _, (round inside).trans (if_pos done), ?_⟩
    rw [decimalDigits_of_lt (by omega), Nat.mod_eq_of_lt (by omega)]
    exact drop_set_self inside _
  | succ i ih =>
    obtain ⟨rest, value, round⟩ := fmtDecimalLoop_round _ buf cur
    by_cases done : rest.isZero = true
    · refine ⟨_, _, (round inside).trans (if_pos done), ?_⟩
      have small := (isZero_iff rest).mp done
      rw [decimalDigits_of_lt (by omega), Nat.mod_eq_of_lt (by omega)]
      exact drop_set_self inside _
    · have large := mt (isZero_iff rest).mpr done
      have next : rest.toNat < 10 ^ (i + 1) := by
        rw [value, Nat.div_lt_iff_lt_mul (by decide), ← pow_succ]
        exact fits
      have below : i < (buf.set (i + 1) (digitByte (cur.toNat % 10))).length := by
        rw [List.length_set]
        omega
      obtain ⟨stop, written, ran, digits⟩ := ih below rest next
      refine ⟨stop, written, ((round inside).trans (if_neg done)).trans ran, ?_⟩
      rw [digits, decimalDigits_concat (n := cur.toNat) (by omega), value, List.map_append,
        List.append_assoc, drop_set_self inside]
      rfl

/-- The decimal numeral is printed, within the buffer. -/
theorem fmtDecimal_eq (x : U256) : x.fmtDecimal = some (decimal x.toNat) := by
  have fits : x.toNat < 10 ^ 78 := x.toNat_lt.trans (by decide)
  have inside : 77 < (List.replicate 78 (0 : UInt8)).length := by decide
  obtain ⟨stop, written, ran, digits⟩ := fmtDecimalLoop_eq inside x fits
  have whole : (List.replicate 78 (0 : UInt8)).drop 78 = [] := rfl
  rw [whole, List.append_nil] at digits
  have bounded := Digits.decimal x.toNat
  have printed : x.fmtDecimal = asciiText (written.drop stop) := by
    rw [fmtDecimal, decimalDigitCount, ran]
    rfl
  rw [printed, digits, asciiText, if_pos]
  · rw [List.map_map, decimal]
    exact congrArg some (List.map_congr_left fun d listed => (digitByte_ascii d (bounded d listed)).2)
  · rw [List.all_eq_true]
    intro byte listed
    obtain ⟨d, member, rfl⟩ := List.mem_map.mp listed
    exact decide_eq_true (digitByte_ascii d (bounded d member)).1

/-- Division is exact and total but for zero, and every value is printed as its numeral. -/
structure DividesAndPrints : Prop where
  division : ∀ x y : U256, y.toNat ≠ 0 → ∃ quotient remainder,
    x.divRemChecked y = some (quotient, remainder) ∧
      x.toNat = quotient.toNat * y.toNat + remainder.toNat ∧ remainder.toNat < y.toNat
  printing : ∀ (x : U256) (text : List Char),
    x.fmtDecimal = some text ↔ ∃ digits, Numeral text digits x.toNat
  display : ∀ x : U256, x.display = x.fmtDecimal

theorem dividesAndPrints : DividesAndPrints where
  division x y nonzero := by
    obtain ⟨quotient, remainder, divided, total, less⟩ := divRem_eq x nonzero
    rw [divRemChecked_eq]
    exact ⟨quotient, remainder, divided, total.symm, less⟩
  printing x text := by
    rw [fmtDecimal_eq, numeral_iff, Option.some.injEq, eq_comm]
  display x := by
    rw [display, fmtDecimal_eq]
    split_ifs with zero
    · rw [(isZero_iff x).mp zero]
      rfl
    · rfl

end U256
end Litecoin.Pow
