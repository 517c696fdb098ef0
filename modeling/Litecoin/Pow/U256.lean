import Mathlib.Data.BitVec
import Mathlib.Tactic.Ring

/-! The 256-bit integers of the proof of work (`pow.rs`), two `u128` halves with limb
multiplication and bitwise long division. `none` stands for a failed assertion. -/
namespace Litecoin.Pow

/-- `(high, low)`. -/
structure U256 where
  high : BitVec 128
  low : BitVec 128
deriving DecidableEq, Repr

namespace U256

def toNat (x : U256) : Nat := x.high.toNat * 2 ^ 128 + x.low.toNat

/-- The low 256 bits of a number. -/
def ofNat (n : Nat) : U256 := ⟨BitVec.ofNat 128 (n / 2 ^ 128), BitVec.ofNat 128 n⟩

def zero : U256 := ⟨0, 0⟩

def one : U256 := ⟨0, 1⟩

/-- `U256::from`. -/
def ofU128 (x : BitVec 128) : U256 := ⟨0, x⟩

/-- The order derived from the halves. -/
def le (x y : U256) : Bool := x.high < y.high || (x.high = y.high && x.low ≤ y.low)

def not (x : U256) : U256 := ⟨~~~x.high, ~~~x.low⟩

/-- `u128::leading_zeros`. -/
def leadingZeros (x : BitVec 128) : Nat := if x = 0 then 128 else 127 - x.toNat.log2

def bits (x : U256) : Nat :=
  if 0 < x.high then 256 - leadingZeros x.high else 128 - leadingZeros x.low

def lowU64 (x : U256) : BitVec 64 := x.low.setWidth 64

def lowU32 (x : U256) : BitVec 32 := x.low.setWidth 32

/-- One round of the loop of `mul_u64`: the new word and the carry. -/
def mulWord (rhs : BitVec 64) (carry : BitVec 128) (word : BitVec 64) : BitVec 64 × BitVec 128 :=
  let n := carry + rhs.setWidth 128 * word.setWidth 128
  (n.setWidth 64, n >>> 64)

def mulU64 (x : U256) (rhs : BitVec 64) : U256 × Bool :=
  let (word₀, carry) := mulWord rhs 0 (x.low.setWidth 64)
  let (word₁, carry) := mulWord rhs carry ((x.low >>> 64).setWidth 64)
  let (word₂, carry) := mulWord rhs carry (x.high.setWidth 64)
  let (word₃, carry) := mulWord rhs carry ((x.high >>> 64).setWidth 64)
  let low := word₀.setWidth 128 ||| word₁.setWidth 128 <<< 64
  let high := word₂.setWidth 128 ||| word₃.setWidth 128 <<< 64
  (⟨high, low⟩, carry != 0)

def overflowingAdd (x y : U256) : U256 × Bool :=
  let high := x.high + y.high
  let overflow := x.high.uaddOverflow y.high
  let low := x.low + y.low
  if x.low.uaddOverflow y.low then (⟨high + 1, low⟩, overflow || high.uaddOverflow 1)
  else (⟨high, low⟩, overflow)

def wrappingAdd (x y : U256) : U256 := (x.overflowingAdd y).1

def wrappingSub (x y : U256) : U256 := (x.wrappingAdd y.not).wrappingAdd one

def wrappingShl (x : U256) (rhs : Nat) : U256 :=
  let shift := rhs % 256
  let bitShift := shift % 128
  if 128 ≤ shift then ⟨x.low <<< bitShift, 0⟩
  else if 0 < bitShift then ⟨x.high <<< bitShift + x.low >>> (128 - bitShift), x.low <<< bitShift⟩
  else ⟨x.high <<< bitShift, x.low <<< bitShift⟩

def wrappingShr (x : U256) (rhs : Nat) : U256 :=
  let shift := rhs % 256
  let bitShift := shift % 128
  if 128 ≤ shift then ⟨0, x.high >>> bitShift⟩
  else if 0 < bitShift then ⟨x.high >>> bitShift, x.low >>> bitShift + x.high <<< (128 - bitShift)⟩
  else ⟨x.high >>> bitShift, x.low >>> bitShift⟩

/-- The overflow of the three lower products is dropped. -/
def overflowingMul (x y : U256) : U256 × Bool :=
  let term (i : Nat) : U256 := (x.mulU64 (y.wrappingShr (64 * i)).lowU64).1.wrappingShl (64 * i)
  let partialSum := ((zero.wrappingAdd (term 0)).wrappingAdd (term 1)).wrappingAdd (term 2)
  let (product, overflow) := x.mulU64 (y.wrappingShr 192).lowU64
  let (sum, carried) := partialSum.overflowingAdd product
  (sum, overflow || carried)

/-- `*`, with its `debug_assert!`. -/
def mul (x y : U256) : Option U256 :=
  let (product, overflow) := x.overflowingMul y
  if overflow then none else some product

/-- `ret[1 - shift / 128] |= 1 << (shift % 128)`. -/
def setBit (x : U256) (shift : Nat) : U256 :=
  let bit : BitVec 128 := 1#128 <<< (shift % 128)
  if shift / 128 = 0 then ⟨x.high, x.low ||| bit⟩ else ⟨x.high ||| bit, x.low⟩

/-- The loop of `div_rem`, for the shifts from `shift` down to 0. -/
def divLoop : (shift : Nat) → (ret subCopy shiftCopy : U256) → U256 × U256
  | shift, ret, subCopy, shiftCopy =>
    let fits := shiftCopy.le subCopy
    let ret := if fits then ret.setBit shift else ret
    let subCopy := if fits then subCopy.wrappingSub shiftCopy else subCopy
    match shift with
    | 0 => (ret, subCopy)
    | shift + 1 => divLoop shift ret subCopy (shiftCopy.wrappingShr 1)

def divRem (x y : U256) : Option (U256 × U256) :=
  if y.bits = 0 then none
  else if x.bits < y.bits then some (zero, x)
  else
    let shift := x.bits - y.bits
    some (divLoop shift zero x (y.wrappingShl shift))

/-- `/`. -/
def div (x y : U256) : Option U256 := (x.divRem y).map Prod.fst

/-- `%`. -/
def rem (x y : U256) : Option U256 := (x.divRem y).map Prod.snd

def max : U256 := ⟨BitVec.allOnes 128, BitVec.allOnes 128⟩

def isZero (x : U256) : Bool := x.high = 0 && x.low = 0

def isOne (x : U256) : Bool := x.high = 0 && x.low = 1

def isMax (x : U256) : Bool := x.high = BitVec.allOnes 128 && x.low = BitVec.allOnes 128

def wrappingInc (x : U256) : U256 :=
  let low := x.low + 1
  if low = 0 then ⟨x.high + 1, low⟩ else ⟨x.high, low⟩

/-- `2 ^ 256 / (x + 1)`. -/
def inverse (x : U256) : Option U256 :=
  if x.isZero then some max
  else if x.isOne then some max
  else if x.isMax then some one
  else (x.not.div x.wrappingInc).map wrappingInc

end U256
end Litecoin.Pow
