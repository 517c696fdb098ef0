import Litecoin.Wire.Decimal
import Litecoin.Wire.Outcome

/-! Amounts, their text in a denomination and the parser of that text (`units/amount.rs`). -/
namespace Litecoin.Units
open Wire

abbrev Text : Type := List Char

/-- `str::len`, in bytes of UTF-8. -/
def byteLen (s : Text) : Nat := (s.map Char.utf8Size).sum

/-- `char_indices`, from a byte offset. -/
def charIndices : (offset : Nat) → Text → List (Nat × Char)
  | _, [] => []
  | offset, c :: rest => (offset, c) :: charIndices (offset + c.utf8Size) rest

/-- `&s[..end]`; an end past the string or inside a character panics. -/
def sliceTo : (stop : Nat) → Text → Option Text
  | 0, _ => some []
  | _ + 1, [] => none
  | stop + 1, c :: rest =>
    if c.utf8Size ≤ stop + 1 then (sliceTo (stop + 1 - c.utf8Size) rest).map (c :: ·) else none

/-- The tables of Unicode properties that the standard library has. -/
class Unicode where
  isAlphabetic : Char → Bool

/-- `i64::from_str`. -/
def parseI64 (s : Text) : Option Int := do
  let (sign, digits) := match s with
    | '-' :: rest => ((-1 : Int), rest)
    | '+' :: rest => (1, rest)
    | rest => (1, rest)
  if digits = [] then none else do
    let values ← digits.mapM charDigit
    let value := sign * bigEndian 10 values
    if -2 ^ 63 ≤ value ∧ value < 2 ^ 63 then some value else none

inductive Denomination where
  | bitcoin
  | centiBitcoin
  | milliBitcoin
  | microBitcoin
  | nanoBitcoin
  | picoBitcoin
  | bit
  | satoshi
  | milliSatoshi
deriving DecidableEq, Repr

inductive ParseDenominationError where
  | unknown (s : Text)
  | possiblyConfusing (s : Text)
deriving DecidableEq, Repr

namespace Denomination

def precision : Denomination → Int
  | bitcoin => -8
  | centiBitcoin => -6
  | milliBitcoin => -5
  | microBitcoin => -2
  | nanoBitcoin => 1
  | picoBitcoin => 4
  | bit => -2
  | satoshi => 0
  | milliSatoshi => 3

def asStr : Denomination → Text
  | bitcoin => "BTC".toList
  | centiBitcoin => "cBTC".toList
  | milliBitcoin => "mBTC".toList
  | microBitcoin => "uBTC".toList
  | nanoBitcoin => "nBTC".toList
  | picoBitcoin => "pBTC".toList
  | bit => "bits".toList
  | satoshi => "satoshi".toList
  | milliSatoshi => "msat".toList

/-- The arms of `forms`. -/
def formTable : List (List String × Denomination) := [
  (["BTC", "btc"], bitcoin),
  (["cBTC", "cbtc"], centiBitcoin),
  (["mBTC", "mbtc"], milliBitcoin),
  (["uBTC", "ubtc"], microBitcoin),
  (["nBTC", "nbtc"], nanoBitcoin),
  (["pBTC", "pbtc"], picoBitcoin),
  (["bit", "bits", "BIT", "BITS"], bit),
  (["SATOSHI", "satoshi", "SATOSHIS", "satoshis", "SAT", "sat", "SATS", "sats"], satoshi),
  (["mSAT", "msat", "mSATs", "msats"], milliSatoshi)]

def forms (s : Text) : Option Denomination :=
  (formTable.find? fun row => row.1.any fun form => form.toList == s).map Prod.snd

/-- `CONFUSING_FORMS`. -/
def confusingForms : List String :=
  ["Msat", "Msats", "MSAT", "MSATS", "MSat", "MSats", "MBTC", "Mbtc", "PBTC"]

/-- `FromStr for Denomination`. -/
def fromStr (s : Text) : Except ParseDenominationError Denomination :=
  if confusingForms.any fun form => form.toList == s then .error (.possiblyConfusing s)
  else match forms s with
    | some denom => .ok denom
    | none => .error (.unknown s)

end Denomination

structure OutOfRangeError where
  isSigned : Bool
  isGreaterThanMax : Bool
deriving DecidableEq, Repr

inductive MissingDigitsKind where
  | empty
  | onlyMinusSign
deriving DecidableEq, Repr

inductive ParseAmountError where
  | outOfRange (e : OutOfRangeError)
  | tooPrecise (position : Nat)
  | missingDigits (kind : MissingDigitsKind)
  | inputTooLarge (len : Nat)
  | invalidCharacter (invalidChar : Char) (position : Nat)
deriving DecidableEq, Repr

inductive ParseError where
  | amount (e : ParseAmountError)
  | denomination (e : ParseDenominationError)
  | missingDenomination
deriving DecidableEq, Repr

inductive InnerParseError where
  | overflow (isNegative : Bool)
  | tooPrecise (position : Nat)
  | missingDigits (kind : MissingDigitsKind)
  | inputTooLarge (len : Nat)
  | invalidCharacter (invalidChar : Char) (position : Nat)
deriving DecidableEq, Repr

/-- `InnerParseError::convert`. -/
def InnerParseError.convert (isSigned : Bool) : InnerParseError → ParseAmountError
  | overflow isNegative => .outOfRange ⟨isSigned, !isNegative⟩
  | tooPrecise position => .tooPrecise position
  | missingDigits kind => .missingDigits kind
  | inputTooLarge len => .inputTooLarge len
  | invalidCharacter invalidChar position => .invalidCharacter invalidChar position

/-- The part of a string before a character, when it has that character, and the part after. -/
def splitAtChar (c : Char) (s : Text) : Option (Text × Text) :=
  if c ∈ s then some (s.takeWhile (· != c), (s.dropWhile (· != c)).drop 1) else none

/-- The last of the characters that is not a zero, among so many from the right. -/
def lastNonzero (count : Nat) (s : Text) : Option Nat :=
  (((charIndices 0 s).reverse.take count).find? (·.2 != '0')).map Prod.fst

/-- `is_too_precise`. -/
def isTooPrecise (s : Text) (precision : Nat) : Option Nat :=
  match splitAtChar '.' s with
  | some (before, after) =>
    let pos := byteLen before
    if pos ≤ precision then some 0
    else (lastNonzero precision before).or
      (((charIndices 0 after).find? (·.2 != '0')).map fun (i, _) => i + pos + 1)
  | none => if byteLen s ≤ precision then some 0 else lastNonzero precision s

/-- `u64::checked_mul` by ten. -/
def checkedTimesTen (value : Nat) : Option Nat := if 10 * value < 2 ^ 64 then some (10 * value) else none

/-- `u64::checked_add`. -/
def checkedAdd (value digit : Nat) : Option Nat :=
  if value + digit < 2 ^ 64 then some (value + digit) else none

/-- The loop over the characters: the decimals read so far, if the dot was, and the value. -/
def parseLoop (isNegative : Bool) (maxDecimals : Nat) :
    Option Nat → Nat → List (Nat × Char) → Except InnerParseError (Option Nat × Nat)
  | decimals, value, [] => .ok (decimals, value)
  | decimals, value, (i, c) :: rest =>
    match charDigit c with
    | some digit =>
      match (checkedTimesTen value).bind (checkedAdd · digit) with
      | none => .error (.overflow isNegative)
      | some value =>
        match decimals with
        | none => parseLoop isNegative maxDecimals none value rest
        | some d =>
          if d < maxDecimals then parseLoop isNegative maxDecimals (some (d + 1)) value rest
          else .error (.tooPrecise (i + isNegative.toNat))
    | none =>
      if c = '.' then
        match decimals with
        | none =>
          if maxDecimals = 0 then .ok (none, value)
          else parseLoop isNegative maxDecimals (some 0) value rest
        | some _ => .error (.invalidCharacter '.' (i + isNegative.toNat))
      else .error (.invalidCharacter c (i + isNegative.toNat))

/-- The decimal shift at the end. -/
def shiftLoop (isNegative : Bool) : (scaleFactor : Nat) → Nat → Except InnerParseError Nat
  | 0, value => .ok value
  | scaleFactor + 1, value =>
    match checkedTimesTen value with
    | some value => shiftLoop isNegative scaleFactor value
    | none => .error (.overflow isNegative)

/-- The second half of `parse_signed_to_satoshi`. -/
def parseDigits (isNegative : Bool) (maxDecimals : Nat) (s : Text) : Except InnerParseError (Bool × Nat) := do
  let (decimals, value) ← parseLoop isNegative maxDecimals none 0 (charIndices 0 s)
  let value ← shiftLoop isNegative (maxDecimals - decimals.getD 0) value
  .ok (isNegative, value)

/-- `parse_signed_to_satoshi` after the sign. The outer `none` is a slice that panics. -/
def parseUnsigned (isNegative : Bool) (s : Text) (denom : Denomination) :
    ExceptT InnerParseError Option (Bool × Nat) :=
  if 0 ≤ denom.precision then
    let lastN := denom.precision.toNat
    match isTooPrecise s lastN with
    | some position =>
      if parseI64 s = some 0 then pure (isNegative, 0)
      else throw (.tooPrecise (position + isNegative.toNat))
    | none => do
      let stop := ((splitAtChar '.' s).map fun (before, _) => byteLen before).getD (byteLen s)
      let s ← orPanic (sliceTo (stop - lastN) s)
      liftM (parseDigits isNegative 0 s)
  else liftM (parseDigits isNegative (-denom.precision).toNat s)

/-- `parse_signed_to_satoshi`. -/
def parseSignedToSatoshi (s : Text) (denom : Denomination) :
    ExceptT InnerParseError Option (Bool × Nat) :=
  if s = [] then throw (.missingDigits .empty)
  else if 50 < byteLen s then throw (.inputTooLarge (byteLen s))
  else
    let isNegative := s.head? == some '-'
    if isNegative ∧ byteLen s = 1 then throw (.missingDigits .onlyMinusSign)
    else parseUnsigned isNegative (if isNegative then s.tail else s) denom

/-- `split_amount_and_denomination`. -/
def splitAmountAndDenomination [Unicode] (s : Text) : Except ParseError (Text × Denomination) :=
  match splitAtChar ' ' s with
  | some (amount, denom) => (Denomination.fromStr denom).mapError .denomination |>.map (amount, ·)
  | none =>
    if s.any Unicode.isAlphabetic then
      (Denomination.fromStr (s.dropWhile fun c => !Unicode.isAlphabetic c)).mapError .denomination
        |>.map (s.takeWhile fun c => !Unicode.isAlphabetic c, ·)
    else .error .missingDenomination

/-- `fmt::Alignment`. -/
inductive Alignment where
  | left
  | right
  | center
deriving DecidableEq, Repr

/-- `FormatOptions`, with its defaults. -/
structure FormatOptions where
  fill : Char := ' '
  align : Option Alignment := none
  width : Option Nat := none
  precision : Option Nat := none
  signPlus : Bool := false
  signAwareZeroPad : Bool := false
deriving DecidableEq, Repr

/-- `dec_width`. -/
def decWidth (num : Nat) : Nat := if num / 10 = 0 then 1 else decWidth (num / 10) + 1
termination_by num
decreasing_by omega

/-- The loop that strips trailing zeros from a number that is not zero. -/
def stripZeros (nbDecimals num : Nat) : Nat × Nat :=
  if num ≠ 0 ∧ num % 10 = 0 then stripZeros (nbDecimals - 1) (num / 10) else (nbDecimals, num)
termination_by num
decreasing_by omega

/-- What `fmt_satoshi_in` works out first. -/
structure Normalized where
  numBeforeDecimalPoint : Nat
  numAfterDecimalPoint : Nat
  normNbDecimals : Nat
  trailingDecimalZeros : Nat
  exp : Nat

def normalize (satoshi : Nat) (denom : Denomination) (options : FormatOptions) : Normalized :=
  let precision := denom.precision
  if 0 < precision then {
    numBeforeDecimalPoint := satoshi
    numAfterDecimalPoint := 0
    normNbDecimals := 0
    trailingDecimalZeros := options.precision.getD 0
    exp := if 0 < satoshi then precision.toNat else 0 }
  else if precision < 0 then
    let precision := precision.natAbs
    let divisor := 10 ^ precision
    let after := satoshi % divisor
    let (normNbDecimals, after) := if after = 0 then (0, after) else stripZeros precision after
    { numBeforeDecimalPoint := satoshi / divisor
      numAfterDecimalPoint := after
      normNbDecimals
      trailingDecimalZeros := options.precision.getD 0 - normNbDecimals
      exp := 0 }
  else {
    numBeforeDecimalPoint := satoshi
    numAfterDecimalPoint := 0
    normNbDecimals := 0
    trailingDecimalZeros := options.precision.getD 0
    exp := 0 }

/-- `fmt_satoshi_in`. -/
def fmtSatoshiIn (satoshi : Nat) (negative : Bool) (denom : Denomination) (showDenom : Bool)
    (options : FormatOptions) : Text :=
  let n := normalize satoshi denom options
  let totalDecimals := n.normNbDecimals + n.trailingDecimalZeros
  let numWidth := (if 0 < totalDecimals then 1 + totalDecimals else 0) +
    (decWidth n.numBeforeDecimalPoint + n.exp) + (if options.signPlus || negative then 1 else 0) +
    (if showDenom then byteLen denom.asStr + 1 else 0)
  let width := options.width.getD 0
  let align := options.align.getD .right
  let (leftPad, padRight) :=
    if ¬numWidth < width then (0, 0)
    else if options.signAwareZeroPad ∨ align = .right then (width - numWidth, 0)
    else if align = .left then (0, width - numWidth)
    else ((width - numWidth) / 2, (width - numWidth + 1) / 2)
  (if !options.signAwareZeroPad then List.replicate leftPad options.fill else []) ++
  (if negative then ['-'] else if options.signPlus then ['+'] else []) ++
  (if options.signAwareZeroPad then List.replicate leftPad '0' else []) ++
  decimal n.numBeforeDecimalPoint ++ List.replicate n.exp '0' ++
  (if 0 < totalDecimals then ['.'] else []) ++
  (if 0 < n.normNbDecimals then (paddedDigits n.normNbDecimals n.numAfterDecimalPoint).map digitChar
    else []) ++
  List.replicate n.trailingDecimalZeros '0' ++
  (if showDenom then ' ' :: denom.asStr else []) ++
  List.replicate padRight options.fill

/-- `DisplayStyle`. -/
inductive DisplayStyle where
  | fixedDenomination (denomination : Denomination) (showDenomination : Bool)
  | dynamicDenomination

structure Display where
  satsAbs : Nat
  isNegative : Bool
  style : DisplayStyle

/-- `Display for Display`. -/
def Display.fmt (display : Display) (options : FormatOptions) : Text :=
  match display.style with
  | .fixedDenomination denomination showDenomination =>
    fmtSatoshiIn display.satsAbs display.isNegative denomination showDenomination options
  | .dynamicDenomination =>
    if 100000000 ≤ display.satsAbs then
      fmtSatoshiIn display.satsAbs display.isNegative .bitcoin true options
    else fmtSatoshiIn display.satsAbs display.isNegative .satoshi true options

structure Amount where
  sat : UInt64
deriving DecidableEq, Repr

namespace Amount

def fromStrIn (s : Text) (denom : Denomination) : ExceptT ParseAmountError Option Amount := do
  let (negative, satoshi) ← ExceptT.mk
    ((parseSignedToSatoshi s denom).run.map (Except.mapError (InnerParseError.convert false)))
  if negative then throw (.outOfRange ⟨false, false⟩) else pure ⟨UInt64.ofNat satoshi⟩

def fromStrWithDenomination [Unicode] (s : Text) : ExceptT ParseError Option Amount := do
  let (amt, denom) ← liftM (splitAmountAndDenomination s)
  ExceptT.mk ((fromStrIn amt denom).run.map (Except.mapError .amount))

/-- `FromStr for Amount`. -/
def fromStr [Unicode] (s : Text) : ExceptT ParseError Option Amount := fromStrWithDenomination s

def fmtValueIn (amount : Amount) (denom : Denomination) : Text :=
  fmtSatoshiIn amount.sat.toNat false denom false {}

def toStringIn (amount : Amount) (denom : Denomination) : Text := amount.fmtValueIn denom

def toStringWithDenomination (amount : Amount) (denom : Denomination) : Text :=
  amount.fmtValueIn denom ++ ' ' :: denom.asStr

def displayDynamic (amount : Amount) : Display := ⟨amount.sat.toNat, false, .dynamicDenomination⟩

/-- `Display for Amount`. -/
def fmt (amount : Amount) (options : FormatOptions) : Text :=
  let satoshis := amount.sat.toNat
  let options := if options.precision = none ∧ satoshis % 100000000 ≠ 0 then
    { options with precision := some 8 } else options
  fmtSatoshiIn satoshis false .bitcoin true options

end Amount

structure SignedAmount where
  sat : Int64
deriving DecidableEq, Repr

namespace SignedAmount

def fromStrIn (s : Text) (denom : Denomination) : ExceptT ParseAmountError Option SignedAmount := do
  let (negative, sat) ← ExceptT.mk
    ((parseSignedToSatoshi s denom).run.map (Except.mapError (InnerParseError.convert true)))
  if negative = false then
    if 2 ^ 63 - 1 < sat then throw (.outOfRange ⟨true, true⟩) else pure ⟨Int64.ofNat sat⟩
  else if sat = 2 ^ 63 then pure ⟨Int64.minValue⟩
  else if 2 ^ 63 < sat then throw (.outOfRange ⟨true, false⟩)
  else pure ⟨-Int64.ofNat sat⟩

def fromStrWithDenomination [Unicode] (s : Text) : ExceptT ParseError Option SignedAmount := do
  let (amt, denom) ← liftM (splitAmountAndDenomination s)
  ExceptT.mk ((fromStrIn amt denom).run.map (Except.mapError .amount))

/-- `FromStr for SignedAmount`. -/
def fromStr [Unicode] (s : Text) : ExceptT ParseError Option SignedAmount := fromStrWithDenomination s

def unsignedAbs (amount : SignedAmount) : Amount := ⟨UInt64.ofNat amount.sat.toInt.natAbs⟩

def isNegative (amount : SignedAmount) : Bool := amount.sat.toInt < 0

def fmtValueIn (amount : SignedAmount) (denom : Denomination) : Text :=
  fmtSatoshiIn amount.unsignedAbs.sat.toNat amount.isNegative denom false {}

def toStringIn (amount : SignedAmount) (denom : Denomination) : Text := amount.fmtValueIn denom

def toStringWithDenomination (amount : SignedAmount) (denom : Denomination) : Text :=
  amount.fmtValueIn denom ++ ' ' :: denom.asStr

def displayDynamic (amount : SignedAmount) : Display :=
  ⟨amount.unsignedAbs.sat.toNat, amount.isNegative, .dynamicDenomination⟩

/-- `Display for SignedAmount`; it does not look at the options. -/
def fmt (amount : SignedAmount) : Text :=
  amount.fmtValueIn .bitcoin ++ ' ' :: Denomination.bitcoin.asStr

end SignedAmount
end Litecoin.Units
