import Litecoin.Units.Numerals
import Litecoin.Wire.Machine

/-! The text of an amount (`fmt_satoshi_in`) for all options, with the width predicted in
machine words. -/
namespace Litecoin.Units
open Wire

/-! ### The number -/

theorem length_decimalDigits (n : Nat) : (decimalDigits n).length = decWidth n := by
  fun_induction decWidth n with
  | case1 n small =>
    rw [decimalDigits_of_lt (by omega)]
    rfl
  | case2 n large ih =>
    rw [decimalDigits_concat (by omega), List.length_append, ih]
    rfl

theorem stripZeros_mod {nbDecimals num : Nat} (nonzero : num ≠ 0) :
    (stripZeros nbDecimals num).2 % 10 ≠ 0 := by
  fun_induction stripZeros nbDecimals num with
  | case1 nbDecimals num trailing ih => exact ih (by omega)
  | case2 nbDecimals num stop =>
    intro zero
    exact stop ⟨nonzero, zero⟩

theorem getLast_paddedDigits {width n : Nat} (nonzero : n ≠ 0) :
    (paddedDigits width n).getLast? = some (n % 10) := by
  have digits : Nat.digits 10 n = n % 10 :: Nat.digits 10 (n / 10) :=
    Nat.digits_of_two_le_of_pos (by decide) (Nat.pos_of_ne_zero nonzero)
  rw [paddedDigits, List.getLast?_append, List.getLast?_reverse, digits]
  rfl

/-- What is printed of an amount before its dot. -/
def wholeDigits (satoshi : Nat) (denom : Denomination) : List Nat :=
  decimalDigits (satoshi / 10 ^ (-denom.precision).toNat) ++
    List.replicate (if 0 < satoshi then denom.precision.toNat else 0) 0

/-- What is printed after the dot: the decimals of the amount, no fewer than were asked for
and no zeros beyond them. -/
structure Decimals (satoshi : Nat) (denom : Denomination) (requested : Nat) (frac : List Nat) :
    Prop where
  digits : Digits frac
  value : bigEndian 10 (wholeDigits satoshi denom ++ frac) * 10 ^ (-denom.precision).toNat =
    satoshi * 10 ^ (frac.length + denom.precision.toNat)
  enough : requested ≤ frac.length
  needed : requested < frac.length → frac.getLast? ≠ some 0

theorem bigEndian_zeros_right (digits : List Nat) (count : Nat) :
    bigEndian 10 (digits ++ List.replicate count 0) = bigEndian 10 digits * 10 ^ count := by
  rw [bigEndian_append, bigEndian_zeros, List.length_replicate, Nat.add_zero]

/-- In satoshis and finer denominations there are only the decimals that were asked for. -/
theorem body_fine_spec (satoshi : Nat) {denom : Denomination} (fine : 0 ≤ denom.precision)
    (options : FormatOptions) :
    body satoshi denom options =
        numeral (wholeDigits satoshi denom) (List.replicate (options.precision.getD 0) 0) ∧
      Decimals satoshi denom (options.precision.getD 0)
        (List.replicate (options.precision.getD 0) 0) := by
  have none : (-denom.precision).toNat = 0 := by omega
  have whole : wholeDigits satoshi denom = decimalDigits satoshi ++
      List.replicate (if 0 < satoshi then denom.precision.toNat else 0) 0 := by
    rw [wholeDigits, none, pow_zero, Nat.div_one]
  have normal : normalize satoshi denom options = {
      numBeforeDecimalPoint := satoshi, numAfterDecimalPoint := 0, normNbDecimals := 0,
      trailingDecimalZeros := options.precision.getD 0,
      exp := if 0 < satoshi then denom.precision.toNat else 0 } := by
    rw [normalize]
    rcases lt_or_eq_of_le fine with more | exactly
    · rw [if_pos more]
    · rw [if_neg (by omega), if_neg (by omega), ← exactly]
      split_ifs
      · rfl
      · rfl
  constructor
  · simp only [body, normal, whole, numeral, decimal, List.map_append, List.map_replicate,
      lt_irrefl, if_false,
      List.append_nil, Nat.zero_add, List.replicate_eq_nil_iff]
    have zero : digitChar 0 = '0' := rfl
    rw [zero]
    by_cases asked : options.precision.getD 0 = 0
    · simp only [asked, lt_irrefl, if_false, if_true, List.replicate_zero, List.append_nil]
    · rw [if_pos (Nat.pos_of_ne_zero asked), if_neg asked, List.append_assoc _ ['.']]
      rfl
  · refine ⟨Digits.zeros _, ?_, ?_, ?_⟩
    · rw [none, pow_zero, mul_one, whole, bigEndian_zeros_right, bigEndian_zeros_right,
        bigEndian_decimalDigits, List.length_replicate, Nat.mul_assoc, ← pow_add]
      rcases Nat.eq_zero_or_pos satoshi with rfl | positive
      · rw [Nat.zero_mul, Nat.zero_mul]
      · rw [if_pos positive, Nat.add_comm]
    · rw [List.length_replicate]
    · rw [List.length_replicate]
      exact fun more => absurd more (lt_irrefl _)

/-- In coarser denominations zeros are stripped, and then added as far as asked for. -/
theorem body_coarse_spec (satoshi : Nat) {denom : Denomination} (coarse : denom.precision < 0)
    (options : FormatOptions) : ∃ frac,
    body satoshi denom options = numeral (wholeDigits satoshi denom) frac ∧
      Decimals satoshi denom (options.precision.getD 0) frac := by
  have normal := normalize.eq_def satoshi denom options
  simp only [if_neg (show ¬ 0 < denom.precision by omega), if_pos coarse] at normal
  have whole : wholeDigits satoshi denom = decimalDigits (satoshi / 10 ^ denom.precision.natAbs) := by
    have places : (-denom.precision).toNat = denom.precision.natAbs := by omega
    have none : denom.precision.toNat = 0 := by omega
    rw [wholeDigits, places, none, ite_self, List.replicate_zero, List.append_nil]
  have places : (-denom.precision).toNat = denom.precision.natAbs := by omega
  have none : denom.precision.toNat = 0 := by omega
  have number (frac : List Nat) : bigEndian 10 (wholeDigits satoshi denom ++ frac) =
      satoshi / 10 ^ denom.precision.natAbs * 10 ^ frac.length + bigEndian 10 frac := by
    rw [whole, bigEndian_append, bigEndian_decimalDigits]
  generalize denom.precision.natAbs = p at *
  generalize options.precision.getD 0 = requested at *
  have divides := Nat.div_add_mod' satoshi (10 ^ p)
  by_cases exactly : satoshi % 10 ^ p = 0
  · rw [if_pos exactly] at normal
    dsimp only at normal
    rw [Nat.sub_zero] at normal
    obtain ⟨text, digits, length, value⟩ := body_eq_numeral normal rfl
      (by show satoshi % 10 ^ p < 10 ^ 0; rw [exactly]; exact Nat.one_pos)
    simp only [Nat.zero_add] at text length value
    refine ⟨_, by rw [text, whole], digits, ?_, length.ge, fun more => absurd length more.ne'⟩
    rw [exactly, Nat.add_zero] at divides
    rw [number, value, exactly, Nat.zero_mul, Nat.add_zero, places, none, Nat.add_zero,
      Nat.mul_right_comm, divides]
  · rw [if_neg exactly] at normal
    have small := Nat.mod_lt satoshi (Nat.pow_pos (by decide : 0 < 10) (n := p))
    obtain ⟨positive, le, below, stripped⟩ := stripZeros_spec exactly small
    have last : (stripZeros p (satoshi % 10 ^ p)).2 % 10 ≠ 0 := stripZeros_mod exactly
    obtain ⟨text, digits, length, value⟩ := body_eq_numeral normal rfl below
    simp only at text length value
    generalize (stripZeros p (satoshi % 10 ^ p)).1 = m at *
    generalize (stripZeros p (satoshi % 10 ^ p)).2 = after at *
    refine ⟨_, by rw [text, whole], digits, ?_, by omega, fun more => ?_⟩
    · obtain ⟨rest, rfl⟩ : ∃ rest, p = m + rest := Nat.exists_eq_add_of_le le
      rw [Nat.add_sub_cancel_left] at stripped
      rw [number, value, length, places, none, Nat.add_zero]
      generalize requested - m = trailing
      generalize satoshi / 10 ^ (m + rest) = high at *
      rw [← divides, ← stripped]
      ring
    · have none : requested - m = 0 := by omega
      have nonzero : after ≠ 0 := by
        rintro rfl
        exact last rfl
      rw [fraction]
      simp only [none, List.replicate_zero, List.append_nil, if_pos positive,
        getLast_paddedDigits nonzero]
      exact fun zero => last (Option.some.inj zero)

theorem body_spec (satoshi : Nat) (denom : Denomination) (options : FormatOptions) : ∃ frac,
    body satoshi denom options = numeral (wholeDigits satoshi denom) frac ∧
      Decimals satoshi denom (options.precision.getD 0) frac := by
  rcases lt_or_ge denom.precision 0 with coarse | fine
  · exact body_coarse_spec satoshi coarse options
  · exact ⟨_, body_fine_spec satoshi fine options⟩

/-! ### The width -/

/-- The decimals that are kept fit their places, of which there are at most eight; then zeros
follow as far as asked for. -/
theorem normalize_decimals (satoshi : Nat) (denom : Denomination) (options : FormatOptions) :
    (normalize satoshi denom options).numAfterDecimalPoint <
        10 ^ (normalize satoshi denom options).normNbDecimals ∧
      (normalize satoshi denom options).normNbDecimals ≤ 8 ∧
      (normalize satoshi denom options).trailingDecimalZeros =
        options.precision.getD 0 - (normalize satoshi denom options).normNbDecimals := by
  have range : -8 ≤ denom.precision := by cases denom <;> decide
  rw [normalize]
  rcases lt_trichotomy denom.precision 0 with coarse | exactly | fine
  · rw [if_neg (not_lt.mpr coarse.le), if_pos coarse]
    dsimp only
    by_cases none : satoshi % 10 ^ denom.precision.natAbs = 0
    · rw [if_pos none]
      exact ⟨by rw [none]; exact Nat.one_pos, Nat.zero_le 8, rfl⟩
    · rw [if_neg none]
      have small := Nat.mod_lt satoshi (Nat.pow_pos (by decide : 0 < 10) (n := denom.precision.natAbs))
      obtain ⟨-, le, below, -⟩ := stripZeros_spec none small
      exact ⟨below, le.trans (by omega), rfl⟩
  · rw [if_neg (by omega), if_neg (by omega)]
    exact ⟨Nat.one_pos, Nat.zero_le 8, rfl⟩
  · rw [if_pos fine]
    exact ⟨Nat.one_pos, Nat.zero_le 8, rfl⟩

/-- As many digits stand before the dot as `num_width` counts. -/
theorem length_wholeDigits (satoshi : Nat) (denom : Denomination) (options : FormatOptions) :
    (wholeDigits satoshi denom).length =
      decWidth (normalize satoshi denom options).numBeforeDecimalPoint +
        (normalize satoshi denom options).exp := by
  rw [wholeDigits, List.length_append, List.length_replicate, length_decimalDigits, normalize]
  rcases lt_trichotomy denom.precision 0 with coarse | exactly | fine
  · have places : (-denom.precision).toNat = denom.precision.natAbs := by omega
    have none : denom.precision.toNat = 0 := by omega
    rw [if_neg (not_lt.mpr coarse.le), if_pos coarse, places, none, ite_self]
  · rw [if_neg (show ¬ 0 < denom.precision by omega), if_neg (show ¬ denom.precision < 0 by omega),
      exactly]
    simp only [Int.neg_zero, Int.toNat_zero, pow_zero, Nat.div_one, ite_self]
  · have none : (-denom.precision).toNat = 0 := by omega
    rw [if_pos fine, none, pow_zero, Nat.div_one]

def signText (negative : Bool) (options : FormatOptions) : Text :=
  if negative then ['-'] else if options.signPlus then ['+'] else []

def suffixText (denom : Denomination) (showDenom : Bool) : Text :=
  if showDenom then ' ' :: denom.asStr else []

/-- The width of a number, its sign and its denomination: the six parts of `num_width`. -/
def predictedWidth (satoshi : Nat) (negative : Bool) (denom : Denomination) (showDenom : Bool)
    (options : FormatOptions) : Nat :=
  let n := normalize satoshi denom options
  let totalDecimals := n.normNbDecimals + n.trailingDecimalZeros
  (if 0 < totalDecimals then 1 + totalDecimals else 0) + (decWidth n.numBeforeDecimalPoint + n.exp) +
    (if options.signPlus || negative then 1 else 0) + (if showDenom then byteLen denom.asStr + 1 else 0)

theorem length_body (satoshi : Nat) (denom : Denomination) (options : FormatOptions) :
    (body satoshi denom options).length =
      (if 0 < (normalize satoshi denom options).normNbDecimals +
          (normalize satoshi denom options).trailingDecimalZeros then
        1 + ((normalize satoshi denom options).normNbDecimals +
          (normalize satoshi denom options).trailingDecimalZeros) else 0) +
        (decWidth (normalize satoshi denom options).numBeforeDecimalPoint +
          (normalize satoshi denom options).exp) := by
  obtain ⟨fits, -, -⟩ := normalize_decimals satoshi denom options
  rw [body]
  generalize normalize satoshi denom options = n at *
  have padded := (paddedDigits_spec fits).1
  have kept : (if 0 < n.normNbDecimals then
      (paddedDigits n.normNbDecimals n.numAfterDecimalPoint).map digitChar else []).length =
      n.normNbDecimals := by
    split_ifs with some
    · rw [List.length_map, padded]
    · exact (Nat.eq_zero_of_not_pos some).symm
  have dot : (if 0 < n.normNbDecimals + n.trailingDecimalZeros then ['.'] else []).length =
      if 0 < n.normNbDecimals + n.trailingDecimalZeros then 1 else 0 := by
    split_ifs
    · rfl
    · rfl
  simp only [List.length_append, List.length_replicate, decimal, List.length_map, length_decimalDigits,
    kept, dot]
  split_ifs <;> omega

theorem byteLen_asStr (denom : Denomination) : byteLen denom.asStr = denom.asStr.length := by
  cases denom <;> decide

theorem length_signText (negative : Bool) (options : FormatOptions) :
    (signText negative options).length = if options.signPlus || negative then 1 else 0 := by
  rw [signText]
  cases negative <;> cases options.signPlus <;> rfl

theorem length_suffixText (denom : Denomination) (showDenom : Bool) :
    (suffixText denom showDenom).length = if showDenom then byteLen denom.asStr + 1 else 0 := by
  rw [suffixText, byteLen_asStr]
  cases showDenom <;> rfl

/-- The prediction is right. -/
theorem predictedWidth_eq (satoshi : Nat) (negative : Bool) (denom : Denomination) (showDenom : Bool)
    (options : FormatOptions) : predictedWidth satoshi negative denom showDenom options =
      (signText negative options ++
        (body satoshi denom options ++ suffixText denom showDenom)).length := by
  rw [List.length_append, List.length_append, length_body, length_signText, length_suffixText,
    predictedWidth]
  omega

/-- The width of a text with its dot and no more than the decimals asked for. -/
def extent (satoshi : Nat) (negative : Bool) (denom : Denomination) (showDenom : Bool)
    (options : FormatOptions) : Nat :=
  options.precision.getD 0 + 1 + (wholeDigits satoshi denom).length +
    (signText negative options).length +
    (suffixText denom showDenom).length

theorem length_wholeDigits_le {satoshi : Nat} (small : satoshi < 2 ^ 64) (denom : Denomination) :
    (wholeDigits satoshi denom).length ≤ 24 := by
  have places : denom.precision.toNat ≤ 4 := by cases denom <;> decide
  have fits : satoshi / 10 ^ (-denom.precision).toNat < 10 ^ 20 :=
    (Nat.div_le_self _ _).trans_lt (small.trans (by decide))
  have short := length_decimalDigits_le fits (by decide)
  rw [wholeDigits, List.length_append, List.length_replicate]
  split_ifs <;> omega

/-- Only the decimals asked for can make a text so wide. -/
theorem predictedWidth_wide {satoshi : Nat} (small : satoshi < 2 ^ 64) (negative : Bool)
    (denom : Denomination) (showDenom : Bool) (options : FormatOptions) :
    predictedWidth satoshi negative denom showDenom options < 2 ^ 64 ∧
        extent satoshi negative denom showDenom options < 2 ^ 64 ∨
      predictedWidth satoshi negative denom showDenom options =
        extent satoshi negative denom showDenom options := by
  obtain ⟨-, few, trailing⟩ := normalize_decimals satoshi denom options
  have whole := length_wholeDigits_le small denom
  have sign : (signText negative options).length ≤ 1 := by
    rw [length_signText]
    split_ifs <;> decide
  have suffix : (suffixText denom showDenom).length ≤ 8 := by
    rw [suffixText]
    split_ifs
    · cases denom <;> decide
    · decide
  rw [predictedWidth, ← length_wholeDigits satoshi denom options, ← length_signText,
    ← length_suffixText, extent]
  generalize normalize satoshi denom options = n at *
  split_ifs <;> omega

/-! ### The width in words -/

/-- `num_width` as it is added up in words. -/
def predictWidth (overflowChecks : Bool) (satoshi : Nat) (negative : Bool) (denom : Denomination)
    (showDenom : Bool) (options : FormatOptions) : Option UInt64 := do
  let n := normalize satoshi denom options
  let totalDecimals ← word64 overflowChecks (n.normNbDecimals + n.trailingDecimalZeros)
  let numWidth ← (if 0 < totalDecimals then word64 overflowChecks (1 + totalDecimals.toNat) else some 0)
  let shown ← word64 overflowChecks (decWidth n.numBeforeDecimalPoint + n.exp)
  let numWidth ← word64 overflowChecks (numWidth.toNat + shown.toNat)
  let numWidth ← (if options.signPlus || negative then word64 overflowChecks (numWidth.toNat + 1)
    else some numWidth)
  if showDenom then do
    let suffix ← word64 overflowChecks (byteLen denom.asStr + 1)
    word64 overflowChecks (numWidth.toNat + suffix.toNat)
  else some numWidth

/-- A sum of words, of which the second is added only under a condition. -/
theorem word64_add_if (overflowChecks condition : Bool) {first second : Nat} (fits : second < 2 ^ 64) :
    ((word64 overflowChecks first).bind fun a =>
        if condition then word64 overflowChecks (a.toNat + second) else some a) =
      word64 overflowChecks (first + if condition then second else 0) := by
  cases condition with
  | false => exact Option.bind_fun_some _
  | true =>
    simp only [if_true]
    rw [← word64_add, word64_eq fits]
    simp only [Option.bind_some, toNat_ofNat64 fits]

theorem predictWidth_eq (overflowChecks : Bool) (satoshi : Nat) (negative : Bool) (denom : Denomination)
    (showDenom : Bool) {options : FormatOptions} (word : options.precision.getD 0 < 2 ^ 64) :
    predictWidth overflowChecks satoshi negative denom showDenom options =
      word64 overflowChecks (predictedWidth satoshi negative denom showDenom options) := by
  obtain ⟨-, few, trailing⟩ := normalize_decimals satoshi denom options
  rw [predictWidth, predictedWidth]
  generalize normalize satoshi denom options = n at *
  have fits : n.normNbDecimals + n.trailingDecimalZeros < 2 ^ 64 := by omega
  have suffix : byteLen denom.asStr + 1 < 2 ^ 64 := by cases denom <;> decide
  have positive : 0 < UInt64.ofNat (n.normNbDecimals + n.trailingDecimalZeros) ↔
      0 < n.normNbDecimals + n.trailingDecimalZeros := by
    rw [UInt64.lt_iff_toNat_lt, toNat_ofNat64 fits, UInt64.toNat_zero]
  have dotted : (if 0 < n.normNbDecimals + n.trailingDecimalZeros then
      word64 overflowChecks (1 + (n.normNbDecimals + n.trailingDecimalZeros)) else some 0) =
      word64 overflowChecks (if 0 < n.normNbDecimals + n.trailingDecimalZeros then
        1 + (n.normNbDecimals + n.trailingDecimalZeros) else 0) := by
    split_ifs
    · rfl
    · exact (word64_eq (by decide)).symm
  rw [← word64_add_if overflowChecks showDenom suffix,
    ← word64_add_if overflowChecks _ (by decide : 1 < 2 ^ 64),
    ← word64_add _ _ (decWidth n.numBeforeDecimalPoint + n.exp), ← dotted]
  simp only [Option.bind_eq_bind, word64_eq fits, word64_eq suffix, Option.bind_some,
    toNat_ofNat64 fits,
    toNat_ofNat64 suffix, positive, Option.bind_assoc]

/-! ### The padding -/

/-- `(left_pad, pad_right)`. -/
def padding (overflowChecks : Bool) (numWidth : Nat) (options : FormatOptions) : Option (Nat × Nat) :=
  let width := options.width.getD 0
  let align := options.align.getD .right
  if ¬numWidth < width then some (0, 0)
  else if options.signAwareZeroPad ∨ align = .right then some (width - numWidth, 0)
  else if align = .left then some (0, width - numWidth)
  else do
    let more ← word64 overflowChecks (width - numWidth + 1)
    some ((width - numWidth) / 2, more.toNat / 2)

/-- What is written, once the padding is known. -/
def writeParts (satoshi : Nat) (negative : Bool) (denom : Denomination) (showDenom : Bool)
    (options : FormatOptions) (leftPad padRight : Nat) : Text :=
  (if !options.signAwareZeroPad then List.replicate leftPad options.fill else []) ++
  signText negative options ++
  (if options.signAwareZeroPad then zeros leftPad else []) ++
  body satoshi denom options ++
  suffixText denom showDenom ++
  List.replicate padRight options.fill

/-- `fmt_satoshi_in` on a machine of 64 bits. -/
def fmtSatoshiInWord (overflowChecks : Bool) (satoshi : UInt64) (negative : Bool) (denom : Denomination)
    (showDenom : Bool) (options : FormatOptions) : Option Text := do
  let numWidth ← predictWidth overflowChecks satoshi.toNat negative denom showDenom options
  let (leftPad, padRight) ← padding overflowChecks numWidth.toNat options
  some (writeParts satoshi.toNat negative denom showDenom options leftPad padRight)

/-- What is missing of the width goes to the sides that the alignment asks for; zeros go left. -/
structure Sides (options : FormatOptions) (left right : Nat) : Prop where
  zeroPad : options.signAwareZeroPad → right = 0
  alignLeft : options.signAwareZeroPad = false → options.align.getD .right = .left → left = 0
  alignRight : options.signAwareZeroPad = false → options.align.getD .right = .right → right = 0
  center : options.signAwareZeroPad = false → options.align.getD .right = .center →
    left ≤ right ∧ right ≤ left + 1

theorem padding_wide {overflowChecks : Bool} {numWidth : Nat} {options : FormatOptions}
    (wide : options.width.getD 0 ≤ numWidth) : padding overflowChecks numWidth options = some (0, 0) :=
  if_pos (not_lt.mpr wide)

theorem padding_exact (overflowChecks : Bool) {numWidth : Nat} {options : FormatOptions}
    (some : 0 < numWidth) (word : options.width.getD 0 < 2 ^ 64) :
    padding overflowChecks numWidth options = .some
      (if ¬numWidth < options.width.getD 0 then (0, 0)
        else if options.signAwareZeroPad ∨ options.align.getD .right = .right then
          (options.width.getD 0 - numWidth, 0)
        else if options.align.getD .right = .left then (0, options.width.getD 0 - numWidth)
        else ((options.width.getD 0 - numWidth) / 2, (options.width.getD 0 - numWidth + 1) / 2)) := by
  rw [padding]
  by_cases wide : ¬numWidth < options.width.getD 0
  · rw [if_pos wide, if_pos wide]
  · rw [if_neg wide, if_neg wide, word64_eq (by omega)]
    split_ifs
    · rfl
    · rfl
    · rw [Option.bind_eq_bind, Option.bind_some, toNat_ofNat64 (by omega)]

theorem padding_spec (overflowChecks : Bool) {numWidth : Nat} {options : FormatOptions}
    (some : 0 < numWidth) (word : options.width.getD 0 < 2 ^ 64) : ∃ left right,
    padding overflowChecks numWidth options = .some (left, right) ∧
      left + right = options.width.getD 0 - numWidth ∧ Sides options left right := by
  rw [padding_exact overflowChecks some word]
  generalize options.width.getD 0 = width at *
  by_cases wide : ¬numWidth < width
  · rw [if_pos wide]
    exact ⟨0, 0, rfl, by omega, fun _ => rfl, fun _ _ => rfl, fun _ _ => rfl, fun _ _ => by omega⟩
  · rw [if_neg wide]
    split_ifs with first second
    · refine ⟨width - numWidth, 0, rfl, rfl, fun _ => rfl, fun plain left => ?_, fun _ _ => rfl,
        fun plain center => ?_⟩
      · rw [plain, left] at first
        simp at first
      · rw [plain, center] at first
        simp at first
    · refine ⟨0, width - numWidth, rfl, Nat.zero_add _, fun zero => absurd (.inl zero) first,
        fun _ _ => rfl, fun _ right => absurd (.inr right) first, fun _ center => ?_⟩
      rw [second] at center
      contradiction
    · exact ⟨_, _, rfl, by omega, fun zero => absurd (.inl zero) first,
        fun _ left => absurd left second,
        fun _ right => absurd (.inr right) first, fun _ _ => by omega⟩

/-- Where a width is thought to be missing, something is written for it. -/
theorem padding_pos {numWidth left right : Nat} {options : FormatOptions}
    (narrow : numWidth < options.width.getD 0) (word : options.width.getD 0 < 2 ^ 64)
    (returned : padding false numWidth options = some (left, right)) : 0 < left + right := by
  rw [padding] at returned
  generalize options.width.getD 0 = width at *
  rw [if_neg (not_not.mpr narrow)] at returned
  split_ifs at returned
  · cases returned
    omega
  · cases returned
    omega
  · obtain ⟨more, found, same⟩ := Option.bind_eq_some_iff.mp returned
    cases same
    cases found
    rw [UInt64.toNat_ofNat']
    omega

variable {satoshi : Nat} {negative showDenom : Bool} {denom : Denomination} {options : FormatOptions}

theorem length_writeParts (leftPad padRight : Nat) :
    (writeParts satoshi negative denom showDenom options leftPad padRight).length =
      leftPad + padRight + predictedWidth satoshi negative denom showDenom options := by
  have padded : (if !options.signAwareZeroPad then List.replicate leftPad options.fill else []).length +
      (if options.signAwareZeroPad then zeros leftPad else []).length = leftPad := by
    cases options.signAwareZeroPad <;> simp [zeros]
  simp only [predictedWidth_eq, writeParts, List.length_append, List.length_replicate]
  omega

theorem writeParts_unpadded : writeParts satoshi negative denom showDenom options 0 0 =
    signText negative options ++ (body satoshi denom options ++ suffixText denom showDenom) := by
  simp only [writeParts, zeros, List.replicate_zero, ite_self, List.nil_append, List.append_nil,
    List.append_assoc]

theorem predictedWidth_pos : 0 < predictedWidth satoshi negative denom showDenom options := by
  have some : 0 < decWidth (normalize satoshi denom options).numBeforeDecimalPoint := by
    rw [decWidth]
    split_ifs <;> omega
  rw [predictedWidth]
  omega

/-- Where the width fits a word, what is written is what was defined in exact numbers. -/
theorem fmtSatoshiInWord_eq (overflowChecks : Bool) {satoshi : UInt64}
    (width : options.width.getD 0 < 2 ^ 64) (precision : options.precision.getD 0 < 2 ^ 64)
    (fits : predictedWidth satoshi.toNat negative denom showDenom options < 2 ^ 64) :
    fmtSatoshiInWord overflowChecks satoshi negative denom showDenom options =
      some (fmtSatoshiIn satoshi.toNat negative denom showDenom options) := by
  rw [fmtSatoshiInWord, predictWidth_eq _ _ _ _ _ precision, word64_eq fits, Option.bind_eq_bind,
    Option.bind_some, toNat_ofNat64 fits, padding_exact _ predictedWidth_pos width]
  simp only [fmtSatoshiIn, writeParts, predictedWidth, body, signText, suffixText, zeros,
    List.append_assoc]
  rfl

/-! ### Exact numbers that fill the width -/

/-- A number is exactly the amount, with the decimals that were asked for and no zeros beyond
them. -/
structure Printed (denom : Denomination) (satoshi requested : Nat) (number : Text) : Prop where
  exactly : Denotes denom number satoshi
  decimals : ∃ whole frac, AllDigits charDigit whole ∧ AllDigits charDigit frac ∧
    number = (if frac = [] then whole else whole ++ '.' :: frac) ∧ requested ≤ frac.length ∧
    (requested < frac.length → frac.getLast? ≠ some '0')

/-- A text fills a width: with zeros behind the sign, or with a character on the sides that the
alignment asks for. -/
structure Padded (options : FormatOptions) (sign rest : Text) (left right : Nat) (text : Text) :
    Prop where
  shape : text = if options.signAwareZeroPad then sign ++ (zeros left ++ rest)
    else List.replicate left options.fill ++ (sign ++ (rest ++ List.replicate right options.fill))
  sides : Sides options left right
  length : text.length = max (options.width.getD 0) (sign ++ rest).length

/-- An amount is written as an exact number between its sign and its denomination, and fills
the width. -/
def Formatted (overflowChecks : Bool) (satoshi : UInt64) (negative : Bool) (denom : Denomination)
    (showDenom : Bool) (options : FormatOptions) : Prop :=
  ∃ number text left right, Printed denom satoshi.toNat (options.precision.getD 0) number ∧
    fmtSatoshiInWord overflowChecks satoshi negative denom showDenom { options with width := none } =
      some (signText negative options ++ (number ++ suffixText denom showDenom)) ∧
    fmtSatoshiInWord overflowChecks satoshi negative denom showDenom options = some text ∧
    Padded options (signText negative options) (number ++ suffixText denom showDenom) left right text

theorem allDigits_map {digits : List Nat} (bounded : Digits digits) :
    AllDigits charDigit (digits.map digitChar) := by
  intro c member
  obtain ⟨d, listed, rfl⟩ := List.mem_map.mp member
  rw [(digitChar_facts d (bounded d listed)).1]
  rfl

theorem textNumber_map {digits : List Nat} (bounded : Digits digits) :
    textNumber charDigit 10 (digits.map digitChar) = bigEndian 10 digits := by
  rw [textNumber, List.map_map]
  congr 1
  refine (List.map_congr_left fun d listed => ?_).trans (List.map_id _)
  rw [Function.comp_apply, (digitChar_facts d (bounded d listed)).1]
  rfl

/-- What is printed between the sign and the denomination is right for all options. -/
theorem body_printed (satoshi : Nat) (denom : Denomination) (options : FormatOptions) :
    Printed denom satoshi (options.precision.getD 0) (body satoshi denom options) := by
  obtain ⟨frac, text, decimals⟩ := body_spec satoshi denom options
  have wholeDigits : Digits (wholeDigits satoshi denom) := (Digits.decimal _).append (Digits.zeros _)
  have wholeNonempty : Units.wholeDigits satoshi denom ≠ [] :=
    List.append_ne_nil_of_left_ne_nil (decimalDigits_ne_nil _) _
  have all := allDigits_map wholeDigits
  have fracAll := allDigits_map decimals.digits
  have shown : body satoshi denom options = if frac.map digitChar = [] then
      (Units.wholeDigits satoshi denom).map digitChar
      else (Units.wholeDigits satoshi denom).map digitChar ++ '.' :: frac.map digitChar := by
    rw [text, numeral]
    simp only [List.map_eq_nil_iff]
    split_ifs
    · rw [List.append_nil]
    · rfl
  constructor
  · refine ⟨_, frac.map digitChar, ⟨all, fracAll, ?_⟩, ?_, ?_⟩
    · rw [shown]
      split_ifs with empty
      · exact .inl ⟨rfl, empty⟩
      · exact .inr rfl
    · exact List.append_ne_nil_of_left_ne_nil (mt List.map_eq_nil_iff.mp wholeNonempty) _
    · rw [unscaled, ← List.map_append, textNumber_map (wholeDigits.append decimals.digits),
        List.length_map]
      exact decimals.value
  · refine ⟨_, _, all, fracAll, shown, ?_, fun more => ?_⟩
    · rw [List.length_map]
      exact decimals.enough
    · rw [List.length_map] at more
      rw [List.getLast?_map]
      intro zero
      obtain ⟨d, last, same⟩ := Option.map_eq_some_iff.mp zero
      have small := decimals.digits d (List.mem_of_getLast? last)
      have read := (digitChar_facts d small).1
      rw [same, charDigit_zero] at read
      exact decimals.needed more (last.trans read.symm)

theorem fmtSatoshiInWord_eq_bind (negative : Bool) (denom : Denomination)
    (showDenom overflowChecks : Bool)
    (satoshi : UInt64)
    (precision : options.precision.getD 0 < 2 ^ 64) :
    fmtSatoshiInWord overflowChecks satoshi negative denom showDenom options =
      (word64 overflowChecks (predictedWidth satoshi.toNat negative denom showDenom options)).bind
        fun numWidth => (padding overflowChecks numWidth.toNat options).bind
          fun pads =>
            some (writeParts satoshi.toNat negative denom showDenom options pads.1 pads.2) := by
  rw [fmtSatoshiInWord, predictWidth_eq _ _ _ _ _ precision]
  rfl

/-- Without a width to fill, only the prediction can fail. -/
theorem fmtSatoshiInWord_unpadded (negative : Bool) (denom : Denomination)
    (showDenom overflowChecks : Bool)
    (satoshi : UInt64)
    (precision : options.precision.getD 0 < 2 ^ 64) :
    fmtSatoshiInWord overflowChecks satoshi negative denom showDenom { options with width := none } =
      (word64 overflowChecks
        (predictedWidth satoshi.toNat negative denom showDenom options)).bind fun _ =>
        some (signText negative options ++
          (body satoshi.toNat denom options ++ suffixText denom showDenom)) := by
  have word : ({ options with width := none } : FormatOptions).precision.getD 0 < 2 ^ 64 := precision
  rw [fmtSatoshiInWord_eq_bind _ _ _ _ _ word, ← writeParts_unpadded]
  have none (numWidth : Nat) :
      padding overflowChecks numWidth { options with width := none } = some (0, 0) :=
    padding_wide (Nat.zero_le _)
  simp only [none, Option.bind_some]
  rfl

/-- A padding on the sides asked for, of as many characters as are missing, fills the width. -/
theorem padded_writeParts {leftPad padRight : Nat} (sides : Sides options leftPad padRight)
    (missing : leftPad + padRight =
      options.width.getD 0 - predictedWidth satoshi negative denom showDenom options) :
    Padded options (signText negative options)
      (body satoshi denom options ++ suffixText denom showDenom)
      leftPad padRight (writeParts satoshi negative denom showDenom options leftPad padRight) := by
  refine ⟨?_, sides, ?_⟩
  · rw [writeParts]
    cases zero : options.signAwareZeroPad with
    | false => simp only [Bool.not_false, if_true, Bool.false_eq_true, if_false, List.append_nil,
      List.append_assoc]
    | true =>
      rw [sides.zeroPad zero]
      simp only [Bool.not_true, Bool.false_eq_true, if_false, if_true, List.nil_append,
        List.replicate_zero,
        List.append_nil, List.append_assoc]
  · rw [length_writeParts, ← predictedWidth_eq, missing]
    omega

theorem formatted_of_fits (overflowChecks : Bool) {satoshi : UInt64}
    (width : options.width.getD 0 < 2 ^ 64) (precision : options.precision.getD 0 < 2 ^ 64)
    (fits : predictedWidth satoshi.toNat negative denom showDenom options < 2 ^ 64) :
    Formatted overflowChecks satoshi negative denom showDenom options := by
  have written := fmtSatoshiInWord_eq_bind negative denom showDenom overflowChecks satoshi precision
  have unpadded := fmtSatoshiInWord_unpadded negative denom showDenom overflowChecks satoshi precision
  have pos : 0 < predictedWidth satoshi.toNat negative denom showDenom options := predictedWidth_pos
  obtain ⟨left, right, pads, missing, sides⟩ := padding_spec overflowChecks pos width
  rw [word64_eq fits, Option.bind_some, toNat_ofNat64 fits, pads, Option.bind_some] at written
  rw [word64_eq fits, Option.bind_some] at unpadded
  exact ⟨_, _, left, right, body_printed _ _ _, unpadded, written, padded_writeParts sides missing⟩

/-- With overflow checks, the prediction panics where it does not fit. -/
theorem not_formatted_of_exceeds {satoshi : UInt64} (precision : options.precision.getD 0 < 2 ^ 64)
    (exceeds : 2 ^ 64 ≤ predictedWidth satoshi.toNat negative denom showDenom options) :
    ¬ Formatted true satoshi negative denom showDenom options := by
  rintro ⟨number, text, left, right, -, -, returned, -⟩
  have never : word64 true (predictedWidth satoshi.toNat negative denom showDenom options) = none :=
    if_pos ⟨rfl, exceeds⟩
  rw [fmtSatoshiInWord_eq_bind negative denom showDenom true satoshi precision, never] at returned
  contradiction

/-- Without them, a width that seems to be missing is filled though it is not. -/
theorem formatted_iff_of_exceeds {satoshi : UInt64} (width : options.width.getD 0 < 2 ^ 64)
    (precision : options.precision.getD 0 < 2 ^ 64)
    (exceeds : 2 ^ 64 ≤ predictedWidth satoshi.toNat negative denom showDenom options) :
    Formatted false satoshi negative denom showDenom options ↔
      options.width.getD 0 ≤ predictedWidth satoshi.toNat negative denom showDenom options % 2 ^ 64 := by
  have written := fmtSatoshiInWord_eq_bind negative denom showDenom false satoshi precision
  have unpadded := fmtSatoshiInWord_unpadded negative denom showDenom false satoshi precision
  have wraps : word64 false (predictedWidth satoshi.toNat negative denom showDenom options) =
      some (.ofNat (predictedWidth satoshi.toNat negative denom showDenom options)) :=
    if_neg fun checks => absurd checks.1 Bool.false_ne_true
  rw [wraps, Option.bind_some, UInt64.toNat_ofNat'] at written
  rw [wraps, Option.bind_some] at unpadded
  constructor
  · rintro ⟨number, text, left, right, -, core, returned, padded⟩
    have length := padded.length
    rw [← Option.some.inj (unpadded.symm.trans core), ← predictedWidth_eq] at length
    by_contra narrow
    rw [Nat.not_le] at narrow
    rw [returned] at written
    obtain ⟨⟨leftPad, padRight⟩, pads, same⟩ := Option.bind_eq_some_iff.mp written.symm
    have positive := padding_pos narrow width pads
    rw [← Option.some.inj same, length_writeParts] at length
    dsimp only at length
    omega
  · intro wide
    rw [padding_wide wide, Option.bind_some] at written
    refine ⟨_, _, 0, 0, body_printed _ _ _, unpadded, written, padded_writeParts ?_ ?_⟩
    · exact ⟨fun _ => rfl, fun _ _ => rfl, fun _ _ => rfl, fun _ _ => by omega⟩
    · omega

/-- Amounts are formatted as they should be where their width fits a word, or what is left of it
in a word still reaches the width that was asked for. -/
theorem formatted_of_words (overflowChecks : Bool) (satoshi : UInt64)
    (width : options.width.getD 0 < 2 ^ 64) (precision : options.precision.getD 0 < 2 ^ 64) :
    Formatted overflowChecks satoshi negative denom showDenom options ↔
      extent satoshi.toNat negative denom showDenom options < 2 ^ 64 ∨
      overflowChecks = false ∧
        options.width.getD 0 ≤ extent satoshi.toNat negative denom showDenom options % 2 ^ 64 := by
  rcases predictedWidth_wide satoshi.toNat_lt negative denom showDenom options with ⟨fits, small⟩ | same
  · exact iff_of_true (formatted_of_fits overflowChecks width precision fits) (.inl small)
  · rw [← same]
    rcases Nat.lt_or_ge (predictedWidth satoshi.toNat negative denom showDenom options) (2 ^ 64)
      with fits | exceeds
    · exact iff_of_true (formatted_of_fits overflowChecks width precision fits) (.inl fits)
    · rw [or_iff_right (not_lt.mpr exceeds)]
      cases overflowChecks with
      | true => exact iff_of_false (not_formatted_of_exceeds precision exceeds) (by simp)
      | false => rw [formatted_iff_of_exceeds width precision exceeds, and_iff_right rfl]

/-- The options with a width and a precision that are words. -/
def FormatOptions.inWords (options : FormatOptions) (width precision : Option UInt64) : FormatOptions :=
  { options with width := width.map UInt64.toNat, precision := precision.map UInt64.toNat }

theorem getD_toNat_lt (word : Option UInt64) : (word.map UInt64.toNat).getD 0 < 2 ^ 64 := by
  cases word with
  | none => decide
  | some word => exact word.toNat_lt

/-- When `fmt_satoshi_in` writes an amount as it should. -/
theorem formatted_iff (overflowChecks : Bool) (satoshi : UInt64) (negative : Bool)
    (denom : Denomination)
    (showDenom : Bool) (options : FormatOptions) (width precision : Option UInt64) :
    Formatted overflowChecks satoshi negative denom showDenom (options.inWords width precision) ↔
      extent satoshi.toNat negative denom showDenom (options.inWords width precision) < 2 ^ 64 ∨
      overflowChecks = false ∧ (width.map UInt64.toNat).getD 0 ≤
        extent satoshi.toNat negative denom showDenom (options.inWords width precision) % 2 ^ 64 :=
  formatted_of_words overflowChecks satoshi (getD_toNat_lt width) (getD_toNat_lt precision)

/-- As many decimals as a word can count leave no room for the dot. -/
theorem greatest_precision : ¬ ∀ (overflowChecks : Bool) (satoshi : UInt64) (negative : Bool)
    (denom : Denomination) (showDenom : Bool) (options : FormatOptions)
    (width precision : Option UInt64),
    Formatted overflowChecks satoshi negative denom showDenom (options.inWords width precision) := by
  intro all
  obtain ⟨number, text, left, right, -, -, returned, -⟩ :=
    all true 0 false .satoshi false {} none (some 0xffffffffffffffff)
  have panics : fmtSatoshiInWord true 0 false .satoshi false
      (FormatOptions.inWords {} none (some 0xffffffffffffffff)) = none := by decide
  exact absurd (panics.symm.trans returned) (Option.some_ne_none _).symm

end Litecoin.Units
