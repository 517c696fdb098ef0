import Litecoin.Units.Amount

/-! Amounts are read back from their text. -/
namespace Litecoin.Units
open Wire

theorem byteLen_append (s t : Text) : byteLen (s ++ t) = byteLen s + byteLen t := by
  rw [byteLen, List.map_append, List.sum_append, byteLen, byteLen]

theorem byteLen_cons (c : Char) (rest : Text) : byteLen (c :: rest) = c.utf8Size + byteLen rest := by
  rw [byteLen, List.map_cons, List.sum_cons, byteLen]

theorem byteLen_digits {digits : List Nat} (bounded : Digits digits) :
    byteLen (digits.map digitChar) = digits.length := by
  induction digits with
  | nil => rfl
  | cons d rest ih =>
    have one := (digitChar_facts d (bounded d List.mem_cons_self)).2.1
    have tail := ih fun e member => bounded e (List.mem_cons_of_mem d member)
    rw [List.map_cons, byteLen_cons, one, tail, List.length_cons, Nat.add_comm]

theorem charIndices_append (offset : Nat) (s t : Text) :
    charIndices offset (s ++ t) = charIndices offset s ++ charIndices (offset + byteLen s) t := by
  induction s generalizing offset with
  | nil => rfl
  | cons c rest ih =>
    rw [List.cons_append, charIndices, ih, charIndices, List.cons_append, byteLen_cons, Nat.add_assoc]

/-! ### The parser on digits -/

theorem checkedTimesTen_bind {value digit : Nat} (fits : 10 * value + digit < 2 ^ 64) :
    (checkedTimesTen value).bind (checkedAdd · digit) = some (10 * value + digit) := by
  rw [checkedTimesTen, if_pos (by omega), Option.bind_some, checkedAdd, if_pos fits]

/-- Digits go into the value, and are counted after the dot. -/
theorem parseLoop_digits (isNegative : Bool) {maxDecimals : Nat} {digits : List Nat} (bounded : Digits digits)
    (decimals : Option Nat) (room : ∀ k ∈ decimals, k + digits.length ≤ maxDecimals) (value offset : Nat)
    (fits : value * 10 ^ digits.length + bigEndian 10 digits < 2 ^ 64) (rest : List (Nat × Char)) :
    parseLoop isNegative maxDecimals decimals value (charIndices offset (digits.map digitChar) ++ rest) =
      parseLoop isNegative maxDecimals (decimals.map (· + digits.length))
        (value * 10 ^ digits.length + bigEndian 10 digits) rest := by
  induction digits generalizing decimals value offset with
  | nil => cases decimals <;> simp [charIndices, bigEndian]
  | cons d others ih =>
    obtain ⟨digit, one, -⟩ := digitChar_facts d (bounded d List.mem_cons_self)
    have whole : value * 10 ^ (others.length + 1) + bigEndian 10 (d :: others) =
        (10 * value + d) * 10 ^ others.length + bigEndian 10 others := by
      rw [bigEndian_cons, Nat.pow_succ]
      ring
    rw [List.length_cons, whole] at fits
    have small : 10 * value + d < 2 ^ 64 := by
      have least := Nat.le_mul_of_pos_right (10 * value + d) (Nat.pow_pos (n := others.length) (show 0 < 10 by decide))
      omega
    have bounded' : Digits others := fun e member => bounded e (List.mem_cons_of_mem d member)
    rw [List.map_cons, charIndices, List.cons_append, List.length_cons, whole]
    conv_lhs => unfold parseLoop
    simp only [digit, checkedTimesTen_bind small]
    cases decimals with
    | none =>
      have room' : ∀ k ∈ none, k + others.length ≤ maxDecimals :=
        fun k none => absurd none (Option.not_mem_none k)
      exact ih bounded' none room' _ _ fits
    | some k =>
      have free := room k rfl
      rw [List.length_cons] at free
      have next := ih bounded' (some (k + 1)) (by rintro _ ⟨⟩; omega) (10 * value + d)
        (offset + (digitChar d).utf8Size) fits
      simp only [if_pos (show k < maxDecimals by omega)]
      rw [next, Option.map_some, Option.map_some, Nat.add_right_comm, Nat.add_assoc]

theorem shiftLoop_eq {isNegative : Bool} (scaleFactor value : Nat) (fits : value * 10 ^ scaleFactor < 2 ^ 64) :
    shiftLoop isNegative scaleFactor value = .ok (value * 10 ^ scaleFactor) := by
  induction scaleFactor generalizing value with
  | zero => rw [shiftLoop, Nat.pow_zero, Nat.mul_one]
  | succ scaleFactor ih =>
    have whole : value * 10 ^ (scaleFactor + 1) = 10 * value * 10 ^ scaleFactor := by
      rw [Nat.pow_succ]
      ring
    rw [whole] at fits ⊢
    have least := Nat.le_mul_of_pos_right (10 * value) (Nat.pow_pos (n := scaleFactor) (show 0 < 10 by decide))
    rw [shiftLoop, checkedTimesTen, if_pos (by omega)]
    exact ih _ fits

/-- Digits before the dot and digits after it; without the latter there is no dot. -/
def numeral (whole frac : List Nat) : Text :=
  whole.map digitChar ++ if frac = [] then [] else '.' :: frac.map digitChar

/-- A numeral with few enough decimals is read as its value. -/
theorem parseDigits_numeral (isNegative : Bool) {maxDecimals : Nat} {whole frac : List Nat}
    (wholeDigits : Digits whole) (fracDigits : Digits frac) (few : frac.length ≤ maxDecimals)
    (fits : (bigEndian 10 whole * 10 ^ frac.length + bigEndian 10 frac) *
      10 ^ (maxDecimals - frac.length) < 2 ^ 64) :
    parseDigits isNegative maxDecimals (numeral whole frac) =
      .ok (isNegative, (bigEndian 10 whole * 10 ^ frac.length + bigEndian 10 frac) *
        10 ^ (maxDecimals - frac.length)) := by
  have unscaled : bigEndian 10 whole * 10 ^ frac.length + bigEndian 10 frac < 2 ^ 64 :=
    Nat.lt_of_le_of_lt (Nat.le_mul_of_pos_right _ (Nat.pow_pos (by decide))) fits
  have front : 0 * 10 ^ whole.length + bigEndian 10 whole < 2 ^ 64 := by
    have least := Nat.le_mul_of_pos_right (bigEndian 10 whole)
      (Nat.pow_pos (n := frac.length) (show 0 < 10 by decide))
    omega
  have loop : parseLoop isNegative maxDecimals none 0 (charIndices 0 (numeral whole frac)) =
      .ok (if frac = [] then none else some frac.length,
        bigEndian 10 whole * 10 ^ frac.length + bigEndian 10 frac) := by
    rw [numeral, charIndices_append, parseLoop_digits isNegative wholeDigits none nofun 0 0 front, Option.map_none,
      Nat.zero_mul, Nat.zero_add]
    by_cases empty : frac = []
    · simp [empty, charIndices, parseLoop, bigEndian]
    · have decimals : maxDecimals ≠ 0 := by
        have := List.length_pos_iff.mpr empty
        omega
      have dot : charDigit '.' = none := by decide
      have room : ∀ k ∈ some 0, k + frac.length ≤ maxDecimals := by
        rintro k ⟨⟩
        rwa [Nat.zero_add]
      have back := parseLoop_digits isNegative fracDigits (some 0) room (bigEndian 10 whole)
        (byteLen (whole.map digitChar) + '.'.utf8Size) unscaled []
      rw [List.append_nil, Option.map_some, Nat.zero_add] at back
      rw [if_neg empty, if_neg empty, charIndices, Nat.zero_add]
      unfold parseLoop
      simp only [dot, if_true, if_neg decimals, back, parseLoop]
  rw [parseDigits, loop]
  show (shiftLoop isNegative _ _ >>= fun value => Except.ok (isNegative, value)) = _
  have count : (if frac = [] then none else some frac.length).getD 0 = frac.length := by
    split
    · next empty => rw [empty]; rfl
    · rfl
  rw [count, shiftLoop_eq _ _ fits]
  rfl

/-- No character of digits is another character. -/
theorem not_mem_digits {digits : List Nat} (bounded : Digits digits) {c : Char}
    (other : ∀ d < 10, digitChar d ≠ c) : c ∉ digits.map digitChar := by
  intro member
  obtain ⟨d, inside, same⟩ := List.mem_map.mp member
  exact other d (bounded d inside) same

theorem splitAtChar_digits {digits : List Nat} (bounded : Digits digits) :
    splitAtChar '.' (digits.map digitChar) = none :=
  if_neg (not_mem_digits bounded fun d small => (digitChar_facts d small).2.2.1)

theorem sliceTo_digits {whole : List Nat} (bounded : Digits whole) (rest : Text) :
    sliceTo whole.length (whole.map digitChar ++ rest) = some (whole.map digitChar) := by
  induction whole with
  | nil => rw [List.length_nil, sliceTo]; rfl
  | cons d others ih =>
    have one := (digitChar_facts d (bounded d List.mem_cons_self)).2.1
    have tail := ih fun e member => bounded e (List.mem_cons_of_mem d member)
    rw [List.length_cons, List.map_cons, List.cons_append, sliceTo, one, if_pos (by omega),
      Nat.add_sub_cancel, tail]
    rfl

/-- The zeros at the end of a text are not too precise. -/
theorem lastNonzero_zeros (front : Text) (count : Nat) :
    lastNonzero count (front ++ (List.replicate count 0).map digitChar) = none := by
  have last : ∀ (offset : Nat) (zeros : List Nat), zeros = List.replicate count 0 →
      (charIndices offset (zeros.map digitChar)).length = count ∧
      ∀ item ∈ charIndices offset (zeros.map digitChar), ¬(item.2 != '0') = true := by
    rintro offset zeros rfl
    induction count generalizing offset with
    | zero => exact ⟨rfl, nofun⟩
    | succ count ih =>
      obtain ⟨length, each⟩ := ih (offset + (digitChar 0).utf8Size)
      rw [List.replicate_succ, List.map_cons, charIndices]
      have zero : ¬(digitChar 0 != '0') = true := by decide
      exact ⟨by rw [List.length_cons, length], List.forall_mem_cons.mpr ⟨zero, each⟩⟩
  obtain ⟨length, each⟩ := last (0 + byteLen front) _ rfl
  rw [lastNonzero, charIndices_append, List.reverse_append, List.take_left' (by rw [List.length_reverse, length])]
  rw [List.find?_eq_none.mpr fun item member => each item (List.mem_reverse.mp member)]
  rfl

/-- In a fine denomination the zeros that stand for fractions of a satoshi are dropped. -/
theorem parseUnsigned_zeros (isNegative : Bool) {denom : Denomination} {whole : List Nat}
    (fine : 0 ≤ denom.precision) (bounded : Digits whole) (some' : whole ≠ [])
    (fits : bigEndian 10 whole < 2 ^ 64) :
    parseUnsigned isNegative ((whole ++ List.replicate denom.precision.toNat 0).map digitChar) denom =
      pure (isNegative, bigEndian 10 whole) := by
  have all := bounded.append (Digits.zeros denom.precision.toNat)
  have length : byteLen ((whole ++ List.replicate denom.precision.toNat 0).map digitChar) =
      whole.length + denom.precision.toNat := by
    rw [byteLen_digits all, List.length_append, List.length_replicate]
  have long : ¬whole.length + denom.precision.toNat ≤ denom.precision.toNat := by
    have := List.length_pos_iff.mpr some'
    omega
  have precise : isTooPrecise ((whole ++ List.replicate denom.precision.toNat 0).map digitChar)
      denom.precision.toNat = none := by
    rw [isTooPrecise, splitAtChar_digits all]
    simp only [length, if_neg long]
    rw [List.map_append, lastNonzero_zeros]
  have slice : sliceTo whole.length ((whole ++ List.replicate denom.precision.toNat 0).map digitChar) =
      some (whole.map digitChar) := by
    rw [List.map_append, sliceTo_digits bounded]
  have none' : Digits [] := nofun
  have read := parseDigits_numeral isNegative bounded none' (Nat.le_refl 0) (by simpa [bigEndian] using fits)
  simp only [numeral, if_true, List.append_nil, List.length_nil, bigEndian, List.reverse_nil, Nat.ofDigits_nil,
    Nat.sub_zero, Nat.pow_zero, Nat.mul_one, Nat.add_zero] at read
  rw [parseUnsigned, if_pos fine]
  simp only [precise, splitAtChar_digits all, Option.map_none, Option.getD_none, length, Nat.add_sub_cancel,
    slice, orPanic_bind, read]
  rfl

/-- Zero is zero in every denomination. -/
theorem parseUnsigned_zero {isNegative : Bool} {denom : Denomination} (fine : 0 ≤ denom.precision) :
    parseUnsigned isNegative ['0'] denom = pure (isNegative, 0) := by
  by_cases exact' : denom.precision.toNat = 0
  · have read := parseUnsigned_zeros isNegative fine (Digits.zeros 1) nofun
      (by decide)
    rw [exact'] at read
    exact read
  · have imprecise : isTooPrecise ['0'] denom.precision.toNat = some 0 := by
      have short : byteLen ['0'] ≤ denom.precision.toNat := Nat.pos_of_ne_zero exact'
      rw [isTooPrecise, show splitAtChar '.' ['0'] = none from rfl]
      exact if_pos short
    rw [parseUnsigned, if_pos fine]
    simp only [imprecise, show parseI64 ['0'] = some 0 from rfl, if_true]

theorem parseSigned_eq {isNegative : Bool} {body : Text} {denom : Denomination} (some' : body ≠ [])
    (unsigned : body.head? ≠ some '-') (short : byteLen body ≤ 49) :
    parseSignedToSatoshi ((if isNegative then ['-'] else []) ++ body) denom =
      parseUnsigned isNegative body denom := by
  obtain ⟨first, rest, rfl⟩ := List.exists_cons_of_ne_nil some'
  cases isNegative with
  | false =>
    have other : first ≠ '-' := fun same => unsigned (congrArg some same)
    have sign : (first == '-') = false := beq_eq_false_iff_ne.mpr other
    simp [parseSignedToSatoshi, sign, show ¬50 < byteLen (first :: rest) by omega]
  | true =>
    have length : byteLen ('-' :: first :: rest) = 1 + byteLen (first :: rest) := byteLen_cons _ _
    have more : byteLen (first :: rest) ≠ 0 := by
      rw [byteLen_cons]
      have := Char.utf8Size_pos first
      omega
    simp [parseSignedToSatoshi, length, show ¬50 < 1 + byteLen (first :: rest) by omega, more]

/-! ### The printer -/

/-- The options that set no more than a precision. -/
def precisionOnly (precision : Option Nat) : FormatOptions := { precision }

theorem precisionOnly_none : precisionOnly none = {} := rfl

/-- The text of an amount without its sign and denomination. -/
def body (satoshi : Nat) (denom : Denomination) (options : FormatOptions) : Text :=
  let n := normalize satoshi denom options
  decimal n.numBeforeDecimalPoint ++ List.replicate n.exp '0' ++
  (if 0 < n.normNbDecimals + n.trailingDecimalZeros then ['.'] else []) ++
  (if 0 < n.normNbDecimals then (paddedDigits n.normNbDecimals n.numAfterDecimalPoint).map digitChar
    else []) ++
  List.replicate n.trailingDecimalZeros '0'

theorem fmtSatoshiIn_eq (satoshi : Nat) (negative : Bool) (denom : Denomination) (showDenom : Bool)
    (precision : Option Nat) :
    fmtSatoshiIn satoshi negative denom showDenom (precisionOnly precision) =
      (if negative then ['-'] else []) ++ body satoshi denom (precisionOnly precision) ++
        if showDenom then ' ' :: denom.asStr else [] := by
  simp [fmtSatoshiIn, precisionOnly, body]

/-- Stripping zeros keeps the number, as a fraction. -/
theorem stripZeros_spec {nbDecimals num : Nat} (nonzero : num ≠ 0) (fits : num < 10 ^ nbDecimals) :
    0 < (stripZeros nbDecimals num).1 ∧ (stripZeros nbDecimals num).1 ≤ nbDecimals ∧
      (stripZeros nbDecimals num).2 < 10 ^ (stripZeros nbDecimals num).1 ∧
      (stripZeros nbDecimals num).2 * 10 ^ (nbDecimals - (stripZeros nbDecimals num).1) = num := by
  have some' : 0 < nbDecimals := by
    by_contra none
    obtain rfl : nbDecimals = 0 := by omega
    rw [Nat.pow_zero] at fits
    omega
  fun_induction stripZeros nbDecimals num with
  | case1 nbDecimals num trailing ih =>
    have split : nbDecimals = nbDecimals - 1 + 1 := by omega
    have fits' : num / 10 < 10 ^ (nbDecimals - 1) := by
      rw [split, Nat.pow_succ] at fits
      omega
    have more : 0 < nbDecimals - 1 := by
      by_contra none
      rw [show nbDecimals - 1 = 0 by omega, Nat.pow_zero] at fits'
      omega
    obtain ⟨positive, le, below, value⟩ := ih (by omega) fits' more
    refine ⟨positive, by omega, below, ?_⟩
    have exponent : nbDecimals - (stripZeros (nbDecimals - 1) (num / 10)).1 =
        nbDecimals - 1 - (stripZeros (nbDecimals - 1) (num / 10)).1 + 1 := by omega
    rw [exponent, Nat.pow_succ, ← Nat.mul_assoc, value]
    omega
  | case2 nbDecimals num _ => exact ⟨some', Nat.le_refl _, fits, by rw [Nat.sub_self, Nat.pow_zero, Nat.mul_one]⟩

/-- The digits after the dot. -/
def fraction (n : Normalized) : List Nat :=
  (if 0 < n.normNbDecimals then paddedDigits n.normNbDecimals n.numAfterDecimalPoint else []) ++
    List.replicate n.trailingDecimalZeros 0

theorem body_eq_numeral {satoshi : Nat} {denom : Denomination} {options : FormatOptions} {n : Normalized}
    (normal : normalize satoshi denom options = n) (noExp : n.exp = 0)
    (fits : n.numAfterDecimalPoint < 10 ^ n.normNbDecimals) :
    body satoshi denom options = numeral (decimalDigits n.numBeforeDecimalPoint) (fraction n) ∧
      Digits (fraction n) ∧ (fraction n).length = n.normNbDecimals + n.trailingDecimalZeros ∧
      bigEndian 10 (fraction n) = n.numAfterDecimalPoint * 10 ^ n.trailingDecimalZeros := by
  obtain ⟨width, digits, value⟩ := paddedDigits_spec fits
  have zero : ¬0 < n.normNbDecimals → n.numAfterDecimalPoint = 0 := by
    intro none
    rw [show n.normNbDecimals = 0 by omega, Nat.pow_zero] at fits
    omega
  have length : (fraction n).length = n.normNbDecimals + n.trailingDecimalZeros := by
    rw [fraction, List.length_append, List.length_replicate]
    split
    · rw [width]
    · rw [List.length_nil]
      omega
  refine ⟨?_, ?_, length, ?_⟩
  · have shown : (if 0 < n.normNbDecimals then
          (paddedDigits n.normNbDecimals n.numAfterDecimalPoint).map digitChar else []) ++
        List.replicate n.trailingDecimalZeros '0' = (fraction n).map digitChar := by
      rw [fraction, List.map_append, List.map_replicate]
      congr 1
      split <;> rfl
    simp only [body, normal, noExp, List.replicate_zero, List.append_nil, numeral, decimal]
    rw [List.append_assoc _ (if 0 < n.normNbDecimals then _ else []), shown, ← length, List.append_assoc]
    by_cases empty : fraction n = []
    · simp [empty]
    · rw [if_pos (List.length_pos_iff.mpr empty), if_neg empty, List.singleton_append]
  · rw [fraction]
    refine Digits.append ?_ (Digits.zeros _)
    split
    · exact digits
    · exact List.forall_mem_nil _
  · rw [fraction, bigEndian_append, bigEndian_zeros, List.length_replicate, Nat.add_zero]
    split
    · rw [value]
    · next none => rw [zero none]; rfl

/-- In a coarse denomination the text is a numeral, with no more decimals than the parser
takes, whose value is the amount. -/
theorem body_coarse (satoshi : Nat) {denom : Denomination} {precision : Option Nat}
    (coarse : denom.precision < 0) (few : precision.getD 0 ≤ denom.precision.natAbs) :
    ∃ frac : List Nat, body satoshi denom (precisionOnly precision) =
        numeral (decimalDigits (satoshi / 10 ^ denom.precision.natAbs)) frac ∧
      Digits frac ∧ frac.length ≤ denom.precision.natAbs ∧
      (satoshi / 10 ^ denom.precision.natAbs * 10 ^ frac.length + bigEndian 10 frac) *
        10 ^ (denom.precision.natAbs - frac.length) = satoshi := by
  have normal := normalize.eq_def satoshi denom (precisionOnly precision)
  simp only [precisionOnly, if_neg (show ¬0 < denom.precision by omega), if_pos coarse] at normal
  generalize denom.precision.natAbs = p at *
  have divides := Nat.div_add_mod satoshi (10 ^ p)
  by_cases none : satoshi % 10 ^ p = 0
  · rw [if_pos none] at normal
    obtain ⟨text, digits, length, value⟩ := body_eq_numeral normal rfl
      (by show satoshi % 10 ^ p < 10 ^ 0; rw [none]; exact Nat.one_pos)
    simp only at text length value
    refine ⟨_, text, digits, by omega, ?_⟩
    rw [length, value, none, Nat.zero_mul, Nat.zero_add, Nat.add_zero, Nat.sub_zero, Nat.mul_assoc, ← Nat.pow_add,
      Nat.add_sub_cancel' few]
    rw [none, Nat.add_zero, Nat.mul_comm] at divides
    exact divides
  · rw [if_neg none] at normal
    obtain ⟨positive, le, below, stripped⟩ := stripZeros_spec none (Nat.mod_lt _ (Nat.pow_pos (by decide)))
    obtain ⟨text, digits, length, value⟩ := body_eq_numeral normal rfl below
    simp only at text length value
    generalize (stripZeros p (satoshi % 10 ^ p)).1 = m at *
    refine ⟨_, text, digits, by omega, ?_⟩
    rw [length, value, Nat.add_mul, Nat.mul_assoc, Nat.mul_assoc, ← Nat.pow_add, ← Nat.pow_add]
    have whole : m + (precision.getD 0 - m) + (p - (m + (precision.getD 0 - m))) = p := by omega
    have rest : precision.getD 0 - m + (p - (m + (precision.getD 0 - m))) = p - m := by omega
    rw [whole, rest, stripped, Nat.mul_comm]
    exact divides

theorem body_fine (satoshi : Nat) {denom : Denomination} {precision : Option Nat}
    (fine : 0 ≤ denom.precision) (exact' : precision.getD 0 = 0) :
    body satoshi denom (precisionOnly precision) =
      (decimalDigits satoshi ++ List.replicate (if 0 < satoshi then denom.precision.toNat else 0) 0).map
        digitChar := by
  have zero : digitChar 0 = '0' := rfl
  by_cases whole : denom.precision = 0
  · simp [body, normalize, precisionOnly, whole, decimal, exact']
  · have positive : 0 < denom.precision := by omega
    simp [body, normalize, precisionOnly, positive, decimal, List.map_append, zero, exact']

theorem head_digits {digits : List Nat} (bounded : Digits digits) (some' : digits ≠ []) (rest : Text) :
    digits.map digitChar ++ rest ≠ [] ∧ (digits.map digitChar ++ rest).head? ≠ some '-' := by
  obtain ⟨first, others, rfl⟩ := List.exists_cons_of_ne_nil some'
  refine ⟨nofun, fun minus => ?_⟩
  exact (digitChar_facts first (bounded first List.mem_cons_self)).2.2.2.1 (Option.some.inj minus)

theorem head_numeral {whole : List Nat} (bounded : Digits whole) (some' : whole ≠ []) (frac : List Nat) :
    numeral whole frac ≠ [] ∧ (numeral whole frac).head? ≠ some '-' :=
  head_digits bounded some' _

theorem byteLen_numeral_le {whole frac : List Nat} (wholeDigits : Digits whole) (fracDigits : Digits frac) :
    byteLen (numeral whole frac) ≤ whole.length + 1 + frac.length := by
  rw [numeral, byteLen_append, byteLen_digits wholeDigits]
  split
  · rw [byteLen, List.map_nil, List.sum_nil]
    omega
  · rw [byteLen_cons, byteLen_digits fracDigits, show '.'.utf8Size = 1 from rfl]
    omega

/-- The parser reads what the printer wrote, for every amount of 64 bits and as many decimals
as the denomination has. -/
theorem parse_fmtSatoshiIn {satoshi : Nat} (bound : satoshi < 2 ^ 64) (negative : Bool)
    (denom : Denomination) {precision : Option Nat}
    (few : precision.getD 0 ≤ (-denom.precision).toNat) :
    parseSignedToSatoshi (fmtSatoshiIn satoshi negative denom false (precisionOnly precision)) denom =
      pure (negative, satoshi) := by
  have wide : satoshi < 10 ^ 20 := Nat.lt_trans bound (by decide)
  have range : -8 ≤ denom.precision ∧ denom.precision ≤ 4 := by cases denom <;> decide
  rw [fmtSatoshiIn_eq, if_neg (show ¬false = true by decide), List.append_nil]
  by_cases coarse : denom.precision < 0
  · obtain ⟨frac, text, digits, within, value⟩ := body_coarse satoshi coarse
      (Nat.le_trans few (by omega))
    have same : (-denom.precision).toNat = denom.precision.natAbs := by omega
    have wholeDigits := Digits.decimal (satoshi / 10 ^ denom.precision.natAbs)
    have wholeLength := length_decimalDigits_le
      (Nat.lt_of_le_of_lt (Nat.div_le_self satoshi (10 ^ denom.precision.natAbs)) wide) (by decide)
    have length := byteLen_numeral_le wholeDigits digits
    obtain ⟨nonempty, unsigned⟩ := head_numeral wholeDigits (decimalDigits_ne_nil _) frac
    rw [← bigEndian_decimalDigits (satoshi / _)] at value
    have read := parseDigits_numeral negative wholeDigits digits within (by rwa [value])
    rw [value] at read
    rw [text, parseSigned_eq nonempty unsigned (by omega), parseUnsigned, if_neg (by omega), same, read]
    rfl
  · have fine : 0 ≤ denom.precision := by omega
    have text := body_fine satoshi fine (show precision.getD 0 = 0 by omega)
    have wholeDigits := Digits.decimal satoshi
    have wholeLength := length_decimalDigits_le wide (by decide)
    have some' := decimalDigits_ne_nil satoshi
    generalize count : (if 0 < satoshi then denom.precision.toNat else 0) = zeros at text
    have all := wholeDigits.append (Digits.zeros zeros)
    have length : byteLen (body satoshi denom (precisionOnly precision)) ≤ 49 := by
      rw [text, byteLen_digits all, List.length_append, List.length_replicate]
      split at count <;> omega
    obtain ⟨nonempty, unsigned⟩ := head_digits all (by simp [some']) []
    rw [List.append_nil, ← text] at nonempty unsigned
    rw [parseSigned_eq nonempty unsigned length, text, ← count]
    rcases Nat.eq_zero_or_pos satoshi with rfl | positive
    · exact parseUnsigned_zero fine
    · have read := parseUnsigned_zeros negative fine wholeDigits some'
        (by rwa [bigEndian_decimalDigits])
      rw [if_pos positive, read, bigEndian_decimalDigits]

/-! ### Texts with a denomination -/

/-- Forms are compared as they stand. -/
theorem Denomination.fromStr_of_form {name : String} {denom : Denomination}
    (plain : (confusingForms.any fun form => form == name) = false)
    (known : (formTable.find? fun row => row.1.any fun form => form == name).map Prod.snd = some denom) :
    fromStr name.toList = .ok denom := by
  have same (form : String) : (form.toList == name.toList) = (form == name) := by
    rw [Bool.eq_iff_iff, beq_iff_eq, beq_iff_eq, String.toList_inj]
  simp only [fromStr, forms, same, plain, known, Bool.false_eq_true, if_false]

theorem Denomination.fromStr_asStr (denom : Denomination) : fromStr denom.asStr = .ok denom := by
  cases denom <;> exact fromStr_of_form (by decide) (by decide)

theorem splitAtChar_eq {c : Char} {before : Text} (absent : c ∉ before) (after : Text) :
    splitAtChar c (before ++ c :: after) = some (before, after) := by
  have passes : ∀ item ∈ before, (item != c) = true := by
    intro item member
    exact bne_iff_ne.mpr fun same => absent (same ▸ member)
  rw [splitAtChar, if_pos (by simp), List.takeWhile_append_of_pos passes, List.dropWhile_append_of_pos passes]
  simp

theorem blank_not_mem_fmt (satoshi : Nat) (negative : Bool) (denom : Denomination) (precision : Option Nat) :
    ' ' ∉ fmtSatoshiIn satoshi negative denom false (precisionOnly precision) := by
  have digits {list : List Nat} (bounded : Digits list) : ' ' ∉ list.map digitChar :=
    not_mem_digits bounded fun d small => (digitChar_facts d small).2.2.2.2
  have zeros (count : Nat) : ' ' ∉ List.replicate count '0' := by simp
  rw [fmtSatoshiIn_eq, if_neg (show ¬false = true by decide), List.append_nil]
  simp only [body, List.mem_append, not_or]
  refine ⟨?_, ⟨⟨⟨digits (Digits.decimal _), zeros _⟩, ?_⟩, ?_⟩, zeros _⟩
  · cases negative <;> decide
  · split <;> decide
  · split
    · exact digits ((Digits.zeros _).append (Digits.digits _))
    · exact List.not_mem_nil

theorem splitAmountAndDenomination_fmt [Unicode] (satoshi : Nat) (negative : Bool) (denom : Denomination)
    (precision : Option Nat) :
    splitAmountAndDenomination
        (fmtSatoshiIn satoshi negative denom false (precisionOnly precision) ++ ' ' :: denom.asStr) =
      .ok (fmtSatoshiIn satoshi negative denom false (precisionOnly precision), denom) := by
  rw [splitAmountAndDenomination, splitAtChar_eq (blank_not_mem_fmt satoshi negative denom precision)]
  simp only [Denomination.fromStr_asStr]
  rfl

/-- A text that shows its denomination. -/
theorem fmtSatoshiIn_shown (satoshi : Nat) (negative : Bool) (denom : Denomination) (precision : Option Nat) :
    fmtSatoshiIn satoshi negative denom true (precisionOnly precision) =
      fmtSatoshiIn satoshi negative denom false (precisionOnly precision) ++ ' ' :: denom.asStr := by
  simp [fmtSatoshiIn_eq]

/-! Only the errors change once the denomination is known. -/

theorem Amount.fromStrWithDenomination_of_split [Unicode] {s amt : Text} {denom : Denomination}
    (split : splitAmountAndDenomination s = .ok (amt, denom)) :
    fromStrWithDenomination s =
      ExceptT.mk ((fromStrIn amt denom).run.map (Except.mapError ParseError.amount)) := by
  rw [fromStrWithDenomination, split]
  rfl

theorem SignedAmount.fromStrWithDenomination_of_split [Unicode] {s amt : Text} {denom : Denomination}
    (split : splitAmountAndDenomination s = .ok (amt, denom)) :
    fromStrWithDenomination s =
      ExceptT.mk ((fromStrIn amt denom).run.map (Except.mapError ParseError.amount)) := by
  rw [fromStrWithDenomination, split]
  rfl

section
variable {denom : Denomination} {precision : Option Nat} (few : precision.getD 0 ≤ (-denom.precision).toNat)
include few

theorem Amount.fromStrIn_fmt (x : Amount) :
    fromStrIn (fmtSatoshiIn x.sat.toNat false denom false (precisionOnly precision)) denom = pure x := by
  rw [fromStrIn, parse_fmtSatoshiIn x.sat.toNat_lt false denom few]
  have back : Amount.mk (UInt64.ofNat x.sat.toNat) = x := congrArg Amount.mk UInt64.ofNat_toNat
  exact congrArg (pure : Amount → ExceptT ParseAmountError Option Amount) back

theorem Amount.fromStrWithDenomination_fmt [Unicode] (x : Amount) :
    fromStrWithDenomination (fmtSatoshiIn x.sat.toNat false denom false (precisionOnly precision) ++
      ' ' :: denom.asStr) = pure x := by
  rw [fromStrWithDenomination_of_split (splitAmountAndDenomination_fmt _ _ _ _), fromStrIn_fmt few]
  rfl

theorem SignedAmount.fromStrIn_fmt (x : SignedAmount) :
    fromStrIn (fmtSatoshiIn x.unsignedAbs.sat.toNat x.isNegative denom false (precisionOnly precision))
      denom = pure x := by
  have upper := x.sat.toInt_lt
  have lower := x.sat.le_toInt
  rw [fromStrIn, parse_fmtSatoshiIn x.unsignedAbs.sat.toNat_lt x.isNegative denom few]
  have read (satoshi : Nat) : ExceptT.mk ((pure (x.isNegative, satoshi) :
      ExceptT InnerParseError Option (Bool × Nat)).run.map (Except.mapError (InnerParseError.convert true))) =
      pure (x.isNegative, satoshi) := rfl
  rw [read, pure_bind]
  simp only
  have abs : x.unsignedAbs.sat.toNat = x.sat.toInt.natAbs := UInt64.toNat_ofNat_of_lt' (by
    show _ < 2 ^ 64
    omega)
  by_cases negative : x.sat.toInt < 0
  · have sign : x.isNegative = true := decide_eq_true negative
    rw [sign, abs]
    by_cases least : x.sat.toInt.natAbs = 2 ^ 63
    · have back : SignedAmount.mk Int64.minValue = x := by
        refine congrArg SignedAmount.mk (Int64.toInt_inj.mp ?_)
        rw [Int64.toInt_minValue]
        omega
      rw [if_neg (show ¬true = false by decide), if_pos least, back]
    · have back : SignedAmount.mk (-Int64.ofNat x.sat.toInt.natAbs) = x := by
        refine congrArg SignedAmount.mk (Int64.toInt_inj.mp ?_)
        rw [Int64.toInt_neg_ofNat_of_le (by omega)]
        omega
      rw [if_neg (show ¬true = false by decide), if_neg least, if_neg (by omega), back]
  · have sign : x.isNegative = false := decide_eq_false negative
    have back : SignedAmount.mk (Int64.ofNat x.sat.toInt.natAbs) = x := by
      refine congrArg SignedAmount.mk (Int64.toInt_inj.mp ?_)
      rw [Int64.toInt_ofNat_of_lt (by omega)]
      omega
    rw [sign, abs, if_pos rfl, if_neg (by omega), back]

theorem SignedAmount.fromStrWithDenomination_fmt [Unicode] (x : SignedAmount) :
    fromStrWithDenomination (fmtSatoshiIn x.unsignedAbs.sat.toNat x.isNegative denom false
      (precisionOnly precision) ++ ' ' :: denom.asStr) = pure x := by
  rw [fromStrWithDenomination_of_split (splitAmountAndDenomination_fmt _ _ _ _), fromStrIn_fmt few]
  rfl

end

/-- Every amount, signed or not, is read back from its text in every denomination, with the
denomination and without it, and from the text of `Display` and of `display_dynamic`. -/
theorem amount_text_roundTrip [Unicode] :
    (∀ (x : Amount),
      (∀ denom, Amount.fromStrIn (x.toStringIn denom) denom = pure x) ∧
      (∀ denom, Amount.fromStrWithDenomination (x.toStringWithDenomination denom) = pure x) ∧
      Amount.fromStr (x.fmt {}) = pure x ∧ Amount.fromStr (x.displayDynamic.fmt {}) = pure x) ∧
    ∀ (x : SignedAmount),
      (∀ denom, SignedAmount.fromStrIn (x.toStringIn denom) denom = pure x) ∧
      (∀ denom, SignedAmount.fromStrWithDenomination (x.toStringWithDenomination denom) = pure x) ∧
      SignedAmount.fromStr x.fmt = pure x ∧ SignedAmount.fromStr (x.displayDynamic.fmt {}) = pure x := by
  have none' (denom : Denomination) : (none : Option Nat).getD 0 ≤ (-denom.precision).toNat := Nat.zero_le _
  constructor
  · intro x
    refine ⟨fun denom => Amount.fromStrIn_fmt (none' denom) x,
      fun denom => Amount.fromStrWithDenomination_fmt (none' denom) x, ?_, ?_⟩
    · unfold Amount.fmt
      simp only
      split
      · show Amount.fromStr (fmtSatoshiIn _ _ _ true (precisionOnly (some 8))) = _
        rw [fmtSatoshiIn_shown]
        exact Amount.fromStrWithDenomination_fmt (by decide) x
      · show Amount.fromStr (fmtSatoshiIn _ _ _ true (precisionOnly none)) = _
        rw [fmtSatoshiIn_shown]
        exact Amount.fromStrWithDenomination_fmt (none' _) x
    · unfold Amount.displayDynamic Display.fmt
      simp only
      split <;>
      · rw [← precisionOnly_none, fmtSatoshiIn_shown]
        exact Amount.fromStrWithDenomination_fmt (none' _) x
  · intro x
    refine ⟨fun denom => SignedAmount.fromStrIn_fmt (none' denom) x,
      fun denom => SignedAmount.fromStrWithDenomination_fmt (none' denom) x,
      SignedAmount.fromStrWithDenomination_fmt (none' _) x, ?_⟩
    unfold SignedAmount.displayDynamic Display.fmt
    simp only
    split <;>
    · rw [← precisionOnly_none, fmtSatoshiIn_shown]
      exact SignedAmount.fromStrWithDenomination_fmt (none' _) x

end Litecoin.Units
