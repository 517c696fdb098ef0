import Litecoin.Units.Parse

/-! The texts that the amount parser accepts (`parse_signed_to_satoshi`), digit by digit. -/
namespace Litecoin.Units
open Wire

/-- Digits with at most one dot before, among or after them. -/
structure Dotted (text whole frac : Text) : Prop where
  wholeDigits : AllDigits charDigit whole
  fracDigits : AllDigits charDigit frac
  shape : text = whole ∧ frac = [] ∨ text = whole ++ '.' :: frac

/-- The number that the digits on both sides of the dot make up. -/
def unscaled (whole frac : Text) : Nat := textNumber charDigit 10 (whole ++ frac)

theorem allDigits_nil : AllDigits charDigit [] := fun _ member => absurd member List.not_mem_nil

theorem charDigit_dot : charDigit '.' = none := by decide

theorem step_eq (value digit : Nat) : (checkedTimesTen value).bind (checkedAdd · digit) =
    if 10 * value + digit < 2 ^ 64 then some (10 * value + digit) else none := by
  split_ifs with fits
  · exact checkedTimesTen_bind fits
  · rw [checkedTimesTen]
    split_ifs
    · exact if_neg fits
    · rfl

/-- The value of digits that stand behind other digits. -/
theorem value_cons {value digit : Nat} {c : Char} (read : charDigit c = some digit) (rest : Text) :
    value * 10 ^ (c :: rest).length + textNumber charDigit 10 (c :: rest) =
      (10 * value + digit) * 10 ^ rest.length + textNumber charDigit 10 rest := by
  rw [textNumber_cons read, List.length_cons, pow_succ]
  ring

theorem le_value (value : Nat) (text : Text) :
    value ≤ value * 10 ^ text.length + textNumber charDigit 10 text :=
  (Nat.le_mul_of_pos_right value (Nat.pow_pos (by decide))).trans (Nat.le_add_right _ _)

/-- Behind the dot, the loop reads so many digits and nothing else. -/
theorem parseLoop_frac_iff {isNegative : Bool} {maxDecimals k value offset n : Nat}
    {decimals : Option Nat} {text : Text} (room : k ≤ maxDecimals) (small : value < 2 ^ 64) :
    parseLoop isNegative maxDecimals (some k) value (charIndices offset text) = .ok (decimals, n) ↔
      AllDigits charDigit text ∧ k + text.length ≤ maxDecimals ∧ decimals = some (k + text.length) ∧
        value * 10 ^ text.length + textNumber charDigit 10 text = n ∧ n < 2 ^ 64 := by
  induction text generalizing k value offset with
  | nil =>
    rw [charIndices, parseLoop, Except.ok.injEq, Prod.mk.injEq, List.length_nil, pow_zero, mul_one]
    constructor
    · rintro ⟨rfl, rfl⟩
      exact ⟨allDigits_nil, room, rfl, rfl, small⟩
    · rintro ⟨-, -, rfl, rfl, -⟩
      exact ⟨rfl, rfl⟩
  | cons c rest ih =>
    rw [charIndices]
    unfold parseLoop
    cases read : charDigit c with
    | none =>
      refine iff_of_false (fun parsed => ?_) fun accepted => ?_
      · split_ifs at parsed
      · obtain ⟨⟨d, found⟩, -⟩ := AllDigits.cons.mp accepted.1
        rw [read] at found
        contradiction
    | some digit =>
      rw [AllDigits.cons, value_cons read, List.length_cons, read]
      simp only [step_eq]
      split_ifs with fits more
      · have count : k.succ + rest.length = k + (rest.length + 1) := by omega
        rw [ih more fits, count]
        exact and_congr_left fun _ => ⟨fun digits => ⟨⟨digit, rfl⟩, digits⟩, And.right⟩
      · refine iff_of_false (by simp) fun accepted => more ?_
        omega
      · refine iff_of_false (by simp) ?_
        rintro ⟨-, -, -, rfl, below⟩
        exact fits ((le_value _ rest).trans_lt below)

/-- Before the dot, the loop reads digits up to the end or to a dot. -/
theorem parseLoop_whole_iff {isNegative : Bool} {maxDecimals value offset n : Nat}
    {decimals : Option Nat} {text : Text} (dotted : '.' ∈ text → 0 < maxDecimals)
    (small : value < 2 ^ 64) :
    parseLoop isNegative maxDecimals none value (charIndices offset text) = .ok (decimals, n) ↔
      (AllDigits charDigit text ∧ decimals = none ∧
        value * 10 ^ text.length + textNumber charDigit 10 text = n ∧ n < 2 ^ 64) ∨
      ∃ whole frac, text = whole ++ '.' :: frac ∧ AllDigits charDigit whole ∧
        AllDigits charDigit frac ∧ frac.length ≤ maxDecimals ∧ decimals = some frac.length ∧
        value * 10 ^ (whole ++ frac).length + unscaled whole frac = n ∧ n < 2 ^ 64 := by
  induction text generalizing value offset with
  | nil =>
    rw [charIndices, parseLoop, Except.ok.injEq, Prod.mk.injEq, List.length_nil, pow_zero, mul_one]
    constructor
    · rintro ⟨rfl, rfl⟩
      exact .inl ⟨allDigits_nil, rfl, rfl, small⟩
    · rintro (⟨-, rfl, rfl, -⟩ | ⟨whole, frac, shape, -⟩)
      · exact ⟨rfl, rfl⟩
      · exact absurd shape (by simp)
  | cons c rest ih =>
    rw [charIndices]
    unfold parseLoop
    cases read : charDigit c with
    | none =>
      have notDigits : ∀ {text}, ¬ AllDigits charDigit (c :: text) := by
        intro text digits
        obtain ⟨⟨d, found⟩, -⟩ := AllDigits.cons.mp digits
        rw [read] at found
        contradiction
      split_ifs with dot none
      · exact absurd (none ▸ dotted (dot ▸ List.mem_cons_self)) (lt_irrefl 0)
      · subst dot
        rw [parseLoop_frac_iff (Nat.zero_le maxDecimals) small, Nat.zero_add]
        constructor
        · rintro ⟨digits, few, rfl, value, below⟩
          exact .inr ⟨[], rest, rfl, allDigits_nil, digits, few, rfl, value, below⟩
        · rintro (⟨digits, -⟩ | ⟨whole, frac, shape, digits, fracDigits, few, rfl, value, below⟩)
          · exact absurd digits notDigits
          · cases whole with
            | nil =>
              obtain rfl := (List.cons.inj shape).2
              exact ⟨fracDigits, few, rfl, value, below⟩
            | cons first whole =>
              obtain ⟨rfl, -⟩ := List.cons.inj shape
              exact absurd digits notDigits
      · refine iff_of_false (by simp) ?_
        rintro (⟨digits, -⟩ | ⟨whole, frac, shape, digits, -⟩)
        · exact notDigits digits
        · cases whole with
          | nil => exact dot (List.cons.inj shape).1
          | cons first whole =>
            obtain ⟨rfl, -⟩ := List.cons.inj shape
            exact notDigits digits
    | some digit =>
      have shapes (p : Text → Text → Prop) :
          (∃ whole frac, c :: rest = whole ++ '.' :: frac ∧ p whole frac) ↔
          ∃ whole frac, rest = whole ++ '.' :: frac ∧ p (c :: whole) frac := by
        constructor
        · rintro ⟨whole, frac, shape, holds⟩
          cases whole with
          | nil =>
            rw [(List.cons.inj shape).1, charDigit_dot] at read
            contradiction
          | cons first whole =>
            obtain ⟨rfl, tail⟩ := List.cons.inj shape
            exact ⟨whole, frac, tail, holds⟩
        · rintro ⟨whole, frac, rfl, holds⟩
          exact ⟨c :: whole, frac, rfl, holds⟩
      have head : ∀ text, AllDigits charDigit (c :: text) ↔ AllDigits charDigit text := by
        intro text
        rw [AllDigits.cons, and_iff_right ⟨digit, read⟩]
      simp only [step_eq, shapes, head, value_cons read, unscaled, List.cons_append]
      split_ifs with fits
      · exact ih (fun later => dotted (List.mem_cons_of_mem c later)) fits
      · refine iff_of_false (by simp) ?_
        rintro (⟨-, -, rfl, below⟩ | ⟨whole, frac, -, -, -, -, -, rfl, below⟩)
        · exact fits ((le_value _ _).trans_lt below)
        · exact fits ((le_value _ _).trans_lt below)

theorem shiftLoop_iff {isNegative : Bool} {scaleFactor value v : Nat} (small : value < 2 ^ 64) :
    shiftLoop isNegative scaleFactor value = .ok v ↔ value * 10 ^ scaleFactor = v ∧ v < 2 ^ 64 := by
  by_cases fits : value * 10 ^ scaleFactor < 2 ^ 64
  · rw [shiftLoop_eq scaleFactor value fits, Except.ok.injEq]
    constructor
    · rintro rfl
      exact ⟨rfl, fits⟩
    · exact And.left
  · refine iff_of_false (fun shifted => ?_) fun accepted => fits (accepted.1 ▸ accepted.2)
    induction scaleFactor generalizing value with
    | zero => exact fits (by rwa [pow_zero, mul_one])
    | succ scaleFactor ih =>
      rw [shiftLoop, checkedTimesTen] at shifted
      split_ifs at shifted with more
      refine ih more (fun below => fits ?_) shifted
      have whole : value * 10 ^ (scaleFactor + 1) = 10 * value * 10 ^ scaleFactor := by
        rw [pow_succ]
        ring
      rwa [whole]

/-- The texts that are read with so many decimals. -/
theorem parseDigits_iff {isNegative negative : Bool} {maxDecimals v : Nat} {text : Text}
    (dotted : '.' ∈ text → 0 < maxDecimals) :
    parseDigits isNegative maxDecimals text = .ok (negative, v) ↔ negative = isNegative ∧
      ∃ whole frac, Dotted text whole frac ∧ frac.length ≤ maxDecimals ∧
        unscaled whole frac * 10 ^ (maxDecimals - frac.length) = v ∧ v < 2 ^ 64 := by
  have steps : parseDigits isNegative maxDecimals text = .ok (negative, v) ↔
      ∃ decimals n, parseLoop isNegative maxDecimals none 0 (charIndices 0 text) = .ok (decimals, n) ∧
        shiftLoop isNegative (maxDecimals - decimals.getD 0) n = .ok v ∧ negative = isNegative := by
    rw [parseDigits]
    cases parseLoop isNegative maxDecimals none 0 (charIndices 0 text) with
    | error e => exact iff_of_false (by simp [bind, Except.bind]) (by simp)
    | ok read =>
      obtain ⟨decimals, n⟩ := read
      simp only [bind, Except.bind, Except.ok.injEq, Prod.mk.injEq]
      constructor
      · intro parsed
        refine ⟨decimals, n, ⟨rfl, rfl⟩, ?_⟩
        cases shifted : shiftLoop isNegative (maxDecimals - decimals.getD 0) n with
        | error e =>
          rw [shifted] at parsed
          contradiction
        | ok value =>
          rw [shifted] at parsed
          obtain ⟨same, rfl⟩ := Prod.mk.inj (Except.ok.inj parsed)
          exact ⟨rfl, same.symm⟩
      · rintro ⟨_, _, ⟨rfl, rfl⟩, shifted, rfl⟩
        rw [shifted]
  simp only [steps, parseLoop_whole_iff dotted (by decide : 0 < 2 ^ 64), Nat.zero_mul, Nat.zero_add]
  constructor
  · rintro ⟨decimals, n, ⟨digits, rfl, rfl, below⟩ | ⟨whole, frac, shape, digits, fracDigits, few,
      rfl, rfl, below⟩,
      shifted, rfl⟩
    · obtain ⟨value, below⟩ := (shiftLoop_iff below).mp shifted
      refine ⟨rfl, text, [], ⟨digits, allDigits_nil, .inl ⟨rfl, rfl⟩⟩, Nat.zero_le _, ?_, below⟩
      rw [unscaled, List.append_nil]
      exact value
    · obtain ⟨value, below⟩ := (shiftLoop_iff below).mp shifted
      exact ⟨rfl, whole, frac, ⟨digits, fracDigits, .inr shape⟩, few, value, below⟩
  · rintro ⟨rfl, whole, frac, ⟨digits, fracDigits, shape⟩, few, value, below⟩
    have small : unscaled whole frac < 2 ^ 64 :=
      (value ▸ Nat.le_mul_of_pos_right _ (Nat.pow_pos (by decide))).trans_lt below
    rcases shape with ⟨rfl, rfl⟩ | shape
    · rw [unscaled, List.append_nil] at small value
      exact ⟨none, _, .inl ⟨digits, rfl, rfl, small⟩, (shiftLoop_iff small).mpr ⟨value, below⟩, rfl⟩
    · exact ⟨some frac.length, _, .inr ⟨whole, frac, shape, digits, fracDigits, few, rfl, rfl, small⟩,
        (shiftLoop_iff small).mpr ⟨value, below⟩, rfl⟩

/-! ### Denominations finer than a satoshi -/

def zeros (count : Nat) : Text := List.replicate count '0'

theorem charDigit_zero : charDigit '0' = some 0 := by decide

theorem eq_zero_of_charDigit {c : Char} (read : charDigit c = some 0) : c = '0' :=
  decimalRadix.zero.mp read

theorem allDigits_zeros (count : Nat) : AllDigits charDigit (zeros count) := by
  intro c member
  rw [List.eq_of_mem_replicate member, charDigit_zero]
  rfl

/-- Digits that denote zero are zeros. -/
theorem textNumber_eq_zero {text : Text} (digits : AllDigits charDigit text) :
    textNumber charDigit 10 text = 0 ↔ text = zeros text.length := by
  induction text with
  | nil => exact iff_of_true rfl rfl
  | cons c rest ih =>
    obtain ⟨⟨digit, read⟩, others⟩ := AllDigits.cons.mp digits
    have unrolled : zeros (rest.length + 1) = '0' :: zeros rest.length := rfl
    rw [textNumber_cons read, Nat.add_eq_zero_iff, ih others, List.length_cons, unrolled,
      List.cons.injEq]
    refine and_congr_left fun _ => ?_
    rw [Nat.mul_eq_zero, or_iff_left (Nat.pow_pos (by decide)).ne']
    constructor
    · rintro rfl
      exact eq_zero_of_charDigit read
    · rintro rfl
      exact Option.some.inj (read.symm.trans charDigit_zero)

theorem length_zeros (count : Nat) : (zeros count).length = count := List.length_replicate

theorem textNumber_zeros (count : Nat) : textNumber charDigit 10 (zeros count) = 0 :=
  (textNumber_eq_zero (allDigits_zeros count)).mpr (congrArg zeros (length_zeros count).symm)

/-- Digits that denote a multiple of a power of ten end in zeros. -/
theorem ends_in_zeros {text : Text} {count v : Nat} (digits : AllDigits charDigit text)
    (long : count ≤ text.length) (value : textNumber charDigit 10 text = v * 10 ^ count) :
    ∃ high, text = high ++ zeros count ∧ textNumber charDigit 10 high = v := by
  obtain ⟨high, low, rfl, length⟩ : ∃ high low, text = high ++ low ∧ low.length = count :=
    ⟨text.take (text.length - count), text.drop (text.length - count), (List.take_append_drop _ _).symm,
      by rw [List.length_drop]; omega⟩
  have lowDigits := (AllDigits.append.mp digits).2
  have small := decimalRadix.textNumber_lt lowDigits
  rw [textNumber_append, length] at value
  rw [length] at small
  have none : textNumber charDigit 10 low = 0 := by
    have remainder := congrArg (· % 10 ^ count) value
    simpa [Nat.mod_eq_of_lt small] using remainder
  rw [none, Nat.add_zero] at value
  refine ⟨high, ?_, Nat.eq_of_mul_eq_mul_right (Nat.pow_pos (by decide)) value⟩
  rw [(textNumber_eq_zero lowDigits).mp none, length]

theorem mapM_charDigit {text : Text} {values : List Nat} : text.mapM charDigit = some values ↔
    AllDigits charDigit text ∧ values = text.map fun c => (charDigit c).getD 0 := by
  induction text generalizing values with
  | nil =>
    constructor
    · rintro ⟨⟩
      exact ⟨allDigits_nil, rfl⟩
    · rintro ⟨-, rfl⟩
      rfl
  | cons c rest ih =>
    rw [List.mapM_cons, AllDigits.cons, List.map_cons]
    cases read : charDigit c with
    | none => exact iff_of_false (by simp) (by simp)
    | some digit =>
      constructor
      · intro mapped
        obtain ⟨others, tail, same⟩ := Option.bind_eq_some_iff.mp
          ((Option.bind_some _ _).symm.trans mapped)
        obtain ⟨digits, rfl⟩ := ih.mp tail
        exact ⟨⟨⟨digit, rfl⟩, digits⟩, (Option.some.inj same).symm⟩
      · rintro ⟨⟨-, digits⟩, rfl⟩
        rw [ih.mpr ⟨digits, rfl⟩]
        rfl

/-- The digits of an integer behind its sign. -/
def signedNumber (signed : Int × Text) : Option Int :=
  if signed.2 = [] then none else do
    let values ← signed.2.mapM charDigit
    let value := signed.1 * bigEndian 10 values
    if -2 ^ 63 ≤ value ∧ value < 2 ^ 63 then some value else none

theorem signedNumber_eq_zero {sign : Int} (signed : sign ≠ 0) (digits : Text) :
    signedNumber (sign, digits) = some 0 ↔ ∃ count, 0 < count ∧ digits = zeros count := by
  rw [signedNumber]
  constructor
  · intro parsed
    split_ifs at parsed with empty
    obtain ⟨values, read, parsed⟩ := Option.bind_eq_some_iff.mp parsed
    obtain ⟨all, rfl⟩ := mapM_charDigit.mp read
    dsimp only at parsed
    split_ifs at parsed
    have value : textNumber charDigit 10 digits = 0 := by
      have product := Option.some.inj parsed
      rw [mul_eq_zero, or_iff_right signed] at product
      exact_mod_cast product
    exact ⟨digits.length, List.length_pos_iff.mpr empty, (textNumber_eq_zero all).mp value⟩
  · rintro ⟨count, positive, rfl⟩
    have nonempty : zeros count ≠ [] := by
      rw [zeros, Ne, List.replicate_eq_nil_iff]
      exact positive.ne'
    have value : bigEndian 10 ((zeros count).map fun c => (charDigit c).getD 0) = 0 :=
      textNumber_zeros count
    rw [if_neg nonempty, mapM_charDigit.mpr ⟨allDigits_zeros count, rfl⟩, Option.bind_eq_bind,
      Option.bind_some, value]
    simp

/-- A sign is taken off where there is one. -/
theorem parseI64_eq_signedNumber (s : Text) :
    (∃ rest, s = '-' :: rest ∧ parseI64 s = signedNumber (-1, rest)) ∨
    (∃ rest, s = '+' :: rest ∧ parseI64 s = signedNumber (1, rest)) ∨
    (∀ rest, s ≠ '-' :: rest) ∧ (∀ rest, s ≠ '+' :: rest) ∧ parseI64 s = signedNumber (1, s) := by
  by_cases minus : ∃ rest, s = '-' :: rest
  · obtain ⟨rest, rfl⟩ := minus
    exact .inl ⟨rest, rfl, rfl⟩
  by_cases plus : ∃ rest, s = '+' :: rest
  · obtain ⟨rest, rfl⟩ := plus
    exact .inr (.inl ⟨rest, rfl, rfl⟩)
  refine .inr (.inr ⟨fun rest same => minus ⟨rest, same⟩, fun rest same => plus ⟨rest, same⟩, ?_⟩)
  rw [parseI64.eq_def]
  split
  next sign digits taken =>
  split at taken
  · next rest => exact absurd ⟨rest, rfl⟩ minus
  · next rest => exact absurd ⟨rest, rfl⟩ plus
  · obtain ⟨rfl, rfl⟩ := Prod.mk.inj taken
    rfl

/-- What `i64::from_str` reads as zero. -/
theorem parseI64_eq_zero {s : Text} : parseI64 s = some 0 ↔
    ∃ count, 0 < count ∧ (s = zeros count ∨ s = '+' :: zeros count ∨ s = '-' :: zeros count) := by
  have first {c : Char} {rest : Text} {count : Nat} (same : c :: rest = zeros count) : c = '0' :=
    List.eq_of_mem_replicate (same ▸ List.mem_cons_self)
  rcases parseI64_eq_signedNumber s with ⟨rest, rfl, split⟩ | ⟨rest, rfl, split⟩ | ⟨minus, plus, split⟩
  · rw [split]
    refine (signedNumber_eq_zero (by decide) rest).trans (exists_congr fun count =>
      and_congr_right fun _ => ?_)
    constructor
    · rintro rfl
      exact .inr (.inr rfl)
    · rintro (same | same | same)
      · exact absurd (first same) (by decide)
      · exact absurd (List.cons.inj same).1 (by decide)
      · exact (List.cons.inj same).2
  · rw [split]
    refine (signedNumber_eq_zero (by decide) rest).trans (exists_congr fun count =>
      and_congr_right fun _ => ?_)
    constructor
    · rintro rfl
      exact .inr (.inl rfl)
    · rintro (same | same | same)
      · exact absurd (first same) (by decide)
      · exact (List.cons.inj same).2
      · exact absurd (List.cons.inj same).1 (by decide)
  · rw [split]
    refine (signedNumber_eq_zero (by decide) s).trans (exists_congr fun count =>
      and_congr_right fun _ => ?_)
    constructor
    · exact .inl
    · rintro (same | same | same)
      · exact same
      · exact absurd same (plus _)
      · exact absurd same (minus _)

theorem byteLen_zeros (count : Nat) : byteLen (zeros count) = count := by
  rw [byteLen, zeros, List.map_replicate, List.sum_replicate]
  exact Nat.mul_one count

theorem charIndices_chars (offset : Nat) (s : Text) : (charIndices offset s).map Prod.snd = s := by
  induction s generalizing offset with
  | nil => rfl
  | cons c rest ih => rw [charIndices, List.map_cons, ih]

theorem find_nonzero_eq_none {items : List (Nat × Char)} :
    items.find? (·.2 != '0') = none ↔ ∀ c ∈ items.map Prod.snd, c = '0' := by
  rw [List.find?_eq_none, List.forall_mem_map]
  refine forall₂_congr fun item _ => ?_
  rw [bne_iff_ne, not_not]

theorem lastNonzero_eq_none {count : Nat} {s : Text} :
    lastNonzero count s = none ↔ ∀ c ∈ s.drop (s.length - count), c = '0' := by
  rw [lastNonzero, Option.map_eq_none_iff, find_nonzero_eq_none, List.map_take, List.map_reverse,
    charIndices_chars, List.take_reverse]
  simp only [List.mem_reverse]

/-- A text of more than `count` bytes that ends in `count` zeros. -/
theorem ends_iff {count : Nat} {s : Text} : (¬ byteLen s ≤ count ∧ lastNonzero count s = none) ↔
    ∃ high, high ≠ [] ∧ s = high ++ zeros count := by
  rw [lastNonzero_eq_none]
  constructor
  · rintro ⟨long, last⟩
    have zeroed : s.drop (s.length - count) = zeros (s.drop (s.length - count)).length :=
      List.eq_replicate_iff.mpr ⟨rfl, last⟩
    rw [List.length_drop] at zeroed
    rcases Nat.lt_or_ge count s.length with longer | short
    · refine ⟨s.take (s.length - count), ?_, ?_⟩
      · rw [Ne, List.take_eq_nil_iff]
        rintro (none | rfl)
        · omega
        · exact absurd longer (Nat.not_lt_zero count)
      · have rest : s.length - (s.length - count) = count := by omega
        rw [rest] at zeroed
        rw [← zeroed, List.take_append_drop]
    · have none : s.length - count = 0 := by omega
      rw [none, List.drop_zero, Nat.sub_zero] at zeroed
      rw [zeroed, byteLen_zeros] at long
      exact absurd short long
  · rintro ⟨high, nonempty, rfl⟩
    have size : byteLen high ≠ 0 := mt byteLen_eq_zero.mp nonempty
    have start : (high ++ zeros count).length - count = high.length := by
      rw [List.length_append, length_zeros, Nat.add_sub_cancel]
    rw [byteLen_append, byteLen_zeros, start, List.drop_left]
    exact ⟨by omega, fun c member => List.eq_of_mem_replicate member⟩

/-- The first occurrence of a character splits a text in one way. -/
theorem split_inj {c : Char} {before after front back : Text} (absent : c ∉ before)
    (missing : c ∉ front) (same : before ++ c :: after = front ++ c :: back) :
    before = front ∧ after = back := by
  have one := splitAtChar_eq absent after
  rw [same, splitAtChar_eq missing] at one
  obtain ⟨rfl, rfl⟩ := Prod.mk.inj (Option.some.inj one)
  exact ⟨rfl, rfl⟩

theorem dot_not_mem_zeros (count : Nat) : '.' ∉ zeros count := fun member =>
  absurd (List.eq_of_mem_replicate member) (by decide)

/-- The texts that a fine denomination reads as digits: zeros stand for the fractions of a
satoshi, and only zeros behind a dot. -/
theorem isTooPrecise_eq_none {s : Text} {count : Nat} : isTooPrecise s count = none ↔
    ∃ high, high ≠ [] ∧ '.' ∉ high ∧
      (s = high ++ zeros count ∨ ∃ more, s = high ++ zeros count ++ '.' :: zeros more) := by
  have dotless {high : Text} (absent : '.' ∉ high) : '.' ∉ high ++ zeros count := by
    rw [List.mem_append, not_or]
    exact ⟨absent, dot_not_mem_zeros count⟩
  by_cases dot : '.' ∈ s
  · obtain ⟨before, after, rfl, absent⟩ := List.eq_append_cons_of_mem dot
    have only : isTooPrecise (before ++ '.' :: after) count = none ↔
        (¬ byteLen before ≤ count ∧ lastNonzero count before = none) ∧ ∀ c ∈ after, c = '0' := by
      rw [isTooPrecise, splitAtChar_eq absent]
      dsimp only
      split_ifs with short
      · exact iff_of_false (by simp) fun fine => fine.1.1 short
      · rw [Option.or_eq_none_iff, Option.map_eq_none_iff, find_nonzero_eq_none, charIndices_chars,
          and_iff_right short]
    rw [only, ends_iff]
    constructor
    · rintro ⟨⟨high, nonempty, rfl⟩, zeroed⟩
      refine ⟨high, nonempty, fun member => absent (List.mem_append_left _ member),
        .inr ⟨after.length, ?_⟩⟩
      have tail : after = zeros after.length := List.eq_replicate_iff.mpr ⟨rfl, zeroed⟩
      rw [← tail]
    · rintro ⟨high, nonempty, missing, shape | ⟨more, shape⟩⟩
      · exact absurd (shape ▸ dot) (dotless missing)
      · obtain ⟨rfl, rfl⟩ := split_inj absent (dotless missing) shape
        exact ⟨⟨high, nonempty, rfl⟩, fun c member => List.eq_of_mem_replicate member⟩
  · have only : isTooPrecise s count = none ↔ ¬ byteLen s ≤ count ∧ lastNonzero count s = none := by
      rw [isTooPrecise, splitAtChar, if_neg dot]
      dsimp only
      split_ifs with short
      · exact iff_of_false (by simp) fun fine => fine.1 short
      · rw [and_iff_right short]
    rw [only, ends_iff]
    constructor
    · rintro ⟨high, nonempty, rfl⟩
      exact ⟨high, nonempty, fun member => dot (List.mem_append_left _ member), .inl rfl⟩
    · rintro ⟨high, nonempty, -, shape | ⟨more, rfl⟩⟩
      · exact ⟨high, nonempty, shape⟩
      · exact absurd (List.mem_append_right _ List.mem_cons_self) dot

/-- The short texts that the integer parser reads as zero. -/
theorem short_zero_iff {s : Text} {count : Nat} : (isTooPrecise s count ≠ none ∧ parseI64 s = some 0) ↔
    s.length ≤ count ∧ parseI64 s = some 0 := by
  refine and_congr_left fun zero => ?_
  obtain ⟨length, positive, shape⟩ := parseI64_eq_zero.mp zero
  obtain ⟨sign, dotless, one, rfl⟩ :
      ∃ sign : Text, '.' ∉ sign ∧ sign.length ≤ 1 ∧ s = sign ++ zeros length := by
    rcases shape with rfl | rfl | rfl
    · exact ⟨[], by simp, Nat.zero_le 1, rfl⟩
    · exact ⟨['+'], by decide, le_rfl, rfl⟩
    · exact ⟨['-'], by decide, le_rfl, rfl⟩
  rw [List.length_append, length_zeros]
  constructor
  · intro imprecise
    by_contra long
    refine imprecise (isTooPrecise_eq_none.mpr ⟨sign ++ zeros (length - count), ?_, ?_, .inl ?_⟩)
    · refine List.ne_nil_of_length_pos ?_
      rw [List.length_append, length_zeros]
      omega
    · rw [List.mem_append, not_or]
      exact ⟨dotless, dot_not_mem_zeros _⟩
    · rw [List.append_assoc, zeros, zeros, zeros, List.replicate_append_replicate]
      congr 2
      omega
  · intro short precise
    obtain ⟨high, nonempty, -, shape⟩ := isTooPrecise_eq_none.mp precise
    have positive := List.length_pos_iff.mpr nonempty
    have length : (sign ++ zeros length).length = sign.length + length := by
      rw [List.length_append, length_zeros]
    rcases shape with shape | ⟨more, shape⟩
    · rw [shape, List.length_append, length_zeros] at length
      omega
    · rw [shape, List.length_append, List.length_append, length_zeros] at length
      omega

/-- The part of a text before its dot. -/
theorem stem_inj {text one two : Text} (first : '.' ∉ one) (second : '.' ∉ two)
    (shape : text = one ∨ ∃ rest, text = one ++ '.' :: rest)
    (other : text = two ∨ ∃ rest, text = two ++ '.' :: rest) : one = two := by
  rcases shape with rfl | ⟨rest, rfl⟩
  · rcases other with same | ⟨rest, same⟩
    · exact same
    · exact absurd (same ▸ List.mem_append_right two List.mem_cons_self) first
  · rcases other with same | ⟨rest', same⟩
    · exact absurd (same ▸ List.mem_append_right one List.mem_cons_self) second
    · exact (split_inj first second same).1

/-- The cut at a computed offset leaves whole characters, where it is made. -/
theorem slice_of_precise {text : Text} {count : Nat} (precise : isTooPrecise text count = none) :
    ∃ high, high ≠ [] ∧ '.' ∉ high ∧
      (text = high ++ zeros count ∨ ∃ more, text = high ++ zeros count ++ '.' :: zeros more) ∧
      sliceTo (((splitAtChar '.' text).map fun (before, _) => byteLen before).getD
        (byteLen text) - count)
        text = some high := by
  obtain ⟨high, nonempty, dotless, shape⟩ := isTooPrecise_eq_none.mp precise
  have plain : '.' ∉ high ++ zeros count := by
    rw [List.mem_append, not_or]
    exact ⟨dotless, dot_not_mem_zeros count⟩
  refine ⟨high, nonempty, dotless, shape, ?_⟩
  rcases shape with rfl | ⟨more, rfl⟩
  · rw [splitAtChar, if_neg plain, Option.map_none, Option.getD_none, byteLen_append, byteLen_zeros,
      Nat.add_sub_cancel, sliceTo_eq_some]
    exact ⟨_, rfl, rfl⟩
  · rw [splitAtChar_eq plain, Option.map_some, Option.getD_some]
    dsimp only
    rw [byteLen_append, byteLen_zeros, Nat.add_sub_cancel, sliceTo_eq_some]
    exact ⟨_, List.append_assoc _ _ _, rfl⟩

/-- What is read in a denomination finer than a satoshi, or in satoshis. -/
theorem parseUnsigned_fine_iff {isNegative negative : Bool} {text : Text} {denom : Denomination}
    {v : Nat}
    (fine : 0 ≤ denom.precision) :
    (parseUnsigned isNegative text denom).run = some (.ok (negative, v)) ↔ negative = isNegative ∧
      ((∃ high, high ≠ [] ∧ AllDigits charDigit high ∧ textNumber charDigit 10 high = v ∧ v < 2 ^ 64 ∧
          (text = high ++ zeros denom.precision.toNat ∨
            ∃ more, text = high ++ zeros denom.precision.toNat ++ '.' :: zeros more)) ∨
        (v = 0 ∧ text.length ≤ denom.precision.toNat ∧ parseI64 text = some 0)) := by
  rw [← short_zero_iff, parseUnsigned, if_pos fine]
  dsimp only
  obtain ⟨count, same⟩ : ∃ count, count = denom.precision.toNat := ⟨_, rfl⟩
  rw [← same]
  have undotted {high : Text} (digits : AllDigits charDigit high) : '.' ∉ high := by
    intro member
    exact absurd (digits '.' member) (by decide)
  cases precise : isTooPrecise text count with
  | some position =>
    have none : ¬ ∃ high, high ≠ [] ∧ AllDigits charDigit high ∧ textNumber charDigit 10 high = v ∧
        v < 2 ^ 64 ∧ (text = high ++ zeros count ∨
          ∃ more, text = high ++ zeros count ++ '.' :: zeros more) := by
      rintro ⟨high, nonempty, digits, -, -, shape⟩
      rw [isTooPrecise_eq_none.mpr ⟨high, nonempty, undotted digits, shape⟩] at precise
      contradiction
    rw [or_iff_right none]
    dsimp only
    split_ifs with zero
    · rw [run_pure_eq_ok, Prod.mk.injEq]
      constructor
      · rintro ⟨rfl, rfl⟩
        exact ⟨rfl, rfl, by simp, zero⟩
      · rintro ⟨rfl, rfl, -, -⟩
        exact ⟨rfl, rfl⟩
    · exact iff_of_false (by simp) fun accepted => zero accepted.2.2.2
  | none =>
    obtain ⟨high, nonempty, dotless, shape, sliced⟩ := slice_of_precise precise
    have plain {front : Text} (absent : '.' ∉ front) : '.' ∉ front ++ zeros count := by
      rw [List.mem_append, not_or]
      exact ⟨absent, dot_not_mem_zeros count⟩
    have loose {front : Text}
        (form : text = front ++ zeros count ∨
          ∃ more, text = front ++ zeros count ++ '.' :: zeros more) :
        text = front ++ zeros count ∨ ∃ rest, text = front ++ zeros count ++ '.' :: rest := by
      rcases form with plain | ⟨more, pointed⟩
      · exact .inl plain
      · exact .inr ⟨_, pointed⟩
    have none : ¬ (v = 0 ∧ (Option.none : Option Nat) ≠ Option.none ∧ parseI64 text = some 0) :=
      fun zero => zero.2.1 rfl
    dsimp only
    rw [or_iff_left none, sliced, orPanic_bind, run_liftM_eq_ok,
      parseDigits_iff fun dot => absurd dot dotless]
    refine and_congr_right fun _ => ?_
    constructor
    · rintro ⟨whole, frac, ⟨digits, -, same⟩, few, value, below⟩
      obtain rfl := List.eq_nil_of_length_eq_zero (Nat.le_zero.mp few)
      rcases same with ⟨rfl, -⟩ | same
      · rw [unscaled, List.append_nil, List.length_nil, pow_zero, mul_one] at value
        exact ⟨high, nonempty, digits, value, below, shape⟩
      · exact absurd (same ▸ List.mem_append_right whole List.mem_cons_self) dotless
    · rintro ⟨front, some, digits, value, below, form⟩
      obtain rfl : high = front :=
        List.append_cancel_right (stem_inj (plain dotless) (plain (undotted digits)) (loose shape)
          (loose form))
      refine ⟨high, [], ⟨digits, allDigits_nil, .inl ⟨rfl, rfl⟩⟩, le_rfl, ?_, below⟩
      rw [unscaled, List.append_nil, List.length_nil, pow_zero, mul_one]
      exact value

theorem parseUnsigned_returns (isNegative : Bool) (text : Text) (denom : Denomination) :
    (parseUnsigned isNegative text denom).run ≠ none := by
  rw [parseUnsigned]
  by_cases fine : 0 ≤ denom.precision
  · rw [if_pos fine]
    dsimp only
    cases precise : isTooPrecise text denom.precision.toNat with
    | some position =>
      dsimp only
      split_ifs
      · exact Option.some_ne_none _
      · exact Option.some_ne_none _
    | none =>
      obtain ⟨high, -, -, -, sliced⟩ := slice_of_precise precise
      dsimp only
      rw [sliced, orPanic_bind]
      exact Returns.ofExcept _
  · rw [if_neg fine]
    exact Returns.ofExcept _

end Litecoin.Units
