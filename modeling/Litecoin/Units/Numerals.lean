import Litecoin.Units.Accepted

/-! Decimal numerals, and the texts that the amount parser reads otherwise. -/
namespace Litecoin.Units
open Wire

/-- How many satoshis an unsigned numeral stands for in a denomination, where it stands for a
whole number of them. -/
def Denotes (denom : Denomination) (text : Text) (v : Nat) : Prop :=
  ∃ whole frac, Dotted text whole frac ∧ whole ++ frac ≠ [] ∧
    unscaled whole frac * 10 ^ (-denom.precision).toNat = v * 10 ^ (frac.length + denom.precision.toNat)

/-- A numeral of an amount: an optional minus, and digits with at most one dot. -/
def Numeral (denom : Denomination) (s : Text) (negative : Bool) (v : Nat) : Prop :=
  ∃ text, s = (if negative then ['-'] else []) ++ text ∧ Denotes denom text v ∧ v < 2 ^ 64

/-- The texts behind the sign that are not read as the numerals they are, or are read
without being numerals. -/
inductive Misread (denom : Denomination) : Text → Prop
  /-- A dot alone is read as zero. -/
  | dot (coarse : denom.precision < 0) : Misread denom ['.']
  /-- More decimals than a denomination has are too precise, though they are zeros. -/
  | padded (coarse : denom.precision < 0) (whole frac : Text) (wholeDigits : AllDigits charDigit whole)
      (fracDigits : AllDigits charDigit frac) (full : frac.length = (-denom.precision).toNat)
      (more : 0 < count) (fits : unscaled whole frac < 2 ^ 64) :
      Misread denom (whole ++ '.' :: (frac ++ zeros count))
  /-- The integer parser takes a sign of its own. -/
  | signed (fine : 0 ≤ denom.precision) (sign : c = '+' ∨ c = '-') (some : 0 < count)
      (few : count < denom.precision.toNat) : Misread denom (c :: zeros count)
  /-- The integer parser takes no dot. -/
  | pointed (fine : 0 ≤ denom.precision) (few : count ≤ denom.precision.toNat)
    (some : 0 < count + more) :
      Misread denom (zeros count ++ '.' :: zeros more)

theorem Dotted.unique {text whole frac front back : Text} (one : Dotted text whole frac)
    (two : Dotted text front back) : whole = front ∧ frac = back := by
  have undotted {high : Text} (digits : AllDigits charDigit high) : '.' ∉ high := by
    intro member
    exact absurd (digits '.' member) (by decide)
  obtain ⟨wholeDigits, -, shape⟩ := one
  obtain ⟨frontDigits, -, other⟩ := two
  rcases shape with ⟨rfl, rfl⟩ | rfl
  · rcases other with ⟨rfl, rfl⟩ | same
    · exact ⟨rfl, rfl⟩
    · exact absurd (same ▸ List.mem_append_right front List.mem_cons_self) (undotted wholeDigits)
  · rcases other with ⟨same, -⟩ | same
    · exact absurd (same ▸ List.mem_append_right whole List.mem_cons_self) (undotted frontDigits)
    · exact split_inj (undotted wholeDigits) (undotted frontDigits) same

theorem unscaled_zeros (whole frac : Text) (count : Nat) :
    unscaled whole (frac ++ zeros count) = unscaled whole frac * 10 ^ count := by
  rw [unscaled, ← List.append_assoc, textNumber_append, textNumber_zeros, length_zeros, Nat.add_zero]
  rfl

/-- The numerals that are read in a denomination coarser than a satoshi: they have no more
decimals than it has. -/
def ReadCoarse (denom : Denomination) (text : Text) (v : Nat) : Prop :=
  ∃ whole frac, Dotted text whole frac ∧ frac.length ≤ (-denom.precision).toNat ∧
    unscaled whole frac * 10 ^ ((-denom.precision).toNat - frac.length) = v ∧ v < 2 ^ 64

theorem parseUnsigned_coarse_iff {denom : Denomination} (coarse : denom.precision < 0)
    {isNegative negative : Bool} {text : Text} {v : Nat} :
    (parseUnsigned isNegative text denom).run = some (.ok (negative, v)) ↔
      negative = isNegative ∧ ReadCoarse denom text v := by
  have positive : 0 < (-denom.precision).toNat := by omega
  rw [parseUnsigned, if_neg (not_le.mpr coarse), run_liftM_eq_ok, parseDigits_iff fun _ => positive]
  rfl

theorem denotes_coarse {denom : Denomination} (coarse : denom.precision < 0) {text : Text} {v : Nat} :
    Denotes denom text v ↔ ∃ whole frac, Dotted text whole frac ∧ whole ++ frac ≠ [] ∧
      unscaled whole frac * 10 ^ (-denom.precision).toNat = v * 10 ^ frac.length := by
  have none : denom.precision.toNat = 0 := by omega
  rw [Denotes, none]
  rfl

theorem not_misread_of_coarse {denom : Denomination} (coarse : denom.precision < 0) {text : Text}
    (agree : ∀ v, ReadCoarse denom text v ↔ Denotes denom text v ∧ v < 2 ^ 64) :
    ¬ Misread denom text := by
  intro misread
  simp only [denotes_coarse coarse] at agree
  cases misread with
  | dot _ =>
    have dotted : Dotted ['.'] [] [] := ⟨allDigits_nil, allDigits_nil, .inr rfl⟩
    obtain ⟨⟨whole, frac, shape, digits, -⟩, -⟩ := (agree 0).mp
      ⟨[], [], dotted, Nat.zero_le _, Nat.zero_mul _, by decide⟩
    obtain ⟨rfl, rfl⟩ := shape.unique dotted
    exact digits rfl
  | @padded count _ whole frac wholeDigits fracDigits full more fits =>
    have dotted : Dotted (whole ++ '.' :: (frac ++ zeros count)) whole (frac ++ zeros count) :=
      ⟨wholeDigits, AllDigits.append.mpr ⟨fracDigits, allDigits_zeros count⟩, .inr rfl⟩
    have length : (frac ++ zeros count).length = (-denom.precision).toNat + count := by
      rw [List.length_append, full, length_zeros]
    have digits : whole ++ (frac ++ zeros count) ≠ [] := by
      refine List.ne_nil_of_length_pos ?_
      rw [List.length_append, length]
      omega
    have value : unscaled whole (frac ++ zeros count) * 10 ^ (-denom.precision).toNat =
        unscaled whole frac * 10 ^ (frac ++ zeros count).length := by
      rw [unscaled_zeros, length, pow_add]
      ring
    obtain ⟨front, back, shape, few, -⟩ :=
      (agree (unscaled whole frac)).mpr ⟨⟨whole, _, dotted, digits, value⟩, fits⟩
    obtain ⟨rfl, rfl⟩ := shape.unique dotted
    rw [length] at few
    omega
  | signed fine _ _ _ => exact absurd fine (not_le.mpr coarse)
  | pointed fine _ _ => exact absurd fine (not_le.mpr coarse)

/-- Decimals beyond those of the denomination are zeros. -/
theorem misread_of_many {denom : Denomination} (coarse : denom.precision < 0)
    {text whole frac : Text} {v : Nat}
    (dotted : Dotted text whole frac) (many : (-denom.precision).toNat < frac.length)
    (value : unscaled whole frac * 10 ^ (-denom.precision).toNat = v * 10 ^ frac.length)
    (below : v < 2 ^ 64) :
    Misread denom text := by
  obtain ⟨count, length⟩ := Nat.exists_eq_add_of_le many.le
  have scaled : unscaled whole frac = v * 10 ^ count := by
    refine Nat.eq_of_mul_eq_mul_right (Nat.pow_pos (by decide : 0 < 10)
      (n := (-denom.precision).toNat)) ?_
    rw [value, length, pow_add]
    ring
  have all := AllDigits.append.mpr ⟨dotted.wholeDigits, dotted.fracDigits⟩
  obtain ⟨high, split, number⟩ := ends_in_zeros all (by rw [List.length_append]; omega) scaled
  have parts := List.take_append_drop (-denom.precision).toNat frac
  rw [← parts, ← List.append_assoc] at split
  obtain ⟨front, tail⟩ := List.append_inj' split (by
    rw [List.length_drop, length_zeros, length, Nat.add_sub_cancel_left])
  rcases dotted.shape with ⟨-, rfl⟩ | rfl
  · exact absurd many (Nat.not_lt_zero _)
  · rw [← parts, tail]
    refine .padded coarse whole (frac.take _) dotted.wholeDigits
      (fun c member => dotted.fracDigits c (List.mem_of_mem_take member)) ?_ ?_ ?_
    · rw [List.length_take_of_le many.le]
    · omega
    · rwa [unscaled, front, number]

theorem readCoarse_iff {denom : Denomination} (coarse : denom.precision < 0) {text : Text}
    (nonempty : text ≠ [])
    (proper : ¬ Misread denom text) {v : Nat} :
    ReadCoarse denom text v ↔ Denotes denom text v ∧ v < 2 ^ 64 := by
  rw [denotes_coarse coarse]
  constructor
  · rintro ⟨whole, frac, dotted, few, value, below⟩
    refine ⟨⟨whole, frac, dotted, fun empty => ?_, ?_⟩, below⟩
    · obtain ⟨rfl, rfl⟩ := List.append_eq_nil_iff.mp empty
      rcases dotted.shape with ⟨rfl, -⟩ | rfl
      · exact nonempty rfl
      · exact proper (.dot coarse)
    · rw [← value, Nat.mul_assoc, ← pow_add, Nat.sub_add_cancel few]
  · rintro ⟨⟨whole, frac, dotted, digits, value⟩, below⟩
    have few : frac.length ≤ (-denom.precision).toNat :=
      not_lt.mp fun many => proper (misread_of_many coarse dotted many value below)
    refine ⟨whole, frac, dotted, few, ?_, below⟩
    refine Nat.eq_of_mul_eq_mul_right (Nat.pow_pos (by decide : 0 < 10) (n := frac.length)) ?_
    rw [Nat.mul_assoc, ← pow_add, Nat.sub_add_cancel few, value]

/-- In a denomination coarser than a satoshi, what is read and what should be. -/
theorem coarse_iff {denom : Denomination} (coarse : denom.precision < 0) (isNegative : Bool)
    {text : Text}
    (nonempty : text ≠ []) :
    (∀ negative v, (parseUnsigned isNegative text denom).run = some (.ok (negative, v)) ↔
      negative = isNegative ∧ Denotes denom text v ∧ v < 2 ^ 64) ↔ ¬ Misread denom text := by
  simp only [parseUnsigned_coarse_iff coarse]
  constructor
  · intro agree
    refine not_misread_of_coarse coarse fun v => ?_
    have own := agree isNegative v
    rwa [and_iff_right rfl, and_iff_right rfl] at own
  · intro proper negative v
    rw [readCoarse_iff coarse nonempty proper]

theorem Dotted.chars {text whole frac : Text} (dotted : Dotted text whole frac) :
    ∀ c ∈ text, c = '.' ∨ (charDigit c).isSome := by
  obtain ⟨wholeDigits, fracDigits, shape⟩ := dotted
  intro c member
  rcases shape with ⟨rfl, -⟩ | rfl
  · exact .inr (wholeDigits c member)
  · rcases List.mem_append.mp member with before | later
    · exact .inr (wholeDigits c before)
    · rcases List.mem_cons.mp later with dot | after
      · exact .inl dot
      · exact .inr (fracDigits c after)

theorem dot_not_mem_of_parseI64 {text : Text} (zero : parseI64 text = some 0) : '.' ∉ text := by
  obtain ⟨count, -, rfl | rfl | rfl⟩ := parseI64_eq_zero.mp zero
  · exact dot_not_mem_zeros count
  · rw [List.mem_cons, not_or]
    exact ⟨by decide, dot_not_mem_zeros count⟩
  · rw [List.mem_cons, not_or]
    exact ⟨by decide, dot_not_mem_zeros count⟩

/-- A whole number of satoshis has no fraction, and zeros in the places below a satoshi. -/
theorem whole_of_value {whole frac : Text} {v places : Nat} (fracDigits : AllDigits charDigit frac)
    (value : unscaled whole frac = v * 10 ^ (frac.length + places)) :
    textNumber charDigit 10 whole = v * 10 ^ places ∧ frac = zeros frac.length := by
  have small := decimalRadix.textNumber_lt fracDigits
  have scaled : textNumber charDigit 10 whole * 10 ^ frac.length + textNumber charDigit 10 frac =
      v * 10 ^ places * 10 ^ frac.length := by
    rw [← textNumber_append, Nat.mul_assoc, ← pow_add, Nat.add_comm places]
    exact value
  have none : textNumber charDigit 10 frac = 0 := by
    have remainder := congrArg (· % 10 ^ frac.length) scaled
    simpa [Nat.mod_eq_of_lt small] using remainder
  rw [none, Nat.add_zero] at scaled
  exact ⟨Nat.eq_of_mul_eq_mul_right (Nat.pow_pos (by decide)) scaled,
    (textNumber_eq_zero fracDigits).mp none⟩

/-- The texts that are read in satoshis and finer denominations: zeros stand in the places below
a satoshi, and a short text is one that the integer parser takes for zero. -/
def ReadFine (denom : Denomination) (text : Text) (v : Nat) : Prop :=
  (∃ high, high ≠ [] ∧ AllDigits charDigit high ∧ textNumber charDigit 10 high = v ∧ v < 2 ^ 64 ∧
      (text = high ++ zeros denom.precision.toNat ∨
        ∃ more, text = high ++ zeros denom.precision.toNat ++ '.' :: zeros more)) ∨
    (v = 0 ∧ text.length ≤ denom.precision.toNat ∧ parseI64 text = some 0)

theorem denotes_fine {denom : Denomination} (fine : 0 ≤ denom.precision) {text : Text} {v : Nat} :
    Denotes denom text v ↔ ∃ whole frac, Dotted text whole frac ∧ whole ++ frac ≠ [] ∧
      unscaled whole frac = v * 10 ^ (frac.length + denom.precision.toNat) := by
  have none : (-denom.precision).toNat = 0 := by omega
  rw [Denotes, none]
  simp only [pow_zero, mul_one]

theorem not_misread_of_fine {denom : Denomination} (fine : 0 ≤ denom.precision) {text : Text}
    (agree : ∀ v, ReadFine denom text v ↔ Denotes denom text v ∧ v < 2 ^ 64) :
    ¬ Misread denom text := by
  intro misread
  simp only [denotes_fine fine] at agree
  cases misread with
  | dot coarse => exact absurd fine (not_le.mpr coarse)
  | padded coarse _ _ _ _ _ _ _ => exact absurd fine (not_le.mpr coarse)
  | @signed c count _ sign some few =>
    have read : parseI64 (c :: zeros count) = Option.some 0 := by
      rcases sign with rfl | rfl
      · exact parseI64_eq_zero.mpr ⟨count, some, .inr (.inl rfl)⟩
      · exact parseI64_eq_zero.mpr ⟨count, some, .inr (.inr rfl)⟩
    obtain ⟨⟨whole, frac, dotted, -⟩, -⟩ := (agree 0).mp
      (.inr ⟨rfl, by rw [List.length_cons, length_zeros]; exact few, read⟩)
    have plain := dotted.chars c List.mem_cons_self
    rcases sign with rfl | rfl
    · exact absurd plain (by decide)
    · exact absurd plain (by decide)
  | @pointed count more _ few some =>
    have dotted : Dotted (zeros count ++ '.' :: zeros more) (zeros count) (zeros more) :=
      ⟨allDigits_zeros count, allDigits_zeros more, .inr rfl⟩
    have digits : zeros count ++ zeros more ≠ [] := by
      refine List.ne_nil_of_length_pos ?_
      rw [List.length_append, length_zeros, length_zeros]
      exact some
    have value : unscaled (zeros count) (zeros more) =
        0 * 10 ^ ((zeros more).length + denom.precision.toNat) := by
      rw [unscaled, textNumber_append, textNumber_zeros, textNumber_zeros, Nat.zero_mul, Nat.zero_mul]
    rcases (agree 0).mpr ⟨⟨_, _, dotted, digits, value⟩, by decide⟩ with
      ⟨high, nonempty, highDigits, -, -, shape⟩ | ⟨-, -, read⟩
    · have stem := AllDigits.append.mpr ⟨highDigits, allDigits_zeros denom.precision.toNat⟩
      have same : zeros count = high ++ zeros denom.precision.toNat := by
        rcases shape with plain | ⟨rest, pointed⟩
        · exact (dotted.unique ⟨stem, allDigits_nil, .inl ⟨plain, rfl⟩⟩).1
        · exact (dotted.unique ⟨stem, allDigits_zeros rest, .inr pointed⟩).1
      have length := congrArg List.length same
      rw [List.length_append, length_zeros, length_zeros] at length
      have longer := List.length_pos_iff.mpr nonempty
      omega
    · exact dot_not_mem_of_parseI64 read (List.mem_append_right _ List.mem_cons_self)

theorem ReadFine.denotes {denom : Denomination} (fine : 0 ≤ denom.precision) {text : Text}
    (proper : ¬ Misread denom text) {v : Nat} (read : ReadFine denom text v) :
    Denotes denom text v ∧ v < 2 ^ 64 := by
  rw [denotes_fine fine]
  rcases read with ⟨high, nonempty, highDigits, value, below, shape⟩ | ⟨rfl, short, read⟩
  · have stem := AllDigits.append.mpr ⟨highDigits, allDigits_zeros denom.precision.toNat⟩
    have number (more : Nat) : unscaled (high ++ zeros denom.precision.toNat) (zeros more) =
        v * 10 ^ ((zeros more).length + denom.precision.toNat) := by
      rw [unscaled, List.append_assoc, textNumber_append, textNumber_append, textNumber_zeros,
        textNumber_zeros, value, List.length_append, length_zeros, length_zeros, Nat.zero_mul,
          Nat.add_zero,
        Nat.add_comm more]
    have some (more : Nat) : (high ++ zeros denom.precision.toNat) ++ zeros more ≠ [] := by
      rw [List.append_assoc]
      exact List.append_ne_nil_of_left_ne_nil nonempty _
    rcases shape with plain | ⟨more, pointed⟩
    · exact ⟨⟨_, _, ⟨stem, allDigits_nil, .inl ⟨plain, rfl⟩⟩, some 0, number 0⟩, below⟩
    · exact ⟨⟨_, _, ⟨stem, allDigits_zeros more, .inr pointed⟩, some more, number more⟩, below⟩
  · obtain ⟨count, positive, rfl | rfl | rfl⟩ := parseI64_eq_zero.mp read
    · refine ⟨⟨zeros count, [], ⟨allDigits_zeros count, allDigits_nil, .inl ⟨rfl, rfl⟩⟩, ?_, ?_⟩,
        by decide⟩
      · refine List.ne_nil_of_length_pos ?_
        rw [List.append_nil, length_zeros]
        exact positive
      · rw [unscaled, List.append_nil, textNumber_zeros, Nat.zero_mul]
    · rw [List.length_cons, length_zeros] at short
      exact absurd (.signed fine (.inl rfl) positive short) proper
    · rw [List.length_cons, length_zeros] at short
      exact absurd (.signed fine (.inr rfl) positive short) proper

theorem readFine_of_denotes {denom : Denomination} (fine : 0 ≤ denom.precision) {text : Text}
    (proper : ¬ Misread denom text) {v : Nat} (denotes : Denotes denom text v) (below : v < 2 ^ 64) :
    ReadFine denom text v := by
  obtain ⟨whole, frac, dotted, digits, value⟩ := (denotes_fine fine).mp denotes
  obtain ⟨number, tail⟩ := whole_of_value dotted.fracDigits value
  rcases Nat.lt_or_ge denom.precision.toNat whole.length with longer | few
  · obtain ⟨high, rfl, same⟩ := ends_in_zeros dotted.wholeDigits longer.le number
    refine .inl ⟨high, ?_, (AllDigits.append.mp dotted.wholeDigits).1, same, below, ?_⟩
    · rw [List.length_append, length_zeros] at longer
      exact List.ne_nil_of_length_pos (by omega)
    · rcases dotted.shape with ⟨plain, -⟩ | pointed
      · exact .inl plain
      · exact .inr ⟨frac.length, by rw [← tail]; exact pointed⟩
  · -- fewer digits than there are places below a satoshi are zeros
    have small := (decimalRadix.textNumber_lt dotted.wholeDigits).trans_le
      (Nat.pow_le_pow_right (by decide) few)
    have least : v = 0 := by
      rw [number] at small
      exact Nat.lt_one_iff.mp (Nat.lt_of_mul_lt_mul_right (by rwa [Nat.one_mul]))
    subst least
    rw [Nat.zero_mul, textNumber_eq_zero dotted.wholeDigits] at number
    rw [Ne, List.append_eq_nil_iff, not_and_or] at digits
    rcases dotted.shape with ⟨rfl, rfl⟩ | rfl
    · have some := List.length_pos_iff.mpr (digits.resolve_right fun none => none rfl)
      exact .inr ⟨rfl, few, parseI64_eq_zero.mpr ⟨_, some, .inl number⟩⟩
    · refine absurd ?_ proper
      rw [number, tail]
      refine .pointed fine few ?_
      rcases digits with some | some
      · exact Nat.add_pos_left (List.length_pos_iff.mpr some) _
      · exact Nat.add_pos_right _ (List.length_pos_iff.mpr some)

/-- In satoshis and finer denominations, what is read and what should be. -/
theorem fine_iff {denom : Denomination} (fine : 0 ≤ denom.precision) (isNegative : Bool) (text : Text) :
    (∀ negative v, (parseUnsigned isNegative text denom).run = some (.ok (negative, v)) ↔
      negative = isNegative ∧ Denotes denom text v ∧ v < 2 ^ 64) ↔ ¬ Misread denom text := by
  have reads (negative : Bool) (v : Nat) :
      (parseUnsigned isNegative text denom).run = some (.ok (negative, v)) ↔
      negative = isNegative ∧ ReadFine denom text v := parseUnsigned_fine_iff fine
  simp only [reads]
  constructor
  · intro agree
    refine not_misread_of_fine fine fun v => ?_
    have own := agree isNegative v
    rwa [and_iff_right rfl, and_iff_right rfl] at own
  · intro proper negative v
    refine and_congr_right fun _ => ⟨ReadFine.denotes fine proper, ?_⟩
    rintro ⟨denotes, below⟩
    exact readFine_of_denotes fine proper denotes below

/-- The text behind the sign. -/
def unsignedPart (s : Text) : Text := if s.head? = some '-' then s.tail else s

theorem Denotes.ne_nil {denom : Denomination} {text : Text} {v : Nat} (denotes : Denotes denom text v) :
    text ≠ [] := by
  obtain ⟨whole, frac, dotted, digits, -⟩ := denotes
  rcases dotted.shape with ⟨rfl, rfl⟩ | rfl
  · rwa [List.append_nil] at digits
  · exact List.append_ne_nil_of_right_ne_nil _ (List.cons_ne_nil _ _)

/-- The sign of a numeral is its first character. -/
theorem numeral_iff_unsigned {denom : Denomination} {s : Text} {negative : Bool} {v : Nat} :
    Numeral denom s negative v ↔
      negative = (s.head? == some '-') ∧ Denotes denom (unsignedPart s) v ∧ v < 2 ^ 64 := by
  constructor
  · rintro ⟨text, rfl, denotes, below⟩
    cases negative with
    | true => exact ⟨rfl, denotes, below⟩
    | false =>
      have other : text.head? ≠ some '-' := by
        intro first
        obtain ⟨whole, frac, dotted, -⟩ := denotes
        exact absurd (dotted.chars '-' (List.mem_of_head? first)) (by decide)
      have same : unsignedPart ((if false then ['-'] else []) ++ text) = text := if_neg other
      exact ⟨(beq_eq_false_iff_ne.mpr other).symm, same.symm ▸ denotes, below⟩
  · rintro ⟨rfl, denotes, below⟩
    refine ⟨unsignedPart s, ?_, denotes, below⟩
    cases s with
    | nil => rfl
    | cons c rest =>
      by_cases minus : c = '-'
      · subst minus
        rfl
      · have other : (c :: rest).head? ≠ some '-' := fun same => minus (Option.some.inj same)
        rw [unsignedPart, if_neg other, beq_eq_false_iff_ne.mpr other]
        rfl

/-- A text is read as the numeral it is, or refused when it is none. -/
def ReadExactly (denom : Denomination) (s : Text) : Prop :=
  (parseSignedToSatoshi s denom).run ≠ none ∧ ∀ negative v,
    (parseSignedToSatoshi s denom).run = some (.ok (negative, v)) ↔ Numeral denom s negative v

theorem parseSignedToSatoshi_eq {s : Text} (short : byteLen s ≤ 50) (digits : unsignedPart s ≠ [])
    (denom : Denomination) :
    parseSignedToSatoshi s denom = parseUnsigned (s.head? == some '-') (unsignedPart s) denom := by
  cases s with
  | nil => exact absurd rfl digits
  | cons c rest =>
    rw [parseSignedToSatoshi, if_neg (List.cons_ne_nil c rest), if_neg (not_lt.mpr short)]
    dsimp only
    by_cases minus : c = '-'
    · subst minus
      have more : byteLen ('-' :: rest) ≠ 1 := by
        intro one
        rw [byteLen_cons] at one
        have none : byteLen rest = 0 := by
          have dash : '-'.utf8Size = 1 := by decide
          omega
        exact digits (byteLen_eq_zero.mp none)
      rw [if_neg fun only => more only.2]
      rfl
    · have other : (c :: rest).head? ≠ some '-' := fun same => minus (Option.some.inj same)
      rw [beq_eq_false_iff_ne.mpr other, unsignedPart, if_neg other, if_neg (by simp), if_neg (by simp)]

theorem parseSignedToSatoshi_no_digits {s : Text} (none : unsignedPart s = []) (denom : Denomination) :
    ∃ e, (parseSignedToSatoshi s denom).run = some (.error e) := by
  rw [unsignedPart] at none
  split_ifs at none with minus
  · cases s with
    | nil => contradiction
    | cons c rest =>
      obtain rfl := Option.some.inj minus
      obtain rfl : rest = [] := none
      exact ⟨_, rfl⟩
  · subst none
    exact ⟨_, rfl⟩

/-- The amount parser reads decimal numerals and nothing else, but for four kinds of texts. -/
theorem parse_numerals_iff (s : Text) (denom : Denomination) (short : byteLen s ≤ 50) :
    ReadExactly denom s ↔ ¬ Misread denom (unsignedPart s) := by
  simp only [ReadExactly, numeral_iff_unsigned]
  by_cases digits : unsignedPart s = []
  · obtain ⟨e, failed⟩ := parseSignedToSatoshi_no_digits digits denom
    rw [failed, digits]
    refine iff_of_true ⟨Option.some_ne_none _, fun negative v => iff_of_false (by simp) ?_⟩ ?_
    · intro accepted
      exact accepted.2.1.ne_nil rfl
    · generalize empty : ([] : Text) = text
      intro misread
      cases misread <;> simp at empty
  · rw [parseSignedToSatoshi_eq short digits, and_iff_right (parseUnsigned_returns _ _ _)]
    rcases lt_or_ge denom.precision 0 with coarse | fine
    · exact coarse_iff coarse _ digits
    · exact fine_iff fine _ _

/-- Half a bitcoin. -/
theorem half_read_exactly : byteLen ['0', '.', '5'] ≤ 50 ∧ ReadExactly .bitcoin ['0', '.', '5'] := by
  refine ⟨by decide, (parse_numerals_iff ['0', '.', '5'] .bitcoin (by decide)).mpr fun misread => ?_⟩
  generalize same : unsignedPart ['0', '.', '5'] = text at misread
  cases misread with
  | dot _ => exact absurd same (by decide)
  | padded _ whole frac _ _ full _ _ =>
    have length := congrArg List.length same
    rw [List.length_append, List.length_cons, List.length_append, full] at length
    have few : (unsignedPart ['0', '.', '5']).length = 3 := by decide
    have eight : (-Denomination.bitcoin.precision).toNat = 8 := rfl
    omega
  | signed fine _ _ _ => exact absurd fine (by decide)
  | pointed fine _ _ => exact absurd fine (by decide)

/-- A dot alone, in bitcoins. -/
theorem lone_dot_accepted : ¬ ∀ (s : Text) (denom : Denomination), byteLen s ≤ 50 →
    ReadExactly denom s := by
  intro all
  have read : (parseSignedToSatoshi ['.'] .bitcoin).run = some (.ok (false, 0)) := by decide
  obtain ⟨text, same, ⟨whole, frac, dotted, digits, -⟩, -⟩ :=
    ((all ['.'] .bitcoin (by decide)).2 false 0).mp read
  obtain rfl : ['.'] = text := same
  obtain ⟨rfl, rfl⟩ := dotted.unique ⟨allDigits_nil, allDigits_nil, .inr rfl⟩
  exact digits rfl

end Litecoin.Units
