import Litecoin.Wire.Digits

/-! Decimal text. -/
namespace Litecoin.Wire

/-- The character of a digit. -/
def digitChar (d : Nat) : Char := Char.ofNat (48 + d)

/-- The value of a character, where it is a digit. -/
def charDigit (c : Char) : Option Nat := if '0' ≤ c ∧ c ≤ '9' then some (c.toNat - 48) else none

/-- The digits of a number, of which there is at least one. -/
def decimalDigits (n : Nat) : List Nat := if n = 0 then [0] else (Nat.digits 10 n).reverse

/-- A number as it is printed. -/
def decimal (n : Nat) : List Char := (decimalDigits n).map digitChar

/-- A string of digits of a fixed width. -/
def paddedDigits (width n : Nat) : List Nat :=
  List.replicate (width - (Nat.digits 10 n).length) 0 ++ (Nat.digits 10 n).reverse

theorem digitChar_facts : ∀ d < 10, charDigit (digitChar d) = some d ∧ (digitChar d).utf8Size = 1 ∧
    digitChar d ≠ '.' ∧ digitChar d ≠ '-' ∧ digitChar d ≠ ' ' := by
  decide

/-- A list of digits. -/
def Digits (digits : List Nat) : Prop := ∀ d ∈ digits, d < 10

theorem Digits.append {high low : List Nat} (one : Digits high) (two : Digits low) : Digits (high ++ low) :=
  fun d member => (List.mem_append.mp member).elim (one d) (two d)

theorem Digits.zeros (count : Nat) : Digits (List.replicate count 0) := by
  intro d member
  rw [List.eq_of_mem_replicate member]
  decide

theorem Digits.digits (n : Nat) : Digits (Nat.digits 10 n).reverse :=
  fun _ member => Nat.digits_lt_base (by decide) (List.mem_reverse.mp member)

theorem Digits.decimal (n : Nat) : Digits (decimalDigits n) := by
  unfold decimalDigits
  split
  · exact Digits.zeros 1
  · exact Digits.digits n

theorem decimalDigits_ne_nil (n : Nat) : decimalDigits n ≠ [] := by
  unfold decimalDigits
  split
  · nofun
  · next nonzero =>
    rw [Ne, List.reverse_eq_nil_iff]
    exact Nat.digits_ne_nil_iff_ne_zero.mpr nonzero

theorem bigEndian_decimalDigits (n : Nat) : bigEndian 10 (decimalDigits n) = n := by
  unfold decimalDigits
  split
  · next zero => rw [zero]; rfl
  · exact bigEndian_digits 10 n

/-- The last digit, and the number without it. -/
theorem decimalDigits_concat {n : Nat} (large : 10 ≤ n) :
    decimalDigits n = decimalDigits (n / 10) ++ [n % 10] := by
  rw [decimalDigits, decimalDigits, if_neg (by omega), if_neg (by omega),
    Nat.digits_def' (by decide) (by omega), List.reverse_cons]

theorem decimalDigits_of_lt {n : Nat} (small : n < 10) : decimalDigits n = [n] := by
  rw [decimalDigits]
  split
  · next zero => rw [zero]
  · next nonzero => rw [Nat.digits_of_lt 10 n nonzero small, List.reverse_singleton]

/-- A text of digits that denotes a number and starts with a zero only for zero itself. -/
structure Numeral (text : List Char) (digits : List Nat) (n : Nat) : Prop where
  text : text = digits.map digitChar
  bounded : Digits digits
  unpadded : digits = [0] ∨ ∃ first rest, digits = first :: rest ∧ first ≠ 0
  value : bigEndian 10 digits = n

/-- The digits of a number in which no zero leads. -/
theorem digits_of_unpadded {first : Nat} {rest : List Nat} (bounded : Digits (first :: rest))
    (nonzero : first ≠ 0) :
    decimalDigits (bigEndian 10 (first :: rest)) = first :: rest := by
  have whole := dropWhile_eq_digits (by decide : 1 < 10) bounded
  rw [List.dropWhile_cons_of_neg (by simp [nonzero])] at whole
  have positive : bigEndian 10 (first :: rest) ≠ 0 := by
    intro zero
    rw [zero] at whole
    contradiction
  rw [decimalDigits, if_neg positive]
  exact whole.symm

theorem decimalDigits_unpadded (n : Nat) :
    decimalDigits n = [0] ∨ ∃ first rest, decimalDigits n = first :: rest ∧ first ≠ 0 := by
  by_cases zero : n = 0
  · exact .inl (by rw [zero]; rfl)
  · refine .inr ?_
    have kept := dropWhile_digits_reverse 10 n
    rw [decimalDigits, if_neg zero]
    cases shape : (Nat.digits 10 n).reverse with
    | nil =>
      rw [List.reverse_eq_nil_iff, Nat.digits_eq_nil_iff_eq_zero] at shape
      exact absurd shape zero
    | cons first rest =>
      refine ⟨first, rest, rfl, ?_⟩
      rintro rfl
      rw [shape, List.dropWhile_cons_of_pos (by rfl)] at kept
      have shorter := (List.dropWhile_sublist (· == 0) (l := rest)).length_le
      rw [kept, List.length_cons] at shorter
      omega

/-- Every number has one numeral. -/
theorem numeral_iff {text : List Char} {n : Nat} :
    (∃ digits, Numeral text digits n) ↔ text = decimal n := by
  constructor
  · rintro ⟨digits, rfl, bounded, unpadded, rfl⟩
    rcases unpadded with rfl | ⟨first, rest, rfl, nonzero⟩
    · rfl
    · rw [decimal, digits_of_unpadded bounded nonzero]
  · rintro rfl
    exact ⟨decimalDigits n, rfl, .decimal n, decimalDigits_unpadded n, bigEndian_decimalDigits n⟩

theorem length_decimalDigits_le {n width : Nat} (fits : n < 10 ^ width) (some : 0 < width) :
    (decimalDigits n).length ≤ width := by
  unfold decimalDigits
  split
  · exact some
  · rw [List.length_reverse]
    exact (Nat.digits_length_le_iff (by decide) n).mpr fits

theorem paddedDigits_spec {width n : Nat} (fits : n < 10 ^ width) :
    (paddedDigits width n).length = width ∧ Digits (paddedDigits width n) ∧
      bigEndian 10 (paddedDigits width n) = n := by
  have short := (Nat.digits_length_le_iff (by decide) n).mpr fits
  refine ⟨?_, (Digits.zeros _).append (Digits.digits n), ?_⟩
  · rw [paddedDigits, List.length_append, List.length_replicate, List.length_reverse]
    omega
  · rw [paddedDigits, bigEndian_append, bigEndian_zeros, bigEndian_digits, Nat.zero_mul, Nat.zero_add]

end Litecoin.Wire
