import Litecoin.Wire.Decimal

/-! Text of digits in a radix: hexadecimal, decimal and any other that ASCII characters
spell. -/
namespace Litecoin.Wire

/-- `char::to_digit(16)`. -/
def charHexDigit (c : Char) : Option Nat :=
  if '0' ≤ c ∧ c ≤ '9' then some (c.toNat - 48)
  else if 'a' ≤ c ∧ c ≤ 'f' then some (c.toNat - 87)
  else if 'A' ≤ c ∧ c ≤ 'F' then some (c.toNat - 55)
  else none

/-- The lower-case character of a digit. -/
def hexDigitChar (d : Nat) : Char := if d < 10 then Char.ofNat (48 + d) else Char.ofNat (87 + d)

/-- Characters that spell digits of a radix, each a single byte. -/
structure Radix (digit : Char → Option Nat) (radix : Nat) : Prop where
  large : 1 < radix
  lt : ∀ {c : Char} {d : Nat}, digit c = some d → d < radix
  utf8Size : ∀ {c : Char} {d : Nat}, digit c = some d → c.utf8Size = 1
  zero : ∀ {c : Char}, digit c = some 0 ↔ c = '0'
  plus : digit '+' = none
  minus : digit '-' = none

theorem le_char_iff (first c : Char) : first ≤ c ↔ first.toNat ≤ c.toNat := by
  rw [Char.le_def, UInt32.le_iff_toNat_le]
  rfl

theorem utf8Size_of_le {c : Char} (small : c.toNat ≤ 127) : c.utf8Size = 1 := by
  rw [Char.utf8Size_eq_one_iff, UInt32.le_iff_toNat_le]
  exact small

theorem charHexDigit_eq_some {c : Char} {d : Nat} : charHexDigit c = some d ↔
    (48 ≤ c.toNat ∧ c.toNat ≤ 57 ∧ d = c.toNat - 48) ∨ (97 ≤ c.toNat ∧ c.toNat ≤ 102 ∧ d = c.toNat - 87) ∨
      (65 ≤ c.toNat ∧ c.toNat ≤ 70 ∧ d = c.toNat - 55) := by
  simp only [charHexDigit, le_char_iff, Char.reduceToNat]
  split_ifs <;> simp only [Option.some.injEq, false_iff] <;> omega

theorem charDigit_eq_some {c : Char} {d : Nat} :
    charDigit c = some d ↔ 48 ≤ c.toNat ∧ c.toNat ≤ 57 ∧ d = c.toNat - 48 := by
  simp only [charDigit, le_char_iff, Char.reduceToNat]
  split_ifs <;> simp only [Option.some.injEq, false_iff] <;> omega

theorem toNat_zero_char {c : Char} : c = '0' ↔ c.toNat = 48 := by
  rw [← Char.toNat_inj]
  rfl

theorem hexadecimal : Radix charHexDigit 16 where
  large := by decide
  lt read := by
    rw [charHexDigit_eq_some] at read
    omega
  utf8Size read := by
    rw [charHexDigit_eq_some] at read
    exact utf8Size_of_le (by omega)
  zero := by
    intro c
    rw [charHexDigit_eq_some, toNat_zero_char]
    omega
  plus := by decide
  minus := by decide

theorem decimalRadix : Radix charDigit 10 where
  large := by decide
  lt read := by
    rw [charDigit_eq_some] at read
    omega
  utf8Size read := by
    rw [charDigit_eq_some] at read
    exact utf8Size_of_le (by omega)
  zero := by
    intro c
    rw [charDigit_eq_some, toNat_zero_char]
    omega
  plus := by decide
  minus := by decide

theorem charHexDigit_hexDigitChar : ∀ d < 16, charHexDigit (hexDigitChar d) = some d := by
  decide

/-- A text of digits only. -/
def AllDigits (digit : Char → Option Nat) (text : List Char) : Prop := ∀ c ∈ text, (digit c).isSome

/-- The number that a text of digits denotes. -/
def textNumber (digit : Char → Option Nat) (radix : Nat) (text : List Char) : Nat :=
  bigEndian radix (text.map fun c => (digit c).getD 0)

/-- A numeral, with or without leading zeros. -/
structure Spells (digit : Char → Option Nat) (radix : Nat) (text : List Char) (n : Nat) : Prop where
  nonempty : text ≠ []
  digits : AllDigits digit text
  value : textNumber digit radix text = n

section
variable {digit : Char → Option Nat} {radix : Nat} {text high low : List Char}

theorem AllDigits.append : AllDigits digit (high ++ low) ↔ AllDigits digit high ∧ AllDigits digit low :=
  List.forall_mem_append

theorem AllDigits.cons {c : Char} :
    AllDigits digit (c :: text) ↔ (∃ d, digit c = some d) ∧ AllDigits digit text := by
  rw [AllDigits, List.forall_mem_cons, Option.isSome_iff_exists]
  rfl

theorem textNumber_append (high low : List Char) : textNumber digit radix (high ++ low) =
    textNumber digit radix high * radix ^ low.length + textNumber digit radix low := by
  rw [textNumber, List.map_append, bigEndian_append, List.length_map]
  rfl

theorem textNumber_cons {c : Char} {d : Nat} (read : digit c = some d) (text : List Char) :
    textNumber digit radix (c :: text) = d * radix ^ text.length + textNumber digit radix text := by
  rw [textNumber, List.map_cons, bigEndian_cons, List.length_map, read]
  rfl

namespace Radix

theorem digits_lt (radixed : Radix digit radix) (digits : AllDigits digit text) :
    ∀ d ∈ text.map fun c => (digit c).getD 0, d < radix := by
  intro d member
  obtain ⟨c, listed, rfl⟩ := List.mem_map.mp member
  obtain ⟨d, read⟩ := Option.isSome_iff_exists.mp (digits c listed)
  rw [read]
  exact radixed.lt read

theorem textNumber_lt (radixed : Radix digit radix) (digits : AllDigits digit text) :
    textNumber digit radix text < radix ^ text.length := by
  have below := bigEndian_lt radixed.large (radixed.digits_lt digits)
  rwa [List.length_map] at below

/-- Digits are single bytes. -/
theorem sum_utf8Size (radixed : Radix digit radix) (digits : AllDigits digit text) :
    (text.map Char.utf8Size).sum = text.length := by
  induction text with
  | nil => rfl
  | cons c rest ih =>
    obtain ⟨⟨d, read⟩, digits⟩ := AllDigits.cons.mp digits
    rw [List.map_cons, List.sum_cons, ih digits, radixed.utf8Size read, List.length_cons, Nat.add_comm]

theorem map_dropWhile (radixed : Radix digit radix) (digits : AllDigits digit text) :
    (text.dropWhile (· == '0')).map (fun c => (digit c).getD 0) =
      (text.map fun c => (digit c).getD 0).dropWhile (· == 0) := by
  induction text with
  | nil => rfl
  | cons c rest ih =>
    obtain ⟨⟨d, read⟩, others⟩ := AllDigits.cons.mp digits
    rw [List.map_cons, read, Option.getD_some]
    by_cases zero : d = 0
    · subst zero
      obtain rfl := radixed.zero.mp read
      rw [List.dropWhile_cons_of_pos (by rfl), List.dropWhile_cons_of_pos (by rfl), ih others]
    · have other : c ≠ '0' := by
        rintro rfl
        exact zero (Option.some.inj (read.symm.trans (radixed.zero.mpr rfl)))
      rw [List.dropWhile_cons_of_neg (by simp [other]), List.dropWhile_cons_of_neg (by simp [zero]),
        List.map_cons, read, Option.getD_some]

/-- The length without leading zeros bounds the number. -/
theorem length_le_iff (radixed : Radix digit radix) {n width : Nat} (spells : Spells digit radix text n) :
    (text.dropWhile (· == '0')).length ≤ width ↔ n < radix ^ width := by
  obtain ⟨-, digits, rfl⟩ := spells
  have shape := dropWhile_eq_digits radixed.large (radixed.digits_lt digits)
  rw [← List.length_map (f := fun c => (digit c).getD 0), radixed.map_dropWhile digits, shape,
    List.length_reverse]
  exact Nat.digits_length_le_iff radixed.large _

end Radix
end

/-- A decimal numeral spells its number. -/
theorem spells_decimal (n : Nat) : Spells charDigit 10 (decimal n) n := by
  have bounded := Digits.decimal n
  refine ⟨?_, ?_, ?_⟩
  · rw [decimal, Ne, List.map_eq_nil_iff]
    exact decimalDigits_ne_nil n
  · intro c listed
    obtain ⟨d, member, rfl⟩ := List.mem_map.mp listed
    rw [(digitChar_facts d (bounded d member)).1]
    rfl
  · have digits : (decimal n).map (fun c => (charDigit c).getD 0) = decimalDigits n := by
      rw [decimal, List.map_map]
      refine (List.map_congr_left fun d member => ?_).trans (List.map_id _)
      rw [Function.comp_apply, (digitChar_facts d (bounded d member)).1]
      rfl
    rw [textNumber, digits, bigEndian_decimalDigits]

end Litecoin.Wire
