import Mathlib.Data.List.TakeWhile
import Mathlib.Data.Nat.Digits.Lemmas

/-! Big numbers in positional notation: a loop that carries through the digits, and strings of
digits with leading zeros as pairs of a count and a number. -/
namespace Litecoin.Wire

/-- A loop that rewrites every element in place while it carries a state along. -/
def passThrough (step : σ → α → α × σ) : σ → List α → List α × σ
  | carry, [] => ([], carry)
  | carry, a :: rest =>
    let (written, carry) := step carry a
    let (others, carry) := passThrough step carry rest
    (written :: others, carry)

section PassThrough
variable {step : σ → α → α × σ}

@[simp] theorem length_passThrough (carry : σ) (digits : List α) :
    (passThrough step carry digits).1.length = digits.length := by
  induction digits generalizing carry with
  | nil => rfl
  | cons a rest ih => simp only [passThrough, List.length_cons, ih]

/-- Two loops one after the other are one loop over both lists. -/
theorem passThrough_append (carry : σ) (first second : List α) :
    passThrough step carry (first ++ second) =
      ((passThrough step carry first).1 ++
        (passThrough step (passThrough step carry first).2 second).1,
        (passThrough step (passThrough step carry first).2 second).2) := by
  induction first generalizing carry with
  | nil => rfl
  | cons a rest ih => simp only [List.cons_append, passThrough, ih]

end PassThrough

/-- One digit of "multiply by a factor and add a carry" in a base. -/
def Multiplies (base factor : Nat) (digit : α → Nat) (step : Nat → α → α × Nat) : Prop :=
  ∀ carry a, digit (step carry a).1 = (digit a * factor + carry) % base ∧
    (step carry a).2 = (digit a * factor + carry) / base

/-- The whole number is multiplied; what does not fit is the carry that is left. -/
theorem Multiplies.value {digit : α → Nat} {step : Nat → α → α × Nat}
    (multiplies : Multiplies base factor digit step) (carry : Nat) (digits : List α) :
    Nat.ofDigits base ((passThrough step carry digits).1.map digit) +
        base ^ digits.length * (passThrough step carry digits).2 =
      Nat.ofDigits base (digits.map digit) * factor + carry := by
  induction digits generalizing carry with
  | nil => simp [passThrough]
  | cons a rest ih =>
    obtain ⟨written, carried⟩ := multiplies carry a
    have tail := ih (step carry a).2
    have whole := Nat.mod_add_div (digit a * factor + carry) base
    simp only [passThrough, List.map_cons, Nat.ofDigits_cons, List.length_cons, written]
    calc (digit a * factor + carry) % base +
            base * Nat.ofDigits base ((passThrough step (step carry a).2 rest).1.map digit) +
          base ^ (rest.length + 1) * (passThrough step (step carry a).2 rest).2
        = (digit a * factor + carry) % base +
            base * (Nat.ofDigits base ((passThrough step (step carry a).2 rest).1.map digit) +
              base ^ rest.length * (passThrough step (step carry a).2 rest).2) := by ring
      _ = (digit a * factor + carry) % base + base * ((digit a * factor + carry) / base) +
            base * Nat.ofDigits base (rest.map digit) * factor := by rw [tail, carried]; ring
      _ = (digit a + base * Nat.ofDigits base (rest.map digit)) * factor + carry := by
        rw [whole]; ring

theorem Multiplies.digit_lt {digit : α → Nat} {step : Nat → α → α × Nat}
    (multiplies : Multiplies base factor digit step) (positive : 0 < base) (carry : Nat)
    (digits : List α) : ∀ a ∈ (passThrough step carry digits).1, digit a < base := by
  induction digits generalizing carry with
  | nil => nofun
  | cons a rest ih =>
    intro written member
    rcases List.mem_cons.mp member with rfl | later
    · rw [(multiplies carry a).1]
      exact Nat.mod_lt _ positive
    · exact ih _ written later

/-- The digits of a number from those of its low part and those of the carry above them, when
the low part alone is not padded with zeros. -/
theorem digits_append_carry (large : 1 < base) {low : List Nat} {carry n : Nat}
    (bounded : ∀ d ∈ low, d < base)
    (value : Nat.ofDigits base low + base ^ low.length * carry = n)
    (filled : low ≠ [] → base ^ low.length ≤ base * n) :
    low ++ Nat.digits base carry = Nat.digits base n := by
  have total : Nat.ofDigits base (low ++ Nat.digits base carry) = n := by
    rw [Nat.ofDigits_append, Nat.ofDigits_digits, value]
  rw [← total, Nat.digits_ofDigits base large]
  · intro d member
    rcases List.mem_append.mp member with inside | above
    · exact bounded d inside
    · exact Nat.digits_lt_base large above
  · intro some
    by_cases zero : carry = 0
    · subst zero
      simp only [Nat.digits_zero, List.append_nil] at some ⊢
      intro top
      -- With a zero on top the number has one digit less than the list.
      have shape := List.dropLast_append_getLast some
      rw [top] at shape
      have short : Nat.ofDigits base low.dropLast = n := by
        rw [← value, ← shape, Nat.ofDigits_append, Nat.ofDigits_singleton]
        simp
      have below := Nat.ofDigits_lt_base_pow_length large
        fun d member => bounded d (List.dropLast_subset low member)
      rw [short, List.length_dropLast] at below
      have wide := filled some
      have length : low.length = (low.length - 1) + 1 := by
        have := List.length_pos_iff.mpr some
        omega
      rw [length, Nat.pow_succ', Nat.mul_le_mul_left_iff (Nat.zero_lt_of_lt large)] at wide
      omega
    · rw [List.getLast_append_of_ne_nil _ (Nat.digits_ne_nil_iff_ne_zero.mpr zero)]
      exact Nat.getLast_digit_ne_zero base zero

/-- The number a string of digits denotes, most significant digit first. -/
def bigEndian (base : Nat) (digits : List Nat) : Nat := Nat.ofDigits base digits.reverse

theorem bigEndian_concat (base : Nat) (digits : List Nat) (last : Nat) :
    bigEndian base (digits ++ [last]) = bigEndian base digits * base + last := by
  rw [bigEndian, List.reverse_append, List.reverse_singleton, List.singleton_append,
    Nat.ofDigits_cons, bigEndian]
  ring

theorem bigEndian_cons (base first : Nat) (digits : List Nat) :
    bigEndian base (first :: digits) = first * base ^ digits.length + bigEndian base digits := by
  rw [bigEndian, List.reverse_cons, Nat.ofDigits_append, Nat.ofDigits_singleton,
    List.length_reverse, bigEndian]
  ring

theorem bigEndian_append (base : Nat) (high low : List Nat) :
    bigEndian base (high ++ low) = bigEndian base high * base ^ low.length + bigEndian base low := by
  induction high with
  | nil => simp [bigEndian]
  | cons d rest ih =>
    rw [List.cons_append, bigEndian_cons, ih, bigEndian_cons, List.length_append, Nat.pow_add]
    ring

theorem bigEndian_zeros (base count : Nat) : bigEndian base (List.replicate count 0) = 0 := by
  rw [bigEndian, List.reverse_replicate]
  exact Nat.ofDigits_replicate_zero

theorem bigEndian_digits (base n : Nat) : bigEndian base (Nat.digits base n).reverse = n := by
  rw [bigEndian, List.reverse_reverse, Nat.ofDigits_digits]

theorem bigEndian_lt (large : 1 < base) {digits : List Nat} (bounded : ∀ d ∈ digits, d < base) :
    bigEndian base digits < base ^ digits.length := by
  have below := Nat.ofDigits_lt_base_pow_length large
    (fun d member => bounded d (List.mem_reverse.mp member))
  rwa [List.length_reverse] at below

/-- How many zeros a string of digits starts with. -/
def leadingZeros (digits : List Nat) : Nat := (digits.takeWhile (· == 0)).length

theorem leadingZeros_concat (digits : List Nat) (last : Nat) :
    leadingZeros (digits ++ [last]) =
      leadingZeros digits + if digits.all (· == 0) && last == 0 then 1 else 0 := by
  induction digits with
  | nil => by_cases zero : last = 0 <;> simp [leadingZeros, zero]
  | cons d rest ih =>
    by_cases zero : d = 0
    · simp only [leadingZeros] at ih
      simp only [leadingZeros, List.cons_append, List.takeWhile_cons, List.all_cons, zero, beq_self_eq_true,
        if_true, List.length_cons, ih, Bool.true_and]
      omega
    · simp [leadingZeros, zero]

/-- The string of digits with so many leading zeros before a number. -/
def expand (base zeros n : Nat) : List Nat :=
  List.replicate zeros 0 ++ (Nat.digits base n).reverse

theorem bigEndian_expand (base zeros n : Nat) : bigEndian base (expand base zeros n) = n := by
  rw [bigEndian, expand, List.reverse_append, List.reverse_reverse, List.reverse_replicate,
    Nat.ofDigits_append_replicate_zero, Nat.ofDigits_digits]

/-- The most significant digit of a number is not zero. -/
theorem dropWhile_digits_reverse (base n : Nat) :
    (Nat.digits base n).reverse.dropWhile (· == 0) = (Nat.digits base n).reverse := by
  by_cases zero : n = 0
  · simp [zero]
  · have positive : Nat.digits base n ≠ [] := Nat.digits_ne_nil_iff_ne_zero.mpr zero
    have top := Nat.getLast_digit_ne_zero base zero
    obtain ⟨lower, highest, shape⟩ := (List.eq_nil_or_concat _).resolve_left positive
    simp only [shape, List.concat_eq_append, List.getLast_append_singleton] at top
    rw [shape, List.concat_eq_append, List.reverse_append]
    simp [top]

theorem leadingZeros_expand (base zeros n : Nat) : leadingZeros (expand base zeros n) = zeros := by
  have none : (Nat.digits base n).reverse.takeWhile (· == 0) = [] := by
    have split := List.takeWhile_append_dropWhile (p := (· == 0)) (l := (Nat.digits base n).reverse)
    rw [dropWhile_digits_reverse] at split
    exact List.append_left_eq_self.mp split
  rw [leadingZeros, expand, List.takeWhile_append_of_pos (by simp), none]
  simp

/-- Without its leading zeros a string of digits is the number it denotes. -/
theorem dropWhile_eq_digits (large : 1 < base) {digits : List Nat} (bounded : ∀ d ∈ digits, d < base) :
    digits.dropWhile (· == 0) = (Nat.digits base (bigEndian base digits)).reverse := by
  induction digits with
  | nil => simp [bigEndian]
  | cons d rest ih =>
    by_cases zero : d = 0
    · subst zero
      have same : bigEndian base (0 :: rest) = bigEndian base rest := by
        rw [bigEndian, List.reverse_cons, Nat.ofDigits_append, Nat.ofDigits_singleton]
        simp [bigEndian]
      rw [same, ← ih fun d member => bounded d (List.mem_cons_of_mem 0 member)]
      simp
    · rw [List.dropWhile_cons_of_neg (by simp [zero]), bigEndian, Nat.digits_ofDigits base large,
        List.reverse_reverse]
      · intro e member
        exact bounded e (List.mem_reverse.mp member)
      · intro filled
        simp only [List.getLast_reverse, List.head_cons]
        exact zero

/-- A string of digits is its leading zeros and its number. -/
theorem expand_eq (large : 1 < base) {digits : List Nat} (bounded : ∀ d ∈ digits, d < base) :
    expand base (leadingZeros digits) (bigEndian base digits) = digits := by
  have zeros : digits.takeWhile (· == 0) = List.replicate (leadingZeros digits) 0 := by
    apply List.eq_replicate_of_mem
    intro d member
    have zero := List.mem_takeWhile_imp member
    exact beq_iff_eq.mp zero
  rw [expand, ← zeros, ← dropWhile_eq_digits large bounded, List.takeWhile_append_dropWhile]

theorem expand_bounded (large : 1 < base) (zeros n : Nat) : ∀ d ∈ expand base zeros n, d < base := by
  intro d member
  rcases List.mem_append.mp member with padding | digit
  · rw [List.eq_of_mem_replicate padding]
    exact Nat.lt_of_succ_lt large
  · exact Nat.digits_lt_base large (List.mem_reverse.mp digit)

end Litecoin.Wire
