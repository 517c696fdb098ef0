import Litecoin.Wire.Bits

/-! Any string of bits read as Golomb-Rice codes, in exact numbers: what each code stands
for, and the totals that successive codes add up to. -/
namespace Litecoin.Wire

/-- The number that bits spell, most significant first. -/
def numberOf : List Bool → Nat
  | [] => 0
  | bit :: rest => bit.toNat * 2 ^ rest.length + numberOf rest

theorem numberOf_lt (bits : List Bool) : numberOf bits < 2 ^ bits.length := by
  induction bits with
  | nil => exact Nat.one_pos
  | cons bit rest ih =>
    have most := Nat.mul_le_mul_right (2 ^ rest.length) (Bool.toNat_le bit)
    rw [numberOf, List.length_cons, Nat.pow_succ]
    omega

theorem bitsOf_numberOf (bits : List Bool) : bitsOf (numberOf bits) bits.length = bits := by
  induction bits with
  | nil => rfl
  | cons bit rest ih =>
    have whole := bitsOf_mul_add bit.toNat 1 (numberOf_lt rest)
    have single : bitsOf bit.toNat 1 = [bit] := by
      cases bit with
      | false => rfl
      | true => rfl
    rw [ih, single, Nat.add_comm 1] at whole
    exact whole

/-- Bits are some ones, and then a zero or the end. -/
theorem ones_split (bits : List Bool) :
    (∃ ones rest, bits = List.replicate ones true ++ false :: rest) ∨
      ∃ ones, bits = List.replicate ones true := by
  induction bits with
  | nil => exact .inr ⟨0, rfl⟩
  | cons bit rest ih =>
    cases bit with
    | false => exact .inl ⟨0, rest, rfl⟩
    | true =>
      rcases ih with ⟨ones, rest, rfl⟩ | ⟨ones, rfl⟩
      · exact .inl ⟨ones + 1, rest, rfl⟩
      · exact .inr ⟨ones + 1, rfl⟩

/-- How many ones bits start with. -/
def leadingOnes : List Bool → Nat
  | true :: rest => leadingOnes rest + 1
  | _ => 0

@[simp] theorem leadingOnes_code (ones : Nat) (rest : List Bool) :
    leadingOnes (List.replicate ones true ++ false :: rest) = ones := by
  induction ones with
  | zero => rfl
  | succ ones ih => exact congrArg (· + 1) ih

@[simp] theorem leadingOnes_replicate (ones : Nat) :
    leadingOnes (List.replicate ones true) = ones := by
  induction ones with
  | zero => rfl
  | succ ones ih => exact congrArg (· + 1) ih

/-- The number of the first code, and the bits after it. Where the bits end before the code
does, how far its quotient was counted. -/
def riceDecode (width : Nat) (bits : List Bool) : Except Nat (Nat × List Bool) :=
  let ones := leadingOnes bits
  let low := bits.drop (ones + 1)
  if ones < bits.length ∧ width ≤ low.length then
    .ok (ones * 2 ^ width + numberOf (low.take width), low.drop width)
  else .error ones

/-- A whole code is read back, and any bits that hold a whole code start with it. -/
theorem riceDecode_eq_ok {width n : Nat} {bits rest : List Bool} :
    riceDecode width bits = .ok (n, rest) ↔ bits = riceCode width n ++ rest := by
  constructor
  · intro read
    rw [riceDecode] at read
    rcases ones_split bits with ⟨ones, after, rfl⟩ | ⟨ones, rfl⟩
    · have low : (List.replicate ones true ++ false :: after).drop (ones + 1) = after := by
        rw [List.append_cons]
        exact List.drop_left' (by simp)
      simp only [leadingOnes_code, low] at read
      split_ifs at read with whole
      obtain ⟨rfl, rfl⟩ := Prod.mk.inj (Except.ok.inj read)
      have length : (after.take width).length = width := List.length_take_of_le whole.2
      have fits := numberOf_lt (after.take width)
      have spelled := bitsOf_numberOf (after.take width)
      rw [length] at fits spelled
      have quotient : (ones * 2 ^ width + numberOf (after.take width)) / 2 ^ width = ones := by
        rw [Nat.mul_comm, Nat.mul_add_div (Nat.two_pow_pos width), Nat.div_eq_of_lt fits, Nat.add_zero]
      have remainder : bitsOf (ones * 2 ^ width + numberOf (after.take width)) width =
          after.take width := by
        rw [← spelled, bitsOf_eq_iff, Nat.mul_comm, Nat.mul_add_mod, spelled]
      rw [riceCode, quotient, remainder, List.append_assoc, List.cons_append, List.take_append_drop]
    · rw [leadingOnes_replicate, List.length_replicate, if_neg (fun whole => absurd whole.1 (lt_irrefl _))]
        at read
      exact absurd read (by simp)
  · rintro rfl
    have low : (riceCode width n ++ rest).drop (n / 2 ^ width + 1) = bitsOf n width ++ rest := by
      rw [riceCode, List.append_assoc, List.cons_append, List.append_cons]
      exact List.drop_left' (by simp)
    have first : leadingOnes (riceCode width n ++ rest) = n / 2 ^ width := by
      rw [riceCode, List.append_assoc, List.cons_append, leadingOnes_code]
    have length := length_bitsOf n width
    have spelled : numberOf (bitsOf n width) = n % 2 ^ width := by
      have same := bitsOf_numberOf (bitsOf n width)
      have fits := numberOf_lt (bitsOf n width)
      rw [length] at same fits
      rw [← bitsOf_eq_iff.mp same, Nat.mod_eq_of_lt fits]
    rw [riceDecode]
    simp only [first, low, List.take_left' length, List.drop_left' length, spelled]
    rw [if_pos, Nat.div_add_mod']
    constructor
    · rw [riceCode, List.length_append, List.length_append, List.length_replicate, List.length_cons]
      omega
    · rw [List.length_append, length]
      exact Nat.le_add_right width rest.length

/-- Bits with no whole code end in the quotient of one, or in its remainder. -/
theorem riceDecode_eq_error {width ones : Nat} {bits : List Bool} :
    riceDecode width bits = .error ones ↔ bits = List.replicate ones true ∨
      ∃ low, bits = List.replicate ones true ++ false :: low ∧ low.length < width := by
  rcases ones_split bits with ⟨count, after, rfl⟩ | ⟨count, rfl⟩
  · have low : (List.replicate count true ++ false :: after).drop (count + 1) = after := by
      rw [List.append_cons]
      exact List.drop_left' (by simp)
    rw [riceDecode]
    simp only [leadingOnes_code, low]
    constructor
    · intro read
      split_ifs at read with whole
      obtain rfl := Except.error.inj read
      have inside : count < (List.replicate count true ++ false :: after).length := by
        rw [List.length_append, List.length_replicate, List.length_cons]
        omega
      exact .inr ⟨after, rfl, not_le.mp fun le => whole ⟨inside, le⟩⟩
    · rintro (all | ⟨low, same, short⟩)
      · have member : false ∈ List.replicate ones true := all ▸ by simp
        exact absurd (List.eq_of_mem_replicate member) Bool.false_ne_true
      · have counts := congrArg leadingOnes same
        rw [leadingOnes_code, leadingOnes_code] at counts
        subst counts
        obtain rfl := List.cons.inj (List.append_cancel_left same) |>.2
        rw [if_neg fun whole => absurd whole.2 (not_le.mpr short)]
  · rw [riceDecode]
    simp only [leadingOnes_replicate, List.length_replicate, lt_irrefl, false_and, if_false]
    constructor
    · intro read
      obtain rfl := Except.error.inj read
      exact .inl rfl
    · rintro (all | ⟨low, same, _⟩)
      · rw [← leadingOnes_replicate count, all, leadingOnes_replicate]
      · have member : false ∈ List.replicate count true := same ▸ by simp
        exact absurd (List.eq_of_mem_replicate member) Bool.false_ne_true

/-- What the first `count` codes add up to, from `last` on. The quotient of a code that is
cut off comes last. -/
def totals (width : Nat) : (count last : Nat) → List Bool → List Nat
  | 0, _, _ => []
  | count + 1, last, bits => match riceDecode width bits with
    | .ok (n, rest) => (last + n) :: totals width count (last + n) rest
    | .error ones => [ones]

theorem riceCode_length (width n : Nat) : (riceCode width n).length = n / 2 ^ width + 1 + width := by
  rw [riceCode, List.length_append, List.length_replicate, List.length_cons, length_bitsOf,
    Nat.add_assoc, Nat.add_comm 1]

/-- A bit takes a total no further than a one in a quotient does. -/
theorem totals_le {width count last : Nat} {bits : List Bool} :
    ∀ total ∈ totals width count last bits, total ≤ last + 2 ^ width * bits.length := by
  induction count generalizing last bits with
  | zero =>
    intro total member
    exact absurd member List.not_mem_nil
  | succ count ih =>
    intro total member
    rw [totals] at member
    split at member
    · rename_i n rest read
      obtain rfl := riceDecode_eq_ok.mp read
      have code : n ≤ 2 ^ width * (riceCode width n).length := by
        rw [riceCode_length]
        exact (Nat.lt_mul_div_succ n (Nat.two_pow_pos width)).le.trans
          (Nat.mul_le_mul_left _ (Nat.le_add_right _ width))
      rw [List.length_append, Nat.mul_add]
      rcases List.mem_cons.mp member with rfl | later
      · omega
      · have above := ih total later
        omega
    · rename_i ones read
      obtain rfl := List.mem_singleton.mp member
      have inside : total ≤ bits.length := by
        rcases riceDecode_eq_error.mp read with rfl | ⟨low, rfl, _⟩
        · rw [List.length_replicate]
        · rw [List.length_append, List.length_replicate]
          exact Nat.le_add_right total _
      exact (inside.trans (Nat.le_mul_of_pos_left _ (Nat.two_pow_pos width))).trans
        (Nat.le_add_left _ last)

/-- Only a last total can be below the one it started from. -/
theorem le_of_prefix_totals {width count last total : Nat} {before : List Nat} {bits : List Bool}
    (reached : before ++ [total] <+: totals width count last bits) : ∀ u ∈ before, last ≤ u := by
  induction count generalizing last before bits with
  | zero =>
    rw [totals, List.prefix_nil] at reached
    exact absurd reached (by simp)
  | succ count ih =>
    cases before with
    | nil => exact fun u member => absurd member List.not_mem_nil
    | cons first before =>
      rw [totals, List.cons_append] at reached
      split at reached
      · obtain ⟨rfl, later⟩ := List.cons_prefix_cons.mp reached
        rw [List.forall_mem_cons]
        exact ⟨Nat.le_add_right _ _, fun u member => (Nat.le_add_right _ _).trans (ih later u member)⟩
      · rw [List.cons_prefix_cons, List.prefix_nil] at reached
        exact absurd reached.2 (by simp)

end Litecoin.Wire
