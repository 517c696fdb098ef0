import Litecoin.Wire.Decoder
import Mathlib.Data.List.Basic
import Mathlib.Data.Nat.Bitwise
import Mathlib.Tactic.Ring

/-! Numbers as strings of bits, most significant first, and Golomb-Rice codes. -/
namespace Litecoin.Wire

/-- The `width` low bits of a number, most significant first. -/
def bitsOf (n : Nat) : (width : Nat) → List Bool
  | 0 => []
  | width + 1 => n.testBit width :: bitsOf n width

@[simp] theorem length_bitsOf (n width : Nat) : (bitsOf n width).length = width := by
  induction width with
  | zero => rfl
  | succ width ih => rw [bitsOf, List.length_cons, ih]

/-- High bits come before low bits. -/
theorem bitsOf_add (n high low : Nat) :
    bitsOf n (high + low) = bitsOf (n / 2 ^ low) high ++ bitsOf n low := by
  induction high with
  | zero => rw [Nat.zero_add]; rfl
  | succ high ih =>
    rw [Nat.add_right_comm, bitsOf, ih, bitsOf, Nat.testBit_div_two_pow, List.cons_append]

theorem bitsOf_eq_iff {n m width : Nat} :
    bitsOf n width = bitsOf m width ↔ n % 2 ^ width = m % 2 ^ width := by
  constructor
  · intro same
    apply Nat.eq_of_testBit_eq
    intro i
    rw [Nat.testBit_mod_two_pow, Nat.testBit_mod_two_pow]
    by_cases low : i < width
    · simp only [low, decide_true, Bool.true_and]
      induction width with
      | zero => contradiction
      | succ width ih =>
        rw [bitsOf, bitsOf, List.cons.injEq] at same
        rcases Nat.lt_succ_iff_lt_or_eq.mp low with lower | rfl
        · exact ih same.2 lower
        · exact same.1
    · simp only [low, decide_false, Bool.false_and]
  · intro same
    induction width with
    | zero => rfl
    | succ width ih =>
      have top : n.testBit width = m.testBit width := by
        have bit := congrArg (fun k => k.testBit width) same
        simpa only [Nat.testBit_mod_two_pow, Nat.lt_succ_self, decide_true, Bool.true_and] using bit
      have rest := congrArg (fun k => k % 2 ^ width) same
      simp only [Nat.mod_mod_of_dvd _ (Nat.pow_dvd_pow 2 (Nat.le_succ width))] at rest
      rw [bitsOf, bitsOf, top, ih rest]

theorem bitsOf_mul_add {value low : Nat} (top high : Nat) (fits : value < 2 ^ low) :
    bitsOf (top * 2 ^ low + value) (high + low) = bitsOf top high ++ bitsOf value low := by
  have quotient : (top * 2 ^ low + value) / 2 ^ low = top := by
    rw [Nat.add_comm, Nat.add_mul_div_right _ _ (Nat.two_pow_pos low), Nat.div_eq_of_lt fits,
      Nat.zero_add]
  have remainder : (top * 2 ^ low + value) % 2 ^ low = value % 2 ^ low := by
    rw [Nat.add_comm, Nat.add_mul_mod_self_right]
  rw [bitsOf_add, quotient, bitsOf_eq_iff.mpr remainder]

theorem bitsOf_ones {width : Nat} (within : width ≤ limit) :
    bitsOf (2 ^ limit - 1) width = List.replicate width true := by
  induction width with
  | zero => rfl
  | succ width ih =>
    rw [bitsOf, ih (by omega), Nat.testBit_two_pow_sub_one, List.replicate_succ, decide_eq_true
      (by omega)]

/-- The `k` top bits of a word of `width` bits that a field of `n` bits was moved to the
top of: the top bits of the field, with zeros below when it is shorter. -/
theorem top_bits (x width n k : Nat) (field : n ≤ width) (taken : k ≤ width) :
    x * 2 ^ (width - n) % 2 ^ width / 2 ^ (width - k) =
      x / 2 ^ (n - min k n) % 2 ^ min k n * 2 ^ (k - min k n) := by
  have moved : x * 2 ^ (width - n) % 2 ^ width = x % 2 ^ n * 2 ^ (width - n) := by
    conv_lhs => rw [← Nat.add_sub_cancel' field, Nat.pow_add, Nat.add_sub_cancel_left]
    exact Nat.mul_mod_mul_right _ _ _
  rw [moved]
  rcases Nat.le_total k n with shorter | longer
  · rw [Nat.min_eq_left shorter, Nat.sub_self, Nat.pow_zero, Nat.mul_one]
    have split : width - k = (n - k) + (width - n) := by omega
    have whole : n = (n - k) + k := by omega
    rw [split, Nat.pow_add, Nat.mul_div_mul_right _ _ (Nat.two_pow_pos _)]
    conv_lhs => rw [whole, Nat.add_sub_cancel, Nat.pow_add]
    exact Nat.mod_mul_right_div_self _ _ _
  · rw [Nat.min_eq_right longer, Nat.sub_self, Nat.pow_zero, Nat.div_one]
    have split : width - n = (k - n) + (width - k) := by omega
    rw [split, Nat.pow_add, ← Nat.mul_assoc, Nat.mul_div_cancel _ (Nat.two_pow_pos _)]

/-- The bits of a byte string. -/
def bitsOfBytes (bytes : Bytes) : List Bool := bytes.flatMap fun byte => bitsOf byte.toNat 8

@[simp] theorem length_bitsOfBytes (bytes : Bytes) : (bitsOfBytes bytes).length = 8 * bytes.length := by
  induction bytes with
  | nil => rfl
  | cons byte rest ih =>
    rw [bitsOfBytes, List.flatMap_cons, List.length_append, length_bitsOf, List.length_cons]
    rw [bitsOfBytes] at ih
    omega

theorem bitsOfBytes_cons (byte : UInt8) (rest : Bytes) :
    bitsOfBytes (byte :: rest) = bitsOf byte.toNat 8 ++ bitsOfBytes rest := by
  rw [bitsOfBytes, List.flatMap_cons]
  rfl

theorem bitsOfBytes_append (first second : Bytes) :
    bitsOfBytes (first ++ second) = bitsOfBytes first ++ bitsOfBytes second := List.flatMap_append

/-- Words of one width are determined by their bits. -/
theorem flatMap_bitsOf_inj {value : α → Nat} (positive : 0 < width)
    (fits : ∀ a, value a < 2 ^ width) (faithful : ∀ a b, value a = value b → a = b)
    {one two : List α} (same : (one.flatMap fun a => bitsOf (value a) width) =
      two.flatMap fun a => bitsOf (value a) width) : one = two := by
  induction one generalizing two with
  | nil =>
    cases two with
    | nil => rfl
    | cons a rest =>
      have length := congrArg List.length same
      rw [List.flatMap_nil, List.flatMap_cons, List.length_append, length_bitsOf,
        List.length_nil] at length
      omega
  | cons a rest ih =>
    cases two with
    | nil =>
      have length := congrArg List.length same
      rw [List.flatMap_nil, List.flatMap_cons, List.length_append, length_bitsOf,
        List.length_nil] at length
      omega
    | cons b others =>
      rw [List.flatMap_cons, List.flatMap_cons] at same
      obtain ⟨head, tail⟩ := List.append_inj same (by rw [length_bitsOf, length_bitsOf])
      have values := bitsOf_eq_iff.mp head
      rw [Nat.mod_eq_of_lt (fits a), Nat.mod_eq_of_lt (fits b)] at values
      rw [faithful a b values, ih tail]

theorem bitsOfBytes_inj {one two : Bytes} : bitsOfBytes one = bitsOfBytes two ↔ one = two :=
  ⟨flatMap_bitsOf_inj (by decide) (fun byte => byte.toNat_lt) (fun _ _ => UInt8.toNat_inj.mp),
    congrArg bitsOfBytes⟩

/-- A number in Golomb-Rice code: its high part in unary, then its `width` low bits. -/
def riceCode (width n : Nat) : List Bool :=
  List.replicate (n / 2 ^ width) true ++ false :: bitsOf n width

/-- The differences between successive numbers, from a number before the first one. -/
def differences (last : Nat) : List Nat → List Nat
  | [] => []
  | n :: rest => (n - last) :: differences n rest

end Litecoin.Wire
