import Litecoin.Units.RoundTrip
import Litecoin.Wire.Radix

/-! Integers from text (`units/parse.rs` and the integer parsers of the standard library that
it calls). -/
namespace Litecoin.Units
open Wire

/-- `core::num::IntErrorKind`, as the unsigned parsers report it. -/
inductive IntErrorKind where
  | empty
  | invalidDigit
  | posOverflow
deriving DecidableEq, Repr

structure ParseIntError where
  input : Text
  bits : UInt8
  isSigned : Bool
  source : IntErrorKind
deriving DecidableEq, Repr

/-- The loop of `from_str_radix`, for an unsigned type of so many bits. -/
def radixLoop (digit : Char → Option Nat) (radix bits : Nat) : (result : Nat) → Text →
    Except IntErrorKind Nat
  | result, [] => .ok result
  | result, c :: rest =>
    match digit c with
    | none => .error .invalidDigit
    | some d =>
      if result * radix + d < 2 ^ bits then radixLoop digit radix bits (result * radix + d) rest
      else .error .posOverflow

/-- `from_str_radix` of an unsigned type: a plus is skipped, a minus is no digit. -/
def fromStrRadix (digit : Char → Option Nat) (radix bits : Nat) (s : Text) : Except IntErrorKind Nat :=
  match s with
  | [] => .error .empty
  | ['+'] | ['-'] => .error .invalidDigit
  | '+' :: rest => radixLoop digit radix bits 0 rest
  | s => radixLoop digit radix bits 0 s

def stripHexPrefix : Text → Text
  | '0' :: 'x' :: stripped => stripped
  | '0' :: 'X' :: stripped => stripped
  | s => s

def hexU128 (s : Text) : Except ParseIntError (BitVec 128) :=
  match fromStrRadix charHexDigit 16 128 (stripHexPrefix s) with
  | .ok value => .ok (BitVec.ofNat 128 value)
  | .error source => .error { input := s, bits := 128, isSigned := false, source }

/-- `&s[start..]`; a start past the string or inside a character panics. -/
def sliceFrom : (start : Nat) → Text → Option Text
  | 0, s => some s
  | _ + 1, [] => none
  | start + 1, c :: rest =>
    if c.utf8Size ≤ start + 1 then sliceFrom (start + 1 - c.utf8Size) rest else none

section
variable {digit : Char → Option Nat} {radix bits : Nat}

/-- The loop reads digits only, and a number that fits. -/
theorem radixLoop_eq_ok {result n : Nat} {text : Text} (small : result < 2 ^ bits)
    (positive : 0 < radix) : radixLoop digit radix bits result text = .ok n ↔
      AllDigits digit text ∧ result * radix ^ text.length + textNumber digit radix text = n ∧
        n < 2 ^ bits := by
  induction text generalizing result with
  | nil =>
    rw [radixLoop, Except.ok.injEq, List.length_nil, pow_zero, mul_one]
    constructor
    · rintro rfl
      exact ⟨nofun, rfl, small⟩
    · rintro ⟨-, same, -⟩
      exact same
  | cons c rest ih =>
    rw [radixLoop]
    cases read : digit c with
    | none =>
      refine ⟨nofun, fun ⟨digits, _⟩ => ?_⟩
      obtain ⟨⟨d, found⟩, -⟩ := AllDigits.cons.mp digits
      rw [read] at found
      contradiction
    | some d =>
      have value : result * radix ^ (c :: rest).length + textNumber digit radix (c :: rest) =
          (result * radix + d) * radix ^ rest.length + textNumber digit radix rest := by
        rw [textNumber_cons read, List.length_cons, pow_succ]
        ring
      rw [value, AllDigits.cons, read]
      dsimp only
      split_ifs with fits
      · rw [ih fits]
        exact and_congr_left fun _ => ⟨fun digits => ⟨⟨d, rfl⟩, digits⟩, And.right⟩
      · refine ⟨nofun, ?_⟩
        rintro ⟨-, rfl, below⟩
        have weight := Nat.le_mul_of_pos_right (result * radix + d) (Nat.pow_pos positive
          (n := rest.length))
        omega

/-- The text after an optional plus. -/
theorem fromStrRadix_eq_ok (radixed : Radix digit radix) {s : Text} {n : Nat} :
    fromStrRadix digit radix bits s = .ok n ↔
      ∃ text, (s = text ∨ s = '+' :: text) ∧ Spells digit radix text n ∧ n < 2 ^ bits := by
  have positive := Nat.zero_lt_of_lt radixed.large
  have loop (text : Text) : radixLoop digit radix bits 0 text = .ok n ↔
      AllDigits digit text ∧ textNumber digit radix text = n ∧ n < 2 ^ bits := by
    rw [radixLoop_eq_ok (Nat.two_pow_pos bits) positive, Nat.zero_mul, Nat.zero_add]
  have unsigned {c : Char} {text rest : Text} (spells : Spells digit radix text n)
      (starts : text = c :: rest) : ∃ d, digit c = some d := by
    subst starts
    exact (AllDigits.cons.mp spells.digits).1
  rw [fromStrRadix.eq_def]
  split
  · refine ⟨nofun, ?_⟩
    rintro ⟨text, rfl | starts, spells, -⟩
    · exact absurd rfl spells.nonempty
    · contradiction
  · refine ⟨nofun, ?_⟩
    rintro ⟨text, same | same, spells, -⟩
    · obtain ⟨d, read⟩ := unsigned spells same.symm
      rw [radixed.plus] at read
      contradiction
    · obtain rfl := (List.cons.inj same).2
      exact absurd rfl spells.nonempty
  · refine ⟨nofun, ?_⟩
    rintro ⟨text, same | same, spells, -⟩
    · obtain ⟨d, read⟩ := unsigned spells same.symm
      rw [radixed.minus] at read
      contradiction
    · exact absurd (List.cons.inj same).1 (by decide)
  · next rest more =>
    rw [loop]
    constructor
    · rintro ⟨digits, value, below⟩
      refine ⟨rest, .inr rfl, ⟨?_, digits, value⟩, below⟩
      rintro rfl
      exact more rfl
    · rintro ⟨text, same | same, spells, below⟩
      · obtain ⟨d, read⟩ := unsigned spells same.symm
        rw [radixed.plus] at read
        contradiction
      · obtain rfl := (List.cons.inj same).2
        exact ⟨spells.digits, spells.value, below⟩
  · next nonempty _ _ plain =>
    rw [loop]
    constructor
    · rintro ⟨digits, value, below⟩
      exact ⟨s, .inl rfl, ⟨nonempty, digits, value⟩, below⟩
    · rintro ⟨text, rfl | starts, spells, below⟩
      · exact ⟨spells.digits, spells.value, below⟩
      · exact absurd starts (plain text)

end

theorem byteLen_eq_zero {s : Text} : byteLen s = 0 ↔ s = [] := by
  cases s with
  | nil => exact ⟨fun _ => rfl, fun _ => rfl⟩
  | cons c rest =>
    have size := c.utf8Size_pos
    rw [byteLen_cons]
    exact ⟨fun zero => absurd zero (by omega), nofun⟩

/-- A cut at a byte offset lies between two characters. -/
theorem sliceTo_eq_some {stop : Nat} {s high : Text} :
    sliceTo stop s = some high ↔ ∃ low, s = high ++ low ∧ byteLen high = stop := by
  fun_induction sliceTo stop s generalizing high with
  | case1 s =>
    rw [Option.some.injEq]
    constructor
    · rintro rfl
      exact ⟨s, rfl, rfl⟩
    · rintro ⟨low, -, size⟩
      exact (byteLen_eq_zero.mp size).symm
  | case2 stop =>
    constructor
    · nofun
    · rintro ⟨low, shape, size⟩
      obtain ⟨rfl, -⟩ := List.append_eq_nil_iff.mp shape.symm
      contradiction
  | case3 stop c rest fits ih =>
    have positive := c.utf8Size_pos
    constructor
    · intro cut
      obtain ⟨high, found, rfl⟩ := Option.map_eq_some_iff.mp cut
      obtain ⟨low, rfl, size⟩ := ih.mp found
      refine ⟨low, rfl, ?_⟩
      rw [byteLen_cons, size]
      omega
    · rintro ⟨low, shape, size⟩
      cases high with
      | nil => contradiction
      | cons first high =>
        obtain ⟨rfl, rfl⟩ := List.cons.inj shape
        rw [byteLen_cons] at size
        rw [ih.mpr ⟨low, rfl, by omega⟩]
        rfl
  | case4 stop c rest wide =>
    constructor
    · nofun
    · rintro ⟨low, shape, size⟩
      cases high with
      | nil => contradiction
      | cons first high =>
        obtain ⟨rfl, -⟩ := List.cons.inj shape
        rw [byteLen_cons] at size
        omega

theorem sliceFrom_eq_some {start : Nat} {s low : Text} :
    sliceFrom start s = some low ↔ ∃ high, s = high ++ low ∧ byteLen high = start := by
  induction s generalizing start with
  | nil =>
    cases start with
    | zero =>
      rw [sliceFrom, Option.some.injEq]
      constructor
      · rintro rfl
        exact ⟨[], rfl, rfl⟩
      · rintro ⟨high, shape, -⟩
        exact (List.append_eq_nil_iff.mp shape.symm).2.symm
    | succ start =>
      rw [sliceFrom]
      constructor
      · nofun
      · rintro ⟨high, shape, size⟩
        obtain ⟨rfl, -⟩ := List.append_eq_nil_iff.mp shape.symm
        contradiction
  | cons c rest ih =>
    have positive := c.utf8Size_pos
    cases start with
    | zero =>
      rw [sliceFrom, Option.some.injEq]
      constructor
      · rintro rfl
        exact ⟨[], rfl, rfl⟩
      · rintro ⟨high, shape, size⟩
        obtain rfl := byteLen_eq_zero.mp size
        exact shape
    | succ start =>
      have cut : (∃ high, c :: rest = high ++ low ∧ byteLen high = start + 1) ↔
          c.utf8Size ≤ start + 1 ∧ ∃ high, rest = high ++ low ∧ byteLen high = start + 1 - c.utf8Size := by
        constructor
        · rintro ⟨high, shape, size⟩
          cases high with
          | nil => contradiction
          | cons first high =>
            obtain ⟨rfl, rfl⟩ := List.cons.inj shape
            rw [byteLen_cons] at size
            exact ⟨by omega, high, rfl, by omega⟩
        · rintro ⟨fits, high, rfl, size⟩
          refine ⟨c :: high, rfl, ?_⟩
          rw [byteLen_cons, size]
          omega
      rw [sliceFrom, cut]
      split_ifs with fits
      · rw [ih, and_iff_right fits]
      · exact ⟨nofun, fun found => absurd found.1 fits⟩

end Litecoin.Units
