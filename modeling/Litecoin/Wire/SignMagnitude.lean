import Litecoin.Wire.Endian
import Mathlib.Order.Bounds.Defs
import Mathlib.Order.Nat

/-! Signed numbers as a little-endian magnitude with the sign in the top bit. -/
namespace Litecoin.Wire

theorem signBit_iff (byte : UInt8) : byte &&& 0x80 ≠ 0 ↔ 128 ≤ byte.toNat := by
  have all : ∀ n : Fin 256, UInt8.ofFin n &&& 0x80 ≠ 0 ↔ 128 ≤ (UInt8.ofFin n).toNat :=
    by decide +kernel
  exact all byte.toFin

/-- The weight of the top bit of `width + 1` bytes. -/
def signWeight (width : Nat) : Nat := 128 * 256 ^ width

/-- The number that bytes denote, zero for none of them. -/
def signMagnitude (bytes : Bytes) : Int :=
  match bytes.length with
  | 0 => 0
  | width + 1 =>
    let raw := fromLittleEndian bytes
    if raw < signWeight width then raw else -(raw - signWeight width : Nat)

/-- A number in `width + 1` bytes. -/
def signedBytes (width : Nat) (n : Int) : Bytes :=
  littleEndian (width + 1) (n.natAbs + if n < 0 then signWeight width else 0)

/-- The widths that have room for a magnitude beside the sign. -/
def Wide (n : Int) : Set Nat := { width | n.natAbs < signWeight width }

/-- A form of a number that no other is shorter than. -/
structure MinimalForm (n : Int) (bytes : Bytes) : Prop where
  value : signMagnitude bytes = n
  shortest : ∀ other, signMagnitude other = n → bytes.length ≤ other.length

section
variable {n : Int} {bytes : Bytes} {width : Nat}

theorem signWeight_succ (width : Nat) : signWeight (width + 1) = 256 * signWeight width := by
  rw [signWeight, signWeight, Nat.pow_succ]
  ring

theorem two_mul_signWeight (width : Nat) : 2 * signWeight width = 256 ^ (width + 1) := by
  rw [signWeight, Nat.pow_succ]
  ring

theorem signWeight_pos (width : Nat) : 0 < signWeight width := Nat.mul_pos (by decide) (Nat.pow_pos (by decide))

theorem signWeight_mono {narrow wide : Nat} (le : narrow ≤ wide) : signWeight narrow ≤ signWeight wide :=
  Nat.mul_le_mul_left _ (Nat.pow_le_pow_right (by decide) le)

theorem signMagnitude_of_length (length : bytes.length = width + 1) : signMagnitude bytes =
    if fromLittleEndian bytes < signWeight width then (fromLittleEndian bytes : Int)
    else -(fromLittleEndian bytes - signWeight width : Nat) := by
  rw [signMagnitude]
  split
  · omega
  · next other same =>
    obtain rfl : other = width := by omega
    rfl

theorem natAbs_signMagnitude (length : bytes.length = width + 1) :
    (signMagnitude bytes).natAbs = fromLittleEndian bytes % signWeight width := by
  have below := fromLittleEndian_lt bytes
  rw [length, ← two_mul_signWeight] at below
  rw [signMagnitude_of_length length]
  split_ifs with low
  · rw [Int.natAbs_natCast, Nat.mod_eq_of_lt low]
  · rw [Int.natAbs_neg, Int.natAbs_natCast, Nat.mod_eq_sub_mod (Nat.not_lt.mp low), Nat.mod_eq_of_lt (by omega)]

theorem signMagnitude_wide (length : bytes.length = width + 1) : width ∈ Wide (signMagnitude bytes) := by
  show (signMagnitude bytes).natAbs < signWeight width
  rw [natAbs_signMagnitude length]
  exact Nat.mod_lt _ (signWeight_pos width)

theorem length_signedBytes (width : Nat) (n : Int) : (signedBytes width n).length = width + 1 :=
  littleEndian_length _ _

theorem signMagnitude_signedBytes (fits : width ∈ Wide n) : signMagnitude (signedBytes width n) = n := by
  have below : n.natAbs < signWeight width := fits
  have whole := two_mul_signWeight width
  have raw : fromLittleEndian (signedBytes width n) = n.natAbs + if n < 0 then signWeight width else 0 :=
    fromLittleEndian_littleEndian (by split_ifs <;> omega)
  rw [signMagnitude_of_length (length_signedBytes width n), raw]
  split_ifs <;> omega

/-- Only zero has two forms of one length. -/
theorem signedBytes_signMagnitude (length : bytes.length = width + 1) (nonzero : signMagnitude bytes ≠ 0) :
    signedBytes width (signMagnitude bytes) = bytes := by
  have raw : (signMagnitude bytes).natAbs + (if signMagnitude bytes < 0 then signWeight width else 0) =
      fromLittleEndian bytes := by
    rw [signMagnitude_of_length length] at nonzero ⊢
    split_ifs <;> omega
  rw [signedBytes, raw, ← length, littleEndian_fromLittleEndian]

theorem minimalForm_zero : MinimalForm 0 bytes ↔ bytes = [] := by
  constructor
  · rintro ⟨-, shortest⟩
    exact List.length_eq_zero_iff.mp (Nat.le_zero.mp (shortest [] rfl))
  · rintro rfl
    exact ⟨rfl, fun _ _ => Nat.zero_le _⟩

/-- The minimal form has the least width with room for the number. -/
theorem minimalForm_iff (nonzero : n ≠ 0) :
    MinimalForm n bytes ↔ ∃ width, bytes = signedBytes width n ∧ IsLeast (Wide n) width := by
  constructor
  · rintro ⟨rfl, shortest⟩
    cases length : bytes.length with
    | zero =>
      obtain rfl := List.length_eq_zero_iff.mp length
      exact absurd rfl nonzero
    | succ width =>
      refine ⟨width, (signedBytes_signMagnitude length nonzero).symm, signMagnitude_wide length, ?_⟩
      intro other fits
      have le := shortest _ (signMagnitude_signedBytes fits)
      rw [length, length_signedBytes] at le
      omega
  · rintro ⟨width, rfl, fits, least⟩
    refine ⟨signMagnitude_signedBytes fits, fun other same => ?_⟩
    rw [length_signedBytes]
    cases length : other.length with
    | zero =>
      obtain rfl := List.length_eq_zero_iff.mp length
      exact absurd same.symm nonzero
    | succ narrower => exact Nat.succ_le_succ (least (same ▸ signMagnitude_wide length))

/-- Bytes are the minimal form of their number unless one byte less has room for it. -/
theorem minimalForm_iff_tight (length : bytes.length = width + 1) : MinimalForm (signMagnitude bytes) bytes ↔
    (width = 0 → signMagnitude bytes ≠ 0) ∧
      ∀ narrower, width = narrower + 1 → signWeight narrower ≤ (signMagnitude bytes).natAbs := by
  constructor
  · intro minimal
    constructor
    · intro _ zero
      rw [zero, minimalForm_zero] at minimal
      rw [minimal] at length
      contradiction
    · rintro narrower rfl
      by_contra room
      have le := minimal.shortest _ (signMagnitude_signedBytes (Nat.not_le.mp room))
      rw [length, length_signedBytes] at le
      omega
  · rintro ⟨one, more⟩
    refine ⟨rfl, fun other same => ?_⟩
    by_contra shorter
    cases width with
    | zero =>
      have empty : other = [] := List.length_eq_zero_iff.mp (by omega)
      rw [empty] at same
      exact one rfl same.symm
    | succ narrower =>
      have large := more narrower rfl
      have positive := signWeight_pos narrower
      cases size : other.length with
      | zero =>
        obtain rfl := List.length_eq_zero_iff.mp size
        rw [← same] at large
        exact absurd large (Nat.not_le.mpr positive)
      | succ m =>
        have fits : (signMagnitude bytes).natAbs < signWeight m := same ▸ signMagnitude_wide size
        have le := signWeight_mono (show m ≤ narrower by omega)
        omega

theorem exists_isLeast (n : Int) : ∃ width, IsLeast (Wide n) width := by
  have fits : ∃ width, width ∈ Wide n := by
    refine ⟨n.natAbs, ?_⟩
    have power := Nat.lt_pow_self (n := n.natAbs) (show 1 < 256 by decide)
    show n.natAbs < 128 * 256 ^ n.natAbs
    omega
  classical
  exact ⟨Nat.find fits, Nat.find_spec fits, fun _ => Nat.find_min' fits⟩

end
end Litecoin.Wire
