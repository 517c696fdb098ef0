import Litecoin.Wire.Decoder
import Mathlib.Tactic.Ring

/-! Fixed-width little-endian numbers of any width. -/
namespace Litecoin.Wire

/-- The `width` low bytes of `value`, least significant first. -/
def littleEndian : Nat → Nat → Bytes
  | 0, _ => []
  | width + 1, value => UInt8.ofNat value :: littleEndian width (value / 256)

def fromLittleEndian : Bytes → Nat
  | [] => 0
  | byte :: rest => byte.toNat + 256 * fromLittleEndian rest

@[simp] theorem littleEndian_length (width value : Nat) :
    (littleEndian width value).length = width := by
  induction width generalizing value with
  | zero => rfl
  | succ width ih => simp [littleEndian, ih]

theorem fromLittleEndian_lt (bytes : Bytes) : fromLittleEndian bytes < 256 ^ bytes.length := by
  induction bytes with
  | nil => simp [fromLittleEndian]
  | cons byte rest ih =>
    have low := byte.toNat_lt
    simp only [fromLittleEndian, List.length_cons, Nat.pow_succ]
    omega

theorem fromLittleEndian_append (low high : Bytes) :
    fromLittleEndian (low ++ high) =
      fromLittleEndian low + 256 ^ low.length * fromLittleEndian high := by
  induction low with
  | nil => simp [fromLittleEndian]
  | cons byte rest ih =>
    rw [List.cons_append, fromLittleEndian, ih, fromLittleEndian, List.length_cons, Nat.pow_succ]
    ring

/-- Bytes are put behind others by a shift. -/
theorem fromLittleEndian_or (low high : Bytes) :
    fromLittleEndian low ||| fromLittleEndian high <<< (8 * low.length) =
      fromLittleEndian (low ++ high) := by
  have below : fromLittleEndian low < 2 ^ (8 * low.length) := by
    rw [Nat.pow_mul]
    exact fromLittleEndian_lt low
  have weight : (256 : Nat) ^ low.length = 2 ^ (8 * low.length) := (Nat.pow_mul 2 8 low.length).symm
  rw [fromLittleEndian_append, weight, Nat.mul_comm (2 ^ _), ← Nat.shiftLeft_eq, Nat.add_comm,
    Nat.shiftLeft_add_eq_or_of_lt below, Nat.or_comm]

theorem fromLittleEndian_replicate (count : Nat) : fromLittleEndian (List.replicate count 0) = 0 := by
  induction count with
  | zero => rfl
  | succ count ih => rw [List.replicate_succ, fromLittleEndian, ih]; rfl

/-- Only the bytes that are written count. -/
theorem littleEndian_mod (width value : Nat) :
    littleEndian width (value % 256 ^ width) = littleEndian width value := by
  induction width generalizing value with
  | zero => rfl
  | succ width ih =>
    have low : UInt8.ofNat (value % 256 ^ (width + 1)) = UInt8.ofNat value := by
      apply UInt8.toNat_inj.mp
      rw [UInt8.toNat_ofNat', UInt8.toNat_ofNat', Nat.pow_succ, Nat.mod_mul_left_mod]
    rw [littleEndian, littleEndian, low, Nat.pow_succ, Nat.mul_comm, Nat.mod_mul_right_div_self, ih]

theorem fromLittleEndian_littleEndian {width value : Nat} (fits : value < 256 ^ width) :
    fromLittleEndian (littleEndian width value) = value := by
  induction width generalizing value with
  | zero =>
    have zero : value = 0 := by simpa using fits
    simp [littleEndian, fromLittleEndian, zero]
  | succ width ih =>
    have tail : value / 256 < 256 ^ width := by
      rw [Nat.pow_succ] at fits
      omega
    simp only [littleEndian, fromLittleEndian, ih tail, UInt8.toNat_ofNat', Nat.reducePow]
    omega

theorem littleEndian_fromLittleEndian (bytes : Bytes) :
    littleEndian bytes.length (fromLittleEndian bytes) = bytes := by
  induction bytes with
  | nil => rfl
  | cons byte rest ih =>
    have low := byte.toNat_lt
    have quotient : (byte.toNat + 256 * fromLittleEndian rest) / 256 = fromLittleEndian rest := by
      omega
    have digit : UInt8.ofNat (byte.toNat + 256 * fromLittleEndian rest) = byte := by
      apply UInt8.toNat_inj.mp
      simp only [UInt8.toNat_ofNat', Nat.reducePow]
      omega
    simp only [fromLittleEndian, List.length_cons, littleEndian, quotient, ih, digit]

/-- Reads `width` bytes as a number. -/
def Decoder.number (width : Nat) (e : ε) : Decoder ε Nat :=
  (fun chunk => fromLittleEndian chunk.val) <$> Decoder.exact width e

theorem Reads.number (width : Nat) (e : ε) :
    Reads (Decoder.number width e) (littleEndian width) (· < 256 ^ width) := by
  intro bytes value rest
  simp only [Decoder.number, Decoder.map_eq_ok, Decoder.exact_eq_ok]
  constructor
  · rintro ⟨⟨chunk, rfl⟩, rfl, rfl⟩
    exact ⟨fromLittleEndian_lt chunk, by rw [littleEndian_fromLittleEndian]⟩
  · rintro ⟨fits, rfl⟩
    exact ⟨⟨littleEndian width value, littleEndian_length _ _⟩, rfl,
      fromLittleEndian_littleEndian fits⟩

end Litecoin.Wire
