import Litecoin.Wire.Decoder

/-! Text as the bytes of its UTF-8 form. -/
namespace Litecoin.Wire

/-- The bytes of a text of ASCII characters. -/
def ascii (text : String) : Bytes := text.toList.map fun c => UInt8.ofNat c.toNat

/-- For a literal, whose letters are given: they need not be decoded. -/
theorem ascii_ofList (chars : List Char) :
    ascii (String.ofList chars) = chars.map fun c => UInt8.ofNat c.toNat := by
  rw [ascii, String.toList_ofList]

/-- `as_bytes`. -/
def utf8 (text : String) : Bytes := text.toList.flatMap String.utf8EncodeChar

/-- `u8::to_ascii_lowercase`. -/
def toAsciiLowercase (c : UInt8) : UInt8 := if 0x41 ≤ c ∧ c ≤ 0x5a then c + 32 else c

/-- `u8::to_ascii_uppercase`. -/
def toAsciiUppercase (c : UInt8) : UInt8 := if 0x61 ≤ c ∧ c ≤ 0x7a then c - 32 else c

def lower (text : Bytes) : Bytes := text.map toAsciiLowercase

def upper (text : Bytes) : Bytes := text.map toAsciiUppercase

/-- What holds of all bytes, from their numbers. -/
theorem forall_byte {p : UInt8 → Prop} (each : ∀ n : Fin 256, p (UInt8.ofNat n)) (c : UInt8) : p c := by
  have here := each ⟨c.toNat, c.toNat_lt⟩
  rwa [UInt8.ofNat_toNat] at here

theorem toAsciiLowercase_toAsciiUppercase (c : UInt8) :
    toAsciiLowercase (toAsciiUppercase c) = toAsciiLowercase c := by
  revert c
  exact forall_byte (by decide +kernel)

theorem lower_upper (text : Bytes) : lower (upper text) = lower text := by
  rw [lower, upper, List.map_map, lower]
  exact List.map_congr_left fun c _ => toAsciiLowercase_toAsciiUppercase c

end Litecoin.Wire
