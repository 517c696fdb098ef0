import Litecoin.Wire.Bits
import Litecoin.Wire.Text

/-! The `bech32` crate is not part of the repository. Its encoder and decoder are ambient, and
what the address code relies on is a named class. -/
namespace Litecoin
open Wire

/-- `Fe32`: a symbol of five bits. -/
abbrev Fe32 : Type := Fin 32

/-- `Fe32::Q`. -/
abbrev Fe32.q : Fe32 := 0

/-- The five low bits of a number. -/
def Fe32.ofNat (n : Nat) : Fe32 := Fin.ofNat 32 n

/-- The two checksum algorithms, `Bech32` and `Bech32m`. -/
inductive ChecksumKind where
  | bech32
  | bech32m
deriving DecidableEq, Repr

/-- The parts of the crate that addresses call. A human-readable part is in lower case: the
crate compares them without regard to case. -/
class Bech32 where
  /-- `UncheckedHrpstring::new`: the human-readable part and the symbols after the separator. -/
  uncheckedHrpstring : Bytes → Option (Bytes × List Fe32)
  hasValidChecksum : ChecksumKind → (hrp : Bytes) → List Fe32 → Bool
  /-- `bytes_to_fes`. -/
  bytesToFes : Bytes → List Fe32
  /-- `fes_to_bytes`. -/
  fesToBytes : List Fe32 → Bytes
  /-- `Fe32::to_char`. -/
  toChar : Fe32 → UInt8
  /-- The six symbols that `with_checksum` adds. -/
  checksum : ChecksumKind → (hrp : Bytes) → List Fe32 → List Fe32

namespace Bech32

/-- The bits of symbols. -/
def bitsOfFes (symbols : List Fe32) : List Bool := symbols.flatMap fun fe => bitsOf fe.val 5

section
variable [Bech32]

/-- The text of symbols under a human-readable part. -/
def text (hrp : Bytes) (symbols : List Fe32) : Bytes := hrp ++ 0x31 :: symbols.map toChar

/-- `with_checksum`, `with_witness_version` and `bytes`, one after the other. -/
def encode (kind : ChecksumKind) (hrp : Bytes) (version : Fe32) (data : List Fe32) : Bytes :=
  text hrp (version :: data ++ checksum kind hrp (version :: data))

/-- `remove_checksum`. -/
def removeChecksum (symbols : List Fe32) : List Fe32 := symbols.take (symbols.length - 6)

/-- A human-readable part in lower-case letters. -/
def PlainHrp (hrp : Bytes) : Prop := hrp ≠ [] ∧ hrp.length ≤ 83 ∧ ∀ c ∈ hrp, 0x61 ≤ c ∧ c ≤ 0x7a

instance decidablePlainHrp (hrp : Bytes) : Decidable (PlainHrp hrp) := inferInstanceAs (Decidable (_ ∧ _))

/-- What the crate documents: text is read back in either case, a checksum is valid if and
only if it is the one computed from the human-readable part and the symbols (the crate bounds
the length of a string by 1023 characters), the last symbol is padded with zeros, and bits
that do not fill a byte are dropped. -/
class Lawful : Prop where
  hrpstring_text : ∀ {hrp : Bytes}, PlainHrp hrp → ∀ symbols : List Fe32,
    uncheckedHrpstring (text hrp symbols) = some (hrp, symbols) ∧
      uncheckedHrpstring (upper (text hrp symbols)) = some (hrp, symbols)
  text_of_hrpstring : ∀ {s hrp : Bytes} {symbols : List Fe32},
    uncheckedHrpstring s = some (hrp, symbols) → lower s = text hrp symbols
  length_checksum : ∀ kind hrp data, (checksum kind hrp data).length = 6
  computed_of_valid : ∀ {kind : ChecksumKind} {hrp : Bytes} {symbols : List Fe32},
    hasValidChecksum kind hrp symbols = true → ∃ data, symbols = data ++ checksum kind hrp data
  valid_computed : ∀ (kind : ChecksumKind) (hrp : Bytes) (data : List Fe32),
    (text hrp (data ++ checksum kind hrp data)).length ≤ 1023 →
      hasValidChecksum kind hrp (data ++ checksum kind hrp data) = true
  bits_bytesToFes : ∀ bytes : Bytes, ∃ pad < 5,
    bitsOfFes (bytesToFes bytes) = bitsOfBytes bytes ++ List.replicate pad false
  bits_fesToBytes : ∀ symbols : List Fe32, bitsOfBytes (fesToBytes symbols) =
    (bitsOfFes symbols).take ((bitsOfFes symbols).length / 8 * 8)

end

theorem bitsOfFes_cons (fe : Fe32) (rest : List Fe32) :
    bitsOfFes (fe :: rest) = bitsOf fe.val 5 ++ bitsOfFes rest := List.flatMap_cons

theorem length_bitsOfFes (symbols : List Fe32) : (bitsOfFes symbols).length = 5 * symbols.length := by
  induction symbols with
  | nil => rfl
  | cons fe rest ih =>
    rw [bitsOfFes_cons, List.length_append, length_bitsOf, ih, List.length_cons]
    omega

/-- The symbols are determined by their bits. -/
theorem bitsOfFes_inj {one two : List Fe32} : bitsOfFes one = bitsOfFes two ↔ one = two :=
  ⟨flatMap_bitsOf_inj (by decide) (fun fe => fe.isLt) (fun _ _ => Fin.ext),
    congrArg bitsOfFes⟩

/-- The bits after the last whole byte are fewer than five zeros. -/
def Padded (symbols : List Fe32) : Prop :=
  ((bitsOfFes symbols).drop ((bitsOfFes symbols).length / 8 * 8)).length < 5 ∧
    ∀ bit ∈ (bitsOfFes symbols).drop ((bitsOfFes symbols).length / 8 * 8), bit = false

instance decidablePadded (symbols : List Fe32) : Decidable (Padded symbols) :=
  inferInstanceAs (Decidable (_ ∧ _))

section
variable [Bech32] [Lawful]

/-- Bytes come back from their symbols. -/
theorem fesToBytes_bytesToFes (bytes : Bytes) : fesToBytes (bytesToFes bytes) = bytes := by
  obtain ⟨pad, small, bits⟩ := Lawful.bits_bytesToFes bytes
  apply bitsOfBytes_inj.mp
  have length : (bitsOfFes (bytesToFes bytes)).length / 8 * 8 = (bitsOfBytes bytes).length := by
    rw [bits, List.length_append, List.length_replicate, length_bitsOfBytes]
    omega
  rw [Lawful.bits_fesToBytes, length, bits, List.take_left]

/-- Symbols come back from the bytes they spell exactly when they are padded the way the
encoder pads. -/
theorem bytesToFes_fesToBytes (symbols : List Fe32) :
    bytesToFes (fesToBytes symbols) = symbols ↔ Padded symbols := by
  obtain ⟨pad, small, bits⟩ := Lawful.bits_bytesToFes (fesToBytes symbols)
  rw [Lawful.bits_fesToBytes] at bits
  have split := List.take_append_drop ((bitsOfFes symbols).length / 8 * 8) (bitsOfFes symbols)
  rw [← bitsOfFes_inj, bits]
  constructor
  · intro same
    have rest : List.replicate pad false =
        (bitsOfFes symbols).drop ((bitsOfFes symbols).length / 8 * 8) :=
      List.append_cancel_left (same.trans split.symm)
    rw [Padded, ← rest, List.length_replicate]
    exact ⟨small, fun bit member => List.eq_of_mem_replicate member⟩
  · rintro ⟨short, zeros⟩
    have padding := List.eq_replicate_of_mem zeros
    have count : pad = ((bitsOfFes symbols).drop ((bitsOfFes symbols).length / 8 * 8)).length := by
      have total := congrArg List.length bits
      have whole := congrArg List.length split
      rw [length_bitsOfFes, List.length_append, List.length_replicate] at total
      rw [List.length_append] at whole
      rw [length_bitsOfFes symbols] at *
      omega
    rw [count, ← padding, split]

theorem length_fesToBytes (symbols : List Fe32) : (fesToBytes symbols).length = 5 * symbols.length / 8 := by
  have length := congrArg List.length (Lawful.bits_fesToBytes symbols)
  rw [length_bitsOfBytes, List.length_take, length_bitsOfFes] at length
  omega

theorem length_bytesToFes_le (bytes : Bytes) : (bytesToFes bytes).length ≤ 2 * bytes.length := by
  obtain ⟨pad, small, bits⟩ := Lawful.bits_bytesToFes bytes
  have length := congrArg List.length bits
  rw [length_bitsOfFes, List.length_append, length_bitsOfBytes, List.length_replicate] at length
  omega

/-- A text is as long as its parts. -/
theorem length_of_hrpstring {s hrp : Bytes} {symbols : List Fe32}
    (read : uncheckedHrpstring s = some (hrp, symbols)) : s.length = hrp.length + 1 + symbols.length := by
  have length := congrArg List.length (Lawful.text_of_hrpstring read)
  rw [lower, List.length_map, text, List.length_append, List.length_cons, List.length_map] at length
  omega

theorem lower_text {hrp : Bytes} (plain : PlainHrp hrp) (symbols : List Fe32) :
    lower (text hrp symbols) = text hrp symbols :=
  Lawful.text_of_hrpstring (Lawful.hrpstring_text plain symbols).1

/-- Equal texts have equal symbols. -/
theorem text_inj {hrp : Bytes} (plain : PlainHrp hrp) {one two : List Fe32} :
    text hrp one = text hrp two ↔ one = two := by
  refine ⟨fun same => ?_, congrArg (text hrp)⟩
  have read := (Lawful.hrpstring_text plain one).1
  rw [same, (Lawful.hrpstring_text plain two).1] at read
  exact (Prod.mk.inj (Option.some.inj read)).2.symm

theorem removeChecksum_append (kind : ChecksumKind) (hrp : Bytes) (data : List Fe32) :
    removeChecksum (data ++ checksum kind hrp data) = data := by
  rw [removeChecksum, List.length_append, Lawful.length_checksum, Nat.add_sub_cancel, List.take_left]

end
end Bech32
end Litecoin
