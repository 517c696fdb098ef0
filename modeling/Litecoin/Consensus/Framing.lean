import Litecoin.Consensus.Format
import Litecoin.Crypto.Hashes
import Litecoin.Wire.Rewriting
import Litecoin.Wire.Text

/-! Booleans, strings and checked data (`consensus/encode.rs`), and how readers of the
consensus encoding rewrite what they accept. -/
namespace Litecoin.Consensus
open Wire

theorem Codec.rewrites {emit : α → Emission IoError} {d : Decoder Error α} {wire : α → Bytes}
    (codec : Codec emit d wire) : Rewrites emit d d (fun _ => True) :=
  .ofReads codec.reads fun a _ => codec.emits a

theorem Codec.counts {emit : α → Emission IoError} {d : Decoder Error α} {wire : α → Bytes}
    (codec : Codec emit d wire) (a : α) : (emit a).Counts := by
  rw [codec.emits]
  exact Emission.counts_written _

theorem counts_encodeVec {emit : α → Emission IoError} (counts : ∀ a, (emit a).Counts)
    (values : Vec α) : (encodeVec emit values).Counts :=
  (VarInt.codec.counts _).append (.each counts _)

theorem decodeVec_rewrites {emit : α → Emission IoError} {d strict : Decoder Error α}
    {Known : α → Prop} (rewrites : Rewrites emit d strict Known) :
    Rewrites (encodeVec emit) (decodeVec d) (decodeVec strict)
      (fun values => ∀ a ∈ values.toList, Known a) := by
  have elements (len : UInt64) (_ : True) :
      Rewrites (fun values : Vec α => Emission.each emit values.toList)
        (d.times len.toNat >>= fun values =>
          pure (⟨values.val, by rw [values.property]; exact len.toNat_lt⟩ : Vec α))
        (strict.times len.toNat >>= fun values =>
          pure (⟨values.val, by rw [values.property]; exact len.toNat_lt⟩ : Vec α))
        (fun values => (∀ a ∈ values.toList, Known a) ∧ values.len = len) := by
    refine (rewrites.times len.toNat).finish _ fun values valid => ⟨⟨valid, ?_⟩, rfl⟩
    rw [Vec.len, values.property, UInt64.ofNat_toNat]
  exact VarInt.codec.rewrites.bind elements fun len values _ fixed => ⟨fixed.1, by rw [encodeVec, fixed.2]⟩

/-- `read_bool`: the byte is read with a sign, which plays no role. -/
def readBool : Decoder Error Bool := (fun byte => byte != 0) <$> readU8

def encodeBool (value : Bool) : Emission IoError := .counted 1 [value.toUInt8]

/-- Only zero and one. -/
def strictBool : Decoder Error Bool := do
  let byte ← readU8
  if byte ≤ 1 then pure (byte != 0) else Decoder.fail (.parseFailed "not a boolean")

theorem bool_toUInt8 (byte : UInt8) : byte ≤ 1 → byte = (byte != 0).toUInt8 := by
  revert byte
  exact forall_byte (by decide +kernel)

theorem readBool_rewrites : Rewrites encodeBool readBool strictBool (fun _ => True) where
  known _ := trivial
  rewritten {bytes value rest} read := by
    obtain ⟨byte, readByte, rfl⟩ := Decoder.map_eq_ok.mp read
    obtain ⟨-, rfl⟩ := (readU8_codec.reads _ _ _).mp readByte
    refine ⟨[(byte != 0).toUInt8], rfl, ?_, fun suffix => ?_, ?_⟩
    · rw [List.length_append, List.length_singleton, littleEndian_length]
    · refine Decoder.map_eq_ok.mpr ⟨(byte != 0).toUInt8, (readU8_codec.reads _ _ _).mpr ⟨trivial, ?_⟩, ?_⟩
      · rw [littleEndian_one]
      · cases byte != 0 <;> rfl
    · simp only [strictBool, Decoder.bind_eq_ok, Decoder.ite_eq_ok, Decoder.pure_eq_ok,
        Decoder.fail_eq_ok, readU8_codec.reads _ _ _, littleEndian_one, List.singleton_append,
        List.cons.injEq, true_and, and_false, or_false]
      constructor
      · rintro ⟨_, _, ⟨rfl, rfl⟩, boolean, -, -⟩
        exact ⟨bool_toUInt8 byte boolean, trivial⟩
      · rintro ⟨same, -⟩
        refine ⟨byte, rest, ⟨rfl, rfl⟩, ?_, rfl, rfl⟩
        rw [same]
        cases byte != 0 <;> decide
  sound {bytes result} read := by
    obtain ⟨value, rest⟩ := result
    simp only [strictBool, Decoder.bind_eq_ok, Decoder.ite_eq_ok, Decoder.pure_eq_ok,
      Decoder.fail_eq_ok, and_false, or_false] at read
    obtain ⟨byte, _, read, _, rfl, rfl⟩ := read
    exact Decoder.map_eq_ok.mpr ⟨byte, read, rfl⟩

/-- `String`: bytes that are known to be UTF-8. -/
structure Text where
  bytes : ByteVec
  valid : (ByteArray.mk bytes.toList.toArray).IsValidUTF8
deriving DecidableEq

namespace Text

def consensusEncode (text : Text) : Emission IoError := encodeWithSize text.bytes

/-- `String::from_utf8`. -/
def fromUtf8 (bytes : ByteVec) : Decoder Error Text :=
  if valid : (ByteArray.mk bytes.toList.toArray).IsValidUTF8 then pure ⟨bytes, valid⟩
  else Decoder.fail (.parseFailed "String was not valid UTF8")

def consensusDecode : Decoder Error Text := do
  let bytes ← Consensus.consensusDecode decodeBytes
  fromUtf8 bytes

theorem rewrites : Rewrites consensusEncode consensusDecode consensusDecode (fun _ => True) := by
  have checked (bytes : ByteVec) (_ : True) :
      Rewrites (fun _ => (.written [] : Emission IoError)) (fromUtf8 bytes) (fromUtf8 bytes)
        (fun text => text.bytes = bytes) := by
    rw [fromUtf8]
    split
    · exact .done rfl
    · exact .fail _
  refine (bytes_codec.rewrites.take maxVecSize).bind checked fun bytes text _ fixed => ⟨trivial, ?_⟩
  rw [consensusEncode, fixed, Emission.append_nothing]

end Text

/-- A byte string that its checksum was compared with. -/
structure CheckedData where
  data : ByteVec
  checksum : ByteArr 4
deriving DecidableEq

section
variable [Hashes]

def sha2Checksum (data : Bytes) : ByteArr 4 :=
  ⟨(Hashes.sha256d data).val.take 4, by rw [List.length_take, (Hashes.sha256d data).property]; rfl⟩

/-- `CheckedData`, whose length field is a `u32`. -/
def CheckedData.consensusDecodeFromFiniteReader : Decoder Error CheckedData := do
  let len ← readU32
  let checksum ← readExact 4
  let data ← readBytesFromFiniteReader len.toNat maxVecSize (by decide)
  let expectedChecksum := sha2Checksum data.val
  if expectedChecksum ≠ checksum then
    Decoder.fail (.invalidChecksum expectedChecksum.val checksum.val)
  else
    pure { data := ⟨data.val, by rw [data.property]; exact len.toNat_lt.trans (by decide)⟩, checksum }

theorem CheckedData.consensusDecode_eq_ok {checked : CheckedData} :
    consensusDecodeFromFiniteReader bytes = .ok (checked, rest) ↔
      ∃ len : UInt32, checked.data.toList.length = len.toNat ∧
        checked.checksum = sha2Checksum checked.data.toList ∧
        bytes = littleEndian 4 len.toNat ++
          (checked.checksum.val ++ (checked.data.toList ++ rest)) := by
  have dataReads (len : UInt32) :=
    readChunks_reads maxVecSize (by decide) len.toNat len.toNat le_rfl
  simp only [consensusDecodeFromFiniteReader, Decoder.bind_eq_ok, Decoder.ite_eq_ok,
    Decoder.fail_eq_ok, Decoder.pure_eq_ok, readU32_codec.reads _ _ _,
    (readExact_codec 4).reads _ _ _, readBytesFromFiniteReader, dataReads _ _ _ _, true_and,
    and_false, false_or, Decidable.not_not, ne_eq]
  constructor
  · rintro ⟨len, _, rfl, checksum, _, rfl, ⟨data, length⟩, _, rfl, valid, rfl, rfl⟩
    exact ⟨len, length, valid.symm, rfl⟩
  · rintro ⟨len, length, valid, rfl⟩
    exact ⟨len, _, rfl, checked.checksum, _, rfl, ⟨checked.data.toList, length⟩, rest, rfl,
      valid.symm, rfl, rfl⟩

end
end Litecoin.Consensus
