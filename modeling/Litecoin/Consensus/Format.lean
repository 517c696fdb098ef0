import Litecoin.Consensus.Encode

/-! Byte grammars of the primitive encodings. Each writer emits the grammar with
the right count, and each reader accepts exactly the grammar. -/
namespace Litecoin.Consensus
open Wire

/-- The grammar of a type whose every value is written and read back. -/
structure Codec (emit : α → Emission IoError) (d : Decoder Error α) (wire : α → Bytes) : Prop where
  emits : ∀ a, emit a = .written (wire a)
  reads : Reads d wire (fun _ => True)

theorem readInt_codec {toNat : α → Nat} {ofNat : Nat → α}
    (fits : ∀ a, toNat a < 256 ^ width) (left : ∀ a, ofNat (toNat a) = a)
    (right : ∀ n < 256 ^ width, toNat (ofNat n) = n) :
    Codec (encodeInt width toNat) (readInt width ofNat) (fun a => littleEndian width (toNat a)) where
  emits a := Emission.counted_eq_written (littleEndian_length _ _).symm
  reads := by
    have numbers := Reads.number width (Error.io .unexpectedEof)
    refine (numbers.map ofNat toNat right fun a _ => left a).congr (fun a => ?_) (fun _ _ => rfl)
    simp only [Function.comp_apply, fits a]

theorem readU8_codec : Codec encodeU8 readU8 (fun n => littleEndian 1 n.toNat) :=
  readInt_codec UInt8.toNat_lt (fun _ => UInt8.ofNat_toNat) fun _ => UInt8.toNat_ofNat_of_lt'

theorem readU16_codec : Codec encodeU16 readU16 (fun n => littleEndian 2 n.toNat) :=
  readInt_codec UInt16.toNat_lt (fun _ => UInt16.ofNat_toNat) fun _ => UInt16.toNat_ofNat_of_lt'

theorem readU32_codec : Codec encodeU32 readU32 (fun n => littleEndian 4 n.toNat) :=
  readInt_codec UInt32.toNat_lt (fun _ => UInt32.ofNat_toNat) fun _ => UInt32.toNat_ofNat_of_lt'

theorem readU64_codec : Codec encodeU64 readU64 (fun n => littleEndian 8 n.toNat) :=
  readInt_codec UInt64.toNat_lt (fun _ => UInt64.ofNat_toNat) fun _ => UInt64.toNat_ofNat_of_lt'

theorem readI32_codec : Codec encodeI32 readI32 (fun n => littleEndian 4 n.toUInt32.toNat) :=
  readInt_codec (fun n => n.toUInt32.toNat_lt) (fun n => by simp) fun n fits => by
    simpa using UInt32.toNat_ofNat_of_lt' fits

theorem readI64_codec : Codec encodeI64 readI64 (fun n => littleEndian 8 n.toUInt64.toNat) :=
  readInt_codec (fun n => n.toUInt64.toNat_lt) (fun n => by simp) fun n fits => by
    simpa using UInt64.toNat_ofNat_of_lt' fits

theorem readExact_codec (n : Nat) : Codec encodeArray (readExact n) Subtype.val where
  emits _ := rfl
  reads := Reads.exact n _

theorem deserialize_eq_ok {d : Decoder Error α} : deserialize d data = .ok a ↔ d data = .ok (a, []) :=
  Decoder.whole_eq_ok

theorem serialize_written (bytes data : Bytes) :
    serialize (.written bytes) = .ok data ↔ bytes = data := by
  rw [serialize, Emission.toBytes_written, Except.ok.injEq]

/-- One byte is its own image. -/
theorem littleEndian_one (byte : UInt8) : littleEndian 1 byte.toNat = [byte] := by
  simp [littleEndian]

namespace VarInt

def wire (n : UInt64) : Bytes :=
  if n ≤ 0xFC then [n.toUInt8]
  else if n ≤ 0xFFFF then 0xFD :: littleEndian 2 n.toNat
  else if n ≤ 0xFFFFFFFF then 0xFE :: littleEndian 4 n.toNat
  else 0xFF :: littleEndian 8 n.toNat

theorem wire_length (n : UInt64) : (wire n).length = size n := by
  simp only [wire, size]
  split_ifs <;> simp

theorem wire_length_pos (n : UInt64) : 1 ≤ (wire n).length := by
  rw [wire_length, size]
  split_ifs <;> omega

theorem wire_length_le (n : UInt64) : (wire n).length ≤ 9 := by
  rw [wire_length, size]
  split_ifs <;> omega

theorem consensusEncode_eq (n : UInt64) : consensusEncode n = .written (wire n) := by
  simp only [consensusEncode, wire]
  split_ifs with byte short word
  · rw [littleEndian_one]; rfl
  · have fits : n.toNat < 2 ^ 16 := by
      have := UInt64.le_iff_toNat_le.mp short
      simp at this; omega
    rw [UInt64.toNat_toUInt16, Nat.mod_eq_of_lt fits]
    exact Emission.counted_eq_written (by simp)
  · have fits : n.toNat < 2 ^ 32 := by
      have := UInt64.le_iff_toNat_le.mp word
      simp at this; omega
    rw [UInt64.toNat_toUInt32, Nat.mod_eq_of_lt fits]
    exact Emission.counted_eq_written (by simp)
  · exact Emission.counted_eq_written (by simp)

theorem wire_u8 {tag : UInt8} (short : tag ≤ 0xFC) : wire tag.toUInt64 = [tag] := by
  have fits : tag.toUInt64 ≤ 0xFC := by
    simpa [UInt64.le_iff_toNat_le, UInt8.le_iff_toNat_le] using short
  simp [wire, fits]

theorem wire_u16 {x : UInt16} (minimal : ¬ x < 0xFD) :
    wire x.toUInt64 = 0xFD :: littleEndian 2 x.toNat := by
  have upper := x.toNat_lt
  have low : ¬ x.toUInt64 ≤ 0xFC := by
    simp [UInt64.le_iff_toNat_le, UInt16.lt_iff_toNat_lt] at minimal ⊢; omega
  have high : x.toUInt64 ≤ 0xFFFF := by
    simp [UInt64.le_iff_toNat_le]; omega
  simp [wire, low, high]

theorem wire_u32 {x : UInt32} (minimal : ¬ x < 0x10000) :
    wire x.toUInt64 = 0xFE :: littleEndian 4 x.toNat := by
  have upper := x.toNat_lt
  have low : ¬ x.toUInt64 ≤ 0xFFFF := by
    simp [UInt64.le_iff_toNat_le, UInt32.lt_iff_toNat_lt] at minimal ⊢; omega
  have lower : ¬ x.toUInt64 ≤ 0xFC := by
    simp [UInt64.le_iff_toNat_le, UInt32.lt_iff_toNat_lt] at minimal ⊢; omega
  have high : x.toUInt64 ≤ 0xFFFFFFFF := by
    simp [UInt64.le_iff_toNat_le]; omega
  simp [wire, lower, low, high]

theorem wire_u64 {x : UInt64} (minimal : ¬ x < 0x100000000) :
    wire x = 0xFF :: littleEndian 8 x.toNat := by
  simp only [wire, UInt64.le_iff_toNat_le, UInt64.lt_iff_toNat_lt] at minimal ⊢
  simp at minimal
  split_ifs with byte short word
  · simp at byte; omega
  · simp at short; omega
  · simp at word; omega
  · rfl

/-- Every number has exactly one of the four forms. -/
theorem wire_cases (n : UInt64) :
    (∃ tag : UInt8, tag ≤ 0xFC ∧ n = tag.toUInt64) ∨
    (∃ x : UInt16, ¬ x < 0xFD ∧ n = x.toUInt64) ∨
    (∃ x : UInt32, ¬ x < 0x10000 ∧ n = x.toUInt64) ∨ ¬ n < 0x100000000 := by
  have upper := n.toNat_lt
  by_cases byte : n.toNat ≤ 0xFC
  · refine .inl ⟨n.toUInt8, ?_, UInt64.toNat_inj.mp ?_⟩
    · simp [UInt8.le_iff_toNat_le]; omega
    · simp; omega
  by_cases short : n.toNat ≤ 0xFFFF
  · refine .inr (.inl ⟨n.toUInt16, ?_, UInt64.toNat_inj.mp ?_⟩)
    · simp [UInt16.lt_iff_toNat_lt]; omega
    · simp; omega
  by_cases word : n.toNat ≤ 0xFFFFFFFF
  · refine .inr (.inr (.inl ⟨n.toUInt32, ?_, UInt64.toNat_inj.mp ?_⟩))
    · simp [UInt32.lt_iff_toNat_lt]; omega
    · simp; omega
  · refine .inr (.inr (.inr ?_))
    simp [UInt64.lt_iff_toNat_lt]; omega

theorem reads : Reads consensusDecode wire (fun _ => True) := by
  intro bytes n rest
  simp only [consensusDecode, Decoder.bind_eq_ok, Decoder.ite_eq_ok, Decoder.fail_eq_ok,
    Decoder.pure_eq_ok, readU8_codec.reads _ _ _, readU16_codec.reads _ _ _,
    readU32_codec.reads _ _ _, readU64_codec.reads _ _ _, littleEndian_one,
    true_and, List.singleton_append, and_false, false_or]
  constructor
  · intro read
    obtain ⟨tag, _, rfl, ⟨rfl, x, _, rfl, minimal, rfl, rfl⟩ | ⟨not8, read⟩⟩ := read
    · rw [wire_u64 minimal, List.cons_append]
    obtain ⟨rfl, x, _, rfl, minimal, rfl, rfl⟩ | ⟨not4, read⟩ := read
    · rw [wire_u32 minimal, List.cons_append]
    obtain ⟨rfl, x, _, rfl, minimal, rfl, rfl⟩ | ⟨not2, rfl, rfl⟩ := read
    · rw [wire_u16 minimal, List.cons_append]
    · have short : tag ≤ 0xFC := by
        have upper := tag.toNat_lt
        simp [← UInt8.toNat_inj, UInt8.le_iff_toNat_le] at not8 not4 not2 ⊢; omega
      rw [wire_u8 short, List.singleton_append]
  · rintro rfl
    obtain ⟨tag, short, rfl⟩ | ⟨x, minimal, rfl⟩ | ⟨x, minimal, rfl⟩ | minimal := wire_cases n
    · have distinct : tag ≠ 0xFF ∧ tag ≠ 0xFE ∧ tag ≠ 0xFD := by
        refine ⟨?_, ?_, ?_⟩ <;> rintro rfl <;> exact absurd short (by decide)
      rw [wire_u8 short]
      exact ⟨tag, rest, rfl, .inr ⟨distinct.1, .inr ⟨distinct.2.1, .inr ⟨distinct.2.2, rfl, rfl⟩⟩⟩⟩
    · rw [wire_u16 minimal]
      exact ⟨_, _, rfl, .inr ⟨by decide, .inr ⟨by decide, .inl ⟨rfl, x, rest, rfl, minimal, rfl, rfl⟩⟩⟩⟩
    · rw [wire_u32 minimal]
      exact ⟨_, _, rfl, .inr ⟨by decide, .inl ⟨rfl, x, rest, rfl, minimal, rfl, rfl⟩⟩⟩
    · rw [wire_u64 minimal]
      exact ⟨_, _, rfl, .inl ⟨rfl, n, rest, rfl, minimal, rfl, rfl⟩⟩

/-- The image of a count starts with zero only for the count zero. -/
theorem wire_head {n : UInt64} (positive : n.toNat ≠ 0) :
    ∃ first tail, wire n = first :: tail ∧ first ≠ 0 := by
  rw [wire]
  split_ifs with byte short word
  · refine ⟨n.toUInt8, [], rfl, fun zero => positive ?_⟩
    have small : n.toNat < 256 := by
      have := UInt64.le_iff_toNat_le.mp byte
      simp at this
      omega
    have low := congrArg UInt8.toNat zero
    rw [UInt64.toNat_toUInt8, Nat.mod_eq_of_lt small] at low
    exact low
  · exact ⟨_, _, rfl, by decide⟩
  · exact ⟨_, _, rfl, by decide⟩
  · exact ⟨_, _, rfl, by decide⟩

theorem codec : Codec consensusEncode consensusDecode wire := ⟨consensusEncode_eq, reads⟩

end VarInt

def vecWire (wire : α → Bytes) (values : Vec α) : Bytes :=
  VarInt.wire values.len ++ values.toList.flatMap wire

def bytesWire (data : ByteVec) : Bytes := VarInt.wire data.len ++ data.toList

theorem vecWire_map {wire : α → Bytes} {f : α → α} (values : Vec α)
    (same : ∀ a, wire (f a) = wire a) : vecWire wire (values.map f) = vecWire wire values := by
  simp only [vecWire, Vec.len_map, Vec.toList_map, List.flatMap_map, same]

theorem encodeVec_eq {emit : α → Emission IoError} {wire : α → Bytes} {values : Vec α}
    (emits : ∀ a ∈ values.toList, emit a = .written (wire a)) :
    encodeVec emit values = .written (vecWire wire values) := by
  rw [encodeVec, VarInt.codec.emits, Emission.each_written emits, Emission.written_append, vecWire]

theorem encodeWithSize_eq (data : ByteVec) : encodeWithSize data = .written (bytesWire data) := by
  rw [encodeWithSize, VarInt.codec.emits]
  exact Emission.written_append _ _

/-- A counted sequence: the count determines how much the tail may hold. -/
theorem Vec.reads_counted
    (tail : (n : Nat) → Decoder Error { values : List α // values.length = n })
    (wire : List α → Bytes) (Valid : List α → Prop)
    (reads : ∀ n, Reads (tail n) (fun values => wire values.val) (fun values => Valid values.val)) :
    Reads (do
      let len ← VarInt.consensusDecode
      let values ← tail len.toNat
      pure (⟨values.val, by rw [values.property]; exact len.toNat_lt⟩ : Vec α))
      (fun values => VarInt.wire values.len ++ wire values.toList)
      (fun values => Valid values.toList) := by
  intro bytes values rest
  simp only [Decoder.bind_eq_ok, Decoder.pure_eq_ok, VarInt.reads _ _ _, reads _ _ _, true_and]
  constructor
  · rintro ⟨len, _, rfl, ⟨elements, count⟩, _, ⟨valid, rfl⟩, rfl, rfl⟩
    have same : (⟨elements, by rw [count]; exact len.toNat_lt⟩ : Vec α).len = len := by
      rw [Vec.len]
      exact UInt64.toNat_inj.mp (by rw [count, UInt64.ofNat_toNat])
    refine ⟨valid, ?_⟩
    rw [same, List.append_assoc]
  · rintro ⟨valid, rfl⟩
    exact ⟨values.len, _, List.append_assoc _ _ _, ⟨values.toList, values.len_toNat.symm⟩, rest,
      ⟨valid, rfl⟩, rfl, rfl⟩

theorem decodeVec_reads {d : Decoder Error α} {wire : α → Bytes} {Valid : α → Prop}
    (reads : Reads d wire Valid) :
    Reads (decodeVec d) (vecWire wire) (fun values => ∀ a ∈ values.toList, Valid a) :=
  Vec.reads_counted d.times (List.flatMap wire) (fun values => ∀ a ∈ values, Valid a) reads.times

theorem decodeVec_images {d : Decoder Error α} {image : α → Bytes} {values : Vec α}
    (each : ∀ a ∈ values.toList, ∀ rest, d (image a ++ rest) = .ok (a, rest)) (rest : Bytes) :
    decodeVec d (vecWire image values ++ rest) = .ok (values, rest) := by
  simp only [decodeVec, Decoder.bind_eq_ok, Decoder.pure_eq_ok, VarInt.reads _ _ _, true_and]
  exact ⟨values.len, _, List.append_assoc _ _ _, ⟨values.toList, values.len_toNat.symm⟩, rest,
    Decoder.times_images each values.len_toNat.symm rest, rfl, rfl⟩

theorem encodeVec_eq_ok {emit : α → Emission IoError} {values : Vec α}
    (emitted : encodeVec emit values = .ok result) :
    ∀ a ∈ values.toList, ∃ result, emit a = .ok result := by
  obtain ⟨_, _, _, _, _, elements, _⟩ := Emission.append_eq_ok.mp emitted
  exact Emission.each_eq_ok elements

theorem decodeVec_refuses {d : Decoder Error α} {wire : α → Bytes} {values : Vec α}
    (Good : α → Prop)
    (good : ∀ a ∈ values.toList, Good a → ∀ rest, ∃ b, d (wire a ++ rest) = .ok (b, rest))
    (bad : ∀ a ∈ values.toList, ¬ Good a → ∀ rest, d.Refuses (wire a ++ rest))
    (refused : ∃ a ∈ values.toList, ¬ Good a) (rest : Bytes) :
    (decodeVec d).Refuses (vecWire wire values ++ rest) := by
  rw [vecWire, List.append_assoc]
  refine Decoder.Refuses.after (VarInt.reads.read trivial _) (Decoder.Refuses.bind ?_ _)
  rw [values.len_toNat]
  exact Decoder.Refuses.times good bad refused rest

theorem readChunks_reads (chunkSize : Nat) (positive : 0 < chunkSize) (fuel len : Nat)
    (enough : len ≤ fuel) :
    Reads (readChunks chunkSize positive fuel len enough) Subtype.val (fun _ => True) := by
  induction fuel generalizing len with
  | zero =>
    obtain rfl : len = 0 := by omega
    rintro bytes ⟨chunk, empty⟩ rest
    obtain rfl := List.eq_nil_of_length_eq_zero empty
    simp [readChunks]
  | succ fuel ih =>
    cases len with
    | zero =>
      rintro bytes ⟨chunk, empty⟩ rest
      obtain rfl := List.eq_nil_of_length_eq_zero empty
      simp [readChunks]
    | succ len =>
      rintro bytes ⟨data, length⟩ rest
      simp only [readChunks, Decoder.bind_eq_ok, Decoder.pure_eq_ok, readExact, Decoder.exact_eq_ok,
        ih _ _ _ _, true_and, Subtype.mk.injEq]
      constructor
      · rintro ⟨chunk, _, rfl, tail, _, rfl, rfl, rfl⟩
        rw [List.append_assoc]
      · rintro rfl
        refine ⟨⟨data.take (min (len + 1) chunkSize), ?_⟩, _, ?_,
          ⟨data.drop (min (len + 1) chunkSize), ?_⟩, rest, rfl, List.take_append_drop _ _, rfl⟩
        · rw [List.length_take]; omega
        · rw [← List.append_assoc, List.take_append_drop]
        · rw [List.length_drop]; omega

theorem decodeBytes_reads : Reads decodeBytes bytesWire (fun _ => True) :=
  Vec.reads_counted (fun len => readBytesFromFiniteReader len (128 * 1024) (by decide)) id
    (fun _ => True) fun len => readChunks_reads _ _ len len le_rfl

theorem bytesWire_inj {data other : ByteVec} (same : bytesWire data = bytesWire other) : data = other :=
  (decodeBytes_reads.unique trivial trivial (congrArg (· ++ []) same)).1

theorem bytes_codec : Codec encodeWithSize decodeBytes bytesWire :=
  ⟨encodeWithSize_eq, decodeBytes_reads⟩

end Litecoin.Consensus
