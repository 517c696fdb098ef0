import Litecoin.Bip158
import Litecoin.Wire.Bits

/-! The bit streams of filters: what is written is read back, at any offset in a byte. -/
namespace Litecoin.Bip158
open Wire Consensus

theorem takeBits_toNat (buffer : UInt8) {offset bits : Nat} (some : 0 < bits) (inside : offset < 8)
    (within : offset + bits ≤ 8) :
    ((buffer <<< UInt8.ofNat offset) >>> UInt8.ofNat (8 - bits)).toUInt64.toNat =
      buffer.toNat / 2 ^ (8 - offset - bits) % 2 ^ bits := by
  have taken := top_bits buffer.toNat 8 (8 - offset) bits (by omega) (by omega)
  have low : min bits (8 - offset) = bits := by omega
  have moved : 8 - (8 - offset) = offset := by omega
  rw [low, moved, Nat.sub_self, Nat.pow_zero, Nat.mul_one] at taken
  have up : (UInt8.ofNat offset).toNat % 8 = offset := by
    rw [UInt8.toNat_ofNat_of_lt' (by simp [UInt8.size]; omega), Nat.mod_eq_of_lt inside]
  have down : (UInt8.ofNat (8 - bits)).toNat % 8 = 8 - bits := by
    rw [UInt8.toNat_ofNat_of_lt' (by simp [UInt8.size]; omega), Nat.mod_eq_of_lt (by omega)]
  rw [UInt8.toNat_toUInt64, UInt8.toNat_shiftRight, UInt8.toNat_shiftLeft, up, down,
    Nat.shiftLeft_eq, Nat.shiftRight_eq_div_pow]
  exact taken

theorem putBits_toNat (data : UInt64) {offset nbits : Nat} (some : 0 < nbits) (fits : nbits ≤ 64)
    (inside : offset < 8) :
    ((data <<< UInt64.ofNat (64 - nbits)) >>> UInt64.ofNat (64 - 8 + offset)).toUInt8.toNat =
      data.toNat / 2 ^ (nbits - min (8 - offset) nbits) % 2 ^ min (8 - offset) nbits *
        2 ^ (8 - offset - min (8 - offset) nbits) := by
  have put := top_bits data.toNat 64 nbits (8 - offset) fits (by omega)
  have moved : 64 - (8 - offset) = 64 - 8 + offset := by omega
  rw [moved] at put
  have up : (UInt64.ofNat (64 - nbits)).toNat % 64 = 64 - nbits := by
    rw [UInt64.toNat_ofNat_of_lt' (by simp [UInt64.size]; omega), Nat.mod_eq_of_lt (by omega)]
  have down : (UInt64.ofNat (64 - 8 + offset)).toNat % 64 = 64 - 8 + offset := by
    rw [UInt64.toNat_ofNat_of_lt' (by simp [UInt64.size]; omega), Nat.mod_eq_of_lt (by omega)]
  rw [UInt64.toNat_toUInt8, UInt64.toNat_shiftRight, UInt64.toNat_shiftLeft, up, down,
    Nat.shiftLeft_eq, Nat.shiftRight_eq_div_pow, put, Nat.mod_eq_of_lt]
  calc data.toNat / 2 ^ (nbits - min (8 - offset) nbits) % 2 ^ min (8 - offset) nbits *
        2 ^ (8 - offset - min (8 - offset) nbits)
      < 2 ^ min (8 - offset) nbits * 2 ^ (8 - offset - min (8 - offset) nbits) :=
        Nat.mul_lt_mul_of_pos_right (Nat.mod_lt _ (Nat.two_pow_pos _)) (Nat.two_pow_pos _)
    _ = 2 ^ (8 - offset) := by rw [← Nat.pow_add]; congr 1; omega
    _ ≤ 2 ^ 8 := Nat.pow_le_pow_right (by decide) (by omega)

theorem join_toNat {data chunk : UInt64} {bits : Nat} (short : bits < 64)
    (below : chunk.toNat < 2 ^ bits) (room : data.toNat * 2 ^ bits < 2 ^ 64) :
    (data <<< UInt64.ofNat bits ||| chunk).toNat = data.toNat * 2 ^ bits + chunk.toNat := by
  have up : (UInt64.ofNat bits).toNat % 64 = bits := by
    rw [UInt64.toNat_ofNat_of_lt' (by simp [UInt64.size]; omega), Nat.mod_eq_of_lt short]
  rw [UInt64.toNat_or, UInt64.toNat_shiftLeft, up, Nat.shiftLeft_eq, Nat.mod_eq_of_lt room,
    Nat.mul_comm, Nat.two_pow_add_eq_or_of_lt below]

namespace BitStreamReader

/-- The reader stands before a string of bits. -/
structure Before (stream : BitStreamReader) (bits : List Bool) : Prop where
  within : stream.offset ≤ 8
  left : bitsOf stream.buffer.toNat (8 - stream.offset) ++ bitsOfBytes stream.reader = bits

theorem before_new (bytes : Bytes) : (new bytes).Before (bitsOfBytes bytes) := ⟨Nat.le_refl 8, rfl⟩

theorem Before.available_eq {stream : BitStreamReader} (stands : stream.Before bits) :
    stream.available = bits.length := by
  rw [available, ← stands.left, List.length_append, length_bitsOf, length_bitsOfBytes]

theorem Before.refill {stream : BitStreamReader} (stands : stream.Before bits) (some : bits ≠ []) :
    ∃ next, stream.refill = .ok next ∧ next.offset < 8 ∧ next.Before bits := by
  obtain ⟨within, left⟩ := stands
  rw [BitStreamReader.refill]
  split_ifs with used
  · rw [used] at left
    cases follows : stream.reader with
    | nil =>
      rw [follows] at left
      exact absurd left.symm some
    | cons byte reader =>
      rw [follows, bitsOfBytes_cons] at left
      exact ⟨_, rfl, Nat.succ_pos 7, Nat.zero_le 8, left⟩
  · exact ⟨stream, rfl, by omega, within, left⟩

/-- The bits of one round are the top ones of the number that is read. -/
theorem Before.split {stream : BitStreamReader} {n bits low : Nat}
    (stands : stream.Before (bitsOf n (bits + low) ++ rest)) (inside : stream.offset + bits ≤ 8)
    (fits : n < 2 ^ (bits + low)) :
    stream.buffer.toNat / 2 ^ (8 - stream.offset - bits) % 2 ^ bits = n / 2 ^ low ∧
      { stream with offset := stream.offset + bits }.Before (bitsOf (n % 2 ^ low) low ++ rest) := by
  obtain ⟨_, left⟩ := stands
  have whole : 8 - stream.offset = bits + (8 - stream.offset - bits) := by omega
  rw [whole, bitsOf_add, bitsOf_add, List.append_assoc, List.append_assoc] at left
  obtain ⟨same, left⟩ := List.append_inj left (by rw [length_bitsOf, length_bitsOf])
  constructor
  · rw [bitsOf_eq_iff.mp same]
    apply Nat.mod_eq_of_lt
    rw [Nat.pow_add, Nat.mul_comm] at fits
    exact Nat.div_lt_of_lt_mul fits
  · refine ⟨inside, ?_⟩
    rw [bitsOf_eq_iff.mpr (Nat.mod_mod n (2 ^ low)), ← left]
    congr 2
    exact (Nat.sub_sub 8 stream.offset bits).symm

theorem readLoop_zero {rounds n : Nat} (fits : n < 2 ^ 0) (data : UInt64) (stream : BitStreamReader) :
    readLoop rounds 0 data stream = .ok (UInt64.ofNat (data.toNat * 2 ^ 0 + n), stream) := by
  obtain rfl := Nat.lt_one_iff.mp fits
  rw [Nat.pow_zero, Nat.mul_one, Nat.add_zero, UInt64.ofNat_toNat]
  cases rounds <;> rfl

/-- The high bits of a number go behind what is read already, then the low ones. -/
theorem append_low (data n bits low : Nat) :
    (data * 2 ^ bits + n / 2 ^ low) * 2 ^ low + n % 2 ^ low = data * 2 ^ (bits + low) + n := by
  rw [Nat.pow_add, Nat.add_mul, Nat.mul_assoc, Nat.add_assoc, Nat.div_add_mod']

theorem Before.readLoop {stream : BitStreamReader} {n nbits : Nat}
    (stands : stream.Before (bitsOf n nbits ++ rest)) (data : UInt64) (fits : n < 2 ^ nbits)
    (enough : nbits ≤ rounds)
    (room : data.toNat * 2 ^ nbits + n < 2 ^ 64) :
    ∃ next, readLoop rounds nbits data stream = .ok (UInt64.ofNat (data.toNat * 2 ^ nbits + n), next) ∧
      next.Before rest := by
  induction rounds generalizing stream n nbits data with
  | zero =>
    obtain rfl := Nat.le_zero.mp enough
    exact ⟨stream, readLoop_zero fits data stream, stands⟩
  | succ rounds ih =>
    cases nbits with
    | zero => exact ⟨stream, readLoop_zero fits data stream, stands⟩
    | succ nbits =>
      obtain ⟨full, filled, inside, stands⟩ := stands.refill (by simp [bitsOf])
      rw [BitStreamReader.readLoop, filled]
      obtain ⟨bits, taken⟩ : ∃ bits, bits = min (8 - full.offset) (nbits + 1) := ⟨_, rfl⟩
      obtain ⟨low, rest⟩ : ∃ low, nbits + 1 = bits + low := ⟨nbits + 1 - bits, by omega⟩
      simp only [bind, Except.bind, ← taken]
      rw [rest] at stands fits room ⊢
      rw [Nat.add_sub_cancel_left]
      obtain ⟨top, stands⟩ := stands.split (by omega) fits
      have chunk := takeBits_toNat full.buffer (by omega : 0 < bits) inside (by omega)
      rw [top] at chunk
      have below : n / 2 ^ low < 2 ^ bits := by
        rw [Nat.pow_add, Nat.mul_comm] at fits
        exact Nat.div_lt_of_lt_mul fits
      rw [← append_low data.toNat n bits low] at room ⊢
      have space : data.toNat * 2 ^ bits < 2 ^ 64 := by
        have grows := Nat.le_mul_of_pos_right (data.toNat * 2 ^ bits + n / 2 ^ low)
          (Nat.two_pow_pos low)
        omega
      have joined := join_toNat (by omega) (chunk ▸ below) space
      rw [chunk] at joined
      rw [← joined] at room ⊢
      exact ih stands _ (Nat.mod_lt _ (Nat.two_pow_pos _)) (by omega) room

/-- Reads the bits of a number that stand next. -/
theorem Before.read {stream : BitStreamReader} {n : Nat} {nbits : UInt8}
    (stands : stream.Before (bitsOf n nbits.toNat ++ rest)) (fits : n < 2 ^ nbits.toNat)
    (short : nbits ≤ 64) :
    ∃ next, stream.read nbits = .ok (UInt64.ofNat n, next) ∧ next.Before rest := by
  have bounded : n < 2 ^ 64 :=
    fits.trans_le (Nat.pow_le_pow_right (by decide) (UInt8.le_iff_toNat_le.mp short))
  have loop := stands.readLoop 0 fits le_rfl (by simpa using bounded)
  rw [UInt64.toNat_zero, Nat.zero_mul, Nat.zero_add] at loop
  rw [BitStreamReader.read, if_neg (UInt8.not_lt.mpr short)]
  exact loop

theorem Before.readBit {stream : BitStreamReader} {bit : Bool} (stands : stream.Before (bit :: rest)) :
    ∃ next, stream.read 1 = .ok (UInt64.ofNat bit.toNat, next) ∧ next.Before rest := by
  have single : bitsOf bit.toNat (1 : UInt8).toNat = [bit] := by
    cases bit with
    | false => rfl
    | true => rfl
  rw [← List.singleton_append, ← single] at stands
  exact stands.read (Bool.toNat_lt bit) (by decide)

end BitStreamReader

namespace BitStreamWriter

/-- The bits put down so far. -/
def bits (stream : BitStreamWriter) : List Bool :=
  bitsOfBytes stream.writer ++ bitsOf (stream.buffer.toNat / 2 ^ (8 - stream.offset)) stream.offset

/-- There is room in the buffer, and nothing in it beyond the offset. -/
structure Valid (stream : BitStreamWriter) : Prop where
  inside : stream.offset < 8
  clear : 2 ^ (8 - stream.offset) ∣ stream.buffer.toNat

/-- From one stream to the next, `bits` were put down and `wrote` bytes came out. -/
structure Adds (first : BitStreamWriter) (bits : List Bool) (wrote : Nat) (last : BitStreamWriter) :
    Prop where
  valid : last.Valid
  put : last.bits = first.bits ++ bits
  counted : last.writer.length = first.writer.length + wrote

theorem valid_new : new.Valid := ⟨by decide, Nat.dvd_zero _⟩

theorem Adds.nothing {stream : BitStreamWriter} (valid : stream.Valid) : stream.Adds [] 0 stream :=
  ⟨valid, (List.append_nil _).symm, rfl⟩

theorem Adds.trans {first middle last : BitStreamWriter} (head : first.Adds bits₁ wrote₁ middle)
    (tail : middle.Adds bits₂ wrote₂ last) : first.Adds (bits₁ ++ bits₂) (wrote₁ + wrote₂) last where
  valid := tail.valid
  put := by rw [tail.put, head.put, List.append_assoc]
  counted := by rw [tail.counted, head.counted, Nat.add_assoc]

/-- The buffer once the bits of a round are in it. -/
theorem Valid.or_toNat {stream : BitStreamWriter} (valid : stream.Valid) {chunk : UInt8}
    {value bits : Nat}
    (same : chunk.toNat = value * 2 ^ (8 - stream.offset - bits)) (fits : value < 2 ^ bits)
    (within : stream.offset + bits ≤ 8) :
    (stream.buffer ||| chunk).toNat =
      (stream.buffer.toNat / 2 ^ (8 - stream.offset) * 2 ^ bits + value) *
        2 ^ (8 - stream.offset - bits) := by
  obtain ⟨inside, high, clear⟩ := valid
  have room : 2 ^ (8 - stream.offset) = 2 ^ bits * 2 ^ (8 - stream.offset - bits) := by
    rw [← Nat.pow_add]
    congr 1
    omega
  have below : chunk.toNat < 2 ^ (8 - stream.offset) := by
    rw [same, room]
    exact Nat.mul_lt_mul_of_pos_right fits (Nat.two_pow_pos _)
  rw [UInt8.toNat_or, clear, ← Nat.two_pow_add_eq_or_of_lt below,
    Nat.mul_div_cancel_left _ (Nat.two_pow_pos _), same, Nat.add_mul, Nat.mul_assoc, ← room, Nat.mul_comm]

theorem settle_adds {stream next : BitStreamWriter} {buffer : UInt8} {value bits : Nat}
    (same : buffer.toNat =
      (stream.buffer.toNat / 2 ^ (8 - stream.offset) * 2 ^ bits + value) *
        2 ^ (8 - stream.offset - bits))
    (fits : value < 2 ^ bits) (some : 0 < bits) (within : stream.offset + bits ≤ 8)
    (filled : next = { buffer, offset := stream.offset + bits, writer := stream.writer }) :
    stream.Adds (bitsOf value bits) next.settle.1 next.settle.2 := by
  have joined := bitsOf_mul_add (stream.buffer.toNat / 2 ^ (8 - stream.offset)) stream.offset fits
  subst filled
  by_cases full : stream.offset + bits = 8
  · rw [BitStreamWriter.settle, if_pos full, flush, if_pos (Nat.add_pos_right _ some)]
    have none : 8 - stream.offset - bits = 0 := by omega
    rw [none, Nat.pow_zero, Nat.mul_one] at same
    rw [← same, full] at joined
    refine ⟨⟨Nat.succ_pos 7, Nat.dvd_zero _⟩, ?_, List.length_append⟩
    rw [BitStreamWriter.bits, BitStreamWriter.bits, bitsOfBytes_append, List.append_assoc,
      List.append_assoc, ← joined]
    rfl
  · rw [BitStreamWriter.settle, if_neg full]
    have left : 8 - (stream.offset + bits) = 8 - stream.offset - bits := by omega
    refine ⟨⟨Nat.lt_of_le_of_ne within full, ?_⟩, ?_, rfl⟩
    · rw [left, same]
      exact Nat.dvd_mul_left _ _
    · rw [BitStreamWriter.bits, BitStreamWriter.bits, left, same, Nat.mul_div_cancel _
        (Nat.two_pow_pos _), joined,
        List.append_assoc]

theorem Valid.writeLoop {stream : BitStreamWriter} (valid : stream.Valid) (data : UInt64) {nbits : Nat}
    (fits : nbits ≤ 64) (enough : nbits ≤ rounds) (wrote : Nat) :
    ∃ count last, writeLoop data rounds nbits wrote stream = (wrote + count, last) ∧
      stream.Adds (bitsOf data.toNat nbits) count last := by
  induction rounds generalizing stream nbits wrote with
  | zero =>
    obtain rfl := Nat.le_zero.mp enough
    exact ⟨0, stream, rfl, .nothing valid⟩
  | succ rounds ih =>
    cases nbits with
    | zero => exact ⟨0, stream, rfl, .nothing valid⟩
    | succ nbits =>
      have inside := valid.inside
      have chunk := putBits_toNat data (by omega : 0 < nbits + 1) fits valid.inside
      rw [BitStreamWriter.writeLoop]
      obtain ⟨bits, taken⟩ : ∃ bits, bits = min (8 - stream.offset) (nbits + 1) := ⟨_, rfl⟩
      obtain ⟨low, whole⟩ : ∃ low, nbits + 1 = bits + low := ⟨nbits + 1 - bits, by omega⟩
      simp only [← taken] at chunk ⊢
      rw [whole] at fits enough chunk ⊢
      rw [Nat.add_sub_cancel_left] at chunk ⊢
      have below := Nat.mod_lt (data.toNat / 2 ^ low) (Nat.two_pow_pos bits)
      have buffer := valid.or_toNat chunk below (by omega)
      have head := settle_adds buffer below (by omega) (by omega) rfl
      obtain ⟨count, last, ran, tail⟩ := ih head.valid (by omega : low ≤ 64) (by omega) (wrote + _)
      refine ⟨_, last, ran.trans (by rw [Nat.add_assoc]), ?_⟩
      rw [bitsOf_add, ← bitsOf_eq_iff.mpr (Nat.mod_mod (data.toNat / 2 ^ low) (2 ^ bits))]
      exact head.trans tail

theorem Valid.write {stream : BitStreamWriter} (valid : stream.Valid) (data : UInt64) {nbits : UInt8}
    (short : nbits ≤ 64) :
    ∃ count last, stream.write data nbits = .ok (count, last) ∧
      stream.Adds (bitsOf data.toNat nbits.toNat) count last := by
  obtain ⟨count, last, ran, added⟩ := valid.writeLoop data (UInt8.le_iff_toNat_le.mp short) le_rfl 0
  rw [Nat.zero_add] at ran
  refine ⟨count, last, ?_, added⟩
  rw [BitStreamWriter.write, if_neg (UInt8.not_lt.mpr short), ran]

/-- All bits come out, filled up with zeros. -/
theorem Valid.flush {stream : BitStreamWriter} (valid : stream.Valid) :
    ∃ padding, bitsOfBytes stream.flush.2.writer = stream.bits ++ padding ∧
      stream.flush.2.writer.length = stream.writer.length + stream.flush.1 := by
  have inside := valid.inside
  rw [BitStreamWriter.flush, BitStreamWriter.bits]
  split_ifs with some
  · refine ⟨bitsOf stream.buffer.toNat (8 - stream.offset), ?_, List.length_append⟩
    have whole : 8 = stream.offset + (8 - stream.offset) := by omega
    have last := bitsOf_add stream.buffer.toNat stream.offset (8 - stream.offset)
    rw [← whole] at last
    rw [bitsOfBytes_append, List.append_assoc, ← last]
    rfl
  · obtain none : stream.offset = 0 := by omega
    rw [none]
    exact ⟨[], by rw [List.append_nil]; exact (List.append_nil _).symm, rfl⟩

end BitStreamWriter

namespace GcsFilter

theorem encodeQuotient_spec {writer : BitStreamWriter} (valid : writer.Valid) {q : Nat}
    (enough : q ≤ rounds)
    (wrote : Nat) :
    ∃ count last, encodeQuotient rounds q wrote writer = .ok (wrote + count, last) ∧
      writer.Adds (List.replicate q true) count last := by
  induction rounds generalizing writer q wrote with
  | zero =>
    obtain rfl := Nat.le_zero.mp enough
    exact ⟨0, writer, rfl, .nothing valid⟩
  | succ rounds ih =>
    cases q with
    | zero => exact ⟨0, writer, rfl, .nothing valid⟩
    | succ q =>
      obtain ⟨nbits, taken⟩ : ∃ nbits, nbits = min (q + 1) 64 := ⟨_, rfl⟩
      have width : (UInt8.ofNat nbits).toNat = nbits :=
        UInt8.toNat_ofNat_of_lt' (by simp [UInt8.size]; omega)
      have short : UInt8.ofNat nbits ≤ 64 := by
        rw [UInt8.le_iff_toNat_le, width]
        exact taken ▸ Nat.min_le_right _ _
      obtain ⟨count, middle, ran, head⟩ := valid.write (~~~ 0) short
      have ones : bitsOf (~~~ (0 : UInt64)).toNat nbits = List.replicate nbits true :=
        bitsOf_ones (by omega : nbits ≤ 64)
      rw [width, ones] at head
      obtain ⟨rest, last, ranRest, tail⟩ := ih head.valid (by omega : q + 1 - nbits ≤ rounds)
        (wrote + count)
      refine ⟨count + rest, last, ?_, ?_⟩
      · rw [encodeQuotient, ← taken, ran]
        simp only [bind, Except.bind]
        rw [ranRest, Nat.add_assoc]
      · have whole : q + 1 = nbits + (q + 1 - nbits) := by omega
        rw [whole, List.replicate_add]
        exact head.trans tail

theorem shift_of_lt {bits : UInt8} (short : bits < 64) : shift bits = pure bits.toUInt64 := if_pos short

theorem golombRiceEncode_spec {filter : GcsFilter} (short : filter.p < 64) {writer : BitStreamWriter}
    (valid : writer.Valid) (n : UInt64) :
    ∃ count last, filter.golombRiceEncode writer n = pure (count, last) ∧
      writer.Adds (riceCode filter.p.toNat n.toNat) count last := by
  have quotient : (n >>> filter.p.toUInt64).toNat = n.toNat / 2 ^ filter.p.toNat := by
    have amount : filter.p.toUInt64.toNat % 64 = filter.p.toNat :=
      Nat.mod_eq_of_lt (UInt8.lt_iff_toNat_lt.mp short)
    rw [UInt64.toNat_shiftRight, amount, Nat.shiftRight_eq_div_pow]
  obtain ⟨ones, first, ranOnes, head⟩ := encodeQuotient_spec valid
    (le_refl (n.toNat / 2 ^ filter.p.toNat)) 0
  obtain ⟨stop, second, ranStop, zero⟩ := head.valid.write 0 (by decide : (1 : UInt8) ≤ 64)
  obtain ⟨low, last, ranLow, tail⟩ := zero.valid.write n (UInt8.le_of_lt short)
  refine ⟨ones + stop + low, last, ?_, ?_⟩
  · simp only [golombRiceEncode, shift_of_lt short, pure_bind, quotient, ranOnes, Nat.zero_add,
      lift_ok_bind,
      ranStop, ranLow]
  · rw [riceCode, List.append_cons]
    exact (head.trans zero).trans tail

theorem checked_of_lt {value : Nat} (fits : value < 2 ^ 64) :
    checked value = pure (UInt64.ofNat value) :=
  if_pos fits

theorem decodeQuotient_spec {reader : BitStreamReader} {count : Nat}
    (stands : reader.Before (List.replicate count true ++ false :: rest)) (q : UInt64)
    (enough : count < rounds)
    (fits : q.toNat + count < 2 ^ 64) :
    ∃ next, decodeQuotient rounds q reader = pure (UInt64.ofNat (q.toNat + count), next) ∧
      next.Before rest := by
  induction count generalizing reader q rounds with
  | zero =>
    obtain ⟨rounds, rfl⟩ := Nat.exists_eq_add_of_lt enough
    obtain ⟨next, read, stands⟩ := stands.readBit
    refine ⟨next, ?_, stands⟩
    rw [decodeQuotient, read]
    simp only [lift_ok_bind]
    rw [if_neg (by decide), Nat.add_zero, UInt64.ofNat_toNat]
  | succ count ih =>
    obtain ⟨rounds, rfl⟩ := Nat.exists_eq_add_of_lt enough
    obtain ⟨next, read, stands⟩ := stands.readBit
    have more : (UInt64.ofNat (q.toNat + 1)).toNat = q.toNat + 1 :=
      UInt64.toNat_ofNat_of_lt' (by simp [UInt64.size]; omega)
    obtain ⟨last, ran, stands⟩ := ih stands (UInt64.ofNat (q.toNat + 1))
      (by omega : count < count + 1 + rounds) (by omega)
    refine ⟨last, ?_, stands⟩
    rw [decodeQuotient, read]
    simp only [lift_ok_bind]
    rw [if_pos (by decide), checked_of_lt (by omega), pure_bind, ran, more, Nat.add_assoc,
      Nat.add_comm 1 count]

theorem golombRiceDecode_spec {filter : GcsFilter} (short : filter.p < 64)
    {reader : BitStreamReader} {n : UInt64}
    (stands : reader.Before (riceCode filter.p.toNat n.toNat ++ rest)) :
    ∃ next, filter.golombRiceDecode reader = pure (n, next) ∧ next.Before rest := by
  have bound := n.toNat_lt
  have above := Nat.div_le_self n.toNat (2 ^ filter.p.toNat)
  have product := Nat.div_mul_le_self n.toNat (2 ^ filter.p.toNat)
  have enough : n.toNat / 2 ^ filter.p.toNat < reader.available := by
    rw [stands.available_eq, riceCode]
    simp only [List.length_append, List.length_replicate, List.length_cons]
    omega
  rw [riceCode, List.append_assoc, List.cons_append] at stands
  obtain ⟨middle, ones, stands⟩ := decodeQuotient_spec stands 0 enough (by simp; omega)
  rw [← bitsOf_eq_iff.mpr (Nat.mod_mod n.toNat (2 ^ filter.p.toNat))] at stands
  obtain ⟨next, low, stands⟩ := stands.read (Nat.mod_lt _ (Nat.two_pow_pos _)) (UInt8.le_of_lt short)
  refine ⟨next, ?_, stands⟩
  have amount : filter.p.toUInt64.toNat % 64 = filter.p.toNat :=
    Nat.mod_eq_of_lt (UInt8.lt_iff_toNat_lt.mp short)
  have quotient : (UInt64.ofNat (n.toNat / 2 ^ filter.p.toNat) <<< filter.p.toUInt64).toNat =
      n.toNat / 2 ^ filter.p.toNat * 2 ^ filter.p.toNat := by
    rw [UInt64.toNat_shiftLeft, amount, Nat.shiftLeft_eq, UInt64.toNat_ofNat_of_lt'
      (above.trans_lt bound)]
    exact Nat.mod_eq_of_lt (product.trans_lt bound)
  have remainder : (UInt64.ofNat (n.toNat % 2 ^ filter.p.toNat)).toNat = n.toNat % 2 ^ filter.p.toNat :=
    UInt64.toNat_ofNat_of_lt' ((Nat.mod_le _ _).trans_lt bound)
  simp only [golombRiceDecode, ones, pure_bind, low, lift_ok_bind, shift_of_lt short, UInt64.toNat_zero,
    Nat.zero_add, quotient, remainder, Nat.div_add_mod', checked_of_lt bound, UInt64.ofNat_toNat]

end GcsFilter

namespace BitStreamWriter

/-- Writes numbers of given widths in turn, and counts the bytes that come out. -/
def writes (self : BitStreamWriter) : List (UInt64 × UInt8) → Except IoError (Nat × BitStreamWriter)
  | [] => .ok (0, self)
  | item :: items => do
    let (wrote, self) ← self.write item.1 item.2
    let (more, self) ← self.writes items
    .ok (wrote + more, self)

/-- What a fresh stream has written once it is flushed. -/
def written (items : List (UInt64 × UInt8)) : Except IoError (Nat × Bytes) := do
  let (wrote, stream) ← new.writes items
  .ok (wrote + stream.flush.1, stream.flush.2.writer)

theorem Valid.writes {stream : BitStreamWriter} (valid : stream.Valid)
    {items : List (UInt64 × UInt8)} (short : ∀ item ∈ items, item.2 ≤ 64) :
    ∃ count last, stream.writes items = .ok (count, last) ∧
      stream.Adds (items.flatMap fun item => bitsOf item.1.toNat item.2.toNat) count last := by
  induction items generalizing stream with
  | nil => exact ⟨0, stream, rfl, .nothing valid⟩
  | cons item items ih =>
    obtain ⟨first, others⟩ := List.forall_mem_cons.mp short
    obtain ⟨wrote, middle, wroteFirst, head⟩ := valid.write item.1 first
    obtain ⟨more, last, wroteOthers, tail⟩ := ih head.valid others
    refine ⟨wrote + more, last, ?_, head.trans tail⟩
    rw [BitStreamWriter.writes, wroteFirst]
    simp only [bind, Except.bind, wroteOthers]

/-- The bytes of a flushed stream hold what was put down, and are all counted. -/
theorem Adds.flush {last : BitStreamWriter} {bits : List Bool} (added : new.Adds bits count last) :
    last.flush.2.writer.length = count + last.flush.1 ∧
      ∃ padding, bitsOfBytes last.flush.2.writer = bits ++ padding := by
  obtain ⟨padding, whole, length⟩ := added.valid.flush
  refine ⟨?_, padding, ?_⟩
  · rw [length, added.counted]
    exact congrArg (· + last.flush.1) (Nat.zero_add count)
  · rw [whole, added.put]
    rfl

end BitStreamWriter

namespace BitStreamReader

/-- Reads numbers of given widths in turn. -/
def reads (self : BitStreamReader) : List UInt8 → Except IoError (List UInt64 × BitStreamReader)
  | [] => .ok ([], self)
  | nbits :: widths => do
    let (data, self) ← self.read nbits
    let (values, self) ← self.reads widths
    .ok (data :: values, self)

theorem Before.reads {stream : BitStreamReader} {items : List (UInt64 × UInt8)}
    (short : ∀ item ∈ items, item.2 ≤ 64)
    (stands : stream.Before ((items.flatMap fun item => bitsOf item.1.toNat item.2.toNat) ++ rest)) :
    ∃ last, stream.reads (items.map Prod.snd) =
      .ok (items.map fun item => UInt64.ofNat (item.1.toNat % 2 ^ item.2.toNat), last) := by
  induction items generalizing stream with
  | nil => exact ⟨stream, rfl⟩
  | cons item items ih =>
    obtain ⟨first, others⟩ := List.forall_mem_cons.mp short
    rw [List.flatMap_cons, List.append_assoc,
      ← bitsOf_eq_iff.mpr (Nat.mod_mod item.1.toNat (2 ^ item.2.toNat))] at stands
    obtain ⟨middle, readFirst, stands⟩ := stands.read (Nat.mod_lt _ (Nat.two_pow_pos _)) first
    obtain ⟨last, readOthers⟩ := ih others stands
    refine ⟨last, ?_⟩
    rw [List.map_cons, BitStreamReader.reads, readFirst]
    simp only [bind, Except.bind, readOthers, List.map_cons]

end BitStreamReader

namespace GcsFilter

/-- Encodes numbers in turn, and counts the bytes that come out. -/
def encodes (self : GcsFilter) (writer : BitStreamWriter) :
    List UInt64 → Outcome (Nat × BitStreamWriter)
  | [] => pure (0, writer)
  | n :: numbers => do
    let (wrote, writer) ← self.golombRiceEncode writer n
    let (more, writer) ← self.encodes writer numbers
    pure (wrote + more, writer)

/-- The codes of numbers, one after the other. -/
def encoded (self : GcsFilter) (numbers : List UInt64) : Outcome (Nat × Bytes) := do
  let (wrote, writer) ← self.encodes .new numbers
  pure (wrote + writer.flush.1, writer.flush.2.writer)

/-- Decodes `count` numbers. -/
def decodes (self : GcsFilter) (reader : BitStreamReader) :
    (count : Nat) → Outcome (List UInt64 × BitStreamReader)
  | 0 => pure ([], reader)
  | count + 1 => do
    let (n, reader) ← self.golombRiceDecode reader
    let (numbers, reader) ← self.decodes reader count
    pure (n :: numbers, reader)

theorem encodes_spec {filter : GcsFilter} (short : filter.p < 64) {writer : BitStreamWriter}
    (valid : writer.Valid) (numbers : List UInt64) :
    ∃ count last, filter.encodes writer numbers = pure (count, last) ∧
      writer.Adds (numbers.flatMap fun n => riceCode filter.p.toNat n.toNat) count last := by
  induction numbers generalizing writer with
  | nil => exact ⟨0, writer, rfl, .nothing valid⟩
  | cons n numbers ih =>
    obtain ⟨wrote, middle, wroteFirst, head⟩ := golombRiceEncode_spec short valid n
    obtain ⟨more, last, wroteOthers, tail⟩ := ih head.valid
    refine ⟨wrote + more, last, ?_, head.trans tail⟩
    simp only [encodes, wroteFirst, pure_bind, wroteOthers]

theorem decodes_spec {filter : GcsFilter} (short : filter.p < 64) {reader : BitStreamReader}
    {numbers : List UInt64}
    (stands : reader.Before
      ((numbers.flatMap fun n => riceCode filter.p.toNat n.toNat) ++ rest)) :
    ∃ last, filter.decodes reader numbers.length = pure (numbers, last) := by
  induction numbers generalizing reader with
  | nil => exact ⟨reader, rfl⟩
  | cons n numbers ih =>
    rw [List.flatMap_cons, List.append_assoc] at stands
    obtain ⟨middle, readFirst, stands⟩ := golombRiceDecode_spec short stands
    obtain ⟨last, readOthers⟩ := ih stands
    refine ⟨last, ?_⟩
    simp only [List.length_cons, decodes, readFirst, pure_bind, readOthers]

end GcsFilter

/-- Numbers of any widths, and Golomb-Rice codes of any numbers, are read back from the bytes
of a flushed stream, whatever comes behind them. -/
theorem streams_read_back :
    (∀ items : List (UInt64 × UInt8), (∀ item ∈ items, item.2 ≤ 64) →
      ∃ bytes, BitStreamWriter.written items = .ok (bytes.length, bytes) ∧
        ∀ suffix, ∃ last, (BitStreamReader.new (bytes ++ suffix)).reads (items.map Prod.snd) =
          .ok (items.map fun item => UInt64.ofNat (item.1.toNat % 2 ^ item.2.toNat), last)) ∧
    ∀ filter : GcsFilter, filter.p < 64 → ∀ numbers : List UInt64,
      ∃ bytes, filter.encoded numbers = pure (bytes.length, bytes) ∧
        ∀ suffix, ∃ last, filter.decodes (.new (bytes ++ suffix)) numbers.length =
          pure (numbers, last) := by
  constructor
  · intro items short
    obtain ⟨count, last, wrote, added⟩ := BitStreamWriter.valid_new.writes short
    obtain ⟨length, padding, whole⟩ := added.flush
    refine ⟨last.flush.2.writer, ?_, fun suffix => ?_⟩
    · rw [BitStreamWriter.written, wrote, length]
      rfl
    · have stands := BitStreamReader.before_new (last.flush.2.writer ++ suffix)
      rw [bitsOfBytes_append, whole, List.append_assoc] at stands
      exact stands.reads short
  · intro filter short numbers
    obtain ⟨count, last, wrote, added⟩ := GcsFilter.encodes_spec short BitStreamWriter.valid_new numbers
    obtain ⟨length, padding, whole⟩ := added.flush
    refine ⟨last.flush.2.writer, ?_, fun suffix => ?_⟩
    · rw [GcsFilter.encoded, wrote, pure_bind, length]
    · have stands := BitStreamReader.before_new (last.flush.2.writer ++ suffix)
      rw [bitsOfBytes_append, whole, List.append_assoc] at stands
      exact GcsFilter.decodes_spec short stands

theorem sevenWidths_read_back :
    ∃ bytes, BitStreamWriter.written [(0, 1), (2, 2), (6, 3), (11, 4), (1, 5), (32, 6), (7, 7)] =
        .ok (bytes.length, bytes) ∧
      ∃ last, (BitStreamReader.new bytes).reads [1, 2, 3, 4, 5, 6, 7] =
        .ok ([0, 2, 6, 11, 1, 32, 7], last) := by
  obtain ⟨bytes, wrote, read⟩ := streams_read_back.1
    [(0, 1), (2, 2), (6, 3), (11, 4), (1, 5), (32, 6), (7, 7)] (by simp)
  obtain ⟨last, read⟩ := read []
  rw [List.append_nil] at read
  exact ⟨bytes, wrote, last, read⟩

end Litecoin.Bip158
