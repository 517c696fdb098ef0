import Litecoin.Crypto.Streaming
import Litecoin.Wire.Outcome

/-! SHA-256 at compile time, and the midstate of a tag (`hashes/sha256.rs`, `hashes/sha256t.rs`),
against the engine. A panic is `none`. -/
namespace Litecoin
open Wire Consensus
namespace Sha256

/-- The words of a block, as `process_block` reads them. -/
def blockWords (block : Bytes) : List UInt32 :=
  (blocks 4 block).map fun chunk => UInt32.ofNat (fromLittleEndian chunk.val.reverse)

/-- The rounds on the words of a block, which the engine and the function below share. -/
class Rounds [Compression] where
  rounds : Vector UInt32 8 → List UInt32 → Vector UInt32 8
  sha256_eq : ∀ h block, Compression.sha256 h block = rounds h (blockWords block.val)

def readU32 (bytes : Bytes) (index : Nat) : Option UInt32 := do
  let byte0 ← bytes[index + 0]?
  let byte1 ← bytes[index + 1]?
  let byte2 ← bytes[index + 2]?
  let byte3 ← bytes[index + 3]?
  some ((byte0.toUInt32 <<< 24) ||| (byte1.toUInt32 <<< 16) ||| (byte2.toUInt32 <<< 8) |||
    (byte3.toUInt32 <<< 0))

/-- `copy_w`, at the words from `i` on. -/
def copyWords (bytes : Bytes) (index : Nat) : (count i : Nat) → Option (List UInt32)
  | 0, _ => some []
  | count + 1, i => do
    let word ← readU32 bytes (index + i * 4)
    let words ← copyWords bytes index count (i + 1)
    some (word :: words)

def copyW (bytes : Bytes) (index : Nat) : Option (List UInt32) := copyWords bytes index 16 0

/-- Assignments to one byte of a buffer after another; where they stop is in the result. -/
def setBytes (buf : ByteArr n) (i : Nat) : Bytes → Option (ByteArr n × Nat)
  | [] => some (buf, i)
  | byte :: rest => (HashEngine.setByte buf i byte).bind fun buf => setBytes buf (i + 1) rest

/-- `bytes.len() as u64 * 8`, with or without overflow checks. -/
def bitLen (checks : Bool) (len : Nat) : Option Nat :=
  if checks ∧ ¬ len * 8 < 2 ^ 64 then none else some (len * 8 % 2 ^ 64)

/-- What is done with the buffer of a chunk after the mark. -/
def closeChunk (checks : Bool) (bytes : Bytes) (numChunks chunk : Nat) (buf : ByteArr 64) :
    Option (List UInt32) :=
  if chunk + 1 = numChunks then do
    let bitLen ← bitLen checks bytes.length
    let field := [56, 48, 40, 32, 24, 16, 8, 0].map fun shift =>
      UInt8.ofNat ((bitLen >>> shift) &&& 0xFF)
    let (buf, _) ← setBytes buf (64 - 8) field
    copyW buf.val 0
  else copyW buf.val 0

/-- The words of a chunk. -/
def chunkWords (checks : Bool) (bytes : Bytes) (numChunks chunk : Nat) : Option (List UInt32) :=
  if chunk * 64 + 64 ≤ bytes.length then copyW bytes (chunk * 64)
  else do
    let offset := chunk * 64
    let (buf, i) ← setBytes (HashEngine.zeroBuffer 64) 0 (bytes.drop offset)
    if bytes.length % 64 ≤ 64 - 9 ∨ chunk + 2 = numChunks then do
      let buf ← HashEngine.setByte buf i 0x80
      closeChunk checks bytes numChunks chunk buf
    else closeChunk checks bytes numChunks chunk buf

/-- The bytes of a state, highest first in each word. -/
def output (state : Vector UInt32 8) : ByteArr 32 :=
  ⟨state.toList.flatMap fun word : UInt32 =>
    [(word >>> 24).toUInt8, (word >>> 16).toUInt8, (word >>> 8).toUInt8, (word >>> 0).toUInt8], by
    rw [List.length_flatMap]
    simp⟩

section
variable [Compression] [Rounds]

/-- The loop of `const_hash` with so many chunks left. -/
def constLoop (checks finalize : Bool) (bytes : Bytes) (numChunks : Nat) :
    (left chunk : Nat) → Vector UInt32 8 → Option (Vector UInt32 8)
  | 0, _, state => some state
  | left + 1, chunk, state =>
    if ¬ finalize ∧ chunk + 1 = numChunks then some state
    else do
      let w ← chunkWords checks bytes numChunks chunk
      constLoop checks finalize bytes numChunks left (chunk + 1) (Rounds.rounds state w)

/-- `Midstate::const_hash`. -/
def midstateConstHash (checks : Bool) (bytes : Bytes) (finalize : Bool) : Option (ByteArr 32) :=
  let state : Vector UInt32 8 :=
    #[0x6a09e667, 0xbb67ae85, 0x3c6ef372, 0xa54ff53a, 0x510e527f, 0x9b05688c, 0x1f83d9ab,
      0x5be0cd19].toVector
  let numChunks := (bytes.length + 9 + 63) / 64
  (constLoop checks finalize bytes numChunks numChunks 0 state).map output

/-- `Hash::const_hash`. -/
def constHash (checks : Bool) (bytes : Bytes) : Option (ByteArr 32) :=
  midstateConstHash checks bytes true

/-- `Midstate::hash_tag`. -/
def hashTag (checks : Bool) (tag : Bytes) : Option (ByteArr 32) := do
  let hash ← constHash checks tag
  let bytes ← (List.range 64).mapM fun i => hash.val[i % hash.val.length]?
  let (buf, _) ← setBytes (HashEngine.zeroBuffer 64) 0 bytes
  midstateConstHash checks buf.val false

/-- `Hash::hash`. -/
def hash (data : Bytes) : Option (ByteArr 32) := (engine.input data).bind fromEngine

end

/-- Four bytes, the highest first. -/
theorem shifts_eq (byte0 byte1 byte2 byte3 : UInt8) :
    (byte0.toUInt32 <<< 24) ||| (byte1.toUInt32 <<< 16) ||| (byte2.toUInt32 <<< 8) |||
      (byte3.toUInt32 <<< 0) = UInt32.ofNat (fromLittleEndian [byte3, byte2, byte1, byte0]) := by
  have single (byte : UInt8) : fromLittleEndian [byte] = byte.toNat := rfl
  have number : fromLittleEndian [byte3, byte2, byte1, byte0] =
      byte0.toNat <<< 24 ||| byte1.toNat <<< 16 ||| byte2.toNat <<< 8 ||| byte3.toNat := by
    have two := fromLittleEndian_or [byte3] [byte2]
    have three := fromLittleEndian_or [byte3, byte2] [byte1]
    have four := fromLittleEndian_or [byte3, byte2, byte1] [byte0]
    simp only [List.cons_append, List.nil_append, List.length_cons, List.length_nil, single]
      at two three four
    rw [← four, ← three, ← two, Nat.or_comm _ (byte0.toNat <<< 24), Nat.or_comm _ (byte1.toNat <<< 16),
      Nat.or_comm byte3.toNat, ← Nat.or_assoc, ← Nat.or_assoc]
  have bound : fromLittleEndian [byte3, byte2, byte1, byte0] < 2 ^ 32 := by
    simpa using fromLittleEndian_lt [byte3, byte2, byte1, byte0]
  have shift {byte : UInt8} {count : Nat} (small : count ≤ 24) :
      byte.toNat <<< count % 2 ^ 32 = byte.toNat <<< count := by
    have low := byte.toNat_lt
    have weight : 2 ^ count ≤ 2 ^ 24 := Nat.pow_le_pow_right (by decide) small
    rw [Nat.shiftLeft_eq]
    refine Nat.mod_eq_of_lt ?_
    calc byte.toNat * 2 ^ count ≤ 255 * 2 ^ 24 := Nat.mul_le_mul (by omega) weight
      _ < 2 ^ 32 := by decide
  apply UInt32.toNat_inj.mp
  simp only [UInt32.toNat_or, UInt32.toNat_shiftLeft, UInt8.toNat_toUInt32, UInt32.toNat_ofNat',
    UInt32.reduceToNat, Nat.reduceMod]
  rw [Nat.mod_eq_of_lt bound, number, shift (by decide), shift (by decide), shift (by decide),
    shift (by decide), Nat.shiftLeft_zero]

theorem readU32_eq (byte0 byte1 byte2 byte3 : UInt8) (front rest : Bytes) :
    readU32 (front ++ byte0 :: byte1 :: byte2 :: byte3 :: rest) front.length =
      some (UInt32.ofNat (fromLittleEndian [byte3, byte2, byte1, byte0])) := by
  rw [← shifts_eq, readU32]
  simp

/-- The words of four bytes each that there are from an index on. -/
theorem copyWords_eq {bytes : Bytes} {index count i : Nat}
    (inside : index + (i + count) * 4 ≤ bytes.length) :
    copyWords bytes index count i =
      some (blockWords ((bytes.drop (index + i * 4)).take (count * 4))) := by
  induction count generalizing i with
  | zero =>
    rw [copyWords, Nat.zero_mul, List.take_zero, blockWords, blocks_nil (by decide), List.map_nil]
  | succ count ih =>
    obtain ⟨byte0, byte1, byte2, byte3, rest, tail⟩ : ∃ byte0 byte1 byte2 byte3 rest,
        bytes.drop (index + i * 4) = byte0 :: byte1 :: byte2 :: byte3 :: rest := by
      have size : 4 ≤ (bytes.drop (index + i * 4)).length := by
        rw [List.length_drop]
        omega
      generalize bytes.drop (index + i * 4) = tail at size ⊢
      rcases tail with _ | ⟨byte0, _ | ⟨byte1, _ | ⟨byte2, _ | ⟨byte3, rest⟩⟩⟩⟩
      all_goals simp only [List.length_cons, List.length_nil] at size
      all_goals first | omega | exact ⟨byte0, byte1, byte2, byte3, rest, rfl⟩
    have front : (bytes.take (index + i * 4)).length = index + i * 4 := by
      rw [List.length_take]
      omega
    have word := readU32_eq byte0 byte1 byte2 byte3 (bytes.take (index + i * 4)) rest
    rw [← tail, List.take_append_drop, front] at word
    have behind : bytes.drop (index + (i + 1) * 4) = rest := by
      rw [show index + (i + 1) * 4 = index + i * 4 + 4 by omega, ← List.drop_drop, tail]
      rfl
    have split : (byte0 :: byte1 :: byte2 :: byte3 :: rest).take ((count + 1) * 4) =
        [byte0, byte1, byte2, byte3] ++ rest.take (count * 4) := by
      rw [show (count + 1) * 4 = count * 4 + 4 by omega]
      rfl
    have first := blocks_cons (by decide : 0 < 4) ⟨[byte0, byte1, byte2, byte3], rfl⟩
      (rest.take (count * 4))
    rw [copyWords, word, ih (by omega), behind, tail, split, blockWords, blockWords, first]
    rfl

theorem copyW_eq {bytes : Bytes} {index : Nat} (inside : index + 64 ≤ bytes.length) :
    copyW bytes index = some (blockWords ((bytes.drop index).take 64)) := by
  rw [copyW, copyWords_eq (by omega), Nat.zero_mul, Nat.add_zero]

theorem setByte_eq {buf : ByteArr n} {front back : Bytes} {old : UInt8}
    (shape : buf.val = front ++ old :: back) (byte : UInt8) :
    ∃ after, HashEngine.setByte buf front.length byte = some after ∧
      after.val = front ++ byte :: back := by
  have size := buf.property
  rw [shape, List.length_append, List.length_cons] at size
  refine ⟨_, dif_pos (by rw [List.length_singleton]; omega), ?_⟩
  simp [shape]

/-- Bytes are replaced by as many others. -/
theorem setBytes_eq {buf : ByteArr n} {front old back bytes : Bytes}
    (shape : buf.val = front ++ old ++ back) (size : old.length = bytes.length) :
    ∃ after, setBytes buf front.length bytes = some (after, front.length + bytes.length) ∧
      after.val = front ++ bytes ++ back := by
  induction bytes generalizing buf front old with
  | nil =>
    obtain rfl := List.length_eq_zero_iff.mp size
    exact ⟨buf, rfl, shape⟩
  | cons byte rest ih =>
    obtain ⟨replaced, old, rfl⟩ := List.exists_cons_of_length_eq_add_one size
    rw [List.append_assoc, List.cons_append] at shape
    obtain ⟨next, set, first⟩ := setByte_eq shape byte
    obtain ⟨last, run, all⟩ := @ih next (front ++ [byte]) old
      (by rw [first]; simp) (Nat.succ.inj size)
    rw [List.length_append, List.length_singleton] at run
    refine ⟨last, ?_, ?_⟩
    · rw [setBytes, set, Option.bind_some, run, List.length_cons, Nat.add_assoc, Nat.add_comm 1]
    · rw [all, List.append_assoc front, List.singleton_append]

theorem zeroBuffer_eq (n : Nat) : (HashEngine.zeroBuffer n).val = List.replicate n 0 := by
  simp [HashEngine.zeroBuffer]

/-- The eight bytes of a length, highest first. -/
theorem field_eq (bits : Nat) :
    ([56, 48, 40, 32, 24, 16, 8, 0].map fun shift => UInt8.ofNat ((bits >>> shift) &&& 0xFF)) =
      bigEndianBytes 8 bits := by
  have low (n : Nat) : UInt8.ofNat (n &&& 0xFF) = UInt8.ofNat n := by
    apply UInt8.toNat_inj.mp
    have byte : n &&& 0xFF = n % 256 := Nat.and_two_pow_sub_one_eq_mod n 8
    rw [byte, UInt8.toNat_ofNat', UInt8.toNat_ofNat', Nat.mod_mod]
  simp only [bigEndianBytes, littleEndian, List.map_cons, List.map_nil, low, List.reverse_cons,
    List.reverse_nil, List.nil_append, List.cons_append, Nat.shiftRight_eq_div_pow, Nat.div_div_eq_div_mul,
    Nat.reducePow, Nat.reduceMul, Nat.div_one]

theorem copyW_buf (buf : ByteArr 64) : copyW buf.val 0 = some (blockWords buf.val) := by
  rw [copyW_eq (by rw [buf.property]), List.drop_zero,
    List.take_of_length_le (Nat.le_of_eq buf.property)]

/-- What there is of the data in a chunk that is not full of it, and the mark. -/
def marked (bytes : Bytes) (numChunks chunk : Nat) : Bytes :=
  if bytes.length % 64 ≤ 64 - 9 ∨ chunk + 2 = numChunks then bytes.drop (chunk * 64) ++ [0x80]
  else bytes.drop (chunk * 64)

/-- The block of a chunk that is not full of data, with zeros up to its end. -/
def filled (bytes : Bytes) (numChunks chunk : Nat) : Bytes :=
  marked bytes numChunks chunk ++ List.replicate (64 - (marked bytes numChunks chunk).length) 0

theorem closeChunk_eq {checks : Bool} {bytes : Bytes} {numChunks chunk : Nat} (buf : ByteArr 64) :
    closeChunk checks bytes numChunks chunk buf =
      if chunk + 1 = numChunks then
        (bitLen checks bytes.length).map fun bits =>
          blockWords (buf.val.take 56 ++ bigEndianBytes 8 bits)
      else some (blockWords buf.val) := by
  rw [closeChunk, copyW_buf]
  refine if_congr Iff.rfl ?_ rfl
  cases bitLen checks bytes.length with
  | none => rfl
  | some bits =>
    have front : (buf.val.take 56).length = 64 - 8 := by
      rw [List.length_take, buf.property]
      rfl
    obtain ⟨after, set, all⟩ := @setBytes_eq 64 buf (buf.val.take 56) (buf.val.drop 56) []
      (bigEndianBytes 8 bits)
      (by rw [List.append_nil, List.take_append_drop])
      (by rw [List.length_drop, buf.property, length_bigEndianBytes])
    rw [front] at set
    rw [List.append_nil] at all
    simp only [Option.bind_eq_bind, Option.bind_some, field_eq, set, copyW_buf, all, Option.map_some]

theorem chunkWords_rest {checks : Bool} {bytes : Bytes} {numChunks chunk : Nat}
    (short : bytes.length < chunk * 64 + 64) :
    chunkWords checks bytes numChunks chunk =
      if chunk + 1 = numChunks then
        (bitLen checks bytes.length).map fun bits =>
          blockWords ((filled bytes numChunks chunk).take 56 ++ bigEndianBytes 8 bits)
      else some (blockWords (filled bytes numChunks chunk)) := by
  rw [chunkWords, if_neg (by omega), filled, marked]
  generalize rest : bytes.drop (chunk * 64) = data
  have size : data.length < 64 := by
    rw [← rest, List.length_drop]
    omega
  have zeros : (HashEngine.zeroBuffer 64).val =
      [] ++ List.replicate data.length 0 ++ List.replicate (64 - data.length) 0 := by
    rw [zeroBuffer_eq, List.nil_append, List.replicate_append_replicate, Nat.add_sub_cancel' size.le]
  obtain ⟨copied, copy, copiedBytes⟩ := setBytes_eq zeros List.length_replicate
  rw [List.nil_append] at copiedBytes
  rw [List.length_nil, Nat.zero_add] at copy
  simp only [rest, copy, Option.bind_eq_bind, Option.bind_some]
  by_cases place : bytes.length % 64 ≤ 64 - 9 ∨ chunk + 2 = numChunks
  · have zero : copied.val = data ++ 0 :: List.replicate (63 - data.length) 0 := by
      rw [copiedBytes, ← List.replicate_succ, show 63 - data.length + 1 = 64 - data.length by omega]
    obtain ⟨pre, set, preBytes⟩ := setByte_eq zero 0x80
    have length : 64 - (data ++ [0x80]).length = 63 - data.length := by
      rw [List.length_append, List.length_singleton]
      omega
    rw [if_pos place, if_pos place, set, Option.bind_some, closeChunk_eq, preBytes, length,
      List.append_assoc, List.singleton_append]
  · rw [if_neg place, if_neg place, closeChunk_eq, copiedBytes]

/-- The data with a mark, zeros and the length behind it. -/
def padded (bytes : Bytes) : Bytes := pad 64 0x80 0 bytes (bigEndianBytes 8 (8 * bytes.length))

theorem length_padded (bytes : Bytes) :
    (padded bytes).length = 64 * ((bytes.length + 9 + 63) / 64) := by
  simp only [padded, pad, fill, List.length_append, List.length_cons, List.length_replicate,
    length_bigEndianBytes]
  omega

theorem bitLen_bytes {checks : Bool} {len bits : Nat} (fits : bitLen checks len = some bits) :
    bigEndianBytes 8 bits = bigEndianBytes 8 (8 * len) := by
  rw [bitLen] at fits
  split_ifs at fits
  obtain rfl := Option.some.inj fits
  rw [bigEndianBytes, bigEndianBytes, Nat.mul_comm, show (2 : Nat) ^ 64 = 256 ^ 8 from rfl,
    littleEndian_mod]

/-- The data in a chunk of its own, and what is behind it in the padded data. -/
theorem drop_padded (bytes : Bytes) :
    (padded bytes).drop (bytes.length / 64 * 64) = bytes.drop (bytes.length / 64 * 64) ++
      0x80 :: (List.replicate (fill 64 (bytes.length + 9)) 0 ++ bigEndianBytes 8 (8 * bytes.length)) := by
  rw [padded, pad, List.drop_append_of_le_length (Nat.div_mul_le_self _ _), length_bigEndianBytes]

theorem length_rest (bytes : Bytes) :
    (bytes.drop (bytes.length / 64 * 64)).length = bytes.length % 64 := by
  rw [List.length_drop]
  omega

/-- All of the padding is in the chunk of the last data. -/
theorem filled_early {bytes : Bytes} {numChunks : Nat} (early : bytes.length % 64 ≤ 64 - 9) :
    (filled bytes numChunks (bytes.length / 64)).take 56 ++ bigEndianBytes 8 (8 * bytes.length) =
      ((padded bytes).drop (bytes.length / 64 * 64)).take 64 := by
  have size := length_rest bytes
  have division := Nat.div_add_mod bytes.length 64
  have zeros : fill 64 (bytes.length + 9) = 55 - bytes.length % 64 := fill_eq (by omega) (by omega)
  rw [filled, marked, if_pos (.inl early), drop_padded, zeros, ← size]
  generalize bytes.drop (bytes.length / 64 * 64) = data at size ⊢
  have split : (data ++ [0x80]) ++ List.replicate (64 - (data ++ [0x80]).length) 0 =
      (data ++ 0x80 :: List.replicate (55 - data.length) 0) ++ List.replicate 8 0 := by
    rw [List.append_assoc, List.append_assoc, List.singleton_append, List.cons_append,
      List.replicate_append_replicate, List.length_append, List.length_singleton]
    congr 3
    omega
  have front : (data ++ 0x80 :: List.replicate (55 - data.length) 0).length = 56 := by
    rw [List.length_append, List.length_cons, List.length_replicate]
    omega
  rw [split, List.take_left' front, ← List.cons_append, ← List.append_assoc, List.take_of_length_le]
  rw [List.length_append, front, length_bigEndianBytes]

/-- The zeros fill the chunk of the last data and go on in one more chunk. -/
theorem drop_padded_late {bytes : Bytes} (late : ¬ bytes.length % 64 ≤ 64 - 9) :
    (padded bytes).drop (bytes.length / 64 * 64) = filled bytes (bytes.length / 64 + 2)
      (bytes.length / 64) ++ (List.replicate 56 0 ++ bigEndianBytes 8 (8 * bytes.length)) ∧
    (filled bytes (bytes.length / 64 + 2) (bytes.length / 64)).length = 64 := by
  have size := length_rest bytes
  have division := Nat.div_add_mod bytes.length 64
  have zeros : fill 64 (bytes.length + 9) = 63 - bytes.length % 64 + 56 :=
    fill_eq (by omega) (by omega)
  rw [filled, marked, if_pos (.inr rfl), drop_padded, zeros, ← size]
  generalize bytes.drop (bytes.length / 64 * 64) = data at size ⊢
  have left : 64 - (data ++ [0x80]).length = 63 - data.length := by
    rw [List.length_append, List.length_singleton]
    omega
  rw [left]
  constructor
  · rw [List.replicate_add, List.append_assoc, List.append_assoc, List.append_assoc,
      List.singleton_append]
  · rw [List.length_append, List.length_append, List.length_singleton, List.length_replicate]
    omega

theorem filled_last {bytes : Bytes} (late : ¬ bytes.length % 64 ≤ 64 - 9) :
    (filled bytes (bytes.length / 64 + 2) (bytes.length / 64 + 1)).take 56 ++
        bigEndianBytes 8 (8 * bytes.length) =
      ((padded bytes).drop ((bytes.length / 64 + 1) * 64)).take 64 := by
  obtain ⟨behind, front⟩ := drop_padded_late late
  have none' : bytes.drop ((bytes.length / 64 + 1) * 64) = [] := List.drop_eq_nil_of_le (by omega)
  have ending : (List.replicate 56 0 ++ bigEndianBytes 8 (8 * bytes.length)).take 64 =
      List.replicate 56 0 ++ bigEndianBytes 8 (8 * bytes.length) := by
    refine List.take_of_length_le ?_
    rw [List.length_append, List.length_replicate, length_bigEndianBytes]
  rw [filled, marked, if_neg (not_or.mpr ⟨late, by omega⟩), none', Nat.add_mul (bytes.length / 64),
    Nat.one_mul, ← List.drop_drop, behind, List.drop_left' front, ending]
  rfl

/-- The words of a chunk are those of the padded data. -/
theorem chunkWords_eq {checks : Bool} {bytes : Bytes} {chunk bits : Nat}
    (below : chunk < (bytes.length + 9 + 63) / 64) (fits : bitLen checks bytes.length = some bits) :
    chunkWords checks bytes ((bytes.length + 9 + 63) / 64) chunk =
      some (blockWords (((padded bytes).drop (chunk * 64)).take 64)) := by
  by_cases full : chunk * 64 + 64 ≤ bytes.length
  · rw [chunkWords, if_pos full, copyW_eq full, padded, pad, List.drop_append_of_le_length (by omega),
      List.take_append_of_le_length (by rw [List.length_drop]; omega)]
  have division := Nat.div_add_mod bytes.length 64
  rw [chunkWords_rest (by omega), fits, Option.map_some, bitLen_bytes fits]
  by_cases early : bytes.length % 64 ≤ 64 - 9
  · obtain rfl : chunk = bytes.length / 64 := by omega
    rw [if_pos (by omega), filled_early early]
  · have count : (bytes.length + 9 + 63) / 64 = bytes.length / 64 + 2 := by omega
    rw [count]
    by_cases last : chunk = bytes.length / 64
    · -- the length is left to the next chunk
      obtain ⟨behind, front⟩ := drop_padded_late early
      rw [last, if_neg (by omega), behind, List.take_left' front]
    · obtain rfl : chunk = bytes.length / 64 + 1 := by omega
      rw [if_pos rfl, filled_last early]

theorem word_output (word : UInt32) :
    [(word >>> 24).toUInt8, (word >>> 16).toUInt8, (word >>> 8).toUInt8, (word >>> 0).toUInt8] =
      (beWord32 word).val := by
  have byte (shift : UInt32) :
      (word >>> shift).toUInt8 = UInt8.ofNat (word.toNat >>> (shift.toNat % 32)) := by
    apply UInt8.toNat_inj.mp
    rw [UInt32.toNat_toUInt8, UInt32.toNat_shiftRight, UInt8.toNat_ofNat']
  simp only [byte, beWord32, bigEndianBytes, littleEndian, List.reverse_cons, List.reverse_nil,
    List.nil_append, List.cons_append, UInt32.reduceToNat, Nat.reduceMod, Nat.shiftRight_eq_div_pow,
    Nat.div_div_eq_div_mul, Nat.reducePow, Nat.reduceMul, Nat.div_one]

/-- The hash of the tag, twice. -/
theorem mapM_twice (hash : ByteArr 32) :
    ((List.range 64).mapM fun i => hash.val[i % hash.val.length]?) = some (hash.val ++ hash.val) := by
  have size := hash.property
  have each : ∀ i ∈ List.range 64,
      hash.val[i % hash.val.length]? = some ((hash.val ++ hash.val)[i]?.getD 0) := by
    intro i inside
    have below : i < 64 := List.mem_range.mp inside
    have index : i % 32 < hash.val.length := by omega
    have same : (hash.val ++ hash.val)[i]? = hash.val[i % 32]? := by
      by_cases first : i < 32
      · rw [List.getElem?_append_left (by omega), Nat.mod_eq_of_lt first]
      · rw [List.getElem?_append_right (by omega), size, show i - 32 = i % 32 by omega]
    rw [same, size, List.getElem?_eq_getElem index, Option.getD_some]
  rw [mapM_eq_some each]
  congr 1
  refine List.ext_getElem (by simp [size]) fun i _ inside => ?_
  rw [List.getElem_map, List.getElem_range, List.getElem?_eq_getElem inside, Option.getD_some]

section
variable [Compression]

theorem output_eq (state : Vector UInt32 8) :
    output state = HashEngine.stateBytes (a := algorithm) state := by
  apply Subtype.ext
  simp only [output, HashEngine.stateBytes, word_output, List.flatMap_def, List.map_map]
  rfl

/-- An engine hashes what it is given, as long as the length in bits is a `u64`. -/
theorem inputs_fromEngine {e : HashEngine algorithm} {message : Bytes} (holds : e.Holds message)
    (pieces : List Bytes) :
    (e.inputs pieces).bind fromEngine =
      (bitLen true (message ++ pieces.flatten).length).map fun _ =>
        digest (message ++ pieces.flatten) := by
  by_cases bound : (message ++ pieces.flatten).length < 2 ^ 61
  · obtain ⟨next, run, held⟩ := holds.inputs pieces (by omega)
    rw [run, Option.bind_some, fromEngine_eq held bound, bitLen, if_neg (by omega), Option.map_some]
  · rw [bitLen, if_pos ⟨rfl, by omega⟩, Option.map_none, Option.bind_eq_none_iff]
    intro next steps
    refine HashEngine.finish_long ?_
    rw [HashEngine.inputs_length steps, holds.length, ← List.length_append]
    omega

theorem hash_eq (data : Bytes) : hash data = (bitLen true data.length).map fun _ => digest data := by
  have run := inputs_fromEngine HashEngine.holds_default [data]
  rw [List.flatten_singleton, List.nil_append] at run
  rw [← run, hash, HashEngine.inputs, List.foldlM_cons]
  simp only [List.foldlM_nil, bind_pure]
  rfl

/-- An engine that was given the hash of the tag, twice. -/
def tagged (tag : Bytes) : HashEngine algorithm where
  buffer := HashEngine.zeroBuffer 64
  h := (blocks 64 ((digest tag).val ++ (digest tag).val)).foldl algorithm.processBlock algorithm.h
  length := 64

theorem holds_tagged (tag : Bytes) : (tagged tag).Holds ((digest tag).val ++ (digest tag).val) := by
  have size : ((digest tag).val ++ (digest tag).val).length = 64 := by
    rw [List.length_append, (digest tag).property]
  refine HashEngine.holds_of_complete ?_ size.symm rfl
  rw [size]
  exact Nat.dvd_refl 64

variable [Rounds]

/-- The chunks that are left are the blocks of the padded data behind those before. -/
theorem constLoop_eq {checks : Bool} {bytes : Bytes} {bits left chunk : Nat}
    (all : chunk + left = (bytes.length + 9 + 63) / 64) (fits : bitLen checks bytes.length = some bits)
    (state : Vector UInt32 8) :
    constLoop checks true bytes ((bytes.length + 9 + 63) / 64) left chunk state =
      some ((blocks 64 ((padded bytes).drop (chunk * 64))).foldl Compression.sha256 state) := by
  have size := length_padded bytes
  induction left generalizing chunk state with
  | zero =>
    rw [constLoop, List.drop_eq_nil_of_le (by omega), blocks_nil (by decide), List.foldl_nil]
  | succ left ih =>
    have full : 64 ≤ ((padded bytes).drop (chunk * 64)).length := by
      rw [List.length_drop]
      omega
    have first := blocks_of_le (by decide) full
    rw [constLoop, if_neg (by simp), chunkWords_eq (by omega) fits, Option.bind_eq_bind, Option.bind_some,
      ih (by omega), first, List.foldl_cons, Rounds.sha256_eq, Nat.add_mul, Nat.one_mul, List.drop_drop]

/-- Without the padding, complete blocks are all that is hashed. -/
theorem constLoop_unfinished {checks : Bool} {bytes : Bytes} {left chunk : Nat}
    (whole : 64 ∣ bytes.length) (all : chunk + left = bytes.length / 64 + 1) (some' : 0 < left)
    (state : Vector UInt32 8) :
    constLoop checks false bytes ((bytes.length + 9 + 63) / 64) left chunk state =
      some ((blocks 64 (bytes.drop (chunk * 64))).foldl Compression.sha256 state) := by
  have count : (bytes.length + 9 + 63) / 64 = bytes.length / 64 + 1 := by omega
  induction left generalizing chunk state with
  | zero => contradiction
  | succ left ih =>
    rw [constLoop, count]
    by_cases last : left = 0
    · rw [if_pos ⟨by simp, by omega⟩, List.drop_eq_nil_of_le (by omega), blocks_nil (by decide),
        List.foldl_nil]
    · have full : 64 ≤ (bytes.drop (chunk * 64)).length := by
        rw [List.length_drop]
        omega
      have first := blocks_of_le (by decide) full
      rw [count] at ih
      rw [if_neg (by omega), chunkWords, if_pos (by omega), copyW_eq (by omega), Option.bind_eq_bind,
        Option.bind_some, ih (by omega) (by omega), first, List.foldl_cons, Rounds.sha256_eq, Nat.add_mul,
        Nat.one_mul, List.drop_drop]

/-- The loop does not get past the last chunk if the length in bits overflows. -/
theorem constLoop_overflow {checks : Bool} {bytes : Bytes} {left chunk : Nat}
    (all : chunk + left = (bytes.length + 9 + 63) / 64) (some' : 0 < left)
    (overflow : bitLen checks bytes.length = none) (state : Vector UInt32 8) :
    constLoop checks true bytes ((bytes.length + 9 + 63) / 64) left chunk state = none := by
  induction left generalizing chunk state with
  | zero => contradiction
  | succ left ih =>
    rw [constLoop, if_neg (by simp), Option.bind_eq_bind, Option.bind_eq_none_iff]
    intro w words
    by_cases last : left = 0
    · rw [chunkWords_rest (by omega), if_pos (by omega), overflow] at words
      contradiction
    · exact ih (by omega) (by omega) _

theorem constHash_eq (checks : Bool) (bytes : Bytes) :
    constHash checks bytes = (bitLen checks bytes.length).map fun _ => digest bytes := by
  rw [constHash, midstateConstHash]
  cases fits : bitLen checks bytes.length with
  | none => rw [constLoop_overflow (by omega) (by omega) fits, Option.map_none, Option.map_none]
  | some bits =>
    rw [constLoop_eq (by omega) fits, Nat.zero_mul, List.drop_zero, Option.map_some, output_eq,
      Option.map_some]
    rfl

theorem hashTag_eq (checks : Bool) (tag : Bytes) :
    hashTag checks tag = (bitLen checks tag.length).map fun _ => midstate (tagged tag) := by
  have size : ((digest tag).val ++ (digest tag).val).length = 64 := by
    rw [List.length_append, (digest tag).property]
  obtain ⟨buf, copy, copied⟩ := @setBytes_eq 64 (HashEngine.zeroBuffer 64) []
    (HashEngine.zeroBuffer 64).val [] ((digest tag).val ++ (digest tag).val)
    (by rw [List.nil_append, List.append_nil]) (by rw [size, (HashEngine.zeroBuffer 64).property])
  rw [List.nil_append, List.append_nil] at copied
  rw [List.length_nil] at copy
  rw [hashTag, constHash_eq]
  cases bitLen checks tag.length with
  | none => rfl
  | some bits =>
    simp only [Option.map_some, Option.bind_eq_bind, Option.bind_some, mapM_twice, copy]
    rw [copied, midstateConstHash,
      constLoop_unfinished (by rw [size]) (by rw [size]) (by rw [size]; decide),
      Nat.zero_mul, List.drop_zero, Option.map_some, output_eq]
    rfl

/-- Hashing at compile time and at run time agree, down to the lengths where both panic; without
overflow checks the former returns for every length, so that no index is out of range. An engine
that is resumed from the midstate of a tag hashes what follows the hash of the tag, twice. -/
theorem constHash_agrees :
    (∀ bytes, constHash true bytes = hash bytes) ∧
    (∀ bytes, constHash false bytes = some (digest bytes)) ∧
    ∀ tag pieces,
      ((hashTag true tag).bind fun midstate => (fromMidstate midstate 64).bind fun e =>
        (e.inputs pieces).bind fromEngine) =
      (hash tag).bind fun once => hash (once.val ++ once.val ++ pieces.flatten) := by
  refine ⟨fun bytes => by rw [constHash_eq, hash_eq], fun bytes => ?_, fun tag pieces => ?_⟩
  · rw [constHash_eq, bitLen, if_neg (by simp), Option.map_some]
  · have resumed : fromMidstate (midstate (tagged tag)) 64 = some (tagged tag) :=
      fromMidstate_midstate (Nat.dvd_refl 64)
    rw [hashTag_eq, hash_eq]
    cases bitLen true tag.length with
    | none => rfl
    | some bits =>
      rw [Option.map_some, Option.bind_some, resumed, Option.bind_some, Option.map_some,
        Option.bind_some, hash_eq]
      exact inputs_fromEngine (holds_tagged tag) pieces

end

/-! The rounds that need no intrinsics (`software_process_block`). -/
namespace Software

def rotateLeft (x count : UInt32) : UInt32 := (x <<< count) ||| (x >>> (32 - count))

def ch (x y z : UInt32) : UInt32 := z ^^^ (x &&& (y ^^^ z))

def maj (x y z : UInt32) : UInt32 := (x &&& y) ||| (z &&& (x ||| y))

/-- `Sigma0`. -/
def upperSigma0 (x : UInt32) : UInt32 := rotateLeft x 30 ^^^ rotateLeft x 19 ^^^ rotateLeft x 10

/-- `Sigma1`. -/
def upperSigma1 (x : UInt32) : UInt32 := rotateLeft x 26 ^^^ rotateLeft x 21 ^^^ rotateLeft x 7

def sigma0 (x : UInt32) : UInt32 := rotateLeft x 25 ^^^ rotateLeft x 14 ^^^ (x >>> 3)

def sigma1 (x : UInt32) : UInt32 := rotateLeft x 15 ^^^ rotateLeft x 13 ^^^ (x >>> 10)

/-- The constants of the 64 rounds. -/
def k : List UInt32 :=
  [0x428a2f98, 0x71374491, 0xb5c0fbcf, 0xe9b5dba5, 0x3956c25b, 0x59f111f1, 0x923f82a4, 0xab1c5ed5,
    0xd807aa98, 0x12835b01, 0x243185be, 0x550c7dc3, 0x72be5d74, 0x80deb1fe, 0x9bdc06a7, 0xc19bf174,
    0xe49b69c1, 0xefbe4786, 0x0fc19dc6, 0x240ca1cc, 0x2de92c6f, 0x4a7484aa, 0x5cb0a9dc, 0x76f988da,
    0x983e5152, 0xa831c66d, 0xb00327c8, 0xbf597fc7, 0xc6e00bf3, 0xd5a79147, 0x06ca6351, 0x14292967,
    0x27b70a85, 0x2e1b2138, 0x4d2c6dfc, 0x53380d13, 0x650a7354, 0x766a0abb, 0x81c2c92e, 0x92722c85,
    0xa2bfe8a1, 0xa81a664b, 0xc24b8b70, 0xc76c51a3, 0xd192e819, 0xd6990624, 0xf40e3585, 0x106aa070,
    0x19a4c116, 0x1e376c08, 0x2748774c, 0x34b0bcb5, 0x391c0cb3, 0x4ed8aa4a, 0x5b9cca4f, 0x682e6ff3,
    0x748f82ee, 0x78a5636f, 0x84c87814, 0x8cc70208, 0x90befffa, 0xa4506ceb, 0xbef9a3f7, 0xc67178f2]

/-- `round!`; the variables move on by one place from call to call. -/
def round (s : Vector UInt32 8) (k w : UInt32) : Vector UInt32 8 :=
  let t1 := s[7] + upperSigma1 s[4] + ch s[4] s[5] s[6] + k + w
  let t2 := upperSigma0 s[0] + maj s[0] s[1] s[2]
  #v[t1 + t2, s[0], s[1], s[2], s[3] + t1, s[4], s[5], s[6]]

/-- The words of all rounds: a later one takes the place of the word sixteen rounds before. -/
def schedule : (later : Nat) → List UInt32 → List UInt32
  | later + 1, w0 :: rest =>
    let w := w0 + sigma1 (rest.getD 13 0) + rest.getD 8 0 + sigma0 (rest.getD 0 0)
    w0 :: schedule later (rest ++ [w])
  | _, words => words

def rounds (h : Vector UInt32 8) (w : List UInt32) : Vector UInt32 8 :=
  Vector.zipWith (· + ·) h ((k.zip (schedule 48 w)).foldl (fun s (k, w) => round s k w) h)

/-- The other functions are not those of the crate. -/
@[reducible] def compression : Compression where
  sha256 h block := rounds h (blockWords block.val)
  sha512 h _ := h
  sha1 h _ := h
  ripemd160 h _ := h

attribute [local instance] compression

@[reducible] def shared : Rounds where
  rounds := rounds
  sha256_eq _ _ := rfl

attribute [local instance] shared

theorem abc_hashed :
    constHash true [0x61, 0x62, 0x63] = hash [0x61, 0x62, 0x63] ∧
      (constHash true [0x61, 0x62, 0x63]).map Subtype.val =
        some [0xba, 0x78, 0x16, 0xbf, 0x8f, 0x01, 0xcf, 0xea, 0x41, 0x41, 0x40, 0xde, 0x5d, 0xae, 0x22, 0x23,
          0xb0, 0x03, 0x61, 0xa3, 0x96, 0x17, 0x7a, 0x9c, 0xb4, 0x10, 0xff, 0x61, 0xf2, 0x00, 0x15, 0xad] :=
  ⟨constHash_agrees.1 _, by decide +kernel⟩

end Software
end Sha256
end Litecoin
