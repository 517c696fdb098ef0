import Litecoin.Crypto.Engine

/-! Hashing in pieces: an engine holds the blocks and the rest of what it was given, however it was
cut up, and `from_engine` hashes the padded message. -/
namespace Litecoin
open Wire Consensus
namespace HashEngine
variable {a : Algorithm}

/-- An engine that was given the message: the complete blocks are in the state, the rest is in
the buffer. -/
def Holds (e : HashEngine a) (message : Bytes) : Prop :=
  ∃ front pending, message = front ++ pending ∧ a.blockSize ∣ front.length ∧ pending.length < a.blockSize ∧
    e.length = message.length ∧ e.h = (blocks a.blockSize front).foldl a.processBlock a.h ∧
    e.buffer.val.take pending.length = pending

theorem Holds.length {e : HashEngine a} {message : Bytes} (holds : e.Holds message) :
    e.length = message.length := by
  obtain ⟨_, _, _, _, _, length, _⟩ := holds
  exact length

theorem holds_default : (default a).Holds [] :=
  ⟨[], [], rfl, Nat.dvd_zero _, a.positive, rfl, by rw [blocks_short a.positive]; rfl, rfl⟩

/-- A message of complete blocks is in the state. -/
theorem Holds.complete {e : HashEngine a} {message : Bytes} (holds : e.Holds message)
    (whole : a.blockSize ∣ message.length) :
    e.h = (blocks a.blockSize message).foldl a.processBlock a.h := by
  obtain ⟨front, pending, rfl, blocks, short, -, state, -⟩ := holds
  rw [List.length_append, Nat.dvd_add_right blocks] at whole
  obtain rfl := List.length_eq_zero_iff.mp (Nat.eq_zero_of_dvd_of_lt whole short)
  rw [List.append_nil, state]

/-- The state and the length are all that is left of complete blocks. -/
theorem holds_of_complete {e : HashEngine a} {message : Bytes} (whole : a.blockSize ∣ message.length)
    (length : e.length = message.length)
    (state : e.h = (blocks a.blockSize message).foldl a.processBlock a.h) : e.Holds message :=
  ⟨message, [], (List.append_nil _).symm, whole, a.positive, length, state, rfl⟩

theorem copyFromSlice_take {n : Nat} (buffer : ByteArr n) {start : Nat} {slice : Bytes}
    (fits : start + slice.length ≤ n) :
    ∃ copied, copyFromSlice buffer start slice = some copied ∧
      copied.val.take (start + slice.length) = buffer.val.take start ++ slice := by
  refine ⟨_, dif_pos fits, List.take_left' ?_⟩
  rw [List.length_append, List.length_take, buffer.property, Nat.min_eq_left (by omega)]

/-- One round of the loop adds its slice to what the engine holds. -/
theorem Holds.write {e : HashEngine a} {message slice : Bytes} (holds : e.Holds message) (some' : slice ≠ [])
    (room : slice.length ≤ a.blockSize - e.length % a.blockSize)
    (bound : (message ++ slice).length < 2 ^ 64) :
    ∃ next, e.write slice = some next ∧ next.Holds (message ++ slice) := by
  obtain ⟨front, pending, rfl, whole, short, length, state, buffer⟩ := holds
  have index : e.length % a.blockSize = pending.length := by
    obtain ⟨k, front_length⟩ := whole
    rw [length, List.length_append, front_length, Nat.mul_add_mod, Nat.mod_eq_of_lt short]
  rw [index] at room
  have sum : add e.length slice.length = some (front ++ pending ++ slice).length := by
    rw [List.length_append, ← length] at bound ⊢
    exact if_pos bound
  obtain ⟨copied, copy, front_copied⟩ := copyFromSlice_take e.buffer
    (show pending.length + slice.length ≤ a.blockSize by omega)
  rw [buffer] at front_copied
  refine ⟨_, by rw [HashEngine.write, index, copy, Option.bind_eq_bind, Option.bind_some, sum]; rfl, ?_⟩
  have total : (front ++ pending ++ slice).length = front.length + (pending ++ slice).length := by
    rw [List.append_assoc, List.length_append]
  have added : (pending ++ slice).length = pending.length + slice.length := List.length_append
  by_cases full : pending.length + slice.length = a.blockSize
  · have divides : a.blockSize ∣ (front ++ pending ++ slice).length := by
      rw [total, added, full]
      exact Nat.dvd_add whole (Nat.dvd_refl _)
    have block : copied.val = pending ++ slice := by
      rw [← front_copied, full, List.take_of_length_le (Nat.le_of_eq copied.property)]
    refine holds_of_complete divides rfl ?_
    simp only [if_pos (Nat.mod_eq_zero_of_dvd divides)]
    rw [state, List.append_assoc, blocks_append a.positive whole, ← block, blocks_self a.positive,
      List.foldl_append]
    rfl
  · have below : (pending ++ slice).length < a.blockSize := by omega
    obtain ⟨k, front_length⟩ := whole
    have nonempty : 0 < (pending ++ slice).length := by
      have := List.length_pos_iff.mpr some'
      omega
    have incomplete : (front ++ pending ++ slice).length % a.blockSize ≠ 0 := by
      rw [total, front_length, Nat.mul_add_mod, Nat.mod_eq_of_lt below]
      exact Nat.ne_of_gt nonempty
    refine ⟨front, pending ++ slice, List.append_assoc _ _ _, ⟨k, front_length⟩, below, rfl, ?_, ?_⟩
    · simp only [if_neg incomplete]
      exact state
    · rw [added]
      exact front_copied

/-- The loop adds all of its input. -/
theorem Holds.input {e : HashEngine a} {message : Bytes} (holds : e.Holds message) (inp : Bytes)
    (bound : (message ++ inp).length < 2 ^ 64) :
    ∃ next, e.input inp = some next ∧ next.Holds (message ++ inp) := by
  induction e, inp using HashEngine.input.induct generalizing message with
  | case1 e => exact ⟨e, by rw [HashEngine.input, if_pos rfl], by rwa [List.append_nil]⟩
  | case2 e inp some' remLen writeLen =>
    rename_i ih
    have split : inp.take writeLen ++ inp.drop writeLen = inp := List.take_append_drop _ _
    have nonempty : inp.take writeLen ≠ [] := by
      have room := Nat.mod_lt e.length a.positive
      have := List.length_pos_iff.mpr some'
      rw [← List.length_pos_iff, List.length_take]
      omega
    obtain ⟨next, step, held⟩ := holds.write nonempty (by rw [List.length_take]; omega) (by
      rw [List.length_append] at bound ⊢
      rw [List.length_take]
      omega)
    rw [← split, ← List.append_assoc] at bound
    obtain ⟨last, steps, all⟩ := ih next held bound
    rw [List.append_assoc, split] at all
    refine ⟨last, ?_, all⟩
    rw [HashEngine.input, if_neg some']
    simp only
    rw [step, Option.bind_some, steps]

/-- Pieces are added one after another. -/
theorem Holds.inputs {e : HashEngine a} {message : Bytes} (holds : e.Holds message) (pieces : List Bytes)
    (bound : (message ++ pieces.flatten).length < 2 ^ 64) :
    ∃ next, e.inputs pieces = some next ∧ next.Holds (message ++ pieces.flatten) := by
  induction pieces generalizing e message with
  | nil => exact ⟨e, rfl, by rwa [List.flatten_nil, List.append_nil]⟩
  | cons piece rest ih =>
    rw [List.flatten_cons, ← List.append_assoc] at bound ⊢
    obtain ⟨next, step, held⟩ := holds.input piece (by
      rw [List.length_append] at bound
      omega)
    obtain ⟨last, steps, all⟩ := ih held bound
    exact ⟨last, by rw [HashEngine.inputs, List.foldlM_cons, step]; exact steps, all⟩

theorem write_length {e next : HashEngine a} {slice : Bytes} (step : e.write slice = some next) :
    next.length = e.length + slice.length := by
  rw [HashEngine.write, Option.bind_eq_bind, Option.bind_eq_some_iff] at step
  obtain ⟨buffer, -, step⟩ := step
  rw [Option.bind_eq_bind, Option.bind_eq_some_iff] at step
  obtain ⟨length, sum, step⟩ := step
  rw [add] at sum
  split_ifs at sum
  obtain rfl := Option.some.inj sum
  exact congrArg HashEngine.length (Option.some.inj step).symm

theorem input_length {e next : HashEngine a} {inp : Bytes} (step : e.input inp = some next) :
    next.length = e.length + inp.length := by
  induction e, inp using HashEngine.input.induct with
  | case1 e =>
    rw [HashEngine.input, if_pos rfl] at step
    obtain rfl := Option.some.inj step
    rfl
  | case2 e inp some' remLen writeLen =>
    rename_i ih
    rw [HashEngine.input, if_neg some', Option.bind_eq_some_iff] at step
    obtain ⟨written, write, rest⟩ := step
    rw [ih written rest, write_length write, Nat.add_assoc, ← List.length_append, List.take_append_drop]

theorem inputs_length {e next : HashEngine a} {pieces : List Bytes} (steps : e.inputs pieces = some next) :
    next.length = e.length + pieces.flatten.length := by
  induction pieces generalizing e with
  | nil =>
    obtain rfl := Option.some.inj steps
    rfl
  | cons piece rest ih =>
    rw [HashEngine.inputs, List.foldlM_cons, Option.bind_eq_bind, Option.bind_eq_some_iff] at steps
    obtain ⟨middle, first, others⟩ := steps
    rw [ih others, input_length first, List.flatten_cons, List.length_append, Nat.add_assoc]

/-- No data is hashed whose length in bits is not a `u64`. -/
theorem finish_long {e : HashEngine a} {lengthField : Nat → List Bytes} {lengthSize : Nat}
    (long : 2 ^ 61 ≤ e.length) : e.finish lengthField lengthSize = none := by
  have bits : bitLength e.length = none := if_neg (by omega)
  rw [HashEngine.finish]
  simp only [bits, Option.bind_eq_bind, Option.bind_none, Option.bind_fun_none]

/-- An engine that starts with the state and the length of one that was given complete blocks. -/
theorem Holds.resume {e : HashEngine a} {message : Bytes} (holds : e.Holds message)
    (whole : a.blockSize ∣ message.length) (buffer : ByteArr a.blockSize) :
    (HashEngine.mk buffer e.h message.length).Holds message :=
  holds_of_complete whole rfl (holds.complete whole)

/-- The bytes of the state after the padded message, with a field at its end. -/
def digest (a : Algorithm) (message field : Bytes) : ByteArr (a.words * a.wordSize) :=
  stateBytes ((blocks a.blockSize (pad a.blockSize 0x80 0 message field)).foldl a.processBlock a.h)

/-- The first zeros, which go up to the length or into the next block. -/
theorem Holds.endBlock {e : HashEngine a} {message : Bytes} (holds : e.Holds message) {lengthSize : Nat}
    (some' : 0 < lengthSize) (half : 2 * lengthSize ≤ a.blockSize)
    (bound : message.length + a.blockSize < 2 ^ 64) :
    ∃ next count, e.endBlock (List.replicate (a.blockSize - lengthSize) 0) = some next ∧
      next.Holds (message ++ List.replicate count 0) ∧
      next.length % a.blockSize ≤ a.blockSize - lengthSize ∧
      count + (a.blockSize - lengthSize - next.length % a.blockSize) < a.blockSize := by
  have room := Nat.mod_lt e.length a.positive
  by_cases late : a.blockSize - lengthSize < e.length % a.blockSize
  · obtain ⟨next, step, held⟩ := holds.input (List.replicate (a.blockSize - lengthSize) 0) (by
      rw [List.length_append, List.length_replicate]
      omega)
    have residue : next.length % a.blockSize = e.length % a.blockSize - lengthSize := by
      rw [held.length, List.length_append, List.length_replicate, ← holds.length, Nat.add_mod,
        Nat.mod_eq_of_lt (show a.blockSize - lengthSize < a.blockSize by omega),
        show e.length % a.blockSize + (a.blockSize - lengthSize) =
          e.length % a.blockSize - lengthSize + a.blockSize by omega, Nat.add_mod_right,
        Nat.mod_eq_of_lt (by omega)]
    exact ⟨next, _, by rw [HashEngine.endBlock, List.length_replicate, if_pos late, step], held, by omega, by omega⟩
  · refine ⟨e, 0, by rw [HashEngine.endBlock, List.length_replicate, if_neg late], ?_, by omega, by omega⟩
    rwa [List.replicate_zero, List.append_nil]

/-- `from_engine` does not panic, and hashes the padded message. -/
theorem Holds.finish {e : HashEngine a} {message : Bytes} (holds : e.Holds message)
    (bound : message.length < 2 ^ 61) {lengthField : Nat → List Bytes} {field : Bytes} {lengthSize : Nat}
    (written : (lengthField (8 * message.length)).flatten = field) (width : field.length = lengthSize)
    (some' : 0 < lengthSize) (half : 2 * lengthSize ≤ a.blockSize) (small : a.blockSize ≤ 2 ^ 10) :
    e.finish lengthField lengthSize = some (digest a message field) := by
  subst width
  obtain ⟨marked, mark, held⟩ := holds.input [0x80] (by
    rw [List.length_append, List.length_singleton]
    omega)
  obtain ⟨padded, count, firstStep, first, early, few⟩ := held.endBlock some' half (by
    rw [List.length_append, List.length_singleton]
    omega)
  generalize rest : a.blockSize - field.length - padded.length % a.blockSize = more at few
  obtain ⟨filled, lastStep, last⟩ := first.input (List.replicate more 0) (by
    simp only [List.length_append, List.length_singleton, List.length_replicate]
    omega)
  obtain ⟨closed, fieldStep, all⟩ := last.inputs (lengthField (8 * message.length)) (by
    rw [written]
    simp only [List.length_append, List.length_singleton, List.length_replicate]
    omega)
  rw [written] at all
  have residue : filled.length % a.blockSize = a.blockSize - field.length := by
    rw [last.length, List.length_append, ← first.length, List.length_replicate, Nat.add_mod,
      Nat.mod_eq_of_lt (show more < a.blockSize by omega), ← rest, Nat.add_sub_cancel' early,
      Nat.mod_eq_of_lt (by omega)]
  have complete : closed.length % a.blockSize = 0 := by
    rw [all.length, List.length_append, ← last.length, Nat.add_mod, residue,
      Nat.mod_eq_of_lt (show field.length < a.blockSize by omega), Nat.sub_add_cancel (by omega), Nat.mod_self]
  have message_eq : message ++ [0x80] ++ List.replicate count 0 ++ List.replicate more 0 ++
      field = pad a.blockSize 0x80 0 message field := by
    have zeros : fill a.blockSize (message.length + 1 + field.length) = count + more := by
      refine fill_eq ?_ few
      have whole := Nat.dvd_of_mod_eq_zero complete
      rw [all.length] at whole
      simpa [Nat.add_assoc, Nat.add_comm, Nat.add_left_comm] using whole
    rw [pad, zeros, List.replicate_add]
    simp
  rw [message_eq] at all
  have state := all.complete (dvd_length_pad a.positive _ _ _ _)
  have bits : bitLength e.length = some (8 * message.length) := by
    rw [holds.length]
    exact if_pos (by omega)
  have difference : sub (a.blockSize - field.length) (padded.length % a.blockSize) = some more := by
    rw [← rest]
    exact if_pos early
  rw [HashEngine.finish]
  simp only [List.length_replicate, mark, Option.bind_eq_bind, Option.bind_some, firstStep, difference,
    List.take_replicate, show min more (a.blockSize - field.length) = more by omega, lastStep, residue, guard, if_true,
    bits, fieldStep, complete]
  show some (stateBytes closed.h) = _
  rw [state]
  rfl

end HashEngine

theorem length_bigEndianBytes (width value : Nat) : (bigEndianBytes width value).length = width := by
  rw [bigEndianBytes, List.length_reverse, littleEndian_length]

theorem word32_bytes (word : UInt32) : UInt32.ofNat (fromLittleEndian (beWord32 word).val.reverse) = word := by
  show UInt32.ofNat (fromLittleEndian (littleEndian 4 word.toNat).reverse.reverse) = word
  rw [List.reverse_reverse, fromLittleEndian_littleEndian word.toNat_lt, UInt32.ofNat_toNat]

/-- The words are read back from their bytes. -/
theorem words_bytes {n : Nat} (h : Vector UInt32 n) :
    (Vector.ofFn fun i : Fin n => ((blocks 4 ((h.toList.map beWord32).map Subtype.val).flatten)[i.val]?.map
      fun chunk => UInt32.ofNat (fromLittleEndian chunk.val.reverse)).getD 0) = h := by
  rw [blocks_flatten (by decide)]
  refine Vector.ext fun i bound => ?_
  rw [Vector.getElem_ofFn, List.getElem?_map, List.getElem?_eq_getElem (by rwa [Vector.length_toList]),
    Option.map_some, Option.map_some, Option.getD_some, word32_bytes, Vector.getElem_toList]

theorem bigEndianBytes_wide (low high : Nat) {value : Nat} (fits : value < 256 ^ low) :
    bigEndianBytes (low + high) value = List.replicate high 0 ++ bigEndianBytes low value := by
  have front : littleEndian (low + high) value = littleEndian low value ++ List.replicate high 0 := by
    induction low generalizing value with
    | zero =>
      obtain rfl : value = 0 := by simpa using fits
      rw [Nat.zero_add, littleEndian, List.nil_append]
      induction high with
      | zero => rfl
      | succ high ih => rw [littleEndian, ih]; rfl
    | succ low ih =>
      have tail : value / 256 < 256 ^ low := by
        rw [Nat.pow_succ] at fits
        omega
      rw [Nat.succ_add, littleEndian, ih tail]
      rfl
  rw [bigEndianBytes, front, List.reverse_append, List.reverse_replicate, bigEndianBytes]

section
variable [Compression]

namespace Sha256

/-- The padded message is hashed with the length in 64 bits. -/
def digest (message : Bytes) : ByteArr 32 := HashEngine.digest algorithm message (bigEndianBytes 8 (8 * message.length))

/-- A midstate has all of the state in it. -/
theorem fromMidstate_midstate {e : HashEngine algorithm} {length : Nat} (whole : 64 ∣ length) :
    fromMidstate (midstate e) length = some { buffer := HashEngine.zeroBuffer 64, h := e.h, length } := by
  rw [fromMidstate, if_pos (Nat.mod_eq_zero_of_dvd whole)]
  exact congrArg (fun h : Vector UInt32 8 => some (HashEngine.mk (a := algorithm) (HashEngine.zeroBuffer 64) h
    length)) (words_bytes e.h)

theorem fromEngine_eq {e : HashEngine algorithm} {message : Bytes} (holds : e.Holds message)
    (bound : message.length < 2 ^ 61) : fromEngine e = some (digest message) := by
  have written : [bigEndianBytes 8 (8 * message.length)].flatten = bigEndianBytes 8 (8 * message.length) :=
    List.flatten_singleton
  have length : (bigEndianBytes 8 (8 * message.length)).length = 8 := length_bigEndianBytes 8 _
  exact holds.finish bound written length (by decide) (show 2 * 8 ≤ 64 by decide) (show 64 ≤ 2 ^ 10 by decide)

end Sha256

namespace Sha512

/-- The padded message is hashed with the length in 128 bits. -/
def digest (message : Bytes) : ByteArr 64 := HashEngine.digest algorithm message (bigEndianBytes 16 (8 * message.length))

theorem fromEngine_eq {e : HashEngine algorithm} {message : Bytes} (holds : e.Holds message)
    (bound : message.length < 2 ^ 61) : fromEngine e = some (digest message) := by
  have written : [List.replicate 8 0, bigEndianBytes 8 (8 * message.length)].flatten =
      bigEndianBytes 16 (8 * message.length) := by
    rw [bigEndianBytes_wide 8 8 (by omega)]
    simp
  have length : (bigEndianBytes 16 (8 * message.length)).length = 16 := length_bigEndianBytes 16 _
  exact holds.finish bound written length (by decide) (show 2 * 16 ≤ 128 by decide) (show 128 ≤ 2 ^ 10 by decide)

end Sha512

namespace Sha1

def digest (message : Bytes) : ByteArr 20 := HashEngine.digest algorithm message (bigEndianBytes 8 (8 * message.length))

theorem fromEngine_eq {e : HashEngine algorithm} {message : Bytes} (holds : e.Holds message)
    (bound : message.length < 2 ^ 61) : fromEngine e = some (digest message) := by
  have written : [bigEndianBytes 8 (8 * message.length)].flatten = bigEndianBytes 8 (8 * message.length) :=
    List.flatten_singleton
  have length : (bigEndianBytes 8 (8 * message.length)).length = 8 := length_bigEndianBytes 8 _
  exact holds.finish bound written length (by decide) (show 2 * 8 ≤ 64 by decide) (show 64 ≤ 2 ^ 10 by decide)

end Sha1

namespace Ripemd160

def digest (message : Bytes) : ByteArr 20 := HashEngine.digest algorithm message (littleEndian 8 (8 * message.length))

theorem fromEngine_eq {e : HashEngine algorithm} {message : Bytes} (holds : e.Holds message)
    (bound : message.length < 2 ^ 61) : fromEngine e = some (digest message) := by
  have written : [littleEndian 8 (8 * message.length)].flatten = littleEndian 8 (8 * message.length) :=
    List.flatten_singleton
  have length : (littleEndian 8 (8 * message.length)).length = 8 := littleEndian_length 8 _
  exact holds.finish bound written length (by decide) (show 2 * 8 ≤ 64 by decide) (show 64 ≤ 2 ^ 10 by decide)

end Ripemd160

/-- The four engines do not depend on how a message is cut up: they hash the padded message,
without a panic. A `sha256` engine that is resumed from the midstate after complete blocks ends
in the same digest. -/
theorem streaming_hashes (pieces : List Bytes) (bound : pieces.flatten.length < 2 ^ 61) :
    (Sha256.engine.inputs pieces).bind Sha256.fromEngine = some (Sha256.digest pieces.flatten) ∧
    (Sha512.engine.inputs pieces).bind Sha512.fromEngine = some (Sha512.digest pieces.flatten) ∧
    (Sha1.engine.inputs pieces).bind Sha1.fromEngine = some (Sha1.digest pieces.flatten) ∧
    (Ripemd160.engine.inputs pieces).bind Ripemd160.fromEngine = some (Ripemd160.digest pieces.flatten) ∧
    ∀ front back, pieces = front ++ back → 64 ∣ front.flatten.length →
      ∃ e resumed, Sha256.engine.inputs front = some e ∧
        Sha256.fromMidstate (Sha256.midstate e) front.flatten.length = some resumed ∧
        (resumed.inputs back).bind Sha256.fromEngine = some (Sha256.digest pieces.flatten) := by
  have start (a : Algorithm) : ∃ e, (HashEngine.default a).inputs pieces = some e ∧ e.Holds pieces.flatten := by
    refine HashEngine.holds_default.inputs pieces ?_
    rw [List.nil_append]
    omega
  refine ⟨?_, ?_, ?_, ?_, ?_⟩
  · obtain ⟨e, run, holds⟩ := start Sha256.algorithm
    rw [Sha256.engine, run, Option.bind_some]
    exact Sha256.fromEngine_eq holds bound
  · obtain ⟨e, run, holds⟩ := start Sha512.algorithm
    rw [Sha512.engine, run, Option.bind_some]
    exact Sha512.fromEngine_eq holds bound
  · obtain ⟨e, run, holds⟩ := start Sha1.algorithm
    rw [Sha1.engine, run, Option.bind_some]
    exact Sha1.fromEngine_eq holds bound
  · obtain ⟨e, run, holds⟩ := start Ripemd160.algorithm
    rw [Ripemd160.engine, run, Option.bind_some]
    exact Ripemd160.fromEngine_eq holds bound
  · rintro front back rfl whole
    rw [List.flatten_append] at bound ⊢
    obtain ⟨e, run, holds⟩ := HashEngine.holds_default.inputs (a := Sha256.algorithm) front (by
      rw [List.nil_append]
      rw [List.length_append] at bound
      omega)
    rw [List.nil_append] at holds
    obtain ⟨last, rest, all⟩ := (holds.resume whole (HashEngine.zeroBuffer 64)).inputs back (by omega)
    exact ⟨e, _, run, Sha256.fromMidstate_midstate whole, by
      exact (congrArg (·.bind Sha256.fromEngine) rest).trans (Sha256.fromEngine_eq all bound)⟩

end

namespace Streaming.Sample

/-- The compression functions on the blocks of 64 letters `a` and a letter `b`. -/
@[reducible] def compression : Compression where
  sha256 _ block := if block.val.head? = some 0x61 then
      #v[0xdf5bb81c, 0xe81e0626, 0xfb45a894, 0x4fd40f31, 0xb25e6816, 0xd6d499c1, 0xab904929, 0x00635e66]
    else #v[0x3e63da2d, 0x835edc34, 0xe3bca8ee, 0xf3a45442, 0x7eae1b01, 0x381bbc01, 0xc6ca812e, 0x1066d660]
  sha512 _ _ := #v[0xbd6d15c411195c5f, 0x2f8fd2ca18ae9b13, 0x09fb86b586fd0753, 0xb34769902c0e84e5,
    0x883ee4d37e877eaa, 0x3cfeb4cb5c805165, 0x017bbb71a8eea555, 0x7a65307ef89893be]
  sha1 _ block := if block.val.head? = some 0x61 then
      #v[0xda4968eb, 0x2e377c1f, 0x884e8f52, 0x83524beb, 0xe74ebdbd]
    else #v[0x18e12ba4, 0x18042780, 0x7b36cbe3, 0xb0eca772, 0x7391949f]
  ripemd160 _ block := if block.val.head? = some 0x61 then
      #v[0xd42339f0, 0xce5b9f6f, 0x2874a075, 0xdf67aaf1, 0xc6c1be1c]
    else #v[0xdbcd47d7, 0x8ebca332, 0x1cdd2980, 0x01cadcac, 0xd6992239]

attribute [local instance] compression

def front : List Bytes := [List.replicate 30 0x61, [], List.replicate 34 0x61]

def back : List Bytes := [[], [0x62]]

theorem letters_hashed :
    (Sha256.engine.inputs (front ++ back)).bind Sha256.fromEngine =
      some (Sha256.digest (front ++ back).flatten) ∧
    (Sha256.digest (front ++ back).flatten).val =
      [0x3e, 0x63, 0xda, 0x2d, 0x83, 0x5e, 0xdc, 0x34, 0xe3, 0xbc, 0xa8, 0xee, 0xf3, 0xa4, 0x54, 0x42,
        0x7e, 0xae, 0x1b, 0x01, 0x38, 0x1b, 0xbc, 0x01, 0xc6, 0xca, 0x81, 0x2e, 0x10, 0x66, 0xd6, 0x60] ∧
    ∃ e resumed, Sha256.engine.inputs front = some e ∧
      Sha256.fromMidstate (Sha256.midstate e) front.flatten.length = some resumed ∧
      (resumed.inputs back).bind Sha256.fromEngine = some (Sha256.digest (front ++ back).flatten) := by
  have hashed := streaming_hashes (front ++ back) (by decide)
  exact ⟨hashed.1, by decide +kernel, hashed.2.2.2.2 front back rfl (by decide)⟩

end Streaming.Sample
end Litecoin
