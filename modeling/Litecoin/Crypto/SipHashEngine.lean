import Litecoin.Crypto.SipHash
import Litecoin.Crypto.SipRound

/-! The engine of SipHash-2-4 (`hashes/siphash24.rs`), which takes its message in pieces. A panic,
and a read outside of a buffer, is `none`. -/
namespace Litecoin.SipHash
open Wire

/-- A number of up to eight little-endian bytes. -/
def word (bytes : Bytes) : UInt64 := UInt64.ofNat (fromLittleEndian bytes)

theorem toNat_word {bytes : Bytes} (room : bytes.length ≤ 8) :
    (word bytes).toNat = fromLittleEndian bytes := by
  have bound : 256 ^ bytes.length ≤ 256 ^ 8 := Nat.pow_le_pow_right (by decide) room
  rw [word, UInt64.toNat_ofNat']
  exact Nat.mod_eq_of_lt (Nat.lt_of_lt_of_le (fromLittleEndian_lt bytes) bound)

theorem word_append {low high : Bytes} (short : low.length < 8) (room : low.length + high.length ≤ 8) :
    word low ||| (word high <<< UInt64.ofNat (8 * low.length)) = word (low ++ high) := by
  have joined := fromLittleEndian_or low high
  have bound := fromLittleEndian_lt (low ++ high)
  have limit : 256 ^ (low ++ high).length ≤ 2 ^ 64 := by
    rw [List.length_append]
    exact Nat.pow_le_pow_right (by decide : 0 < 256) room
  have shifted : fromLittleEndian high <<< (8 * low.length) < 2 ^ 64 := by
    have part : fromLittleEndian high <<< (8 * low.length) ≤ fromLittleEndian (low ++ high) := by
      rw [← joined]
      exact Nat.right_le_or
    omega
  apply UInt64.toNat_inj.mp
  rw [UInt64.toNat_or, UInt64.toNat_shiftLeft, toNat_word (by omega), toNat_word (by omega),
    toNat_word (by rw [List.length_append]; exact room), UInt64.toNat_ofNat',
    Nat.mod_eq_of_lt (by omega : 8 * low.length < 2 ^ 64),
    Nat.mod_eq_of_lt (by omega : 8 * low.length < 64),
    Nat.mod_eq_of_lt shifted, joined]

/-- `load_int_le!`, for a type of some bytes. -/
def loadIntLe (buf : Bytes) (i size : Nat) : Option UInt64 :=
  if i + size ≤ buf.length then some (word ((buf.drop i).take size)) else none

/-- One of the loads of `u8to64_le`, when there are that many bytes to read. The first one is
assigned to `out`, which is zero then. -/
def loadMore (buf : Bytes) (start len size : Nat) : Nat × UInt64 → Option (Nat × UInt64)
  | (i, out) =>
    if i + (size - 1) < len then
      (loadIntLe buf (start + i) size).map fun next =>
        (i + size, out ||| (next <<< UInt64.ofNat (i * 8)))
    else some (i, out)

/-- `u8to64_le`, with its assertions. -/
def u8to64Le (buf : Bytes) (start len : Nat) : Option UInt64 :=
  if len < 8 then do
    let (i, out) ← loadMore buf start len 4 (0, 0)
    let (i, out) ← loadMore buf start len 2 (i, out)
    let (i, out) ← loadMore buf start len 1 (i, out)
    if i = len then some out else none
  else none

theorem loadIntLe_eq {buf : Bytes} {i size : Nat} (inside : i + size ≤ buf.length) :
    loadIntLe buf i size = some (word ((buf.drop i).take size)) := if_pos inside

/-- A load goes on behind the bytes that are there already. -/
theorem word_load {buf : Bytes} {start i size : Nat} (short : i < 8) (room : i + size ≤ 8)
    (inside : start + i + size ≤ buf.length) :
    word ((buf.drop start).take i) |||
        (word ((buf.drop (start + i)).take size) <<< UInt64.ofNat (i * 8)) =
      word ((buf.drop start).take (i + size)) := by
  have front : ((buf.drop start).take i).length = i := by
    rw [List.length_take, List.length_drop]
    omega
  have back : ((buf.drop (start + i)).take size).length = size := by
    rw [List.length_take, List.length_drop]
    omega
  have whole := @word_append ((buf.drop start).take i) ((buf.drop (start + i)).take size)
    (by omega) (by omega)
  rw [front, Nat.mul_comm] at whole
  rw [whole, List.take_add, List.drop_drop]

theorem loadMore_eq {buf : Bytes} {start len size i : Nat} (positive : 0 < size) (short : len < 8)
    (inside : start + len ≤ buf.length) :
    ∃ j, loadMore buf start len size (i, word ((buf.drop start).take i)) =
        some (j, word ((buf.drop start).take j)) ∧
      j = if i + size ≤ len then i + size else i := by
  rw [loadMore]
  by_cases enough : i + size ≤ len
  · refine ⟨i + size, ?_, (if_pos enough).symm⟩
    rw [if_pos (by omega), loadIntLe_eq (by omega), Option.map_some,
      word_load (by omega) (by omega) (by omega)]
  · exact ⟨i, if_neg (by omega), (if_neg enough).symm⟩

/-- All of the bytes are read, whatever loads they are read by. -/
theorem u8to64Le_eq {buf : Bytes} {start len : Nat} (short : len < 8)
    (inside : start + len ≤ buf.length) :
    u8to64Le buf start len = some (word ((buf.drop start).take len)) := by
  obtain ⟨i, first, afterFour⟩ := @loadMore_eq buf start len 4 0 (by decide) short inside
  obtain ⟨j, second, afterTwo⟩ := @loadMore_eq buf start len 2 i (by decide) short inside
  obtain ⟨k, third, afterOne⟩ := @loadMore_eq buf start len 1 j (by decide) short inside
  have all : k = len := by
    split_ifs at afterFour afterTwo afterOne <;> omega
  have start' : (word ((buf.drop start).take 0)) = 0 := rfl
  rw [start'] at first
  rw [u8to64Le, if_pos short, first]
  simp only [Option.bind_eq_bind, Option.bind_some, second, third]
  rw [if_pos all, all]

/-- `HashEngine`. -/
structure HashEngine where
  k0 : UInt64
  k1 : UInt64
  length : Nat
  state : State
  tail : UInt64
  ntail : Nat

namespace HashEngine

def withKeys (k0 k1 : UInt64) : HashEngine :=
  { k0, k1, length := 0, state := .withKeys k0 k1, tail := 0, ntail := 0 }

/-- The loop over full words, and where it stops. -/
def words (msg : Bytes) (bound i : Nat) (state : State) : Option (State × Nat) :=
  if i < bound then (loadIntLe msg i 8).bind fun mi => words msg bound (i + 8) (state.absorb mi)
  else some (state, i)
termination_by bound - i

/-- What `input` does behind the bytes that complete the tail. -/
def process (self : HashEngine) (msg : Bytes) (needed : Nat) : Option HashEngine := do
  let len := msg.length - needed
  let left := len &&& 0x7
  let (state, i) ← words msg (len - left) needed self.state
  let tail ← u8to64Le msg i left
  some { self with state, tail, ntail := left }

/-- `input`. The length is a `usize`, whose addition wraps around without overflow checks. -/
def input (overflowChecks : Bool) (self : HashEngine) (msg : Bytes) : Option HashEngine :=
  let length := msg.length
  if overflowChecks ∧ 2 ^ 64 ≤ self.length + length then none else
  let self := { self with length := (self.length + length) % 2 ^ 64 }
  if self.ntail = 0 then self.process msg 0
  else if 8 ≤ self.ntail then none
  else do
    let needed := 8 - self.ntail
    let more ← u8to64Le msg 0 (min length needed)
    let tail := self.tail ||| (more <<< UInt64.ofNat (8 * self.ntail))
    if length < needed then some { self with tail, ntail := self.ntail + length }
    else process { self with tail, state := self.state.absorb tail, ntail := 0 } msg needed

def inputs (overflowChecks : Bool) (self : HashEngine) (pieces : List Bytes) : Option HashEngine :=
  pieces.foldlM (input overflowChecks) self

end HashEngine

/-- What `from_engine_to_u64` does behind the last word. -/
def State.finish (state : State) : UInt64 :=
  let state := State.dRounds { state with v2 := state.v2 ^^^ 0xff }
  state.v0 ^^^ state.v1 ^^^ state.v2 ^^^ state.v3

def fromEngineToU64 (e : HashEngine) : UInt64 :=
  let b := (UInt64.ofNat e.length &&& 0xff) <<< 56 ||| e.tail
  (e.state.absorb b).finish

/-- The words of whole blocks, absorbed one after another. -/
def absorbAll (state : State) (front : Bytes) : State :=
  (blocks 8 front).foldl (fun state block => state.absorb (word block.val)) state

/-- The state of the engine as the words of the definition. -/
def State.words (state : State) : Words :=
  ⟨state.v0.toBitVec, state.v1.toBitVec, state.v2.toBitVec, state.v3.toBitVec⟩

theorem toBitVec_rotateLeft (x : UInt64) {count : UInt64} (positive : 0 < count.toNat)
    (below : count.toNat < 64) :
    (rotateLeft x count).toBitVec = x.toBitVec.rotateLeft count.toNat := by
  have difference : (64 - count).toNat = 64 - count.toNat :=
    UInt64.toNat_sub_of_le _ _ (UInt64.le_iff_toNat_le.mpr below.le)
  have left : (count.toBitVec % 64).toNat = count.toNat := Nat.mod_eq_of_lt below
  have right : ((64 - count).toBitVec % 64).toNat = 64 - count.toNat :=
    (Nat.mod_eq_of_lt (difference.trans_lt (Nat.sub_lt (by decide) positive))).trans difference
  rw [rotateLeft, UInt64.toBitVec_or, UInt64.toBitVec_shiftLeft, UInt64.toBitVec_shiftRight,
    BitVec.shiftLeft_eq', BitVec.ushiftRight_eq', left, right, BitVec.rotateLeft_def,
    Nat.mod_eq_of_lt below]

/-- A round of the code is one of the definition, whose steps it takes in another order. -/
theorem words_compress (state : State) : state.compress.words = state.words.sipRound := by
  have by13 (x : UInt64) := @toBitVec_rotateLeft x 13 (by decide) (by decide)
  have by16 (x : UInt64) := @toBitVec_rotateLeft x 16 (by decide) (by decide)
  have by17 (x : UInt64) := @toBitVec_rotateLeft x 17 (by decide) (by decide)
  have by21 (x : UInt64) := @toBitVec_rotateLeft x 21 (by decide) (by decide)
  have by32 (x : UInt64) := @toBitVec_rotateLeft x 32 (by decide) (by decide)
  simp only [State.words, State.compress, Words.sipRound, Words.halfRound, Words.swap,
    UInt64.toBitVec_xor, UInt64.toBitVec_add, by13, by16, by17, by21, by32]
  rfl

theorem words_cRounds (state : State) : state.cRounds.words = Words.sipRound^[2] state.words := by
  rw [State.cRounds, words_compress, words_compress]
  rfl

theorem words_dRounds (state : State) : state.dRounds.words = Words.sipRound^[4] state.words := by
  rw [State.dRounds, words_compress, words_compress, words_compress, words_compress]
  rfl

theorem words_absorb (state : State) (m : UInt64) :
    (state.absorb m).words = state.words.compression m.toBitVec := by
  have rounds : State.words (.cRounds { state with v3 := state.v3 ^^^ m }) =
      Words.sipRound^[2] { state.words with v3 := state.words.v3 ^^^ m.toBitVec } := words_cRounds _
  rw [Words.compression, ← rounds]
  rfl

theorem words_absorbAll (state : State) (front : Bytes) :
    (absorbAll state front).words = (messageWords front).foldl Words.compression state.words := by
  rw [absorbAll, messageWords, List.foldl_map]
  exact (List.foldl_hom State.words fun state block => (words_absorb state (word block.val)).symm).symm

theorem words_withKeys (k0 k1 : UInt64) :
    (State.withKeys k0 k1).words = .initial k0.toBitVec k1.toBitVec := by
  have texts : Words.initial.text "somepseu" = 0x736f6d6570736575 ∧
      Words.initial.text "dorandom" = 0x646f72616e646f6d ∧
      Words.initial.text "lygenera" = 0x6c7967656e657261 ∧
      Words.initial.text "tedbytes" = 0x7465646279746573 := by
    decide +kernel
  obtain ⟨first, second, third, fourth⟩ := texts
  rw [Words.initial, first, second, third, fourth]
  rfl

theorem toBitVec_finish (state : State) : state.finish.toBitVec = state.words.finalization := by
  have rounds : State.words (.dRounds { state with v2 := state.v2 ^^^ 0xff }) =
      Words.sipRound^[4] { state.words with v2 := state.words.v2 ^^^ 0xff } := words_dRounds _
  rw [Words.finalization, ← rounds]
  rfl

/-- The hash of a message, by the rounds of the code. -/
theorem sipHash24_eq_finish (k0 k1 : UInt64) (message : Bytes) :
    sipHash24 k0 k1 message = (absorbAll (.withKeys k0 k1) (padded message)).finish := by
  apply UInt64.toBitVec_inj.mp
  rw [toBitVec_finish, words_absorbAll, words_withKeys, sipHash24]

theorem absorbAll_append {front : Bytes} (whole : 8 ∣ front.length) (state : State) (back : Bytes) :
    absorbAll state (front ++ back) = absorbAll (absorbAll state front) back := by
  rw [absorbAll, blocks_append (by decide) whole, List.foldl_append]
  rfl

theorem absorbAll_word {block : Bytes} (size : block.length = 8) (state : State) :
    absorbAll state block = state.absorb (word block) := by
  rw [absorbAll, blocks_self (by decide) ⟨block, size⟩]
  rfl

theorem absorbAll_nil (state : State) : absorbAll state [] = state := rfl

namespace HashEngine

/-- The loop takes `count` words, as its bound lies behind the start of the last one and not
behind its end. -/
theorem words_eq {msg : Bytes} {bound i count : Nat} (inside : i + 8 * count ≤ msg.length)
    (stops : bound ≤ i + 8 * count) (goes : i + 8 * count < bound + 8) (state : State) :
    words msg bound i state =
      some (absorbAll state ((msg.drop i).take (8 * count)), i + 8 * count) := by
  induction count generalizing i state with
  | zero =>
    rw [words, if_neg (by omega), Nat.mul_zero, List.take_zero, absorbAll_nil, Nat.add_zero]
  | succ count ih =>
    have first : ((msg.drop i).take 8).length = 8 := by
      rw [List.length_take, List.length_drop]
      omega
    have split : (msg.drop i).take (8 * (count + 1)) =
        (msg.drop i).take 8 ++ (msg.drop (i + 8)).take (8 * count) := by
      rw [Nat.mul_succ, Nat.add_comm, List.take_add, List.drop_drop]
    rw [words, if_pos (by omega), loadIntLe_eq (by omega), Option.bind_some,
      ih (by omega) (by omega) (by omega), split, absorbAll_append (by omega), absorbAll_word first]
    congr 2
    omega

/-- Whole words go into the state, and what is left of the message into the tail. -/
theorem process_spec (self : HashEngine) {msg : Bytes} {needed : Nat} (short : needed < 8)
    (enough : needed ≤ msg.length) :
    ∃ full rest, msg.drop needed = full ++ rest ∧ 8 ∣ full.length ∧ rest.length < 8 ∧
      self.process msg needed = some { self with
        state := absorbAll self.state full, tail := word rest, ntail := rest.length } := by
  obtain ⟨len, size⟩ := Nat.exists_eq_add_of_le enough
  have left : len &&& 0x7 = len % 8 := Nat.and_two_pow_sub_one_eq_mod len 3
  have division := Nat.div_add_mod len 8
  have loop := @words_eq msg (len - len % 8) needed (len / 8)
    (by omega) (by omega) (by omega) self.state
  have tail := @u8to64Le_eq msg (needed + 8 * (len / 8)) (len % 8)
    (Nat.mod_lt _ (by decide)) (by omega)
  have all : (msg.drop (needed + 8 * (len / 8))).length = len % 8 := by
    rw [List.length_drop]
    omega
  rw [List.take_of_length_le all.le] at tail
  refine ⟨(msg.drop needed).take (8 * (len / 8)), msg.drop (needed + 8 * (len / 8)), ?_, ?_, ?_, ?_⟩
  · rw [← List.drop_drop, List.take_append_drop]
  · rw [List.length_take, List.length_drop, Nat.min_eq_left (by omega)]
    exact Nat.dvd_mul_right 8 _
  · rw [all]
    exact Nat.mod_lt _ (by decide)
  · rw [process, size, Nat.add_sub_cancel_left]
    simp only [left, loop, tail, Option.bind_eq_bind, Option.bind_some, all]

/-- An engine that was given the message: the full words are in the state, the rest is in the
tail. -/
structure Holds (e : HashEngine) (k0 k1 : UInt64) (message : Bytes) : Prop where
  keys : e.k0 = k0 ∧ e.k1 = k1
  length : e.length = message.length % 2 ^ 64
  pending : e.ntail < 8
  split : ∃ front tail, message = front ++ tail ∧ 8 ∣ front.length ∧ tail.length = e.ntail ∧
    e.state = absorbAll (.withKeys k0 k1) front ∧ e.tail = word tail

theorem holds_withKeys (k0 k1 : UInt64) : (withKeys k0 k1).Holds k0 k1 [] where
  keys := ⟨rfl, rfl⟩
  length := rfl
  pending := Nat.zero_lt_succ 7
  split := ⟨[], [], rfl, Nat.dvd_zero 8, rfl, rfl, rfl⟩

/-- The words in the state are joined by those of the message behind the first bytes. -/
theorem process_holds {self : HashEngine} {k0 k1 : UInt64} {front msg : Bytes} {needed : Nat}
    (keys : self.k0 = k0 ∧ self.k1 = k1)
    (length : self.length = (front ++ msg.drop needed).length % 2 ^ 64) (whole : 8 ∣ front.length)
    (state : self.state = absorbAll (.withKeys k0 k1) front) (short : needed < 8)
    (enough : needed ≤ msg.length) :
    ∃ next, self.process msg needed = some next ∧ next.Holds k0 k1 (front ++ msg.drop needed) := by
  obtain ⟨full, rest, cut, fullWhole, left, run⟩ := self.process_spec short enough
  refine ⟨_, run, keys, length, left, front ++ full, rest, ?_, ?_, rfl, ?_, rfl⟩
  · rw [cut, List.append_assoc]
  · rw [List.length_append]
    exact Nat.dvd_add whole fullWhole
  · rw [absorbAll_append whole, ← state]

/-- The length is counted, as long as it does not overflow where that is checked. -/
theorem Holds.input {e : HashEngine} {k0 k1 : UInt64} {message : Bytes} (holds : e.Holds k0 k1 message)
    {overflowChecks : Bool} (msg : Bytes)
    (fits : overflowChecks = true → (message ++ msg).length < 2 ^ 64) :
    ∃ next, e.input overflowChecks msg = some next ∧ next.Holds k0 k1 (message ++ msg) := by
  have counted : ¬ (overflowChecks = true ∧ 2 ^ 64 ≤ e.length + msg.length) := by
    rintro ⟨checks, beyond⟩
    have total := fits checks
    have bound := holds.length.trans_le (Nat.mod_le _ _)
    rw [List.length_append] at total
    omega
  obtain ⟨keys, length, pending, front, tail, rfl, whole, ntail, state, word'⟩ := holds
  have total : (e.length + msg.length) % 2 ^ 64 = (front ++ tail ++ msg).length % 2 ^ 64 := by
    rw [length, Nat.mod_add_mod, ← List.length_append]
  rw [HashEngine.input, if_neg counted, word', ← ntail]
  rw [← ntail] at pending
  by_cases none' : tail.length = 0
  · obtain rfl := List.length_eq_zero_iff.mp none'
    rw [List.append_nil] at total ⊢
    simp only [List.length_nil, if_true]
    exact @process_holds _ k0 k1 front msg 0 keys total whole state (by decide) (Nat.zero_le _)
  · have more := @u8to64Le_eq msg 0 (min msg.length (8 - tail.length))
      (by omega) (by omega)
    rw [List.drop_zero] at more
    simp only [none', if_false, if_neg (Nat.not_le.mpr pending), more, Option.bind_eq_bind,
      Option.bind_some]
    by_cases some' : msg.length < 8 - tail.length
    · rw [if_pos some', List.take_of_length_le (by omega), word_append pending (by omega)]
      refine ⟨_, rfl, keys, total, ?_, front, tail ++ msg, List.append_assoc _ _ _, whole,
        List.length_append, state, rfl⟩
      simp only
      omega
    · have taken : (msg.take (8 - tail.length)).length = 8 - tail.length := by
        rw [List.length_take]
        omega
      have block : (tail ++ msg.take (8 - tail.length)).length = 8 := by
        rw [List.length_append, taken]
        omega
      have cut : front ++ tail ++ msg =
          front ++ (tail ++ msg.take (8 - tail.length)) ++ msg.drop (8 - tail.length) := by
        simp only [List.append_assoc, List.take_append_drop]
      rw [cut] at total ⊢
      rw [if_neg some', Nat.min_eq_right (by omega), word_append pending (by omega)]
      refine process_holds keys total ?_ ?_ (by omega) (by omega)
      · rw [List.length_append, block]
        exact Nat.dvd_add whole (Nat.dvd_refl 8)
      · rw [absorbAll_append whole, absorbAll_word block, state]

theorem Holds.inputs {e : HashEngine} {k0 k1 : UInt64} {message : Bytes}
    (holds : e.Holds k0 k1 message) {overflowChecks : Bool} (pieces : List Bytes)
    (fits : overflowChecks = true → (message ++ pieces.flatten).length < 2 ^ 64) :
    ∃ next, e.inputs overflowChecks pieces = some next ∧ next.Holds k0 k1 (message ++ pieces.flatten) := by
  induction pieces generalizing e message with
  | nil => exact ⟨e, rfl, by rwa [List.flatten_nil, List.append_nil]⟩
  | cons piece rest ih =>
    rw [List.flatten_cons, ← List.append_assoc] at fits ⊢
    obtain ⟨next, step, held⟩ := holds.input piece fun checks =>
      (List.sublist_append_left _ rest.flatten).length_le.trans_lt (fits checks)
    obtain ⟨last, steps, all⟩ := ih held fits
    exact ⟨last, by rw [HashEngine.inputs, List.foldlM_cons, step]; exact steps, all⟩

/-- Where it is checked, the length overflows in one of the pieces. -/
theorem Holds.inputs_overflow {e : HashEngine} {k0 k1 : UInt64} {message : Bytes}
    (holds : e.Holds k0 k1 message) (below : message.length < 2 ^ 64) {pieces : List Bytes}
    (beyond : 2 ^ 64 ≤ (message ++ pieces.flatten).length) : e.inputs true pieces = none := by
  induction pieces generalizing e message with
  | nil =>
    rw [List.flatten_nil, List.append_nil] at beyond
    omega
  | cons piece rest ih =>
    rw [HashEngine.inputs, List.foldlM_cons]
    by_cases here : 2 ^ 64 ≤ (message ++ piece).length
    · have length := holds.length
      rw [Nat.mod_eq_of_lt below] at length
      rw [List.length_append, ← length] at here
      rw [HashEngine.input, if_pos ⟨rfl, here⟩]
      rfl
    · obtain ⟨next, step, held⟩ := holds.input piece fun _ => Nat.lt_of_not_le here
      rw [List.flatten_cons, ← List.append_assoc] at beyond
      rw [step]
      exact ih held (Nat.lt_of_not_le here) beyond

/-- The tail with zeros behind it and the length at its end is the last word. -/
theorem lastWord_eq {tail : Bytes} (short : tail.length < 8) (length : Nat) :
    (UInt64.ofNat (length % 2 ^ 64) &&& 0xff) <<< 56 ||| word tail =
      word (tail ++ List.replicate (7 - tail.length) 0 ++ [UInt8.ofNat length]) := by
  have filled : (tail ++ List.replicate (7 - tail.length) 0).length = 7 := by
    rw [List.length_append, List.length_replicate]
    omega
  have zeros : word (tail ++ List.replicate (7 - tail.length) 0) = word tail := by
    rw [word, fromLittleEndian_append, fromLittleEndian_replicate, Nat.mul_zero, Nat.add_zero, word]
  have byte : UInt64.ofNat (length % 2 ^ 64) &&& 0xff = word [UInt8.ofNat length] := by
    apply UInt64.toNat_inj.mp
    have low : length % 2 ^ 64 &&& 255 = length % 2 ^ 64 % 256 := Nat.and_two_pow_sub_one_eq_mod _ 8
    rw [toNat_word (by simp), UInt64.toNat_and, UInt64.toNat_ofNat', Nat.mod_mod]
    simp only [fromLittleEndian, UInt8.toNat_ofNat']
    exact low.trans (by omega)
  have whole := @word_append (tail ++ List.replicate (7 - tail.length) 0) [UInt8.ofNat length]
    (by omega) (by rw [filled, List.length_singleton])
  rw [filled, zeros] at whole
  rw [byte, UInt64.or_comm, ← whole]
  rfl

/-- A message is hashed by the words in the state and the last one. -/
theorem sipHash24_eq {k0 k1 : UInt64} {front tail : Bytes} (whole : 8 ∣ front.length)
    (short : tail.length < 8) :
    sipHash24 k0 k1 (front ++ tail) =
      ((absorbAll (.withKeys k0 k1) front).absorb
        ((UInt64.ofNat ((front ++ tail).length % 2 ^ 64) &&& 0xff) <<< 56 ||| word tail)).finish := by
  have zeros : fill 8 ((front ++ tail).length + 1) = 7 - tail.length := by
    rw [List.length_append]
    exact fill_eq (by omega) (by omega)
  have last :
      (tail ++ List.replicate (7 - tail.length) 0 ++ [UInt8.ofNat (front ++ tail).length]).length =
      8 := by
    rw [List.length_append, List.length_append, List.length_replicate, List.length_singleton]
    omega
  rw [lastWord_eq short, ← absorbAll_word last, ← absorbAll_append whole, sipHash24_eq_finish, padded,
    zeros]
  simp only [List.append_assoc]

theorem Holds.fromEngineToU64 {e : HashEngine} {k0 k1 : UInt64} {message : Bytes}
    (holds : e.Holds k0 k1 message) : fromEngineToU64 e = sipHash24 k0 k1 message := by
  obtain ⟨-, length, pending, front, tail, rfl, whole, ntail, state, word'⟩ := holds
  rw [SipHash.fromEngineToU64, length, word', state, sipHash24_eq whole (by omega)]

end HashEngine

/-- Words that are read off the front, as `State.input` reads them. -/
theorem State.input_eq (state : State) {front tail : Bytes} (whole : 8 ∣ front.length)
    (short : tail.length < 8) : state.input (front ++ tail) = (absorbAll state front, word tail) := by
  obtain ⟨count, size⟩ := whole
  induction count generalizing state front with
  | zero =>
    obtain rfl := List.length_eq_zero_iff.mp size
    rw [List.nil_append, absorbAll_nil]
    unfold State.input
    split
    · simp only [List.length_cons] at short
      omega
    · rfl
  | succ count ih =>
    obtain ⟨a, b, c, d, e, f, g, h, rest, rfl⟩ : ∃ a b c d e f g h rest,
        front = a :: b :: c :: d :: e :: f :: g :: h :: rest := by
      rcases front with _ | ⟨a, _ | ⟨b, _ | ⟨c, _ | ⟨d, _ | ⟨e, _ | ⟨f, _ | ⟨g, _ | ⟨h, rest⟩⟩⟩⟩⟩⟩⟩⟩
      all_goals simp only [List.length_cons, List.length_nil] at size
      all_goals first | omega | exact ⟨a, b, c, d, e, f, g, h, rest, rfl⟩
    have length : rest.length = 8 * count := by
      simp only [List.length_cons] at size
      omega
    have cut := @absorbAll_append [a, b, c, d, e, f, g, h] (Nat.dvd_refl 8) state rest
    rw [@absorbAll_word [a, b, c, d, e, f, g, h] rfl] at cut
    rw [show a :: b :: c :: d :: e :: f :: g :: h :: rest = [a, b, c, d, e, f, g, h] ++ rest from rfl, cut]
    exact ih _ length

theorem hashToU64WithKeys_eq (k0 k1 : UInt64) (data : Bytes) :
    hashToU64WithKeys k0 k1 data = sipHash24 k0 k1 data := by
  have cut := List.take_append_drop (8 * (data.length / 8)) data
  have whole : 8 ∣ (data.take (8 * (data.length / 8))).length := by
    rw [List.length_take, Nat.min_eq_left (Nat.mul_div_le _ _)]
    exact Nat.dvd_mul_right 8 _
  have short : (data.drop (8 * (data.length / 8))).length < 8 := by
    rw [List.length_drop]
    omega
  have wrap : UInt64.ofNat (data.length % 2 ^ 64) = UInt64.ofNat data.length := by
    apply UInt64.toNat_inj.mp
    rw [UInt64.toNat_ofNat', UInt64.toNat_ofNat', Nat.mod_mod]
  have hashed := @HashEngine.sipHash24_eq k0 k1 _ _ whole short
  have read := State.input_eq (.withKeys k0 k1) whole short
  rw [cut] at hashed read
  rw [hashed, wrap, hashToU64WithKeys, read]
  rfl

/-- However a message is cut up, the engine reads inside of the pieces, keeps fewer than eight
bytes pending and comes to the SipHash-2-4 of the message. Where overflow is checked, it stops at
a message whose length is no `usize`. -/
theorem siphash_streams (overflowChecks : Bool) (k0 k1 : UInt64) (pieces : List Bytes) :
    if overflowChecks = true ∧ 2 ^ 64 ≤ pieces.flatten.length then
      (HashEngine.withKeys k0 k1).inputs overflowChecks pieces = none
    else
      ∃ e, (HashEngine.withKeys k0 k1).inputs overflowChecks pieces = some e ∧ e.ntail < 8 ∧
        fromEngineToU64 e = sipHash24 k0 k1 pieces.flatten ∧
        sipHash24 k0 k1 pieces.flatten = hashToU64WithKeys k0 k1 pieces.flatten := by
  have start := HashEngine.holds_withKeys k0 k1
  split_ifs with beyond
  · obtain ⟨rfl, beyond⟩ := beyond
    exact start.inputs_overflow (by decide) beyond
  · obtain ⟨e, run, holds⟩ := start.inputs pieces fun checks =>
      Nat.lt_of_not_le fun long => beyond ⟨checks, long⟩
    exact ⟨e, run, holds.pending, holds.fromEngineToU64, (hashToU64WithKeys_eq k0 k1 _).symm⟩

/-- One byte at a time, and one more than a `usize` counts. -/
theorem endless_stream_stops :
    (HashEngine.withKeys 0 0).inputs true (List.replicate (2 ^ 64) [0]) = none := by
  refine (HashEngine.holds_withKeys 0 0).inputs_overflow (by decide) ?_
  rw [List.nil_append, List.length_flatten, List.map_replicate, List.sum_replicate_nat]
  decide

end Litecoin.SipHash
