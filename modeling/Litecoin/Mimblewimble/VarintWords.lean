import Litecoin.Mimblewimble.Varint
import Litecoin.Wire.SignMagnitude

/-! The MWEB varints on machine words and with the writers' buffer of ten bytes
(`blockdata/mimblewimble.rs`), against the same loops on numbers. -/
namespace Litecoin.Mimblewimble.Words
open Wire Consensus

/-- The types of the numbers that the loops below run on. -/
inductive IntType where
  | i64
  | u64

namespace IntType

def max : IntType → BitVec 64
  | i64 => BitVec.intMax 64
  | u64 => BitVec.allOnes 64

def le : IntType → BitVec 64 → BitVec 64 → Bool
  | i64 => BitVec.sle
  | u64 => BitVec.ule

/-- `>>`, which copies the sign of an `i64`. -/
def shiftRight : IntType → BitVec 64 → Nat → BitVec 64
  | i64 => BitVec.sshiftRight
  | u64 => BitVec.ushiftRight

def addOverflows : IntType → BitVec 64 → BitVec 64 → Bool
  | i64 => BitVec.saddOverflow
  | u64 => BitVec.uaddOverflow

def subOverflows : IntType → BitVec 64 → BitVec 64 → Bool
  | i64 => BitVec.ssubOverflow
  | u64 => BitVec.usubOverflow

def checkedAdd (type : IntType) (a b : BitVec 64) : Option (BitVec 64) :=
  if type.addOverflows a b then none else some (a + b)

/-- The operator `-`: it panics where it overflows in a build with overflow checks, and wraps
there in one without. -/
def sub (type : IntType) (overflowChecks : Bool) (a b : BitVec 64) : Option (BitVec 64) :=
  if overflowChecks && type.subOverflows a b then none else some (a - b)

/-- The number that a word of the type is. -/
def value : IntType → BitVec 64 → Int
  | i64, word => word.toInt
  | u64, word => word.toNat

end IntType

/-- The loop of `read_amount` and `read_compact_varint`. -/
def readLoop (type : IntType) (n : BitVec 64) : Decoder Error (BitVec 64)
  | [] => .error (.io .unexpectedEof)
  | chData :: rest =>
    if !type.le n (type.shiftRight type.max 7) then .error (.parseFailed "MWEB varint overflow")
    else
      let next := n <<< 7 ||| (chData &&& 0x7f).toBitVec.setWidth 64
      if chData &&& 0x80 ≠ 0 then match type.checkedAdd next 1 with
        | none => .error (.parseFailed "MWEB varint overflow")
        | some next => readLoop type next rest
      else .ok (next, rest)

def readAmount : Decoder Error Int64 := Int64.ofBitVec <$> readLoop .i64 0

def readCompactVarint : Decoder Error UInt64 := UInt64.ofBitVec <$> readLoop .u64 0

/-- The loop of `write_amount` and `write_compact_varint`: `tmp` and `len` as it leaves them.
It panics when it stores behind the last place of `tmp`. -/
def fill (type : IntType) (overflowChecks : Bool) (tmp : ByteArr 10) (len : Nat) (n : BitVec 64) :
    Option (ByteArr 10 × Nat) :=
  if len < 10 then
    let a := UInt8.ofBitVec ((n &&& 0x7f).setWidth 8)
    let b : UInt8 := if len ≠ 0 then 0x80 else 0x00
    let tmp : ByteArr 10 := ⟨tmp.val.set len (a ||| b), List.length_set.trans tmp.property⟩
    if type.le n 0x7f then some (tmp, len + 1)
    else (type.sub overflowChecks (type.shiftRight n 7) 1).bind (fill type overflowChecks tmp (len + 1))
  else none
termination_by 10 - len

/-- `write_amount` and `write_compact_varint`: what is in `tmp` is written from the last place on. -/
def write (type : IntType) (overflowChecks : Bool) (n : BitVec 64) : Option (Emission IoError) := do
  let filled ← fill type overflowChecks ⟨List.replicate 10 0, List.length_replicate⟩ 0 n
  let bytes ← (List.range filled.2).reverse.mapM fun i => filled.1.val[i]?
  some ((Emission.each encodeU8 bytes).map fun emitted => (filled.2, emitted.2))

def writeAmount (overflowChecks : Bool) (amount : Int64) : Option (Emission IoError) :=
  write .i64 overflowChecks amount.toBitVec

def writeCompactVarint (overflowChecks : Bool) (value : UInt64) : Option (Emission IoError) :=
  write .u64 overflowChecks value.toBitVec

/-- The number that the first digits of `bytes` stand for after digits read as `n`, with no
bound on it, and the bytes behind them. There is none without a last digit. -/
def denoted (n : Nat) : Bytes → Option (Nat × Bytes)
  | [] => none
  | chData :: rest =>
    let next := n * 128 + chData.toNat % 128
    if chData.toNat ≥ 128 then denoted (next + 1) rest else some (next, rest)

namespace IntType
variable {type : IntType} {n : BitVec 64}

/-- The greatest number of the type. -/
def limit (type : IntType) : Nat := type.max.toNat

theorem limit_mod (type : IntType) : type.limit % 128 = 127 := by
  cases type <;> rfl

theorem limit_lt (type : IntType) : type.limit < 2 ^ 64 := type.max.isLt

theorem le_eq (type : IntType) (a b : BitVec 64) :
    type.le a b = decide (type.value a ≤ type.value b) := by
  cases type with
  | i64 => rfl
  | u64 => simp only [le, value, BitVec.ule, Int.ofNat_le]

theorem value_shiftRight (type : IntType) (n : BitVec 64) (count : Nat) :
    type.value (type.shiftRight n count) = type.value n / 2 ^ count := by
  cases type with
  | i64 =>
    change (n.sshiftRight count).toInt = n.toInt / 2 ^ count
    rw [BitVec.toInt_sshiftRight, Int.shiftRight_eq_div_pow, Int.natCast_pow, Nat.cast_ofNat]
  | u64 =>
    change ((n >>> count).toNat : Int) = n.toNat / 2 ^ count
    rw [BitVec.toNat_ushiftRight, Nat.shiftRight_eq_div_pow, Int.natCast_ediv, Int.natCast_pow,
      Nat.cast_ofNat]

/-- Words up to the greatest number of the type are numbers from zero on. -/
theorem value_eq_toNat (small : n.toNat ≤ type.limit) : type.value n = n.toNat := by
  cases type with
  | i64 =>
    have half : n.toNat ≤ 2 ^ 63 - 1 := small
    exact BitVec.toInt_eq_toNat_of_lt (by omega)
  | u64 => rfl

theorem value_mod (type : IntType) (n : BitVec 64) : type.value n % 128 = (n.toNat % 128 : Nat) := by
  cases type with
  | i64 =>
    change n.toInt % 128 = _
    rw [BitVec.toInt]
    split <;> omega
  | u64 => rfl

theorem value_le (type : IntType) (n : BitVec 64) : type.value n ≤ type.limit := by
  cases type with
  | i64 =>
    have bound := BitVec.two_mul_toInt_lt (x := n)
    change n.toInt ≤ (2 ^ 63 - 1 : Nat)
    omega
  | u64 =>
    have bound := n.isLt
    change (n.toNat : Int) ≤ (2 ^ 64 - 1 : Nat)
    omega

theorem addOverflows_one (small : n.toNat ≤ type.limit) :
    type.addOverflows n 1 = decide (n.toNat + 1 > type.limit) := by
  cases type with
  | i64 =>
    have same : n.toInt = n.toNat := value_eq_toNat small
    have half : n.toNat ≤ 2 ^ 63 - 1 := small
    change n.saddOverflow 1 = decide (n.toNat + 1 > 2 ^ 63 - 1)
    rw [BitVec.saddOverflow, same, show (1 : BitVec 64).toInt = 1 from rfl, Bool.eq_iff_iff]
    simp only [Bool.or_eq_true, decide_eq_true_eq]
    omega
  | u64 =>
    change n.uaddOverflow 1 = decide (n.toNat + 1 > 2 ^ 64 - 1)
    rw [BitVec.uaddOverflow, show (1 : BitVec 64).toNat = 1 from rfl, Bool.eq_iff_iff]
    simp only [decide_eq_true_eq]
    omega

theorem checkedAdd_one (small : n.toNat ≤ type.limit) :
    type.checkedAdd n 1 = if n.toNat + 1 > type.limit then none else some (n + 1) := by
  simp only [checkedAdd, addOverflows_one small, decide_eq_true_eq]

/-- What is left of a positive number is not below zero, so the operator neither panics nor wraps. -/
theorem sub_one (overflowChecks : Bool) (positive : 1 ≤ type.value n) :
    type.sub overflowChecks n 1 = some (n - 1) ∧ type.value (n - 1) = type.value n - 1 := by
  have one : (1 : BitVec 64).toInt = 1 := rfl
  cases type with
  | i64 =>
    change 1 ≤ n.toInt at positive
    have bound := BitVec.two_mul_toInt_lt (x := n)
    have exact : n.ssubOverflow 1 = false := by
      rw [BitVec.ssubOverflow, one, Bool.eq_false_iff]
      simp only [ne_eq, Bool.or_eq_true, decide_eq_true_eq]
      omega
    refine ⟨by simp only [sub, subOverflows, exact, Bool.and_false, Bool.false_eq_true, if_false], ?_⟩
    change (n - 1).toInt = n.toInt - 1
    rw [BitVec.toInt_sub_of_not_ssubOverflow (by rw [exact]; exact Bool.false_ne_true), one]
  | u64 =>
    have positive : 1 ≤ n.toNat := Int.ofNat_le.mp positive
    have exact : n.usubOverflow 1 = false := by
      rw [BitVec.usubOverflow, decide_eq_false_iff_not]
      exact Nat.not_lt.mpr positive
    refine ⟨by simp only [sub, subOverflows, exact, Bool.and_false, Bool.false_eq_true, if_false], ?_⟩
    change ((n - 1).toNat : Int) = n.toNat - 1
    rw [BitVec.toNat_sub_of_le positive]
    exact Int.ofNat_sub positive

theorem le_max_shifted (small : n.toNat ≤ type.limit) :
    type.le n (type.shiftRight type.max 7) = decide (n.toNat ≤ type.limit / 128) := by
  have whole : type.value type.max = type.limit := value_eq_toNat le_rfl
  rw [le_eq, value_shiftRight, whole, value_eq_toNat small, Bool.eq_iff_iff]
  simp only [decide_eq_true_eq]
  omega

end IntType

theorem toNat_and_digit (byte : UInt8) : (byte &&& 0x7f).toNat = byte.toNat % 128 := by
  rw [UInt8.toNat_and]
  exact Nat.and_two_pow_sub_one_eq_mod byte.toNat 7

/-- The shift drops no bit of a word that passed the check, and the digit takes free places. -/
theorem toNat_shift_or {n : BitVec 64} (small : n.toNat < 2 ^ 57) (byte : UInt8) :
    (n <<< 7 ||| (byte &&& 0x7f).toBitVec.setWidth 64).toNat = n.toNat * 128 + byte.toNat % 128 := by
  have digit : byte.toNat % 128 < 2 ^ 7 := Nat.mod_lt _ (by decide)
  have high : (n <<< 7).toNat = n.toNat <<< 7 := by
    rw [BitVec.toNat_shiftLeft, Nat.mod_eq_of_lt]
    rw [Nat.shiftLeft_eq]
    omega
  have low : ((byte &&& 0x7f).toBitVec.setWidth 64).toNat = byte.toNat % 128 := by
    have value : (byte &&& 0x7f).toBitVec.toNat = byte.toNat % 128 := toNat_and_digit byte
    rw [BitVec.toNat_setWidth, value]
    omega
  rw [BitVec.toNat_or, high, low, ← Nat.shiftLeft_add_eq_or_of_lt digit, Nat.shiftLeft_eq]

/-- On numbers that the type can hold, the loop on words is the loop on numbers. -/
theorem readLoop_eq {type : IntType} {n : BitVec 64} (small : n.toNat ≤ type.limit) (bytes : Bytes) :
    readLoop type n bytes =
      (readVarintLoop type.limit n.toNat bytes).map fun read => (BitVec.ofNat 64 read.1, read.2) := by
  induction bytes generalizing n with
  | nil => rfl
  | cons chData rest ih =>
    have limit := type.limit_lt
    have full := type.limit_mod
    rw [readLoop, readVarintLoop, IntType.le_max_shifted small]
    by_cases exceeds : n.toNat > type.limit / 128
    · rw [if_pos exceeds, if_pos (by simpa using exceeds)]
      rfl
    · have next := toNat_shift_or (show n.toNat < 2 ^ 57 by omega) chData
      rw [if_neg exceeds, if_neg (by simpa using exceeds)]
      dsimp only
      by_cases marked : chData.toNat ≥ 128
      · rw [if_pos ((signBit_iff chData).mpr marked), if_pos marked, IntType.checkedAdd_one (by omega),
          next]
        by_cases beyond : n.toNat * 128 + chData.toNat % 128 + 1 > type.limit
        · rw [if_pos beyond, if_pos beyond]
          rfl
        · have grown : (n <<< 7 ||| (chData &&& 0x7f).toBitVec.setWidth 64) + 1 =
              BitVec.ofNat 64 (n.toNat * 128 + chData.toNat % 128 + 1) := by
            rw [← next, BitVec.ofNat_add, BitVec.ofNat_toNat, BitVec.setWidth_eq]
            rfl
          have same : (BitVec.ofNat 64 (n.toNat * 128 + chData.toNat % 128 + 1)).toNat =
              n.toNat * 128 + chData.toNat % 128 + 1 := by
            rw [BitVec.toNat_ofNat, Nat.mod_eq_of_lt (by omega)]
          rw [if_neg beyond, if_neg beyond, grown]
          dsimp only
          rw [ih (by omega), same]
      · rw [if_neg (mt (signBit_iff chData).mp marked), if_neg marked, ← next]
        simp only [Except.map, BitVec.ofNat_toNat, BitVec.setWidth_eq]

theorem map_readLoop (type : IntType) (f : BitVec 64 → α) :
    f <$> readLoop type 0 = (fun n => f (.ofNat 64 n)) <$> readVarintLoop type.limit 0 := by
  funext bytes
  rw [Decoder.map_apply, Decoder.map_apply, readLoop_eq (Nat.zero_le _)]
  change Except.map _ (Except.map _ (readVarintLoop type.limit 0 bytes)) = _
  cases readVarintLoop type.limit 0 bytes with
  | error e => rfl
  | ok read => rfl

theorem readAmount_eq : readAmount = Mimblewimble.readAmount := map_readLoop .i64 Int64.ofBitVec

theorem readCompactVarint_eq : readCompactVarint = Mimblewimble.readCompactVarint :=
  map_readLoop .u64 UInt64.ofBitVec

theorem toUInt8_digit (type : IntType) (n : BitVec 64) :
    UInt8.ofBitVec ((n &&& 0x7f).setWidth 8) = UInt8.ofNat (type.value n % 128).toNat := by
  have digit : (n &&& 0x7f).toNat = n.toNat % 128 := by
    rw [BitVec.toNat_and]
    exact Nat.and_two_pow_sub_one_eq_mod n.toNat 7
  have low : n.toNat % 128 < 128 := Nat.mod_lt _ (by decide)
  rw [IntType.value_mod, Int.toNat_natCast, ← UInt8.toNat_inj,
    UInt8.toNat_ofNat_of_lt' (low.trans (by decide)), UInt8.toNat_ofBitVec, BitVec.toNat_setWidth, digit]
  omega

theorem take_set_succ {values : List α} {len : Nat} (inside : len < values.length) (a : α) :
    (values.set len a).take (len + 1) = values.take len ++ [a] := by
  rw [List.take_add_one, List.take_set_of_le le_rfl, List.getElem?_set_self inside, Option.toList_some]

/-- While there are digits left for the places left, the loop stores them all and does not panic. -/
theorem fill_eq (type : IntType) (overflowChecks : Bool) {slots len : Nat} (places : len + slots = 10)
    {n : BitVec 64} (fits : (type.value n).toNat < varintCapacity slots) (tmp : ByteArr 10) :
    ∃ filled : ByteArr 10,
      let digits := varintDigits slots (if len ≠ 0 then 0x80 else 0x00) (type.value n)
      fill type overflowChecks tmp len n = some (filled, len + digits.length) ∧
        filled.val.take (len + digits.length) = tmp.val.take len ++ digits := by
  induction slots generalizing len n tmp with
  | zero => simp [varintCapacity] at fits
  | succ slots ih =>
    simp only [varintCapacity] at fits
    have inside : len < 10 := by omega
    have seven : type.value 0x7f = 0x7f := by cases type <;> rfl
    rw [fill, if_pos inside]
    simp only [varintDigits, toUInt8_digit type, IntType.le_eq, seven, decide_eq_true_eq]
    have stored : ∀ byte, (tmp.val.set len byte).take (len + 1) = tmp.val.take len ++ [byte] :=
      take_set_succ (by rw [tmp.property]; exact inside)
    by_cases short : type.value n ≤ 0x7f
    · rw [if_pos short, if_pos short]
      exact ⟨_, rfl, stored _⟩
    · have quotient : type.value (type.shiftRight n 7) = type.value n / 128 := type.value_shiftRight n 7
      have positive : 1 ≤ type.value (type.shiftRight n 7) := by omega
      obtain ⟨subtracted, next⟩ := IntType.sub_one overflowChecks positive
      have fewer : (type.value (type.shiftRight n 7 - 1)).toNat < varintCapacity slots := by omega
      rw [if_neg short, if_neg short, subtracted, Option.bind_some]
      have further : len + 1 + slots = 10 := by omega
      obtain ⟨filled, returned, front⟩ := ih further fewer ⟨_, List.length_set.trans tmp.property⟩
      rw [if_pos (Nat.succ_ne_zero len), next, quotient] at returned front
      refine ⟨filled, ?_, ?_⟩
      · rw [returned, List.length_cons, Nat.add_right_comm, Nat.add_assoc]
      · rw [List.length_cons, Nat.add_comm _ 1, ← Nat.add_assoc, front, stored, List.append_assoc]
        rfl

theorem mapM_getElem? {values : List α} {len : Nat} (inside : len ≤ values.length) :
    (List.range len).reverse.mapM (fun i => values[i]?) = some (values.take len).reverse := by
  induction len with
  | zero => rfl
  | succ len ih =>
    have last : values[len]? = some (values.get ⟨len, inside⟩) := List.getElem?_eq_getElem inside
    rw [List.range_succ, List.reverse_append, List.reverse_singleton, List.singleton_append,
      List.mapM_cons, last, ih (Nat.le_of_succ_le inside), List.take_add_one, last, List.reverse_append]
    rfl

/-- The number that the writers take from a word is in the ten places of `tmp`. -/
theorem write_eq (type : IntType) (overflowChecks : Bool) (n : BitVec 64) :
    write type overflowChecks n = some (writeVarint (type.value n)) := by
  have places : 2 ^ 64 ≤ varintCapacity 10 := by decide
  have fits : (type.value n).toNat < varintCapacity 10 := by
    have bound := type.value_le n
    have limit := type.limit_lt
    omega
  obtain ⟨filled, returned, front⟩ :=
    fill_eq type overflowChecks (Nat.zero_add 10) fits ⟨List.replicate 10 0, List.length_replicate⟩
  simp only [ne_eq, not_true_eq_false, if_false, Nat.zero_add, List.take_zero, List.nil_append]
    at returned front
  have stored : (filled.val.take (varintDigits 10 0 (type.value n)).length).reverse =
      (varintDigits 10 0 (type.value n)).reverse := congrArg List.reverse front
  have inside : (varintDigits 10 0 (type.value n)).length ≤ filled.val.length := by
    rw [← front, List.length_take]
    exact Nat.min_le_right _ _
  have emitted : Emission.each encodeU8 (varintDigits 10 0 (type.value n)).reverse =
      .written (varintDigits 10 0 (type.value n)).reverse := by
    have one (byte : UInt8) : encodeU8 byte = .written [byte] :=
      (readU8_codec.emits byte).trans (congrArg _ (littleEndian_one byte))
    rw [Emission.each_written fun byte _ => one byte, List.flatMap_singleton']
  rw [write, returned, Option.bind_eq_bind, Option.bind_some, mapM_getElem? inside, stored,
    Option.bind_eq_bind, Option.bind_some, emitted]
  rfl

theorem denoted_ge (found : denoted n bytes = some (value, rest)) : n * 128 ≤ value := by
  induction bytes generalizing n with
  | nil => contradiction
  | cons chData tail ih =>
    rw [denoted] at found
    split at found
    · have later := ih found
      omega
    · obtain ⟨rfl, -⟩ := Prod.mk.inj (Option.some.inj found)
      omega

/-- The loop on numbers stops at exactly the digits that stand for more than `max`. -/
theorem readVarintLoop_denoted {max : Nat} (full : max % 128 = 127)
    (found : denoted n bytes = some (value, rest)) : readVarintLoop max n bytes =
      if value ≤ max then .ok (value, rest) else .error (.parseFailed "MWEB varint overflow") := by
  induction bytes generalizing n with
  | nil => contradiction
  | cons chData tail ih =>
    have reached := denoted_ge found
    rw [denoted] at found
    rw [readVarintLoop]
    dsimp only at found ⊢
    by_cases exceeds : n > max / 128
    · rw [if_pos exceeds, if_neg (by omega)]
    · rw [if_neg exceeds]
      split at found
      case isTrue marked =>
        have later := denoted_ge found
        rw [if_pos marked]
        by_cases beyond : n * 128 + chData.toNat % 128 + 1 > max
        · rw [if_pos beyond, if_neg (by omega)]
        · rw [if_neg beyond]
          exact ih found
      case isFalse unmarked =>
        obtain ⟨rfl, rfl⟩ := Prod.mk.inj (Option.some.inj found)
        rw [if_neg unmarked, if_pos (by omega)]

theorem readVarintLoop_endless (max : Nat) (endless : denoted n bytes = none) :
    ∃ e, readVarintLoop max n bytes = .error e := by
  induction bytes generalizing n with
  | nil => exact ⟨_, rfl⟩
  | cons chData tail ih =>
    rw [denoted] at endless
    rw [readVarintLoop]
    dsimp only at endless ⊢
    split at endless
    case isTrue marked =>
      rw [if_pos marked]
      split
      · exact ⟨_, rfl⟩
      · split
        · exact ⟨_, rfl⟩
        · exact ih endless
    case isFalse => contradiction

theorem writeAmount_eq (overflowChecks : Bool) (amount : Int64) :
    writeAmount overflowChecks amount = some (Mimblewimble.writeAmount amount) :=
  write_eq .i64 overflowChecks amount.toBitVec

theorem writeCompactVarint_eq (overflowChecks : Bool) (value : UInt64) :
    writeCompactVarint overflowChecks value = some (Mimblewimble.writeCompactVarint value) :=
  write_eq .u64 overflowChecks value.toBitVec

/-- A writer that returns for every value, and a reader that is its inverse on the values with `Valid`:
each has one encoding, and nothing else is accepted. -/
structure Bijective (writes : α → Option (Emission IoError)) (reads : Decoder Error α)
    (Valid : α → Prop) : Prop where
  returns : ∀ a, ∃ image, writes a = some (.written image)
  reads_written : ∀ a, Valid a → ∃ image, writes a = some (.written image) ∧
    ∀ rest, reads (image ++ rest) = .ok (a, rest)
  written_read : ∀ bytes a rest, reads bytes = .ok (a, rest) → Valid a ∧
    ∃ image, bytes = image ++ rest ∧ writes a = some (.written image)

/-- A reader that returns the number that the digits stand for, unless it is above `limit`. -/
structure RejectsOverflow (reads : Decoder Error α) (ofNat : Nat → α) (limit : Nat) : Prop where
  complete : ∀ bytes value rest, denoted 0 bytes = some (value, rest) → reads bytes =
    if value ≤ limit then .ok (ofNat value, rest) else .error (.parseFailed "MWEB varint overflow")
  endless : ∀ bytes, denoted 0 bytes = none → ∃ e, reads bytes = .error e

theorem Bijective.of_reads {writes : α → Option (Emission IoError)} {reads : Decoder Error α}
    {wire : α → Bytes} {Valid : α → Prop} (written : ∀ a, writes a = some (.written (wire a)))
    (exact : Reads reads wire Valid) : Bijective writes reads Valid where
  returns a := ⟨_, written a⟩
  reads_written a valid := ⟨_, written a, exact.read valid⟩
  written_read bytes a rest read := by
    obtain ⟨valid, rfl⟩ := (exact _ _ _).mp read
    exact ⟨valid, _, rfl, written a⟩

theorem RejectsOverflow.map {limit : Nat} (full : limit % 128 = 127) (ofNat : Nat → α) :
    RejectsOverflow (ofNat <$> readVarintLoop limit 0) ofNat limit where
  complete bytes value rest found := by
    rw [Decoder.map_apply, readVarintLoop_denoted full found]
    split <;> rfl
  endless bytes endless := by
    obtain ⟨e, failed⟩ := readVarintLoop_endless limit endless
    exact ⟨e, by rw [Decoder.map_apply, failed]; rfl⟩

/-- The varints are bijective in builds of either kind. -/
theorem varints_bijective (overflowChecks : Bool) :
    Bijective (writeCompactVarint overflowChecks) readCompactVarint (fun _ => True) ∧
      Bijective (writeAmount overflowChecks) readAmount (fun amount => 0 ≤ amount) ∧
      RejectsOverflow readCompactVarint UInt64.ofNat (2 ^ 64 - 1) ∧
      RejectsOverflow readAmount Int64.ofNat (2 ^ 63 - 1) := by
  rw [readAmount_eq, readCompactVarint_eq]
  refine ⟨.of_reads ?_ readCompactVarint_codec.reads, .of_reads ?_ readAmount_reads,
    .map ?_ _, .map ?_ _⟩
  · intro value
    rw [writeCompactVarint_eq, readCompactVarint_codec.emits]
  · intro amount
    rw [writeAmount_eq, Mimblewimble.writeAmount_eq]
  · rfl
  · rfl

example : denoted 0 [0x86, 0x68, 0x03] = some (1000, [0x03]) := by rfl

end Litecoin.Mimblewimble.Words
