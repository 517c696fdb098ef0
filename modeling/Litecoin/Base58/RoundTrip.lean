import Litecoin.Base58
import Litecoin.Wire.Outcome

/-! Base58 text against positional notation: `decode` and `encode` convert between base 58 and
base 256 and keep the number of leading zeros. -/
namespace Litecoin.Base58
open Wire

/-- The alphabet, by its codes. -/
theorem base58Chars_eq : base58Chars = [
    0x31, 0x32, 0x33, 0x34, 0x35, 0x36, 0x37, 0x38, 0x39, 0x41, 0x42, 0x43, 0x44, 0x45, 0x46,
    0x47, 0x48, 0x4a, 0x4b, 0x4c, 0x4d, 0x4e, 0x50, 0x51, 0x52, 0x53, 0x54, 0x55, 0x56, 0x57,
    0x58, 0x59, 0x5a, 0x61, 0x62, 0x63, 0x64, 0x65, 0x66, 0x67, 0x68, 0x69, 0x6a, 0x6b, 0x6d,
    0x6e, 0x6f, 0x70, 0x71, 0x72, 0x73, 0x74, 0x75, 0x76, 0x77, 0x78, 0x79, 0x7a] :=
  ascii_ofList [
    '1', '2', '3', '4', '5', '6', '7', '8', '9', 'A', 'B', 'C', 'D', 'E', 'F', 'G', 'H', 'J', 'K',
    'L', 'M', 'N', 'P', 'Q', 'R', 'S', 'T', 'U', 'V', 'W', 'X', 'Y', 'Z', 'a', 'b', 'c', 'd', 'e',
    'f', 'g', 'h', 'i', 'j', 'k', 'm', 'n', 'o', 'p', 'q', 'r', 's', 't', 'u', 'v', 'w', 'x', 'y',
    'z']

theorem base58Chars_lt {digit : Nat} {c : UInt8} (char : base58Chars[digit]? = some c) : digit < 58 := by
  have size : base58Chars.length = 58 := by
    rw [base58Chars_eq]
    rfl
  rw [← size]
  exact (List.getElem?_eq_some_iff.mp char).1

theorem base58Chars_of_digit : ∀ n < 256, ∀ digit ∈ (base58Digits[n]?).join,
    base58Chars[digit.toNat]? = some (UInt8.ofNat n) := by
  have table : (base58Digits.zipIdx.all fun entry => entry.1.all fun digit =>
      base58Chars[digit.toNat]? == some (UInt8.ofNat entry.2)) = true := by
    rw [base58Chars_eq]
    decide
  intro n _ digit member
  have found : (some digit, n) ∈ base58Digits.zipIdx :=
    List.mem_zipIdx_iff_getElem?.mpr (Option.join_eq_some_iff.mp member)
  exact beq_iff_eq.mp (List.all_eq_true.mp table _ found)

theorem digitOf_base58Chars : ∀ digit < 58, ∃ c, base58Chars[digit]? = some c ∧
    (base58Digits[c.toNat]?).join.map UInt8.toNat = some digit := by
  have table : ∀ digit < 58, (base58Chars[digit]?).any fun c =>
      (base58Digits[c.toNat]?).join.map UInt8.toNat == some digit := by
    rw [base58Chars_eq]
    decide
  intro digit small
  have entry := table digit small
  rw [Option.any_eq_true] at entry
  obtain ⟨c, char, same⟩ := entry
  exact ⟨c, char, beq_iff_eq.mp same⟩

theorem digitOf_eq_ok {c : UInt8} {digit : Nat} :
    digitOf c = .ok digit ↔ (base58Digits[c.toNat]?).join.map UInt8.toNat = some digit := by
  unfold digitOf
  rcases base58Digits[c.toNat]? with _ | _ | d <;> simp

/-- The two tables are inverse. -/
theorem digitOf_iff {c : UInt8} {digit : Nat} :
    digitOf c = .ok digit ↔ base58Chars[digit]? = some c := by
  rw [digitOf_eq_ok]
  constructor
  · intro found
    obtain ⟨d, member, rfl⟩ := Option.map_eq_some_iff.mp found
    have char := base58Chars_of_digit c.toNat c.toNat_lt d member
    rwa [UInt8.ofNat_toNat] at char
  · intro char
    have small := base58Chars_lt char
    obtain ⟨c', char', found⟩ := digitOf_base58Chars digit small
    obtain rfl := Option.some.inj (char.symm.trans char')
    exact found

theorem digitOf_one {c : UInt8} {digit : Nat} (found : digitOf c = .ok digit) :
    (some c == base58Chars[0]?) = (digit == 0) := by
  rw [Bool.eq_iff_iff, beq_iff_eq, beq_iff_eq]
  constructor
  · intro one
    have zero := found.symm.trans (digitOf_iff.mpr one.symm)
    exact Except.ok.inj zero
  · rintro rfl
    exact (digitOf_iff.mp found).symm

/-- The digits of a text. -/
def digitsOf (text : Bytes) : Except InvalidCharacterError (List Nat) := text.mapM digitOf

/-- The text of digits. -/
def textOf (digits : List Nat) : Option Bytes := digits.mapM fun digit => base58Chars[digit]?

theorem digitsOf_cons_eq_ok {c : UInt8} {rest : Bytes} {digits : List Nat} :
    digitsOf (c :: rest) = .ok digits ↔
      ∃ digit others, digitOf c = .ok digit ∧ digitsOf rest = .ok others ∧
        digits = digit :: others := by
  rw [digitsOf, List.mapM_cons]
  rcases digitOf c with e | digit
  · simp [bind, Except.bind]
  · rcases same : digitsOf rest with e | others <;> rw [digitsOf] at same <;>
      simp [bind, Except.bind, same, pure, Except.pure, eq_comm]

theorem digitsOf_iff {text : Bytes} {digits : List Nat} :
    digitsOf text = .ok digits ↔ textOf digits = some text := by
  induction text generalizing digits with
  | nil =>
    cases digits with
    | nil => simp [digitsOf, textOf, pure, Except.pure]
    | cons digit others =>
      simp [digitsOf, textOf, pure, Except.pure, List.mapM_cons, Option.bind_eq_some_iff]
  | cons c rest ih =>
    rw [digitsOf_cons_eq_ok]
    constructor
    · rintro ⟨digit, others, head, tail, rfl⟩
      rw [textOf, List.mapM_cons, digitOf_iff.mp head, Option.bind_eq_bind, Option.bind_some]
      have following := ih.mp tail
      rw [textOf] at following
      rw [following]
      rfl
    · intro text
      cases digits with
      | nil => simp [textOf] at text
      | cons digit others =>
        simp only [textOf, List.mapM_cons, Option.bind_eq_bind, Option.bind_eq_some_iff] at text
        obtain ⟨c', char, rest', tail, same⟩ := text
        obtain ⟨rfl, rfl⟩ := List.cons.inj (Option.some.inj same)
        exact ⟨digit, others, digitOf_iff.mpr char, ih.mpr tail, rfl⟩

theorem textOf_of_bounded {digits : List Nat} (bounded : ∀ d ∈ digits, d < 58) :
    ∃ text, textOf digits = some text := by
  induction digits with
  | nil => exact ⟨[], rfl⟩
  | cons digit others ih =>
    obtain ⟨c, char, -⟩ := digitOf_base58Chars digit (bounded digit List.mem_cons_self)
    obtain ⟨rest, tail⟩ := ih fun d member => bounded d (List.mem_cons_of_mem digit member)
    refine ⟨c :: rest, ?_⟩
    rw [textOf] at tail ⊢
    simp [List.mapM_cons, char, tail]

theorem digitsOf_bounded {text : Bytes} {digits : List Nat} (read : digitsOf text = .ok digits) :
    digits.length = text.length ∧ ∀ d ∈ digits, d < 58 := by
  induction text generalizing digits with
  | nil =>
    obtain rfl : [] = digits := Except.ok.inj read
    simp
  | cons c rest ih =>
    obtain ⟨digit, others, head, tail, rfl⟩ := digitsOf_cons_eq_ok.mp read
    obtain ⟨length, bounded⟩ := ih tail
    refine ⟨by rw [List.length_cons, List.length_cons, length], List.forall_mem_cons.mpr ⟨?_, bounded⟩⟩
    exact base58Chars_lt (digitOf_iff.mp head)

/-- How many `1`s a text starts with. -/
def onesOf (text : Bytes) : Nat := (text.takeWhile fun x => some x == base58Chars[0]?).length

/-- How many zeros a byte string starts with. -/
def zerosOf (data : Bytes) : Nat := (data.takeWhile (· == 0)).length

theorem zerosOf_eq (data : Bytes) : zerosOf data = leadingZeros (data.map UInt8.toNat) := by
  have alike : ∀ byte : UInt8, (byte == 0) = (byte.toNat == 0) := by
    intro byte
    rw [Bool.eq_iff_iff, beq_iff_eq, beq_iff_eq, ← UInt8.toNat_inj]
    rfl
  rw [zerosOf, leadingZeros, List.takeWhile_map, List.length_map]
  simp only [Function.comp_def, alike]

/-- The leading `1`s of a text are the leading zeros of its digits. -/
theorem onesOf_digitsOf {text : Bytes} {digits : List Nat} (read : digitsOf text = .ok digits) :
    onesOf text = leadingZeros digits := by
  induction text generalizing digits with
  | nil =>
    obtain rfl : [] = digits := Except.ok.inj read
    rfl
  | cons c rest ih =>
    obtain ⟨digit, others, head, tail, rfl⟩ := digitsOf_cons_eq_ok.mp read
    simp only [onesOf, leadingZeros, List.takeWhile_cons, digitOf_one head]
    cases digit == 0 with
    | false => rfl
    | true => exact congrArg (· + 1) (ih tail)

/-! ### Decoding -/

/-- The number in a buffer of bytes, most significant first. -/
def valueOf (bytes : Bytes) : Nat := bigEndian 256 (bytes.map UInt8.toNat)

theorem bytes_bounded (bytes : Bytes) : ∀ d ∈ bytes.map UInt8.toNat, d < 256 := by
  intro d member
  obtain ⟨byte, -, rfl⟩ := List.mem_map.mp member
  exact byte.toNat_lt

theorem decodeStep_multiplies : Multiplies 256 58 UInt8.toNat decodeStep := by
  intro carry d256
  rw [Nat.add_comm (d256.toNat * 58)]
  exact ⟨UInt8.toNat_ofNat', rfl⟩

/-- The buffer after one digit, when the new number fits it. -/
theorem decodeStep_buffer {scratch : Bytes} (digit : Nat)
    (fits : valueOf scratch * 58 + digit < 256 ^ scratch.length) :
    (passThrough decodeStep digit scratch.reverse).2 = 0 ∧
      valueOf (passThrough decodeStep digit scratch.reverse).1.reverse = valueOf scratch * 58 + digit := by
  have value := decodeStep_multiplies.value digit scratch.reverse
  rw [List.length_reverse] at value
  have before : Nat.ofDigits 256 (scratch.reverse.map UInt8.toNat) = valueOf scratch := by
    rw [valueOf, bigEndian, List.map_reverse]
  have after : Nat.ofDigits 256 ((passThrough decodeStep digit scratch.reverse).1.map UInt8.toNat) =
      valueOf (passThrough decodeStep digit scratch.reverse).1.reverse := by
    rw [valueOf, bigEndian, List.map_reverse, List.reverse_reverse]
  rw [before, after] at value
  have nothing : (passThrough decodeStep digit scratch.reverse).2 = 0 := by
    by_contra left
    have more := Nat.mul_le_mul_left (256 ^ scratch.length) (Nat.pos_of_ne_zero left)
    omega
  rw [nothing] at value
  exact ⟨nothing, by omega⟩

/-- The loop of `decode`: an invalid character, or the number of all the digits. -/
theorem decodeLoop_run {data scratch : Bytes}
    (fits : (valueOf scratch + 1) * 58 ^ data.length ≤ 256 ^ scratch.length) :
    (∃ e, digitsOf data = .error e ∧ (decodeLoop data scratch).run = some (.error e)) ∨
      ∃ digits result, digitsOf data = .ok digits ∧
        (decodeLoop data scratch).run = some (.ok result) ∧
        valueOf result = valueOf scratch * 58 ^ data.length + bigEndian 58 digits := by
  induction data generalizing scratch with
  | nil => exact .inr ⟨[], scratch, rfl, rfl, by simp [bigEndian]⟩
  | cons d58 rest ih =>
    rcases read : digitOf d58 with e | digit
    · left
      refine ⟨e, ?_, ?_⟩
      · rw [digitsOf, List.mapM_cons, read]
        rfl
      · rw [decodeLoop, read]
        rfl
    · have small := base58Chars_lt (digitOf_iff.mp read)
      have room : (valueOf scratch * 58 + digit + 1) * 58 ^ rest.length ≤ 256 ^ scratch.length := by
        refine Nat.le_trans ?_ fits
        rw [List.length_cons, Nat.pow_succ', ← Nat.mul_assoc]
        exact Nat.mul_le_mul_right _ (by omega)
      have fit : valueOf scratch * 58 + digit < 256 ^ scratch.length := by
        have positive := Nat.pow_pos (n := rest.length) (show 0 < 58 by decide)
        have least := Nat.mul_le_mul_left (valueOf scratch * 58 + digit + 1) positive
        omega
      obtain ⟨nothing, value⟩ := decodeStep_buffer digit fit
      have loop : decodeLoop (d58 :: rest) scratch =
          decodeLoop rest (passThrough decodeStep digit scratch.reverse).1.reverse := by
        rw [decodeLoop, read, lift_ok_bind]
        exact if_pos nothing
      have next := @ih (passThrough decodeStep digit scratch.reverse).1.reverse
        (by rwa [value, List.length_reverse, length_passThrough, List.length_reverse])
      rw [loop]
      rcases next with ⟨e, bad, run⟩ | ⟨digits, result, good, run, total⟩
      · refine .inl ⟨e, ?_, run⟩
        rw [digitsOf] at bad
        rw [digitsOf, List.mapM_cons, read, bad]
        rfl
      · refine .inr ⟨digit :: digits, result, ?_, run, ?_⟩
        · exact digitsOf_cons_eq_ok.mpr ⟨digit, digits, read, good, rfl⟩
        · rw [total, value, bigEndian_cons, (digitsOf_bounded good).1, List.length_cons, Nat.pow_succ]
          ring

/-- 11/15 is just over `log_256(58)`. -/
theorem scratch_suffices (len : Nat) : 58 ^ len ≤ 256 ^ (1 + len * 11 / 15) := by
  have split : len = 15 * (len / 15) + len % 15 := (Nat.div_add_mod len 15).symm
  have short : 58 ^ (len % 15) ≤ 256 ^ (1 + len % 15 * 11 / 15) := by
    have each : ∀ r < 15, 58 ^ r ≤ 256 ^ (1 + r * 11 / 15) := by decide
    exact each _ (Nat.mod_lt len (by decide))
  have exponent : 1 + len * 11 / 15 = 11 * (len / 15) + (1 + len % 15 * 11 / 15) := by omega
  calc 58 ^ len = (58 ^ 15) ^ (len / 15) * 58 ^ (len % 15) := by
        rw [← Nat.pow_mul, ← Nat.pow_add, ← split]
    _ ≤ (256 ^ 11) ^ (len / 15) * 256 ^ (1 + len % 15 * 11 / 15) :=
        Nat.mul_le_mul (Nat.pow_le_pow_left (by decide) _) short
    _ = 256 ^ (1 + len * 11 / 15) := by rw [← Nat.pow_mul, ← Nat.pow_add, ← exponent]

/-- The bytes of digits in base 256. -/
def bytesOf (digits : List Nat) : Bytes := digits.map UInt8.ofNat

theorem bytesOf_toNat (bytes : Bytes) : bytesOf (bytes.map UInt8.toNat) = bytes := by
  rw [bytesOf, List.map_map]
  exact List.map_id'' (fun byte => UInt8.ofNat_toNat) bytes

theorem toNat_bytesOf {digits : List Nat} (bounded : ∀ d ∈ digits, d < 256) :
    (bytesOf digits).map UInt8.toNat = digits := by
  rw [bytesOf, List.map_map]
  conv_rhs => rw [← List.map_id digits]
  apply List.map_congr_left
  intro d member
  exact UInt8.toNat_ofNat_of_lt' (bounded d member)

theorem dropWhile_toNat (bytes : Bytes) :
    bytes.dropWhile (· == 0) = bytesOf ((bytes.map UInt8.toNat).dropWhile (· == 0)) := by
  induction bytes with
  | nil => rfl
  | cons byte rest ih =>
    have alike : (byte.toNat == 0) = (byte == 0) := by
      rw [Bool.eq_iff_iff, beq_iff_eq, beq_iff_eq, ← UInt8.toNat_inj]
      rfl
    simp only [List.map_cons, List.dropWhile_cons, alike]
    cases byte == 0 with
    | true => exact ih
    | false => exact (bytesOf_toNat (byte :: rest)).symm

/-- `decode` changes the base of the number and keeps the leading zeros. -/
theorem decode_run (data : Bytes) :
    (decode data).run = some ((digitsOf data).map fun digits =>
      bytesOf (expand 256 (leadingZeros digits) (bigEndian 58 digits))) := by
  have zero : valueOf (List.replicate (1 + data.length * 11 / 15) 0) = 0 := by
    rw [valueOf, List.map_replicate, bigEndian, List.reverse_replicate]
    exact Nat.ofDigits_replicate_zero
  have fits : (valueOf (List.replicate (1 + data.length * 11 / 15) 0) + 1) * 58 ^ data.length ≤
      256 ^ (List.replicate (1 + data.length * 11 / 15) (0 : UInt8)).length := by
    rw [zero, List.length_replicate, Nat.zero_add, Nat.one_mul]
    exact scratch_suffices data.length
  rw [decode]
  rcases decodeLoop_run fits with ⟨e, bad, run⟩ | ⟨digits, result, good, run, value⟩
  · rw [bad]
    simp only [ExceptT.run_bind, run]
    rfl
  · rw [zero, Nat.zero_mul, Nat.zero_add] at value
    have rest : result.dropWhile (· == 0) = bytesOf (Nat.digits 256 (bigEndian 58 digits)).reverse := by
      rw [dropWhile_toNat, dropWhile_eq_digits (by decide) (bytes_bounded result), ← valueOf, value]
    have ones : ((data.takeWhile fun x => some x == base58Chars[0]?).map fun _ => (0 : UInt8)) =
        bytesOf (List.replicate (leadingZeros digits) 0) := by
      rw [List.map_const', ← onesOf, onesOf_digitsOf good, bytesOf, List.map_replicate]
      rfl
    have whole : bytesOf (expand 256 (leadingZeros digits) (bigEndian 58 digits)) =
        bytesOf (List.replicate (leadingZeros digits) 0) ++
          bytesOf (Nat.digits 256 (bigEndian 58 digits)).reverse := by
      rw [expand, bytesOf, List.map_append, bytesOf, bytesOf]
    simp only [ExceptT.run_bind, run, good, Except.map, whole, ← rest, ← ones]
    rfl

/-! ### Encoding -/

namespace SmallVec

theorem toList_push (vec : SmallVec capacity α) (val : α) :
    (vec.push val).toList = vec.toList ++ [val] := by
  unfold push
  split
  · next room =>
    have inside : vec.len < vec.stack.length := by rw [vec.full]; exact room
    simp only [toList, vec.spilled room, List.append_nil]
    rw [List.take_add_one, List.take_set_of_le (Nat.le_refl _), List.getElem?_set_self inside]
    rfl
  · simp only [toList, List.append_assoc]

theorem toList_pass (step : σ → α → α × σ) (carry : σ) (vec : SmallVec capacity α) :
    (vec.pass step carry).1.toList = (passThrough step carry vec.toList).1 ∧
      (vec.pass step carry).2 = (passThrough step carry vec.toList).2 := by
  have front : (passThrough step carry (vec.stack.take vec.len)).1.length = vec.len := by
    rw [length_passThrough, List.length_take, vec.full, Nat.min_eq_left vec.within]
  simp only [pass, toList, passThrough_append, and_true]
  rw [List.take_append_of_le_length (Nat.le_of_eq front.symm), List.take_of_length_le (Nat.le_of_eq front)]

theorem toList_new [Inhabited α] : (new : SmallVec capacity α).toList = [] := rfl

end SmallVec

theorem formatStep_multiplies : Multiplies 58 256 UInt8.toNat formatStep := by
  intro carry ch
  have small := Nat.mod_lt (ch.toNat * 256 + carry) (show 0 < 58 by decide)
  exact ⟨UInt8.toNat_ofNat_of_lt' (Nat.lt_trans small (by decide)), rfl⟩

theorem toList_pushCarry (ret : SmallVec capacity UInt8) (carry : Nat) :
    (pushCarry ret carry).toList.map UInt8.toNat =
      ret.toList.map UInt8.toNat ++ Nat.digits 58 carry := by
  fun_induction pushCarry ret carry with
  | case1 ret => simp
  | case2 ret carry more ih =>
    have small := Nat.mod_lt carry (show 0 < 58 by decide)
    rw [ih, SmallVec.toList_push, List.map_append, List.map_singleton,
      UInt8.toNat_ofNat_of_lt' (Nat.lt_trans small (by decide)), List.append_assoc,
      Nat.digits_def' (by decide) (Nat.pos_of_ne_zero more)]
    rfl

/-- What the loop of `format_iter` has built from the bytes so far. -/
structure FormatState.Holds (s : FormatState capacity) (data : Bytes) : Prop where
  digits : s.ret.toList.map UInt8.toNat = Nat.digits 58 (valueOf data)
  leading : s.leadingZeroes = (data.map UInt8.toNat).all (· == 0)

theorem valueOf_concat (data : Bytes) (d256 : UInt8) :
    valueOf (data ++ [d256]) = valueOf data * 256 + d256.toNat := by
  rw [valueOf, List.map_append, List.map_singleton, bigEndian_concat, valueOf]

/-- The digits of the buffer and of the carry that is left are those of the new number. -/
theorem formatStep_digits (n carry : Nat) {ret : Bytes} (digits : ret.map UInt8.toNat = Nat.digits 58 n) :
    (passThrough formatStep carry ret).1.map UInt8.toNat ++
      Nat.digits 58 (passThrough formatStep carry ret).2 = Nat.digits 58 (n * 256 + carry) := by
  have value := formatStep_multiplies.value carry ret
  rw [digits, Nat.ofDigits_digits] at value
  have length : ret.length = (Nat.digits 58 n).length := by rw [← digits, List.length_map]
  apply digits_append_carry (by decide)
  · intro d member
    obtain ⟨ch, written, rfl⟩ := List.mem_map.mp member
    exact formatStep_multiplies.digit_lt (by decide) carry ret ch written
  · rw [List.length_map, length_passThrough, value]
  · intro some
    have positive : n ≠ 0 := by
      rintro rfl
      rw [Nat.digits_zero, List.map_eq_nil_iff] at digits
      subst digits
      exact some rfl
    rw [List.length_map, length_passThrough, length]
    exact Nat.le_trans (Nat.base_pow_length_digits_le 58 n (by decide) positive) (by omega)

theorem FormatState.Holds.start (capacity : Nat) (count : Int32) :
    FormatState.Holds (⟨SmallVec.new, count, true⟩ : FormatState capacity) [] where
  digits := by simp [SmallVec.toList_new, valueOf, bigEndian]
  leading := rfl

/-- The buffer after one byte. -/
def FormatState.written (s : FormatState capacity) (d256 : UInt8) : SmallVec capacity UInt8 :=
  pushCarry (s.ret.pass formatStep d256.toNat).1 (s.ret.pass formatStep d256.toNat).2

theorem FormatState.next_eq (s : FormatState capacity) (d256 : UInt8) :
    s.next overflowChecks d256 =
      (if s.leadingZeroes && d256.toNat == 0 then increment overflowChecks s.leadingZeroCount
        else some s.leadingZeroCount).map fun count =>
        ⟨s.written d256, count, s.leadingZeroes && d256.toNat == 0⟩ := by
  rw [next]
  by_cases more : s.leadingZeroes ∧ d256.toNat = 0
  · have still : (s.leadingZeroes && d256.toNat == 0) = true := by simp [more]
    rw [if_pos more, still, if_pos rfl]
    cases increment overflowChecks s.leadingZeroCount with
    | none => rfl
    | some count => exact congrArg (fun leading => some (⟨_, count, leading⟩ : FormatState capacity)) more.1
  · have stop : (s.leadingZeroes && d256.toNat == 0) = false := by
      rw [Bool.eq_false_iff, Ne, Bool.and_eq_true, beq_iff_eq]
      exact more
    rw [if_neg more, stop, if_neg Bool.false_ne_true]
    rfl

theorem FormatState.Holds.next {s : FormatState capacity} (holds : s.Holds data) (d256 : UInt8)
    (count : Int32) :
    FormatState.Holds (⟨s.written d256, count, s.leadingZeroes && d256.toNat == 0⟩ : FormatState capacity)
      (data ++ [d256]) := by
  obtain ⟨buffer, carry⟩ := SmallVec.toList_pass formatStep d256.toNat s.ret
  constructor
  · show (s.written d256).toList.map UInt8.toNat = _
    rw [FormatState.written, toList_pushCarry, buffer, carry, formatStep_digits _ _ holds.digits,
      valueOf_concat]
  · show (s.leadingZeroes && d256.toNat == 0) = _
    rw [List.map_append, List.map_singleton, List.all_append, holds.leading, List.all_cons, List.all_nil,
      Bool.and_true]

/-- The loop counts the leading zeros, and the count is all that can overflow. -/
theorem FormatState.foldlM_next (overflowChecks : Bool) (capacity : Nat) (data : Bytes) :
    ∃ s : FormatState capacity, (∀ count, FormatState.Holds { s with leadingZeroCount := count } data) ∧
      data.foldlM (FormatState.next overflowChecks) (⟨SmallVec.new, 0, true⟩ : FormatState capacity) =
        (counted overflowChecks (zerosOf data)).map fun count => { s with leadingZeroCount := count } := by
  induction data using List.reverseRecOn with
  | nil =>
    refine ⟨⟨SmallVec.new, 0, true⟩, .start capacity, ?_⟩
    rw [zerosOf, List.takeWhile_nil, List.length_nil, counted_zero]
    rfl
  | append_singleton data d256 ih =>
    obtain ⟨s, holds, run⟩ := ih
    refine ⟨⟨s.written d256, 0, s.leadingZeroes && d256.toNat == 0⟩, (holds 0).next d256, ?_⟩
    have zeros : zerosOf (data ++ [d256]) =
        zerosOf data + if s.leadingZeroes && d256.toNat == 0 then 1 else 0 := by
      rw [zerosOf_eq, List.map_append, List.map_singleton, leadingZeros_concat, (holds 0).leading,
        zerosOf_eq]
    have steps : (counted overflowChecks (zerosOf data)).bind (fun count =>
        if s.leadingZeroes && d256.toNat == 0 then increment overflowChecks count else some count) =
        counted overflowChecks (zerosOf (data ++ [d256])) := by
      rw [zeros]
      split
      · exact counted_bind_increment
      · exact Option.bind_fun_some _
    rw [List.foldlM_append, run, ← steps]
    cases counted overflowChecks (zerosOf data) with
    | none => rfl
    | some count =>
      rw [Option.map_some, Option.bind_eq_bind, Option.bind_some, Option.bind_some, List.foldlM_cons]
      exact (bind_pure _).trans (FormatState.next_eq _ d256)

theorem toList_pushZeros (ret : SmallVec capacity UInt8) (count : Nat) :
    ((List.range count).foldl (fun ret _ => ret.push 0) ret).toList =
      ret.toList ++ List.replicate count 0 := by
  induction count with
  | zero => simp
  | succ count ih =>
    rw [List.range_succ, List.foldl_append, List.foldl_cons, List.foldl_nil, SmallVec.toList_push, ih,
      List.replicate_succ', List.append_assoc]

/-- The text of the number of the data behind so many `1`s. -/
def spell (zeros : Nat) (data : Bytes) : Option Bytes := textOf (expand 58 zeros (valueOf data))

/-- `format_iter` changes the base of the number and keeps the leading zeros as far as they are
counted, whatever the size of the stack. -/
theorem formatIterWith_eq (overflowChecks : Bool) (capacity : Nat) (data : Bytes) :
    formatIterWith overflowChecks capacity data =
      (counted overflowChecks (zerosOf data)).bind fun count => spell count.toNatClampNeg data := by
  obtain ⟨s, holds, run⟩ := FormatState.foldlM_next overflowChecks capacity data
  rw [formatIterWith, run]
  cases counted overflowChecks (zerosOf data) with
  | none => rfl
  | some count =>
    have digits : expand 58 count.toNatClampNeg (valueOf data) =
        (List.replicate count.toNatClampNeg (0 : UInt8) ++ s.ret.toList.reverse).map UInt8.toNat := by
      rw [List.map_append, List.map_reverse, (holds count).digits, List.map_replicate]
      rfl
    rw [Option.bind_some, spell, textOf, digits, List.mapM_map]
    simp only [Option.map_some, Option.bind_eq_bind, Option.bind_some, toList_pushZeros,
      List.reverse_append, List.reverse_replicate]
    rfl

/-! ### Round trips -/

theorem encode_eq (overflowChecks : Bool) (data : Bytes) :
    encode overflowChecks data =
      (counted overflowChecks (zerosOf data)).bind fun count => spell count.toNatClampNeg data :=
  formatIterWith_eq overflowChecks 100 data

theorem encode_of_few {overflowChecks : Bool} {data : Bytes} (few : zerosOf data < 2 ^ 31) :
    encode overflowChecks data = spell (zerosOf data) data := by
  rw [encode_eq, counted_of_lt few, Option.bind_some, toNatClampNeg_ofNat_eq_iff.mpr few]

theorem spell_returns (zeros : Nat) (data : Bytes) : ∃ text, spell zeros data = some text :=
  textOf_of_bounded (expand_bounded (by decide) _ _)

theorem onesOf_spell {zeros : Nat} {data text : Bytes} (spelled : spell zeros data = some text) :
    onesOf text = zeros := by
  rw [onesOf_digitsOf (digitsOf_iff.mpr spelled), leadingZeros_expand]

/-- Without a leading zero a byte takes at most two characters. -/
theorem length_encode_le {text data : Bytes} {first : UInt8} {rest : Bytes} (shape : data = first :: rest)
    (nonzero : first ≠ 0) (encoded : encode overflowChecks data = some text) :
    text.length ≤ 2 * data.length := by
  have none : zerosOf data = 0 := by
    rw [shape, zerosOf, List.takeWhile_cons_of_neg (by simpa using nonzero), List.length_nil]
  rw [encode_of_few (by rw [none]; decide), none, spell, ← digitsOf_iff] at encoded
  have below := bigEndian_lt (by decide) (bytes_bounded data)
  rw [List.length_map, ← valueOf] at below
  have wide : 256 ^ data.length ≤ 58 ^ (2 * data.length) := by
    rw [Nat.pow_mul]
    exact Nat.pow_le_pow_left (by decide) _
  rw [← (digitsOf_bounded encoded).1, expand, List.replicate_zero, List.nil_append, List.length_reverse]
  exact (Nat.digits_length_le_iff (by decide) _).mpr (Nat.lt_of_lt_of_le below wide)

/-- A text is decoded to the data of which it is the text. -/
theorem decode_eq_ok {text data : Bytes} :
    (decode text).run = some (.ok data) ↔ spell (zerosOf data) data = some text := by
  rw [spell, ← digitsOf_iff, decode_run, Option.some.injEq, zerosOf_eq]
  constructor
  · intro read
    rcases digits : digitsOf text with e | ds
    · simp [digits, Except.map] at read
    · obtain rfl : bytesOf (expand 256 (leadingZeros ds) (bigEndian 58 ds)) = data := by
        simpa [digits, Except.map] using read
      rw [valueOf, toNat_bytesOf (expand_bounded (by decide) _ _), leadingZeros_expand, bigEndian_expand,
        expand_eq (by decide) (digitsOf_bounded digits).2]
  · intro digits
    rw [digits, Except.map, leadingZeros_expand, bigEndian_expand, valueOf,
      expand_eq (by decide) (bytes_bounded data), bytesOf_toNat]

theorem onesOf_of_decode {text data : Bytes} (read : (decode text).run = some (.ok data)) :
    onesOf text = zerosOf data := onesOf_spell (decode_eq_ok.mp read)

/-- The text that is written is decoded to the data exactly when the zeros are counted. -/
theorem decode_of_encode_iff {overflowChecks : Bool} {data text : Bytes} :
    (encode overflowChecks data = some text ∧ (decode text).run = some (.ok data)) ↔
      (decode text).run = some (.ok data) ∧ zerosOf data < 2 ^ 31 := by
  constructor
  · rintro ⟨encoded, read⟩
    refine ⟨read, ?_⟩
    rw [encode_eq, Option.bind_eq_some_iff] at encoded
    obtain ⟨count, all, spelled⟩ := encoded
    have ones := (onesOf_spell spelled).symm.trans (onesOf_of_decode read)
    rw [counted] at all
    split at all
    · contradiction
    · obtain rfl := Option.some.inj all
      exact toNatClampNeg_ofNat_eq_iff.mp ones
  · rintro ⟨read, few⟩
    exact ⟨(encode_of_few few).trans (decode_eq_ok.mp read), read⟩

theorem encode_eq_some_iff {overflowChecks : Bool} {data text : Bytes}
    (read : (decode text).run = some (.ok data)) :
    encode overflowChecks data = some text ↔ zerosOf data < 2 ^ 31 := by
  have both := @decode_of_encode_iff overflowChecks data text
  rwa [and_iff_left read, and_iff_right read] at both

theorem roundTrips_iff {overflowChecks : Bool} {data : Bytes} :
    (∃ text, encode overflowChecks data = some text ∧ (decode text).run = some (.ok data)) ↔
      zerosOf data < 2 ^ 31 := by
  simp only [decode_of_encode_iff]
  constructor
  · rintro ⟨text, -, few⟩
    exact few
  · intro few
    obtain ⟨text, spelled⟩ := spell_returns (zerosOf data) data
    exact ⟨text, decode_eq_ok.mpr spelled, few⟩

theorem fromLittleEndian_inj {a b : Bytes} (length : a.length = b.length) :
    fromLittleEndian a = fromLittleEndian b ↔ a = b := by
  constructor
  · intro same
    rw [← littleEndian_fromLittleEndian a, ← littleEndian_fromLittleEndian b, same, length]
  · exact congrArg fromLittleEndian

theorem decode_returns (text : Bytes) : (decode text).run ≠ none := by
  rw [decode_run]
  nofun

section Checked
variable [Hashes]

/-- The data and its checksum. -/
def checked (data : Bytes) : Bytes := data ++ (Hashes.sha256d data).val.take 4

theorem length_checksum (data : Bytes) : ((Hashes.sha256d data).val.take 4).length = 4 := by
  rw [List.length_take, (Hashes.sha256d data).property]
  rfl

theorem decodeCheck_of_decode {text ret : Bytes} (read : (decode text).run = some (.ok ret)) :
    (decodeCheck text).run = if ret.length < 4 then some (.error (.tooShort ret.length)) else
      if fromLittleEndian (ret.drop (ret.length - 4)) ≠
        fromLittleEndian ((Hashes.sha256d (ret.take (ret.length - 4))).val.take 4) then
        some (.error (.incorrectChecksum (fromLittleEndian (ret.drop (ret.length - 4)))
          (fromLittleEndian ((Hashes.sha256d (ret.take (ret.length - 4))).val.take 4))))
      else some (.ok (ret.take (ret.length - 4))) := by
  rw [decodeCheck, read]
  simp only [Option.map_some, Except.mapError]
  show ExceptT.run (ite _ _ _) = _
  split
  · rfl
  · show ExceptT.run (ite _ _ _) = _
    split <;> rfl

/-- The bytes that pass the checksum are some data followed by its checksum. -/
theorem decodeCheck_eq_ok {text data : Bytes} :
    (decodeCheck text).run = some (.ok data) ↔ (decode text).run = some (.ok (checked data)) := by
  constructor
  · intro accepted
    obtain ⟨ret, mapped, -⟩ := run_bind_eq_ok.mp accepted
    have read : (decode text).run = some (.ok ret) := run_mapError_eq_ok.mp mapped
    rw [decodeCheck_of_decode read] at accepted
    split at accepted
    · exact absurd (Option.some.inj accepted) nofun
    · next long =>
      split at accepted
      · exact absurd (Option.some.inj accepted) nofun
      · next same =>
        obtain rfl : ret.take (ret.length - 4) = data := Except.ok.inj (Option.some.inj accepted)
        rw [not_not, fromLittleEndian_inj (by rw [length_checksum, List.length_drop]; omega)] at same
        rw [read, checked, ← same, List.take_append_drop]
  · intro read
    have start : (checked data).length - 4 = data.length := by
      rw [checked, List.length_append, length_checksum, Nat.add_sub_cancel]
    have front : (checked data).take data.length = data := List.take_left
    have back : (checked data).drop data.length = (Hashes.sha256d data).val.take 4 := List.drop_left
    have long : ¬(checked data).length < 4 := by
      rw [checked, List.length_append, length_checksum]
      omega
    rw [decodeCheck_of_decode read, if_neg long, start, front, back, if_neg (not_not_intro rfl)]

/-- The zeros of a short payload are counted. -/
theorem encodeCheck_of_short {overflowChecks : Bool} {data : Bytes} (short : data.length < 100) :
    encodeCheck overflowChecks data = spell (zerosOf (checked data)) (checked data) := by
  have few : (checked data).length < 2 ^ 31 := by
    rw [checked, List.length_append, length_checksum]
    omega
  exact encode_of_few ((List.takeWhile_sublist _).length_le.trans_lt few)

theorem encodeCheck_returns {overflowChecks : Bool} {data : Bytes} (short : data.length < 100) :
    ∃ text, encodeCheck overflowChecks data = some text := by
  rw [encodeCheck_of_short short]
  exact spell_returns _ _

theorem decodeCheck_eq_ok_iff {overflowChecks : Bool} {text data : Bytes} (short : data.length < 100) :
    (decodeCheck text).run = some (.ok data) ↔ encodeCheck overflowChecks data = some text := by
  rw [encodeCheck_of_short short]
  exact decodeCheck_eq_ok.trans decode_eq_ok

theorem decodeCheck_returns (text : Bytes) : (decodeCheck text).run ≠ none := by
  have returned := decode_run text
  rcases read : digitsOf text with e | digits
  · rw [read] at returned
    rw [decodeCheck, returned]
    nofun
  · rw [read] at returned
    rw [decodeCheck_of_decode returned]
    split
    · nofun
    · split <;> nofun

/-- Base58 is a bijection between byte strings and the texts that are accepted, with and without
a checksum, as far as an `i32` counts the zeros at the start; neither the assertion of `decode`
nor the split of the encoder's buffer shows. -/
theorem base58_bijection_iff (overflowChecks : Bool) :
    (∀ data, (∃ text, encode overflowChecks data = some text ∧ (decode text).run = some (.ok data)) ↔
      zerosOf data < 2 ^ 31) ∧
    (∀ text data, (decode text).run = some (.ok data) → onesOf text = zerosOf data ∧
      (encode overflowChecks data = some text ↔ onesOf text < 2 ^ 31)) ∧
    (∀ data, (∃ text, encodeCheck overflowChecks data = some text ∧
      (decodeCheck text).run = some (.ok data)) ↔ zerosOf (checked data) < 2 ^ 31) ∧
    (∀ text data, (decodeCheck text).run = some (.ok data) →
      (encodeCheck overflowChecks data = some text ↔ onesOf text < 2 ^ 31)) ∧
    (∀ text, (decode text).run ≠ none ∧ (decodeCheck text).run ≠ none) ∧
    ∀ capacity data, formatIterWith overflowChecks capacity data = formatIter overflowChecks data := by
  refine ⟨fun _ => roundTrips_iff, ?_, ?_, ?_, fun text => ⟨decode_returns text, decodeCheck_returns text⟩, ?_⟩
  · intro text data read
    refine ⟨onesOf_of_decode read, ?_⟩
    rw [onesOf_of_decode read]
    exact encode_eq_some_iff read
  · intro data
    simp only [decodeCheck_eq_ok]
    exact roundTrips_iff
  · intro text data read
    rw [decodeCheck_eq_ok] at read
    rw [onesOf_of_decode read]
    exact encode_eq_some_iff read
  · intro capacity data
    rw [formatIter, formatIterWith_eq, formatIterWith_eq]

end Checked

section
attribute [local instance] Hashes.ofEmpty

/-- A text with a zero at its start, and the one of nothing but a checksum. -/
theorem texts_encoded :
    encode true [0, 13, 36] = some (ascii "1211") ∧ encodeCheck true [] = some (ascii "3QJmnh") := by
  have plain : (decode (ascii "1211")).run = some (.ok [0, 13, 36]) := by decide +kernel
  have empty : (decodeCheck (ascii "3QJmnh")).run = some (.ok []) := by decide +kernel
  have holds := base58_bijection_iff true
  exact ⟨(holds.2.1 _ _ plain).2.mpr (by decide +kernel), (holds.2.2.2.1 _ _ empty).mpr (by decide +kernel)⟩

end

/-- Zeros that are more than an `i32` counts: the count overflows, or it is negative and the
text is empty. -/
theorem zeros_lost :
    encode true (List.replicate (2 ^ 31) 0) = none ∧ encode false (List.replicate (2 ^ 31) 0) = some [] ∧
      ∀ overflowChecks, ¬ ∃ text, encode overflowChecks (List.replicate (2 ^ 31) 0) = some text ∧
        (decode text).run = some (.ok (List.replicate (2 ^ 31) 0)) := by
  have zeros (count : Nat) : zerosOf (List.replicate count 0) = count := by
    rw [zerosOf, List.takeWhile_replicate, if_pos (beq_self_eq_true 0), List.length_replicate]
  have value (count : Nat) : valueOf (List.replicate count 0) = 0 := by
    rw [valueOf, List.map_replicate, bigEndian, List.reverse_replicate]
    exact Nat.ofDigits_replicate_zero
  refine ⟨?_, ?_, fun _ => roundTrips_iff.not.mpr ?_⟩
  · rw [encode_eq, zeros]
    rfl
  · have wrapped : counted false (2 ^ 31) = some Int32.minValue := rfl
    rw [encode_eq, zeros, wrapped, Option.bind_some, spell, value]
    rfl
  · rw [zeros]
    decide

end Litecoin.Base58
