import Litecoin.Consensus.Format

/-! The base-128 varint of MWEB amounts and header fields, written with the most
significant digit first. Every digit but the last carries a mark and stands for one
more than its value, so no number has two images. -/
namespace Litecoin.Mimblewimble
open Wire Consensus

/-- The shared loop of `read_amount` and `read_compact_varint`. `n` never leaves
`0..=max`, so the shift and the addition below do not wrap. -/
def readVarintLoop (max n : Nat) : Decoder Error Nat
  | [] => .error (.io .unexpectedEof)
  | chData :: rest =>
    if n > max / 128 then .error (.parseFailed "MWEB varint overflow")
    else
      let next := n * 128 + chData.toNat % 128
      if chData.toNat ≥ 128 then
        if next + 1 > max then .error (.parseFailed "MWEB varint overflow")
        else readVarintLoop max (next + 1) rest
      else .ok (next, rest)

/-- The digits `write_amount` and `write_compact_varint` put into `tmp`, least
significant first. `slots` is what is left of its ten places. -/
def varintDigits : (slots : Nat) → (mark : UInt8) → (n : Int) → Bytes
  | 0, _, _ => []
  | slots + 1, mark, n =>
    let digit := UInt8.ofNat (n % 128).toNat ||| mark
    if n ≤ 0x7f then [digit] else digit :: varintDigits slots 0x80 (n / 128 - 1)

def writeVarint (n : Int) : Emission IoError :=
  let tmp := varintDigits 10 0 n
  .counted tmp.length tmp.reverse

def readAmount : Decoder Error Int64 :=
  Int64.ofNat <$> readVarintLoop (2 ^ 63 - 1) 0

def writeAmount (amount : Int64) : Emission IoError := writeVarint amount.toInt

def readCompactVarint : Decoder Error UInt64 := UInt64.ofNat <$> readVarintLoop (2 ^ 64 - 1) 0

def writeCompactVarint (value : UInt64) : Emission IoError := writeVarint value.toNat

/-- Marked digits that leave the reader at `n + 1`. -/
def continued (n : Nat) : Bytes :=
  if n < 128 then [UInt8.ofNat (n + 128)]
  else continued (n / 128 - 1) ++ [UInt8.ofNat (n % 128 + 128)]
termination_by n
decreasing_by omega

/-- What has been read when the reader holds `n`. -/
def consumed : Nat → Bytes
  | 0 => []
  | n + 1 => continued n

def varintWire (n : Nat) : Bytes := consumed (n / 128) ++ [UInt8.ofNat (n % 128)]

theorem continued_eq (n : Nat) :
    continued n = consumed (n / 128) ++ [UInt8.ofNat (n % 128 + 128)] := by
  rw [continued]
  split
  · have zero : n / 128 = 0 := by omega
    have self : n % 128 = n := by omega
    rw [zero, self, consumed, List.nil_append]
  · obtain ⟨m, quotient⟩ : ∃ m, n / 128 = m + 1 := ⟨n / 128 - 1, by omega⟩
    rw [quotient, consumed, Nat.add_sub_cancel]

/-- How many numbers `slots` digits can write. -/
def varintCapacity : Nat → Nat
  | 0 => 0
  | slots + 1 => 128 * (varintCapacity slots + 1)

theorem digit_marked {n : Nat} :
    UInt8.ofNat ((n : Int) % 128).toNat ||| 0x80 = UInt8.ofNat (n % 128 + 128) := by
  have digit : ∀ d < 128, UInt8.ofNat d ||| 0x80 = UInt8.ofNat (d + 128) := by decide
  have same : ((n : Int) % 128).toNat = n % 128 := by omega
  rw [same, digit _ (Nat.mod_lt _ (by decide))]

theorem varintDigits_marked {slots n : Nat} (fits : n < varintCapacity slots) :
    (varintDigits slots 0x80 n).reverse = continued n := by
  induction slots generalizing n with
  | zero => simp [varintCapacity] at fits
  | succ slots ih =>
    simp only [varintCapacity] at fits
    rw [continued_eq, varintDigits, digit_marked]
    by_cases short : (n : Int) ≤ 0x7f
    · have zero : n / 128 = 0 := by omega
      rw [if_pos short, zero, consumed, List.reverse_singleton, List.nil_append]
    · obtain ⟨m, quotient⟩ : ∃ m, n / 128 = m + 1 := ⟨n / 128 - 1, by omega⟩
      have tail : (n : Int) / 128 - 1 = m := by omega
      rw [if_neg short, tail, List.reverse_cons, ih (by omega), quotient, consumed]

theorem varintDigits_eq {slots n : Nat} (fits : n < varintCapacity slots) :
    (varintDigits slots 0 n).reverse = varintWire n := by
  cases slots with
  | zero => simp [varintCapacity] at fits
  | succ slots =>
    simp only [varintCapacity] at fits
    have digit : UInt8.ofNat ((n : Int) % 128).toNat ||| 0 = UInt8.ofNat (n % 128) := by
      have same : ((n : Int) % 128).toNat = n % 128 := by omega
      rw [same, UInt8.or_zero]
    rw [varintWire, varintDigits, digit]
    by_cases short : (n : Int) ≤ 0x7f
    · have zero : n / 128 = 0 := by omega
      rw [if_pos short, zero, consumed, List.reverse_singleton, List.nil_append]
    · obtain ⟨m, quotient⟩ : ∃ m, n / 128 = m + 1 := ⟨n / 128 - 1, by omega⟩
      have tail : (n : Int) / 128 - 1 = m := by omega
      rw [if_neg short, tail, List.reverse_cons, varintDigits_marked (by omega), quotient, consumed]

/-- Ten digits hold every 64-bit number. -/
theorem writeVarint_nonneg {n : Nat} (fits : n < 2 ^ 64) :
    writeVarint n = .written (varintWire n) := by
  have room : n < varintCapacity 10 := lt_of_lt_of_le fits (by decide)
  rw [writeVarint, varintDigits_eq room]
  exact Emission.counted_eq_written (by rw [← varintDigits_eq room, List.length_reverse])

/-- A negative number is cut to its last seven bits. -/
theorem writeVarint_neg {n : Int} (negative : n < 0) :
    writeVarint n = .written (varintWire (n % 128).toNat) := by
  have small : (n % 128).toNat < 128 := by omega
  have zero : (n % 128).toNat / 128 = 0 := by omega
  simp only [writeVarint, varintDigits, if_pos (show n ≤ 0x7f by omega), UInt8.or_zero, varintWire,
    zero, Nat.mod_eq_of_lt small, consumed, List.nil_append, List.reverse_singleton]
  rfl

theorem readVarintLoop_step {max n d : Nat} (digit : d < 128) (room : n ≤ max / 128)
    (bytes : Bytes) :
    readVarintLoop max n (UInt8.ofNat d :: bytes) = .ok (n * 128 + d, bytes) := by
  have value : (UInt8.ofNat d).toNat = d := UInt8.toNat_ofNat_of_lt' (digit.trans (by decide))
  simp only [readVarintLoop, value, Nat.mod_eq_of_lt digit]
  rw [if_neg (by omega), if_neg (by omega)]

theorem readVarintLoop_marked {max n d : Nat} (digit : d < 128) (room : n ≤ max / 128)
    (next : n * 128 + d + 1 ≤ max) (bytes : Bytes) :
    readVarintLoop max n (UInt8.ofNat (d + 128) :: bytes) =
      readVarintLoop max (n * 128 + d + 1) bytes := by
  have value : (UInt8.ofNat (d + 128)).toNat = d + 128 :=
    UInt8.toNat_ofNat_of_lt' (Nat.add_lt_add_right digit 128)
  have low : (d + 128) % 128 = d := by omega
  conv_lhs => rw [readVarintLoop]
  simp only [value, low]
  rw [if_neg (by omega), if_pos (by omega), if_neg (by omega)]

theorem readVarintLoop_continued {max n : Nat} (bound : n + 1 ≤ max) (bytes : Bytes) :
    readVarintLoop max 0 (continued n ++ bytes) = readVarintLoop max (n + 1) bytes := by
  induction n using Nat.strong_induction_on generalizing bytes with
  | _ n ih =>
    have digit : n % 128 < 128 := Nat.mod_lt _ (by decide)
    rw [continued_eq, List.append_assoc, List.singleton_append]
    cases quotient : n / 128 with
    | zero =>
      rw [consumed, List.nil_append, readVarintLoop_marked digit (Nat.zero_le _) (by omega)]
      congr 1; omega
    | succ m =>
      rw [consumed, ih m (by omega) (by omega), readVarintLoop_marked digit (by omega) (by omega)]
      congr 1; omega

theorem readVarintLoop_wire {max n : Nat} (bound : n ≤ max) (bytes : Bytes) :
    readVarintLoop max 0 (varintWire n ++ bytes) = .ok (n, bytes) := by
  have digit : n % 128 < 128 := Nat.mod_lt _ (by decide)
  rw [varintWire, List.append_assoc, List.singleton_append]
  cases quotient : n / 128 with
  | zero =>
    rw [consumed, List.nil_append, readVarintLoop_step digit (Nat.zero_le _)]
    congr 2; omega
  | succ m =>
    rw [consumed, readVarintLoop_continued (by omega), readVarintLoop_step digit (by omega)]
    congr 2; omega

/-- Whatever the loop accepts extends what it had consumed to one image. -/
theorem readVarintLoop_sound {max n : Nat} (full : max % 128 = 127)
    (read : readVarintLoop max n bytes = .ok (value, rest)) :
    value ≤ max ∧ consumed n ++ bytes = varintWire value ++ rest := by
  induction bytes generalizing n with
  | nil => simp [readVarintLoop] at read
  | cons chData tail ih =>
    have byte := chData.toNat_lt
    have same : chData = UInt8.ofNat chData.toNat := UInt8.ofNat_toNat.symm
    simp only [readVarintLoop] at read
    split at read
    · contradiction
    rename_i room
    have quotient : (n * 128 + chData.toNat % 128) / 128 = n := by omega
    split at read
    · rename_i marked
      split at read
      · contradiction
      obtain ⟨bound, image⟩ := ih read
      refine ⟨bound, image ▸ ?_⟩
      have digit : (n * 128 + chData.toNat % 128) % 128 + 128 = chData.toNat := by omega
      rw [consumed, continued_eq, quotient, digit, ← same, List.append_assoc,
        List.singleton_append]
    · rename_i unmarked
      simp only [Except.ok.injEq, Prod.mk.injEq] at read
      obtain ⟨rfl, rfl⟩ := read
      have digit : (n * 128 + chData.toNat % 128) % 128 = chData.toNat := by omega
      refine ⟨by omega, ?_⟩
      rw [varintWire, quotient, digit, ← same, List.append_assoc, List.singleton_append]

theorem readVarintLoop_reads {max : Nat} (full : max % 128 = 127) :
    Reads (readVarintLoop max 0) varintWire (· ≤ max) := by
  intro bytes n rest
  constructor
  · intro read
    simpa only [consumed, List.nil_append] using readVarintLoop_sound full read
  · rintro ⟨bound, rfl⟩
    exact readVarintLoop_wire bound rest

/-- What an amount keeps on the wire: a negative one loses all but seven bits. -/
def writtenAmount (amount : Int64) : Nat :=
  if amount < 0 then (amount.toInt % 128).toNat else amount.toNatClampNeg

def amountWire (amount : Int64) : Bytes := varintWire (writtenAmount amount)

theorem writtenAmount_nonneg {amount : Int64} (nonneg : 0 ≤ amount) :
    writtenAmount amount = amount.toNatClampNeg := by
  rw [writtenAmount, if_neg (Int64.not_lt.mpr nonneg)]

theorem writeAmount_eq (amount : Int64) : writeAmount amount = .written (amountWire amount) := by
  rw [writeAmount, amountWire]
  by_cases negative : amount < 0
  · rw [writtenAmount, if_pos negative]
    exact writeVarint_neg (by simpa [Int64.lt_iff_toInt_lt] using negative)
  · have nonneg := Int64.not_lt.mp negative
    have bound := amount.toNatClampNeg_lt
    rw [writtenAmount_nonneg nonneg, ← Int64.cast_toNatClampNeg amount nonneg]
    exact writeVarint_nonneg (by omega)

theorem readAmount_reads : Reads readAmount amountWire (fun amount => 0 ≤ amount) := by
  intro bytes amount rest
  have numbers := readVarintLoop_reads (show (2 ^ 63 - 1) % 128 = 127 by decide)
  rw [readAmount, Decoder.map_eq_ok]
  constructor
  · rintro ⟨n, read, rfl⟩
    obtain ⟨bound, rfl⟩ := (numbers _ _ _).mp read
    have fits : n < 2 ^ 63 := Nat.lt_of_le_of_lt bound (by decide)
    have nonneg : 0 ≤ Int64.ofNat n := by
      simp [Int64.le_iff_toInt_le, Int64.toInt_ofNat_of_lt fits]
    refine ⟨nonneg, ?_⟩
    rw [amountWire, writtenAmount_nonneg nonneg, Int64.toNatClampNeg_ofNat_of_lt fits]
  · rintro ⟨nonneg, rfl⟩
    have fits : amount.toNatClampNeg ≤ 2 ^ 63 - 1 := by
      have bound := amount.toNatClampNeg_lt
      omega
    refine ⟨amount.toNatClampNeg, (numbers _ _ _).mpr ⟨fits, ?_⟩,
      Int64.ofNat_toNatClampNeg amount nonneg⟩
    rw [amountWire, writtenAmount_nonneg nonneg]

theorem readCompactVarint_codec :
    Codec writeCompactVarint readCompactVarint (varintWire ∘ UInt64.toNat) where
  emits value := writeVarint_nonneg value.toNat_lt
  reads := by
    have numbers := readVarintLoop_reads (show (2 ^ 64 - 1) % 128 = 127 by decide)
    refine (numbers.map UInt64.ofNat UInt64.toNat ?_ ?_).congr ?_ (fun _ _ => rfl)
    · intro n bound
      exact UInt64.toNat_ofNat_of_lt' (Nat.lt_of_le_of_lt bound (by decide))
    · exact fun value _ => UInt64.ofNat_toNat
    · intro value
      have bound := value.toNat_lt
      simp only [Function.comp_apply, true_iff]
      omega

end Litecoin.Mimblewimble
