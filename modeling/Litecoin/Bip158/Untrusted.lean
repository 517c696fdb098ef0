import Litecoin.Bip158.Matching
import Litecoin.Wire.Rice

/-! Decoding any bits, not only those of a filter that was written: what is read from
them, and when it leaves the 64 bits of a number. -/
namespace Litecoin.Bip158
open Wire Consensus

namespace BitStreamReader

theorem refill_available (self : BitStreamReader) (within : self.offset ≤ 8) :
    (self.refill = .error .unexpectedEof ∧ self.available = 0) ∨
      ∃ next, self.refill = .ok next ∧ next.offset < 8 ∧ next.available = self.available := by
  rw [refill]
  split_ifs with used
  · cases follows : self.reader with
    | nil => exact .inl ⟨rfl, by rw [available, used, follows]; rfl⟩
    | cons byte reader =>
      refine .inr ⟨_, rfl, Nat.succ_pos 7, ?_⟩
      rw [available, available, used, follows, List.length_cons]
      simp only
      omega
  · exact .inr ⟨self, rfl, by omega, rfl⟩

/-- There is no other error than the end of the input. -/
theorem readLoop_short (self : BitStreamReader) (within : self.offset ≤ 8) (data : UInt64)
    {nbits : Nat} (enough : nbits ≤ rounds) (short : self.available < nbits) :
    readLoop rounds nbits data self = .error .unexpectedEof := by
  induction rounds generalizing self nbits data with
  | zero => omega
  | succ rounds ih =>
    obtain ⟨nbits, rfl⟩ := Nat.exists_eq_add_one_of_ne_zero (Nat.ne_zero_of_lt short)
    rcases self.refill_available within with ⟨ended, _⟩ | ⟨full, filled, inside, same⟩
    · rw [readLoop, ended]
      rfl
    · rw [readLoop, filled]
      simp only [bind, Except.bind]
      rw [← same] at short
      have bound := Nat.min_le_left (8 - full.offset) (nbits + 1)
      have room : 8 - full.offset ≤ full.available := Nat.le_add_right _ _
      apply ih
      · show full.offset + _ ≤ 8
        omega
      · omega
      · have left : available { full with offset := full.offset + min (8 - full.offset) (nbits + 1) } =
            full.available - min (8 - full.offset) (nbits + 1) := by
          rw [available, available]
          simp only
          omega
        rw [left]
        omega

theorem Before.read_short {stream : BitStreamReader} {nbits : UInt8} (stands : stream.Before bits)
    (fits : nbits ≤ 64) (short : bits.length < nbits.toNat) :
    stream.read nbits = .error .unexpectedEof := by
  rw [BitStreamReader.read, if_neg (UInt8.not_lt.mpr fits)]
  exact stream.readLoop_short stands.within 0 le_rfl (stands.available_eq ▸ short)

/-- The other way around: bits that were read stood there. -/
theorem Before.of_read {stream next : BitStreamReader} {nbits : UInt8} {value : UInt64}
    (stands : stream.Before bits) (fits : nbits ≤ 64) (read : stream.read nbits = .ok (value, next)) :
    ∃ low rest, bits = low ++ rest ∧ low.length = nbits.toNat ∧
      value = UInt64.ofNat (numberOf low) ∧ next.Before rest := by
  rcases Nat.lt_or_ge bits.length nbits.toNat with short | enough
  · rw [stands.read_short fits short] at read
    exact absurd read (by simp)
  · have length : (bits.take nbits.toNat).length = nbits.toNat := List.length_take_of_le enough
    have spelled := bitsOf_numberOf (bits.take nbits.toNat)
    have below := numberOf_lt (bits.take nbits.toNat)
    rw [length] at spelled below
    rw [← List.take_append_drop nbits.toNat bits, ← spelled] at stands
    obtain ⟨last, same, follows⟩ := stands.read below fits
    obtain ⟨rfl, rfl⟩ := Prod.mk.inj (Except.ok.inj (read.symm.trans same))
    exact ⟨_, _, (List.take_append_drop _ _).symm, length, rfl, follows⟩

end BitStreamReader

/-- The next total of a string of codes fits 64 bits, and of the rest something holds. -/
def FitsWord (base : Nat) (holds : Nat → List Bool → Prop) : Except Nat (Nat × List Bool) → Prop
  | .error ones => ones < 2 ^ 64
  | .ok (n, rest) => base + n < 2 ^ 64 ∧ holds (base + n) rest

namespace GcsFilter

/-- Ones without end are an error, or leave the 64 bits of the quotient. -/
theorem decodeQuotient_ones {reader : BitStreamReader} {count : Nat}
    (stands : reader.Before (List.replicate count true)) (q : UInt64) (enough : count ≤ rounds)
    (fits : q.toNat + count < 2 ^ 64) :
    (decodeQuotient rounds q reader).run = some (.error .unexpectedEof) := by
  induction count generalizing reader q rounds with
  | zero =>
    cases rounds with
    | zero => rfl
    | succ rounds =>
      rw [decodeQuotient, stands.read_short (by decide) (by decide)]
      rfl
  | succ count ih =>
    obtain ⟨rounds, rfl⟩ := Nat.exists_eq_add_one_of_ne_zero (Nat.ne_zero_of_lt enough)
    obtain ⟨next, read, stands⟩ := stands.readBit
    have more : (UInt64.ofNat (q.toNat + 1)).toNat = q.toNat + 1 :=
      UInt64.toNat_ofNat_of_lt' (by simp [UInt64.size]; omega)
    rw [decodeQuotient, read]
    simp only [lift_ok_bind]
    rw [if_pos (by decide), checked_of_lt (by omega), pure_bind]
    exact ih stands _ (by omega) (by omega)

theorem decodeQuotient_overflow {reader : BitStreamReader} {count : Nat}
    (stands : reader.Before (List.replicate count true ++ rest)) (q : UInt64)
    (enough : count ≤ rounds) (large : 2 ^ 64 ≤ q.toNat + count) :
    (decodeQuotient rounds q reader).run = none := by
  induction count generalizing reader q rounds with
  | zero => exact absurd q.toNat_lt (not_lt.mpr large)
  | succ count ih =>
    obtain ⟨rounds, rfl⟩ := Nat.exists_eq_add_one_of_ne_zero (Nat.ne_zero_of_lt enough)
    obtain ⟨next, read, stands⟩ := stands.readBit
    rw [decodeQuotient, read]
    simp only [lift_ok_bind]
    rw [if_pos (by decide), checked]
    split_ifs with fits
    · have more : (UInt64.ofNat (q.toNat + 1)).toNat = q.toNat + 1 := UInt64.toNat_ofNat_of_lt' fits
      rw [pure_bind]
      exact ih stands _ (by omega) (by omega)
    · rfl

/-- Bits that a quotient was read from hold it. -/
theorem of_decodeQuotient {reader next : BitStreamReader} {q : UInt64} (stands : reader.Before bits)
    (read : decodeQuotient reader.available 0 reader = pure (q, next)) :
    ∃ rest, bits = List.replicate q.toNat true ++ false :: rest ∧ next.Before rest := by
  have length := stands.available_eq
  rcases ones_split bits with ⟨ones, rest, rfl⟩ | ⟨ones, rfl⟩
  · rw [List.length_append, List.length_replicate, List.length_cons] at length
    rcases Nat.lt_or_ge ones (2 ^ 64) with fits | large
    · obtain ⟨last, same, follows⟩ := decodeQuotient_spec stands 0 (by omega : ones < reader.available)
        (by simpa using fits)
      rw [UInt64.toNat_zero, Nat.zero_add] at same
      obtain ⟨rfl, rfl⟩ := Prod.mk.inj (run_pure_eq_ok.mp
        ((congrArg ExceptT.run (same.symm.trans read)).trans rfl))
      rw [UInt64.toNat_ofNat_of_lt' fits]
      exact ⟨rest, rfl, follows⟩
    · have none := decodeQuotient_overflow stands 0 (by omega : ones ≤ reader.available)
        (by simpa using large)
      rw [read] at none
      exact absurd none (by simp)
  · rw [List.length_replicate] at length
    rcases Nat.lt_or_ge ones (2 ^ 64) with fits | large
    · have ended := decodeQuotient_ones stands 0 length.ge (by simpa using fits)
      rw [read] at ended
      exact absurd (Option.some.inj ended) (by simp)
    · rw [← List.append_nil (List.replicate ones true)] at stands
      have none := decodeQuotient_overflow stands 0 length.ge (by simpa using large)
      rw [read] at none
      exact absurd none (by simp)

/-- The shift of the quotient loses no bits, where the number to decode comes that far. -/
def Exact (filter : GcsFilter) (reader : BitStreamReader) : Prop :=
  ∀ q r middle next, decodeQuotient reader.available 0 reader = pure (q, middle) →
    middle.read filter.p = .ok (r, next) → q.toNat * 2 ^ filter.p.toNat < 2 ^ 64

/-- Bits that a number was decoded from start with a code, and only that code was read. -/
theorem of_golombRiceDecode {filter : GcsFilter} (short : filter.p < 64) {reader next : BitStreamReader}
    {n : UInt64} (stands : reader.Before bits)
    (read : filter.golombRiceDecode reader = pure (n, next)) :
    ∃ code rest, bits = code ++ rest ∧ filter.p.toNat < code.length ∧ next.Before rest := by
  obtain ⟨⟨q, middle⟩, quotient, read⟩ := run_bind_eq_ok.mp (congrArg ExceptT.run read)
  obtain ⟨after, rfl, second⟩ := of_decodeQuotient stands quotient
  obtain ⟨⟨r, last⟩, remainder, read⟩ := run_bind_eq_ok.mp read
  obtain ⟨low, rest, rfl, length, _, third⟩ :=
    second.of_read (UInt8.le_of_lt short) (run_liftM_eq_ok.mp remainder)
  obtain ⟨_, _, read⟩ := run_bind_eq_ok.mp read
  obtain ⟨_, _, read⟩ := run_bind_eq_ok.mp read
  obtain ⟨_, rfl⟩ := Prod.mk.inj (run_pure_eq_ok.mp read)
  refine ⟨List.replicate q.toNat true ++ false :: low, rest, ?_, ?_, third⟩
  · rw [List.append_assoc, List.cons_append]
  · rw [List.length_append, List.length_cons, length]
    omega

theorem exact_of_code {filter : GcsFilter} {reader : BitStreamReader} {n : Nat} {bits rest : List Bool}
    (stands : reader.Before bits)
    (code : riceDecode filter.p.toNat bits = .ok (n, rest)) (fits : n < 2 ^ 64) :
    filter.Exact reader := by
  intro q r middle next quotient _
  obtain ⟨after, same, _⟩ := of_decodeQuotient stands quotient
  rw [riceDecode_eq_ok.mp code, riceCode, List.append_assoc, List.cons_append] at same
  have counted := congrArg leadingOnes same
  rw [leadingOnes_code, leadingOnes_code] at counted
  rw [← counted]
  exact (Nat.div_mul_le_self n _).trans_lt fits

section Decode
variable {filter : GcsFilter} (short : filter.p < 64) {reader : BitStreamReader} {bits : List Bool}
  (stands : reader.Before bits)
include short stands

/-- A number of more than 64 bits is noticed in its quotient or in the sum with its
remainder, unless the shift has lost bits of it. -/
theorem not_safe_of_code {n : Nat} {rest : List Bool}
    (code : riceDecode filter.p.toNat bits = .ok (n, rest)) (large : 2 ^ 64 ≤ n) :
    ¬ (Returns (filter.golombRiceDecode reader) ∧ filter.Exact reader) := by
  rintro ⟨returns, exact⟩
  obtain rfl := riceDecode_eq_ok.mp code
  have length := stands.available_eq
  rw [List.length_append, riceCode_length] at length
  rw [riceCode, List.append_assoc, List.cons_append] at stands
  rcases Nat.lt_or_ge (n / 2 ^ filter.p.toNat) (2 ^ 64) with fits | beyond
  · obtain ⟨middle, quotient, stands⟩ := decodeQuotient_spec stands 0
      (by omega : n / 2 ^ filter.p.toNat < reader.available) (by simpa using fits)
    rw [UInt64.toNat_zero, Nat.zero_add] at quotient
    rw [← bitsOf_eq_iff.mpr (Nat.mod_mod n (2 ^ filter.p.toNat))] at stands
    obtain ⟨next, remainder, _⟩ := stands.read (Nat.mod_lt _ (Nat.two_pow_pos _)) (UInt8.le_of_lt short)
    have room := exact _ _ middle next quotient remainder
    rw [UInt64.toNat_ofNat_of_lt' fits] at room
    have amount : filter.p.toUInt64.toNat % 64 = filter.p.toNat :=
      Nat.mod_eq_of_lt (UInt8.lt_iff_toNat_lt.mp short)
    have low : n % 2 ^ filter.p.toNat < 2 ^ 64 := (Nat.mod_lt _ (Nat.two_pow_pos _)).trans
      (Nat.pow_lt_pow_right (by decide) (UInt8.lt_iff_toNat_lt.mp short))
    have sum : (UInt64.ofNat (n / 2 ^ filter.p.toNat) <<< filter.p.toUInt64).toNat +
        (UInt64.ofNat (n % 2 ^ filter.p.toNat)).toNat = n := by
      rw [UInt64.toNat_shiftLeft, amount, Nat.shiftLeft_eq, UInt64.toNat_ofNat_of_lt' fits,
        Nat.mod_eq_of_lt room, UInt64.toNat_ofNat_of_lt' low, Nat.div_add_mod']
    apply returns
    simp only [golombRiceDecode, quotient, pure_bind, remainder, lift_ok_bind, shift_of_lt short, sum]
    rw [checked, if_neg (not_lt.mpr large)]
    rfl
  · apply returns
    have none := decodeQuotient_overflow stands 0 (by omega : n / 2 ^ filter.p.toNat ≤ reader.available)
      (by simpa using beyond)
    rw [golombRiceDecode, ExceptT.run_bind, none]
    rfl

theorem decode_cut {ones : Nat} (cut : riceDecode filter.p.toNat bits = .error ones)
    (fits : ones < 2 ^ 64) :
    (filter.golombRiceDecode reader).run = some (.error .unexpectedEof) ∧ filter.Exact reader := by
  have length := stands.available_eq
  rcases riceDecode_eq_error.mp cut with rfl | ⟨low, rfl, few⟩
  · rw [List.length_replicate] at length
    have ended := decodeQuotient_ones stands 0 length.ge (by simpa using fits)
    constructor
    · rw [golombRiceDecode, ExceptT.run_bind, ended]
      rfl
    · intro q r middle next quotient _
      rw [quotient] at ended
      exact absurd (Option.some.inj ended) (by simp)
  · rw [List.length_append, List.length_replicate, List.length_cons] at length
    obtain ⟨middle, quotient, stands⟩ := decodeQuotient_spec stands 0
      (by omega : ones < reader.available)
      (by simpa using fits)
    have ended := stands.read_short (UInt8.le_of_lt short) few
    constructor
    · simp only [golombRiceDecode, quotient, pure_bind, ended]
      rfl
    · intro q r other next same remainder
      obtain ⟨_, rfl⟩ := Prod.mk.inj (run_pure_eq_ok.mp
        ((congrArg ExceptT.run (quotient.symm.trans same)).trans rfl))
      rw [ended] at remainder
      exact absurd remainder (by simp)

omit short in
theorem not_safe_of_cut {ones : Nat} (cut : riceDecode filter.p.toNat bits = .error ones)
    (large : 2 ^ 64 ≤ ones) : ¬ Returns (filter.golombRiceDecode reader) := by
  intro returns
  obtain ⟨rest, rfl⟩ : ∃ rest, bits = List.replicate ones true ++ rest := by
    rcases riceDecode_eq_error.mp cut with rfl | ⟨low, rfl, _⟩
    · exact ⟨[], (List.append_nil _).symm⟩
    · exact ⟨_, rfl⟩
  have length := stands.available_eq
  rw [List.length_append, List.length_replicate] at length
  have none := decodeQuotient_overflow stands 0 (by omega : ones ≤ reader.available)
    (by simpa using large)
  apply returns
  rw [golombRiceDecode, ExceptT.run_bind, none]
  rfl

/-- When a number is decoded and added to `base` within 64 bits, and what follows holds. -/
theorem decode_iff (base : Nat) (follows : UInt64 → BitStreamReader → Prop)
    (holds : Nat → List Bool → Prop)
    (same : ∀ {sum next rest}, next.Before rest → (follows sum next ↔ holds sum.toNat rest)) :
    (Returns (filter.golombRiceDecode reader) ∧ filter.Exact reader ∧
        ∀ delta next, filter.golombRiceDecode reader = pure (delta, next) →
          base + delta.toNat < 2 ^ 64 ∧ follows (UInt64.ofNat (base + delta.toNat)) next) ↔
      FitsWord base holds (riceDecode filter.p.toNat bits) := by
  cases code : riceDecode filter.p.toNat bits with
  | error ones =>
    constructor
    · intro safe
      by_contra large
      exact not_safe_of_cut stands code (not_lt.mp large) safe.1
    · intro fits
      obtain ⟨ended, exact⟩ := decode_cut short stands code fits
      refine ⟨?_, exact, fun delta next decoded => ?_⟩
      · rw [Returns, ended]
        exact Option.some_ne_none _
      · rw [decoded] at ended
        exact absurd (Option.some.inj ended) (by simp)
  | ok read =>
    obtain ⟨n, rest⟩ := read
    rcases Nat.lt_or_ge n (2 ^ 64) with fits | large
    · have spelled := riceDecode_eq_ok.mp code
      have value : (UInt64.ofNat n).toNat = n := UInt64.toNat_ofNat_of_lt' fits
      rw [← value] at spelled
      obtain ⟨last, decoded, reached⟩ := filter.golombRiceDecode_spec short (spelled ▸ stands)
      constructor
      · rintro ⟨_, _, each⟩
        obtain ⟨sum, later⟩ := each _ _ decoded
        rw [value] at sum later
        refine ⟨sum, ?_⟩
        rw [same reached, UInt64.toNat_ofNat_of_lt' sum] at later
        exact later
      · rintro ⟨sum, later⟩
        refine ⟨?_, exact_of_code stands code fits, fun delta next again => ?_⟩
        · rw [decoded]
          exact Option.some_ne_none _
        · obtain ⟨rfl, rfl⟩ :=
            Prod.mk.inj (run_pure_eq_ok.mp (congrArg ExceptT.run (decoded.symm.trans again)))
          rw [value, same reached, UInt64.toNat_ofNat_of_lt' sum]
          exact ⟨sum, later⟩
    · refine iff_of_false (fun safe => not_safe_of_code short stands code large ⟨safe.1, safe.2.1⟩) ?_
      exact fun safe => absurd safe.1 (not_lt.mpr (large.trans (Nat.le_add_left n base)))

end Decode

end GcsFilter

end Litecoin.Bip158
