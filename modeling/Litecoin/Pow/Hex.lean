import Litecoin.Units.Parse
import Litecoin.Pow.Arithmetic
import Litecoin.Wire.Endian
import Litecoin.Wire.Run

/-! Hexadecimal text of 256-bit integers (`pow.rs`), with the errors of `error.rs`. -/
namespace Litecoin.Pow
open Wire Litecoin.Units

inductive PrefixedHexError where
  | missingPrefix (hex : Text)
  | parseInt (error : ParseIntError)
deriving DecidableEq, Repr

inductive UnprefixedHexError where
  | containsPrefix (hex : Text)
  | parseInt (error : ParseIntError)
deriving DecidableEq, Repr

namespace U256

/-- The outer `none` is a slice that panics. -/
def fromHexInternal (s : Text) : ExceptT ParseIntError Option U256 :=
  if byteLen s ≤ 32 then do
    let low ← liftM (hexU128 s)
    pure ⟨0, low⟩
  else do
    let highLen := byteLen s - 32
    let highS ← orPanic (sliceTo highLen s)
    let lowS ← orPanic (sliceFrom highLen s)
    let high ← liftM (hexU128 highS)
    let low ← liftM (hexU128 lowS)
    pure ⟨high, low⟩

def fromHex (s : Text) : ExceptT PrefixedHexError Option U256 :=
  match s with
  | '0' :: 'x' :: stripped => ExceptT.mk ((fromHexInternal stripped).run.map
    (Except.mapError .parseInt))
  | '0' :: 'X' :: stripped => ExceptT.mk ((fromHexInternal stripped).run.map
    (Except.mapError .parseInt))
  | s => throw (.missingPrefix s)

def fromUnprefixedHex (s : Text) : ExceptT UnprefixedHexError Option U256 :=
  match s with
  | '0' :: 'x' :: _ => throw (.containsPrefix s)
  | '0' :: 'X' :: _ => throw (.containsPrefix s)
  | s => ExceptT.mk ((fromHexInternal s).run.map (Except.mapError .parseInt))

def toBeBytes (x : U256) : Bytes :=
  (littleEndian 16 x.high.toNat).reverse ++ (littleEndian 16 x.low.toNat).reverse

/-- `{:x}`, with the `fmt_hex_exact!` of the `hex` crate. -/
def lowerHex (fmtHexExact : Bytes → Text) (x : U256) : Text := fmtHexExact x.toBeBytes

end U256

/-- One prefix in front of a text. -/
def Prefixed (s text : Text) : Prop := s = '0' :: 'x' :: text ∨ s = '0' :: 'X' :: text

/-- A byte as two lower-case digits. -/
def hexByte (byte : UInt8) : Text := [hexDigitChar (byte.toNat / 16), hexDigitChar (byte.toNat % 16)]

def hexBytes (bytes : Bytes) : Text := bytes.flatMap hexByte

/-- A numeral of at most 64 digits after its leading zeros. -/
structure HexNumeral (s : Text) (v : U256) : Prop where
  spells : Spells charHexDigit 16 s v.toNat
  short : (s.dropWhile (· == '0')).length ≤ 64

/-- A parser that never panics and takes exactly the numerals. -/
structure ReadsExactly (parsed : ExceptT ε Option U256) (numeral : U256 → Prop) : Prop where
  returns : parsed.run ≠ none
  exact : ∀ v, parsed.run = some (.ok v) ↔ numeral v

/-- What the integer parsers skip in front of digits. -/
def marks : List Text := [[], ['+'], ['0', 'x'], ['0', 'x', '+'], ['0', 'X'], ['0', 'X', '+']]

/-- Digits of 128 bits behind skipped characters. -/
def Marked (piece : Text) (n : Nat) : Prop :=
  ∃ mark ∈ marks, ∃ digits, piece = mark ++ digits ∧ Spells charHexDigit 16 digits n ∧ n < 2 ^ 128

/-- A text of more than 32 bytes is cut 32 bytes before its end. -/
structure Halves (s high low : Text) : Prop where
  joined : s = high ++ low
  low_le : byteLen low ≤ 32
  full : high ≠ [] → byteLen low = 32

/-- The cut lies between two characters, and the halves do not read unless they are digits only. -/
def Plain (s : Text) : Prop :=
  ∃ high low, Halves s high low ∧
    ((high = [] ∨ ∃ n, Marked high n) → (∃ n, Marked low n) → AllDigits charHexDigit s)

section
variable {s high low digits : Text} {v : U256}

theorem ne_prefix_of_digits (numeral : AllDigits charHexDigit s) (rest : Text) :
    s ≠ '0' :: 'x' :: rest ∧ s ≠ '0' :: 'X' :: rest := by
  constructor
  all_goals
    rintro rfl
    have bad := (AllDigits.cons.mp (AllDigits.cons.mp numeral).2).1
    obtain ⟨d, read⟩ := bad
    contradiction

theorem stripHexPrefix_of_ne (plain : ∀ rest, s ≠ '0' :: 'x' :: rest ∧ s ≠ '0' :: 'X' :: rest) :
    stripHexPrefix s = s := by
  rw [stripHexPrefix.eq_def]
  split
  · exact absurd rfl (plain _).1
  · exact absurd rfl (plain _).2
  · rfl

/-- `hex_u128` takes digits of 128 bits, and skips the characters in front of them. -/
theorem hexU128_eq_ok {value : BitVec 128} : hexU128 s = .ok value ↔ Marked s value.toNat := by
  have number : hexU128 s = .ok value ↔ fromStrRadix charHexDigit 16 128 (stripHexPrefix s) =
    .ok value.toNat := by
    rw [hexU128]
    cases parsed : fromStrRadix charHexDigit 16 128 (stripHexPrefix s) with
    | error source => exact ⟨nofun, nofun⟩
    | ok n =>
      obtain ⟨-, -, -, fits⟩ := (fromStrRadix_eq_ok hexadecimal).mp parsed
      simp only [Except.ok.injEq, ← BitVec.toNat_inj, BitVec.toNat_ofNat, Nat.mod_eq_of_lt fits]
  rw [number, fromStrRadix_eq_ok hexadecimal]
  constructor
  · rintro ⟨digits, signed, spells, fits⟩
    rw [stripHexPrefix.eq_def] at signed
    split at signed
    · rcases signed with rfl | rfl
      · exact ⟨['0', 'x'], by simp [marks], _, rfl, spells, fits⟩
      · exact ⟨['0', 'x', '+'], by simp [marks], digits, rfl, spells, fits⟩
    · rcases signed with rfl | rfl
      · exact ⟨['0', 'X'], by simp [marks], _, rfl, spells, fits⟩
      · exact ⟨['0', 'X', '+'], by simp [marks], digits, rfl, spells, fits⟩
    · rcases signed with rfl | rfl
      · exact ⟨[], by simp [marks], _, rfl, spells, fits⟩
      · exact ⟨['+'], by simp [marks], digits, rfl, spells, fits⟩
  · rintro ⟨mark, known, digits, rfl, spells, fits⟩
    refine ⟨digits, ?_, spells, fits⟩
    have unmarked := ne_prefix_of_digits spells.digits
    simp only [marks, List.mem_cons, List.not_mem_nil, or_false] at known
    rcases known with rfl | rfl | rfl | rfl | rfl | rfl
    · exact .inl (stripHexPrefix_of_ne unmarked)
    · exact .inr (stripHexPrefix_of_ne fun rest => ⟨by simp, by simp⟩)
    · exact .inl rfl
    · exact .inr rfl
    · exact .inl rfl
    · exact .inr rfl

theorem bare_of_digits : ∀ mark ∈ marks, mark.all (fun c => (charHexDigit c).isSome) → mark = [] := by
  decide

/-- Digits have nothing in front of them. -/
theorem marked_of_digits (numeral : AllDigits charHexDigit s) {n : Nat} :
    Marked s n ↔ Spells charHexDigit 16 s n ∧ n < 2 ^ 128 := by
  constructor
  · rintro ⟨mark, known, digits, rfl, spells, fits⟩
    obtain rfl := bare_of_digits mark known (List.all_eq_true.mpr (AllDigits.append.mp numeral).1)
    exact ⟨spells, fits⟩
  · rintro ⟨spells, fits⟩
    exact ⟨[], by simp [marks], s, rfl, spells, fits⟩

theorem halves_of_short (short : byteLen s ≤ 32) : Halves s high low ↔ high = [] ∧ low = s := by
  constructor
  · rintro ⟨rfl, -, full⟩
    suffices none : high = [] by
      subst none
      exact ⟨rfl, rfl⟩
    by_contra some
    rw [byteLen_append, full some] at short
    exact some (byteLen_eq_zero.mp (by omega))
  · rintro ⟨rfl, rfl⟩
    exact ⟨rfl, short, fun some => absurd rfl some⟩

theorem halves_of_long (long : ¬ byteLen s ≤ 32) : Halves s high low ↔
    sliceTo (byteLen s - 32) s = some high ∧ sliceFrom (byteLen s - 32) s = some low := by
  constructor
  · rintro ⟨joined, low_le, full⟩
    have size : byteLen high = byteLen s - 32 := by
      have total : byteLen s = byteLen high + byteLen low := by rw [joined, byteLen_append]
      have some : high ≠ [] := by
        rintro rfl
        exact long (by rw [joined]; exact low_le)
      rw [full some] at total
      omega
    exact ⟨sliceTo_eq_some.mpr ⟨low, joined, size⟩, sliceFrom_eq_some.mpr ⟨high, joined, size⟩⟩
  · rintro ⟨upper, lower⟩
    obtain ⟨front, joined, size⟩ := sliceFrom_eq_some.mp lower
    obtain rfl : front = high := Option.some.inj
      ((sliceTo_eq_some.mpr ⟨low, joined, size⟩).symm.trans upper)
    have total : byteLen s = byteLen front + byteLen low := by rw [joined, byteLen_append]
    have rest : byteLen low = 32 := by omega
    exact ⟨joined, rest.le, fun _ => rest⟩

/-- A number of one half only has no upper half. -/
def readUpper (high : Text) : Except ParseIntError (BitVec 128) := if high =
    [] then .ok 0 else hexU128 high

/-- The two halves read one by one. -/
def readHalves (high low : Text) : Except ParseIntError U256 := do
  let upper ← readUpper high
  let lower ← hexU128 low
  .ok ⟨upper, lower⟩

theorem run_fromHexInternal (halves : Halves s high low) :
    (U256.fromHexInternal s).run = some (readHalves high low) := by
  rw [U256.fromHexInternal]
  split_ifs with short
  · obtain ⟨rfl, rfl⟩ := (halves_of_short short).mp halves
    cases read : hexU128 low <;> simp only [readHalves, readUpper, if_true, read] <;> rfl
  · obtain ⟨upper, lower⟩ := (halves_of_long short).mp halves
    have some : high ≠ [] := by
      rintro rfl
      obtain ⟨joined, low_le, -⟩ := halves
      exact short (joined ▸ low_le)
    dsimp only
    rw [upper, lower, readHalves, readUpper, if_neg some, orPanic_bind, orPanic_bind]
    cases hexU128 high with
    | error e => rfl
    | ok upper =>
      cases hexU128 low <;> rfl

theorem exists_halves (returns : (U256.fromHexInternal s).run ≠ none) : ∃ high low,
    Halves s high low := by
  by_cases short : byteLen s ≤ 32
  · exact ⟨[], s, (halves_of_short short).mpr ⟨rfl, rfl⟩⟩
  · rw [U256.fromHexInternal, if_neg short] at returns
    dsimp only at returns
    cases upper : sliceTo (byteLen s - 32) s with
    | none =>
      rw [upper] at returns
      exact absurd rfl returns
    | some high =>
      cases lower : sliceFrom (byteLen s - 32) s with
      | none =>
        rw [upper, lower] at returns
        exact absurd rfl returns
      | some low => exact ⟨high, low, (halves_of_long short).mpr ⟨upper, lower⟩⟩

theorem readUpper_eq_ok {value : BitVec 128} :
    readUpper high = .ok value ↔ if high = [] then value = 0 else Marked high value.toNat := by
  rw [readUpper]
  split_ifs
  · exact ⟨fun same => (Except.ok.inj same).symm, fun zero => congrArg _ zero.symm⟩
  · exact hexU128_eq_ok

theorem readHalves_eq_ok : readHalves high low = .ok v ↔
    (if high = [] then v.high = 0 else Marked high v.high.toNat) ∧ Marked low v.low.toNat := by
  rw [← readUpper_eq_ok, ← hexU128_eq_ok, readHalves, bind_eq_ok]
  constructor
  · rintro ⟨upper, first, parsed⟩
    obtain ⟨lower, second, parsed⟩ := bind_eq_ok.mp parsed
    obtain rfl := Except.ok.inj parsed
    exact ⟨first, second⟩
  · rintro ⟨first, second⟩
    exact ⟨v.high, first, bind_eq_ok.mpr ⟨v.low, second, rfl⟩⟩

theorem exists_readHalves : (∃ v, readHalves high low = .ok v) ↔
    (high = [] ∨ ∃ n, Marked high n) ∧ ∃ n, Marked low n := by
  constructor
  · rintro ⟨v, read⟩
    obtain ⟨upper, lower⟩ := readHalves_eq_ok.mp read
    refine ⟨?_, _, lower⟩
    split_ifs at upper with none
    · exact .inl none
    · exact .inr ⟨_, upper⟩
  · -- a marked number has 128 bits
    have half {piece : Text} {n : Nat} (marked : Marked piece n) : Marked piece
      (BitVec.ofNat 128 n).toNat := by
      obtain ⟨-, -, -, -, -, fits⟩ := id marked
      rwa [BitVec.toNat_ofNat, Nat.mod_eq_of_lt fits]
    rintro ⟨upper, l, lower⟩
    by_cases none : high = []
    · exact ⟨⟨0, BitVec.ofNat 128 l⟩, readHalves_eq_ok.mpr ⟨by rw [if_pos none], half lower⟩⟩
    · obtain ⟨h, upper⟩ := upper.resolve_left none
      exact ⟨⟨BitVec.ofNat 128 h, BitVec.ofNat 128 l⟩,
        readHalves_eq_ok.mpr ⟨by rw [if_neg none]; exact half upper, half lower⟩⟩

theorem hexNumeral_iff : HexNumeral s v ↔ Spells charHexDigit 16 s v.toNat := by
  refine ⟨HexNumeral.spells, fun spells => ⟨spells, ?_⟩⟩
  rw [hexadecimal.length_le_iff spells]
  exact v.toNat_lt

theorem length_of_digits (numeral : AllDigits charHexDigit s) : byteLen s = s.length :=
  hexadecimal.sum_utf8Size numeral

/-- Halves of digits are read as the number that they denote together. -/
theorem readHalves_of_digits (halves : Halves s high low) (numeral : AllDigits charHexDigit s) :
    readHalves high low = .ok v ↔ HexNumeral s v := by
  obtain ⟨rfl, low_le, full⟩ := halves
  obtain ⟨upper, lower⟩ := AllDigits.append.mp numeral
  have highFits := v.high.isLt
  have lowFits := v.low.isLt
  have below := hexadecimal.textNumber_lt lower
  rw [length_of_digits lower] at low_le full
  rw [readHalves_eq_ok, hexNumeral_iff, marked_of_digits lower, marked_of_digits upper,
    and_iff_left lowFits, and_iff_left highFits]
  by_cases none : high = []
  · subst none
    have small : 16 ^ low.length ≤ 2 ^ 128 := Nat.pow_le_pow_right (by decide) low_le
    rw [if_pos rfl, List.nil_append]
    constructor
    · rintro ⟨zero, spells⟩
      refine ⟨spells.nonempty, lower, ?_⟩
      rw [spells.value, U256.toNat, zero]
      exact (Nat.zero_add _).symm
    · rintro ⟨nonempty, -, value⟩
      rw [U256.toNat] at value
      have zero : v.high.toNat = 0 := by omega
      refine ⟨BitVec.eq_of_toNat_eq zero, nonempty, lower, ?_⟩
      omega
  · have size := full none
    have some : low ≠ [] := by
      rintro rfl
      contradiction
    have base : (16 : Nat) ^ 32 = 2 ^ 128 := by decide
    rw [size, base] at below
    rw [if_neg none]
    constructor
    · rintro ⟨first, second⟩
      refine ⟨List.append_ne_nil_of_right_ne_nil _ some, numeral, ?_⟩
      rw [textNumber_append, size, base, first.value, second.value, U256.toNat]
    · rintro ⟨-, -, value⟩
      rw [textNumber_append, size, base, U256.toNat] at value
      exact ⟨⟨none, upper, by omega⟩, some, lower, by omega⟩

/-- What the parser behind a prefix takes. -/
theorem fromHexInternal_reads :
    ReadsExactly (U256.fromHexInternal s) (HexNumeral s) ↔ Plain s := by
  constructor
  · rintro ⟨returns, exact⟩
    obtain ⟨high, low, halves⟩ := exists_halves returns
    refine ⟨high, low, halves, fun upper lower => ?_⟩
    obtain ⟨v, read⟩ := exists_readHalves.mpr ⟨upper, lower⟩
    have returned := run_fromHexInternal halves
    rw [read] at returned
    exact ((exact v).mp returned).spells.digits
  · rintro ⟨high, low, halves, digits⟩
    have returned := run_fromHexInternal halves
    refine ⟨by rw [returned]; exact Option.some_ne_none _, fun v => ?_⟩
    rw [returned, Option.some.injEq]
    constructor
    · intro read
      obtain ⟨upper, lower⟩ := exists_readHalves.mp ⟨v, read⟩
      exact (readHalves_of_digits halves (digits upper lower)).mp read
    · intro numeral
      exact (readHalves_of_digits halves numeral.spells.digits).mpr numeral

theorem readsExactly_mapError {parsed : ExceptT ε Option U256} {f : ε → ε'} {numeral : U256 → Prop} :
    ReadsExactly (ExceptT.mk (parsed.run.map (Except.mapError f))) numeral ↔
      ReadsExactly parsed numeral := by
  have returns : (ExceptT.mk (parsed.run.map (Except.mapError f))).run ≠ none ↔ parsed.run ≠ none := by
    rw [ExceptT.run_mk, Ne, Option.map_eq_none_iff]
  constructor
  · rintro ⟨mapped, exact⟩
    exact ⟨returns.mp mapped, fun v => run_mapError_eq_ok.symm.trans (exact v)⟩
  · rintro ⟨inner, exact⟩
    exact ⟨returns.mpr inner, fun v => run_mapError_eq_ok.trans (exact v)⟩

theorem readsExactly_throw {e : ε} {numeral : U256 → Prop} (never : ∀ v, ¬ numeral v) :
    ReadsExactly (throw e : ExceptT ε Option U256) numeral :=
  ⟨Option.some_ne_none _, fun v => ⟨fun failed => absurd (Option.some.inj failed) nofun,
    fun read => absurd read (never v)⟩⟩

theorem fromUnprefixedHex_reads : ReadsExactly (U256.fromUnprefixedHex s) (HexNumeral s) ↔
    (∃ text, Prefixed s text) ∨ Plain s := by
  have never {text : Text} (before : Prefixed s text) (v : U256) : ¬ HexNumeral s v := fun numeral =>
    before.elim (ne_prefix_of_digits numeral.spells.digits text).1
      (ne_prefix_of_digits numeral.spells.digits text).2
  rw [U256.fromUnprefixedHex.eq_def]
  split
  · exact ⟨fun _ => .inl ⟨_, .inl rfl⟩, fun _ => readsExactly_throw (never (.inl rfl))⟩
  · exact ⟨fun _ => .inl ⟨_, .inr rfl⟩, fun _ => readsExactly_throw (never (.inr rfl))⟩
  · next plain₁ plain₂ =>
    have bare : ¬ ∃ text, Prefixed s text := by
      rintro ⟨text, same | same⟩
      · exact plain₁ text same
      · exact plain₂ text same
    rw [readsExactly_mapError, fromHexInternal_reads, or_iff_right bare]

theorem fromHex_reads :
    ReadsExactly (U256.fromHex s) (fun v => ∃ text, Prefixed s text ∧ HexNumeral text v) ↔
      ∀ text, Prefixed s text → Plain text := by
  -- there is one way to strip a prefix
  have stripped {text : Text} (before : Prefixed s text) :
      (fun v => ∃ text, Prefixed s text ∧ HexNumeral text v) = HexNumeral text ∧
        ((∀ text, Prefixed s text → Plain text) ↔ Plain text) := by
    have only {other : Text} (same : Prefixed s other) : other = text := by
      rcases before with rfl | rfl <;> rcases same with same | same <;> simp_all
    refine ⟨funext fun v => propext ⟨?_, fun numeral => ⟨text, before, numeral⟩⟩,
      fun every => every text before, fun plain other same => only same ▸ plain⟩
    rintro ⟨other, same, numeral⟩
    exact only same ▸ numeral
  rw [U256.fromHex.eq_def]
  split
  · obtain ⟨same, every⟩ := stripped (.inl rfl)
    rw [same, every, readsExactly_mapError, fromHexInternal_reads]
  · obtain ⟨same, every⟩ := stripped (.inr rfl)
    rw [same, every, readsExactly_mapError, fromHexInternal_reads]
  · next plain₁ plain₂ =>
    have bare {text : Text} : ¬ Prefixed s text := by
      rintro (same | same)
      · exact plain₁ text same
      · exact plain₂ text same
    exact ⟨fun _ text before => absurd before bare,
      fun _ => readsExactly_throw fun v ⟨text, before, _⟩ => bare before⟩

theorem spells_hexByte (byte : UInt8) : Spells charHexDigit 16 (hexByte byte) byte.toNat := by
  have bound := byte.toNat_lt
  have upper := charHexDigit_hexDigitChar (byte.toNat / 16) (by omega)
  have lower := charHexDigit_hexDigitChar (byte.toNat % 16) (by omega)
  refine ⟨nofun, AllDigits.cons.mpr ⟨⟨_, upper⟩, AllDigits.cons.mpr ⟨⟨_, lower⟩, nofun⟩⟩, ?_⟩
  rw [hexByte, textNumber_cons upper, textNumber_cons lower]
  show byte.toNat / 16 * 16 ^ 1 + (byte.toNat % 16 * 16 ^ 0 + 0) = byte.toNat
  omega

/-- The bytes of a big-endian number are its digits, two each. -/
theorem spells_hexBytes {bytes : Bytes} (some : bytes ≠ []) :
    Spells charHexDigit 16 (hexBytes bytes) (fromLittleEndian bytes.reverse) := by
  induction bytes using List.reverseRecOn with
  | nil => contradiction
  | append_singleton init last ih =>
    have byte := spells_hexByte last
    have shape : hexBytes (init ++ [last]) = hexBytes init ++ hexByte last := by
      rw [hexBytes, List.flatMap_append, List.flatMap_singleton, hexBytes]
    rw [shape, List.reverse_concat, fromLittleEndian]
    by_cases first : init = []
    · subst first
      exact byte
    · obtain ⟨nonempty, digits, value⟩ := ih first
      refine ⟨List.append_ne_nil_of_left_ne_nil nonempty _, AllDigits.append.mpr ⟨digits,
        byte.digits⟩, ?_⟩
      rw [textNumber_append, value, byte.value]
      show _ * 16 ^ 2 + _ = _
      omega

theorem fromLittleEndian_toBeBytes (v : U256) : fromLittleEndian v.toBeBytes.reverse = v.toNat := by
  have base : (256 : Nat) ^ 16 = 2 ^ 128 := by decide
  rw [U256.toBeBytes, List.reverse_append, List.reverse_reverse, List.reverse_reverse,
    fromLittleEndian_append,
    littleEndian_length, fromLittleEndian_littleEndian (base ▸ v.low.isLt),
    fromLittleEndian_littleEndian (base ▸ v.high.isLt), base, U256.toNat, Nat.add_comm, Nat.mul_comm]

/-- What is printed is the number, in 64 digits. -/
theorem hexNumeral_lowerHex (v : U256) : HexNumeral (hexBytes v.toBeBytes) v := by
  have some : v.toBeBytes ≠ [] := by simp [U256.toBeBytes, littleEndian]
  have digits := spells_hexBytes some
  rwa [fromLittleEndian_toBeBytes, ← hexNumeral_iff] at digits

/-- Digits are cut anywhere. -/
theorem plain_of_digits (numeral : AllDigits charHexDigit s) : Plain s := by
  have cut (n : Nat) : AllDigits charHexDigit (s.take n) ∧ AllDigits charHexDigit (s.drop n) := by
    rw [← AllDigits.append, List.take_append_drop]
    exact numeral
  refine ⟨s.take (s.length - 32), s.drop (s.length - 32), ⟨(List.take_append_drop _ s).symm, ?_,
    fun some => ?_⟩,
    fun _ _ => numeral⟩
  · rw [length_of_digits (cut _).2, List.length_drop]
    omega
  · have long : ¬ s.length ≤ 32 := fun short => some (by rw [Nat.sub_eq_zero_of_le short,
      List.take_zero])
    rw [length_of_digits (cut _).2, List.length_drop]
    omega

end

/-- Text is read as a hexadecimal numeral exactly when it is cut between two characters and no half is a
number only by what the integer parsers skip; printed integers are read back. -/
theorem hex_reads_iff (fmtHexExact : Bytes → Text)
    (twoDigits : ∀ bytes, fmtHexExact bytes = hexBytes bytes) :
    (∀ s, ReadsExactly (U256.fromUnprefixedHex s) (HexNumeral s) ↔
    (∃ text, Prefixed s text) ∨ Plain s) ∧
    (∀ s, ReadsExactly (U256.fromHex s) (fun v => ∃ text, Prefixed s text ∧ HexNumeral text v) ↔
      ∀ text, Prefixed s text → Plain text) ∧
    ∀ v : U256, (U256.fromUnprefixedHex (v.lowerHex fmtHexExact)).run = some (.ok v) ∧
      (U256.fromHex ('0' :: 'x' :: v.lowerHex fmtHexExact)).run = some (.ok v) := by
  refine ⟨fun s => fromUnprefixedHex_reads, fun s => fromHex_reads, fun v => ?_⟩
  have numeral : HexNumeral (v.lowerHex fmtHexExact) v := by
    rw [U256.lowerHex, twoDigits]
    exact hexNumeral_lowerHex v
  have plain := plain_of_digits numeral.spells.digits
  constructor
  · exact ((fromUnprefixedHex_reads.mpr (.inr plain)).exact v).mpr numeral
  · have only (text : Text) (before : Prefixed ('0' :: 'x' :: v.lowerHex fmtHexExact) text) :
      Plain text := by
      rcases before with same | same
      · exact (List.cons.inj (List.cons.inj same).2).2 ▸ plain
      · simp at same
    exact ((fromHex_reads.mpr only).exact v).mpr ⟨_, .inl rfl, numeral⟩

/-- A value with 39 digits. -/
def wide : U256 := ⟨0x123456f, 0x00e1d2c3b4a5968778695a4b3c2d1e0f⟩

theorem hex_reads_iff_wide :
    wide.lowerHex hexBytes = List.replicate 25 '0' ++ "123456f00e1d2c3b4a5968778695a4b3c2d1e0f".toList ∧
    (U256.fromUnprefixedHex (wide.lowerHex hexBytes)).run = some (.ok wide) ∧
    (U256.fromHex ('0' :: 'x' :: wide.lowerHex hexBytes)).run = some (.ok wide) :=
  ⟨by decide +kernel, (hex_reads_iff hexBytes fun _ => rfl).2.2 wide⟩

/-- A plus is taken for a part of a number. -/
theorem fromUnprefixedHex_plus : ¬ ReadsExactly (U256.fromUnprefixedHex ['+', '1'])
    (HexNumeral ['+', '1']) := by
  rintro ⟨-, exact⟩
  have read : (U256.fromUnprefixedHex ['+', '1']).run = some (.ok ⟨0, 1⟩) := by decide
  obtain ⟨⟨-, digits, -⟩, -⟩ := (exact _).mp read
  exact absurd (digits '+' List.mem_cons_self) (by decide)

example : (U256.fromUnprefixedHex ('é' :: List.replicate 31 'a')).run = none := by decide

end Litecoin.Pow
