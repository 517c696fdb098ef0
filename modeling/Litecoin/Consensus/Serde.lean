import Litecoin.Consensus.IterReader
import Litecoin.Wire.Radix

/-! Decoding from hexadecimal digits (`consensus/encode.rs`) and through serde
(`consensus/serde.rs`). -/
namespace Litecoin.Consensus
open Wire Io
open Wire.Process (Stop)

/-- `hex::OddLengthStringError`. -/
structure OddLengthStringError where
  length : Nat

/-- `hex::InvalidCharError`. -/
structure InvalidCharError where
  invalidChar : UInt8
  pos : Nat

/-- `hex::HexSliceToBytesIter::new`, with what the iterator yields. -/
abbrev HexToBytes : Type := String → Except OddLengthStringError (List (Except InvalidCharError UInt8))

/-- `str::as_bytes`. -/
def stringBytes (s : String) : Bytes := s.toUTF8.data.toList

/-- The value of a digit in ASCII. -/
def asciiHexDigit (byte : UInt8) : Option Nat := charHexDigit (Char.ofNat byte.toNat)

/-- The byte that two digits spell. -/
def hexPair (high low : UInt8) : Option UInt8 := do
  let high ← asciiHexDigit high
  let low ← asciiHexDigit low
  pure (UInt8.ofNat (16 * high + low))

/-- The bytes that an even number of digits spells. -/
def hexSpelled : Bytes → Option Bytes
  | [] => some []
  | [_] => none
  | high :: low :: digits => do
    let byte ← hexPair high low
    let bytes ← hexSpelled digits
    pure (byte :: bytes)

/-- For each pair the byte that it spells, or an error where one of the two is no digit. -/
inductive PairByPair : Bytes → List (Except InvalidCharError UInt8) → Prop where
  | nil : PairByPair [] []
  | byte (spells : hexPair high low = some byte) (rest : PairByPair digits items) :
      PairByPair (high :: low :: digits) (.ok byte :: items)
  | bad (e : InvalidCharError) (spells : hexPair high low = none) (rest : PairByPair digits items) :
      PairByPair (high :: low :: digits) (.error e :: items)

/-- What the `hex` crate promises: an odd length is an error, and an even one is read pair by
pair. -/
structure HexToBytes.Documented (newIter : HexToBytes) : Prop where
  odd : ∀ s, (stringBytes s).length % 2 = 1 → ∃ e, newIter s = .error e
  even : ∀ s, (stringBytes s).length % 2 = 0 → ∃ items, newIter s = .ok items ∧
    PairByPair (stringBytes s) items

namespace PairByPair
variable {digits bytes : Bytes} {items : List (Except InvalidCharError UInt8)}

theorem length (pairs : PairByPair digits items) : 2 * items.length = digits.length := by
  induction pairs with
  | nil => rfl
  | byte _ _ ih | bad _ _ _ ih =>
    simp only [List.length_cons]
    omega

theorem eq_map_ok_iff (pairs : PairByPair digits items) :
    items = bytes.map .ok ↔ hexSpelled digits = some bytes := by
  induction pairs generalizing bytes with
  | nil => cases bytes <;> simp [hexSpelled]
  | byte spells _ ih =>
    cases bytes with
    | nil => simp [hexSpelled, spells, Option.bind_eq_some_iff]
    | cons first bytes => simp [hexSpelled, spells, ih, Option.bind_eq_some_iff, and_comm]
  | bad e spells _ ih => cases bytes <;> simp [hexSpelled, spells]

end PairByPair

theorem hexSpelled_even {digits bytes : Bytes} (spells : hexSpelled digits = some bytes) :
    digits.length % 2 = 0 := by
  induction digits using hexSpelled.induct generalizing bytes with
  | case1 => rfl
  | case2 => contradiction
  | case3 high low digits ih =>
    rw [hexSpelled] at spells
    obtain ⟨byte, -, spells⟩ := Option.bind_eq_some_iff.mp spells
    obtain ⟨rest, tail, -⟩ := Option.bind_eq_some_iff.mp spells
    have even := ih tail
    simp only [List.length_cons]
    omega

/-- `map_err`, where the error may become a panic. -/
def mapStop (f : ε → Stop δ) : Except (Stop ε) α → Except (Stop δ) α
  | .ok a => .ok a
  | .error .panic => .error .panic
  | .error (.error e) => .error (f e)

inductive FromHexError where
  | oddLengthString (e : OddLengthStringError)
  | decode (e : DecodeError InvalidCharError)

def deserializeHex (newIter : HexToBytes) (target : Target) (p : Program Error α) (hex : String) :
    Except (Stop FromHexError) α :=
  match newIter hex with
  | .error e => .error (.error (.oddLengthString e))
  | .ok iterator =>
    mapStop (fun e => .error (.decode e)) (IterReader.decode target p (.new iterator))

namespace Serde

/-- `serde::de::Unexpected`. -/
inductive Unexpected where
  | bytes (bytes : Bytes)
  | unsigned (n : UInt64)
  | char (c : Char)

/-- `serde::de::Expected`; a `checksum` is shown with its four bytes in hexadecimal digits. -/
inductive Expected where
  | text (text : String)
  | checksum (bytes : Bytes)

/-- The methods of `serde::de::Error` that errors are made with. -/
inductive DeError where
  | custom (message : String)
  | invalidValue (unexpected : Unexpected) (expected : Expected)
  | invalidLength (length : Nat) (expected : Expected)

def consensusErrorIntoSerde : Fault Error → Stop DeError
  | .io _ | .other (.io _) => .panic
  | .other (.oversizedVectorAllocation requested max) => .error (.custom
      s!"the requested allocation of {requested} items exceeds maximum of {max}")
  | .other (.invalidChecksum expected actual) =>
    .error (.invalidValue (.bytes actual) (.checksum expected))
  | .other .nonMinimalVarInt => .error (.custom "compact size was not encoded minimally")
  | .other (.parseFailed message) => .error (.custom message)
  | .other (.unsupportedSegwitFlag flag) =>
    .error (.invalidValue (.unsigned flag.toUInt64) (.text "segwit version 1 flag"))

/-- `DecodeError::unify`. -/
def unify : DecodeError DeError → Stop DeError
  | .other e => .error e
  | .tooManyBytes => .error (.custom "got more bytes than expected")
  | .consensus fault => consensusErrorIntoSerde fault

/-- `IntoDeError for DecodeError`, for an error that converts without a panic. -/
def intoDeError (convert : E → DeError) : DecodeError E → Stop DeError
  | .other e => .error (convert e)
  | .tooManyBytes => .error (.custom "got more bytes than expected")
  | .consensus fault => consensusErrorIntoSerde fault

/-- `IntoDeError for DecodeInitError`. -/
def initIntoDeError (e : OddLengthStringError) : DeError :=
  .invalidLength e.length (.text "an even number of ASCII-encoded hex digits")

/-- `IntoDeError for hex::DecodeError`. -/
def charIntoDeError (e : InvalidCharError) : DeError :=
  if e.invalidChar < 128 then
    .invalidValue (.char (Char.ofNat e.invalidChar.toNat)) (.text "an ASCII-encoded hex digit")
  else .invalidValue (.unsigned e.invalidChar.toUInt64) (.text "an ASCII-encoded hex digit")

/-- What a deserializer hands to a visitor: a string where it is human readable, else a sequence
of bytes, which may fail. -/
inductive Input where
  | str (s : String)
  | seq (items : List (Except DeError UInt8))

/-- `With::<Hex>::deserialize`. -/
def deserialize (newIter : HexToBytes) (target : Target) (p : Program Error α) :
    Input → Except (Stop DeError) α
  | .str s => match newIter s with
    | .error e => .error (.error (initIntoDeError e))
    | .ok iterator => mapStop (intoDeError charIntoDeError) (IterReader.decode target p (.new iterator))
  | .seq items => mapStop unify (IterReader.decode target p (.new items))

theorem consensusErrorIntoSerde_own {e : Error} (own : e.Own) :
    consensusErrorIntoSerde (.other e) ≠ .panic := by
  cases e with
  | io io => exact absurd rfl (own io)
  | oversizedVectorAllocation => exact nofun
  | invalidChecksum => exact nofun
  | nonMinimalVarInt => exact nofun
  | parseFailed => exact nofun
  | unsupportedSegwitFlag => exact nofun

end Serde

theorem mapStop_eq_ok {f : ε → Stop δ} {result : Except (Stop ε) α} :
    mapStop f result = .ok a ↔ result = .ok a := by
  rcases result with (_ | e) | a'
  · simp [mapStop]
  · simp [mapStop]
  · simp only [mapStop, Except.ok.injEq]

theorem mapStop_eq_panic {f : ε → Stop δ} {result : Except (Stop ε) α} :
    mapStop f result = .error .panic ↔
      result = .error .panic ∨ ∃ e, result = .error (.error e) ∧ f e = .panic := by
  rcases result with (_ | e) | a
  · exact iff_of_true rfl (.inl rfl)
  · simp [mapStop]
  · exact iff_of_false nofun (by rintro (_ | ⟨_, _, _⟩) <;> contradiction)

/-- Short inputs do not meet the limit. -/
theorem consensusDecode_eq (d : Decoder Error α) {bytes : Bytes} (short : bytes.length ≤ maxVecSize) :
    consensusDecode d bytes = d bytes := by
  rw [consensusDecode, Decoder.take, List.take_of_length_le short, List.drop_of_length_le short]
  cases d bytes with
  | error e => rfl
  | ok read => simp only [List.append_nil]

theorem deserialize_eq_eof {d : Decoder Error α} {bytes : Bytes} :
    deserialize d bytes = .error (.io .unexpectedEof) ↔ d bytes = .error (.io .unexpectedEof) := by
  rw [deserialize, Decoder.whole]
  rcases d bytes with e | ⟨a, _ | _⟩
  · simp only [Except.error.injEq]
  · simp
  · simp

namespace IterReader
variable {d : Decoder Error α} {target : Target} {iterator : List (Except E UInt8)}

/-- The iterator yields these bytes and ends. -/
def Yields (iterator : List (Except E UInt8)) (bytes : Bytes) : Prop := iterator = bytes.map .ok

theorem verdict_short (streamed : Streamed d) (wide : target.width = .w64)
    (short : iterator.length ≤ maxVecSize) :
    Verdict iterator (d (good iterator)) (decode target streamed.program (new iterator)) := by
  have verdict := decode_verdict streamed wide iterator
  rwa [consensusDecode_eq d (Nat.le_trans (good_length_le iterator) short)] at verdict

theorem decode_eq_ok (streamed : Streamed d) (wide : target.width = .w64)
    (short : iterator.length ≤ maxVecSize) :
    decode target streamed.program (new iterator) = .ok a ↔
      ∃ bytes, Yields iterator bytes ∧ deserialize d bytes = .ok a := by
  have verdict := verdict_short streamed wide short
  constructor
  · intro returned
    rw [returned] at verdict
    generalize sliced : d (good iterator) = slice at verdict
    cases verdict with
    | value consumed => exact ⟨good iterator, consumed, deserialize_eq_ok.mpr sliced⟩
  · rintro ⟨bytes, rfl, read⟩
    rw [good_map_ok, deserialize_eq_ok.mp read] at verdict
    generalize decode target streamed.program _ = result at verdict
    cases verdict with
    | value => rfl
    | excess more => exact absurd (bad_map_ok bytes) (more.resolve_left (absurd rfl))

theorem decode_ne_panic (streamed : Streamed d) (wide : target.width = .w64)
    (iterator : List (Except E UInt8)) :
    decode target streamed.program (new iterator) ≠ .error .panic := by
  intro panics
  have verdict := decode_verdict streamed wide iterator
  rw [panics] at verdict
  generalize consensusDecode d (good iterator) = slice at verdict
  cases verdict

/-- A result that serde's conversion panics on stands for bytes that end too early. -/
theorem decode_truncated (streamed : Streamed d) (wide : target.width = .w64)
    (short : iterator.length ≤ maxVecSize) :
    (∃ fault, decode target streamed.program (new iterator) = .error (.error (.consensus fault)) ∧
        Serde.consensusErrorIntoSerde fault = .panic) ↔
      ∃ bytes, Yields iterator bytes ∧ deserialize d bytes = .error (.io .unexpectedEof) := by
  have verdict := verdict_short streamed wide short
  constructor
  · rintro ⟨fault, returned, panics⟩
    rw [returned] at verdict
    generalize sliced : d (good iterator) = slice at verdict
    cases verdict with
    | refused own => exact absurd panics (Serde.consensusErrorIntoSerde_own own)
    | ended ends =>
      have clean : bad iterator = none := by
        refine ends.elim id fun met => Option.eq_none_iff_forall_ne_some.mpr fun fails ends => ?_
        exact absurd (good_length_lt ends) (Nat.not_lt.mpr (Nat.le_trans short met))
      exact ⟨good iterator, eq_map_ok.mp clean, deserialize_eq_eof.mpr sliced⟩
  · rintro ⟨bytes, rfl, truncated⟩
    rw [good_map_ok, deserialize_eq_eof.mp truncated] at verdict
    generalize decode target streamed.program _ = result at verdict
    cases verdict with
    | refused own => exact absurd rfl (own _)
    | ended ends => exact ⟨_, rfl, rfl⟩
    | failed ends within =>
      rw [bad_map_ok] at ends
      contradiction

/-- What a conversion of errors panics on is what `consensus_error_into_serde` does. -/
theorem converted_eq_panic (streamed : Streamed d) (wide : target.width = .w64)
    (short : iterator.length ≤ maxVecSize) {convert : DecodeError E → Stop Serde.DeError}
    (only : ∀ e, convert e = .panic ↔
      ∃ fault, e = .consensus fault ∧ Serde.consensusErrorIntoSerde fault = .panic) :
    mapStop convert (decode target streamed.program (new iterator)) = .error .panic ↔
      ∃ bytes, Yields iterator bytes ∧ deserialize d bytes = .error (.io .unexpectedEof) := by
  rw [mapStop_eq_panic, ← decode_truncated streamed wide short]
  constructor
  · rintro (panics | ⟨e, returned, panics⟩)
    · exact absurd panics (decode_ne_panic streamed wide iterator)
    · obtain ⟨fault, rfl, serde⟩ := (only e).mp panics
      exact ⟨fault, returned, serde⟩
  · rintro ⟨fault, returned, panics⟩
    exact .inr ⟨_, returned, (only _).mpr ⟨fault, rfl, panics⟩⟩

end IterReader

namespace Serde

theorem unify_eq_panic (e : DecodeError DeError) :
    unify e = .panic ↔ ∃ fault, e = .consensus fault ∧ consensusErrorIntoSerde fault = .panic := by
  cases e <;> simp [unify]

theorem intoDeError_eq_panic (convert : E → DeError) (e : DecodeError E) :
    intoDeError convert e = .panic ↔
      ∃ fault, e = .consensus fault ∧ consensusErrorIntoSerde fault = .panic := by
  cases e <;> simp [intoDeError]

/-- What an input stands for without an error. -/
def Input.Spells (newIter : HexToBytes) : Input → Bytes → Prop
  | .str s, bytes => newIter s = .ok (bytes.map .ok)
  | .seq items, bytes => items = bytes.map .ok

/-- The input stands for no more bytes than a decoder may read. -/
def Input.Short (newIter : HexToBytes) : Input → Prop
  | .str s => ∀ iterator, newIter s = .ok iterator → iterator.length ≤ maxVecSize
  | .seq items => items.length ≤ maxVecSize

/-- The bytes that an input stands for, if it has no error. -/
def Input.spelled : Input → Option Bytes
  | .str s => hexSpelled (stringBytes s)
  | .seq items => items.mapM Except.toOption

/-- How many bytes the deserializer reads from. -/
def Input.size : Input → Nat
  | .str s => (stringBytes s).length
  | .seq items => items.length

theorem mapM_toOption_eq_some {items : List (Except E UInt8)} {bytes : Bytes} :
    items.mapM Except.toOption = some bytes ↔ items = bytes.map .ok := by
  induction items generalizing bytes with
  | nil => cases bytes <;> simp
  | cons item items ih =>
    cases item with
    | error e => cases bytes <;> simp [Except.toOption]
    | ok byte => cases bytes <;> simp [Except.toOption, ih, Option.bind_eq_some_iff, and_comm]

variable {newIter : HexToBytes} {input : Input} {bytes : Bytes}

theorem Input.spells_iff (documented : newIter.Documented) :
    input.Spells newIter bytes ↔ input.spelled = some bytes := by
  cases input with
  | seq items => exact mapM_toOption_eq_some.symm
  | str s =>
    rcases Nat.mod_two_eq_zero_or_one (stringBytes s).length with even | odd
    · obtain ⟨items, found, pairs⟩ := documented.even s even
      rw [Spells, found, Except.ok.injEq, pairs.eq_map_ok_iff, spelled]
    · obtain ⟨e, found⟩ := documented.odd s odd
      refine iff_of_false (by simp [Spells, found]) fun spells => ?_
      have even := hexSpelled_even spells
      omega

theorem Input.short (documented : newIter.Documented) (small : input.size ≤ maxVecSize) :
    input.Short newIter := by
  cases input with
  | seq items => exact small
  | str s =>
    intro iterator found
    rcases Nat.mod_two_eq_zero_or_one (stringBytes s).length with even | odd
    · obtain ⟨items, found', pairs⟩ := documented.even s even
      obtain rfl := Except.ok.inj (found.symm.trans found')
      have half := pairs.length
      have small : (stringBytes s).length ≤ maxVecSize := small
      omega
    · obtain ⟨e, found'⟩ := documented.odd s odd
      exact absurd (found.symm.trans found') nofun

end Serde

variable {d : Decoder Error α} {target : Target} {newIter : HexToBytes}

/-- What is read is what `deserialize` reads of the bytes that are spelled, and nothing panics. -/
def Agrees (d : Decoder Error α) (spelled : Option Bytes) (result : Except (Stop ε) α) : Prop :=
  (∀ a, result = .ok a ↔ ∃ bytes, spelled = some bytes ∧ deserialize d bytes = .ok a) ∧
    result ≠ .error .panic

/-- A string agrees in both ways it can be read, and a sequence of bytes in its one. -/
def Serde.Input.AgreesWithSlice (newIter : HexToBytes) (target : Target) (streamed : Streamed d)
    (input : Serde.Input) : Prop :=
  (∀ s, input = .str s →
    Agrees d input.spelled (deserializeHex newIter target streamed.program s)) ∧
  Agrees d input.spelled (Serde.deserialize newIter target streamed.program input)

theorem Streamed.fromHex (streamed : Streamed d) (wide : target.width = .w64) {s : String}
    (short : (Serde.Input.str s).Short newIter) :
    (∀ a, deserializeHex newIter target streamed.program s = .ok a ↔
      ∃ bytes, (Serde.Input.str s).Spells newIter bytes ∧ deserialize d bytes = .ok a) ∧
    deserializeHex newIter target streamed.program s ≠ .error .panic := by
  simp only [Serde.Input.Spells, deserializeHex]
  cases found : newIter s with
  | error e => exact ⟨fun a => iff_of_false nofun (by rintro ⟨_, _, _⟩; contradiction), nofun⟩
  | ok iterator =>
    simp only [Except.ok.injEq]
    refine ⟨fun a => mapStop_eq_ok.trans (IterReader.decode_eq_ok streamed wide (short _ found)), ?_⟩
    intro panics
    rcases mapStop_eq_panic.mp panics with inner | ⟨_, _, conversion⟩
    · exact IterReader.decode_ne_panic streamed wide iterator inner
    · contradiction

theorem Streamed.fromSerde (streamed : Streamed d) (wide : target.width = .w64) {input : Serde.Input}
    (short : input.Short newIter) :
    (∀ a, Serde.deserialize newIter target streamed.program input = .ok a ↔
      ∃ bytes, input.Spells newIter bytes ∧ deserialize d bytes = .ok a) ∧
    (Serde.deserialize newIter target streamed.program input = .error .panic ↔
      ∃ bytes, input.Spells newIter bytes ∧ deserialize d bytes = .error (.io .unexpectedEof)) := by
  cases input with
  | seq items =>
    exact ⟨fun a => mapStop_eq_ok.trans (IterReader.decode_eq_ok streamed wide short),
      IterReader.converted_eq_panic streamed wide short Serde.unify_eq_panic⟩
  | str s =>
    simp only [Serde.Input.Spells, Serde.deserialize]
    cases found : newIter s with
    | error e =>
      exact ⟨fun a => iff_of_false nofun (by rintro ⟨_, _, _⟩; contradiction),
        iff_of_false nofun (by rintro ⟨_, _, _⟩; contradiction)⟩
    | ok iterator =>
      simp only [Except.ok.injEq]
      exact ⟨fun a => mapStop_eq_ok.trans (IterReader.decode_eq_ok streamed wide (short _ found)),
        IterReader.converted_eq_panic streamed wide (short _ found)
          (Serde.intoDeError_eq_panic _)⟩

/-- Serde disagrees exactly on inputs that end before the value does. -/
theorem Streamed.agreesWithSlice_iff (streamed : Streamed d) (wide : target.width = .w64)
    (documented : newIter.Documented) {input : Serde.Input} (small : input.size ≤ maxVecSize) :
    input.AgreesWithSlice newIter target streamed ↔
      ∀ bytes, input.spelled = some bytes → deserialize d bytes ≠ .error (.io .unexpectedEof) := by
  obtain ⟨values, panics⟩ := streamed.fromSerde wide (input.short documented small)
  simp only [input.spells_iff documented] at values panics
  constructor
  · rintro ⟨-, -, calm⟩ bytes spelled truncated
    exact calm (panics.mpr ⟨bytes, spelled, truncated⟩)
  · intro whole
    refine ⟨?_, values, fun panic => ?_⟩
    · rintro s rfl
      have hex := streamed.fromHex wide (Serde.Input.short documented small)
      simp only [Serde.Input.spells_iff documented] at hex
      exact hex
    · obtain ⟨bytes, spelled, truncated⟩ := panics.mp panic
      exact whole bytes spelled truncated

end Litecoin.Consensus
