import Litecoin.Consensus.Format
import Litecoin.Io.Source

/-! The decoders of `consensus/encode.rs` for any reader: each is written as the program that its
generic function runs, and is known to read of a slice what the decoder of slices does. -/
namespace Litecoin.Consensus
open Wire Io

/-- The errors that decoders report of themselves. -/
def Error.Own (e : Error) : Prop := ∀ io, e ≠ .io io

/-- A program of `read_exact` calls for a decoder; no call asks for more than a `usize` counts. -/
abbrev Streamed (d : Decoder Error α) : Type := Programmed (.io .unexpectedEof) Error.Own (2 ^ 64) d

theorem parseFailed_own (message : String) : (Error.parseFailed message).Own := nofun

theorem nonMinimalVarInt_own : Error.nonMinimalVarInt.Own := nofun

def readExact_streamed (n : Nat) (small : n < 2 ^ 64) : Streamed (readExact n) :=
  Programmed.exact n small

def number_streamed (width : Nat) (small : width < 2 ^ 64) :
    Streamed (Decoder.number width (.io .unexpectedEof)) :=
  Programmed.map _ (Programmed.exact width small)

def readInt_streamed (width : Nat) (small : width < 2 ^ 64) (ofNat : Nat → α) :
    Streamed (readInt width ofNat) :=
  Programmed.map _ (number_streamed width small)

def readU8_streamed : Streamed readU8 := readInt_streamed 1 (by decide) _
def readU16_streamed : Streamed readU16 := readInt_streamed 2 (by decide) _
def readU32_streamed : Streamed readU32 := readInt_streamed 4 (by decide) _
def readU64_streamed : Streamed readU64 := readInt_streamed 8 (by decide) _
def readI32_streamed : Streamed readI32 := readInt_streamed 4 (by decide) _

def VarInt.streamed : Streamed VarInt.consensusDecode :=
  readU8_streamed.bind fun _ =>
    .ite (fun _ => readU64_streamed.bind fun _ =>
      .ite (fun _ => .fail _ nonMinimalVarInt_own) fun _ => .pure _) fun _ =>
    .ite (fun _ => readU32_streamed.bind fun _ =>
      .ite (fun _ => .fail _ nonMinimalVarInt_own) fun _ => .pure _) fun _ =>
    .ite (fun _ => readU16_streamed.bind fun _ =>
      .ite (fun _ => .fail _ nonMinimalVarInt_own) fun _ => .pure _) fun _ =>
    .pure _

def decodeVec_streamed {d : Decoder Error α} (streamed : Streamed d) : Streamed (decodeVec d) :=
  VarInt.streamed.bind fun len => (streamed.times len.toNat).bind fun _ => .pure _

def readChunks_streamed (chunkSize : Nat) (positive : 0 < chunkSize) :
    (fuel len : Nat) → (enough : len ≤ fuel) → len < 2 ^ 64 →
      Streamed (readChunks chunkSize positive fuel len enough)
  | 0, 0, _, _ => .pure _
  | _ + 1, 0, _, _ => .pure _
  | fuel + 1, _ + 1, _, small =>
    (readExact_streamed _ (Nat.lt_of_le_of_lt (Nat.min_le_left _ _) small)).bind fun _ =>
      (readChunks_streamed chunkSize positive fuel _ _
        (Nat.lt_of_le_of_lt (Nat.sub_le _ _) small)).bind fun _ => .pure _

def decodeBytes_streamed : Streamed decodeBytes :=
  VarInt.streamed.bind fun len =>
    (readChunks_streamed _ _ _ _ _ len.toNat_lt).bind fun _ => .pure _

/-- `Decodable::consensus_decode` of a reader. -/
def decodeFrom (target : Target) [Read target σ] (fuel : Nat) (p : Program Error α) (reader : σ) :
    Except (Halt Error) α × σ :=
  let ran := run target fuel p (Reader.take (.ofNat maxVecSize) (.source reader))
  (ran.1, ran.2.inner)

/-- How decoding a source relates to decoding a slice with the bytes it has left: the same value,
and then the bytes that the slice has left; the same error; or, where the slice is too short, the
error of the source, unless the limit was met before. -/
inductive Decoded (target : Target) [Source target σ] (source : σ) :
    Except Error (α × Bytes) → Except (Halt Error) α × σ → Prop where
  | value {a : α} {next : σ} (passes : (Source.prospect target).Passes source bytes next) :
      Decoded target source (.ok (a, (Source.prospect target).left next)) (.ok a, next)
  | refused (passes : (Source.prospect target).Passes source bytes next)
      (own : e.Own) :
      Decoded target source (.error e) (.error (.error (.other e)), next)
  | ended (passes : (Source.prospect target).Passes source bytes next)
      (ends : (Source.prospect target).ending source = none ∨
        maxVecSize ≤ ((Source.prospect target).left source).length) :
      Decoded target source (.error (.io .unexpectedEof)) (.error (.error (.io .unexpectedEof)), next)
  | broke (ends : (Source.prospect target).ending source = some kind)
      (within : ((Source.prospect target).left source).length < maxVecSize)
      (broken : (Source.prospect target).Broken source next) :
      Decoded target source (.error (.io .unexpectedEof)) (.error (.error (.io kind)), next)

namespace Decoded
variable {target : Target} [Source target σ] {source : σ} {sliced : Except Error (α × Bytes)}
  {ran : Except (Halt Error) α × σ}

theorem returned (decoded : Decoded target source sliced ran) (taken : sliced = .ok (a, rest)) :
    ∃ next, ran = (.ok a, next) ∧ (Source.prospect target).left next = rest := by
  cases decoded with
  | value passes =>
    obtain ⟨rfl, rfl⟩ := Prod.mk.inj (Except.ok.inj taken)
    exact ⟨_, rfl, rfl⟩
  | refused | ended | broke => contradiction

/-- A slice is too short where the source breaks. -/
theorem fails (decoded : Decoded target source sliced ran) (short : sliced = .error (.io .unexpectedEof))
    (ends : (Source.prospect target).ending source = some kind)
    (within : ((Source.prospect target).left source).length < maxVecSize) :
    ∃ next, ran = (.error (.error (.io kind)), next) ∧ (Source.prospect target).Broken source next := by
  cases decoded with
  | value passes => contradiction
  | refused passes own => exact absurd (Except.error.inj short) (own _)
  | ended passes ended =>
    rcases ended with none | beyond
    · exact absurd (none.symm.trans ends) nofun
    · exact absurd within (Nat.not_lt.mpr beyond)
  | broke ends' _ broken =>
    obtain rfl := Option.some.inj (ends'.symm.trans ends)
    exact ⟨_, rfl, broken⟩

end Decoded

/-- Decoding does not depend on how a source hands out its bytes. -/
theorem Streamed.decodes {d : Decoder Error α} (streamed : Streamed d) {target : Target}
    (wide : target.width = .w64) [Source target σ] {source : σ} (valid : Source.Valid target source)
    (enough : Source.calls target source < fuel) :
    Decoded target source (consensusDecode d ((Source.prospect target).left source))
      (decodeFrom target fuel streamed.program source) := by
  have size : target.size = 2 ^ 64 := by rw [Target.size, wide]
  have limit : (UInt64.ofNat maxVecSize).toNat = maxVecSize := UInt64.toNat_ofNat_of_lt' (by decide)
  have proper : streamed.program.Proper Error.Own target.size := by
    rw [size]
    exact streamed.proper
  have fewer := Nat.lt_of_le_of_lt (Source.calls_take (.ofNat maxVecSize) source) enough
  have behind : Source.Valid target (Reader.take (.ofNat maxVecSize) (.source source)) := valid
  have follows : Source.Follows target (.io .unexpectedEof) Error.Own _ _ _ :=
    Source.run_follows proper behind fewer
  rw [streamed.slice_eq] at follows
  change Source.Follows target _ _ _ (d (((Source.prospect target).left source).take _)) _ at follows
  rw [limit] at follows
  rw [consensusDecode, Decoder.take, decodeFrom]
  generalize d (((Source.prospect target).left source).take maxVecSize) = sliced at follows ⊢
  generalize run target fuel streamed.program (Reader.take (.ofNat maxVecSize) (.source source)) = ran
    at follows ⊢
  cases follows with
  | value passes =>
    cases passes with
    | take counted passes =>
    cases passes with
    | source passes =>
      have value := Decoded.value (a := ‹α›) passes
      rw [← Source.take_drop_left passes (limit.symm.trans counted)] at value
      exact value
  | refused passes own =>
    cases passes with
    | take counted passes =>
    cases passes with
    | source passes => exact .refused passes own
  | ended passes ends =>
    cases passes with
    | take counted passes =>
    cases passes with
    | source passes =>
      refine .ended passes ?_
      change (if UInt64.toNat _ ≤ ((Source.prospect target).left source).length then _ else _) = _
        at ends
      rw [limit] at ends
      split at ends
      case isTrue met => exact .inr met
      case isFalse => exact .inl ends
  | broke ends broken =>
    cases broken with
    | take broken =>
    cases broken with
    | source broken =>
      change (if UInt64.toNat _ ≤ ((Source.prospect target).left source).length then _ else _) = _
        at ends
      rw [limit] at ends
      split at ends
      case isTrue => contradiction
      case isFalse within => exact .broke ends (Nat.not_le.mp within) broken

end Litecoin.Consensus
