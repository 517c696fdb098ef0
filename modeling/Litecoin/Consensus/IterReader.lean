import Litecoin.Consensus.Programs

/-! Decoding from an iterator of bytes that may fail (`consensus/mod.rs`), from hexadecimal digits
(`consensus/encode.rs`) and through serde (`consensus/serde.rs`). -/
namespace Litecoin.Consensus
open Wire Io
open Wire.Process (Stop)

/-- `IterReader`, with what its iterator has still to yield. -/
structure IterReader (E : Type) where
  iterator : List (Except E UInt8)
  buf : Option UInt8
  error : Option E

namespace IterReader

def new (iterator : List (Except E UInt8)) : IterReader E := { iterator, buf := none, error := none }

/-- The loop of `read` over so many places of the buffer. -/
def fill : (len : Nat) → List (Except E UInt8) → Except E Bytes × List (Except E UInt8)
  | 0, iterator => (.ok [], iterator)
  | _ + 1, [] => (.ok [], [])
  | len + 1, .ok byte :: iterator => match fill len iterator with
    | (.ok bytes, iterator) => (.ok (byte :: bytes), iterator)
    | (.error error, iterator) => (.error error, iterator)
  | _ + 1, .error error :: iterator => (.error error, iterator)

def read (len : Nat) : Method (IterReader E) Bytes := fun reader =>
  if len = 0 then (.ok [], reader)
  else match fill (len - reader.buf.toList.length) reader.iterator with
    | (.ok bytes, iterator) =>
      (.ok (reader.buf.toList ++ bytes), { reader with iterator, buf := none })
    | (.error error, iterator) =>
      (.error (.error .other), { iterator, buf := none, error := some error })

instance : Read target (IterReader E) where
  read := read

/-- The bytes before the first error. -/
def good : List (Except E UInt8) → Bytes
  | .ok byte :: iterator => byte :: good iterator
  | _ => []

/-- The first error and what comes after it. -/
def bad : List (Except E UInt8) → Option (E × List (Except E UInt8))
  | .ok _ :: iterator => bad iterator
  | .error error :: iterator => some (error, iterator)
  | [] => none

theorem good_length_le (iterator : List (Except E UInt8)) :
    (good iterator).length ≤ iterator.length := by
  induction iterator with
  | nil => exact Nat.le_refl 0
  | cons item iterator ih =>
    cases item with
    | error error => exact Nat.zero_le _
    | ok byte => exact Nat.succ_le_succ ih

theorem good_length_lt {iterator : List (Except E UInt8)} {fails : E × List (Except E UInt8)}
    (ends : bad iterator = some fails) :
    (good iterator).length < iterator.length := by
  induction iterator with
  | nil => contradiction
  | cons item iterator ih =>
    cases item with
    | error error => exact Nat.succ_pos _
    | ok byte => exact Nat.succ_lt_succ (ih ends)

/-- An iterator without errors yields just its bytes. -/
theorem eq_map_ok {iterator : List (Except E UInt8)} :
    bad iterator = none ↔ iterator = (good iterator).map .ok := by
  induction iterator with
  | nil => exact iff_of_true rfl rfl
  | cons item iterator ih =>
    cases item with
    | error error => exact iff_of_false nofun nofun
    | ok byte =>
      rw [good, List.map_cons, List.cons_inj_right]
      exact ih

theorem good_map_ok (bytes : Bytes) : good (bytes.map (.ok : UInt8 → Except E UInt8)) = bytes := by
  induction bytes with
  | nil => rfl
  | cons byte bytes ih => exact congrArg (byte :: ·) ih

theorem bad_map_ok (bytes : Bytes) : bad (bytes.map (.ok : UInt8 → Except E UInt8)) = none :=
  eq_map_ok.mpr (by rw [good_map_ok])

/-- What `fill` comes to: as many bytes as there are places, or all of them at the end of the
iterator, or its error. -/
inductive Filled (len : Nat) (iterator : List (Except E UInt8)) :
    Except E Bytes × List (Except E UInt8) → Prop where
  | filled (split : good iterator = bytes ++ good rest) (same : bad rest = bad iterator)
      (fits : bytes.length ≤ len) (enough : bytes.length = len ∨ good iterator = bytes ∧ bad iterator = none) :
      Filled len iterator (.ok bytes, rest)
  | failed (ends : bad iterator = some (e, rest)) (short : (good iterator).length < len) :
      Filled len iterator (.error e, rest)

theorem fill_filled (len : Nat) (iterator : List (Except E UInt8)) :
    Filled len iterator (fill len iterator) := by
  induction len generalizing iterator with
  | zero => exact .filled rfl rfl (Nat.le_refl 0) (.inl rfl)
  | succ len ih =>
    cases iterator with
    | nil => exact .filled rfl rfl (Nat.zero_le _) (.inr ⟨rfl, rfl⟩)
    | cons item iterator =>
      cases item with
      | error error => exact .failed rfl (Nat.succ_pos len)
      | ok byte =>
        have inner := ih iterator
        change Filled _ _ (match fill len iterator with
          | (.ok bytes, iterator) => (.ok (byte :: bytes), iterator)
          | (.error e, iterator) => (.error e, iterator))
        generalize fill len iterator = ran at inner
        cases inner with
        | filled split same fits enough =>
          refine .filled (congrArg (byte :: ·) split) same (Nat.succ_le_succ fits) ?_
          exact enough.imp (congrArg (· + 1)) (.imp_left (congrArg (byte :: ·)))
        | failed ends short => exact .failed ends (Nat.succ_lt_succ short)

/-- The reader has reported no error, and the bytes are the next ones that it had. -/
structure Passes (reader : IterReader E) (bytes : Bytes) (next : IterReader E) : Prop where
  before : reader.error = none
  valid : next.error = none
  unbuffered : reader.buf = none → next.buf = none
  same : bad next.iterator = bad reader.iterator
  split : reader.buf.toList ++ good reader.iterator = bytes ++ (next.buf.toList ++ good next.iterator)

def prospect (E : Type) : Prospect (IterReader E) where
  left reader := reader.buf.toList ++ good reader.iterator
  ending reader := (bad reader.iterator).map fun _ => .other
  patience _ := 0
  Passes := Passes
  Broken reader next := ∃ e rest, bad reader.iterator = some (e, rest) ∧
    next = { iterator := rest, buf := none, error := some e }

theorem read_event (reader : IterReader E) (len : Nat) (valid : reader.error = none) :
    Event (prospect E) reader len (read len reader) := by
  rw [read]
  split
  case isTrue zero => exact .filled ⟨valid, valid, id, rfl, rfl⟩ (Nat.zero_le _) fun _ => .inl zero
  case isFalse some =>
    have first : reader.buf.toList.length ≤ len := by
      cases reader.buf with
      | none => exact Nat.zero_le _
      | some byte => exact Nat.pos_of_ne_zero some
    have filled := fill_filled (len - reader.buf.toList.length) reader.iterator
    generalize fill (len - reader.buf.toList.length) reader.iterator = ran at filled ⊢
    cases filled with
    | filled split same fits enough =>
      refine .filled ⟨valid, valid, fun _ => rfl, same, ?_⟩ ?_ fun none => ?_
      · rw [split, List.append_assoc]
        rfl
      · rw [List.length_append]
        omega
      · obtain ⟨unbuffered, empty⟩ := List.append_eq_nil_iff.mp none
        rcases enough with full | ⟨gone, ends⟩
        · rw [unbuffered, empty] at full
          exact .inl full.symm
        · refine .inr ⟨?_, ?_⟩
          · change _ ++ _ = _
            rw [unbuffered, gone, empty]
            rfl
          · change Option.map _ _ = _
            rw [ends]
            rfl
    | failed ends short =>
      refine .broke ?_ ?_ nofun ⟨_, _, ends, rfl⟩
      · change (_ ++ _ : Bytes).length < len
        rw [List.length_append]
        omega
      · change Option.map _ _ = _
        rw [ends]
        rfl

instance : Source target (IterReader E) where
  prospect := prospect E
  Valid reader := reader.error = none
  refl _ valid := ⟨valid, valid, id, rfl, rfl⟩
  trans _ _ _ _ _ first second := ⟨first.before, second.valid,
    second.unbuffered ∘ first.unbuffered, second.same.trans first.same, by
    rw [first.split, second.split, List.append_assoc]⟩
  valid _ _ _ passes := passes.valid
  left_eq _ _ _ passes := passes.split
  calm _ _ _ _ := Nat.le_refl 0
  ending_eq _ _ _ passes := congrArg (Option.map fun _ => ErrorKind.other) passes.same
  broken _ _ _ _ passes broken := by
    obtain ⟨e, rest, ends, rfl⟩ := broken
    exact ⟨e, rest, passes.same.symm.trans ends, rfl⟩
  event reader len valid _ := read_event reader len valid

end IterReader

/-- `DecodeError`. -/
inductive DecodeError (E : Type) where
  | tooManyBytes
  | consensus (fault : Fault Error)
  | other (error : E)

namespace IterReader

/-- What `decode` makes of a result, the stored error and what is left of the iterator. An error
made of its kind alone has no payload. -/
def conclude : Except (Halt Error) α → Option E → List (Except E UInt8) →
    Except (Stop (DecodeError E)) α
  | .ok value, none, iterator =>
    if iterator.head?.isSome then .error (.error .tooManyBytes) else .ok value
  | .ok _, some _, _ => .error .panic
  | .error (.error (.io .other)), some e, _ => .error (.error (.other e))
  | .error (.error fault), none, _ => .error (.error (.consensus fault))
  | .error (.error _), some _, _ => .error .panic
  | .error .panic, _, _ => .error .panic
  | .error .fuel, _, _ => .error .panic

/-- `IterReader::decode`. So many calls of `read` are enough for every `read_exact`. -/
def decode (target : Target) (p : Program Error α) (reader : IterReader E) :
    Except (Stop (DecodeError E)) α :=
  let ran := decodeFrom target (reader.iterator.length + 2) p reader
  conclude ran.1 ran.2.error ran.2.iterator

/-- What decoding from an iterator comes to, by what is read of a slice with the bytes before its
first error. -/
inductive Verdict (iterator : List (Except E UInt8)) :
    Except Error (α × Bytes) → Except (Stop (DecodeError E)) α → Prop where
  | value (consumed : iterator = (good iterator).map .ok) : Verdict iterator (.ok (a, [])) (.ok a)
  | excess (more : rest ≠ [] ∨ bad iterator ≠ none) :
      Verdict iterator (.ok (a, rest)) (.error (.error .tooManyBytes))
  | refused (own : e.Own) :
      Verdict iterator (.error e) (.error (.error (.consensus (.other e))))
  | ended (ends : bad iterator = none ∨ maxVecSize ≤ (good iterator).length) :
      Verdict iterator (.error (.io .unexpectedEof)) (.error (.error (.consensus (.io .unexpectedEof))))
  | failed (ends : bad iterator = some (e, rest)) (within : (good iterator).length < maxVecSize) :
      Verdict iterator (.error (.io .unexpectedEof)) (.error (.error (.other e)))

/-- Every arm that panics is out of reach. -/
theorem decode_verdict {E : Type} {d : Decoder Error α} (streamed : Streamed d) {target : Target}
    (wide : target.width = .w64) (iterator : List (Except E UInt8)) :
    Verdict iterator (consensusDecode d (good iterator))
      (decode target streamed.program (new iterator)) := by
  have enough : Source.calls target (new iterator) < (new iterator).iterator.length + 2 :=
    Nat.lt_succ_of_le (Nat.le_succ_of_le (good_length_le iterator))
  have decoded : Decoded target (new iterator) (consensusDecode d (good iterator)) _ :=
    streamed.decodes wide rfl enough
  rw [decode]
  generalize consensusDecode d (good iterator) = sliced at decoded ⊢
  generalize decodeFrom target _ streamed.program (new iterator) = ran at decoded ⊢
  cases decoded with
  | @value _ a next passes =>
    rw [passes.valid, conclude]
    have buf := passes.unbuffered rfl
    have left : (Source.prospect target).left next = good next.iterator := by
      change next.buf.toList ++ _ = _
      rw [buf]
      rfl
    have same : bad next.iterator = bad iterator := passes.same
    rw [left]
    cases remaining : next.iterator with
    | nil =>
      rw [remaining] at same
      exact .value (eq_map_ok.mp same.symm)
    | cons item others =>
      refine .excess ?_
      cases item with
      | ok byte => exact .inl nofun
      | error e =>
        rw [remaining] at same
        exact .inr (same ▸ nofun)
  | refused passes own =>
    rw [passes.valid, conclude]
    exact .refused own
  | ended passes ends =>
    rw [passes.valid, conclude]
    exact .ended (ends.imp_left Option.map_eq_none_iff.mp)
  | broke ends within broken =>
    obtain ⟨e, rest, ends', rfl⟩ := broken
    obtain ⟨-, -, rfl⟩ := Option.map_eq_some_iff.mp ends
    exact .failed ends' within

end IterReader
end Litecoin.Consensus
