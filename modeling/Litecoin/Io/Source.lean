import Litecoin.Io.InMemory
import Litecoin.Wire.Program

/-! Sources that end or break after finitely many bytes, and programs run over any of them:
however the bytes are cut into pieces and whatever interruptions come between, a program reads what
it would read of one slice. -/
namespace Litecoin.Io
open Wire
open Wire.Process (Stop)

/-- The error of a decoder that is run over a reader: one of the reader, or its own. -/
inductive Fault (ε : Type) where
  | io (kind : ErrorKind)
  | other (e : ε)

/-- Why such a decoder returns no value. `fuel` stands for a call of `read_exact` that is not over
after the calls of `read` it was granted. -/
inductive Halt (ε : Type) where
  | error (fault : Fault ε)
  | panic
  | fuel

/-- `Read::read_exact`, which calls `read` at most `fuel` times. -/
def readExact (target : Target) [Read target σ] : (fuel n : Nat) → (reader : σ) →
    Except (Halt ε) { chunk : Bytes // chunk.length = n } × σ
  | _, 0, reader => (.ok ⟨[], List.length_nil⟩, reader)
  | 0, _ + 1, reader => (.error .fuel, reader)
  | fuel + 1, n + 1, reader => match Read.read target (n + 1) reader with
    | (.ok bytes, reader) =>
      if bytes.isEmpty then (.error (.error (.io .unexpectedEof)), reader)
      else if fits : bytes.length ≤ n + 1 then
        match readExact target fuel (n + 1 - bytes.length) reader with
        | (.ok rest, reader) => (.ok ⟨bytes ++ rest.val, by
            rw [List.length_append, rest.property, Nat.add_sub_cancel' fits]⟩, reader)
        | (.error halt, reader) => (.error halt, reader)
      else (.error .panic, reader)
    | (.error .panic, reader) => (.error .panic, reader)
    | (.error (.error kind), reader) =>
      if kind = .interrupted then readExact target fuel (n + 1) reader
      else (.error (.error (.io kind)), reader)

/-- The program with `read_exact` of a reader. -/
def run (target : Target) [Read target σ] (fuel : Nat) : Program ε α → (reader : σ) →
    Except (Halt ε) α × σ
  | .done a, reader => (.ok a, reader)
  | .fail e, reader => (.error (.error (.other e)), reader)
  | .read n next, reader => match readExact target fuel n reader with
    | (.ok chunk, reader) => run target fuel (next chunk) reader
    | (.error halt, reader) => (.error halt, reader)

/-- What is known of a source: the bytes it has `left`; what it does after them, which is to report
their end or to break with an error; how often it is still interrupted at most; and which sources
are left once bytes were read, or once it is broken. -/
structure Prospect (σ : Type) where
  left : σ → Bytes
  ending : σ → Option ErrorKind
  patience : σ → Nat
  Passes : σ → Bytes → σ → Prop
  Broken : σ → σ → Prop

/-- What a call of `read` may come to, with a buffer of `len` bytes. A source that breaks may do so
as soon as it is asked for more than it has, whatever it has. -/
inductive Event (prospect : Prospect σ) (source : σ) (len : Nat) :
    Except (Stop ErrorKind) Bytes × σ → Prop where
  | filled (passes : prospect.Passes source bytes next) (fits : bytes.length ≤ len)
      (empty : bytes = [] → len = 0 ∨ prospect.left source = [] ∧ prospect.ending source = none) :
      Event prospect source len (.ok bytes, next)
  | interrupted (passes : prospect.Passes source [] next)
      (calmer : prospect.patience next < prospect.patience source) :
      Event prospect source len (.error (.error .interrupted), next)
  | broke (short : (prospect.left source).length < len) (ends : prospect.ending source = some kind)
      (other : kind ≠ .interrupted) (broken : prospect.Broken source next) :
      Event prospect source len (.error (.error kind), next)

class Source (target : Target) (σ : Type) extends Read target σ where
  prospect : Prospect σ
  Valid : σ → Prop
  refl : ∀ source, Valid source → prospect.Passes source [] source
  trans : ∀ source front next back last, prospect.Passes source front next →
    prospect.Passes next back last → prospect.Passes source (front ++ back) last
  valid : ∀ source bytes next, prospect.Passes source bytes next → Valid next
  left_eq : ∀ source bytes next, prospect.Passes source bytes next →
    prospect.left source = bytes ++ prospect.left next
  calm : ∀ source bytes next, prospect.Passes source bytes next →
    prospect.patience next ≤ prospect.patience source
  ending_eq : ∀ source bytes next, prospect.Passes source bytes next →
    prospect.ending next = prospect.ending source
  broken : ∀ source bytes next last, prospect.Passes source bytes next →
    prospect.Broken next last → prospect.Broken source last
  event : ∀ source len, Valid source → len < target.size → Event prospect source len (read len source)

namespace Source

/-- So many calls of `read` are enough for `read_exact`. -/
def calls (target : Target) [Source target σ] (source : σ) : Nat :=
  ((prospect target).left source).length + (prospect target).patience source

/-- How a run relates to what is read of one slice with the bytes left: the same value, and then
the bytes that the slice has left; the same error; or, where the slice is too short, the end or the
error of the source. -/
inductive Follows (target : Target) [Source target σ] (eof : ε) (Own : ε → Prop) (source : σ) :
    Except ε (α × Bytes) → Except (Halt ε) α × σ → Prop where
  | value {a : α} {next : σ} (passes : (prospect target).Passes source bytes next) :
      Follows target eof Own source (.ok (a, (prospect target).left next)) (.ok a, next)
  | refused (passes : (prospect target).Passes source bytes next) (own : Own e) :
      Follows target eof Own source (.error e) (.error (.error (.other e)), next)
  | ended (passes : (prospect target).Passes source bytes next)
      (ends : (prospect target).ending source = none) :
      Follows target eof Own source (.error eof) (.error (.error (.io .unexpectedEof)), next)
  | broke (ends : (prospect target).ending source = some kind)
      (broken : (prospect target).Broken source next) :
      Follows target eof Own source (.error eof) (.error (.error (.io kind)), next)

variable {target : Target} [Source target σ] {source next : σ} {eof : ε} {Own : ε → Prop}

theorem calls_le (passes : (prospect target).Passes source bytes next) :
    calls target next + bytes.length ≤ calls target source := by
  have split := left_eq source bytes next passes
  have calm := calm source bytes next passes
  rw [calls, calls, split, List.length_append]
  omega

/-- What a limit still lets through, and what it held back in the first place. -/
theorem take_drop_left (passes : (prospect target).Passes source bytes next)
    (counted : limit = bytes.length + further) :
    ((prospect target).left next).take further ++ ((prospect target).left source).drop limit =
      (prospect target).left next := by
  rw [left_eq _ _ _ passes, counted, List.drop_length_add_append, List.take_append_drop]

theorem Follows.after (passes : (prospect target).Passes source front next)
    {result : Except ε (α × Bytes)} {ran : Except (Halt ε) α × σ}
    (follows : Follows target eof Own next result ran) : Follows target eof Own source result ran := by
  cases follows with
  | value onward => exact .value (trans _ _ _ _ _ passes onward)
  | refused onward own => exact .refused (trans _ _ _ _ _ passes onward) own
  | ended onward ends => exact .ended (trans _ _ _ _ _ passes onward) (ending_eq _ _ _ passes ▸ ends)
  | broke ends broken => exact .broke (ending_eq _ _ _ passes ▸ ends) (Source.broken _ _ _ _ passes broken)

theorem readExact_follows (fuel n : Nat) (small : n < target.size) (valid : Valid target source)
    (enough : calls target source < fuel) :
    Follows target eof Own source (Decoder.exact n eof ((prospect target).left source))
      (readExact target fuel n source) := by
  induction fuel generalizing n source with
  | zero => contradiction
  | succ fuel ih =>
    cases n with
    | zero =>
      have none : Decoder.exact 0 eof ((prospect target).left source) =
          .ok (⟨[], rfl⟩, (prospect target).left source) := dif_pos (Nat.zero_le _)
      rw [none]
      exact .value (refl source valid)
    | succ n =>
      have event := Source.event source (n + 1) valid small
      rw [readExact]
      generalize Read.read target (n + 1) source = called at event
      cases event with
      | @interrupted next passes calmer =>
        have left := left_eq _ _ _ passes
        have fewer : calls target next < fuel := by
          rw [calls, left, List.nil_append] at enough
          rw [calls]
          omega
        have again := ih (n + 1) small (Source.valid _ _ _ passes) fewer
        rw [left, List.nil_append]
        exact again.after passes
      | broke short ends other broken =>
        rw [Decoder.exact_eq_error.mpr ⟨short, rfl⟩]
        simp only [if_neg other]
        exact .broke ends broken
      | @filled bytes next passes fits empty =>
        by_cases none : bytes = []
        · subst none
          obtain ⟨short, ends⟩ := (empty rfl).resolve_left (Nat.succ_ne_zero n)
          rw [Decoder.exact_eq_error.mpr ⟨by rw [short]; exact Nat.succ_pos n, rfl⟩]
          exact .ended passes ends
        · have some : bytes.isEmpty = false := List.isEmpty_eq_false_iff.mpr none
          have positive : 0 < bytes.length := List.length_pos_iff.mpr none
          have left := left_eq _ _ _ passes
          have fewer : calls target next < fuel := by
            have := calls_le passes
            omega
          have again := ih (n + 1 - bytes.length) (Nat.lt_of_le_of_lt (Nat.sub_le _ _) small)
            (Source.valid _ _ _ passes) fewer
          simp only [some, Bool.false_eq_true, if_false, dif_pos fits]
          generalize sliced : Decoder.exact (n + 1 - bytes.length) eof _ = slice at again
          generalize readExact target fuel (n + 1 - bytes.length) next = ran at again ⊢
          have short (lacking : ((prospect target).left next).length < n + 1 - bytes.length) :
              Decoder.exact (n + 1) eof ((prospect target).left source) = .error eof := by
            refine Decoder.exact_eq_error.mpr ⟨?_, rfl⟩
            rw [left, List.length_append]
            omega
          cases again with
          | @value _ chunk last onward =>
            have split := Decoder.exact_eq_ok.mp sliced
            have whole : Decoder.exact (n + 1) eof ((prospect target).left source) =
                .ok (⟨bytes ++ chunk.val, by rw [List.length_append, chunk.property,
                  Nat.add_sub_cancel' fits]⟩, (prospect target).left last) :=
              Decoder.exact_eq_ok.mpr (by rw [left, split, List.append_assoc])
            rw [whole]
            exact .value (trans _ _ _ _ _ passes onward)
          | refused onward own =>
            obtain ⟨lacking, rfl⟩ := Decoder.exact_eq_error.mp sliced
            rw [short lacking]
            exact (Follows.refused onward own).after passes
          | ended onward ends =>
            rw [short (Decoder.exact_eq_error.mp sliced).1]
            exact (Follows.ended onward ends).after passes
          | broke ends broken =>
            rw [short (Decoder.exact_eq_error.mp sliced).1]
            exact (Follows.broke ends broken).after passes

/-- A program reads of a source what it reads of a slice with the bytes that the source has left. -/
theorem run_follows {p : Program ε α} (proper : p.Proper Own target.size) {fuel : Nat}
    (valid : Valid target source) (enough : calls target source < fuel) :
    Follows target eof Own source (p.slice eof ((prospect target).left source))
      (run target fuel p source) := by
  induction p generalizing source with
  | done a => exact .value (refl source valid)
  | fail e => exact .refused (refl source valid) proper
  | read n next ih =>
    have first : Follows target eof Own source (Decoder.exact n eof ((prospect target).left source))
        (readExact target fuel n source) := readExact_follows fuel n proper.1 valid enough
    rw [run]
    simp only [Program.slice, Bind.bind]
    generalize Decoder.exact n eof ((prospect target).left source) = sliced at first ⊢
    generalize readExact target fuel n source = ran at first ⊢
    cases first with
    | @value _ chunk after passes =>
      have fewer : calls target after < fuel := by
        have := calls_le passes
        omega
      exact (ih chunk (proper.2 chunk) (Source.valid _ _ _ passes) fewer).after passes
    | refused passes own => exact .refused passes own
    | ended passes ends => exact .ended passes ends
    | broke ends broken => exact .broke ends broken

end Source

namespace Prospect

/-- The bytes that the `Take`s let through of those that the source has left. -/
def leftOf (prospect : Prospect σ) : Reader σ → Bytes
  | .source reader => prospect.left reader
  | .take remaining reader => (prospect.leftOf reader).take remaining.toNat

/-- A limit that is met is reported as the end. -/
def endingOf (prospect : Prospect σ) : Reader σ → Option ErrorKind
  | .source reader => prospect.ending reader
  | .take remaining reader =>
    if remaining.toNat ≤ (prospect.leftOf reader).length then none else prospect.endingOf reader

def patienceOf (prospect : Prospect σ) : Reader σ → Nat
  | .source reader => prospect.patience reader
  | .take _ reader => prospect.patienceOf reader

/-- The bytes were read by the source, and every limit went down by them. -/
inductive PassesThrough (prospect : Prospect σ) : Reader σ → Bytes → Reader σ → Prop where
  | source : prospect.Passes reader bytes next →
      PassesThrough prospect (.source reader) bytes (.source next)
  | take : remaining.toNat = bytes.length + further.toNat → PassesThrough prospect reader bytes next →
      PassesThrough prospect (.take remaining reader) bytes (.take further next)

inductive BrokenBehind (prospect : Prospect σ) : Reader σ → Reader σ → Prop where
  | source : prospect.Broken reader next → BrokenBehind prospect (.source reader) (.source next)
  | take : BrokenBehind prospect reader next →
      BrokenBehind prospect (.take remaining reader) (.take further next)

/-- What is known of a source behind `Take`s. -/
def behind (prospect : Prospect σ) : Prospect (Reader σ) where
  left := prospect.leftOf
  ending := prospect.endingOf
  patience := prospect.patienceOf
  Passes := prospect.PassesThrough
  Broken := prospect.BrokenBehind

end Prospect

namespace Source
variable {target : Target} [Source target σ] {reader next last : Reader σ}

def ValidBehind (target : Target) [Source target σ] : Reader σ → Prop
  | .source reader => Valid target reader
  | .take _ reader => ValidBehind target reader

theorem passes_refl (valid : ValidBehind target reader) :
    (prospect target).PassesThrough reader [] reader := by
  induction reader with
  | source reader => exact .source (refl reader valid)
  | take remaining reader ih => exact .take (Nat.zero_add _).symm (ih valid)

theorem passes_trans (first : (prospect target).PassesThrough reader front next)
    (second : (prospect target).PassesThrough next back last) :
    (prospect target).PassesThrough reader (front ++ back) last := by
  induction first generalizing last with
  | source passes =>
    cases second with
    | source onward => exact .source (trans _ _ _ _ _ passes onward)
  | take counted _ ih =>
    cases second with
    | take rest second => exact .take (by rw [List.length_append]; omega) (ih second)

theorem passes_left (passes : (prospect target).PassesThrough reader bytes next) :
    (prospect target).leftOf reader = bytes ++ (prospect target).leftOf next := by
  induction passes with
  | source passes => exact left_eq _ _ _ passes
  | take counted _ ih =>
    rw [Prospect.leftOf, Prospect.leftOf, ih, counted, List.take_length_add_append]

theorem passes_ending (passes : (prospect target).PassesThrough reader bytes next) :
    (prospect target).endingOf next = (prospect target).endingOf reader := by
  induction passes with
  | source passes => exact ending_eq _ _ _ passes
  | take counted passes ih =>
    rw [Prospect.endingOf, Prospect.endingOf, ih, passes_left passes, counted]
    simp only [List.length_append, Nat.add_le_add_iff_left]

theorem passes_broken (passes : (prospect target).PassesThrough reader bytes next)
    (broken : (prospect target).BrokenBehind next last) :
    (prospect target).BrokenBehind reader last := by
  induction passes generalizing last with
  | source passes =>
    cases broken with
    | source broken => exact .source (Source.broken _ _ _ _ passes broken)
  | take counted _ ih =>
    cases broken with
    | take broken => exact .take (ih broken)

theorem event_behind (valid : ValidBehind target reader) (small : len < target.size) :
    Event (prospect target).behind reader len (reader.read target len) := by
  induction reader generalizing len with
  | source reader =>
    have inner := Source.event reader len valid small
    rw [Reader.read]
    generalize Read.read target len reader = ran at inner
    cases inner with
    | filled passes fits empty => exact .filled (.source passes) fits empty
    | interrupted passes calmer => exact .interrupted (.source passes) calmer
    | broke short ends other broken => exact .broke short ends other (.source broken)
  | take remaining reader ih =>
    rw [Reader.read, target.tryIntoUsize_cap small]
    have inner := ih valid (Nat.lt_of_le_of_lt (Nat.min_le_left _ remaining.toNat) small)
    generalize reader.read target (min len remaining.toNat) = ran at inner
    cases inner with
    | @filled bytes next passes fits empty =>
      have within : bytes.length ≤ remaining.toNat := Nat.le_trans fits (Nat.min_le_right _ _)
      obtain ⟨word, -, further, charged, counted⟩ := target.charge within
      simp only [word, Option.getD_some, charged]
      refine .filled (.take counted passes) (Nat.le_trans fits (Nat.min_le_left _ _)) fun none => ?_
      change len = 0 ∨ (Prospect.leftOf _ reader).take remaining.toNat = [] ∧
        (if remaining.toNat ≤ (Prospect.leftOf _ reader).length then _ else _) = _
      rcases empty none with zero | ⟨ended, ends⟩
      · rcases Nat.min_eq_zero_iff.mp zero with zero | zero
        · exact .inl zero
        · rw [zero, List.take_zero, if_pos (Nat.zero_le _)]
          exact .inr ⟨rfl, rfl⟩
      · refine .inr ⟨?_, ?_⟩
        · change (prospect target).leftOf reader = [] at ended
          rw [ended, List.take_nil]
        · split
          · rfl
          · exact ends
    | interrupted passes calmer => exact .interrupted (.take (Nat.zero_add _).symm passes) calmer
    | broke short ends other broken =>
      change ((prospect target).leftOf reader).length < _ at short
      refine .broke ?_ ?_ other (.take broken)
      · change ((Prospect.leftOf _ reader).take remaining.toNat).length < len
        rw [List.length_take]
        omega
      · change (if remaining.toNat ≤ (Prospect.leftOf _ reader).length then _ else _) = _
        rw [if_neg (by omega)]
        exact ends

instance : Source target (Reader σ) where
  prospect := (prospect target).behind
  Valid := ValidBehind target
  refl _ := passes_refl
  trans _ _ _ _ _ := passes_trans
  valid _ _ _ passes := by
    induction passes with
    | source passes => exact Source.valid _ _ _ passes
    | take _ _ ih => exact ih
  left_eq _ _ _ := passes_left
  calm _ _ _ passes := by
    induction passes with
    | source passes => exact Source.calm _ _ _ passes
    | take _ _ ih => exact ih
  ending_eq _ _ _ := passes_ending
  broken _ _ _ _ := passes_broken
  event _ _ := event_behind

theorem calls_take (limit : UInt64) (source : σ) :
    calls target (Reader.take limit (.source source)) ≤ calls target source := by
  change (((prospect target).left source).take limit.toNat).length +
    (prospect target).patience source ≤ _
  rw [calls, List.length_take]
  omega

end Source

/-- The source behind all `Take`s. -/
def Reader.inner : Reader σ → σ
  | .source reader => reader
  | .take _ reader => reader.inner

/-- Slices and cursors end without an error and are never interrupted. -/
instance (priority := low) [InMemory target σ] : Source target σ where
  prospect := {
    left := InMemory.left target
    ending := fun _ => none
    patience := fun _ => 0
    Passes := fun source bytes next => InMemory.Valid target next ∧
      InMemory.left target source = bytes ++ InMemory.left target next
    Broken := fun _ _ => False }
  Valid := InMemory.Valid target
  refl _ valid := ⟨valid, rfl⟩
  trans _ _ _ _ _ first second := ⟨second.1, by rw [first.2, second.2, List.append_assoc]⟩
  valid _ _ _ passes := passes.1
  left_eq _ _ _ passes := passes.2
  calm _ _ _ _ := Nat.le_refl 0
  ending_eq _ _ _ _ := rfl
  broken _ _ _ _ _ := id
  event source len valid small := by
    obtain ⟨next, ran, kept, rest⟩ := InMemory.read_eq source len valid small
    rw [ran]
    refine .filled ⟨kept, ?_⟩ (List.length_take_le _ _) fun none => ?_
    · rw [rest, List.take_append_drop]
    · exact (List.take_eq_nil_iff.mp none).imp_right fun ended => ⟨ended, rfl⟩

end Litecoin.Io
