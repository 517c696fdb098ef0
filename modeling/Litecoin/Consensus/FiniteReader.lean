import Litecoin.Consensus.Format
import Litecoin.Io.Scripted
import Litecoin.Wire.Loop

/-! `read_bytes_from_finite_reader` (`consensus/encode.rs`) step by step, with the buffer that it
grows and the reader that it advances. The allocator is taken to have room for the buffer: how
much it is asked for is what is bounded here. -/
namespace Litecoin.Consensus.FiniteReader
open Wire Io
open Wire.Process (Stop)

/-- Where a call stands: at the head of its loop with `ret` and `opts.len`, in `read_exact` with a
part of `ret` filled and the rest `buf` to fill, or at its end. An error of the reader stands for
the `Error::Io` that it becomes. -/
inductive State (σ : Type) where
  | head (ret : Bytes) (len : Nat) (d : σ)
  | filling (filled buf : Bytes) (chunkSize len : Nat) (d : σ)
  | done (result : Except (Stop ErrorKind) Bytes) (d : σ)

namespace State

/-- What is allocated for `ret`. -/
def buffer : State σ → Bytes
  | .head ret _ _ => ret
  | .filling filled buf _ _ _ => filled ++ buf
  | .done (.ok ret) _ => ret
  | .done (.error _) _ => []

def reader : State σ → σ
  | .head _ _ d => d
  | .filling _ _ _ _ d => d
  | .done _ d => d

end State

def step (target : Target) [Read target σ] (chunkSize : Nat) : State σ → Option (State σ)
  | .head ret len d => some <|
    if 0 < len then
      let chunkSize := min len chunkSize
      .filling ret (List.replicate chunkSize 0) chunkSize len d
    else .done (.ok ret) d
  | .filling filled buf chunkSize len d => some <|
    if buf.isEmpty then .head filled (len - chunkSize) d
    else match Read.read target buf.length d with
      | (.ok bytes, d) =>
        if bytes.isEmpty then .done (.error (.error .unexpectedEof)) d
        else if bytes.length ≤ buf.length then
          .filling (filled ++ bytes) (buf.drop bytes.length) chunkSize len d
        else .done (.error .panic) d
      | (.error .panic, d) => .done (.error .panic) d
      | (.error (.error e), d) =>
        if e = .interrupted then .filling filled buf chunkSize len d
        else .done (.error (.error e)) d
  | .done _ _ => none

/-- The loop is entered only past the assertion on the chunk size. -/
def start (len chunkSize : Nat) (d : σ) : State σ :=
  if chunkSize ≠ 0 then .head [] len d else .done (.error .panic) d

/-- The call after so many steps. -/
def readBytesFromFiniteReader (target : Target) [Read target σ] (len chunkSize : target.Usize) (d : σ)
    (steps : Nat) : State σ :=
  Loop.run (step target chunkSize.val) steps (start len.val chunkSize.val d)

section Run
variable {target : Target} [FiniteSource target σ]

/-- A state of the call for `len` bytes of `whole`: what was read of them is in the buffer. -/
def Inv (target : Target) [FiniteSource target σ] (whole : Reader σ) (len chunkSize : Nat) :
    State (Reader σ) → Prop
  | .head ret rest d => d.Valid target ∧ whole.Advances target ret d ∧ ret.length + rest = len
  | .filling filled buf chunk rest d => d.Valid target ∧ whole.Advances target filled d ∧
      filled.length + buf.length + (rest - chunk) = len ∧ 0 < chunk ∧ chunk ≤ rest ∧
      buf.length ≤ chunk ∧ chunk ≤ chunkSize
  | .done (.ok ret) d => whole.Advances target ret d ∧ ret.length = len
  | .done (.error stop) d => stop ≠ .panic ∧
      ∃ taken, whole.Advances target taken d ∧ d.left target = [] ∧ taken.length < len

/-- A chunk costs two steps besides those that read. -/
def steps (target : Target) [FiniteSource target σ] : State (Reader σ) → Nat
  | .head _ rest d => 4 * rest + 1 + d.patience target
  | .filling _ buf chunk rest d => 4 * (rest - chunk) + 2 * buf.length + 2 + d.patience target
  | .done _ _ => 0

variable {whole d : Reader σ} {len chunkSize : Nat}

theorem head_descends (positive : chunkSize ≠ 0)
    (inv : Inv target whole len chunkSize (.head ret rest d))
    (stepped : step target chunkSize (.head ret rest d) = some next) :
    Inv target whole len chunkSize next ∧ steps target next < steps target (.head ret rest d) := by
  obtain ⟨valid, advances, total⟩ := inv
  obtain rfl := Option.some.inj stepped
  split
  case isTrue more =>
    simp only [Inv, steps, List.length_replicate]
    refine ⟨⟨valid, advances, ?_⟩, ?_⟩ <;> omega
  case isFalse none => exact ⟨⟨advances, by omega⟩, by simp only [steps]; omega⟩

theorem filling_descends (usize : len < target.size)
    (inv : Inv target whole len chunkSize (.filling filled buf chunk rest d))
    (stepped : step target chunkSize (.filling filled buf chunk rest d) = some next) :
    Inv target whole len chunkSize next ∧
      steps target next < steps target (.filling filled buf chunk rest d) := by
  obtain ⟨valid, advances, total, some, inner, room, outer⟩ := inv
  obtain rfl := Option.some.inj stepped
  split
  case isTrue full =>
    obtain rfl := List.isEmpty_iff.mp full
    exact ⟨⟨valid, advances, by simpa using total⟩, by simp [steps]⟩
  case isFalse unfilled =>
    have more : 0 < buf.length :=
      List.length_pos_iff.mpr fun none => unfilled (List.isEmpty_iff.mpr none)
    have short : buf.length < target.size := by omega
    have outcome := Reader.outcome valid short
    change Outcome _ _ _ d buf.length (Read.read target buf.length d) at outcome
    generalize Read.read target buf.length d = ran at outcome
    cases outcome with
    | @filled bytes d' after fits empty calm =>
      obtain ⟨kept, read⟩ := after
      have onward := advances.trans read
      simp only [if_pos fits]
      split
      case isTrue none =>
        -- Nothing is delivered only where nothing is left.
        obtain rfl := List.isEmpty_iff.mp none
        have ended : d.left target = [] := (empty rfl).resolve_left (Nat.ne_of_gt more)
        rw [List.append_nil] at onward
        have short : filled.length < len := by omega
        exact ⟨⟨nofun, filled, onward, read.left.symm.trans ended, short⟩, by simp only [steps]; omega⟩
      case isFalse delivers =>
        have pushed : 0 < bytes.length :=
          List.length_pos_iff.mpr fun none => delivers (List.isEmpty_iff.mpr none)
        simp only [Inv, steps, List.length_append, List.length_drop]
        refine ⟨⟨kept, onward, ?_⟩, ?_⟩ <;> omega
    | interrupted after calmer =>
      obtain ⟨kept, read⟩ := after
      have onward := advances.trans read
      rw [List.append_nil] at onward
      simp only [if_pos]
      refine ⟨⟨kept, onward, total, some, inner, room, outer⟩, ?_⟩
      simp only [steps]
      omega
    | failed after ended other =>
      obtain ⟨-, read⟩ := after
      have onward := advances.trans read
      rw [List.append_nil] at onward
      simp only [if_neg other]
      exact ⟨⟨nofun, filled, onward, read.left.symm.trans ended, by omega⟩, by simp only [steps]; omega⟩

theorem step_descends (usize : len < target.size) (positive : chunkSize ≠ 0) :
    Loop.Descends (step target chunkSize) (Inv target whole len chunkSize) (steps target) := by
  intro state next inv stepped
  cases state with
  | head ret rest d => exact head_descends positive inv stepped
  | filling filled buf chunk rest d => exact filling_descends usize inv stepped
  | done result d => contradiction

/-- What was consumed is what the source had first, no limit was passed, and the buffer is at most
a chunk longer. -/
def Bounded (target : Target) [FiniteSource target σ] (whole : Reader σ) (chunkSize : Nat)
    (state : State (Reader σ)) : Prop :=
  ∃ consumed, whole.held target = consumed ++ state.reader.held target ∧
    whole.limits = state.reader.limits.map (consumed.length + ·) ∧
    (∀ limit ∈ whole.limits, consumed.length ≤ limit) ∧
    state.buffer.length ≤ consumed.length + chunkSize

theorem Inv.bounded {state : State (Reader σ)} (inv : Inv target whole len chunkSize state) :
    Bounded target whole chunkSize state := by
  cases state with
  | head ret rest d =>
    obtain ⟨-, advances, -⟩ := inv
    exact ⟨ret, advances.held, advances.limits, advances.within, Nat.le_add_right _ _⟩
  | filling filled buf chunk rest d =>
    obtain ⟨-, advances, -, -, -, room, outer⟩ := inv
    refine ⟨filled, advances.held, advances.limits, advances.within, ?_⟩
    rw [State.buffer, List.length_append]
    omega
  | done result d =>
    cases result with
    | ok ret =>
      obtain ⟨advances, -⟩ := inv
      exact ⟨ret, advances.held, advances.limits, advances.within, Nat.le_add_right _ _⟩
    | error stop =>
      obtain ⟨-, taken, advances, -⟩ := inv
      exact ⟨taken, advances.held, advances.limits, advances.within, Nat.zero_le _⟩

theorem start_inv (valid : whole.Valid target) (positive : chunkSize ≠ 0) :
    Inv target whole len chunkSize (start len chunkSize whole) := by
  rw [start, if_pos positive]
  exact ⟨valid, .refl whole, Nat.zero_add len⟩

theorem bounded (valid : whole.Valid target) (len chunkSize : target.Usize)
    (positive : chunkSize.val ≠ 0) (count : Nat) :
    Bounded target whole chunkSize.val (readBytesFromFiniteReader target len chunkSize whole count) :=
  ((step_descends len.isLt positive).run (start_inv valid positive) count).bounded

theorem ends (valid : whole.Valid target) (len chunkSize : target.Usize)
    (positive : chunkSize.val ≠ 0) :
    ∃ count ≤ 4 * len.val + 1 + whole.patience target, ∃ result d,
      readBytesFromFiniteReader target len chunkSize whole count = .done result d ∧
        Inv target whole len.val chunkSize.val (.done result d) := by
  have descends : Loop.Descends (step target chunkSize.val) (Inv target whole len.val chunkSize.val)
      (steps target) := step_descends len.isLt positive
  have inv : Inv target whole len.val chunkSize.val (start len.val chunkSize.val whole) :=
    start_inv valid positive
  obtain ⟨count, few, ended⟩ := descends.ends inv
  have last := descends.run inv count
  rw [← readBytesFromFiniteReader] at ended last
  rw [start, if_pos positive] at few
  refine ⟨count, few, ?_⟩
  cases final : readBytesFromFiniteReader target len chunkSize whole count with
  | head ret rest d => rw [final] at ended; contradiction
  | filling filled buf chunk rest d => rw [final] at ended; contradiction
  | done result d => exact ⟨result, d, rfl, final ▸ last⟩

/-- The source and every limit still hold `len` bytes. -/
def Enough (target : Target) [FiniteSource target σ] (whole : Reader σ) (len : Nat) : Prop :=
  len ≤ (whole.held target).length ∧ ∀ limit ∈ whole.limits, len ≤ limit

theorem Inv.returned {result : Except (Stop ErrorKind) Bytes}
    (inv : Inv target whole len chunkSize (.done result d)) :
    (Enough target whole len → result = .ok ((whole.held target).take len) ∧
      d.held target = (whole.held target).drop len) ∧
    (¬ Enough target whole len → ∃ e, result = .error (.error e)) := by
  rw [Enough, ← Reader.le_length_left]
  cases result with
  | ok ret =>
    obtain ⟨advances, total⟩ := inv
    have enough : len ≤ (whole.left target).length := by
      rw [advances.left, List.length_append]
      omega
    refine ⟨fun _ => ⟨?_, ?_⟩, fun lacking => absurd enough lacking⟩
    · rw [advances.held, ← total, List.take_left]
    · rw [advances.held, ← total, List.drop_left]
  | error stop =>
    obtain ⟨returned, taken, advances, ended, short⟩ := inv
    have lacking : ¬ len ≤ (whole.left target).length := by
      rw [advances.left, ended, List.append_nil]
      omega
    refine ⟨fun enough => absurd enough lacking, fun _ => ?_⟩
    cases stop with
    | panic => contradiction
    | error e => exact ⟨e, rfl⟩

/-- The call returns what the decoder of so many bytes reads of the bytes left. -/
theorem refines (valid : whole.Valid target) (len chunkSize : target.Usize)
    (positive : 0 < chunkSize.val) :
    ∃ count result d, readBytesFromFiniteReader target len chunkSize whole count = .done result d ∧
      ∀ bytes rest, (∃ size, Consensus.readBytesFromFiniteReader len.val chunkSize.val positive
        (whole.left target) = .ok (⟨bytes, size⟩, rest)) ↔
          result = .ok bytes ∧ d.left target = rest := by
  obtain ⟨count, -, result, d, final, inv⟩ := ends valid len chunkSize (Nat.ne_of_gt positive)
  refine ⟨count, result, d, final, fun bytes rest => ?_⟩
  have reads (data : ByteArr len.val) :
      Consensus.readBytesFromFiniteReader len.val chunkSize.val positive (whole.left target) =
        .ok (data, rest) ↔ True ∧ whole.left target = data.val ++ rest :=
    readChunks_reads chunkSize.val positive len.val len.val (Nat.le_refl _) _ data rest
  simp only [reads, true_and]
  cases result with
  | ok ret =>
    obtain ⟨advances, total⟩ := inv
    rw [advances.left]
    constructor
    · rintro ⟨size, same⟩
      obtain ⟨rfl, rfl⟩ := List.append_inj same (total.trans size.symm)
      exact ⟨rfl, rfl⟩
    · rintro ⟨same, rfl⟩
      obtain rfl := Except.ok.inj same
      exact ⟨total, rfl⟩
  | error stop =>
    obtain ⟨-, taken, advances, ended, short⟩ := inv
    rw [advances.left, ended, List.append_nil]
    refine iff_of_false ?_ (fun returned => absurd returned.1 nofun)
    rintro ⟨size, rfl⟩
    rw [List.length_append, size] at short
    omega

end Run

/-- A call ends for every announced length, with that many bytes or an error, having kept to the
limits and grown its buffer with what it consumed; and no calls that keep to what was filled tell a
cursor from a slice behind the same `Take`s. -/
theorem finite_reads (target : Target) :
    (∀ {σ : Type} [FiniteSource target σ] (whole : Reader σ) (len chunkSize : target.Usize),
      whole.Valid target → chunkSize.val ≠ 0 →
      (∀ count, Bounded target whole chunkSize.val
        (readBytesFromFiniteReader target len chunkSize whole count)) ∧
      ∃ count result d, readBytesFromFiniteReader target len chunkSize whole count = .done result d ∧
        (Enough target whole len.val → result = .ok ((whole.held target).take len.val) ∧
          d.held target = (whole.held target).drop len.val) ∧
        (¬ Enough target whole len.val → ∃ e, result = .error (.error e))) ∧
    ∀ (reader : Reader Cursor) (calls : List (Call target)), reader.Valid target →
      Respects 0 calls reader →
      trace calls (reader.map Cursor.slice) = trace calls reader ∧
        ∀ result ∈ trace calls reader, ∃ bytes, result = .ok bytes := by
  refine ⟨?_, ?_⟩
  · intro σ _ whole len chunkSize valid positive
    obtain ⟨count, -, result, d, final, inv⟩ := ends valid len chunkSize positive
    exact ⟨bounded valid len chunkSize positive, count, result, d, final, inv.returned⟩
  · intro reader calls valid respects
    have sliced : (reader.map Cursor.slice).Valid target :=
      Reader.valid_map (fun _ kept => Cursor.Valid.length_slice kept) valid
    have left (cursor : Cursor) :
        InMemory.left target cursor.slice = InMemory.left target cursor := rfl
    have same : (reader.map Cursor.slice).left target = reader.left target :=
      Reader.left_map left reader
    exact trace_alike valid sliced same (Nat.zero_le _) respects

/-- Six bytes in two pieces, with interruptions. -/
def interrupted : Scripted where
  script := [.interruption, .piece 1 [2], .interruption, .interruption, .piece 3 [4, 5, 6]]
  ending := none

/-- Three of six bytes through two `Take`s, and two of three bytes through one. -/
theorem finite_reads_three :
    (∃ count d, readBytesFromFiniteReader ⟨.w64, true⟩ ⟨3, by decide⟩ ⟨2, by decide⟩
      (Reader.take 5 (.take 4 (.source interrupted))) count = .done (.ok [1, 2, 3]) d ∧
      d.held ⟨.w64, true⟩ = [4, 5, 6]) ∧
    trace [Call.fillBuf, Call.consume (⟨2, by decide⟩ : Target.Usize ⟨.w64, true⟩)]
        (Reader.take 2 (.source ([7, 8, 9] : Bytes))) =
      trace [Call.fillBuf, Call.consume (⟨2, by decide⟩ : Target.Usize ⟨.w64, true⟩)]
        (Reader.take 2 (.source (Cursor.new [7, 8, 9]))) := by
  obtain ⟨reads, alike⟩ := finite_reads ⟨.w64, true⟩
  constructor
  · have valid : (Reader.take 5 (.take 4 (.source interrupted))).Valid ⟨.w64, true⟩ := nofun
    obtain ⟨-, count, result, d, final, returned, -⟩ :=
      reads _ ⟨3, by decide⟩ ⟨2, by decide⟩ valid (by decide)
    obtain ⟨rfl, rest⟩ := returned ⟨by decide, by decide⟩
    exact ⟨count, d, final, rest⟩
  · have valid : (Reader.take 2 (.source (Cursor.new [7, 8, 9]))).Valid ⟨.w64, true⟩ :=
      Cursor.valid_new (by decide)
    have filled : Call.run Call.fillBuf (Reader.take 2 (.source (Cursor.new [7, 8, 9]))) =
        ((.ok [7, 8], Reader.take 2 (.source (Cursor.new [7, 8, 9]))) :
          Except (Stop ErrorKind) Bytes × Reader Cursor) := Reader.fillBuf_eq valid
    refine (alike _ _ valid ?_).1
    refine ⟨nofun, fun returned next ran => ?_⟩
    obtain ⟨same, rfl⟩ := Prod.mk.inj (filled.symm.trans ran)
    obtain rfl := Except.ok.inj same
    refine ⟨?_, fun _ _ _ => trivial⟩
    rintro amount consumed
    obtain rfl := Call.consume.inj consumed
    decide

end Litecoin.Consensus.FiniteReader
