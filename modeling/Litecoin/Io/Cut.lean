import Litecoin.Io.Source

/-! Programs whose bytes are cut off, and programs behind one limit. -/
namespace Litecoin

namespace Wire.Program

/-- The bytes end before the program has what it asks for. -/
inductive Starves : Program ε α → Bytes → Prop where
  | short {next : { chunk : Bytes // chunk.length = n } → Program ε α} :
      bytes.length < n → Starves (.read n next) bytes
  | later {next : { chunk : Bytes // chunk.length = n } → Program ε α} :
      Starves (next chunk) rest → Starves (.read n next) (chunk.val ++ rest)

/-- A program that reads to the end of the lost bytes starves without them. -/
theorem starves_of_cut {p : Program ε α} {eof : ε} {a : α} {part lost rest : Bytes} (some' : lost ≠ [])
    (ran : p.slice eof (part ++ lost ++ rest) = .ok (a, rest)) : p.Starves part := by
  induction p generalizing part with
  | done b =>
    obtain ⟨-, same⟩ := Prod.mk.inj (Except.ok.inj ran)
    have none := List.append_left_eq_self.mp same
    exact absurd (List.append_eq_nil_iff.mp none).2 some'
  | fail e => contradiction
  | read n next ih =>
    obtain ⟨chunk, behind, taken, further⟩ := Decoder.bind_eq_ok.mp ran
    have split := Decoder.exact_eq_ok.mp taken
    by_cases short : part.length < n
    · exact .short short
    · obtain ⟨after, rfl⟩ : ∃ after, part = chunk.val ++ after := by
        refine List.prefix_of_prefix_length_le ⟨behind, split.symm⟩ ⟨lost ++ rest, ?_⟩ ?_ |>.imp
          fun after same => same.symm
        · rw [List.append_assoc]
        · rw [chunk.property]
          exact Nat.not_lt.mp short
      rw [List.append_assoc, List.append_assoc, List.append_cancel_left_eq] at split
      rw [← split, ← List.append_assoc] at further
      exact .later (ih chunk further)

end Wire.Program

namespace Io
open Wire

namespace Source
variable {target : Target} [Source target σ] {source : σ} {Own : ε → Prop} {p : Program ε α}

/-- A program that starves reports the end or the error of its source. -/
theorem run_starves (eof : ε) (proper : p.Proper Own target.size) {fuel : Nat} (valid : Valid target source)
    (enough : calls target source < fuel) (starves : p.Starves ((prospect target).left source)) :
    ∃ next, run target fuel p source =
      (.error (.error (.io (((prospect target).ending source).getD .unexpectedEof))), next) := by
  induction p generalizing source with
  | done a => cases starves
  | fail e => cases starves
  | read n next ih =>
    have first : Follows target eof (fun _ => False) source
        (Decoder.exact n eof ((prospect target).left source)) (readExact target fuel n source) :=
      readExact_follows fuel n proper.1 valid enough
    rw [run]
    generalize sliced : Decoder.exact n eof ((prospect target).left source) = result at first
    generalize readExact target fuel n source = ran at first ⊢
    cases first with
    | @value _ chunk after passes =>
      have split := Decoder.exact_eq_ok.mp sliced
      generalize (prospect target).left source = bytes at starves split
      cases starves with
      | short short =>
        rw [split, List.length_append, chunk.property] at short
        omega
      | later starves =>
        rename_i rest chunk'
        obtain ⟨same, behind⟩ := List.append_inj split (chunk'.property.trans chunk.property.symm)
        obtain rfl := Subtype.ext same
        obtain rfl := behind
        have fewer : calls target after < fuel := by
          have := calls_le passes
          omega
        rw [← Source.ending_eq _ _ _ passes]
        exact ih chunk' (proper.2 chunk') (Source.valid _ _ _ passes) fewer starves
    | refused _ own => contradiction
    | ended passes ends =>
      rw [ends]
      exact ⟨_, rfl⟩
    | broke ends broken =>
      rw [ends]
      exact ⟨_, rfl⟩

/-- What is read of the bytes that a limit lets through. -/
theorem run_limited (proper : p.Proper Own target.size) {fuel : Nat} (valid : Valid target source)
    (enough : calls target source < fuel) (limit : UInt64) {a : α} {rest : Bytes} {eof : ε}
    (ran : p.slice eof (((prospect target).left source).take limit.toNat) = .ok (a, rest)) :
    ∃ (bytes : Bytes) (next : Reader σ), run target fuel p (Reader.take limit (.source source)) = (.ok a, next) ∧
      (prospect target).Passes source bytes next.inner ∧
      (prospect target).left next.inner = rest ++ ((prospect target).left source).drop limit.toNat := by
  have fewer := Nat.lt_of_le_of_lt (calls_take limit source) enough
  have behind : Valid target (Reader.take limit (.source source)) := valid
  have follows : Follows target eof Own _ _ _ := run_follows proper behind fewer
  change Follows target eof Own _ (p.slice eof (((prospect target).left source).take _)) _ at follows
  rw [ran] at follows
  generalize run target fuel p (Reader.take limit (.source source)) = result at follows ⊢
  generalize sliced : (Except.ok (a, rest) : Except ε (α × Bytes)) = slice at follows
  cases follows with
  | value passes =>
    obtain ⟨rfl, rfl⟩ := Prod.mk.inj (Except.ok.inj sliced)
    cases passes with
    | take counted passes =>
    cases passes with
    | source passes => exact ⟨_, _, rfl, passes, (take_drop_left passes counted).symm⟩
  | _ => contradiction

end Source
end Io
end Litecoin
