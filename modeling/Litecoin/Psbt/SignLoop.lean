import Litecoin.Psbt.SignAgain

/-! The loop over the inputs, once and again. -/
namespace Litecoin.Psbt
open Wire Consensus Blockdata Sighash Crypto Bip32 Taproot Process

section
variable [Secp256k1] [Hashes] [SighashTag] [Secp256k1.Secrets] [Secp256k1.KeyTweaks]
  [Secp256k1.Signing] [TweakHash]

/-- What the rounds for some inputs have done. -/
structure Reach (original : Psbt) (done : List Nat) (session : Session) : Prop where
  adds : AddsSignatures original session.psbt
  signs : Signs session.psbt session
  untouched : ∀ i, i ∉ done → session.psbt.inputs[i]? = original.inputs[i]?

namespace Reach
variable {original : Psbt} {done : List Nat} {session : Session}

omit [SighashTag] [Secp256k1.Secrets] [Secp256k1.KeyTweaks] [Secp256k1.Signing] [TweakHash] in
theorem start (signs : Signs original session) : Reach original [] session := by
  obtain ⟨rfl, twin⟩ := signs
  exact ⟨.refl session.psbt, ⟨rfl, twin⟩, fun _ _ => rfl⟩

omit [SighashTag] [Secp256k1.Secrets] [Secp256k1.KeyTweaks] [Secp256k1.Signing] [TweakHash] in
theorem mono {more : List Nat} (reach : Reach original done session) (subset : done ⊆ more) :
    Reach original more session :=
  ⟨reach.adds, reach.signs, fun i fresh => reach.untouched i fun old => fresh (subset old)⟩

theorem signInput (reach : Reach original done session) (k : GetKey ε) (inputIndex : Nat) :
    Reach original (done ++ [inputIndex]) (signInput k inputIndex session).2 := by
  obtain ⟨adds, signs, others, -⟩ := signInput_adds k inputIndex reach.signs
  refine ⟨reach.adds.trans adds, signs, fun i fresh => ?_⟩
  rw [List.mem_append, List.mem_singleton, not_or] at fresh
  rw [others i fresh.2]
  exact reach.untouched i fresh.1

end Reach

theorem signNext_session (k : GetKey ε) (report : Report) (inputIndex : Nat) (session : Session) :
    (signNext k report inputIndex session).2 = (signInput k inputIndex session).2 := by
  rw [signNext, bind_apply, attempt]
  rcases signInput k inputIndex session with ⟨(_ | e) | keys, after⟩ <;> rfl

/-- The rounds for more inputs. -/
theorem Reach.signRest {original : Psbt} {done : List Nat} {session : Session}
    (reach : Reach original done session) (k : GetKey ε) (indices : List Nat) (report : Report) :
    Reach original (done ++ indices) (indices.foldlM (signNext k) report session).2 := by
  induction indices generalizing done report session with
  | nil =>
    rw [List.append_nil]
    exact reach
  | cons inputIndex indices ih =>
    have next := reach.signInput k inputIndex
    rw [← signNext_session k report] at next
    rw [List.foldlM_cons, bind_apply, List.append_cons]
    generalize signNext k report inputIndex session = ran at next ⊢
    rcases ran with ⟨stop | report', after⟩
    · exact next.mono (List.subset_append_left _ _)
    · exact ih next report'

end

/-! The report. -/

section
variable [Secp256k1] [Hashes]

/-- What the report says about the inputs that are done. -/
structure Covers (original : Psbt) (done : List Nat) (report : Report) (session : Session) : Prop where
  reported : ∀ i, i ∈ report.used ∨ i ∈ report.errors ↔ i ∈ done
  disjoint : ∀ i, i ∈ report.used → i ∉ report.errors
  failed : ∀ i, i ∈ report.errors → session.psbt.inputs[i]? = original.inputs[i]?

namespace Covers
variable {original : Psbt} {done : List Nat} {report : Report} {session after : Session}
  {inputIndex : Nat}

theorem start (original : Psbt) (session : Session) :
    Covers original [] Report.empty session where
  reported i := by simp [Report.empty]
  disjoint i := by simp [Report.empty]
  failed i := by simp [Report.empty]

/-- An input that is signed. -/
theorem used (covers : Covers original done report session) (fresh : inputIndex ∉ done)
    (others : ∀ j, j ≠ inputIndex → after.psbt.inputs[j]? = session.psbt.inputs[j]?)
    (keys : SigningKeys) :
    Covers original (done ++ [inputIndex]) (report.add inputIndex (.ok keys)) after where
  reported i := by
    simp only [Report.add, BTreeMap.mem_insert, List.mem_append, List.mem_singleton, ← covers.reported]
    tauto
  disjoint i := by
    simp only [Report.add, BTreeMap.mem_insert]
    rintro (rfl | listed) failed
    · exact fresh ((covers.reported inputIndex).mp (.inr failed))
    · exact covers.disjoint i listed failed
  failed i failed := by
    have other : i ≠ inputIndex := by
      rintro rfl
      exact fresh ((covers.reported i).mp (.inr failed))
    rw [others i other]
    exact covers.failed i failed

/-- An input that is not. -/
theorem errors (covers : Covers original done report session) (fresh : inputIndex ∉ done)
    (unchanged : after.psbt = session.psbt)
    (untouched : session.psbt.inputs[inputIndex]? = original.inputs[inputIndex]?) (e : SignError) :
    Covers original (done ++ [inputIndex]) (report.add inputIndex (.error e)) after where
  reported i := by
    simp only [Report.add, BTreeMap.mem_insert, List.mem_append, List.mem_singleton, ← covers.reported]
    tauto
  disjoint i := by
    simp only [Report.add, BTreeMap.mem_insert]
    rintro listed (rfl | failed)
    · exact fresh ((covers.reported inputIndex).mp (.inl listed))
    · exact covers.disjoint i listed failed
  failed i := by
    simp only [Report.add, BTreeMap.mem_insert]
    rw [unchanged]
    rintro (rfl | failed)
    · exact untouched
    · exact covers.failed i failed

variable [SighashTag] [Secp256k1.Secrets] [Secp256k1.KeyTweaks] [Secp256k1.Signing] [TweakHash]

theorem signNext (covers : Covers original done report session) (reach : Reach original done session)
    (fresh : inputIndex ∉ done) {k : GetKey ε} {report' : Report}
    (ran : signNext k report inputIndex session = (.ok report', after)) :
    Covers original (done ++ [inputIndex]) report' after := by
  obtain ⟨-, -, others, failed⟩ := signInput_adds k inputIndex reach.signs
  rw [Psbt.signNext, bind_apply, attempt] at ran
  generalize signInput k inputIndex session = signed at ran others failed
  rcases signed with ⟨(_ | e) | keys, next⟩
  · cases ran
  · cases ran
    exact covers.errors fresh (failed e rfl) (reach.untouched inputIndex fresh) e
  · cases ran
    exact covers.used fresh others keys

theorem signInputs {psbt : Psbt} {k : GetKey ε} {report : Report} {after : Session}
    (ran : (List.range psbt.inputs.length).foldlM (Psbt.signNext k) Report.empty (.new psbt) =
      (.ok report, after)) :
    Covers psbt (List.range psbt.inputs.length) report after := by
  refine (foldlM_run (fun done report session =>
    Reach psbt done session ∧ Covers psbt done report session) (fun _ => True)
    ⟨.start (.new psbt), .start psbt _⟩ ?_).1 report after ran |>.2
  rintro done inputIndex rest whole report session ⟨reach, covers⟩
  refine ⟨fun report' after ran => ⟨?_, ?_⟩, fun _ _ _ => trivial⟩
  · have next := reach.signInput k inputIndex
    rwa [← signNext_session k report, ran] at next
  · refine covers.signNext reach (fun old => ?_) ran
    have nodup := List.nodup_range (n := psbt.inputs.length)
    rw [← whole] at nodup
    exact List.disjoint_of_nodup_append nodup old List.mem_cons_self

end Covers
end

/-! The loop over the PSBT that a loop has left. -/

section
variable [Secp256k1] [Hashes] [SighashTag] [Secp256k1.Secrets] [Secp256k1.KeyTweaks]
  [Secp256k1.Signing] [TweakHash]

/-- A panic ends the loop. -/
theorem signNext_cons (k : GetKey ε) (report : Report) (inputIndex : Nat) (indices : List Nat)
    (session : Session) :
    ((signInput k inputIndex session).1 = .error .panic ∧
      ((inputIndex :: indices).foldlM (signNext k) report session).2 =
        (signInput k inputIndex session).2) ∨
    ((signInput k inputIndex session).1 ≠ .error .panic ∧ ∃ report',
      ((inputIndex :: indices).foldlM (signNext k) report session).2 =
        (indices.foldlM (signNext k) report' (signInput k inputIndex session).2).2) := by
  rw [List.foldlM_cons, bind_apply, signNext, bind_apply, attempt]
  rcases signInput k inputIndex session with ⟨(_ | e) | keys, after⟩
  · exact .inl ⟨rfl, rfl⟩
  · exact .inr ⟨by simp, report.add inputIndex (.error e), rfl⟩
  · exact .inr ⟨by simp, report.add inputIndex (.ok keys), rfl⟩

/-- The second loop goes on as long as the first one did, and finds every input as the first
one has left it. -/
theorem signRest_again (k : GetKey ε) (derandomized : Derandomized) {signed : Psbt}
    (indices : List Nat) (distinct : indices.Nodup) (report report' : Report)
    {first second : Session} (signs : Signs first.psbt first) (signs' : Signs signed second)
    (ended : (indices.foldlM (signNext k) report first).2.psbt = signed) :
    (indices.foldlM (signNext k) report' second).2.psbt = signed := by
  induction indices generalizing report report' first second with
  | nil => exact signs'.psbt
  | cons inputIndex indices ih =>
    rw [List.nodup_cons] at distinct
    have reach := (Reach.start signs).signRest k (inputIndex :: indices) report
    have same : SameUnsigned first.psbt signed := ended ▸ reach.adds.same
    have round := signInput_adds k inputIndex signs
    have found : signed.inputs[inputIndex]? =
        (signInput k inputIndex first).2.psbt.inputs[inputIndex]? := by
      rcases signNext_cons k report inputIndex indices first with ⟨_, stops⟩ | ⟨_, next, goes⟩
      · rw [← ended, stops]
      · rw [← ended, goes]
        exact ((Reach.start round.2.1).signRest k indices next).untouched inputIndex distinct.1
    have idle := signInput_again k derandomized signs signs' same found
    rcases signNext_cons k report' inputIndex indices second with ⟨_, stops'⟩ | ⟨survives, next', goes'⟩
    · rw [stops']
      exact idle.unchanged
    · rcases signNext_cons k report inputIndex indices first with ⟨panics, _⟩ | ⟨_, next, goes⟩
      · exact absurd (idle.panics panics) survives
      · have handed := (signInput_adds k inputIndex signs').2.1
        rw [idle.unchanged] at handed
        rw [goes']
        exact ih distinct.2 next next' round.2.1 handed (goes ▸ ended)

/-! What a call does. -/

omit [SighashTag] [Secp256k1.Secrets] [Secp256k1.KeyTweaks] [Secp256k1.Signing] [TweakHash] in
/-- The keys and the errors that are returned. -/
def reports : Except (SigningKeysMap × SigningErrors) SigningKeysMap → SigningKeysMap × SigningErrors
  | .ok used => (used, ∅)
  | .error both => both

omit [Hashes] [SighashTag] [Secp256k1.Secrets] [Secp256k1.KeyTweaks] [Secp256k1.Signing] [TweakHash] in
theorem reports_result (report : Report) : reports report.result = (report.used, report.errors) := by
  rw [Report.result]
  split
  case isTrue empty =>
    rw [reports, Std.ExtTreeMap.isEmpty_iff.mp empty]
  case isFalse => rfl

/-- Signing adds signatures and does nothing else. -/
structure OnlySigns (k : GetKey ε) (psbt : Psbt) : Prop where
  adds : AddsSignatures psbt (sign k psbt).2
  reported : ∀ result, (sign k psbt).1 = some result →
    ∀ i, i ∈ (reports result).1 ∨ i ∈ (reports result).2 ↔ i < psbt.inputs.length
  disjoint : ∀ result, (sign k psbt).1 = some result →
    ∀ i, i ∈ (reports result).1 → i ∉ (reports result).2
  failed : ∀ result, (sign k psbt).1 = some result →
    ∀ i, i ∈ (reports result).2 → (sign k psbt).2.inputs[i]? = psbt.inputs[i]?
  again : Derandomized → (sign k (sign k psbt).2).2 = (sign k psbt).2

theorem sign_adds (k : GetKey ε) (psbt : Psbt) : AddsSignatures psbt (sign k psbt).2 :=
  ((Reach.start (.new psbt)).signRest k (List.range psbt.inputs.length) Report.empty).adds

theorem sign_covers {k : GetKey ε} {psbt : Psbt}
    {result : Except (SigningKeysMap × SigningErrors) SigningKeysMap}
    (returned : (sign k psbt).1 = some result) : ∃ report session,
      reports result = (report.used, report.errors) ∧ session.psbt = (sign k psbt).2 ∧
        Covers psbt (List.range psbt.inputs.length) report session := by
  rw [sign] at returned ⊢
  rcases ran : (List.range psbt.inputs.length).foldlM (signNext k) Report.empty (.new psbt) with
    ⟨stop | report, session⟩
  · rw [ran] at returned
    cases returned
  · rw [ran] at returned
    cases returned
    exact ⟨report, session, reports_result report, rfl, .signInputs ran⟩

theorem sign_onlySigns (k : GetKey ε) (psbt : Psbt) : OnlySigns k psbt where
  adds := sign_adds k psbt
  reported result returned i := by
    obtain ⟨report, session, same, -, covers⟩ := sign_covers returned
    rw [same, ← List.mem_range]
    exact covers.reported i
  disjoint result returned i := by
    obtain ⟨report, session, same, -, covers⟩ := sign_covers returned
    rw [same]
    exact covers.disjoint i
  failed result returned i := by
    obtain ⟨report, session, same, signed, covers⟩ := sign_covers returned
    rw [same, ← signed]
    exact covers.failed i
  again derandomized := by
    have again := signRest_again k derandomized (List.range psbt.inputs.length) List.nodup_range
      Report.empty Report.empty (.new psbt) (.new (sign k psbt).2) rfl
    rw [← (sign_adds k psbt).length] at again
    exact again

end
end Litecoin.Psbt
