import Litecoin.Psbt.SignFrame

/-! Signing an input again. -/
namespace Litecoin.Psbt
open Wire Consensus Blockdata Sighash Crypto Bip32 Taproot Process

section
variable [Secp256k1] [Hashes]

namespace Input

theorem withField_self (input : Input) (f : Field) : input.withField f (input.fields f) = input := by
  rw [withField, Function.update_eq_self]

theorem withField_withField (input : Input) (f : Field) (slot slot' : (table.shape f).Slot) :
    (input.withField f slot).withField f slot' = input.withField f slot' := by
  simp only [withField, Function.update_idem]

end Input

/-- Partial signatures are put into their map one after the other. -/
theorem insertPartialSigs_eq (sigs : List (PublicKey × EcdsaSignature)) (input : Input) :
    insertPartialSigs sigs input =
      input.withField .partialSigs (input.partialSigs.insertMany sigs) := by
  rw [insertPartialSigs, Std.ExtTreeMap.insertMany_list_eq_foldl]
  induction sigs generalizing input with
  | nil => exact (input.withField_self .partialSigs).symm
  | cons sig sigs ih => exact (ih _).trans (input.withField_withField .partialSigs _ _)

/-- The same partial signatures change nothing when they are put in again. -/
theorem insertPartialSigs_again (sigs : List (PublicKey × EcdsaSignature)) (input : Input) :
    insertPartialSigs sigs (insertPartialSigs sigs input) = insertPartialSigs sigs input := by
  rw [insertPartialSigs_eq sigs input, insertPartialSigs_eq]
  refine (input.withField_withField .partialSigs _ _).trans ?_
  exact congrArg (input.withField .partialSigs) (BTreeMap.insertMany_again input.partialSigs sigs)

theorem SameUnsigned.ecdsaMessageOf {before before' : Psbt} {inputIndex : Nat}
    (same : SameUnsigned before before') :
    before'.ecdsaMessageOf inputIndex = before.ecdsaMessageOf inputIndex := by
  rw [Psbt.ecdsaMessageOf, Psbt.ecdsaMessageOf, ← sighashEcdsa_withoutSignatures, ← same,
    sighashEcdsa_withoutSignatures, same.unsignedTx]

variable [SighashTag] [Secp256k1.Secrets] [Secp256k1.KeyTweaks] [Secp256k1.Signing] [TweakHash]

theorem signInput_ecdsa (k : GetKey ε) {inputIndex : Nat} {session : Session}
    (algorithm : (session.psbt.signingAlgorithm inputIndex).run = some (.ok .ecdsa)) :
    signInput k inputIndex session = ((bip32SignEcdsa k inputIndex session).1.map .ecdsa,
      (bip32SignEcdsa k inputIndex session).2) := by
  simp only [signInput, bind_apply, look_apply, runLookup, ofExcept_apply, algorithm,
    Except.mapError]
  rcases bip32SignEcdsa k inputIndex session with ⟨stop | keys, after⟩ <;> rfl

theorem signInput_schnorr (k : GetKey ε) {inputIndex : Nat} {session : Session}
    (algorithm : (session.psbt.signingAlgorithm inputIndex).run = some (.ok .schnorr)) :
    signInput k inputIndex session = ((bip32SignSchnorr k inputIndex session).1.map .schnorr,
      (bip32SignSchnorr k inputIndex session).2) := by
  simp only [signInput, bind_apply, look_apply, runLookup, ofExcept_apply, algorithm,
    Except.mapError]
  rcases bip32SignSchnorr k inputIndex session with ⟨stop | keys, after⟩ <;> rfl

/-- An input is signed again, and nothing changes. Where the first run did not get through,
the second one does not either. -/
structure Idle (first second : Except (Stop SignError) α) (before after : Psbt) : Prop where
  unchanged : after = before
  panics : first = .error .panic → second = .error .panic

omit [SighashTag] [Secp256k1.Secrets] [Secp256k1.KeyTweaks] [Secp256k1.Signing] [TweakHash] in
theorem Idle.of_returned {first second : Except (Stop SignError) α} {before after : Psbt}
    (unchanged : after = before) (returned : first ≠ .error .panic) : Idle first second before after :=
  ⟨unchanged, fun panicked => absurd panicked returned⟩

omit [SighashTag] [Secp256k1.Secrets] [Secp256k1.KeyTweaks] [Secp256k1.Signing] [TweakHash] in
theorem Idle.map {first second : Except (Stop SignError) α} {before after : Psbt}
    (idle : Idle first second before after) (f : α → β) :
    Idle (first.map f) (second.map f) before after where
  unchanged := idle.unchanged
  panics panicked := by
    rcases first with stop | a
    · cases panicked
      rw [idle.panics rfl]
      rfl
    · contradiction

omit [SighashTag] [Secp256k1.Secrets] [Secp256k1.KeyTweaks] [Secp256k1.Signing] [TweakHash] in
theorem changeInput_eq_self {psbt : Psbt} {inputIndex : Nat} {change : Input → Input}
    (fixed : ∀ input, psbt.inputs[inputIndex]? = some input → change input = input) :
    psbt.changeInput inputIndex change = psbt := by
  have inputs : psbt.inputs.modify inputIndex change = psbt.inputs := by
    refine List.ext_getElem? fun i => ?_
    by_cases same : inputIndex = i
    · obtain rfl := same
      rw [List.getElem?_modify_eq]
      cases listed : psbt.inputs[inputIndex]? with
      | none => rfl
      | some input => exact congrArg some (fixed input listed)
    · exact List.getElem?_modify_ne change psbt.inputs same
  rw [changeInput, inputs]

variable {before before' : Psbt} {inputIndex : Nat} {first second : Session}

omit [SighashTag] [TweakHash] in
theorem bip32SignEcdsa_again (k : GetKey ε) (signs : Signs before first)
    (signs' : Signs before' second) (same : SameUnsigned before before')
    (signed : before'.inputs[inputIndex]? =
      (bip32SignEcdsa k inputIndex first).2.psbt.inputs[inputIndex]?) :
    Idle (bip32SignEcdsa k inputIndex first).1 (bip32SignEcdsa k inputIndex second).1 before'
      (bip32SignEcdsa k inputIndex second).2.psbt := by
  obtain ⟨cache, -, ran⟩ := bip32SignEcdsa_eq k inputIndex signs
  obtain ⟨cache', -, ran'⟩ := bip32SignEcdsa_eq k inputIndex signs'
  rw [ran] at signed ⊢
  rw [ran', same.ecdsaMessageOf]
  cases told : before.ecdsaMessageOf inputIndex with
  | none => exact ⟨signs'.psbt, fun _ => rfl⟩
  | some message =>
    rw [told] at signed
    have alike := same.listed inputIndex
    cases listed : before.inputs[inputIndex]? with
    | none =>
      rw [listed] at alike
      rw [Option.map_eq_none_iff.mp alike]
      exact ⟨signs'.psbt, fun _ => rfl⟩
    | some input =>
      rw [listed] at signed
      dsimp only at signed
      generalize again : derivedSigs k message input.bip32Derivation.toList = run at signed ⊢
      have there : before'.inputs[inputIndex]? = some (insertPartialSigs run.1 input) := by
        refine signed.trans ((List.getElem?_modify_eq _ _ _).trans ?_)
        rw [listed]
        rfl
      have derivation : (insertPartialSigs run.1 input).bip32Derivation = input.bip32Derivation :=
        (insertPartialSigs_adds run.1 input).field .bip32Derivation (by decide)
      simp only [there, derivation, again]
      refine ⟨changeInput_eq_self fun other found => ?_, fun panicked => panicked⟩
      obtain rfl := Option.some.inj (there.symm.trans found)
      exact insertPartialSigs_again run.1 input

/-- Inputs are signed on copies of them. -/
theorem bip32SignSchnorr_eq (k : GetKey ε) {session : Session} {input : Input}
    (checked : (session.psbt.checkedInput inputIndex).run = some (.ok input)) :
    bip32SignSchnorr k inputIndex session =
      match input.tapKeyOrigins.toList.foldlM (signOrigin k inputIndex) (input, []) session with
      | (.ok (after, used), middle) => (.ok used, (modifyInput inputIndex (fun _ => after) middle).2)
      | (.error stop, middle) => (.error stop, middle) := by
  simp only [bip32SignSchnorr, bind_apply, look_apply, runLookup, ofExcept_apply, checked,
    Except.mapError]
  rcases input.tapKeyOrigins.toList.foldlM (signOrigin k inputIndex) (input, []) session with
    ⟨stop | ⟨after, used⟩, middle⟩ <;> rfl

/-- The copy of the second run is the one that the first run left, and has nothing left to
sign. A first run that stopped left the input as it was. -/
theorem bip32SignSchnorr_again (k : GetKey ε) (derandomized : Derandomized)
    (signs : Signs before first) (signs' : Signs before' second) (same : SameUnsigned before before')
    (signed : before'.inputs[inputIndex]? =
      (bip32SignSchnorr k inputIndex first).2.psbt.inputs[inputIndex]?) :
    Idle (bip32SignSchnorr k inputIndex first).1 (bip32SignSchnorr k inputIndex second).1 before'
      (bip32SignSchnorr k inputIndex second).2.psbt := by
  obtain ⟨rfl, twin⟩ := signs
  obtain ⟨rfl, twin'⟩ := signs'
  have alike := congrArg ExceptT.run (same.checkedInput inputIndex)
  rw [ExceptT.run_map, ExceptT.run_map] at alike
  rcases checked : (first.psbt.checkedInput inputIndex).run with _ | e | input <;>
    rcases checked' : (second.psbt.checkedInput inputIndex).run with _ | e' | input' <;>
      rw [checked, checked'] at alike
  case some.ok.some.ok =>
    have unsigned : input'.withoutSignatures = input.withoutSignatures :=
      Except.ok.inj (Option.some.inj alike)
    have origins : input'.tapKeyOrigins = input.tapKeyOrigins :=
      Input.fields_of_unsigned (f := .tapKeyOrigins) unsigned (by decide)
    have listed := checkedInput_listed checked
    have listed' := checkedInput_listed checked'
    rw [bip32SignSchnorr_eq k checked] at signed ⊢
    rw [bip32SignSchnorr_eq k checked', origins]
    obtain ⟨⟨unchanged, -⟩, steps⟩ := signOrigins_yields k inputIndex (input, [])
      input.tapKeyOrigins.toList first ⟨rfl, twin⟩
    obtain ⟨⟨unchanged', -⟩, steps'⟩ := signOrigins_yields k inputIndex (input', [])
      input.tapKeyOrigins.toList second ⟨rfl, twin'⟩
    rcases ran : input.tapKeyOrigins.toList.foldlM (signOrigin k inputIndex) (input, []) first with
      ⟨stop | ⟨after, used⟩, middle⟩
    · rw [ran] at signed unchanged
      dsimp only at signed unchanged
      rw [unchanged, listed, listed'] at signed
      obtain rfl := Option.some.inj signed
      have beside : Beside first.psbt second.psbt first second :=
        ⟨rfl, rfl, ⟨twin.tx.trans (same.unsignedTx ▸ twin'.tx.symm), twin.left,
          same.spentOutputs ▸ twin'.left⟩⟩
      have lockstep : Lockstep (Beside first.psbt second.psbt)
          (input'.tapKeyOrigins.toList.foldlM (signOrigin k inputIndex) (input', [])) :=
        .foldlM (signOrigin_lockstep same derandomized k) _ _
      have stopped := (lockstep first second beside).1
      rw [ran] at stopped
      generalize input'.tapKeyOrigins.toList.foldlM (signOrigin k inputIndex) (input', []) second = ran'
        at stopped unchanged' ⊢
      obtain ⟨_, middle'⟩ := ran'
      obtain rfl := stopped
      exact ⟨unchanged', fun panicked => panicked⟩
    · rw [ran] at signed unchanged steps
      have signedInput : second.psbt.inputs[inputIndex]? = some after := by
        refine signed.trans ((List.getElem?_modify_eq _ _ _).trans ?_)
        dsimp only at unchanged
        rw [unchanged, listed]
        rfl
      obtain rfl := Option.some.inj (listed'.symm.trans signedInput)
      rcases ran' : input.tapKeyOrigins.toList.foldlM (signOrigin k inputIndex) (input', []) second with
        ⟨stop | ⟨after', used'⟩, middle'⟩
      · rw [ran'] at unchanged'
        exact .of_returned unchanged' (by simp)
      · rw [ran'] at unchanged' steps'
        have settled := (steps _ rfl).settles
        have nothing := (steps' _ rfl).eq_of_settled settled
        obtain ⟨rfl, -⟩ := Prod.mk.inj nothing
        refine .of_returned ?_ (by simp)
        have left : (modifyInput inputIndex (fun _ => after') middle').2.psbt =
            second.psbt.changeInput inputIndex fun _ => after' := by
          rw [← unchanged']
          rfl
        refine left.trans (changeInput_eq_self fun other found => ?_)
        exact Option.some.inj (listed'.symm.trans found)
  case none.none =>
    simp only [bip32SignSchnorr, bind_apply, look_apply, runLookup, ofExcept_apply, checked']
    exact ⟨rfl, fun _ => rfl⟩
  case some.error.some.error =>
    simp only [bip32SignSchnorr, bind_apply, look_apply, runLookup, ofExcept_apply, checked,
      checked', Except.mapError]
    exact .of_returned rfl (by simp)
  all_goals cases alike

theorem signInput_again (k : GetKey ε) (derandomized : Derandomized)
    (signs : Signs before first) (signs' : Signs before' second) (same : SameUnsigned before before')
    (signed : before'.inputs[inputIndex]? =
      (signInput k inputIndex first).2.psbt.inputs[inputIndex]?) :
    Idle (signInput k inputIndex first).1 (signInput k inputIndex second).1 before'
      (signInput k inputIndex second).2.psbt := by
  obtain ⟨rfl, twin⟩ := signs
  obtain ⟨rfl, twin'⟩ := signs'
  rcases algorithm : (first.psbt.signingAlgorithm inputIndex).run with _ | e | _ | _ <;>
    have algorithm' := algorithm <;> rw [← same.signingAlgorithm] at algorithm'
  · simp only [signInput, bind_apply, look_apply, runLookup, ofExcept_apply, algorithm']
    exact ⟨rfl, fun _ => rfl⟩
  · simp only [signInput, bind_apply, look_apply, runLookup, ofExcept_apply, algorithm,
      algorithm', Except.mapError]
    exact .of_returned rfl (by simp)
  · rw [signInput_ecdsa k algorithm] at signed ⊢
    rw [signInput_ecdsa k algorithm']
    exact (bip32SignEcdsa_again k ⟨rfl, twin⟩ ⟨rfl, twin'⟩ same signed).map _
  · rw [signInput_schnorr k algorithm] at signed ⊢
    rw [signInput_schnorr k algorithm']
    exact (bip32SignSchnorr_again k derandomized ⟨rfl, twin⟩ ⟨rfl, twin'⟩ same signed).map _

end
end Litecoin.Psbt
