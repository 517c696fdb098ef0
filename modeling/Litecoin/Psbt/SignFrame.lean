import Litecoin.Psbt.SignSteps

/-! Signing only adds signatures. -/
namespace Litecoin.Psbt
open Wire Consensus Blockdata Sighash Crypto Bip32 Taproot Process

section
variable [Secp256k1] [Hashes]

namespace Input

theorem withField_fields {input : Input} {f g : Field} {slot : (table.shape g).Slot} (other : f ≠ g) :
    (input.withField g slot).fields f = input.fields f := by
  unfold withField
  dsimp only
  exact Function.update_of_ne other _ _

theorem withoutSignatures_fields {input : Input} {f : Field}
    (other : f ≠ .partialSigs ∧ f ≠ .tapKeySig ∧ f ≠ .tapScriptSigs) :
    input.withoutSignatures.fields f = input.fields f :=
  (withField_fields other.2.2).trans ((withField_fields other.2.1).trans (withField_fields other.1))

theorem fields_of_unsigned {input input' : Input} {f : Field}
    (unsigned : input'.withoutSignatures = input.withoutSignatures)
    (other : f ≠ .partialSigs ∧ f ≠ .tapKeySig ∧ f ≠ .tapScriptSigs) :
    input'.fields f = input.fields f := by
  rw [← withoutSignatures_fields other, unsigned, withoutSignatures_fields other]

theorem withoutSignatures_withField (input : Input) {f : Field} (slot : (table.shape f).Slot)
    (signatures : f = .partialSigs ∨ f = .tapKeySig ∨ f = .tapScriptSigs) :
    (input.withField f slot).withoutSignatures = input.withoutSignatures := by
  rcases signatures with rfl | rfl | rfl
  all_goals
    simp only [withoutSignatures, withField]
    congr 1
    funext g
    cases g <;> rfl

/-- Nothing but signatures differs, and those that were there are still there. A partial
signature may be made again. -/
structure AddsSignatures (before after : Input) : Prop where
  unchanged : after.withoutSignatures = before.withoutSignatures
  partialSigs : ∀ key : PublicKey, key ∈ before.partialSigs → key ∈ after.partialSigs
  tapKeySig : ∀ sig, before.tapKeySig = some sig → after.tapKeySig = some sig
  tapScriptSigs : ∀ (key : Secp256k1.XOnlyPublicKey × TapLeafHash) (sig : TaprootSignature),
    before.tapScriptSigs[key]? = some sig → after.tapScriptSigs[key]? = some sig

namespace AddsSignatures
variable {before middle after : Input}

theorem refl (input : Input) : AddsSignatures input input where
  unchanged := rfl
  partialSigs _ there := there
  tapKeySig _ there := there
  tapScriptSigs _ _ there := there

theorem trans (first : AddsSignatures before middle) (second : AddsSignatures middle after) :
    AddsSignatures before after where
  unchanged := second.unchanged.trans first.unchanged
  partialSigs key there := second.partialSigs key (first.partialSigs key there)
  tapKeySig sig there := second.tapKeySig sig (first.tapKeySig sig there)
  tapScriptSigs key sig there := second.tapScriptSigs key sig (first.tapScriptSigs key sig there)

/-- A field that holds no signatures is kept. -/
theorem field (adds : AddsSignatures before after) (f : Field)
    (other : f ≠ .partialSigs ∧ f ≠ .tapKeySig ∧ f ≠ .tapScriptSigs) :
    after.fields f = before.fields f :=
  fields_of_unsigned adds.unchanged other

theorem tapInternalKey (adds : AddsSignatures before after) :
    after.tapInternalKey = before.tapInternalKey :=
  adds.field .tapInternalKey (by decide)

theorem tapKeyOrigins (adds : AddsSignatures before after) :
    after.tapKeyOrigins = before.tapKeyOrigins :=
  adds.field .tapKeyOrigins (by decide)

theorem insertPartialSig (input : Input) (pk : PublicKey) (sig : EcdsaSignature) :
    AddsSignatures input (input.insertPartialSig pk sig) where
  unchanged := withoutSignatures_withField _ _ (.inl rfl)
  partialSigs _ there := Std.ExtTreeMap.mem_insert.mpr (.inr there)
  tapKeySig _ there := there
  tapScriptSigs _ _ there := there

theorem setTapKeySig (vacant : before.tapKeySig = none) (sig : TaprootSignature) :
    AddsSignatures before (before.setTapKeySig sig) where
  unchanged := withoutSignatures_withField _ _ (.inr (.inl rfl))
  partialSigs _ there := there
  tapKeySig _ there := by
    rw [vacant] at there
    contradiction
  tapScriptSigs _ _ there := there

/-- A signature made earlier in the same call may be replaced. -/
theorem insertTapScriptSig (adds : AddsSignatures before after)
    {key : Secp256k1.XOnlyPublicKey × TapLeafHash} (vacant : key ∉ before.tapScriptSigs)
    (sig : TaprootSignature) : AddsSignatures before (after.insertTapScriptSig key sig) where
  unchanged := (withoutSignatures_withField _ _ (.inr (.inr rfl))).trans adds.unchanged
  partialSigs := adds.partialSigs
  tapKeySig := adds.tapKeySig
  tapScriptSigs other old there := by
    have distinct : ¬ compare key other = .eq := fun same => by
      obtain rfl := Std.LawfulEqCmp.eq_of_compare same
      exact vacant (Std.ExtTreeMap.mem_iff_isSome_getElem?.mpr (by rw [there]; rfl))
    have kept := adds.tapScriptSigs other old there
    show (after.tapScriptSigs.insert key sig)[other]? = some old
    rwa [Std.ExtTreeMap.getElem?_insert, if_neg distinct]

end AddsSignatures
end Input
theorem insertPartialSigs_adds (sigs : List (PublicKey × EcdsaSignature)) (input : Input) :
    input.AddsSignatures (insertPartialSigs sigs input) := by
  rw [insertPartialSigs]
  induction sigs generalizing input with
  | nil => exact .refl input
  | cons sig sigs ih => exact (Input.AddsSignatures.insertPartialSig input sig.1 sig.2).trans (ih _)

omit [Hashes] in
theorem mem_unsignedLeaves [Hashes] {input : Input} {xonly : Secp256k1.XOnlyPublicKey}
    {leafHashes : Vec TapLeafHash} {leafHash : TapLeafHash} :
    leafHash ∈ unsignedLeaves input xonly leafHashes ↔
      leafHash ∈ leafHashes.toList ∧ (xonly, leafHash) ∉ input.tapScriptSigs := by
  rw [unsignedLeaves, List.mem_filter, Bool.not_eq_true', ← Bool.not_eq_true,
    ← Std.ExtTreeMap.mem_iff_contains]

/-- Leaves that had no signature get one. -/
theorem insertLeafSigs_adds {before : Input} {xonly : Secp256k1.XOnlyPublicKey}
    {sigs : List (TapLeafHash × TaprootSignature)}
    (vacant : ∀ sig ∈ sigs, (xonly, sig.1) ∉ before.tapScriptSigs) :
    before.AddsSignatures (insertLeafSigs xonly sigs before) := by
  suffices general : ∀ after, before.AddsSignatures after →
      before.AddsSignatures (insertLeafSigs xonly sigs after) from general before (.refl before)
  simp only [insertLeafSigs]
  induction sigs with
  | nil => exact fun _ adds => adds
  | cons sig sigs ih =>
    rw [List.forall_mem_cons] at vacant
    exact fun after adds => ih vacant.2 _ (adds.insertTapScriptSig vacant.1 sig.2)

theorem insertLeafSigs_keeps {xonly : Secp256k1.XOnlyPublicKey}
    {key : Secp256k1.XOnlyPublicKey × TapLeafHash} (sigs : List (TapLeafHash × TaprootSignature))
    {input : Input} (signed : key ∈ input.tapScriptSigs) :
    key ∈ (insertLeafSigs xonly sigs input).tapScriptSigs := by
  rw [insertLeafSigs]
  induction sigs generalizing input with
  | nil => exact signed
  | cons sig sigs ih => exact ih (Std.ExtTreeMap.mem_insert.mpr (.inr signed))

theorem insertLeafSigs_signs {xonly : Secp256k1.XOnlyPublicKey}
    {sigs : List (TapLeafHash × TaprootSignature)} {leafHash : TapLeafHash}
    (signed : leafHash ∈ sigs.map Prod.fst) (input : Input) :
    (xonly, leafHash) ∈ (insertLeafSigs xonly sigs input).tapScriptSigs := by
  induction sigs generalizing input with
  | nil => contradiction
  | cons sig sigs ih =>
    rw [List.map_cons, List.mem_cons] at signed
    rcases signed with rfl | later
    · exact insertLeafSigs_keeps sigs (Std.ExtTreeMap.mem_insert_self)
    · exact ih later _

/-- Nothing is left to sign for a key. -/
def Settled (input : Input)
    (origin : Secp256k1.XOnlyPublicKey × Vec TapLeafHash × KeySource) : Prop :=
  ¬ KeyPending input origin.1 origin.2.1 ∧ ∀ leafHashes source,
    input.tapKeyOrigins[origin.1]? = some (leafHashes, source) →
      unsignedLeaves input origin.1 leafHashes = []

theorem unsignedLeaves_eq_nil {input : Input} {xonly : Secp256k1.XOnlyPublicKey}
    {leafHashes : Vec TapLeafHash} : unsignedLeaves input xonly leafHashes = [] ↔
      ∀ leafHash ∈ leafHashes.toList, (xonly, leafHash) ∈ input.tapScriptSigs := by
  simp only [List.eq_nil_iff_forall_not_mem, mem_unsignedLeaves, not_and, not_not]

namespace Input.AddsSignatures
variable {before after : Input}

theorem mem_tapScriptSigs (adds : before.AddsSignatures after)
    {key : Secp256k1.XOnlyPublicKey × TapLeafHash} (signed : key ∈ before.tapScriptSigs) :
    key ∈ after.tapScriptSigs := by
  obtain ⟨sig, found⟩ := Option.isSome_iff_exists.mp
    (Std.ExtTreeMap.mem_iff_isSome_getElem?.mp signed)
  exact Std.ExtTreeMap.mem_iff_isSome_getElem?.mpr
    (Option.isSome_iff_exists.mpr ⟨sig, adds.tapScriptSigs key sig found⟩)

/-- What is settled stays so. -/
theorem not_keyPending (adds : before.AddsSignatures after) {xonly : Secp256k1.XOnlyPublicKey}
    {leafHashes : Vec TapLeafHash} (settled : ¬ KeyPending before xonly leafHashes) :
    ¬ KeyPending after xonly leafHashes := by
  rintro ⟨internal, noLeaves, vacant⟩
  refine settled ⟨adds.tapInternalKey ▸ internal, noLeaves, ?_⟩
  cases there : before.tapKeySig with
  | none => rfl
  | some sig =>
    rw [adds.tapKeySig sig there] at vacant
    contradiction

theorem settled (adds : before.AddsSignatures after)
    {origin : Secp256k1.XOnlyPublicKey × Vec TapLeafHash × KeySource} (settled : Settled before origin) :
    Settled after origin := by
  refine ⟨adds.not_keyPending settled.1, fun leafHashes source found => ?_⟩
  rw [adds.tapKeyOrigins] at found
  have signed := unsignedLeaves_eq_nil.mp (settled.2 leafHashes source found)
  exact unsignedLeaves_eq_nil.mpr fun leafHash listed => adds.mem_tapScriptSigs (signed leafHash listed)

end Input.AddsSignatures

variable [SighashTag] [Secp256k1.Secrets] [Secp256k1.KeyTweaks] [Secp256k1.Signing] [TweakHash]
  {before : Psbt} {inputIndex : Nat}

theorem KeyStep.adds {sk : PrivateKey} {xonly : Secp256k1.XOnlyPublicKey}
    {leafHashes : Vec TapLeafHash} {draft after : Draft}
    (step : KeyStep before inputIndex sk xonly leafHashes draft after) :
    draft.1.AddsSignatures after.1 := by
  cases step with
  | kept settled => exact .refl _
  | signed pending tweaked made => exact .setTapKeySig pending.2.2 _

omit [TweakHash] in
theorem ScriptStep.adds {sk : PrivateKey} {xonly : Secp256k1.XOnlyPublicKey} {draft after : Draft}
    (step : ScriptStep before inputIndex sk xonly draft after) :
    draft.1.AddsSignatures after.1 := by
  cases step with
  | kept settled => exact .refl _
  | signed origin pending leaves made =>
    refine insertLeafSigs_adds fun sig listed => ?_
    have unsigned := List.mem_map_of_mem (f := Prod.fst) listed
    rw [leaves, mem_unsignedLeaves] at unsigned
    exact unsigned.2

theorem OriginStep.adds {k : GetKey ε} {draft after : Draft}
    {origin : Secp256k1.XOnlyPublicKey × Vec TapLeafHash × KeySource}
    (step : OriginStep before inputIndex k draft origin after) : draft.1.AddsSignatures after.1 := by
  cases step with
  | skipped absent => exact .refl _
  | signed found keyPath scriptPath => exact keyPath.adds.trans scriptPath.adds

theorem OriginSteps.adds {k : GetKey ε} {draft after : Draft}
    {origins : List (Secp256k1.XOnlyPublicKey × Vec TapLeafHash × KeySource)}
    (steps : OriginSteps before inputIndex k draft origins after) :
    draft.1.AddsSignatures after.1 := by
  induction steps with
  | nil => exact .refl _
  | concat steps step ih => exact ih.trans step.adds

theorem KeyStep.settles {sk : PrivateKey} {xonly : Secp256k1.XOnlyPublicKey}
    {leafHashes : Vec TapLeafHash} {draft after : Draft}
    (step : KeyStep before inputIndex sk xonly leafHashes draft after) :
    ¬ KeyPending after.1 xonly leafHashes := by
  cases step with
  | kept settled => exact settled
  | signed pending tweaked made =>
    rintro ⟨_, _, vacant⟩
    contradiction

omit [TweakHash] in
theorem ScriptStep.settles {sk : PrivateKey} {xonly : Secp256k1.XOnlyPublicKey} {draft after : Draft}
    (step : ScriptStep before inputIndex sk xonly draft after) (leafHashes : Vec TapLeafHash)
    (source : KeySource) (found : after.1.tapKeyOrigins[xonly]? = some (leafHashes, source)) :
    unsignedLeaves after.1 xonly leafHashes = [] := by
  have adds := step.adds
  cases step with
  | kept settled => exact settled leafHashes source found
  | signed origin pending leaves made =>
    rw [adds.tapKeyOrigins, origin] at found
    obtain ⟨rfl, rfl⟩ := Prod.mk.inj (Option.some.inj found)
    refine unsignedLeaves_eq_nil.mpr fun leafHash listed => ?_
    by_cases there : (xonly, leafHash) ∈ draft.1.tapScriptSigs
    · exact adds.mem_tapScriptSigs there
    · refine insertLeafSigs_signs ?_ draft.1
      rw [leaves, mem_unsignedLeaves]
      exact ⟨listed, there⟩

/-- A key that is found has nothing left to sign. -/
theorem OriginStep.settles {k : GetKey ε} {draft after : Draft}
    {origin : Secp256k1.XOnlyPublicKey × Vec TapLeafHash × KeySource}
    (step : OriginStep before inputIndex k draft origin after) {sk : PrivateKey}
    (asked : findKey k [.bip32 origin.2.2, .xOnlyPubkey origin.1] = some (some sk)) :
    Settled after.1 origin := by
  cases step with
  | skipped absent =>
    rw [absent] at asked
    exact absurd (Option.some.inj asked) nofun
  | signed found keyPath scriptPath =>
    exact ⟨scriptPath.adds.not_keyPending keyPath.settles, scriptPath.settles⟩

theorem OriginSteps.settles {k : GetKey ε} {draft after : Draft}
    {origins : List (Secp256k1.XOnlyPublicKey × Vec TapLeafHash × KeySource)}
    (steps : OriginSteps before inputIndex k draft origins after) :
    ∀ origin ∈ origins, ∀ sk, findKey k [.bip32 origin.2.2, .xOnlyPubkey origin.1] = some (some sk) →
      Settled after.1 origin := by
  induction steps with
  | nil => exact nofun
  | concat steps step ih =>
    rw [List.forall_mem_append, List.forall_mem_singleton]
    exact ⟨fun origin listed sk asked => step.adds.settled (ih origin listed sk asked),
      fun sk asked => step.settles asked⟩

/-- Nothing happens where nothing is left to sign. -/
theorem OriginStep.eq_of_settled {k : GetKey ε} {draft after : Draft}
    {origin : Secp256k1.XOnlyPublicKey × Vec TapLeafHash × KeySource}
    (step : OriginStep before inputIndex k draft origin after)
    (settled : ∀ sk, findKey k [.bip32 origin.2.2, .xOnlyPubkey origin.1] = some (some sk) →
      Settled draft.1 origin) : after = draft := by
  cases step with
  | skipped absent => rfl
  | signed found keyPath scriptPath =>
    obtain ⟨noKey, noLeaves⟩ := settled _ found
    cases keyPath with
    | signed pending => exact absurd pending noKey
    | kept =>
      cases scriptPath with
      | signed origin pending => exact absurd (noLeaves _ _ origin) pending
      | kept => rfl

theorem OriginSteps.eq_of_settled {k : GetKey ε} {draft after : Draft}
    {origins : List (Secp256k1.XOnlyPublicKey × Vec TapLeafHash × KeySource)}
    (steps : OriginSteps before inputIndex k draft origins after)
    (settled : ∀ origin ∈ origins, ∀ sk,
      findKey k [.bip32 origin.2.2, .xOnlyPubkey origin.1] = some (some sk) →
        Settled draft.1 origin) : after = draft := by
  induction steps with
  | nil => rfl
  | concat steps step ih =>
    rw [List.forall_mem_append, List.forall_mem_singleton] at settled
    obtain rfl := ih settled.1
    exact step.eq_of_settled settled.2

/-- One input gets signatures, unless the signing of it stops. -/
theorem InputStep.adds {k : GetKey ε} {result : Except (Process.Stop SignError) SigningKeys}
    {after : Psbt} (step : InputStep k inputIndex before result after) :
    ∃ change, after = before.changeInput inputIndex change ∧
      ∀ input, before.inputs[inputIndex]? = some input → input.AddsSignatures (change input) := by
  cases step with
  | stopped stop => exact ⟨id, (changeInput_id before inputIndex).symm, fun input _ => .refl input⟩
  | ecdsa algorithm told listed ran =>
    exact ⟨_, rfl, fun input _ => insertPartialSigs_adds _ input⟩
  | schnorr algorithm listed steps =>
    refine ⟨_, rfl, fun input found => ?_⟩
    obtain rfl := Option.some.inj (listed.symm.trans found)
    exact steps.adds

end

/-! The loop over the inputs. -/

section
variable [Secp256k1] [Hashes]

/-- The PSBTs differ in signatures of their inputs only, and what was there is still there. -/
structure AddsSignatures (before after : Psbt) : Prop where
  others : { after with inputs := before.inputs } = before
  length : after.inputs.length = before.inputs.length
  inputs : ∀ (i : Nat) (input : Input), before.inputs[i]? = some input →
    ∃ signed, after.inputs[i]? = some signed ∧ input.AddsSignatures signed

namespace AddsSignatures
variable {before middle after : Psbt}

theorem refl (psbt : Psbt) : AddsSignatures psbt psbt where
  others := rfl
  length := rfl
  inputs _ input listed := ⟨input, listed, .refl input⟩

theorem trans (first : AddsSignatures before middle) (second : AddsSignatures middle after) :
    AddsSignatures before after where
  others := by
    have same := congrArg (fun psbt : Psbt => { psbt with inputs := before.inputs }) second.others
    exact same.trans first.others
  length := second.length.trans first.length
  inputs i input listed := by
    obtain ⟨signed, there, adds⟩ := first.inputs i input listed
    obtain ⟨again, found, more⟩ := second.inputs i signed there
    exact ⟨again, found, adds.trans more⟩

theorem changeInput {psbt : Psbt} {inputIndex : Nat} {change : Input → Input}
    (adds : ∀ input, psbt.inputs[inputIndex]? = some input → input.AddsSignatures (change input)) :
    AddsSignatures psbt (psbt.changeInput inputIndex change) where
  others := rfl
  length := List.length_modify ..
  inputs i input listed := by
    rw [Psbt.changeInput, List.getElem?_modify, listed]
    split
    case isTrue same =>
      obtain rfl := same
      exact ⟨_, rfl, adds input listed⟩
    case isFalse => exact ⟨input, rfl, .refl input⟩

theorem same (adds : AddsSignatures before after) : SameUnsigned before after := by
  have inputs : after.inputs.map Input.withoutSignatures = before.inputs.map Input.withoutSignatures := by
    refine List.ext_getElem? fun i => ?_
    rw [List.getElem?_map, List.getElem?_map]
    cases listed : before.inputs[i]? with
    | none =>
      have beyond : after.inputs[i]? = none := by
        rw [List.getElem?_eq_none_iff, adds.length]
        exact List.getElem?_eq_none_iff.mp listed
      rw [beyond]
    | some input =>
      obtain ⟨signed, there, more⟩ := adds.inputs i input listed
      rw [there, Option.map_some, Option.map_some, more.unchanged]
  have others := congrArg
    (fun psbt : Psbt => { psbt with inputs := before.inputs.map Input.withoutSignatures }) adds.others
  rw [SameUnsigned, Psbt.withoutSignatures, Psbt.withoutSignatures, inputs]
  exact others.symm

end AddsSignatures

variable [SighashTag] [Secp256k1.Secrets] [Secp256k1.KeyTweaks] [Secp256k1.Signing] [TweakHash]

omit [Hashes] [SighashTag] [TweakHash] in
/-- Without a message there are no partial signatures. -/
theorem derivedSigs_of_error (k : GetKey ε) (e : SignError)
    (origins : List (Secp256k1.PublicKey × KeySource)) :
    (derivedSigs k (.error e) origins).1 = [] := by
  induction origins with
  | nil => rfl
  | cons origin origins ih =>
    rw [derivedSigs]
    split
    · rfl
    · exact ih
    · rfl

omit [Hashes] [SighashTag] [TweakHash] in
/-- With a message only a panic stops the signing. -/
theorem derivedSigs_of_ok (k : GetKey ε) (message : ByteArr 32 × Sighash.EcdsaSighashType)
    (origins : List (Secp256k1.PublicKey × KeySource)) (e : SignError) :
    (derivedSigs k (.ok message) origins).2 ≠ some (.error e) := by
  induction origins with
  | nil => exact nofun
  | cons origin origins ih =>
    rw [derivedSigs]
    split
    · simp
    · exact ih
    · exact ih

/-- Where there is an error to report nothing changes. -/
theorem InputStep.eq_of_error {k : GetKey ε} {inputIndex : Nat} {before after : Psbt} {e : SignError}
    (step : InputStep k inputIndex before (.error (.error e)) after) : after = before := by
  generalize failed : (Except.error (Stop.error e) : Except (Stop SignError) SigningKeys) = result at step
  cases step with
  | stopped stop => rfl
  | schnorr => contradiction
  | @ecdsa message input run algorithm told listed ran =>
    subst ran
    rcases message with e' | message
    · rw [derivedSigs_of_error]
      exact changeInput_id before inputIndex
    · have noError := derivedSigs_of_ok k message input.bip32Derivation.toList e
      generalize derivedSigs k (.ok message) input.bip32Derivation.toList = run at failed noError ⊢
      rcases run with ⟨sigs, _ | stop⟩
      · contradiction
      · cases failed
        contradiction

/-- Signing one input. -/
theorem signInput_adds (k : GetKey ε) (inputIndex : Nat) {before : Psbt} {session : Session}
    (signs : Signs before session) :
    AddsSignatures before (signInput k inputIndex session).2.psbt ∧
      Signs (signInput k inputIndex session).2.psbt (signInput k inputIndex session).2 ∧
      (∀ j, j ≠ inputIndex →
        (signInput k inputIndex session).2.psbt.inputs[j]? = before.inputs[j]?) ∧
      ∀ e, (signInput k inputIndex session).1 = .error (.error e) →
        (signInput k inputIndex session).2.psbt = before := by
  obtain ⟨step, twin⟩ := signInput_step k inputIndex signs
  generalize signInput k inputIndex session = ran at step twin ⊢
  obtain ⟨result, after⟩ := ran
  dsimp only at step twin ⊢
  have adds : AddsSignatures before after.psbt := by
    obtain ⟨change, same, adds⟩ := step.adds
    rw [same]
    exact .changeInput adds
  refine ⟨adds, ⟨rfl, ?_⟩, fun j other => ?_, fun e failed => ?_⟩
  · rw [adds.same.spentOutputs, adds.same.unsignedTx]
    exact twin
  · obtain ⟨change, same, -⟩ := step.adds
    rw [same]
    exact List.getElem?_modify_ne change before.inputs (Ne.symm other)
  · rw [failed] at step
    exact step.eq_of_error

end
end Litecoin.Psbt
