import Litecoin.Psbt.SignBlind

/-! What signing one input can do. -/
namespace Litecoin.Psbt
open Wire Consensus Blockdata Sighash Crypto Bip32 Taproot

section
variable [Secp256k1] [Hashes]

/-- The session signs `before`, on a cache that nothing tells apart from a new one. -/
structure Signs (before : Psbt) (session : Session) : Prop where
  psbt : session.psbt = before
  twin : Twin before.spentOutputs session.cache (.new before.unsignedTx)

theorem Signs.new (psbt : Psbt) : Signs psbt (.new psbt) where
  psbt := rfl
  twin := ⟨rfl, .new _ _, .new _ _⟩

open Process

/-- A method returns what it returns on a new cache. -/
theorem outcome_eq {before : Psbt} (method : Psbt → Signing α)
    (blind : Blind before.spentOutputs (method before)) {session : Session}
    (signs : Signs before session) :
    ∃ cache, Twin before.spentOutputs cache (.new before.unsignedTx) ∧
      outcome method session = (match (method before (.new before.unsignedTx)).map Prod.fst with
        | none => .error .panic
        | some result => .ok result, { session with cache }) := by
  obtain ⟨rfl, twin⟩ := signs
  have related := blind session.cache _ twin
  rw [outcome]
  generalize method session.psbt session.cache = after at related ⊢
  generalize method session.psbt (.new _) = fresh at related ⊢
  cases related with
  | none => exact ⟨session.cache, twin, rfl⟩
  | some same =>
    rename_i ran fresh
    obtain ⟨result, cache⟩ := ran
    refine ⟨cache, ⟨same.tx.trans twin.tx, same.twin.left, twin.right⟩, ?_⟩
    obtain rfl : result = fresh.1 := same.value
    rfl

theorem outcome_yields {before : Psbt} {method : Psbt → Signing α}
    (blind : Blind before.spentOutputs (method before)) :
    Yields (Signs before) (outcome method) fun result =>
      (method before (.new before.unsignedTx)).map Prod.fst = some result := by
  intro session signs
  obtain ⟨cache, twin, ran⟩ := outcome_eq method blind signs
  rw [ran]
  refine ⟨⟨signs.psbt, twin⟩, ?_⟩
  cases (method before (.new before.unsignedTx)).map Prod.fst with
  | none => exact nofun
  | some result =>
    rintro _ ⟨⟩
    rfl

theorem orReport_yields {before : Psbt} (result : Except SignError α) :
    Yields (Signs before) (orReport result) fun a => result = .ok a :=
  .ofExcept fun a returned => by
    cases result with
    | error e => contradiction
    | ok b => exact congrArg _ (Except.ok.inj returned)

theorem orPanic_yields {before : Psbt} (value : Option α) :
    Yields (Signs before) (Process.orPanic value : Signer α) fun a => value = some a :=
  .ofExcept fun a returned => by
    cases value with
    | none => contradiction
    | some b => exact congrArg _ (Except.ok.inj returned)

variable [SighashTag]

/-- The message for an input, or a leaf of it. -/
def taprootMessage (psbt : Psbt) (inputIndex : Nat) (leafHash : Option TapLeafHash) :
    Option (Except SignError (ByteArr 32 × Sighash.TapSighashType)) :=
  (psbt.sighashTaproot inputIndex leafHash (.new psbt.unsignedTx)).map Prod.fst

omit [SighashTag] in
def ecdsaMessageOf (psbt : Psbt) (inputIndex : Nat) :
    Option (Except SignError (ByteArr 32 × Sighash.EcdsaSighashType)) :=
  (psbt.sighashEcdsa inputIndex (.new psbt.unsignedTx)).map Prod.fst

theorem sighashTaproot_yields {before : Psbt} {inputIndex : Nat} (leafHash : Option TapLeafHash) :
    Yields (Signs before) (outcome fun psbt => psbt.sighashTaproot inputIndex leafHash)
      fun result => before.taprootMessage inputIndex leafHash = some result :=
  outcome_yields (sighashTaproot_blind before leafHash)

variable [Secp256k1.Secrets] [Secp256k1.KeyTweaks] [Secp256k1.Signing]

/-- The signature is made with the pair of keys, over the message for the leaf. -/
def Made (before : Psbt) (inputIndex : Nat) (leafHash : Option TapLeafHash)
    (pair : Secp256k1.Signing.Keypair) (sig : TaprootSignature) : Prop :=
  ∃ n message, before.taprootMessage inputIndex leafHash = some (.ok (message, sig.sighashType)) ∧
    sig.signature = Secp256k1.Signing.signSchnorr n message pair

/-- The input still needs a signature of its internal key. -/
def KeyPending (input : Input) (xonly : Secp256k1.XOnlyPublicKey) (leafHashes : Vec TapLeafHash) :
    Prop :=
  input.tapInternalKey = some xonly ∧ leafHashes.toList = [] ∧ input.tapKeySig = none

omit [SighashTag] in
theorem signSchnorr_yields {before : Psbt} (message : ByteArr 32)
    (pair : Secp256k1.Signing.Keypair) : Yields (Signs before) (signSchnorr message pair)
      fun signature => ∃ n, signature = Secp256k1.Signing.signSchnorr n message pair :=
  .update (fun _ signs => ⟨signs.psbt, signs.twin⟩) fun session _ => ⟨session.drawn, rfl⟩

variable [TweakHash]

/-- What the key path does to a copy of the input. -/
inductive KeyStep (before : Psbt) (inputIndex : Nat) (sk : PrivateKey)
    (xonly : Secp256k1.XOnlyPublicKey) (leafHashes : Vec TapLeafHash) (draft : Draft) : Draft → Prop where
  | kept (settled : ¬ KeyPending draft.1 xonly leafHashes) :
      KeyStep before inputIndex sk xonly leafHashes draft draft
  | signed {pair : Secp256k1.Signing.Keypair} {sig : TaprootSignature}
      (pending : KeyPending draft.1 xonly leafHashes)
      (tweaked : tapTweakPair (Secp256k1.Signing.keypair sk.inner) draft.1.tapMerkleRoot = some pair)
      (made : Made before inputIndex none pair sig) :
      KeyStep before inputIndex sk xonly leafHashes draft (draft.1.setTapKeySig sig, draft.2 ++ [xonly])

theorem signKeyPath_yields {before : Psbt} {inputIndex : Nat} (sk : PrivateKey)
    (xonly : Secp256k1.XOnlyPublicKey) (leafHashes : Vec TapLeafHash) (draft : Draft) :
    Yields (Signs before) (signKeyPath inputIndex sk xonly leafHashes draft)
      (KeyStep before inputIndex sk xonly leafHashes draft) := by
  rw [signKeyPath]
  cases given : draft.1.tapInternalKey with
  | none =>
    refine .pure (.kept ?_)
    rintro ⟨internal, _⟩
    rw [given] at internal
    contradiction
  | some internalKey =>
    refine .ite (fun pending => ?_) fun settled => .pure (.kept ?_)
    · obtain ⟨rfl, noLeaves, vacant⟩ := pending
      refine (sighashTaproot_yields none).bind fun message told => ?_
      refine (orReport_yields message).bind fun target found => ?_
      obtain ⟨message, sighashType⟩ := target
      refine (orPanic_yields _).bind fun pair tweaked => ?_
      refine (signSchnorr_yields message pair).bind fun signature made => .pure ?_
      obtain ⟨n, rfl⟩ := made
      subst found
      exact .signed ⟨given, noLeaves, Option.isNone_iff_eq_none.mp vacant⟩ tweaked ⟨n, message, told, rfl⟩
    · rintro ⟨internal, noLeaves, vacant⟩
      rw [given] at internal
      exact settled ⟨Option.some.inj internal, noLeaves, Option.isNone_iff_eq_none.mpr vacant⟩

omit [TweakHash] in
/-- What one leaf adds. -/
theorem signLeaf_yields {before : Psbt} {inputIndex : Nat} (sk : PrivateKey)
    (xonly : Secp256k1.XOnlyPublicKey) (input : Input) (leafHash : TapLeafHash) :
    Yields (Signs before) (signLeaf inputIndex sk xonly input leafHash) fun after =>
      ∃ sig, Made before inputIndex (some leafHash) (Secp256k1.Signing.keypair sk.inner) sig ∧
        after = input.insertTapScriptSig (xonly, leafHash) sig := by
  refine (sighashTaproot_yields (some leafHash)).bind fun message told => ?_
  refine (orReport_yields message).bind fun (message, sighashType) found => ?_
  refine (signSchnorr_yields message _).bind fun signature made => .pure ?_
  obtain ⟨n, rfl⟩ := made
  subst found
  exact ⟨_, ⟨n, message, told, rfl⟩, rfl⟩

omit [SighashTag] [Secp256k1.Secrets] [Secp256k1.KeyTweaks] [Secp256k1.Signing] [TweakHash] in
/-- Signatures of one key for some leaves. -/
def insertLeafSigs (xonly : Secp256k1.XOnlyPublicKey) (sigs : List (TapLeafHash × TaprootSignature))
    (input : Input) : Input :=
  sigs.foldl (fun input sig => input.insertTapScriptSig (xonly, sig.1) sig.2) input

omit [TweakHash] in
/-- Every leaf gets a signature. -/
def LeafSteps (before : Psbt) (inputIndex : Nat) (sk : PrivateKey) (xonly : Secp256k1.XOnlyPublicKey)
    (input : Input) (leaves : List TapLeafHash) (after : Input) : Prop :=
  ∃ sigs : List (TapLeafHash × TaprootSignature), sigs.map Prod.fst = leaves ∧
    (∀ sig ∈ sigs,
      Made before inputIndex (some sig.1) (Secp256k1.Signing.keypair sk.inner) sig.2) ∧
    after = insertLeafSigs xonly sigs input

omit [TweakHash] in
theorem signLeaves_yields {before : Psbt} {inputIndex : Nat} (sk : PrivateKey)
    (xonly : Secp256k1.XOnlyPublicKey) (input : Input) (leaves : List TapLeafHash) :
    Yields (Signs before) (leaves.foldlM (signLeaf inputIndex sk xonly) input)
      (LeafSteps before inputIndex sk xonly input leaves) := by
  refine .foldlM ⟨[], rfl, nofun, rfl⟩ ?_
  rintro done leafHash _ - ⟨sigs, rfl, made, rfl⟩
  refine (signLeaf_yields sk xonly _ leafHash).mono ?_
  rintro _ ⟨sig, more, rfl⟩
  refine ⟨sigs ++ [(leafHash, sig)], List.map_append, ?_, ?_⟩
  · rw [List.forall_mem_append, List.forall_mem_singleton]
    exact ⟨made, more⟩
  · rw [insertLeafSigs, insertLeafSigs, List.foldl_concat]

/-- What the script path does to a copy of the input. -/
inductive ScriptStep (before : Psbt) (inputIndex : Nat) (sk : PrivateKey)
    (xonly : Secp256k1.XOnlyPublicKey) (draft : Draft) : Draft → Prop where
  | kept (settled : ∀ leafHashes source, draft.1.tapKeyOrigins[xonly]? = some (leafHashes, source) →
        unsignedLeaves draft.1 xonly leafHashes = []) :
      ScriptStep before inputIndex sk xonly draft draft
  | signed {leafHashes : Vec TapLeafHash} {source : KeySource}
      {sigs : List (TapLeafHash × TaprootSignature)}
      (origin : draft.1.tapKeyOrigins[xonly]? = some (leafHashes, source))
      (pending : unsignedLeaves draft.1 xonly leafHashes ≠ [])
      (leaves : sigs.map Prod.fst = unsignedLeaves draft.1 xonly leafHashes)
      (made : ∀ sig ∈ sigs,
        Made before inputIndex (some sig.1) (Secp256k1.Signing.keypair sk.inner) sig.2) :
      ScriptStep before inputIndex sk xonly draft (insertLeafSigs xonly sigs draft.1,
        draft.2 ++ [(Secp256k1.Signing.xOnlyPublicKey sk.publicKey.inner).1])

omit [TweakHash] in
theorem signScriptPath_yields {before : Psbt} {inputIndex : Nat} (sk : PrivateKey)
    (xonly : Secp256k1.XOnlyPublicKey) (draft : Draft) :
    Yields (Signs before) (signScriptPath inputIndex sk xonly draft)
      (ScriptStep before inputIndex sk xonly draft) := by
  rw [signScriptPath]
  rcases origin : draft.1.tapKeyOrigins[xonly]? with _ | ⟨leafHashes, source⟩
  · refine .pure (.kept ?_)
    rw [origin]
    simp
  · refine .ite (fun settled => .pure (.kept ?_)) fun pending => ?_
    · rw [origin]
      rintro _ _ ⟨⟩
      exact settled
    · refine (signLeaves_yields sk xonly draft.1 _).bind fun after added => .pure ?_
      obtain ⟨sigs, leaves, made, rfl⟩ := added
      exact .signed origin pending leaves made

/-- What one key of `tap_key_origins` does to a copy of the input. -/
inductive OriginStep (before : Psbt) (inputIndex : Nat) (k : GetKey ε) (draft : Draft)
    (origin : Secp256k1.XOnlyPublicKey × Vec TapLeafHash × KeySource) : Draft → Prop where
  | skipped (absent : findKey k [.bip32 origin.2.2, .xOnlyPubkey origin.1] = some none) :
      OriginStep before inputIndex k draft origin draft
  | signed {sk : PrivateKey} {middle after : Draft}
      (found : findKey k [.bip32 origin.2.2, .xOnlyPubkey origin.1] = some (some sk))
      (keyPath : KeyStep before inputIndex sk origin.1 origin.2.1 draft middle)
      (scriptPath : ScriptStep before inputIndex sk origin.1 middle after) :
      OriginStep before inputIndex k draft origin after

theorem signOrigin_yields {before : Psbt} {inputIndex : Nat} (k : GetKey ε) (draft : Draft)
    (origin : Secp256k1.XOnlyPublicKey × Vec TapLeafHash × KeySource) :
    Yields (Signs before) (signOrigin k inputIndex draft origin)
      (OriginStep before inputIndex k draft origin) := by
  refine (orPanic_yields _).bind fun found asked => ?_
  cases found with
  | none => exact .pure (.skipped asked)
  | some sk =>
    refine (signKeyPath_yields sk origin.1 origin.2.1 draft).bind fun middle keyPath => ?_
    exact (signScriptPath_yields sk origin.1 middle).mono fun after => .signed asked keyPath

/-- The keys of `tap_key_origins` one after the other. -/
inductive OriginSteps (before : Psbt) (inputIndex : Nat) (k : GetKey ε) (draft : Draft) :
    List (Secp256k1.XOnlyPublicKey × Vec TapLeafHash × KeySource) → Draft → Prop where
  | nil : OriginSteps before inputIndex k draft [] draft
  | concat {origins : List (Secp256k1.XOnlyPublicKey × Vec TapLeafHash × KeySource)}
      {origin : Secp256k1.XOnlyPublicKey × Vec TapLeafHash × KeySource} {middle after : Draft}
      (steps : OriginSteps before inputIndex k draft origins middle)
      (step : OriginStep before inputIndex k middle origin after) :
      OriginSteps before inputIndex k draft (origins ++ [origin]) after

theorem signOrigins_yields {before : Psbt} (k : GetKey ε) (inputIndex : Nat) (draft : Draft)
    (origins : List (Secp256k1.XOnlyPublicKey × Vec TapLeafHash × KeySource)) :
    Yields (Signs before) (origins.foldlM (signOrigin k inputIndex) draft)
      (OriginSteps before inputIndex k draft origins) :=
  .foldlM .nil fun _ origin middle _ steps =>
    (signOrigin_yields k middle origin).mono fun _ step => .concat steps step

end

/-! Partial signatures are put into the input as they are made. -/

section
open Process
variable [Secp256k1] [Hashes]

def changeInput (psbt : Psbt) (inputIndex : Nat) (change : Input → Input) : Psbt :=
  { psbt with inputs := psbt.inputs.modify inputIndex change }

theorem changeInput_changeInput (psbt : Psbt) (inputIndex : Nat) (change change' : Input → Input) :
    (psbt.changeInput inputIndex change).changeInput inputIndex change' =
      psbt.changeInput inputIndex (change' ∘ change) := by
  rw [changeInput, changeInput, changeInput, List.modify_modify_eq]

theorem changeInput_id (psbt : Psbt) (inputIndex : Nat) : psbt.changeInput inputIndex id = psbt := by
  rw [changeInput, List.modify_id]

def insertPartialSigs (sigs : List (PublicKey × EcdsaSignature)) (input : Input) : Input :=
  sigs.foldl (fun input sig => input.insertPartialSig sig.1 sig.2) input

variable [Secp256k1.Secrets] [Secp256k1.KeyTweaks] [Secp256k1.Signing]

/-- The signatures that are made for keys of `bip32_derivation`, and why no more of them
are. -/
def derivedSigs (k : GetKey ε) (message : Except SignError (ByteArr 32 × Sighash.EcdsaSighashType)) :
    List (Secp256k1.PublicKey × KeySource) →
      List (PublicKey × EcdsaSignature) × Option (Stop SignError)
  | [] => ([], none)
  | origin :: origins =>
    match findKey k [.bip32 origin.2, .pubkey { compressed := true, inner := origin.1 }] with
    | none => ([], some .panic)
    | some none => derivedSigs k message origins
    | some (some sk) => match message with
      | .error e => ([], some (.error e))
      | .ok (digest, hashTy) =>
        let sig : EcdsaSignature := {
          signature := Secp256k1.Signing.signEcdsa digest sk.inner
          sighashType := hashTy }
        let (sigs, stop) := derivedSigs k message origins
        ((sk.publicKey, sig) :: sigs, stop)

omit [Secp256k1.Secrets] [Secp256k1.KeyTweaks] [Secp256k1.Signing] [Hashes] in
/-- The keys that are returned. -/
def derivedKeys (used : List PublicKey) :
    List (PublicKey × EcdsaSignature) × Option (Stop SignError) →
      Except (Stop SignError) (List PublicKey)
  | (sigs, none) => .ok (used ++ sigs.map Prod.fst)
  | (_, some stop) => .error stop

theorem signDerivations_eq (k : GetKey ε) (inputIndex : Nat)
    (message : Except SignError (ByteArr 32 × Sighash.EcdsaSighashType))
    (origins : List (Secp256k1.PublicKey × KeySource)) (used : List PublicKey) (session : Session) :
    origins.foldlM (signDerivation k inputIndex message) used session =
      (derivedKeys used (derivedSigs k message origins), { session with
        psbt := session.psbt.changeInput inputIndex
          (insertPartialSigs (derivedSigs k message origins).1) }) := by
  induction origins generalizing used session with
  | nil =>
    have same : session.psbt.changeInput inputIndex (insertPartialSigs []) = session.psbt :=
      changeInput_id session.psbt inputIndex
    simp only [derivedSigs, same, derivedKeys, List.map_nil, List.append_nil]
    rfl
  | cons origin origins ih =>
    have none_ : session.psbt.changeInput inputIndex (insertPartialSigs []) = session.psbt :=
      changeInput_id session.psbt inputIndex
    rw [List.foldlM_cons, derivedSigs]
    rcases found : findKey k [.bip32 origin.2, .pubkey { compressed := true, inner := origin.1 }] with
      _ | _ | sk
    · have step : signDerivation k inputIndex message used origin session =
          (.error .panic, session) := by
        simp only [signDerivation, found]
        rfl
      simp only [none_, derivedKeys]
      exact bind_of_error step
    · have step : signDerivation k inputIndex message used origin session = (.ok used, session) := by
        simp only [signDerivation, found]
        rfl
      exact (bind_of_ok step).trans (ih used session)
    · cases message with
      | error e =>
        have step : signDerivation k inputIndex (.error e) used origin session =
            (.error (.error e), session) := by
          simp only [signDerivation, found]
          rfl
        simp only [none_, derivedKeys]
        exact bind_of_error step
      | ok signed =>
        obtain ⟨digest, hashTy⟩ := signed
        have step : signDerivation k inputIndex (.ok (digest, hashTy)) used origin session =
            (.ok (used ++ [sk.publicKey]), { session with
              psbt := session.psbt.changeInput inputIndex fun input =>
                input.insertPartialSig sk.publicKey {
                  signature := Secp256k1.Signing.signEcdsa digest sk.inner
                  sighashType := hashTy } }) := by
          simp only [signDerivation, found]
          rfl
        refine (bind_of_ok step).trans ((ih _ _).trans ?_)
        simp only [changeInput_changeInput]
        refine Prod.ext ?_ rfl
        rcases derivedSigs k (.ok (digest, hashTy)) origins with ⟨sigs, _ | stop⟩
        · simp only [derivedKeys, List.map_cons, List.append_assoc, List.singleton_append]
        · rfl

end

section
open Process
variable [Secp256k1] [Hashes] [SighashTag] [Secp256k1.Secrets] [Secp256k1.KeyTweaks]
  [Secp256k1.Signing] [TweakHash]

/-- What signing one input can do. When it does not get to a key, or a copy of the input is
dropped, nothing changes. -/
inductive InputStep (k : GetKey ε) (inputIndex : Nat) (before : Psbt) :
    Except (Stop SignError) SigningKeys → Psbt → Prop where
  | stopped (stop : Stop SignError) : InputStep k inputIndex before (.error stop) before
  | ecdsa {message : Except SignError (ByteArr 32 × Sighash.EcdsaSighashType)} {input : Input}
      {run : List (PublicKey × EcdsaSignature) × Option (Stop SignError)}
      (algorithm : (before.signingAlgorithm inputIndex).run = some (.ok .ecdsa))
      (told : before.ecdsaMessageOf inputIndex = some message)
      (listed : before.inputs[inputIndex]? = some input)
      (ran : derivedSigs k message input.bip32Derivation.toList = run) :
      InputStep k inputIndex before ((derivedKeys [] run).map .ecdsa)
        (before.changeInput inputIndex (insertPartialSigs run.1))
  | schnorr {input after : Input} {used : List Secp256k1.XOnlyPublicKey}
      (algorithm : (before.signingAlgorithm inputIndex).run = some (.ok .schnorr))
      (listed : before.inputs[inputIndex]? = some input)
      (steps : OriginSteps before inputIndex k (input, []) input.tapKeyOrigins.toList (after, used)) :
      InputStep k inputIndex before (.ok (.schnorr used))
        (before.changeInput inputIndex fun _ => after)

omit [SighashTag] [TweakHash] in
theorem bip32SignEcdsa_eq (k : GetKey ε) (inputIndex : Nat) {before : Psbt} {session : Session}
    (signs : Signs before session) :
    ∃ cache, Twin before.spentOutputs cache (.new before.unsignedTx) ∧
      bip32SignEcdsa k inputIndex session =
        match before.ecdsaMessageOf inputIndex, before.inputs[inputIndex]? with
        | some message, some input =>
          let run := derivedSigs k message input.bip32Derivation.toList
          (derivedKeys [] run, { session with
            psbt := before.changeInput inputIndex (insertPartialSigs run.1), cache })
        | _, _ => (.error .panic, { session with cache }) := by
  obtain ⟨cache, twin, ran⟩ :=
    outcome_eq (fun psbt => psbt.sighashEcdsa inputIndex) (sighashEcdsa_blind before) signs
  refine ⟨cache, twin, ?_⟩
  obtain ⟨rfl, -⟩ := signs
  rw [bip32SignEcdsa, bind_apply, ran, ecdsaMessageOf]
  cases (session.psbt.sighashEcdsa inputIndex (.new session.psbt.unsignedTx)).map Prod.fst with
  | none => rfl
  | some message =>
    simp only [bind_apply, look_apply, Process.orPanic]
    cases session.psbt.inputs[inputIndex]? with
    | none => rfl
    | some input => simp only [ofExcept_apply, signDerivations_eq]

theorem bip32SignEcdsa_step (k : GetKey ε) (inputIndex : Nat) {before : Psbt} {session : Session}
    (algorithm : (before.signingAlgorithm inputIndex).run = some (.ok .ecdsa))
    (signs : Signs before session) :
    InputStep k inputIndex before ((bip32SignEcdsa k inputIndex session).1.map .ecdsa)
        (bip32SignEcdsa k inputIndex session).2.psbt ∧
      Twin before.spentOutputs (bip32SignEcdsa k inputIndex session).2.cache
        (.new before.unsignedTx) := by
  obtain ⟨cache, twin, ran⟩ := bip32SignEcdsa_eq k inputIndex signs
  obtain ⟨rfl, -⟩ := signs
  rw [ran]
  rcases told : session.psbt.ecdsaMessageOf inputIndex with _ | message
  · exact ⟨.stopped .panic, twin⟩
  · rcases listed : session.psbt.inputs[inputIndex]? with _ | input
    · exact ⟨.stopped .panic, twin⟩
    · exact ⟨.ecdsa algorithm told listed rfl, twin⟩

omit [SighashTag] [Secp256k1.Secrets] [Secp256k1.KeyTweaks] [Secp256k1.Signing] [TweakHash] in
theorem checkedInput_listed {psbt : Psbt} {inputIndex : Nat} {input : Input}
    (checked : (psbt.checkedInput inputIndex).run = some (.ok input)) :
    psbt.inputs[inputIndex]? = some input := by
  obtain ⟨_, _, found⟩ := run_bind_eq_ok.mp checked
  cases listed : psbt.inputs[inputIndex]? with
  | none =>
    rw [listed] at found
    cases found
  | some other =>
    rw [listed] at found
    cases found
    rfl

theorem bip32SignSchnorr_step (k : GetKey ε) (inputIndex : Nat) {before : Psbt} {session : Session}
    (algorithm : (before.signingAlgorithm inputIndex).run = some (.ok .schnorr))
    (signs : Signs before session) :
    InputStep k inputIndex before ((bip32SignSchnorr k inputIndex session).1.map .schnorr)
        (bip32SignSchnorr k inputIndex session).2.psbt ∧
      Twin before.spentOutputs (bip32SignSchnorr k inputIndex session).2.cache
        (.new before.unsignedTx) := by
  obtain ⟨rfl, twin⟩ := signs
  rw [bip32SignSchnorr]
  simp only [bind_apply, look_apply, runLookup, ofExcept_apply]
  rcases checked : (session.psbt.checkedInput inputIndex).run with _ | e | input
  · exact ⟨.stopped .panic, twin⟩
  · exact ⟨.stopped (.error e), twin⟩
  · have listed := checkedInput_listed checked
    simp only [Except.mapError]
    obtain ⟨signs', post⟩ := signOrigins_yields k inputIndex (input, []) input.tapKeyOrigins.toList
      session ⟨rfl, twin⟩
    rcases ran : input.tapKeyOrigins.toList.foldlM (signOrigin k inputIndex) (input, []) session with
      ⟨stop | ⟨after, used⟩, middle⟩
    · rw [ran] at signs'
      obtain ⟨same, twin'⟩ := signs'
      dsimp only at same twin' ⊢
      rw [same]
      exact ⟨.stopped stop, twin'⟩
    · rw [ran] at signs' post
      obtain ⟨same, twin'⟩ := signs'
      have steps := post _ rfl
      have changed : (modifyInput inputIndex (fun _ => after) middle).2.psbt =
          session.psbt.changeInput inputIndex fun _ => after := by
        rw [← same]
        rfl
      have step := InputStep.schnorr algorithm listed steps
      rw [← changed] at step
      exact ⟨step, twin'⟩

theorem signInput_step (k : GetKey ε) (inputIndex : Nat) {before : Psbt} {session : Session}
    (signs : Signs before session) :
    InputStep k inputIndex before (signInput k inputIndex session).1
        (signInput k inputIndex session).2.psbt ∧
      Twin before.spentOutputs (signInput k inputIndex session).2.cache (.new before.unsignedTx) := by
  obtain ⟨rfl, twin⟩ := signs
  rw [signInput]
  simp only [bind_apply, look_apply, runLookup, ofExcept_apply]
  rcases algorithm : (session.psbt.signingAlgorithm inputIndex).run with _ | e | _ | _
  · exact ⟨.stopped .panic, twin⟩
  · exact ⟨.stopped (.error e), twin⟩
  · have step := bip32SignEcdsa_step k inputIndex algorithm ⟨rfl, twin⟩
    simp only [Except.mapError, bind_apply]
    generalize bip32SignEcdsa k inputIndex session = ran at step ⊢
    obtain ⟨stop | keys, after⟩ := ran <;> exact step
  · have step := bip32SignSchnorr_step k inputIndex algorithm ⟨rfl, twin⟩
    simp only [Except.mapError, bind_apply]
    generalize bip32SignSchnorr k inputIndex session = ran at step ⊢
    obtain ⟨stop | keys, after⟩ := ran <;> exact step

end
end Litecoin.Psbt
