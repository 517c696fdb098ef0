import Litecoin.Psbt.CombineOrder
import Litecoin.Psbt.SignFiled

/-! Copies of one PSBT go around between signers and combiners, in any order. -/
namespace Litecoin

/-- Signatures are made without random data: the message and the key that accepts a signature
determine it. -/
class Secp256k1.Deterministic [Secp256k1] [Secp256k1.Secrets] [Secp256k1.KeyTweaks]
    [Secp256k1.Signing] : Prop where
  signEcdsa_eq : ∀ (message : Consensus.ByteArr 32) (secret other : Secrets.SecretKey),
    Secrets.fromSecretKey secret = Secrets.fromSecretKey other →
      Signing.signEcdsa message secret = Signing.signEcdsa message other
  signSchnorr_eq : ∀ (n m : Nat) (message : Consensus.ByteArr 32) (pair other : Signing.Keypair),
    (Signing.xOnlyOfKeypair pair).1 = (Signing.xOnlyOfKeypair other).1 →
      Signing.signSchnorr n message pair = Signing.signSchnorr m message other

namespace Psbt
open Wire Consensus Blockdata Sighash Crypto Bip32 Taproot
open Secp256k1 (Signing SigningLaws Verification XOnlyPublicKey Deterministic)

/-! Maps that are equal but for signatures are combined slot by slot. -/

theorem Shape.combine_self (shape : Shape) (slot : shape.Slot) : shape.combine slot slot = slot := by
  cases shape with
  | unkeyed value => exact Option.or_self
  | @keyed κ α _ _ _ _ _ =>
    exact Std.ExtTreeMap.ext_getElem? (α := κ) (β := α) fun _ =>
      (Std.ExtTreeMap.getElem?_union (α := κ) (β := α)).trans Option.or_self

theorem union_self [Ord κ] [Std.TransOrd κ] [Std.LawfulEqOrd κ] (map : BTreeMap κ α) : map ∪ map = map :=
  Std.ExtTreeMap.ext_getElem? fun _ => Std.ExtTreeMap.getElem?_union.trans Option.or_self

theorem MwebTable.combine_self (table : MwebTable F) (record : table.Record) :
    table.combine record record = record := by
  funext f
  exact Option.or_self

theorem MwebKernel.combine_self (kernel : MwebKernel) : kernel.combine kernel = kernel := by
  rw [MwebKernel.combine, MwebTable.combine_self, ite_self, ite_self]

theorem FieldMap.combine_self {G : Type} {mweb : MwebTable G} [DecidableEq F] {table : MapTable F mweb.Record}
    (listed : List F) (map : FieldMap table) : FieldMap.combine listed mweb.combine map map = map := by
  have fields : ∀ f, (if f ∈ listed then (table.shape f).combine (map.fields f) (map.fields f)
      else map.fields f) = map.fields f := fun f => by rw [Shape.combine_self, ite_self]
  rw [FieldMap.combine, funext fields, union_self, union_self, MwebTable.combine_self]

theorem mergeVec_self {default : α} {combine : α → α → α} (neutral : ∀ a, combine a default = a)
    (idempotent : ∀ a, combine a a = a) (self : List α) : mergeVec default combine self self = self := by
  refine ext_getD default ?_ fun k => ?_
  · rw [length_mergeVec, Nat.max_self]
  · rw [getD_mergeVec neutral, idempotent]

theorem mergeZip_self {combine : α → α → α} (idempotent : ∀ a, combine a a = a) (self : List α) :
    mergeZip combine self self = self := by
  induction self with
  | nil => rfl
  | cons element self ih => rw [mergeZip, idempotent, ih]

theorem getElem?_mergeZip {combine : α → α → α} {self other : List α} {i : Nat} {a b : α}
    (left : self[i]? = some a) (right : other[i]? = some b) :
    (mergeZip combine self other)[i]? = some (combine a b) := by
  induction self generalizing other i with
  | nil => contradiction
  | cons element self ih =>
    cases other with
    | nil => contradiction
    | cons first other =>
      cases i with
      | zero =>
        obtain rfl := Option.some.inj left
        obtain rfl := Option.some.inj right
        rfl
      | succ i => exact ih left right

section
variable [Secp256k1] [Hashes]

/-- A slot of an input that holds a signature. -/
inductive SignatureSlot where
  | partialSig (pk : PublicKey)
  | tapKeySig
  | tapScriptSig (key : XOnlyPublicKey × TapLeafHash)

namespace Input
variable {a b : Input}

/-- What the slot holds: an ECDSA or a taproot signature. -/
def signature (input : Input) : SignatureSlot → Option (EcdsaSignature ⊕ TaprootSignature)
  | .partialSig pk => input.partialSigs[pk]?.map .inl
  | .tapKeySig => input.tapKeySig.map .inr
  | .tapScriptSig key => input.tapScriptSigs[key]?.map .inr

/-- Nothing but the signatures tells two inputs apart. -/
theorem ext_signatures (same : a.withoutSignatures = b.withoutSignatures)
    (signatures : ∀ slot, a.signature slot = b.signature slot) : a = b := by
  have inl : Function.Injective (Option.map (Sum.inl : EcdsaSignature → _ ⊕ TaprootSignature)) :=
    Option.map_injective Sum.inl_injective
  have inr : Function.Injective (Option.map (Sum.inr : TaprootSignature → EcdsaSignature ⊕ _)) :=
    Option.map_injective Sum.inr_injective
  have fields : a.fields = b.fields := by
    funext f
    by_cases unsigned : f ≠ .partialSigs ∧ f ≠ .tapKeySig ∧ f ≠ .tapScriptSigs
    · exact fields_of_unsigned same unsigned
    · rw [not_and_or, not_and_or, not_not, not_not, not_not] at unsigned
      rcases unsigned with rfl | rfl | rfl
      · exact Std.ExtTreeMap.ext_getElem? fun pk => inl (signatures (.partialSig pk))
      · exact inr (signatures .tapKeySig)
      · exact Std.ExtTreeMap.ext_getElem? fun key => inr (signatures (.tapScriptSig key))
  have proprietary := congrArg FieldMap.proprietary same
  have unknown := congrArg FieldMap.unknown same
  have mweb := congrArg FieldMap.mweb same
  cases a
  cases b
  exact FieldMap.mk.injEq .. ▸ ⟨fields, proprietary, unknown, mweb⟩

theorem combine_fields (same : a.withoutSignatures = b.withoutSignatures) (f : Field) :
    (combine a b).fields f = if f ∈ combined then (table.shape f).combine (a.fields f) (b.fields f)
      else a.fields f := by
  have utxo : b.fields .witnessUtxo = a.fields .witnessUtxo :=
    fields_of_unsigned same.symm ⟨nofun, nofun, nofun⟩
  rcases combine_cases a b with ⟨clears, -⟩ | ⟨-, merges⟩
  · exact absurd (utxo.trans clears.1) clears.2
  · rw [merges]
    rfl

/-- What is no signature stays. -/
theorem combine_withoutSignatures (same : a.withoutSignatures = b.withoutSignatures) :
    (combine a b).withoutSignatures = a.withoutSignatures := by
  have rest : combine a b = merged a b := by
    have utxo : b.fields .witnessUtxo = a.fields .witnessUtxo :=
      fields_of_unsigned same.symm ⟨nofun, nofun, nofun⟩
    rcases combine_cases a b with ⟨clears, -⟩ | ⟨-, merges⟩
    · exact absurd (utxo.trans clears.1) clears.2
    · exact merges
  have fields : (combine a b).withoutSignatures.fields = a.withoutSignatures.fields := by
    funext f
    by_cases unsigned : f ≠ .partialSigs ∧ f ≠ .tapKeySig ∧ f ≠ .tapScriptSigs
    · rw [withoutSignatures_fields unsigned, withoutSignatures_fields unsigned, combine_fields same,
        fields_of_unsigned same.symm unsigned, Shape.combine_self, ite_self]
    · rw [not_and_or, not_and_or, not_not, not_not, not_not] at unsigned
      rcases unsigned with rfl | rfl | rfl <;> rfl
  have proprietary : (combine a b).proprietary = a.proprietary := by
    have equal : b.proprietary = a.proprietary := (congrArg FieldMap.proprietary same).symm
    rw [rest, merged, FieldMap.combine, equal]
    exact union_self _
  have unknown : (combine a b).unknown = a.unknown := by
    have equal : b.unknown = a.unknown := (congrArg FieldMap.unknown same).symm
    rw [rest, merged, FieldMap.combine, equal]
    exact union_self _
  have mweb : (combine a b).mweb = a.mweb := by
    have equal : b.mweb = a.mweb := (congrArg FieldMap.mweb same).symm
    rw [rest, merged, FieldMap.combine, equal]
    exact MwebTable.combine_self _ _
  generalize combine a b = both at fields proprietary unknown mweb
  cases both
  cases a
  exact FieldMap.mk.injEq .. ▸ ⟨fields, proprietary, unknown, mweb⟩

/-- Of two signatures that agree, either is taken. -/
theorem combine_signature (same : a.withoutSignatures = b.withoutSignatures)
    (agree : ∀ slot, Agree (a.signature slot) (b.signature slot)) (slot : SignatureSlot) :
    (combine a b).signature slot = (a.signature slot).or (b.signature slot) := by
  cases slot with
  | partialSig pk =>
    have both : (combine a b).partialSigs = a.partialSigs ∪ b.partialSigs :=
      (combine_fields same .partialSigs).trans (if_pos (by decide))
    have merged : (combine a b).signature (.partialSig pk) =
        (b.signature (.partialSig pk)).or (a.signature (.partialSig pk)) := by
      rw [signature, both, Std.ExtTreeMap.getElem?_union, Option.map_or]
      rfl
    rw [merged, (agree (.partialSig pk)).or_comm]
  | tapKeySig =>
    have both : (combine a b).tapKeySig = a.tapKeySig.or b.tapKeySig :=
      (combine_fields same .tapKeySig).trans (if_pos (by decide))
    rw [signature, both, Option.map_or]
    rfl
  | tapScriptSig key =>
    have both : (combine a b).tapScriptSigs = a.tapScriptSigs ∪ b.tapScriptSigs :=
      (combine_fields same .tapScriptSigs).trans (if_pos (by decide))
    have merged : (combine a b).signature (.tapScriptSig key) =
        (b.signature (.tapScriptSig key)).or (a.signature (.tapScriptSig key)) := by
      rw [signature, both, Std.ExtTreeMap.getElem?_union, Option.map_or]
      rfl
    rw [merged, (agree (.tapScriptSig key)).or_comm]

end Input

/-- The signature in a slot of an input. -/
def signatureAt (psbt : Psbt) (inputIndex : Nat) (slot : SignatureSlot) :
    Option (EcdsaSignature ⊕ TaprootSignature) :=
  psbt.inputs[inputIndex]?.bind fun input => input.signature slot

namespace AddsSignatures
variable {original copy other : Psbt}

theorem eq (adds : AddsSignatures original copy) : copy = { original with inputs := copy.inputs } := by
  have same := congrArg (fun psbt : Psbt => { psbt with inputs := copy.inputs }) adds.others
  exact same

/-- Copies are combined input by input. -/
theorem combine (left : AddsSignatures original copy) (right : AddsSignatures original other) :
    (copy.combine other).run =
      some (.ok { original with inputs := mergeZip Input.combine copy.inputs other.inputs }) := by
  rw [left.eq, right.eq, Psbt.combine, if_neg (not_not.mpr rfl)]
  have agree : ∀ key : Xpub, Agree original.xpub[key]? original.xpub[key]? :=
    fun key v w found found' => Option.some.inj (found.symm.trans found')
  obtain ⟨xpub, folded, looked⟩ := combineXpubs_of_agree agree
  have same : xpub = original.xpub :=
    Std.ExtTreeMap.ext_getElem? fun key => (looked key).trans Option.or_self
  rw [same] at folded
  refine run_bind_eq_ok.mpr ⟨original.xpub, folded, run_pure_eq_ok.mpr ?_⟩
  have version : max original.version original.version = original.version := by
    rw [← UInt32.toNat_inj, UInt32.toNat_max, Nat.max_self]
  have inputs : mergeVec MwebInput.table.empty MwebInput.combine original.mwebInputs
      original.mwebInputs = original.mwebInputs :=
    mergeVec_self (MwebTable.combine_empty MwebInput.table) (MwebTable.combine_self MwebInput.table) _
  have outputs : mergeVec MwebOutput.table.empty MwebOutput.combine original.mwebOutputs
      original.mwebOutputs = original.mwebOutputs :=
    mergeVec_self (MwebTable.combine_empty MwebOutput.table) (MwebTable.combine_self MwebOutput.table) _
  have others : mergeZip Output.combine original.outputs original.outputs = original.outputs :=
    mergeZip_self (FieldMap.combine_self Output.combined) _
  simp only [version, union_self, Option.or_self, inputs, outputs, others,
    mergeVec_self MwebKernel.combine_default MwebKernel.combine_self]

theorem listed (adds : AddsSignatures original copy) {inputIndex : Nat} {slot : SignatureSlot}
    {sig : EcdsaSignature ⊕ TaprootSignature} (there : copy.signatureAt inputIndex slot = some sig) :
    ∃ input signed, original.inputs[inputIndex]? = some input ∧
      copy.inputs[inputIndex]? = some signed ∧ input.AddsSignatures signed ∧
        signed.signature slot = some sig := by
  obtain ⟨signed, found, holds⟩ := Option.bind_eq_some_iff.mp there
  have inside := (List.getElem?_eq_some_iff.mp found).1
  rw [adds.length] at inside
  obtain ⟨input, listed⟩ : ∃ input, original.inputs[inputIndex]? = some input :=
    ⟨_, List.getElem?_eq_getElem inside⟩
  obtain ⟨other, found', more⟩ := adds.inputs inputIndex input listed
  obtain rfl := Option.some.inj (found.symm.trans found')
  exact ⟨input, signed, listed, found, more, holds⟩

/-- Taproot signatures are kept. -/
theorem keeps (adds : AddsSignatures original copy) {inputIndex : Nat} {slot : SignatureSlot}
    {sig : EcdsaSignature ⊕ TaprootSignature} (taproot : ∀ pk, slot ≠ .partialSig pk)
    (there : original.signatureAt inputIndex slot = some sig) :
    copy.signatureAt inputIndex slot = some sig := by
  obtain ⟨input, listed, holds⟩ := Option.bind_eq_some_iff.mp there
  obtain ⟨signed, found, more⟩ := adds.inputs inputIndex input listed
  rw [signatureAt, found]
  cases slot with
  | partialSig pk => exact absurd rfl (taproot pk)
  | tapKeySig =>
    obtain ⟨old, held, rfl⟩ := Option.map_eq_some_iff.mp holds
    exact congrArg (Option.map Sum.inr) (more.tapKeySig old held)
  | tapScriptSig key =>
    obtain ⟨old, held, rfl⟩ := Option.map_eq_some_iff.mp holds
    exact congrArg (Option.map Sum.inr) (more.tapScriptSigs key old held)

/-- A slot that holds a signature still holds one. -/
theorem filled (adds : AddsSignatures original copy) {inputIndex : Nat} {slot : SignatureSlot}
    {sig : EcdsaSignature ⊕ TaprootSignature}
    (there : original.signatureAt inputIndex slot = some sig) :
    ∃ sig', copy.signatureAt inputIndex slot = some sig' := by
  cases slot with
  | partialSig pk =>
    obtain ⟨input, listed, holds⟩ := Option.bind_eq_some_iff.mp there
    obtain ⟨signed, found, more⟩ := adds.inputs inputIndex input listed
    obtain ⟨old, placed, -⟩ := Option.map_eq_some_iff.mp holds
    have kept := more.partialSigs pk (Std.ExtTreeMap.mem_iff_isSome_getElem?.mpr (by rw [placed]; rfl))
    obtain ⟨new, placed'⟩ := Option.isSome_iff_exists.mp (Std.ExtTreeMap.mem_iff_isSome_getElem?.mp kept)
    rw [signatureAt, found]
    exact ⟨.inl new, congrArg (Option.map Sum.inl) placed'⟩
  | tapKeySig => exact ⟨sig, adds.keeps (by simp) there⟩
  | tapScriptSig key => exact ⟨sig, adds.keeps (by simp) there⟩

/-- Nothing but the signatures tells two copies apart. -/
theorem ext (left : AddsSignatures original copy) (right : AddsSignatures original other)
    (signatures : ∀ inputIndex slot, copy.signatureAt inputIndex slot = other.signatureAt inputIndex slot) :
    copy = other := by
  rw [left.eq, right.eq]
  have inputs : copy.inputs = other.inputs := by
    refine List.ext_getElem? fun i => ?_
    rcases listed : original.inputs[i]? with _ | input
    · have beyond := List.getElem?_eq_none_iff.mp listed
      rw [List.getElem?_eq_none_iff.mpr (by rwa [left.length]),
        List.getElem?_eq_none_iff.mpr (by rwa [right.length])]
    · obtain ⟨signed, found, more⟩ := left.inputs i input listed
      obtain ⟨signed', found', more'⟩ := right.inputs i input listed
      have same : signed = signed' := by
        refine Input.ext_signatures (more.unchanged.trans more'.unchanged.symm) fun slot => ?_
        have slots := signatures i slot
        rwa [signatureAt, signatureAt, found, found'] at slots
      rw [found, found', same]
  rw [inputs]

/-- What two copies are combined to is a copy, and holds what either of them holds. -/
theorem merged (left : AddsSignatures original copy) (right : AddsSignatures original other)
    (agree : ∀ inputIndex slot,
      Agree (copy.signatureAt inputIndex slot) (other.signatureAt inputIndex slot)) :
    let both : Psbt := { original with inputs := mergeZip Input.combine copy.inputs other.inputs }
    AddsSignatures original both ∧ ∀ inputIndex slot, both.signatureAt inputIndex slot =
      (copy.signatureAt inputIndex slot).or (other.signatureAt inputIndex slot) := by
  intro both
  have length : both.inputs.length = original.inputs.length := (length_mergeZip _ _).trans left.length
  have each : ∀ (i : Nat) (input : Input), original.inputs[i]? = some input → ∃ signed signed',
      copy.inputs[i]? = some signed ∧ input.AddsSignatures signed ∧
        other.inputs[i]? = some signed' ∧ signed.withoutSignatures = signed'.withoutSignatures ∧
          both.inputs[i]? = some (Input.combine signed signed') ∧ ∀ slot,
            (Input.combine signed signed').signature slot =
              (signed.signature slot).or (signed'.signature slot) := by
    intro i input listed
    obtain ⟨signed, found, more⟩ := left.inputs i input listed
    obtain ⟨signed', found', more'⟩ := right.inputs i input listed
    have same := more.unchanged.trans more'.unchanged.symm
    refine ⟨signed, signed', found, more, found', same, getElem?_mergeZip found found', ?_⟩
    refine Input.combine_signature same fun slot => ?_
    have slots := agree i slot
    rwa [signatureAt, signatureAt, found, found'] at slots
  constructor
  · refine ⟨rfl, length, fun i input listed => ?_⟩
    obtain ⟨signed, signed', -, more, -, same, there, slots⟩ := each i input listed
    refine ⟨_, there, (Input.combine_withoutSignatures same).trans more.unchanged, ?_, ?_, ?_⟩
    · intro pk held
      have kept := Std.ExtTreeMap.mem_iff_isSome_getElem?.mp (more.partialSigs pk held)
      obtain ⟨sig, found⟩ := Option.isSome_iff_exists.mp kept
      have merged := slots (.partialSig pk)
      simp only [Input.signature, found, Option.map_some, Option.some_or] at merged
      obtain ⟨sig', found', -⟩ := Option.map_eq_some_iff.mp merged
      exact Std.ExtTreeMap.mem_iff_isSome_getElem?.mpr (by rw [found']; rfl)
    · intro sig held
      have merged := slots .tapKeySig
      simp only [Input.signature, more.tapKeySig sig held, Option.map_some, Option.some_or] at merged
      exact Option.map_injective Sum.inr_injective merged
    · intro key sig held
      have merged := slots (.tapScriptSig key)
      simp only [Input.signature, more.tapScriptSigs key sig held, Option.map_some,
        Option.some_or] at merged
      exact Option.map_injective Sum.inr_injective merged
  · intro i slot
    rcases listed : original.inputs[i]? with _ | input
    · have beyond := List.getElem?_eq_none_iff.mp listed
      rw [signatureAt, signatureAt, signatureAt, List.getElem?_eq_none_iff.mpr (by rwa [length]),
        List.getElem?_eq_none_iff.mpr (by rwa [left.length]),
        List.getElem?_eq_none_iff.mpr (by rwa [right.length])]
      rfl
    · obtain ⟨signed, signed', found, -, found', -, there, slots⟩ := each i input listed
      rw [signatureAt, signatureAt, signatureAt, found, found', there]
      exact slots slot

end AddsSignatures

variable [SighashTag] [Secp256k1.Secrets] [Secp256k1.KeyTweaks] [Secp256k1.Signing] [TweakHash]

/-- An ECDSA signature made with the secret of a key. -/
def EcdsaOwn (psbt : Psbt) (inputIndex : Nat) (pk : PublicKey) (sig : EcdsaSignature) : Prop :=
  ∃ sk message hashTy, PublicKey.inner (PrivateKey.publicKey sk) = pk.inner ∧
    psbt.ecdsaMessageOf inputIndex = some (.ok (message, hashTy)) ∧
    sig = { signature := Signing.signEcdsa message sk.inner, sighashType := hashTy }

/-- A Schnorr signature made with a pair that belongs to a key. -/
def SchnorrOwn (psbt : Psbt) (inputIndex : Nat) (leafHash : Option TapLeafHash) (key : XOnlyPublicKey)
    (sig : TaprootSignature) : Prop :=
  ∃ pair, (Signing.xOnlyOfKeypair pair).1 = key ∧ Made psbt inputIndex leafHash pair sig

/-- The signature is made with the secret of the key that its slot is for. -/
def Own (psbt : Psbt) (inputIndex : Nat) (input : Input) :
    SignatureSlot → EcdsaSignature ⊕ TaprootSignature → Prop
  | .partialSig pk, .inl sig => EcdsaOwn psbt inputIndex pk sig
  | .tapKeySig, .inr sig => ∃ internalKey outputKey parity, input.tapInternalKey = some internalKey ∧
      tapTweak internalKey input.tapMerkleRoot = .ok (outputKey, parity) ∧
      SchnorrOwn psbt inputIndex none outputKey sig
  | .tapScriptSig key, .inr sig => SchnorrOwn psbt inputIndex (some key.2) key.1 sig
  | _, _ => False

/-- A copy of a PSBT, with some signatures of the keys that its inputs ask for. -/
structure Copy (original copy : Psbt) : Prop where
  adds : AddsSignatures original copy
  own : ∀ inputIndex input slot sig, original.inputs[inputIndex]? = some input →
    copy.signatureAt inputIndex slot = some sig →
      original.signatureAt inputIndex slot = some sig ∨ Own original inputIndex input slot sig

/-- The partial signatures that a PSBT starts with are those of their keys; signing would
replace others. -/
def Sound (original : Psbt) : Prop :=
  ∀ inputIndex input (pk : PublicKey) (sig : EcdsaSignature), original.inputs[inputIndex]? = some input →
    input.partialSigs[pk]? = some sig → EcdsaOwn original inputIndex pk sig

/-! A slot has one signature of its key. -/

section
variable [Secp256k1.Deterministic] {original copy other : Psbt} {inputIndex : Nat} {input : Input}

omit [SighashTag] [TweakHash] in
theorem EcdsaOwn.unique {pk : PublicKey} {sig sig' : EcdsaSignature}
    (own : EcdsaOwn original inputIndex pk sig) (own' : EcdsaOwn original inputIndex pk sig') :
    sig = sig' := by
  obtain ⟨sk, message, hashTy, key, told, rfl⟩ := own
  obtain ⟨sk', message', hashTy', key', told', rfl⟩ := own'
  obtain ⟨rfl, rfl⟩ := Prod.mk.inj (Except.ok.inj (Option.some.inj (told.symm.trans told')))
  rw [Deterministic.signEcdsa_eq message sk.inner sk'.inner (key.trans key'.symm)]

omit [TweakHash] in
theorem SchnorrOwn.unique {leafHash : Option TapLeafHash} {key : XOnlyPublicKey}
    {sig sig' : TaprootSignature} (own : SchnorrOwn original inputIndex leafHash key sig)
    (own' : SchnorrOwn original inputIndex leafHash key sig') : sig = sig' := by
  obtain ⟨pair, same, n, message, told, made⟩ := own
  obtain ⟨pair', same', n', message', told', made'⟩ := own'
  obtain ⟨rfl, hashTy⟩ := Prod.mk.inj (Except.ok.inj (Option.some.inj (told.symm.trans told')))
  have signature : sig.signature = sig'.signature := by
    rw [made, made', Deterministic.signSchnorr_eq n n' message pair pair' (same.trans same'.symm)]
  cases sig
  cases sig'
  exact TaprootSignature.mk.injEq .. ▸ ⟨signature, hashTy⟩

theorem Own.unique {slot : SignatureSlot} {sig sig' : EcdsaSignature ⊕ TaprootSignature}
    (own : Own original inputIndex input slot sig) (own' : Own original inputIndex input slot sig') :
    sig = sig' := by
  cases slot with
  | partialSig pk =>
    rcases sig with sig | sig <;> rcases sig' with sig' | sig' <;> try contradiction
    rw [EcdsaOwn.unique own own']
  | tapKeySig =>
    rcases sig with sig | sig <;> rcases sig' with sig' | sig' <;> try contradiction
    obtain ⟨internalKey, outputKey, parity, internal, tweaked, made⟩ := own
    obtain ⟨internalKey', outputKey', parity', internal', tweaked', made'⟩ := own'
    obtain rfl := Option.some.inj (internal.symm.trans internal')
    obtain ⟨rfl, -⟩ := Prod.mk.inj (Except.ok.inj (tweaked.symm.trans tweaked'))
    rw [made.unique made']
  | tapScriptSig key =>
    rcases sig with sig | sig <;> rcases sig' with sig' | sig' <;> try contradiction
    rw [SchnorrOwn.unique own own']

end

/-! What one step makes of a copy. -/

theorem Sound.own {original : Psbt} (sound : Sound original) {inputIndex : Nat} {input : Input}
    {pk : PublicKey} {sig : EcdsaSignature ⊕ TaprootSignature}
    (there : original.signatureAt inputIndex (.partialSig pk) = some sig) :
    Own original inputIndex input (.partialSig pk) sig := by
  obtain ⟨holder, listed, holds⟩ := Option.bind_eq_some_iff.mp there
  obtain ⟨made, found, rfl⟩ := Option.map_eq_some_iff.mp holds
  exact sound inputIndex holder pk made listed found

omit [SighashTag] [TweakHash] in
/-- Signatures change nothing about the origins of an input. -/
theorem Honest.of_adds {k : GetKey ε} {input signed : Input} (honest : Honest k input)
    (adds : input.AddsSignatures signed) : Honest k signed where
  bip32Derivation key source sk listed := by
    rw [show signed.bip32Derivation = input.bip32Derivation from
      adds.field .bip32Derivation (by decide)] at listed
    exact honest.bip32Derivation key source sk listed
  tapKeyOrigins xonly leafHashes source sk listed := by
    rw [adds.tapKeyOrigins] at listed
    exact honest.tapKeyOrigins xonly leafHashes source sk listed

namespace Copy
variable {original copy other : Psbt}

theorem start (original : Psbt) : Copy original original where
  adds := .refl original
  own _ _ _ _ _ there := .inl there

section
variable [Secp256k1.Deterministic] (sound : Sound original)
include sound

/-- A signature that was there from the start is the one that its key makes. -/
theorem eq_of_old (right : Copy original other) {inputIndex : Nat} {input : Input} {slot : SignatureSlot}
    {sig sig' : EcdsaSignature ⊕ TaprootSignature}
    (old : original.signatureAt inputIndex slot = some sig)
    (there : other.signatureAt inputIndex slot = some sig')
    (own : Own original inputIndex input slot sig') : sig = sig' := by
  cases slot with
  | partialSig pk => exact Own.unique (sound.own old) own
  | tapKeySig => exact Option.some.inj ((right.adds.keeps (by simp) old).symm.trans there)
  | tapScriptSig key => exact Option.some.inj ((right.adds.keeps (by simp) old).symm.trans there)

/-- Two copies have no different signatures in one slot. -/
theorem agree (left : Copy original copy) (right : Copy original other) (inputIndex : Nat)
    (slot : SignatureSlot) :
    Agree (copy.signatureAt inputIndex slot) (other.signatureAt inputIndex slot) := by
  intro sig sig' there there'
  obtain ⟨input, -, listed, -, -, -⟩ := left.adds.listed there
  rcases left.own inputIndex input slot sig listed there with old | own
  · rcases right.own inputIndex input slot sig' listed there' with old' | own'
    · exact Option.some.inj (old.symm.trans old')
    · exact right.eq_of_old sound old there' own'
  · rcases right.own inputIndex input slot sig' listed there' with old' | own'
    · exact (left.eq_of_old sound old' there own).symm
    · exact own.unique own'

/-- Combining two copies. -/
theorem combine (left : Copy original copy) (right : Copy original other) : ∃ both,
    (copy.combine other).run = some (.ok both) ∧ Copy original both ∧ ∀ inputIndex slot,
      both.signatureAt inputIndex slot =
        (copy.signatureAt inputIndex slot).or (other.signatureAt inputIndex slot) := by
  obtain ⟨adds, slots⟩ := left.adds.merged right.adds (left.agree sound right)
  refine ⟨_, left.adds.combine right.adds, ⟨adds, fun inputIndex input slot sig listed there => ?_⟩, slots⟩
  rw [slots] at there
  rcases Option.or_eq_some_iff.mp there with held | ⟨-, held⟩
  · exact left.own inputIndex input slot sig listed held
  · exact right.own inputIndex input slot sig listed held

end

/-- Signing a copy. -/
theorem sign [Secp256k1.Verification] [Secp256k1.SigningLaws] {k : GetKey ε} (answers : Answers k)
    (honest : ∀ input ∈ original.inputs, Honest k input) (copied : Copy original copy) :
    Copy original (sign k copy).2 where
  adds := copied.adds.trans (sign_adds k copy)
  own inputIndex input slot sig listed there := by
    have same := copied.adds.same
    obtain ⟨before, signed, found, ended, more, holds⟩ := (sign_adds k copy).listed there
    obtain ⟨before', found', added⟩ := copied.adds.inputs inputIndex input listed
    obtain rfl := Option.some.inj (found.symm.trans found')
    obtain ⟨signed', ended', authored, -⟩ := sign_authored k found
    obtain rfl := Option.some.inj (ended.symm.trans ended')
    have honest := (honest input (List.mem_of_getElem? listed)).of_adds added
    have kept : before.signature slot = some sig → original.signatureAt inputIndex slot = some sig ∨
        Own original inputIndex input slot sig := by
      intro held
      refine copied.own inputIndex input slot sig listed ?_
      rw [signatureAt, found]
      exact held
    cases slot with
    | partialSig pk =>
      obtain ⟨made, placed, rfl⟩ := Option.map_eq_some_iff.mp holds
      rcases authored.partialSigs pk made placed with old | ⟨key, sk, message, hashTy, -, rfl, told, rfl⟩
      · exact kept (congrArg (Option.map Sum.inl) old)
      · rw [same.ecdsaMessageOf] at told
        exact .inr ⟨sk, message, hashTy, rfl, told, rfl⟩
    | tapKeySig =>
      obtain ⟨made, placed, rfl⟩ := Option.map_eq_some_iff.mp holds
      rcases old : before.tapKeySig with _ | held
      · obtain ⟨internalKey, leafHashes, sk, pair, internal, origin, tweaked, made⟩ :=
          authored.tapKeySig made old placed
        have tweaks := tapTweakPair_tweaks tweaked
        have root : before.tapMerkleRoot = input.tapMerkleRoot := added.field .tapMerkleRoot (by decide)
        rw [origin.own answers honest, root] at tweaks
        rw [added.tapInternalKey] at internal
        exact .inr ⟨internalKey, _, _, internal, tweaks, pair, rfl, made.of_same same⟩
      · obtain rfl := Option.some.inj (placed.symm.trans (more.tapKeySig held old))
        exact kept (congrArg (Option.map Sum.inr) old)
    | tapScriptSig key =>
      obtain ⟨made, placed, rfl⟩ := Option.map_eq_some_iff.mp holds
      rcases old : before.tapScriptSigs[key]? with _ | held
      · have vacant : key ∉ before.tapScriptSigs := by
          rw [Std.ExtTreeMap.mem_iff_isSome_getElem?, old]
          exact nofun
        obtain ⟨leafHashes, sk, origin, -, made⟩ := authored.tapScriptSigs key.1 key.2 made vacant placed
        have own : (Signing.xOnlyOfKeypair (Signing.keypair sk.inner)).1 = key.1 :=
          (congrArg Prod.fst (SigningLaws.xOnlyOfKeypair_keypair sk.inner)).trans
            (origin.own answers honest)
        exact .inr ⟨_, own, made.of_same same⟩
      · obtain rfl := Option.some.inj (placed.symm.trans (more.tapScriptSigs key held old))
        exact kept (congrArg (Option.map Sum.inr) old)

end Copy

/-- What signers and combiners can make of a PSBT: every copy may be signed and combined
again, and nothing orders these steps. -/
inductive Circulates [Hmac] (stores : Set KeyStore) (original : Psbt) : Psbt → Prop where
  | created : Circulates stores original original
  | signed {copy : Psbt} {store : KeyStore} (member : store ∈ stores)
      (circulates : Circulates stores original copy) :
      Circulates stores original (sign store.getKey copy).2
  | combined {copy other both : Psbt} (left : Circulates stores original copy)
      (right : Circulates stores original other)
      (returned : (copy.combine other).run = some (.ok both)) : Circulates stores original both

section
variable [Secp256k1.Verification]

/-- The signature is accepted under the key that its slot is for. -/
def Accepted (psbt : Psbt) (inputIndex : Nat) (input : Input) :
    SignatureSlot → EcdsaSignature ⊕ TaprootSignature → Prop
  | .partialSig pk, .inl sig => ∃ message hashTy,
      psbt.ecdsaMessageOf inputIndex = some (.ok (message, hashTy)) ∧
      sig.sighashType = hashTy ∧
      Verification.verifyEcdsa message sig.signature pk.inner
  | .tapKeySig, .inr sig => ∃ internalKey outputKey parity message,
      input.tapInternalKey = some internalKey ∧
      tapTweak internalKey input.tapMerkleRoot = .ok (outputKey, parity) ∧
      psbt.taprootMessage inputIndex none = some (.ok (message, sig.sighashType)) ∧
      Verification.verifySchnorr message sig.signature outputKey
  | .tapScriptSig key, .inr sig => ∃ message,
      psbt.taprootMessage inputIndex (some key.2) = some (.ok (message, sig.sighashType)) ∧
      Verification.verifySchnorr message sig.signature key.1
  | _, _ => False

variable [Secp256k1.SigningLaws]

theorem Own.accepted {psbt : Psbt} {inputIndex : Nat} {input : Input} {slot : SignatureSlot}
    {sig : EcdsaSignature ⊕ TaprootSignature} (own : Own psbt inputIndex input slot sig) :
    Accepted psbt inputIndex input slot sig := by
  cases slot with
  | partialSig pk =>
    rcases sig with sig | sig <;> try contradiction
    obtain ⟨sk, message, hashTy, key, told, rfl⟩ := own
    refine ⟨message, hashTy, told, rfl, ?_⟩
    rw [← key]
    exact SigningLaws.verifyEcdsa_signEcdsa message sk.inner
  | tapKeySig =>
    rcases sig with sig | sig <;> try contradiction
    obtain ⟨internalKey, outputKey, parity, internal, tweaked, pair, same, made⟩ := own
    obtain ⟨message, told, accepted⟩ := made.accepted
    exact ⟨internalKey, outputKey, parity, message, internal, tweaked, told,
      (accepted outputKey).mpr same.symm⟩
  | tapScriptSig key =>
    rcases sig with sig | sig <;> try contradiction
    obtain ⟨pair, same, made⟩ := own
    obtain ⟨message, told, accepted⟩ := made.accepted
    exact ⟨message, told, (accepted key.1).mpr same.symm⟩

variable [Hmac] [Secp256k1.Deterministic] {stores : Set KeyStore} {original : Psbt}

/-- Everything that goes around is a copy of the original. -/
theorem Circulates.copy (matched : ∀ store ∈ stores, store.Matched)
    (honest : ∀ store ∈ stores, ∀ input ∈ original.inputs, Honest store.getKey input)
    (sound : Sound original) {copy : Psbt} (circulates : Circulates stores original copy) :
    Copy original copy := by
  induction circulates with
  | created => exact .start original
  | @signed copy store member _ ih => exact ih.sign (store.answers (matched store member)) (honest store member)
  | combined left right returned ihLeft ihRight =>
    obtain ⟨both, combined, copied, -⟩ := ihLeft.combine sound ihRight
    obtain rfl := Except.ok.inj (Option.some.inj (returned.symm.trans combined))
    exact copied

/-- In whatever order a PSBT is signed and its copies are combined, only signatures are added
and those are accepted, none is lost or replaced, any two copies combine in both orders to the
same copy with the signatures of both, and copies with signatures in the same slots are equal. -/
theorem copies_converge (matched : ∀ store ∈ stores, store.Matched)
    (honest : ∀ store ∈ stores, ∀ input ∈ original.inputs, Honest store.getKey input)
    (sound : Sound original) {copy other : Psbt} (circulates : Circulates stores original copy)
    (circulates' : Circulates stores original other) :
    AddsSignatures original copy ∧
    (∀ inputIndex input slot sig, original.inputs[inputIndex]? = some input →
      copy.signatureAt inputIndex slot = some sig →
        original.signatureAt inputIndex slot = some sig ∨
          Accepted original inputIndex input slot sig) ∧
    (∀ store ∈ stores, ∀ inputIndex slot sig, copy.signatureAt inputIndex slot = some sig →
      (sign store.getKey copy).2.signatureAt inputIndex slot = some sig) ∧
    (∃ both, (copy.combine other).run = some (.ok both) ∧ (other.combine copy).run = some (.ok both) ∧
      ∀ inputIndex slot, both.signatureAt inputIndex slot =
        (copy.signatureAt inputIndex slot).or (other.signatureAt inputIndex slot)) ∧
    ((∀ inputIndex slot, copy.signatureAt inputIndex slot = none ↔
      other.signatureAt inputIndex slot = none) → copy = other) := by
  have left := circulates.copy matched honest sound
  have right := circulates'.copy matched honest sound
  have agree := left.agree sound right
  refine ⟨left.adds, fun inputIndex input slot sig listed there => ?_,
    fun store member inputIndex slot sig there => ?_, ?_, fun filled => ?_⟩
  · exact (left.own inputIndex input slot sig listed there).imp_right Own.accepted
  · have signed := left.sign (store.answers (matched store member)) (honest store member)
    obtain ⟨sig', there'⟩ := (sign_adds store.getKey copy).filled there
    rw [left.agree sound signed inputIndex slot sig sig' there there', there']
  · obtain ⟨both, combined, copied, slots⟩ := left.combine sound right
    obtain ⟨both', combined', copied', slots'⟩ := right.combine sound left
    have same : both' = both := copied'.adds.ext copied.adds fun inputIndex slot => by
      rw [slots, slots', (agree inputIndex slot).or_comm]
    exact ⟨both, combined, same ▸ combined', slots⟩
  · exact left.adds.ext right.adds fun inputIndex slot =>
      (agree inputIndex slot).eq_iff.mpr (filled inputIndex slot)

end

end

namespace Sample
attribute [local instance] fourPoints secrets tweaks signing verification hmac sighashTag tweakHash
  Hashes.ofEmpty

theorem deterministic : Secp256k1.Deterministic where
  signEcdsa_eq _ _ _ same := same
  signSchnorr_eq _ _ _ _ _ same := same

/-- The signed copy and the unsigned one are combined. -/
theorem spending_converges : ∃ both,
    ((sign store.getKey spending).2.combine spending).run = some (.ok both) ∧
    (spending.combine (sign store.getKey spending).2).run = some (.ok both) ∧
    ∀ inputIndex slot, both.signatureAt inputIndex slot =
      ((sign store.getKey spending).2.signatureAt inputIndex slot).or
        (spending.signatureAt inputIndex slot) := by
  have := signingLaws
  have := deterministic
  have honest : ∀ keys ∈ ({store} : Set KeyStore), ∀ input ∈ spending.inputs,
      Honest keys.getKey input := by
    rintro _ rfl input -
    exact store.honest trivial input
  have sound : Sound spending := by
    intro inputIndex input pk sig listed placed
    cases inputIndex with
    | zero =>
      obtain rfl := Option.some.inj listed
      have vacant : (∅ : BTreeMap PublicKey EcdsaSignature)[pk]? = some sig := placed
      rw [Std.ExtTreeMap.getElem?_empty] at vacant
      contradiction
    | succ _ => exact absurd listed nofun
  have matched : ∀ keys ∈ ({store} : Set KeyStore), keys.Matched := by
    rintro _ rfl
    exact store_matched
  exact (copies_converge matched honest sound (.signed (Set.mem_singleton store) .created) .created).2.2.2.1

end Sample

end Psbt
end Litecoin
