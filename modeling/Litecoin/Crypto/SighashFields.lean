import Litecoin.Crypto.Sighash
import Mathlib.Data.Set.Function

/-! Which fields a signature commits to. A preimage is a function of the committed
fields, and without hash collisions it determines them. -/
namespace Litecoin.Sighash
open Wire Consensus Blockdata

/-- The outputs a signature commits to. -/
inductive CommittedOutputs where
  | all (outputs : List TxOut)
  | matching (output : Option TxOut)
  | nothing
deriving DecidableEq

/-- Commitments to the same kind of thing. -/
inductive CommittedOutputs.SameKind : CommittedOutputs → CommittedOutputs → Prop where
  | all (outputs outputs' : List TxOut) : SameKind (.all outputs) (.all outputs')
  | matching (output output' : Option TxOut) : SameKind (.matching output) (.matching output')
  | nothing : SameKind .nothing .nothing

/-- The fields under a segwit version 0 signature. Without `SIGHASH_ANYONECANPAY` all
outpoints are among them, and under `SIGHASH_ALL` all sequences as well. -/
structure SegwitV0Fields where
  sighashType : EcdsaSighashType
  version : Int32
  lockTime : LockTime
  outpoint : OutPoint
  scriptCode : ByteVec
  value : UInt64
  sequence : UInt32
  outpoints : Option (List OutPoint)
  sequences : Option (List UInt32)
  outputs : CommittedOutputs
deriving DecidableEq

/-- The input under a taproot signature: its own data with `SIGHASH_ANYONECANPAY`, its
index without. -/
inductive CommittedInput where
  | own (outpoint : OutPoint) (amount : UInt64) (scriptPubkey : ByteVec) (sequence : UInt32)
  | index (inputIndex : Nat)
deriving DecidableEq

/-- Both the data of an input, or both an index that fits into four bytes. -/
inductive CommittedInput.SameKind : CommittedInput → CommittedInput → Prop where
  | own {outpoint outpoint' : OutPoint} {amount amount' : UInt64} {script script' : ByteVec}
      {sequence sequence' : UInt32} : SameKind (.own outpoint amount script sequence)
      (.own outpoint' amount' script' sequence')
  | index (fits : n < 2 ^ 32) (fits' : n' < 2 ^ 32) : SameKind (.index n) (.index n')

/-- The data of all inputs and of the outputs they spend. -/
structure CommittedInputs where
  outpoints : List OutPoint
  amounts : List UInt64
  scriptPubkeys : List ByteVec
  sequences : List UInt32
deriving DecidableEq

/-- The fields under a taproot signature. -/
structure TaprootFields where
  sighashType : TapSighashType
  version : Int32
  lockTime : LockTime
  inputs : Option CommittedInputs
  outputs : CommittedOutputs
  input : CommittedInput
  annex : Option Annex
  leaf : Option (Taproot.TapLeafHash × UInt32)
deriving DecidableEq

section
variable [Secp256k1]

namespace TaprootFields

/-- Nothing under `SIGHASH_ANYONECANPAY`; otherwise all spent outputs must be given. -/
def inputsOf (anyoneCanPay : Bool) (tx : Transaction) (prevouts : Prevouts) :
    Option (Option CommittedInputs) :=
  if anyoneCanPay then some none else match prevouts with
    | .one _ _ => none
    | .all prevouts => some (some {
        outpoints := tx.input.toList.map TxIn.previousOutput
        amounts := prevouts.map TxOut.value
        scriptPubkeys := prevouts.map TxOut.scriptPubkey
        sequences := tx.input.toList.map TxIn.sequence })

def inputOf (anyoneCanPay : Bool) (tx : Transaction) (inputIndex : Nat) (prevouts : Prevouts) :
    Option CommittedInput :=
  if anyoneCanPay then do
    let txin ← tx.input.toList[inputIndex]?
    let prevout ← (prevouts.get inputIndex).toOption
    some (.own txin.previousOutput prevout.value prevout.scriptPubkey txin.sequence)
  else some (.index inputIndex)

def outputsOf (sighash : TapSighashType) (tx : Transaction) (inputIndex : Nat) : CommittedOutputs :=
  match sighash with
  | .single => .matching tx.output.toList[inputIndex]?
  | .none => .nothing
  | _ => .all tx.output.toList

/-- The fields of a call, unless the call lacks one of them. -/
def of (tx : Transaction) (inputIndex : Nat) (prevouts : Prevouts) (annex : Option Annex)
    (leaf : Option (Taproot.TapLeafHash × UInt32)) (sighashType : TapSighashType) :
    Option TaprootFields := do
  let (sighash, anyoneCanPay) := sighashType.splitAnyonecanpayFlag
  let inputs ← inputsOf anyoneCanPay tx prevouts
  let input ← inputOf anyoneCanPay tx inputIndex prevouts
  some {
    sighashType
    version := tx.version
    lockTime := tx.lockTime
    inputs
    outputs := outputsOf sighash tx inputIndex
    input
    annex
    leaf }

end TaprootFields

namespace SegwitV0Fields

/-- The fields of a call, where `txin` is the input at `inputIndex`. -/
def of (tx : Transaction) (inputIndex : Nat) (txin : TxIn) (scriptCode : ByteVec) (value : UInt64)
    (sighashType : EcdsaSighashType) : SegwitV0Fields :=
  let (sighash, anyoneCanPay) := sighashType.splitAnyonecanpayFlag
  { sighashType
    version := tx.version
    lockTime := tx.lockTime
    outpoint := txin.previousOutput
    scriptCode
    value
    sequence := txin.sequence
    outpoints := if anyoneCanPay then none else some (tx.input.toList.map TxIn.previousOutput)
    sequences := if !anyoneCanPay && sighash = .all then some (tx.input.toList.map TxIn.sequence)
      else none
    outputs := match sighash with
      | .single => .matching tx.output.toList[inputIndex]?
      | .none => .nothing
      | _ => .all tx.output.toList }

end SegwitV0Fields
end

section
variable [Hashes]

/-- No two of the given data have the same hash, and none has the zero hash. -/
structure CollisionFree (data : Set Bytes) : Prop where
  sha256 : Set.InjOn Hashes.sha256 data
  sha256d : Set.InjOn Hashes.sha256d data
  nonzero : ∀ bytes ∈ data, Hashes.sha256d bytes ≠ SighashCache.zeroHash

/-- A list in one hash, and in the hash of its hash. -/
def hashTwice (bytes : Bytes) : ByteArr 32 := hashAgain (Hashes.sha256 bytes)

namespace SegwitV0Fields

def outpointsWire (outpoints : List OutPoint) : Bytes := outpoints.flatMap OutPoint.wire

def sequencesWire (sequences : List UInt32) : Bytes :=
  sequences.flatMap fun sequence => littleEndian 4 sequence.toNat

def outputsWire (outputs : List TxOut) : Bytes := outputs.flatMap TxOut.wire

def hashOption (wire : α → Bytes) : Option α → ByteArr 32
  | none => SighashCache.zeroHash
  | some a => hashTwice (wire a)

def hashOutputs : CommittedOutputs → ByteArr 32
  | .all outputs => hashTwice (outputsWire outputs)
  | .matching (some output) => Hashes.sha256d output.wire
  | .matching none => SighashCache.zeroHash
  | .nothing => SighashCache.zeroHash

/-- The preimage as a function of the fields. -/
def preimage (fields : SegwitV0Fields) : Bytes :=
  littleEndian 4 fields.version.toUInt32.toNat ++
  ((hashOption outpointsWire fields.outpoints).val ++
  ((hashOption sequencesWire fields.sequences).val ++
  (fields.outpoint.wire ++ (bytesWire fields.scriptCode ++ (littleEndian 8 fields.value.toNat ++
  (littleEndian 4 fields.sequence.toNat ++ ((hashOutputs fields.outputs).val ++
  (fields.lockTime.wire ++ littleEndian 4 fields.sighashType.toU32.toNat))))))))

/-- What is hashed for an optional list, and for its hash. -/
def hashedOption (wire : α → Bytes) (values : Option α) : Set Bytes :=
  {bytes | ∃ a ∈ values, bytes = wire a ∨ bytes = (Hashes.sha256 (wire a)).val}

def hashedOutputs : CommittedOutputs → Set Bytes
  | .all outputs => {outputsWire outputs, (Hashes.sha256 (outputsWire outputs)).val}
  | .matching (some output) => {output.wire}
  | .matching none => ∅
  | .nothing => ∅

/-- Everything that is hashed for the preimage. -/
def hashed (fields : SegwitV0Fields) : Set Bytes :=
  hashedOption outpointsWire fields.outpoints ∪ hashedOption sequencesWire fields.sequences ∪
    hashedOutputs fields.outputs

omit [Hashes] in
theorem outpointsWire_inj {outpoints outpoints' : List OutPoint}
    (same : outpointsWire outpoints = outpointsWire outpoints') : outpoints = outpoints' := by
  refine OutPoint.codec.reads.flatMap_inj (fun outpoint empty => ?_) same
  have length := congrArg List.length empty
  simp [OutPoint.wire, outpoint.txid.property] at length

omit [Hashes] in
theorem sequencesWire_inj {sequences sequences' : List UInt32}
    (same : sequencesWire sequences = sequencesWire sequences') : sequences = sequences' := by
  refine readU32_codec.reads.flatMap_inj (fun sequence empty => ?_) same
  have length := congrArg List.length empty
  simp at length

omit [Hashes] in
theorem outputsWire_inj {outputs outputs' : List TxOut}
    (same : outputsWire outputs = outputsWire outputs') : outputs = outputs' := by
  refine TxOut.codec.reads.flatMap_inj (fun txout empty => ?_) same
  have length := congrArg List.length empty
  simp [TxOut.wire] at length

/-- Equal hashes of hashes come from equal data. -/
theorem hashTwice_inj {data : Set Bytes} (free : CollisionFree data) {bytes bytes' : Bytes}
    (mem : bytes ∈ data) (mem' : bytes' ∈ data) (digest : (Hashes.sha256 bytes).val ∈ data)
    (digest' : (Hashes.sha256 bytes').val ∈ data) (same : hashTwice bytes = hashTwice bytes') :
    bytes = bytes' :=
  free.sha256 mem mem' (Subtype.ext (free.sha256 digest digest' same))

theorem hashOption_inj {data : Set Bytes} (free : CollisionFree data) {wire : α → Bytes}
    (wire_inj : ∀ {a b}, wire a = wire b → a = b) {values values' : Option α}
    (shape : values.isSome = values'.isSome) (mem : hashedOption wire values ⊆ data)
    (mem' : hashedOption wire values' ⊆ data)
    (same : hashOption wire values = hashOption wire values') : values = values' := by
  cases values with
  | none =>
    cases values' with
    | none => rfl
    | some b => contradiction
  | some a =>
    cases values' with
    | none => contradiction
    | some b =>
      have data := hashTwice_inj free (mem ⟨a, rfl, .inl rfl⟩) (mem' ⟨b, rfl, .inl rfl⟩)
        (mem ⟨a, rfl, .inr rfl⟩) (mem' ⟨b, rfl, .inr rfl⟩) same
      rw [wire_inj data]

theorem matching_inj {data : Set Bytes} (free : CollisionFree data) {output output' : Option TxOut}
    (mem : hashedOutputs (.matching output) ⊆ data) (mem' : hashedOutputs (.matching output') ⊆ data)
    (same : hashOutputs (.matching output) = hashOutputs (.matching output')) : output = output' := by
  cases output with
  | none =>
    cases output' with
    | none => rfl
    | some txout' => exact absurd same.symm (free.nonzero _ (mem' rfl))
  | some txout =>
    cases output' with
    | none => exact absurd same (free.nonzero _ (mem rfl))
    | some txout' =>
      have wires := free.sha256d (mem rfl) (mem' rfl) same
      have images := TxOut.codec.reads.unique trivial trivial (congrArg (· ++ []) wires)
      rw [images.1]

theorem hashOutputs_inj {data : Set Bytes} (free : CollisionFree data)
    {outputs outputs' : CommittedOutputs} (kinds : outputs.SameKind outputs')
    (mem : hashedOutputs outputs ⊆ data) (mem' : hashedOutputs outputs' ⊆ data)
    (same : hashOutputs outputs = hashOutputs outputs') : outputs = outputs' := by
  cases kinds with
  | all outputs outputs' =>
    have data := hashTwice_inj free (mem (.inl rfl)) (mem' (.inl rfl)) (mem (.inr rfl))
      (mem' (.inr rfl)) same
    rw [outputsWire_inj data]
  | matching output output' => rw [matching_inj free mem mem' same]
  | nothing => rfl

omit [Hashes] in
theorem toU32_inj {sighashType sighashType' : EcdsaSighashType}
    (same : sighashType.toU32 = sighashType'.toU32) : sighashType = sighashType' := by
  revert same
  cases sighashType <;> cases sighashType' <;> decide

/-- The parts of a preimage can be told apart. -/
theorem preimage_parts {fields fields' : SegwitV0Fields} (same : fields.preimage = fields'.preimage) :
    fields.sighashType = fields'.sighashType ∧ fields.version = fields'.version ∧
    fields.lockTime = fields'.lockTime ∧ fields.outpoint = fields'.outpoint ∧
    fields.scriptCode = fields'.scriptCode ∧ fields.value = fields'.value ∧
    fields.sequence = fields'.sequence ∧
    hashOption outpointsWire fields.outpoints = hashOption outpointsWire fields'.outpoints ∧
    hashOption sequencesWire fields.sequences = hashOption sequencesWire fields'.sequences ∧
    hashOutputs fields.outputs = hashOutputs fields'.outputs := by
  obtain ⟨version, same⟩ := readI32_codec.reads.unique trivial trivial same
  obtain ⟨outpoints, same⟩ := (readExact_codec 32).reads.unique trivial trivial same
  obtain ⟨sequences, same⟩ := (readExact_codec 32).reads.unique trivial trivial same
  obtain ⟨outpoint, same⟩ := OutPoint.codec.reads.unique trivial trivial same
  obtain ⟨scriptCode, same⟩ := decodeBytes_reads.unique trivial trivial same
  obtain ⟨value, same⟩ := readU64_codec.reads.unique trivial trivial same
  obtain ⟨sequence, same⟩ := readU32_codec.reads.unique trivial trivial same
  obtain ⟨outputs, same⟩ := (readExact_codec 32).reads.unique trivial trivial same
  obtain ⟨lockTime, same⟩ := LockTime.codec.reads.unique trivial trivial same
  have sighashType := readU32_codec.reads.unique trivial trivial
    (congrArg (· ++ []) same)
  exact ⟨toU32_inj sighashType.1, version, lockTime, outpoint, scriptCode, value, sequence, outpoints,
    sequences, outputs⟩

/-- Without collisions a preimage determines fields of the same shape. -/
theorem preimage_inj {fields fields' : SegwitV0Fields}
    (free : CollisionFree (fields.hashed ∪ fields'.hashed))
    (shape : fields.sighashType = fields'.sighashType →
      fields.outpoints.isSome = fields'.outpoints.isSome ∧
      fields.sequences.isSome = fields'.sequences.isSome ∧
      fields.outputs.SameKind fields'.outputs)
    (same : fields.preimage = fields'.preimage) : fields = fields' := by
  obtain ⟨sighashType, version, lockTime, outpoint, scriptCode, value, sequence, outpoints,
    sequences, outputs⟩ := preimage_parts same
  obtain ⟨someOutpoints, someSequences, kinds⟩ := shape sighashType
  have left : fields.hashed ⊆ fields.hashed ∪ fields'.hashed := Set.subset_union_left
  have right : fields'.hashed ⊆ fields.hashed ∪ fields'.hashed := Set.subset_union_right
  have sameOutpoints := hashOption_inj free outpointsWire_inj someOutpoints
    (fun _ mem => left (.inl (.inl mem))) (fun _ mem => right (.inl (.inl mem))) outpoints
  have sameSequences := hashOption_inj free sequencesWire_inj someSequences
    (fun _ mem => left (.inl (.inr mem))) (fun _ mem => right (.inl (.inr mem))) sequences
  have sameOutputs := hashOutputs_inj free kinds
    (fun _ mem => left (.inr mem)) (fun _ mem => right (.inr mem)) outputs
  cases fields
  cases fields'
  simp only [mk.injEq]
  exact ⟨sighashType, version, lockTime, outpoint, scriptCode, value, sequence, sameOutpoints,
    sameSequences, sameOutputs⟩

end SegwitV0Fields

namespace TaprootFields
open SegwitV0Fields (outpointsWire sequencesWire outputsWire)

def amountsWire (amounts : List UInt64) : Bytes :=
  amounts.flatMap fun amount => littleEndian 8 amount.toNat

def scriptPubkeysWire (scriptPubkeys : List ByteVec) : Bytes := scriptPubkeys.flatMap bytesWire

def inputsPart : Option CommittedInputs → Bytes
  | none => []
  | some inputs =>
    (Hashes.sha256 (outpointsWire inputs.outpoints)).val ++
    ((Hashes.sha256 (amountsWire inputs.amounts)).val ++
    ((Hashes.sha256 (scriptPubkeysWire inputs.scriptPubkeys)).val ++
    (Hashes.sha256 (sequencesWire inputs.sequences)).val))

def allOutputsPart : CommittedOutputs → Bytes
  | .all outputs => (Hashes.sha256 (outputsWire outputs)).val
  | _ => []

omit [Hashes] in
def inputPart : CommittedInput → Bytes
  | .own outpoint amount scriptPubkey sequence =>
    outpoint.wire ++ (littleEndian 8 amount.toNat ++ (bytesWire scriptPubkey ++
    littleEndian 4 sequence.toNat))
  | .index inputIndex => littleEndian 4 (UInt32.ofNat inputIndex).toNat

def annexPart : Option Annex → Bytes
  | none => []
  | some annex => (Hashes.sha256 (bytesWire annex.val)).val

def singleOutputPart : CommittedOutputs → Bytes
  | .matching (some output) => (Hashes.sha256 output.wire).val
  | _ => []

omit [Hashes] in
def leafPart : Option (Taproot.TapLeafHash × UInt32) → Bytes
  | none => []
  | some (hash, codeSeparatorPos) => hash.val ++ ([0] ++ littleEndian 4 codeSeparatorPos.toNat)

/-- The preimage as a function of the fields. -/
def preimage (fields : TaprootFields) : Bytes :=
  [0] ++ ([fields.sighashType.toU8] ++ (littleEndian 4 fields.version.toUInt32.toNat ++
  (fields.lockTime.wire ++ (inputsPart fields.inputs ++ (allOutputsPart fields.outputs ++
  ([SighashCache.spendType fields.annex.isSome fields.leaf.isSome] ++ (inputPart fields.input ++
  (annexPart fields.annex ++ (singleOutputPart fields.outputs ++ leafPart fields.leaf)))))))))

omit [Hashes] in
def hashedInputs : Option CommittedInputs → Set Bytes
  | none => ∅
  | some inputs => {outpointsWire inputs.outpoints, amountsWire inputs.amounts,
      scriptPubkeysWire inputs.scriptPubkeys, sequencesWire inputs.sequences}

omit [Hashes] in
def hashedOutputs : CommittedOutputs → Set Bytes
  | .all outputs => {outputsWire outputs}
  | .matching (some output) => {output.wire}
  | .matching none => ∅
  | .nothing => ∅

omit [Hashes] in
def hashedAnnex : Option Annex → Set Bytes
  | none => ∅
  | some annex => {bytesWire annex.val}

omit [Hashes] in
/-- Everything that is hashed for the preimage. -/
def hashed (fields : TaprootFields) : Set Bytes :=
  hashedInputs fields.inputs ∪ hashedOutputs fields.outputs ∪ hashedAnnex fields.annex

omit [Hashes] in
theorem amountsWire_inj {amounts amounts' : List UInt64}
    (same : amountsWire amounts = amountsWire amounts') : amounts = amounts' := by
  refine readU64_codec.reads.flatMap_inj (fun amount empty => ?_) same
  have length := congrArg List.length empty
  simp at length

omit [Hashes] in
theorem scriptPubkeysWire_inj {scriptPubkeys scriptPubkeys' : List ByteVec}
    (same : scriptPubkeysWire scriptPubkeys = scriptPubkeysWire scriptPubkeys') :
    scriptPubkeys = scriptPubkeys' := by
  refine decodeBytes_reads.flatMap_inj (fun script empty => ?_) same
  have length := congrArg List.length empty
  have count := VarInt.wire_length_pos script.len
  simp only [bytesWire, List.length_append, List.length_nil] at length
  omega

omit [Hashes] in
theorem toU8_inj {sighashType sighashType' : TapSighashType}
    (same : sighashType.toU8 = sighashType'.toU8) : sighashType = sighashType' := by
  revert same
  cases sighashType <;> cases sighashType' <;> decide

omit [Hashes] in
theorem spendType_inj {annex leaf annex' leaf' : Bool}
    (same : SighashCache.spendType annex leaf = SighashCache.spendType annex' leaf') :
    annex = annex' ∧ leaf = leaf' := by
  revert same
  cases annex <;> cases leaf <;> cases annex' <;> cases leaf' <;> decide

/-- The front of a byte string that starts with a hash determines the hashed data. -/
theorem sha256_front {data : Set Bytes} (free : Set.InjOn Hashes.sha256 data) {bytes bytes' : Bytes}
    (mem : bytes ∈ data) (mem' : bytes' ∈ data) {rest rest' : Bytes}
    (same : (Hashes.sha256 bytes).val ++ rest = (Hashes.sha256 bytes').val ++ rest') :
    bytes = bytes' ∧ rest = rest' := by
  obtain ⟨hashes, rests⟩ := (readExact_codec 32).reads.unique trivial trivial same
  exact ⟨free mem mem' hashes, rests⟩

section
variable {data : Set Bytes}

theorem inputs_front (free : Set.InjOn Hashes.sha256 data) {inputs inputs' : Option CommittedInputs}
    (mem : hashedInputs inputs ⊆ data) (mem' : hashedInputs inputs' ⊆ data)
    (shape : inputs.isSome = inputs'.isSome)
    (same : inputsPart inputs ++ rest = inputsPart inputs' ++ rest') :
    inputs = inputs' ∧ rest = rest' := by
  cases inputs with
  | none =>
    cases inputs' with
    | none => exact ⟨rfl, same⟩
    | some inputs' => contradiction
  | some inputs =>
    cases inputs' with
    | none => contradiction
    | some inputs' =>
      simp only [inputsPart, List.append_assoc] at same
      obtain ⟨outpoints, same⟩ := sha256_front free (mem (.inl rfl)) (mem' (.inl rfl)) same
      obtain ⟨amounts, same⟩ := sha256_front free (mem (.inr (.inl rfl))) (mem' (.inr (.inl rfl))) same
      obtain ⟨scripts, same⟩ := sha256_front free (mem (.inr (.inr (.inl rfl))))
        (mem' (.inr (.inr (.inl rfl)))) same
      obtain ⟨sequences, same⟩ := sha256_front free (mem (.inr (.inr (.inr rfl))))
        (mem' (.inr (.inr (.inr rfl)))) same
      refine ⟨congrArg some ?_, same⟩
      cases inputs
      cases inputs'
      simp only [CommittedInputs.mk.injEq]
      exact ⟨SegwitV0Fields.outpointsWire_inj outpoints, amountsWire_inj amounts,
        scriptPubkeysWire_inj scripts, SegwitV0Fields.sequencesWire_inj sequences⟩

/-- All outputs come before the data of the input, a single one behind it. -/
theorem outputs_fronts (free : Set.InjOn Hashes.sha256 data) {outputs outputs' : CommittedOutputs}
    (mem : hashedOutputs outputs ⊆ data) (mem' : hashedOutputs outputs' ⊆ data)
    (kinds : outputs.SameKind outputs')
    (matched : outputs ≠ .matching none) (matched' : outputs' ≠ .matching none)
    (same : allOutputsPart outputs ++ rest = allOutputsPart outputs' ++ rest') :
    rest = rest' ∧ ∀ last last', singleOutputPart outputs ++ last = singleOutputPart outputs' ++ last' →
      outputs = outputs' ∧ last = last' := by
  cases kinds with
  | all outputs outputs' =>
    obtain ⟨wires, same⟩ := sha256_front free (mem rfl) (mem' rfl) same
    rw [SegwitV0Fields.outputsWire_inj wires]
    exact ⟨same, fun last last' lasts => ⟨rfl, lasts⟩⟩
  | matching output output' =>
    refine ⟨same, fun last last' lasts => ?_⟩
    cases output with
    | none => exact absurd rfl matched
    | some output =>
      cases output' with
      | none => exact absurd rfl matched'
      | some output' =>
        obtain ⟨wires, lasts⟩ := sha256_front free (mem rfl) (mem' rfl) lasts
        have images := TxOut.codec.reads.unique trivial trivial (congrArg (· ++ []) wires)
        rw [images.1]
        exact ⟨rfl, lasts⟩
  | nothing => exact ⟨same, fun last last' lasts => ⟨rfl, lasts⟩⟩

omit [Hashes] in
theorem input_front {input input' : CommittedInput} (kinds : input.SameKind input')
    (same : inputPart input ++ rest = inputPart input' ++ rest') : input = input' ∧ rest = rest' := by
  cases kinds with
  | own =>
    simp only [inputPart, List.append_assoc] at same
    obtain ⟨outpoint, same⟩ := OutPoint.codec.reads.unique trivial trivial same
    obtain ⟨amount, same⟩ := readU64_codec.reads.unique trivial trivial same
    obtain ⟨scriptPubkey, same⟩ := decodeBytes_reads.unique trivial trivial same
    obtain ⟨sequence, same⟩ := readU32_codec.reads.unique trivial trivial same
    exact ⟨by rw [outpoint, amount, scriptPubkey, sequence], same⟩
  | index fits fits' =>
    obtain ⟨words, same⟩ := readU32_codec.reads.unique trivial trivial same
    have numbers := congrArg UInt32.toNat words
    rw [UInt32.toNat_ofNat_of_lt' fits, UInt32.toNat_ofNat_of_lt' fits'] at numbers
    exact ⟨congrArg _ numbers, same⟩

theorem annex_front (free : Set.InjOn Hashes.sha256 data) {annex annex' : Option Annex}
    (mem : hashedAnnex annex ⊆ data) (mem' : hashedAnnex annex' ⊆ data)
    (shape : annex.isSome = annex'.isSome)
    (same : annexPart annex ++ rest = annexPart annex' ++ rest') : annex = annex' ∧ rest = rest' := by
  cases annex with
  | none =>
    cases annex' with
    | none => exact ⟨rfl, same⟩
    | some annex' => contradiction
  | some annex =>
    cases annex' with
    | none => contradiction
    | some annex' =>
      obtain ⟨wires, same⟩ := sha256_front free (mem rfl) (mem' rfl) same
      exact ⟨congrArg some (Subtype.ext (bytesWire_inj wires)), same⟩

omit [Hashes] in
theorem leaf_inj {leaf leaf' : Option (Taproot.TapLeafHash × UInt32)}
    (shape : leaf.isSome = leaf'.isSome) (same : leafPart leaf = leafPart leaf') : leaf = leaf' := by
  cases leaf with
  | none =>
    cases leaf' with
    | none => rfl
    | some leaf' => contradiction
  | some leaf =>
    cases leaf' with
    | none => contradiction
    | some leaf' =>
      obtain ⟨hash, same⟩ := (readExact_codec 32).reads.unique trivial trivial same
      have positions := readU32_codec.reads.unique trivial trivial
        (congrArg (· ++ []) (List.cons.inj same).2)
      exact congrArg some (Prod.ext hash positions.1)

end

/-- Fields whose preimages have the same optional parts when the types agree. -/
structure SameShape (fields fields' : TaprootFields) : Prop where
  inputs : fields.inputs.isSome = fields'.inputs.isSome
  outputs : fields.outputs.SameKind fields'.outputs
  input : fields.input.SameKind fields'.input
  matched : fields.outputs ≠ .matching none
  matched' : fields'.outputs ≠ .matching none

/-- Without collisions a preimage determines fields of the same shape. -/
theorem preimage_inj {fields fields' : TaprootFields}
    (free : Set.InjOn Hashes.sha256 (fields.hashed ∪ fields'.hashed))
    (shape : fields.sighashType = fields'.sighashType → SameShape fields fields')
    (same : fields.preimage = fields'.preimage) : fields = fields' := by
  have left : fields.hashed ⊆ fields.hashed ∪ fields'.hashed := Set.subset_union_left
  have right : fields'.hashed ⊆ fields.hashed ∪ fields'.hashed := Set.subset_union_right
  simp only [preimage, List.cons_append, List.nil_append, List.cons.injEq, true_and] at same
  obtain ⟨byte, same⟩ := same
  have sighashType := toU8_inj byte
  obtain ⟨someInputs, kinds, kind, matched, matched'⟩ := shape sighashType
  obtain ⟨version, same⟩ := readI32_codec.reads.unique trivial trivial same
  obtain ⟨lockTime, same⟩ := LockTime.codec.reads.unique trivial trivial same
  obtain ⟨inputs, same⟩ := inputs_front free (fun _ mem => left (.inl (.inl mem)))
    (fun _ mem => right (.inl (.inl mem))) someInputs same
  obtain ⟨same, single⟩ := outputs_fronts free (fun _ mem => left (.inl (.inr mem)))
    (fun _ mem => right (.inl (.inr mem))) kinds matched matched' same
  obtain ⟨byte, same⟩ := List.cons.inj same
  obtain ⟨someAnnex, someLeaf⟩ := spendType_inj byte
  obtain ⟨input, same⟩ := input_front kind same
  obtain ⟨annex, same⟩ := annex_front free (fun _ mem => left (.inr mem))
    (fun _ mem => right (.inr mem)) someAnnex same
  obtain ⟨outputs, same⟩ := single _ _ same
  have leaf := leaf_inj someLeaf same
  cases fields
  cases fields'
  simp only [mk.injEq]
  exact ⟨sighashType, version, lockTime, inputs, outputs, input, annex, leaf⟩

end TaprootFields
end

section
variable [Secp256k1]

theorem SegwitV0Fields.of_shape {tx tx' : Transaction} {inputIndex inputIndex' : Nat}
    {txin txin' : TxIn} {scriptCode scriptCode' : ByteVec} {value value' : UInt64}
    (sighashType : EcdsaSighashType) :
    let fields := SegwitV0Fields.of tx inputIndex txin scriptCode value sighashType
    let fields' := SegwitV0Fields.of tx' inputIndex' txin' scriptCode' value' sighashType
    fields.outpoints.isSome = fields'.outpoints.isSome ∧
      fields.sequences.isSome = fields'.sequences.isSome ∧
      fields.outputs.SameKind fields'.outputs := by
  cases sighashType with
  | all | allPlusAnyoneCanPay => exact ⟨rfl, rfl, .all _ _⟩
  | none | nonePlusAnyoneCanPay => exact ⟨rfl, rfl, .nothing⟩
  | single | singlePlusAnyoneCanPay => exact ⟨rfl, rfl, .matching _ _⟩

namespace TaprootFields

theorem inputsOf_isSome {anyoneCanPay : Bool} {tx : Transaction} {prevouts : Prevouts}
    {inputs : Option CommittedInputs} (found : inputsOf anyoneCanPay tx prevouts = some inputs) : inputs.isSome = !anyoneCanPay := by
  cases anyoneCanPay with
  | true =>
    obtain rfl := Option.some.inj found
    rfl
  | false =>
    cases prevouts with
    | one index prevout => contradiction
    | all prevouts =>
      obtain rfl := Option.some.inj found
      rfl

theorem inputOf_sameKind {anyoneCanPay : Bool} {tx tx' : Transaction} {inputIndex inputIndex' : Nat}
    {prevouts prevouts' : Prevouts} {input input' : CommittedInput} (fits : inputIndex < 2 ^ 32)
    (fits' : inputIndex' < 2 ^ 32) (found : inputOf anyoneCanPay tx inputIndex prevouts = some input)
    (found' : inputOf anyoneCanPay tx' inputIndex' prevouts' = some input') :
    input.SameKind input' := by
  cases anyoneCanPay with
  | true =>
    simp only [inputOf, if_true, Option.bind_eq_bind, Option.bind_eq_some_iff, Option.some.injEq]
      at found found'
    obtain ⟨_, _, _, _, rfl⟩ := found
    obtain ⟨_, _, _, _, rfl⟩ := found'
    exact .own
  | false =>
    obtain rfl := Option.some.inj found
    obtain rfl := Option.some.inj found'
    exact .index fits fits'

theorem outputsOf_sameKind (sighash : TapSighashType) (tx tx' : Transaction)
    (inputIndex inputIndex' : Nat) :
    (outputsOf sighash tx inputIndex).SameKind (outputsOf sighash tx' inputIndex') := by
  cases sighash with
  | none => exact .nothing
  | single => exact .matching _ _
  | default | all | allPlusAnyoneCanPay | nonePlusAnyoneCanPay | singlePlusAnyoneCanPay =>
    exact .all _ _

theorem of_shape {tx tx' : Transaction} {inputIndex inputIndex' : Nat}
    {prevouts prevouts' : Prevouts} {annex annex' : Option Annex}
    {leaf leaf' : Option (Taproot.TapLeafHash × UInt32)} {sighashType sighashType' : TapSighashType}
    {fields fields' : TaprootFields} (fits : inputIndex < 2 ^ 32) (fits' : inputIndex' < 2 ^ 32)
    (found : of tx inputIndex prevouts annex leaf sighashType = some fields)
    (found' : of tx' inputIndex' prevouts' annex' leaf' sighashType' = some fields')
    (matched : fields.outputs ≠ .matching none) (matched' : fields'.outputs ≠ .matching none)
    (sameType : fields.sighashType = fields'.sighashType) : SameShape fields fields' := by
  simp only [of, Option.bind_eq_bind, Option.bind_eq_some_iff, Option.some.injEq] at found found'
  obtain ⟨inputs, someInputs, input, someInput, rfl⟩ := found
  obtain ⟨inputs', someInputs', input', someInput', rfl⟩ := found'
  obtain rfl : sighashType = sighashType' := sameType
  exact ⟨(inputsOf_isSome someInputs).trans (inputsOf_isSome someInputs').symm,
    outputsOf_sameKind _ _ _ _ _, inputOf_sameKind fits fits' someInput someInput', matched, matched'⟩

end TaprootFields

end
end Litecoin.Sighash
