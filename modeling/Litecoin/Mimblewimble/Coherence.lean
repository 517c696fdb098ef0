import Litecoin.Mimblewimble.Exactness

/-! Values whose bytes mean something else. A writer that leaves out what the feature
byte does not announce, or cuts a negative amount, still succeeds; the reader then
returns the normal form of the value. -/
namespace Litecoin.Mimblewimble
open Wire Consensus Secp256k1

/-- What `emit` writes for `a` is read back as `a` with nothing left, or refused. -/
def ReadsBack (emit : α → Emission IoError) (d : Decoder Error α) (a : α) : Prop :=
  ∀ count bytes, emit a = .ok (count, bytes) →
    ∀ b rest, d bytes = .ok (b, rest) → b = a ∧ rest = []

/-- No other value that a reader could return in the place of a field is written like it. -/
def Tells (emit : β → Emission IoError) (put : α → β) (Readable : α → Prop) (a : α) : Prop :=
  ∀ other, Readable other → emit (put other) = emit (put a) → other = a

section
variable {emit : α → Emission IoError} {d : Decoder Error α} {wire : α → Bytes}

theorem readsBack_of_refused (emits : emit a = .written (wire a)) (refused : d.Refuses (wire a)) :
    ReadsBack emit d a := by
  intro count bytes emitted b rest read
  rw [emits, Emission.written, Except.ok.injEq, Prod.mk.injEq] at emitted
  exact absurd (emitted.2 ▸ read) (refused _)

theorem readsBack_iff (emits : emit a = .written (wire a)) (read : d (wire a) = .ok (b, [])) :
    ReadsBack emit d a ↔ b = a := by
  constructor
  · intro back
    exact (back _ _ emits b [] read).1
  · rintro same count bytes emitted c rest found
    rw [emits, Emission.written, Except.ok.injEq, Prod.mk.injEq] at emitted
    rw [← emitted.2, read, Except.ok.injEq, Prod.mk.injEq] at found
    exact ⟨found.1 ▸ same, found.2.symm⟩

end

/-- What is read back for an amount. -/
def normalAmount (amount : Int64) : Int64 :=
  if amount < 0 then Int64.ofNat (writtenAmount amount) else amount

theorem writtenAmount_small {amount : Int64} (negative : amount < 0) :
    writtenAmount amount < 128 := by
  rw [writtenAmount, if_pos negative]
  omega

theorem normalAmount_nonneg (amount : Int64) : 0 ≤ normalAmount amount := by
  rw [normalAmount]
  split
  · rename_i negative
    have small := writtenAmount_small negative
    simp [Int64.le_iff_toInt_le, Int64.toInt_ofNat_of_lt (show writtenAmount amount < 2 ^ 63 by omega)]
  · rename_i nonneg
    exact Int64.not_lt.mp nonneg

theorem amountWire_normalAmount (amount : Int64) :
    amountWire (normalAmount amount) = amountWire amount := by
  by_cases negative : amount < 0
  · have small := writtenAmount_small negative
    rw [amountWire, writtenAmount_nonneg (normalAmount_nonneg amount), normalAmount, if_pos negative,
      Int64.toNatClampNeg_ofNat_of_lt (by omega), amountWire]
  · rw [normalAmount, if_neg negative]

theorem normalAmount_eq_iff (amount : Int64) : normalAmount amount = amount ↔ 0 ≤ amount := by
  constructor
  · intro same
    exact same ▸ normalAmount_nonneg amount
  · intro nonneg
    rw [normalAmount, if_neg (Int64.not_lt.mpr nonneg)]

/-- The fields that are announced. -/
def kept (on : Bool) (value : Option α) : Option α := if on then value else none

theorem kept_isSome {value : Option α} (complete : on = true → value.isSome = true) :
    (kept on value).isSome = on := by
  cases on with
  | false => rfl
  | true => exact complete rfl

theorem kept_eq_iff (on : Bool) (value : Option α) : kept on value = value ↔ (value.isSome → on) := by
  cases on <;> cases value <;> simp [kept]

theorem announced_kept (on : Bool) (wire : α → Bytes) (value : Option α) :
    announced on (optionalWire wire (kept on value)) = announced on (optionalWire wire value) := by
  cases on <;> rfl

theorem kept_map_eq_iff (on : Bool) (value : Option Int64) :
    kept on (value.map normalAmount) = value ↔ ∀ amount ∈ value, on ∧ 0 ≤ amount := by
  cases on <;> cases value <;> simp [kept, normalAmount_eq_iff]

theorem optionalWire_normal (value : Option Int64) :
    optionalWire amountWire (value.map normalAmount) = optionalWire amountWire value := by
  cases value with
  | none => rfl
  | some amount => exact amountWire_normalAmount amount

theorem keptAmount_valid {value : Option Int64} (complete : on = true → value.isSome = true) :
    (kept on (value.map normalAmount)).isSome = on ∧
      ∀ amount ∈ kept on (value.map normalAmount), 0 ≤ amount := by
  refine ⟨kept_isSome (fun announced => by simpa using complete announced), ?_⟩
  intro amount member
  cases on with
  | false => contradiction
  | true =>
    obtain ⟨original, _, rfl⟩ := Option.map_eq_some_iff.mp member
    exact normalAmount_nonneg original

/-- The announced part of a field that is never missing. -/
def keptVec (on : Bool) (values : Vec α) : Vec α := if on then values else .empty

theorem keptVec_eq_iff (on : Bool) (values : Vec α) :
    keptVec on values = values ↔ (values ≠ .empty → on) := by
  cases on
  · simp [keptVec, eq_comm]
  · simp [keptVec]

theorem keptVec_valid (on : Bool) (values : Vec α) :
    if on then True else keptVec on values = .empty := by
  cases on <;> simp [keptVec]

theorem announced_keptVec (on : Bool) (wire : Vec α → Bytes) (values : Vec α) :
    announced on (wire (keptVec on values)) = announced on (wire values) := by
  cases on <;> rfl

section
variable {emit : β → Emission IoError} (image : β → Bytes) {on : Bool}

/-- A field is told by the bytes when it is announced and is its own normal form. -/
theorem tells_optional_iff {put : Option α → β} {wire : α → Bytes} {Good : α → Prop} (normal : α → α)
    {value : Option α} (writes : ∀ other result, emit (put other) = .ok result → on → other.isSome)
    (emits : ∀ other, (on → other.isSome) → emit (put other) = .written (image (put other)))
    (images : ∀ one other, image (put one) = image (put other) ↔
      announced on (optionalWire wire one) = announced on (optionalWire wire other))
    (wire_inj : ∀ a b, Good a → Good b → wire a = wire b → a = b)
    (wire_normal : ∀ a, wire (normal a) = wire a) (normal_good : ∀ a, Good (normal a))
    (complete : on → value.isSome) :
    (value.isSome → Tells emit put (fun other => ∀ a ∈ other, Good a) value) ↔
      ∀ a ∈ value, on ∧ Good a := by
  cases value with
  | none => simp
  | some a =>
    simp only [Option.isSome_some, forall_const, Option.mem_some, forall_eq']
    constructor
    · intro tells
      have good : ∀ b ∈ kept on (some (normal a)), Good b := by
        cases on with
        | false => exact fun b member => absurd member (Option.not_mem_none b)
        | true => exact fun b member => Option.mem_some.mp member ▸ normal_good a
      have same := tells (kept on (some (normal a))) good (by
        have alike := (images (kept on (some (normal a))) (some a)).mpr (by
          rw [announced_kept, optionalWire, optionalWire, wire_normal])
        rw [emits _ fun announced => (kept_isSome fun _ => rfl).trans announced, emits _ fun _ => rfl, alike])
      cases on with
      | false => exact absurd same (Option.some_ne_none a).symm
      | true => exact ⟨rfl, Option.some.inj same ▸ normal_good a⟩
    · rintro ⟨announced', good⟩ other readable same
      rw [emits (some a) fun _ => rfl] at same
      obtain ⟨b, rfl⟩ := Option.isSome_iff_exists.mp (writes other _ same announced')
      rw [emits (some b) fun _ => rfl, Emission.written, Emission.written, Except.ok.injEq,
        Prod.mk.injEq, images, announced', announced, announced, if_pos rfl, if_pos rfl] at same
      rw [wire_inj b a (readable b rfl) good same.2]

/-- A field of which every value can be read only has to be announced. -/
theorem tells_free_iff {put : Option α → β} {wire : α → Bytes} {value : Option α}
    (writes : ∀ other result, emit (put other) = .ok result → on → other.isSome)
    (emits : ∀ other, (on → other.isSome) → emit (put other) = .written (image (put other)))
    (images : ∀ one other, image (put one) = image (put other) ↔
      announced on (optionalWire wire one) = announced on (optionalWire wire other))
    (wire_inj : ∀ a b, wire a = wire b → a = b) (complete : on → value.isSome) :
    (value.isSome → Tells emit put (fun _ => True) value) ↔ (value.isSome → on) := by
  have free : (fun other : Option α => ∀ a ∈ other, True) = fun _ => True := by simp
  have tells : (value.isSome → Tells emit put (fun other => ∀ a ∈ other, True) value) ↔
      ∀ a ∈ value, on ∧ True :=
    tells_optional_iff image id writes emits images (fun a b _ _ => wire_inj a b) (fun _ => rfl)
      (fun _ => trivial) complete
  rw [free] at tells
  rw [tells]
  cases value <;> simp

theorem tells_vec_iff {put : Vec α → β} {wire : Vec α → Bytes} {Good : Vec α → Prop}
    (normal : Vec α → Vec α) {values : Vec α}
    (emits : ∀ other, emit (put other) = .written (image (put other)))
    (images : ∀ one other, image (put one) = image (put other) ↔
      announced on (wire one) = announced on (wire other))
    (wire_inj : ∀ one other, Good one → Good other → wire one = wire other → one = other)
    (wire_normal : ∀ one, wire (normal one) = wire one) (normal_good : ∀ one, Good (normal one))
    (empty_good : Good .empty) :
    (values ≠ .empty → Tells emit put Good values) ↔ (values ≠ .empty → on ∧ Good values) := by
  refine imp_congr_right fun some' => ?_
  constructor
  · intro tells
    have good : Good (keptVec on (normal values)) := by
      cases on with
      | false => exact empty_good
      | true => exact normal_good values
    have same := tells _ good (by
      have alike := (images (keptVec on (normal values)) values).mpr (by
        rw [announced_keptVec, wire_normal])
      rw [emits, emits, alike])
    cases on with
    | false => exact absurd same.symm some'
    | true => exact ⟨rfl, same ▸ normal_good values⟩
  · rintro ⟨announced', good⟩ other readable same
    rw [emits, emits, Emission.written, Emission.written, Except.ok.injEq, Prod.mk.injEq, images,
      announced', announced, announced, if_pos rfl, if_pos rfl] at same
    exact wire_inj other values readable good same.2

end

namespace PegOutCoin

def normalise (coin : PegOutCoin) : PegOutCoin := { coin with amount := normalAmount coin.amount }

theorem wire_normalise (coin : PegOutCoin) : coin.normalise.wire = coin.wire := by
  simp only [wire, normalise, amountWire_normalAmount]

theorem normalise_eq_iff (coin : PegOutCoin) : coin.normalise = coin ↔ 0 ≤ coin.amount := by
  rw [← normalAmount_eq_iff, normalise]
  cases coin
  simp

theorem normalise_valid {coin : PegOutCoin} (destination : coin.scriptPubKey.isEmpty = false) :
    coin.normalise.Valid :=
  ⟨normalAmount_nonneg _, destination⟩

/-- The reader takes every image but those with an empty destination. -/
theorem read_wire {coin : PegOutCoin} (destination : coin.scriptPubKey.isEmpty = false)
    (rest : Bytes) :
    consensusDecodeFromFiniteReader (coin.wire ++ rest) = .ok (coin.normalise, rest) := by
  rw [← wire_normalise]
  exact reads.read (normalise_valid destination) rest

theorem refuses_wire {coin : PegOutCoin} (destination : coin.scriptPubKey.isEmpty = true)
    (rest : Bytes) : consensusDecodeFromFiniteReader.Refuses (coin.wire ++ rest) := by
  rw [← wire_normalise, wire, List.append_assoc]
  refine Decoder.Refuses.after (readAmount_reads.read (normalAmount_nonneg _) _)
    (Decoder.Refuses.after (decodeBytes_reads.read trivial rest) ?_)
  intro result read
  obtain ⟨_, _, checked, _⟩ := Decoder.bind_eq_ok.mp read
  simp [normalise, destination] at checked

/-- The bytes tell the amount. -/
def KeepsAmount (coin : PegOutCoin) : Prop :=
  Tells consensusEncode (fun amount => { coin with amount }) (0 ≤ ·) coin.amount

/-- A reader of coins that takes an empty destination too. -/
def readAnyCoin : Decoder Error PegOutCoin := do
  let amount ← readAmount
  let scriptPubKey ← decodeBytes
  pure { amount, scriptPubKey }

theorem readAnyCoin_reads : Reads readAnyCoin wire (0 ≤ ·.amount) := by
  refine (Reads.record (Reads.field (·.amount) readAmount_reads fun _ _ =>
    Reads.field (fun coin : PegOutCoin => coin.scriptPubKey) decodeBytes_reads fun _ _ =>
    Reads.done ?_)).congr ?_ ?_
  · intro coin
    cases coin
    simp
  · intro coin
    simp
  · intro coin _
    simp [wire]

theorem keepsAmount_iff (coin : PegOutCoin) : coin.KeepsAmount ↔ 0 ≤ coin.amount := by
  constructor
  · intro keeps
    have same := keeps (normalAmount coin.amount) (normalAmount_nonneg _) (by
      rw [consensusEncode_eq, consensusEncode_eq, ← wire_normalise coin]
      rfl)
    exact (normalAmount_eq_iff _).mp same
  · intro nonneg other readable same
    rw [consensusEncode_eq, consensusEncode_eq, Emission.written, Emission.written, Except.ok.injEq,
      Prod.mk.injEq] at same
    exact congrArg amount (readAnyCoin_reads.unique readable nonneg (congrArg (· ++ []) same.2)).1

end PegOutCoin

theorem pegouts_eq_iff (on : Bool) (pegouts : Vec PegOutCoin) :
    keptVec on (pegouts.map PegOutCoin.normalise) = pegouts ↔
      ∀ coin ∈ pegouts.toList, on ∧ 0 ≤ coin.amount := by
  cases on with
  | false =>
    rw [keptVec, if_neg Bool.false_ne_true, eq_comm, Vec.ext_iff]
    simp [Vec.empty, List.eq_nil_iff_forall_not_mem]
  | true => simp [keptVec, Vec.map_eq_self, PegOutCoin.normalise_eq_iff]

section
variable [Secp256k1]

theorem keyValid [Lawful] (key : PublicKey) : KeyValid key := Lawful.fromSlice_serialize key

namespace Kernel
open KernelFeatures

def normalise (kernel : Kernel) : Kernel :=
  let has := hasBit kernel.features
  { kernel with
    fee := kept (has feeFeatureBit) (kernel.fee.map normalAmount)
    pegin := kept (has peginFeatureBit) (kernel.pegin.map normalAmount)
    pegouts := keptVec (has pegoutFeatureBit) (kernel.pegouts.map PegOutCoin.normalise)
    lockHeight := kept (has heightLockFeatureBit) kernel.lockHeight
    stealthExcess := kept (has stealthExcessFeatureBit) kernel.stealthExcess
    extraData := keptVec (has extraDataFeatureBit) kernel.extraData }

/-- A peg-out on the wire has no destination. -/
def EmptyDestination (kernel : Kernel) : Prop :=
  hasBit kernel.features pegoutFeatureBit ∧
    ∃ coin ∈ kernel.pegouts.toList, coin.scriptPubKey.isEmpty = true

/-- Every field that is there is announced, and no amount is negative. -/
@[mk_iff] structure Normal (kernel : Kernel) : Prop where
  fee : ∀ amount ∈ kernel.fee, hasBit kernel.features feeFeatureBit ∧ 0 ≤ amount
  pegin : ∀ amount ∈ kernel.pegin, hasBit kernel.features peginFeatureBit ∧ 0 ≤ amount
  pegouts : ∀ coin ∈ kernel.pegouts.toList,
    hasBit kernel.features pegoutFeatureBit ∧ 0 ≤ coin.amount
  lockHeight : kernel.lockHeight.isSome → hasBit kernel.features heightLockFeatureBit
  stealthExcess : kernel.stealthExcess.isSome → hasBit kernel.features stealthExcessFeatureBit
  extraData : kernel.extraData ≠ .empty → hasBit kernel.features extraDataFeatureBit

theorem wire_normalise (kernel : Kernel) : kernel.normalise.wire = kernel.wire := by
  simp only [wire, normalise, announced_kept, announced_keptVec, optionalWire_normal,
    vecWire_map _ PegOutCoin.wire_normalise]

theorem normalise_eq_iff (kernel : Kernel) : kernel.normalise = kernel ↔ kernel.Normal := by
  rw [normal_iff, ← kept_map_eq_iff, ← kept_map_eq_iff, ← pegouts_eq_iff, ← kept_eq_iff,
    ← kept_eq_iff, ← keptVec_eq_iff]
  cases kernel
  simp [normalise]

theorem normalise_valid [Lawful] {kernel : Kernel} (complete : kernel.Complete)
    (destinations : ¬ kernel.EmptyDestination) : kernel.normalise.Valid where
  fee := keptAmount_valid complete.fee
  pegin := keptAmount_valid complete.pegin
  pegouts := by
    change if hasBit kernel.features pegoutFeatureBit then
      ∀ coin ∈ (keptVec (hasBit kernel.features pegoutFeatureBit)
        (kernel.pegouts.map PegOutCoin.normalise)).toList, coin.Valid
      else keptVec (hasBit kernel.features pegoutFeatureBit) _ = .empty
    by_cases announced : hasBit kernel.features pegoutFeatureBit
    · rw [if_pos announced, announced]
      intro coin member
      obtain ⟨original, found, rfl⟩ := List.mem_map.mp member
      apply PegOutCoin.normalise_valid
      by_contra empty
      exact destinations ⟨announced, original, found, (Bool.not_eq_false _).mp empty⟩
    · rw [if_neg announced, keptVec, if_neg announced]
  lockHeight := kept_isSome complete.lockHeight
  stealthExcess := ⟨kept_isSome complete.stealthExcess, fun key _ => keyValid key⟩
  extraData := keptVec_valid _ _

theorem read_wire [Lawful] {kernel : Kernel} (complete : kernel.Complete)
    (destinations : ¬ kernel.EmptyDestination) (rest : Bytes) :
    consensusDecodeFromFiniteReader (kernel.wire ++ rest) = .ok (kernel.normalise, rest) := by
  rw [← wire_normalise]
  exact reads.read (normalise_valid complete destinations) rest

/-- The reader gets as far as the peg-out without a destination. -/
theorem refuses_wire {kernel : Kernel} (complete : kernel.Complete)
    (destination : kernel.EmptyDestination) (rest : Bytes) :
    consensusDecodeFromFiniteReader.Refuses (kernel.wire ++ rest) := by
  obtain ⟨announced, coin, member, empty⟩ := destination
  have features (rest : Bytes) : readU8 ([kernel.features] ++ rest) = .ok (kernel.features, rest) := by
    rw [← littleEndian_one]
    exact readU8_codec.reads.read trivial rest
  have fee := (readAmount_reads.gated _).read (keptAmount_valid complete.fee)
  have pegin := (readAmount_reads.gated _).read (keptAmount_valid complete.pegin)
  rw [← wire_normalise]
  simp only [wire, List.append_assoc]
  refine Decoder.Refuses.after (features _)
    (Decoder.Refuses.after (fee _) (Decoder.Refuses.after (pegin _) (Decoder.Refuses.bind ?_ _)))
  have pegouts : kernel.normalise.pegouts = kernel.pegouts.map PegOutCoin.normalise := by
    simp only [normalise, keptVec, announced, if_true]
  have flag : hasBit kernel.normalise.features pegoutFeatureBit = true := announced
  rw [pegouts, vecWire_map _ PegOutCoin.wire_normalise, flag, announced, Decoder.orAbsent,
    Wire.announced, if_pos rfl, if_pos rfl]
  refine decodeVec_refuses (fun coin => coin.scriptPubKey.isEmpty = false) ?_ ?_ ?_ _
  · intro coin _ good rest
    exact ⟨_, PegOutCoin.read_wire good rest⟩
  · intro coin _ bad rest
    exact PegOutCoin.refuses_wire ((Bool.not_eq_false _).mp bad) rest
  · exact ⟨coin, member, by rw [empty]; decide⟩

/-- The writer reports a missing announced field. -/
theorem complete_of_encoded {kernel : Kernel} (emitted : kernel.consensusEncode = .ok result) :
    kernel.Complete := by
  obtain ⟨count, bytes⟩ := result
  simp only [consensusEncode, Emission.append_eq_ok] at emitted
  obtain ⟨_, _, _, _, ⟨_, _, _, _, ⟨_, _, _, _, ⟨_, _, _, _, ⟨_, _, _, _, ⟨_, _, _, _,
    ⟨_, _, _, _, ⟨_, _, _, _, _, fee, _⟩, pegin, _⟩, _, _⟩, lockHeight, _⟩, stealthExcess, _⟩,
    _⟩, _⟩, _⟩ := emitted
  exact ⟨Emission.gated_required_eq_ok fee, Emission.gated_required_eq_ok pegin,
    Emission.gated_required_eq_ok lockHeight, Emission.gated_required_eq_ok stealthExcess⟩

/-- The bytes tell every amount and every optional field that is there. -/
structure KeepsFields (kernel : Kernel) : Prop where
  fee : kernel.fee.isSome →
    Tells consensusEncode (fun fee => { kernel with fee }) (∀ amount ∈ ·, 0 ≤ amount) kernel.fee
  pegin : kernel.pegin.isSome →
    Tells consensusEncode (fun pegin => { kernel with pegin }) (∀ amount ∈ ·, 0 ≤ amount) kernel.pegin
  pegouts : kernel.pegouts ≠ .empty → Tells consensusEncode (fun pegouts => { kernel with pegouts })
    (fun pegouts => ∀ coin ∈ pegouts.toList, 0 ≤ coin.amount) kernel.pegouts
  lockHeight : kernel.lockHeight.isSome →
    Tells consensusEncode (fun lockHeight => { kernel with lockHeight }) (fun _ => True) kernel.lockHeight
  stealthExcess : kernel.stealthExcess.isSome →
    Tells consensusEncode (fun stealthExcess => { kernel with stealthExcess }) (fun _ => True)
      kernel.stealthExcess
  extraData : kernel.extraData ≠ .empty →
    Tells consensusEncode (fun extraData => { kernel with extraData }) (fun _ => True) kernel.extraData

omit [Secp256k1] in
theorem amountWire_inj (a b : Int64) (nonneg : 0 ≤ a) (nonneg' : 0 ≤ b)
    (same : amountWire a = amountWire b) : a = b :=
  (readAmount_reads.unique nonneg nonneg' (congrArg (· ++ []) same)).1

omit [Secp256k1] in
theorem lockHeightWire_inj (a b : UInt32) (same : lockHeightWire a = lockHeightWire b) : a = b :=
  (readLockHeight_reads.unique trivial trivial (congrArg (· ++ []) same)).1

omit [Secp256k1] in
theorem pegoutsWire_inj (one other : Vec PegOutCoin) (nonneg : ∀ coin ∈ one.toList, 0 ≤ coin.amount)
    (nonneg' : ∀ coin ∈ other.toList, 0 ≤ coin.amount)
    (same : vecWire PegOutCoin.wire one = vecWire PegOutCoin.wire other) : one = other :=
  ((decodeVec_reads PegOutCoin.readAnyCoin_reads).unique nonneg nonneg' (congrArg (· ++ []) same)).1

theorem keyWire_inj [Lawful] (a b : PublicKey) (same : keyWire a = keyWire b) : a = b := by
  have parsed := keyValid a
  rw [KeyValid, same, keyValid b] at parsed
  exact (Option.some.inj parsed).symm

section
variable {kernel : Kernel} (complete : kernel.Complete)
include complete

theorem keepsFee_iff : (kernel.fee.isSome →
      Tells consensusEncode (fun fee => { kernel with fee }) (∀ amount ∈ ·, 0 ≤ amount) kernel.fee) ↔
    ∀ amount ∈ kernel.fee, hasBit kernel.features feeFeatureBit ∧ 0 ≤ amount :=
  tells_optional_iff wire normalAmount (fun _ _ emitted => (complete_of_encoded emitted).fee)
    (fun _ there => consensusEncode_eq { complete with fee := there })
    (fun _ _ => by simp only [wire, List.append_cancel_left_eq, List.append_cancel_right_eq])
    amountWire_inj amountWire_normalAmount normalAmount_nonneg complete.fee

theorem keepsPegin_iff : (kernel.pegin.isSome →
      Tells consensusEncode (fun pegin => { kernel with pegin }) (∀ amount ∈ ·, 0 ≤ amount) kernel.pegin) ↔
    ∀ amount ∈ kernel.pegin, hasBit kernel.features peginFeatureBit ∧ 0 ≤ amount :=
  tells_optional_iff wire normalAmount (fun _ _ emitted => (complete_of_encoded emitted).pegin)
    (fun _ there => consensusEncode_eq { complete with pegin := there })
    (fun _ _ => by simp only [wire, List.append_cancel_left_eq, List.append_cancel_right_eq])
    amountWire_inj amountWire_normalAmount normalAmount_nonneg complete.pegin

theorem keepsPegouts_iff : (kernel.pegouts ≠ .empty →
      Tells consensusEncode (fun pegouts => { kernel with pegouts })
        (fun pegouts => ∀ coin ∈ pegouts.toList, 0 ≤ coin.amount) kernel.pegouts) ↔
    (kernel.pegouts ≠ .empty → hasBit kernel.features pegoutFeatureBit ∧
      ∀ coin ∈ kernel.pegouts.toList, 0 ≤ coin.amount) :=
  tells_vec_iff wire (·.map PegOutCoin.normalise) (fun _ => consensusEncode_eq { complete with })
    (fun _ _ => by simp only [wire, List.append_cancel_left_eq, List.append_cancel_right_eq])
    pegoutsWire_inj (fun pegouts => vecWire_map pegouts PegOutCoin.wire_normalise) (by
      intro pegouts coin member
      obtain ⟨original, -, rfl⟩ := List.mem_map.mp (Vec.toList_map _ _ ▸ member)
      exact normalAmount_nonneg _) nofun

theorem keepsLockHeight_iff : (kernel.lockHeight.isSome →
      Tells consensusEncode (fun lockHeight => { kernel with lockHeight }) (fun _ => True)
        kernel.lockHeight) ↔
    (kernel.lockHeight.isSome → hasBit kernel.features heightLockFeatureBit) :=
  tells_free_iff wire (fun _ _ emitted => (complete_of_encoded emitted).lockHeight)
    (fun _ there => consensusEncode_eq { complete with lockHeight := there })
    (fun _ _ => by simp only [wire, List.append_cancel_left_eq, List.append_cancel_right_eq])
    lockHeightWire_inj complete.lockHeight

theorem keepsStealthExcess_iff [Lawful] : (kernel.stealthExcess.isSome →
      Tells consensusEncode (fun stealthExcess => { kernel with stealthExcess }) (fun _ => True)
        kernel.stealthExcess) ↔
    (kernel.stealthExcess.isSome → hasBit kernel.features stealthExcessFeatureBit) :=
  tells_free_iff wire (fun _ _ emitted => (complete_of_encoded emitted).stealthExcess)
    (fun _ there => consensusEncode_eq { complete with stealthExcess := there })
    (fun _ _ => by simp only [wire, List.append_cancel_left_eq, List.append_cancel_right_eq])
    keyWire_inj complete.stealthExcess

theorem keepsExtraData_iff : (kernel.extraData ≠ .empty →
      Tells consensusEncode (fun extraData => { kernel with extraData }) (fun _ => True)
        kernel.extraData) ↔
    (kernel.extraData ≠ .empty → hasBit kernel.features extraDataFeatureBit ∧ True) :=
  tells_vec_iff wire id (fun _ => consensusEncode_eq { complete with })
    (fun _ _ => by simp only [wire, List.append_cancel_left_eq, List.append_cancel_right_eq])
    (fun _ _ _ _ same => bytesWire_inj same) (fun _ => rfl) (fun _ => trivial) trivial

/-- The bytes tell what is there exactly when it is announced and no amount is negative. -/
theorem keepsFields_iff [Lawful] : kernel.KeepsFields ↔ kernel.Normal := by
  constructor
  · intro keeps
    refine ⟨(keepsFee_iff complete).mp keeps.fee, (keepsPegin_iff complete).mp keeps.pegin,
      fun coin member => ?_, (keepsLockHeight_iff complete).mp keeps.lockHeight,
      (keepsStealthExcess_iff complete).mp keeps.stealthExcess,
      fun some' => ((keepsExtraData_iff complete).mp keeps.extraData some').1⟩
    have some' : kernel.pegouts ≠ .empty := fun none => nomatch (none ▸ member)
    obtain ⟨on, nonneg⟩ := (keepsPegouts_iff complete).mp keeps.pegouts some'
    exact ⟨on, nonneg coin member⟩
  · intro normal
    refine ⟨(keepsFee_iff complete).mpr normal.fee, (keepsPegin_iff complete).mpr normal.pegin,
      (keepsPegouts_iff complete).mpr fun some' => ?_, (keepsLockHeight_iff complete).mpr normal.lockHeight,
      (keepsStealthExcess_iff complete).mpr normal.stealthExcess,
      (keepsExtraData_iff complete).mpr fun some' => ⟨normal.extraData some', trivial⟩⟩
    obtain ⟨coin, member⟩ := List.exists_mem_of_ne_nil _ fun none => some' (Vec.ext none)
    exact ⟨(normal.pegouts coin member).1, fun coin member => (normal.pegouts coin member).2⟩

end

end Kernel

namespace Input

def normalise (input : Input) : Input :=
  { input with
    inputPublicKey := kept (hasBit input.features 1) input.inputPublicKey
    extraData := keptVec (hasBit input.features 2) input.extraData }

@[mk_iff] structure Normal (input : Input) : Prop where
  inputPublicKey : input.inputPublicKey.isSome → hasBit input.features 1
  extraData : input.extraData ≠ .empty → hasBit input.features 2

theorem wire_normalise (input : Input) : input.normalise.wire = input.wire := by
  simp only [wire, normalise, announced_kept, announced_keptVec]

theorem normalise_eq_iff (input : Input) : input.normalise = input ↔ input.Normal := by
  rw [normal_iff, ← kept_eq_iff, ← keptVec_eq_iff]
  cases input
  simp [normalise]

theorem normalise_valid [Lawful] {input : Input} (complete : input.Complete) :
    input.normalise.Valid where
  outputPublicKey := keyValid _
  inputPublicKey := ⟨kept_isSome complete, fun key _ => keyValid key⟩
  extraData := keptVec_valid _ _

theorem complete_of_encoded {input : Input} (emitted : input.consensusEncode = .ok result) :
    input.Complete := by
  obtain ⟨count, bytes⟩ := result
  simp only [consensusEncode, Emission.append_eq_ok] at emitted
  obtain ⟨_, _, _, _, ⟨_, _, _, _, ⟨_, _, _, _, _, inputPublicKey, _⟩, _⟩, _⟩ := emitted
  exact Emission.gated_required_eq_ok inputPublicKey

end Input

namespace OutputMessage
open OutputFeatures

/-- Whether the writer puts the standard fields on the wire. -/
def StandardFieldsOnWire (message : OutputMessage) : Prop :=
  message.consensusEncode ≠ { message with standardFields := none }.consensusEncode

def StandardFieldsAgree (message : OutputMessage) : Prop :=
  message.standardFields.isSome = hasBit message.features standardFieldsFeatureBit

theorem standardFieldsOnWire_iff (message : OutputMessage) :
    message.StandardFieldsOnWire ↔ message.standardFields.isSome := by
  rw [StandardFieldsOnWire, consensusEncode_eq, consensusEncode_eq]
  cases fields : message.standardFields with
  | none => simp [wire, fields]
  | some found =>
    refine iff_of_true (fun same => ?_) rfl
    have lengths := congrArg (fun emission => (emission.toBytes.map List.length)) same
    simp [wire, fields, Emission.toBytes_written, Except.map, optionalWire, standardFieldsWire]
      at lengths
    omega

def normalise (message : OutputMessage) : OutputMessage :=
  { message with
    extraData := keptVec (hasBit message.features extraDataFeatureBit) message.extraData }

def Normal (message : OutputMessage) : Prop :=
  message.extraData ≠ .empty → hasBit message.features extraDataFeatureBit

theorem wire_normalise (message : OutputMessage) : message.normalise.wire = message.wire := by
  simp only [wire, normalise, announced_keptVec]

theorem normalise_eq_iff (message : OutputMessage) :
    message.normalise = message ↔ message.Normal := by
  rw [Normal, ← keptVec_eq_iff]
  cases message
  simp [normalise]

theorem normalise_valid [Lawful] {message : OutputMessage} (agree : message.StandardFieldsAgree) :
    message.normalise.Valid where
  standardFields := ⟨agree, fun _ _ => keyValid _⟩
  extraData := keptVec_valid _ _

end OutputMessage

namespace Output

def normalise (output : Output) : Output := { output with message := output.message.normalise }

theorem wire_normalise (output : Output) : output.normalise.wire = output.wire := by
  simp only [wire, normalise, OutputMessage.wire_normalise]

theorem normalise_eq_iff (output : Output) :
    output.normalise = output ↔ output.message.Normal := by
  rw [← OutputMessage.normalise_eq_iff]
  cases output
  simp [normalise]

theorem normalise_valid [Lawful] {output : Output} (agree : output.message.StandardFieldsAgree) :
    output.normalise.Valid :=
  ⟨keyValid _, keyValid _, OutputMessage.normalise_valid agree⟩

end Output

namespace TxBody

def normalise (body : TxBody) : TxBody where
  inputs := body.inputs.map Input.normalise
  outputs := body.outputs.map Output.normalise
  kernels := body.kernels.map Kernel.normalise

@[mk_iff] structure Normal (body : TxBody) : Prop where
  inputs : ∀ input ∈ body.inputs.toList, input.Normal
  outputs : ∀ output ∈ body.outputs.toList, output.message.Normal
  kernels : ∀ kernel ∈ body.kernels.toList, kernel.Normal

def StandardFieldsAgree (body : TxBody) : Prop :=
  ∀ output ∈ body.outputs.toList, output.message.StandardFieldsAgree

def EmptyDestination (body : TxBody) : Prop :=
  ∃ kernel ∈ body.kernels.toList, kernel.EmptyDestination

theorem wire_normalise (body : TxBody) : body.normalise.wire = body.wire := by
  simp only [wire, normalise, vecWire_map _ Input.wire_normalise,
    vecWire_map _ Output.wire_normalise, vecWire_map _ Kernel.wire_normalise]

theorem normalise_eq_iff (body : TxBody) : body.normalise = body ↔ body.Normal := by
  simp only [normal_iff, ← Input.normalise_eq_iff, ← Output.normalise_eq_iff,
    ← Kernel.normalise_eq_iff, ← Vec.map_eq_self]
  cases body
  simp [normalise]

theorem normalise_valid [Lawful] {body : TxBody} (complete : body.Complete)
    (agree : body.StandardFieldsAgree) (destinations : ¬ body.EmptyDestination) :
    body.normalise.Valid where
  inputs := by
    intro input member
    obtain ⟨original, found, rfl⟩ := List.mem_map.mp member
    exact Input.normalise_valid (complete.inputs original found)
  outputs := by
    intro output member
    obtain ⟨original, found, rfl⟩ := List.mem_map.mp member
    exact Output.normalise_valid (agree original found)
  kernels := by
    intro kernel member
    obtain ⟨original, found, rfl⟩ := List.mem_map.mp member
    exact Kernel.normalise_valid (complete.kernels original found)
      fun empty => destinations ⟨original, found, empty⟩

theorem refuses_wire [Lawful] {body : TxBody} (complete : body.Complete)
    (agree : body.StandardFieldsAgree) (destination : body.EmptyDestination) (rest : Bytes) :
    consensusDecodeFromFiniteReader.Refuses (body.wire ++ rest) := by
  have inputs := (decodeVec_reads Input.reads).read (a := body.inputs.map Input.normalise) (by
    intro input member
    obtain ⟨original, found, rfl⟩ := List.mem_map.mp member
    exact Input.normalise_valid (complete.inputs original found))
  have outputs := (decodeVec_reads Output.reads).read (a := body.outputs.map Output.normalise) (by
    intro output member
    obtain ⟨original, found, rfl⟩ := List.mem_map.mp member
    exact Output.normalise_valid (agree original found))
  simp only [vecWire_map _ Input.wire_normalise] at inputs
  simp only [vecWire_map _ Output.wire_normalise] at outputs
  simp only [wire, List.append_assoc]
  refine Decoder.Refuses.after (inputs _) (Decoder.Refuses.after (outputs _)
    (Decoder.Refuses.bind ?_ _))
  obtain ⟨kernel, member, empty⟩ := destination
  refine decodeVec_refuses (fun kernel => ¬ kernel.EmptyDestination) ?_ ?_ ?_ _
  · intro kernel member good rest
    exact ⟨_, Kernel.read_wire (complete.kernels kernel member) good rest⟩
  · intro kernel member bad rest
    exact Kernel.refuses_wire (complete.kernels kernel member) (not_not.mp bad) rest
  · exact ⟨kernel, member, not_not.mpr empty⟩

theorem complete_of_encoded {body : TxBody} (emitted : body.consensusEncode = .ok result) :
    body.Complete := by
  obtain ⟨count, bytes⟩ := result
  simp only [consensusEncode, Emission.append_eq_ok] at emitted
  obtain ⟨_, _, _, _, ⟨_, _, _, _, inputs, _⟩, kernels, _⟩ := emitted
  refine ⟨fun input member => ?_, fun kernel member => ?_⟩
  · obtain ⟨_, emitted⟩ := encodeVec_eq_ok inputs input member
    exact Input.complete_of_encoded emitted
  · obtain ⟨_, emitted⟩ := encodeVec_eq_ok kernels kernel member
    exact Kernel.complete_of_encoded emitted

end TxBody

namespace Transaction
open OutputFeatures

/-- The bytes of a transaction never mean something else: they are read back as the
transaction or refused, standard fields are written exactly when announced, and no
kernel or peg-out loses or changes a field, whatever the reader makes of the rest. -/
def Faithful (tx : Transaction) : Prop :=
  ∀ result, tx.consensusEncode = .ok result →
    ReadsBack consensusEncode consensusDecodeFromFiniteReader tx ∧
    (∀ output ∈ tx.body.outputs.toList, (output.message.StandardFieldsOnWire ↔
      hasBit output.message.features standardFieldsFeatureBit)) ∧
    ∀ kernel ∈ tx.body.kernels.toList, kernel.KeepsFields ∧
      ∀ coin ∈ kernel.pegouts.toList, coin.KeepsAmount

/-- Feature bytes announce what is there. An empty peg-out destination, like a missing
kernel, makes the reader refuse the whole transaction, whatever is in the other records. -/
structure Coherent (tx : Transaction) : Prop where
  standardFields : tx.body.StandardFieldsAgree
  kernels : ∀ kernel ∈ tx.body.kernels.toList, kernel.Normal
  records : tx.body.kernels.isEmpty ∨ tx.body.EmptyDestination ∨ tx.body.Normal

def normalise (tx : Transaction) : Transaction := { tx with body := tx.body.normalise }

theorem wire_normalise (tx : Transaction) : tx.normalise.wire = tx.wire := by
  simp only [wire, normalise, TxBody.wire_normalise]

theorem normalise_eq_iff (tx : Transaction) : tx.normalise = tx ↔ tx.body.Normal := by
  rw [← TxBody.normalise_eq_iff]
  cases tx
  simp [normalise]

theorem complete_of_encoded {tx : Transaction} (emitted : tx.consensusEncode = .ok result) :
    tx.body.Complete := by
  obtain ⟨count, bytes⟩ := result
  simp only [consensusEncode, Emission.append_eq_ok] at emitted
  obtain ⟨_, _, _, _, _, body, _⟩ := emitted
  exact TxBody.complete_of_encoded body

theorem refuses_wire [Lawful] {tx : Transaction} (complete : tx.body.Complete)
    (agree : tx.body.StandardFieldsAgree)
    (refused : tx.body.kernels.isEmpty ∨ tx.body.EmptyDestination) :
    consensusDecodeFromFiniteReader.Refuses tx.wire := by
  have offsets (offset : ByteArr 32) := (readExact_codec 32).reads.read (a := offset) trivial
  refine Decoder.Refuses.after (offsets _ _) (Decoder.Refuses.after (offsets _ _) ?_)
  by_cases destination : tx.body.EmptyDestination
  · have body := TxBody.refuses_wire complete agree destination []
    rw [List.append_nil] at body
    exact body.bind _
  · have empty := refused.resolve_right destination
    have body := TxBody.reads.read_all (TxBody.normalise_valid complete agree destination)
    rw [TxBody.wire_normalise] at body
    refine Decoder.Refuses.after body ?_
    intro result read
    obtain ⟨_, _, checked, _⟩ := Decoder.bind_eq_ok.mp read
    have stillEmpty : tx.body.normalise.kernels.isEmpty = true := by
      simpa [TxBody.normalise, Vec.isEmpty] using empty
    simp [stillEmpty] at checked

theorem readsBack_iff [Lawful] {tx : Transaction} (complete : tx.body.Complete)
    (agree : tx.body.StandardFieldsAgree) :
    ReadsBack consensusEncode consensusDecodeFromFiniteReader tx ↔
      tx.body.kernels.isEmpty ∨ tx.body.EmptyDestination ∨ tx.body.Normal := by
  by_cases refused : tx.body.kernels.isEmpty ∨ tx.body.EmptyDestination
  · refine iff_of_true (readsBack_of_refused (consensusEncode_eq complete)
      (refuses_wire complete agree refused)) ?_
    exact or_assoc.mp (.inl refused)
  · rw [not_or] at refused
    have kernels : tx.normalise.body.kernels.isEmpty = false := by
      simpa [normalise, TxBody.normalise, Vec.isEmpty] using refused.1
    have read := reads.read_all (a := tx.normalise)
      ⟨TxBody.normalise_valid complete agree refused.2, kernels⟩
    rw [wire_normalise] at read
    rw [Mimblewimble.readsBack_iff (consensusEncode_eq complete) read, normalise_eq_iff]
    simp only [refused.1, refused.2, Bool.false_eq_true, false_or]

theorem standardFields_iff (tx : Transaction) :
    (∀ output ∈ tx.body.outputs.toList, (output.message.StandardFieldsOnWire ↔
      hasBit output.message.features standardFieldsFeatureBit)) ↔ tx.body.StandardFieldsAgree := by
  refine forall₂_congr fun output _ => ?_
  rw [OutputMessage.standardFieldsOnWire_iff, OutputMessage.StandardFieldsAgree]
  exact Bool.eq_iff_iff.symm

/-- A transaction the writer accepts is faithfully written exactly when its feature
bytes cover what is there. -/
theorem faithful_iff_coherent [Lawful] (tx : Transaction) :
    tx.Faithful ↔ (tx.body.Complete → tx.Coherent) := by
  constructor
  · intro faithful complete
    obtain ⟨back, standardFields, kernels⟩ := faithful _ (consensusEncode_eq complete)
    have agree := (standardFields_iff tx).mp standardFields
    exact {
      standardFields := agree
      kernels := fun kernel member =>
        (Kernel.keepsFields_iff (complete.kernels kernel member)).mp (kernels kernel member).1
      records := (readsBack_iff complete agree).mp back }
  · intro coherent result emitted
    have complete := complete_of_encoded emitted
    have coherent := coherent complete
    refine ⟨(readsBack_iff complete coherent.standardFields).mpr coherent.records,
      (standardFields_iff tx).mpr coherent.standardFields, fun kernel member => ⟨?_, ?_⟩⟩
    · exact (Kernel.keepsFields_iff (complete.kernels kernel member)).mpr (coherent.kernels kernel member)
    · intro coin found
      exact coin.keepsAmount_iff.mpr ((coherent.kernels kernel member).pegouts coin found).2

end Transaction

end

theorem minimalKernel_normal : @Kernel.Normal generatorOnly minimalKernel := by
  let := generatorOnly
  constructor <;> simp [minimalKernel, Vec.empty]

theorem minimalTransaction_faithful : @Transaction.Faithful generatorOnly minimalTransaction := by
  let := generatorOnly
  have := generatorOnly_lawful
  refine (Transaction.faithful_iff_coherent minimalTransaction).mpr fun _ => ?_
  have kernels : ∀ kernel ∈ minimalTransaction.body.kernels.toList, kernel = minimalKernel :=
    fun kernel member => List.mem_singleton.mp member
  exact {
    standardFields := fun output member => nomatch member
    records := .inr (.inr {
      inputs := fun input member => nomatch member
      outputs := fun output member => nomatch member
      kernels := fun kernel member => kernels kernel member ▸ minimalKernel_normal })
    kernels := fun kernel member => kernels kernel member ▸ minimalKernel_normal }

/-- The minimal kernel with a fee that its feature byte does not announce. -/
def silentFee : @Transaction generatorOnly :=
  letI := generatorOnly
  { minimalTransaction with
    body := { inputs := .empty, outputs := .empty,
              kernels := ⟨[{ minimalKernel with fee := some 5 }], by decide⟩ } }

theorem silentFee_encoded :
    @Transaction.consensusEncode generatorOnly silentFee = .ok (165, minimalBytes) := by
  decide +kernel

theorem silentFee_ne : silentFee ≠ minimalTransaction := by
  decide

theorem silentFee_unfaithful : ¬ @Transaction.Faithful generatorOnly silentFee := by
  intro faithful
  have back := (faithful _ silentFee_encoded).1
  exact silentFee_ne (back _ _ silentFee_encoded _ _ minimalBytes_read).1.symm

end Litecoin.Mimblewimble
