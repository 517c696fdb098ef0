import Litecoin.Psbt.Mweb
import Litecoin.Psbt.Stability
import Litecoin.Wire.Outcome

/-! MWEB maps are restored from the pairs they are written as. -/
namespace Litecoin.Psbt
open Wire Consensus

namespace MwebField

/-- A value is read back from what it is written as. -/
def Rereads (field : MwebField α) (a : α) : Prop :=
  field.parse (field.render a).1 (field.render a).2 = some a

/-- Values are written with short key data, and in no more bytes than they were taken from,
or in few. -/
structure Bounded (field : MwebField α) : Prop where
  key : ∀ a, (field.render a).1.length ≤ 5000
  value : ∀ keyData value a, field.parse keyData value = some a →
    (field.render a).2.length ≤ max value.length 5000

theorem array_rereads (a : ByteArr n) : (array n).Rereads a := dif_pos a.property

theorem bytes_rereads (a : Bytes) : bytes.Rereads a := rfl

theorem firstByte_rereads (a : UInt8) : firstByte.Rereads a := rfl

theorem u32_rereads (a : UInt32) : u32.Rereads a := by
  have fits : a.toNat < 256 ^ 4 := a.toNat_lt
  simp only [Rereads, u32, littleEndian_length, if_true, fromLittleEndian_littleEndian fits,
    UInt32.ofNat_toNat]

theorem u64_rereads (a : UInt64) : u64.Rereads a := by
  have fits : a.toNat < 256 ^ 8 := a.toNat_lt
  simp only [Rereads, u64, littleEndian_length, if_true, fromLittleEndian_littleEndian fits,
    UInt64.ofNat_toNat]

theorem Rereads.unkeyed {field : MwebField α} (rereads : field.Rereads a)
    (noKey : (field.render a).1 = []) : field.unkeyed.Rereads a := by
  simp only [Rereads, MwebField.unkeyed, noKey, List.isEmpty_nil, if_true]
  rw [← noKey]
  exact rereads

theorem Bounded.unkeyed {field : MwebField α} (bounded : field.Bounded) : field.unkeyed.Bounded where
  key := bounded.key
  value keyData value a parsed := by
    simp only [MwebField.unkeyed] at parsed
    split at parsed
    · exact bounded.value keyData value a parsed
    · contradiction

theorem array_bounded (short : n ≤ 5000) : (array n).Bounded where
  key _ := Nat.zero_le _
  value _ _ a _ := a.property.le.trans (short.trans (Nat.le_max_right _ _))

theorem bytes_bounded : bytes.Bounded where
  key _ := Nat.zero_le _
  value keyData value a parsed := by
    obtain rfl := Option.some.inj parsed
    exact Nat.le_max_left _ _

theorem firstByte_bounded : firstByte.Bounded where
  key _ := Nat.zero_le _
  value _ _ _ _ := le_max_of_le_right (by decide : 1 ≤ 5000)

theorem u32_bounded : u32.Bounded where
  key _ := Nat.zero_le _
  value _ _ _ _ := le_max_of_le_right (by simp [u32])

theorem u64_bounded : u64.Bounded where
  key _ := Nat.zero_le _
  value _ _ _ _ := le_max_of_le_right (by simp [u64])

section
variable [Secp256k1]

theorem keyOrigin_eq_some {keyData value : Bytes} :
    keyOrigin.parse keyData value = some (key, source) ↔
      Secp256k1.publicKeyFromSlice keyData = some key ∧ value = Value.keySourceBytes source ∧
        source.2.Bounded := by
  simp only [keyOrigin, Option.bind_eq_bind, Option.bind_eq_some_iff, Option.pure_def,
    Option.some.injEq, Prod.mk.injEq, toOption_eq_some, Value.keySource_eq_ok]
  constructor
  · rintro ⟨_, parsed, _, read, rfl, rfl⟩
    exact ⟨parsed, read⟩
  · rintro ⟨parsed, read⟩
    exact ⟨key, parsed, source, read, rfl, rfl⟩

/-- Only child numbers below the hardened ones are read back. -/
theorem keyOrigin_rereads_iff [Secp256k1.Lawful] {origin : Secp256k1.PublicKey × Bip32.KeySource} :
    keyOrigin.Rereads origin ↔ origin.2.2.Bounded := by
  obtain ⟨key, source⟩ := origin
  have read : Secp256k1.publicKeyFromSlice (Secp256k1.serialize key).val = some key :=
    Secp256k1.Lawful.fromSlice_serialize key
  exact keyOrigin_eq_some.trans ((and_iff_right read).trans (and_iff_right rfl))

theorem keyOrigin_bounded : keyOrigin.Bounded where
  key := fun (key, _) => (Secp256k1.serialize key).property.le.trans (by decide)
  value := fun keyData value (key, source) parsed => by
    obtain ⟨_, rfl, _⟩ := keyOrigin_eq_some.mp parsed
    exact Nat.le_max_left _ _

end
end MwebField

namespace MwebTable

/-- Every field is found under its type byte, and what it takes in is read back. -/
structure Lawful (table : MwebTable F) : Prop where
  found : ∀ f, table.fieldOf (table.typeValue f) = some f
  rereads : ∀ f keyData value a, (table.field f).parse keyData value = some a →
    (table.field f).Rereads a
  bounded : ∀ f, (table.field f).Bounded

/-- All fields are read back from what they are written as. -/
def Restorable (table : MwebTable F) (record : table.Record) : Prop :=
  ∀ f, ∀ a ∈ record f, (table.field f).Rereads a

variable {table : MwebTable F}

theorem Lawful.listed (lawful : table.Lawful) (f : F) : f ∈ table.fields :=
  List.mem_of_find?_eq_some (lawful.found f)

theorem kvPairs_eq_nil (lawful : table.Lawful) {record : table.Record} :
    table.kvPairs table.fields record = [] ↔ ∀ f, record f = none := by
  simp [kvPairs, lawful.listed]

theorem mem_kvPairs {fields : List F} {record : table.Record} : kv ∈ table.kvPairs fields record ↔
    ∃ f ∈ fields, ∃ a ∈ record f, kv = (table.typeValue f, (table.field f).render a) := by
  simp [kvPairs, eq_comm]

/-- The key data of a written field is short. -/
theorem kvPairs_key (lawful : table.Lawful) {fields : List F} {record : table.Record}
    (member : kv ∈ table.kvPairs fields record) : kv.2.1.length ≤ 5000 := by
  obtain ⟨f, _, a, _, rfl⟩ := mem_kvPairs.mp member
  exact (lawful.bounded f).key a

theorem empty_restorable : table.Restorable table.empty := fun _ _ absent =>
  absurd absent (Option.not_mem_none _)

/-- A pair that sets a field. -/
def accepts (table : MwebTable F) (kv : KvPair) : Bool :=
  match table.fieldOf kv.1 with
  | none => false
  | some f => ((table.field f).parse kv.2.1 kv.2.2).isSome

variable [DecidableEq F]

/-- A record has a field as soon as one of its pairs was accepted. -/
theorem apply_set (record : table.Record) (kv : KvPair) :
    (∃ f, table.apply record kv f ≠ none) ↔ (∃ f, record f ≠ none) ∨ table.accepts kv = true := by
  rw [apply, accepts]
  cases table.fieldOf kv.1 with
  | none => simp
  | some f =>
    cases parsed : (table.field f).parse kv.2.1 kv.2.2 with
    | none => simp [parsed]
    | some a =>
      simp only [parsed, Option.isSome_some, or_true, iff_true]
      exact ⟨f, by rw [Function.update_self]; exact Option.some_ne_none a⟩

/-- A pair is ignored, or sets the field it parses as. -/
theorem apply_cases (record : table.Record) (kv : KvPair) :
    table.apply record kv = record ∨ ∃ f a, (table.field f).parse kv.2.1 kv.2.2 = some a ∧
      table.apply record kv = Function.update record f (some a) := by
  rw [apply]
  cases table.fieldOf kv.1 with
  | none => exact .inl rfl
  | some f =>
    cases parsed : (table.field f).parse kv.2.1 kv.2.2 with
    | none => simp [parsed]
    | some a => exact .inr ⟨f, a, parsed, by simp [parsed]⟩

theorem apply_own (lawful : table.Lawful) (record : table.Record) {f : F} {a : table.Content f}
    (rereads : (table.field f).Rereads a) :
    table.apply record (table.typeValue f, (table.field f).render a) =
      Function.update record f (some a) := by
  have read : (table.field f).parse _ _ = some a := rereads
  simp only [apply, lawful.found f, read]

theorem apply_restorable (lawful : table.Lawful) {record : table.Record}
    (restorable : table.Restorable record) (kv : KvPair) :
    table.Restorable (table.apply record kv) := by
  obtain same | ⟨f, a, parsed, set⟩ := apply_cases record kv
  · rw [same]
    exact restorable
  · rw [set]
    have own : ∀ b ∈ some a, (table.field f).Rereads b := by
      rintro _ ⟨⟩
      exact lawful.rereads f _ _ a parsed
    exact (Function.forall_update_iff record fun f value =>
      ∀ b ∈ value, (table.field f).Rereads b).mpr ⟨own, fun g _ => restorable g⟩

/-- The written fields take the place of what was there. -/
theorem foldl_kvPairs (lawful : table.Lawful) {record : table.Record}
    (restorable : table.Restorable record) (fields : List F) (start : table.Record) :
    (table.kvPairs fields record).foldl table.apply start =
      fun f => if f ∈ fields then (record f).or (start f) else start f := by
  induction fields generalizing start with
  | nil => simp [kvPairs]
  | cons first rest ih =>
    have head : ((record first).toList.map fun a =>
        (table.typeValue first, (table.field first).render a)).foldl table.apply start =
        Function.update start first ((record first).or (start first)) := by
      cases value : record first with
      | none => simp
      | some a => simp [apply_own lawful start (restorable first a value)]
    have split : table.kvPairs (first :: rest) record =
        ((record first).toList.map fun a => (table.typeValue first, (table.field first).render a)) ++
          table.kvPairs rest record := rfl
    rw [split, List.foldl_append, head, ih]
    funext f
    by_cases same : f = first
    · subst same
      simp
      intro _
      cases record f <;> rfl
    · simp [same]

theorem foldl_all (lawful : table.Lawful) {record : table.Record}
    (restorable : table.Restorable record) :
    (table.kvPairs table.fields record).foldl table.apply table.empty = record := by
  rw [foldl_kvPairs lawful restorable]
  funext f
  simp [lawful.listed f, empty]

end MwebTable

section
variable [Secp256k1]

/-- Every field but a key origin is read back, whatever it holds. -/
theorem MwebInput.rereads {f : MwebInput.Field} (scan : f ≠ .masterScanKeyOrigin)
    (spend : f ≠ .masterSpendKeyOrigin) (a : MwebInput.Content f) :
    (MwebInput.field f).Rereads a := by
  cases f with
  | masterScanKeyOrigin => contradiction
  | masterSpendKeyOrigin => contradiction
  | outputId | sharedSecret | commit => exact (MwebField.array_rereads a).unkeyed rfl
  | features => exact (MwebField.firstByte_rereads a).unkeyed rfl
  | addressIndex => exact (MwebField.u32_rereads a).unkeyed rfl
  | amount => exact (MwebField.u64_rereads a).unkeyed rfl
  | outputPubkey | inputPubkey | signature | keyExchangePubkey | extraData =>
    exact (MwebField.bytes_rereads a).unkeyed rfl

theorem MwebInput.table_lawful [Secp256k1.Lawful] : MwebInput.table.Lawful where
  found f := by cases f <;> rfl
  rereads f keyData value a parsed := by
    by_cases scan : f = .masterScanKeyOrigin
    · subst scan
      exact MwebField.keyOrigin_rereads_iff.mpr (MwebField.keyOrigin_eq_some.mp parsed).2.2
    · by_cases spend : f = .masterSpendKeyOrigin
      · subst spend
        exact MwebField.keyOrigin_rereads_iff.mpr (MwebField.keyOrigin_eq_some.mp parsed).2.2
      · exact MwebInput.rereads scan spend a
  bounded f := by
    cases f
    all_goals first
      | exact (MwebField.array_bounded (by decide)).unkeyed
      | exact MwebField.bytes_bounded.unkeyed
      | exact MwebField.firstByte_bounded.unkeyed
      | exact MwebField.u32_bounded.unkeyed
      | exact MwebField.u64_bounded.unkeyed
      | exact MwebField.keyOrigin_bounded

end

theorem MwebOutput.rereads (f : MwebOutput.Field) (a : MwebOutput.Content f) :
    (MwebOutput.field f).Rereads a := by
  cases f
  all_goals first
    | exact MwebField.array_rereads a
    | exact MwebField.bytes_rereads a
    | exact MwebField.firstByte_rereads a

theorem MwebOutput.table_lawful : MwebOutput.table.Lawful where
  found f := by cases f <;> rfl
  rereads f _ _ a _ := MwebOutput.rereads f a
  bounded f := by
    cases f
    all_goals first
      | exact MwebField.array_bounded (by decide)
      | exact MwebField.bytes_bounded
      | exact MwebField.firstByte_bounded

theorem MwebKernel.rereads (f : MwebKernel.Field) (a : MwebKernel.Content f) :
    (MwebKernel.field f).Rereads a := by
  cases f
  all_goals first
    | exact MwebField.array_rereads a
    | exact MwebField.bytes_rereads a
    | exact MwebField.firstByte_rereads a
    | exact MwebField.u32_rereads a
    | exact MwebField.u64_rereads a

theorem MwebKernel.table_lawful : MwebKernel.table.Lawful where
  found f := by cases f <;> rfl
  rereads f _ _ a _ := MwebKernel.rereads f a
  bounded f := by
    cases f
    all_goals first
      | exact MwebField.array_bounded (by decide)
      | exact MwebField.bytes_bounded
      | exact MwebField.firstByte_bounded
      | exact MwebField.u32_bounded
      | exact MwebField.u64_bounded

namespace MwebInput
variable [Secp256k1]

/-- No child number on the paths of the key origins counts as a hardened one. -/
structure PathsBounded (input : MwebInput) : Prop where
  scan : ∀ origin : Secp256k1.PublicKey × Bip32.KeySource,
    input .masterScanKeyOrigin = some origin → origin.2.2.Bounded
  spend : ∀ origin : Secp256k1.PublicKey × Bip32.KeySource,
    input .masterSpendKeyOrigin = some origin → origin.2.2.Bounded

variable [Secp256k1.Lawful]

theorem restorable_iff {input : MwebInput} : table.Restorable input ↔ input.PathsBounded := by
  constructor
  · intro restorable
    exact {
      scan origin given := MwebField.keyOrigin_rereads_iff.mp (restorable .masterScanKeyOrigin origin given)
      spend origin given :=
        MwebField.keyOrigin_rereads_iff.mp (restorable .masterSpendKeyOrigin origin given) }
  · intro bounded f a given
    by_cases scan : f = .masterScanKeyOrigin
    · subst scan
      exact MwebField.keyOrigin_rereads_iff.mpr (bounded.scan a given)
    · by_cases spend : f = .masterSpendKeyOrigin
      · subst spend
        exact MwebField.keyOrigin_rereads_iff.mpr (bounded.spend a given)
      · exact rereads scan spend a

theorem foldl_toKvPairs {input : MwebInput} (restorable : table.Restorable input) :
    input.toKvPairs.foldl applyKvField table.empty = input :=
  MwebTable.foldl_all table_lawful restorable

theorem toKvPairs_eq_nil {input : MwebInput} : input.toKvPairs = [] ↔ ∀ f, input f = none :=
  MwebTable.kvPairs_eq_nil table_lawful

end MwebInput

namespace MwebOutput

theorem render_key (f : Field) (a : Content f) : ((field f).render a).1 = [] := by
  cases f <;> rfl

theorem toPairs_keyed (output : MwebOutput) :
    (output.toPairs.map fun kv => (kv.1, [], kv.2)) = table.kvPairs table.fields output := by
  rw [toPairs, List.map_map]
  refine (List.map_congr_left fun kv member => ?_).trans (List.map_id _)
  obtain ⟨f, _, a, _, rfl⟩ := MwebTable.mem_kvPairs.mp member
  exact congrArg (fun keyData => (table.typeValue f, keyData, ((field f).render a).2))
    (render_key f a).symm

theorem foldl_toPairs (output : MwebOutput) :
    output.toPairs.foldl applyField table.empty = output := by
  have whole := MwebTable.foldl_all table_lawful fun f a (_ : a ∈ output f) => rereads f a
  rw [← toPairs_keyed, List.foldl_map] at whole
  exact whole

theorem toPairs_eq_nil {output : MwebOutput} : output.toPairs = [] ↔ ∀ f, output f = none := by
  rw [toPairs, List.map_eq_nil_iff]
  exact MwebTable.kvPairs_eq_nil table_lawful

end MwebOutput

namespace MwebKernel

/-- The peg-outs as they are read back. -/
def pegoutUpdates (pegouts : List Bytes) : List (Nat × Bytes) :=
  pegouts.zipIdx.map fun (value, i) => ((UInt8.ofNat i).toNat, value)

theorem foldl_pegoutPairs (pegouts : List Bytes) (kernel : MwebKernel) :
    (pegoutPairs pegouts).foldl applyField kernel = { kernel with
      pegouts := (pegoutUpdates pegouts).foldl (applyAt [] fun _ value => value) kernel.pegouts } := by
  rw [pegoutPairs, pegoutUpdates]
  induction pegouts.zipIdx generalizing kernel with
  | nil => rfl
  | cons pegout rest ih =>
    rw [List.map_cons, List.map_cons, List.foldl_cons, List.foldl_cons, ih]
    rfl

theorem pegoutUpdates_short {pegouts : List Bytes} (short : pegouts.length ≤ 256) :
    pegoutUpdates pegouts = indexedFields (pegouts.map fun value => [value]) := by
  rw [pegoutUpdates, indexedFields, List.zipIdx_map, List.flatMap_map]
  have small : ∀ entry ∈ pegouts.zipIdx, (UInt8.ofNat entry.2).toNat = entry.2 := by
    intro entry member
    have bound := List.snd_lt_of_mem_zipIdx member
    exact UInt8.toNat_ofNat_of_lt' (Nat.lt_of_lt_of_le bound (by simpa using short))
  rw [List.map_congr_left fun entry member => congrArg (·, entry.1) (small entry member),
    List.map_eq_flatMap]
  rfl

/-- One byte of index restores up to 256 peg-outs. -/
theorem foldl_pegoutUpdates_eq_iff {pegouts : List Bytes} :
    (pegoutUpdates pegouts).foldl (applyAt [] fun _ value => value) [] = pegouts ↔
      pegouts.length ≤ 256 := by
  constructor
  · intro same
    rw [← same, length_foldl_applyAt_le]
    refine ⟨Nat.zero_le _, ?_⟩
    intro update member
    obtain ⟨entry, _, rfl⟩ := List.mem_map.mp member
    exact UInt8.toNat_lt _
  · intro short
    rw [pegoutUpdates_short short]
    have restored := foldl_indexedFields_eq_iff [] (fun _ value => value) (fun value => [value]) pegouts
    exact restored.mpr ⟨fun _ _ => List.cons_ne_nil _ _, fun _ _ => rfl⟩

theorem typeValue_ne_pegout (f : Field) : typeValue f ≠ pegoutType := by
  cases f <;> decide

theorem foldl_applyField {kvs : List KvPair} (others : ∀ kv ∈ kvs, kv.1 ≠ pegoutType)
    (kernel : MwebKernel) :
    kvs.foldl applyField kernel = { kernel with fields := kvs.foldl table.apply kernel.fields } := by
  induction kvs generalizing kernel with
  | nil => rfl
  | cons kv rest ih =>
    rw [List.forall_mem_cons] at others
    rw [List.foldl_cons, List.foldl_cons, ih others.2, applyField, if_neg others.1]

theorem foldl_fields (fields : List Field) (record : table.Record) (kernel : MwebKernel) :
    (table.kvPairs fields record).foldl applyField kernel = { kernel with
      fields := fun f => if f ∈ fields then (record f).or (kernel.fields f) else kernel.fields f } := by
  rw [foldl_applyField, MwebTable.foldl_kvPairs table_lawful fun f a _ => rereads f a]
  intro kv member
  obtain ⟨f, _, _, _, rfl⟩ := MwebTable.mem_kvPairs.mp member
  exact typeValue_ne_pegout f

theorem foldl_toKvPairs (kernel : MwebKernel) :
    kernel.toKvPairs.foldl applyField default =
      { fields := kernel.fields
        pegouts := (pegoutUpdates kernel.pegouts).foldl (applyAt [] fun _ value => value) []
        unknowns := [] } := by
  rw [toKvPairs, List.foldl_append, List.foldl_append, foldl_fields, foldl_pegoutPairs, foldl_fields]
  simp only [mk.injEq, default, and_true]
  funext f
  cases f <;> simp [afterPegouts, beforePegouts, MwebTable.empty]

/-- A kernel is restored from its pairs exactly when its peg-outs can be told apart
and it has no unknown pairs. -/
theorem foldl_toKvPairs_eq_iff {kernel : MwebKernel} :
    kernel.toKvPairs.foldl applyField default = kernel ↔
      kernel.pegouts.length ≤ 256 ∧ kernel.unknowns = [] := by
  rw [foldl_toKvPairs, ← foldl_pegoutUpdates_eq_iff]
  obtain ⟨fields, pegouts, unknowns⟩ := kernel
  simp [eq_comm]

theorem toKvPairs_eq_nil {kernel : MwebKernel} :
    kernel.toKvPairs = [] ↔ (∀ f, kernel.fields f = none) ∧ kernel.pegouts = [] := by
  have whole : table.kvPairs table.fields kernel.fields = [] ↔ ∀ f, kernel.fields f = none :=
    MwebTable.kvPairs_eq_nil table_lawful
  have split : table.kvPairs table.fields kernel.fields =
      table.kvPairs beforePegouts kernel.fields ++ table.kvPairs afterPegouts kernel.fields := by
    simp only [MwebTable.kvPairs, table, List.flatMap_append]
  rw [← whole, split, toKvPairs]
  simp only [List.append_eq_nil_iff, pegoutPairs, List.map_eq_nil_iff, List.zipIdx_eq_nil_iff]
  tauto

/-- Peg-outs are taken whatever they hold. -/
def accepts (kv : KvPair) : Bool := kv.1 = pegoutType || table.accepts kv

theorem toKvPairs_ne_nil {kernel : MwebKernel} :
    kernel.toKvPairs ≠ [] ↔ (∃ f, kernel.fields f ≠ none) ∨ kernel.pegouts ≠ [] := by
  rw [Ne, toKvPairs_eq_nil, not_and_or, not_forall]

theorem applyField_set (kernel : MwebKernel) (kv : KvPair) :
    (kernel.applyField kv).toKvPairs ≠ [] ↔ kernel.toKvPairs ≠ [] ∨ accepts kv = true := by
  rw [toKvPairs_ne_nil, toKvPairs_ne_nil, applyField, accepts]
  split
  · rename_i pegout
    have filled : applyPegout kernel.pegouts kv.2.1 kv.2.2 ≠ [] := by
      intro empty
      have size := congrArg List.length empty
      simp [applyPegout, length_applyAt] at size
    simp [pegout, filled]
  · rename_i other
    rw [MwebTable.apply_set]
    simp only [other, decide_false, Bool.false_or]
    tauto

end MwebKernel

theorem MwebInput.applyKvField_set [Secp256k1] [Secp256k1.Lawful] (input : MwebInput) (kv : KvPair) :
    (input.applyKvField kv).toKvPairs ≠ [] ↔ input.toKvPairs ≠ [] ∨ MwebInput.table.accepts kv = true := by
  simp only [Ne, MwebInput.toKvPairs_eq_nil, not_forall]
  exact MwebTable.apply_set input kv

theorem MwebOutput.applyField_set (output : MwebOutput) (kv : UInt8 × Bytes) :
    (output.applyField kv).toPairs ≠ [] ↔
      output.toPairs ≠ [] ∨ MwebOutput.table.accepts (kv.1, [], kv.2) = true := by
  simp only [Ne, MwebOutput.toPairs_eq_nil, not_forall]
  exact MwebTable.apply_set output _

end Litecoin.Psbt
