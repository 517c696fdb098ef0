import Litecoin.Psbt.Combine
import Litecoin.Psbt.Keys
import Litecoin.Wire.Outcome

/-! Which keys a combined PSBT has, and where their values come from. -/
namespace Litecoin.Psbt
open Wire Consensus Bip32 Blockdata

theorem Shape.lookup_combine (shape : Shape) (self other : shape.Slot) (key : shape.SubKey) :
    Merges (shape.lookup self key) (shape.lookup other key)
      (shape.lookup (shape.combine self other) key) := by
  cases shape with
  | unkeyed value => exact .left _ _
  | @keyed κ α _ _ _ _ _ =>
    exact .inr (Std.ExtTreeMap.getElem?_union (α := κ) (β := α))

theorem union_merges [Ord κ] [Std.TransOrd κ] (self other : BTreeMap κ α) (key : κ) :
    Merges self[key]? other[key]? (self ∪ other)[key]? := by
  exact .inr Std.ExtTreeMap.getElem?_union

section
variable {G : Type} {mweb : MwebTable G} [DecidableEq F] {table : MapTable F mweb.Record}

theorem MwebTable.combine_merges (self other : mweb.Record) (g : G) :
    Merges (self g) (other g) (mweb.combine self other g) := by
  exact .left _ _

/-- Combined maps merge every key but those of fields that are not listed. -/
theorem FieldMap.lookup_combine {listed : List F} (self other : FieldMap table) {key : MapKey table}
    (isListed : ∀ f sub, key = .field f sub → f ∈ listed) :
    Merges (self.lookup key) (other.lookup key)
      ((FieldMap.combine listed mweb.combine self other).lookup key) := by
  cases key with
  | field f sub =>
    have member := isListed f sub rfl
    simp only [lookup, FieldMap.combine, if_pos member]
    exact Shape.lookup_combine _ _ _ _
  | proprietary key => exact union_merges _ _ _
  | unknown key => exact union_merges _ _ _
  | mweb g => exact MwebTable.combine_merges _ _ _

theorem FieldMap.lookup_combine_unlisted {listed : List F} (self other : FieldMap table) {f : F}
    (unlisted : f ∉ listed) (sub : (table.shape f).SubKey) :
    (FieldMap.combine listed mweb.combine self other).lookup (.field f sub) =
      self.lookup (.field f sub) := by
  have kept : (FieldMap.combine listed mweb.combine self other).fields f = self.fields f :=
    if_neg unlisted
  exact congrArg (fun slot => (table.shape f).lookup slot sub) kept

omit [DecidableEq F] in
theorem FieldMap.lookup_default (none : table.noMweb = mweb.empty) (key : MapKey table) :
    (FieldMap.default table).lookup key = Option.none := by
  cases key with
  | field f sub => exact Shape.lookup_empty _ _
  | proprietary key => exact Std.ExtTreeMap.getElem?_empty
  | unknown key => exact Std.ExtTreeMap.getElem?_empty
  | mweb g =>
    rw [lookup, FieldMap.default, none]
    rfl

end
section
variable [Secp256k1] [Hashes]

namespace Input
open Input.Field

def witnessUtxoKey : MapKey := .field witnessUtxo ()
def nonWitnessUtxoKey : MapKey := .field nonWitnessUtxo ()
def sighashTypeKey : MapKey := .field sighashType ()

/-- A witness UTXO comes in, so the other one goes. -/
def Clears (self other : Input) : Prop :=
  self.lookup witnessUtxoKey = none ∧ other.lookup witnessUtxoKey ≠ none

omit [Secp256k1] [Hashes] in
theorem mem_combined {f : Field} (merged : f ≠ sighashType) : f ∈ combined := by
  cases f <;> first | decide | contradiction

/-- What `combine` does to the listed fields and the maps. -/
def merged (self other : Input) : Input := FieldMap.combine combined MwebInput.combine self other

theorem combine_cases (self other : Input) :
    (Clears self other ∧ combine self other = { merged self other with
      fields := Function.update (merged self other).fields nonWitnessUtxo none }) ∨
    (¬ Clears self other ∧ combine self other = merged self other) := by
  rw [combine]
  split
  · rename_i missing found
    exact .inl ⟨⟨missing, fun absent => absurd (found.symm.trans absent) nofun⟩, rfl⟩
  · rename_i others
    refine .inr ⟨fun clears => ?_, rfl⟩
    obtain ⟨txOut, found⟩ := Option.ne_none_iff_exists'.mp clears.2
    exact others txOut clears.1 found

/-- Every key but the type of sighash and the non-witness UTXO is merged. -/
theorem lookup_combine (self other : Input) {key : MapKey} (plain : key ≠ nonWitnessUtxoKey)
    (merges : key ≠ sighashTypeKey) :
    Merges (self.lookup key) (other.lookup key) ((combine self other).lookup key) := by
  have listed : Merges (self.lookup key) (other.lookup key) ((merged self other).lookup key) := by
    refine FieldMap.lookup_combine self other fun f sub same => mem_combined fun unlisted => ?_
    subst same unlisted
    exact merges rfl
  rcases combine_cases self other with ⟨_, same⟩ | ⟨_, same⟩
  · have kept : (combine self other).lookup key = (merged self other).lookup key := by
      rw [same]
      cases key with
      | field f sub =>
        have other_ : f ≠ nonWitnessUtxo := by
          rintro rfl
          exact plain rfl
        exact congrArg (fun slot => (table.shape f).lookup slot sub)
          (Function.update_of_ne other_ _ _)
      | _ => rfl
    rw [kept]
    exact listed
  · rw [same]
    exact listed

theorem lookup_combine_sighashType (self other : Input) :
    (combine self other).lookup sighashTypeKey = self.lookup sighashTypeKey := by
  have unlisted : sighashType ∉ combined := by decide
  have kept : (merged self other).lookup sighashTypeKey = self.lookup sighashTypeKey :=
    FieldMap.lookup_combine_unlisted self other unlisted ()
  rcases combine_cases self other with ⟨_, same⟩ | ⟨_, same⟩
  · rw [same]
    exact kept
  · rw [same]
    exact kept

theorem lookup_combine_of_clears {self other : Input} (clears : Clears self other) :
    (combine self other).lookup nonWitnessUtxoKey = none := by
  rcases combine_cases self other with ⟨_, same⟩ | ⟨keeps, _⟩
  · rw [same]
    exact Function.update_self nonWitnessUtxo _ (merged self other).fields
  · exact absurd clears keeps

theorem lookup_combine_of_keeps {self other : Input} (keeps : ¬ Clears self other) :
    Merges (self.lookup nonWitnessUtxoKey) (other.lookup nonWitnessUtxoKey)
      ((combine self other).lookup nonWitnessUtxoKey) := by
  rcases combine_cases self other with ⟨clears, _⟩ | ⟨_, same⟩
  · exact absurd clears keeps
  · rw [same]
    refine FieldMap.lookup_combine self other fun f sub same => ?_
    obtain ⟨rfl, _⟩ := MapKey.field.inj same
    decide

end Input

theorem Output.lookup_combine (self other : Output) (key : Output.MapKey) :
    Merges (self.lookup key) (other.lookup key) ((Output.combine self other).lookup key) := by
  refine FieldMap.lookup_combine self other fun f sub _ => ?_
  cases f <;> decide

/-! Maps that hold nothing add nothing. -/

theorem Input.combine_default (self : Input) :
    Input.combine self (FieldMap.default Input.table) = self := by
  have empty (key : Input.MapKey) : (FieldMap.default Input.table).lookup key = none :=
    FieldMap.lookup_default rfl key
  refine FieldMap.ext fun key => ?_
  by_cases utxo : key = Input.nonWitnessUtxoKey
  · subst utxo
    have keeps : ¬ Input.Clears self (FieldMap.default Input.table) := fun clears => clears.2 (empty _)
    exact Merges.eq_left (Input.lookup_combine_of_keeps keeps) (empty _)
  · by_cases sighash : key = Input.sighashTypeKey
    · subst sighash
      exact Input.lookup_combine_sighashType self _
    · exact Merges.eq_left (Input.lookup_combine self _ utxo sighash) (empty _)

theorem Output.combine_default (self : Output) :
    Output.combine self (FieldMap.default Output.table) = self := by
  refine FieldMap.ext fun key => ?_
  exact Merges.eq_left (Output.lookup_combine self _ key) (FieldMap.lookup_default rfl key)

omit [Secp256k1] [Hashes] in
theorem MwebTable.combine_empty (table : MwebTable F) (self : table.Record) :
    table.combine self table.empty = self := by
  funext f
  exact Option.or_none

omit [Secp256k1] [Hashes] in
theorem MwebKernel.combine_default (self : MwebKernel) :
    self.combine MwebKernel.default = self := by
  obtain ⟨fields, pegouts, unknowns⟩ := self
  simp only [MwebKernel.combine, MwebKernel.default, MwebTable.combine_empty, mk.injEq, true_and]
  cases pegouts <;> cases unknowns <;> simp

/-- A PSBT that comes out of `combine`, up to the xpubs. -/
structure Combines (first second result : Psbt) : Prop where
  unsignedTx : first.unsignedTx = second.unsignedTx
  unsignedTx_eq : result.unsignedTx = first.unsignedTx
  version : result.version = max first.version second.version
  xpub : (second.xpub.toList.foldlM combineXpub first.xpub).run = some (.ok result.xpub)
  proprietary : result.proprietary = first.proprietary ∪ second.proprietary
  unknown : result.unknown = first.unknown ∪ second.unknown
  mwebTxOffset : result.mwebTxOffset = first.mwebTxOffset.or second.mwebTxOffset
  mwebStealthOffset : result.mwebStealthOffset = first.mwebStealthOffset.or second.mwebStealthOffset
  mwebKernels : result.mwebKernels =
    mergeVec MwebKernel.default MwebKernel.combine first.mwebKernels second.mwebKernels
  mwebInputs : result.mwebInputs =
    mergeVec MwebInput.table.empty MwebInput.combine first.mwebInputs second.mwebInputs
  mwebOutputs : result.mwebOutputs =
    mergeVec MwebOutput.table.empty MwebOutput.combine first.mwebOutputs second.mwebOutputs
  inputs : result.inputs = mergeZip Input.combine first.inputs second.inputs
  outputs : result.outputs = mergeZip Output.combine first.outputs second.outputs

theorem combine_eq_ok {self other result : Psbt} :
    (self.combine other).run = some (.ok result) ↔ Combines self other result := by
  constructor
  · intro returned
    rw [combine] at returned
    split at returned
    · exact absurd (Option.some.inj returned) nofun
    · rename_i same
      obtain ⟨xpub, folded, built⟩ := run_bind_eq_ok.mp returned
      obtain rfl := run_pure_eq_ok.mp built
      exact ⟨not_not.mp same, rfl, rfl, folded, rfl, rfl, rfl, rfl, rfl, rfl, rfl, rfl, rfl⟩
  · intro combines
    rw [combine, if_neg (not_not.mpr combines.unsignedTx), run_bind_eq_ok]
    refine ⟨result.xpub, combines.xpub, run_pure_eq_ok.mpr ?_⟩
    obtain ⟨unsignedTx, version, xpub, proprietary, unknown, inputs, outputs, txOffset, stealthOffset,
      kernels, mwebInputs, mwebOutputs⟩ := result
    obtain ⟨_, rfl, rfl, _, rfl, rfl, rfl, rfl, rfl, rfl, rfl, rfl, rfl⟩ := combines
    rfl

/-- Only the transactions and the xpubs can stand in the way. -/
theorem combine_succeeds {first second : Psbt} {xpub : BTreeMap Xpub KeySource}
    (same : first.unsignedTx = second.unsignedTx)
    (folded : (second.xpub.toList.foldlM combineXpub first.xpub).run = some (.ok xpub)) :
    ∃ result, (first.combine second).run = some (.ok result) := by
  rw [combine, if_neg (not_not.mpr same)]
  exact ⟨_, run_bind_eq_ok.mpr ⟨xpub, folded, rfl⟩⟩

omit [Hashes] in
/-- A key source is added, replaced or left alone. -/
theorem combineXpub_eq_ok {map next : BTreeMap Xpub KeySource} {key : Xpub} {source : KeySource}
    (done : (combineXpub map (key, source)).run = some (.ok next)) :
    (next = map ∧ map[key]? ≠ none) ∨ next = map.insert key source := by
  simp only [combineXpub] at done
  split at done
  · exact .inr (Except.ok.inj (Option.some.inj done)).symm
  · rename_i found
    split_ifs at done
    · exact .inl ⟨(Except.ok.inj (Option.some.inj done)).symm, by simp [found]⟩
    · exact absurd done nofun
    · exact .inr (Except.ok.inj (Option.some.inj done)).symm
    · exact absurd (Option.some.inj done) nofun

omit [Hashes] in
/-- The loop over the xpubs loses no key and invents no value. -/
theorem foldlM_combineXpub {entries : List (Xpub × KeySource)} {map final : BTreeMap Xpub KeySource}
    (done : (entries.foldlM combineXpub map).run = some (.ok final)) :
    (∀ (key : Xpub) source, final[key]? = some source →
      map[key]? = some source ∨ (key, source) ∈ entries) ∧
      (∀ key : Xpub, map[key]? ≠ none → final[key]? ≠ none) ∧
      ∀ entry ∈ entries, final[entry.1]? ≠ none := by
  induction entries generalizing map with
  | nil =>
    obtain rfl := Except.ok.inj (Option.some.inj done)
    exact ⟨fun _ _ found => .inl found, fun _ found => found, by simp⟩
  | cons entry entries ih =>
    obtain ⟨key, source⟩ := entry
    rw [List.foldlM_cons, run_bind_eq_ok] at done
    obtain ⟨next, stepped, done⟩ := done
    obtain ⟨sources, kept, added⟩ := ih done
    rcases combineXpub_eq_ok stepped with ⟨rfl, present⟩ | rfl
    · refine ⟨fun j w found => ?_, kept, List.forall_mem_cons.mpr ⟨kept key present, added⟩⟩
      exact (sources j w found).imp_right (List.mem_cons_of_mem _)
    · have grown (j : Xpub) (found : map[j]? ≠ none) : (map.insert key source)[j]? ≠ none := by
        rw [Std.ExtTreeMap.getElem?_insert]
        split
        · simp
        · exact found
      refine ⟨fun j w found => ?_, fun j found => kept j (grown j found),
        List.forall_mem_cons.mpr ⟨kept key (by simp), added⟩⟩
      rcases sources j w found with early | late
      · rw [Std.ExtTreeMap.getElem?_insert] at early
        split at early
        · rename_i same
          rw [← Std.LawfulEqCmp.eq_of_compare same, ← Option.some.inj early]
          exact .inr List.mem_cons_self
        · exact .inl early
      · exact .inr (List.mem_cons_of_mem _ late)

namespace Combines
variable {first second result : Psbt}

theorem kernelAt (combines : Combines first second result) (i : Nat) :
    result.kernelAt i = (first.kernelAt i).combine (second.kernelAt i) := by
  rw [Psbt.kernelAt, combines.mwebKernels, getD_mergeVec MwebKernel.combine_default]
  rfl

theorem mwebInputAt (combines : Combines first second result) (i : Nat) :
    result.mwebInputAt i = MwebInput.combine (first.mwebInputAt i) (second.mwebInputAt i) := by
  rw [Psbt.mwebInputAt, combines.mwebInputs]
  exact getD_mergeVec (MwebTable.combine_empty MwebInput.table) _ _ i

theorem mwebOutputAt (combines : Combines first second result) (i : Nat) :
    result.mwebOutputAt i = MwebOutput.combine (first.mwebOutputAt i) (second.mwebOutputAt i) := by
  rw [Psbt.mwebOutputAt, combines.mwebOutputs]
  exact getD_mergeVec (MwebTable.combine_empty MwebOutput.table) _ _ i

theorem inputAt (combines : Combines first second result) (i : Nat) :
    result.inputAt i = if i < first.inputs.length then
      Input.combine (first.inputAt i) (second.inputAt i) else FieldMap.default Input.table := by
  rw [Psbt.inputAt, combines.inputs, getD_mergeZip Input.combine_default]
  rfl

theorem outputAt (combines : Combines first second result) (i : Nat) :
    result.outputAt i = if i < first.outputs.length then
      Output.combine (first.outputAt i) (second.outputAt i) else FieldMap.default Output.table := by
  rw [Psbt.outputAt, combines.outputs, getD_mergeZip Output.combine_default]
  rfl

end Combines

/-- The keys that combining takes away: those of maps the first PSBT has no place for, a
non-witness UTXO that a witness UTXO displaces, and entries of a kernel list that the
first PSBT has a list of its own for. -/
def Dropped (first second : Psbt) : PsbtKey → Prop
  | .kernelPegout i j => (first.kernelAt i).pegouts ≠ [] ∧ ¬ first.Has (.kernelPegout i j)
  | .kernelUnknown i key => (first.kernelAt i).unknowns ≠ [] ∧ ¬ first.Has (.kernelUnknown i key)
  | .input i key => first.inputs.length ≤ i ∨
    (key = Input.nonWitnessUtxoKey ∧ Input.Clears (first.inputAt i) (second.inputAt i))
  | .output i _ => first.outputs.length ≤ i
  | _ => False

/-- A key whose values merge is neither lost nor made up. -/
theorem kept_of_merges {first second result : Psbt} {key : PsbtKey} {a b r : Option key.Value}
    (left : ∀ value, first.Holds key value ↔ a = some value)
    (right : ∀ value, second.Holds key value ↔ b = some value)
    (both : ∀ value, result.Holds key value ↔ r = some value) (merges : Merges a b r) :
    (∀ value, result.Holds key value → first.Holds key value ∨ second.Holds key value) ∧
      (result.Has key ↔ first.Has key ∨ second.Has key) := by
  have present (psbt : Psbt) (o : Option key.Value) (holds : ∀ value, psbt.Holds key value ↔ o = some value) :
      psbt.Has key ↔ o ≠ none := by
    simp only [Has, holds, Option.ne_none_iff_exists']
  refine ⟨fun value held => ?_, ?_⟩
  · rw [left, right]
    exact merges.source ((both value).mp held)
  · rw [present _ _ left, present _ _ right, present _ _ both, ne_eq, merges.eq_none_iff, not_and_or]

/-- What becomes of one key: its value comes from either side, and it is there unless it
was dropped. The type of sighash is left out of the latter. -/
def Accounted (first second result : Psbt) (key : PsbtKey) : Prop :=
  (∀ value, result.Holds key value → first.Holds key value ∨ second.Holds key value) ∧
    ((∀ i, key ≠ .input i Input.sighashTypeKey) →
      (result.Has key ↔ (first.Has key ∨ second.Has key) ∧ ¬ Dropped first second key))

theorem Accounted.of_kept {first second result : Psbt} {key : PsbtKey}
    (kept : (∀ value, result.Holds key value → first.Holds key value ∨ second.Holds key value) ∧
      (result.Has key ↔ first.Has key ∨ second.Has key))
    (undropped : ¬ Dropped first second key) : Accounted first second result key := by
  refine ⟨kept.1, fun _ => ?_⟩
  rw [kept.2, and_iff_left undropped]

/-- A key that is taken from the first PSBT alone. -/
theorem Accounted.of_first {first second result : Psbt} {key : PsbtKey}
    (same : ∀ value, result.Holds key value ↔ first.Holds key value)
    (dropped : Dropped first second key ↔ ¬ first.Has key) : Accounted first second result key := by
  have present : result.Has key ↔ first.Has key := exists_congr same
  refine ⟨fun value held => .inl ((same value).mp held), fun _ => ?_⟩
  rw [present, dropped]
  tauto

/-- A key that is dropped. -/
theorem Accounted.of_gone {first second result : Psbt} {key : PsbtKey}
    (gone : ∀ value, ¬ result.Holds key value) (dropped : Dropped first second key) :
    Accounted first second result key := by
  refine ⟨fun value held => absurd held (gone value), fun _ => ?_⟩
  exact iff_of_false (fun ⟨value, held⟩ => gone value held) fun kept => kept.2 dropped

/-- A key that the first PSBT does not have and that is taken from the second. -/
theorem Accounted.of_second {first second result : Psbt} {key : PsbtKey}
    (same : ∀ value, result.Holds key value ↔ second.Holds key value) (missing : ¬ first.Has key)
    (undropped : ¬ Dropped first second key) : Accounted first second result key := by
  have present : result.Has key ↔ second.Has key := exists_congr same
  refine ⟨fun value held => .inr ((same value).mp held), fun _ => ?_⟩
  rw [present, and_iff_left undropped, or_iff_right missing]

/-- An entry of a list that is taken as a whole, and only where there is none. -/
theorem Accounted.of_list {first second result : Psbt} {key : PsbtKey} {left right both : List α}
    (entry : List α → key.Value → Prop) (none : ∀ value, ¬ entry [] value)
    (holdsFirst : ∀ value, first.Holds key value ↔ entry left value)
    (holdsSecond : ∀ value, second.Holds key value ↔ entry right value)
    (holdsResult : ∀ value, result.Holds key value ↔ entry both value)
    (taken : both = if left.isEmpty then right else left)
    (dropped : Dropped first second key ↔ left ≠ [] ∧ ¬ first.Has key) :
    Accounted first second result key := by
  by_cases empty : left = []
  · rw [if_pos (by simp [empty])] at taken
    refine .of_second (fun value => ?_) ?_ fun lost => (dropped.mp lost).1 empty
    · rw [holdsResult, holdsSecond, taken]
    · rintro ⟨value, held⟩
      rw [holdsFirst, empty] at held
      exact none value held
  · rw [if_neg (by simpa using empty)] at taken
    refine .of_first (fun value => ?_) (dropped.trans (and_iff_right empty))
    rw [holdsResult, holdsFirst, taken]

namespace Combines
variable {first second result : Psbt}

theorem version_accounted (combines : Combines first second result) :
    Accounted first second result .version := by
  have chosen : result.version =
      if first.version ≤ second.version then second.version else first.version := combines.version
  have larger : result.version = first.version ∨ result.version = second.version := by
    rw [chosen]
    split_ifs
    · exact .inr rfl
    · exact .inl rfl
  have positive : 0 < result.version ↔ 0 < first.version ∨ 0 < second.version := by
    rw [chosen]
    simp only [UInt32.lt_iff_toNat_lt, UInt32.le_iff_toNat_le, UInt32.toNat_zero]
    split_ifs <;> omega
  refine .of_kept ⟨?_, ?_⟩ id
  · rintro value ⟨rfl, above⟩
    rcases larger with same | same
    · exact .inl ⟨same.symm, same ▸ above⟩
    · exact .inr ⟨same.symm, same ▸ above⟩
  · have present (psbt : Psbt) : psbt.Has .version ↔ 0 < psbt.version := by
      constructor
      · rintro ⟨_, _, above⟩
        exact above
      · exact fun above => ⟨psbt.version, rfl, above⟩
    rw [present, present, present, positive]

theorem xpub_accounted (combines : Combines first second result) (key : Xpub) :
    Accounted first second result (.xpub key) := by
  obtain ⟨sources, kept, added⟩ := foldlM_combineXpub combines.xpub
  have listed (source : KeySource) : (key, source) ∈ second.xpub.toList ↔
      second.xpub[key]? = some source := Std.ExtTreeMap.mem_toList_iff_getElem?_eq_some
  have present (psbt : Psbt) : psbt.Has (.xpub key) ↔ psbt.xpub[key]? ≠ none :=
    Option.ne_none_iff_exists'.symm
  refine .of_kept ⟨fun source held => ?_, ?_⟩ id
  · exact (sources key source held).imp_right (listed source).mp
  · rw [present, present, present]
    constructor
    · intro found
      obtain ⟨source, held⟩ := Option.ne_none_iff_exists'.mp found
      rcases sources key source held with left | right
      · exact .inl (by simp [left])
      · exact .inr (by simp [(listed source).mp right])
    · rintro (left | right)
      · exact kept key left
      · obtain ⟨source, held⟩ := Option.ne_none_iff_exists'.mp right
        exact added (key, source) ((listed source).mpr held)

theorem pegout_accounted (combines : Combines first second result) (i j : Nat) :
    Accounted first second result (.kernelPegout i j) := by
  refine .of_list (fun list value => list[j]? = some value) (fun _ => nofun) (fun _ => Iff.rfl)
    (fun _ => Iff.rfl) (fun _ => Iff.rfl) ?_ Iff.rfl
  rw [combines.kernelAt i]
  rfl

theorem kernelUnknown_accounted (combines : Combines first second result) (i : Nat) (key : Bytes) :
    Accounted first second result (.kernelUnknown i key) := by
  refine .of_list (fun list value => (key, value) ∈ list) (fun _ => List.not_mem_nil)
    (fun _ => Iff.rfl) (fun _ => Iff.rfl) (fun _ => Iff.rfl) ?_ Iff.rfl
  rw [combines.kernelAt i]
  rfl

theorem input_accounted (combines : Combines first second result) (i : Nat) (key : Input.MapKey) :
    Accounted first second result (.input i key) := by
  by_cases inside : i < first.inputs.length
  · have at_ := combines.inputAt i
    rw [if_pos inside] at at_
    by_cases utxo : key = Input.nonWitnessUtxoKey
    · subst utxo
      by_cases clears : Input.Clears (first.inputAt i) (second.inputAt i)
      · refine .of_gone (fun value held => ?_) (.inr ⟨rfl, clears⟩)
        rw [Holds, at_, Input.lookup_combine_of_clears clears] at held
        exact absurd held nofun
      · refine .of_kept (kept_of_merges (fun _ => Iff.rfl) (fun _ => Iff.rfl) (fun _ => Iff.rfl) ?_) ?_
        · rw [at_]
          exact Input.lookup_combine_of_keeps clears
        · rintro (beyond | ⟨_, cleared⟩)
          · exact absurd inside (Nat.not_lt.mpr beyond)
          · exact clears cleared
    · by_cases sighash : key = Input.sighashTypeKey
      · subst sighash
        have same (value) : result.Holds (.input i Input.sighashTypeKey) value ↔
            first.Holds (.input i Input.sighashTypeKey) value := by
          rw [Holds, Holds, at_, Input.lookup_combine_sighashType]
        exact ⟨fun value held => .inl ((same value).mp held), fun other => absurd rfl (other i)⟩
      · refine .of_kept (kept_of_merges (fun _ => Iff.rfl) (fun _ => Iff.rfl) (fun _ => Iff.rfl) ?_) ?_
        · rw [at_]
          exact Input.lookup_combine _ _ utxo sighash
        · rintro (beyond | ⟨cleared, _⟩)
          · exact absurd inside (Nat.not_lt.mpr beyond)
          · exact utxo cleared
  · refine .of_gone (fun value held => ?_) (.inl (Nat.le_of_not_lt inside))
    have empty : (FieldMap.default Input.table).lookup key = none := FieldMap.lookup_default rfl key
    rw [Holds, combines.inputAt i, if_neg inside, empty] at held
    exact absurd held nofun

theorem output_accounted (combines : Combines first second result) (i : Nat) (key : Output.MapKey) :
    Accounted first second result (.output i key) := by
  by_cases inside : i < first.outputs.length
  · have at_ := combines.outputAt i
    rw [if_pos inside] at at_
    refine .of_kept (kept_of_merges (fun _ => Iff.rfl) (fun _ => Iff.rfl) (fun _ => Iff.rfl) ?_)
      (Nat.not_le.mpr inside)
    rw [at_]
    exact Output.lookup_combine _ _ key
  · refine .of_gone (fun value held => ?_) (Nat.le_of_not_lt inside)
    have empty : (FieldMap.default Output.table).lookup key = none := FieldMap.lookup_default rfl key
    rw [Holds, combines.outputAt i, if_neg inside, empty] at held
    exact absurd held nofun

theorem accounted (combines : Combines first second result) (key : PsbtKey) :
    Accounted first second result key := by
  have plain {key : PsbtKey} {a b r : Option key.Value}
      (left : ∀ value, first.Holds key value ↔ a = some value)
      (right : ∀ value, second.Holds key value ↔ b = some value)
      (both : ∀ value, result.Holds key value ↔ r = some value) (merges : Merges a b r)
      (undropped : ¬ Dropped first second key) : Accounted first second result key :=
    .of_kept (kept_of_merges left right both merges) undropped
  cases key with
  | version => exact combines.version_accounted
  | xpub key => exact combines.xpub_accounted key
  | proprietary key =>
    refine plain (fun _ => Iff.rfl) (fun _ => Iff.rfl) (fun _ => Iff.rfl) ?_ id
    rw [combines.proprietary]
    exact union_merges _ _ key
  | unknown key =>
    refine plain (fun _ => Iff.rfl) (fun _ => Iff.rfl) (fun _ => Iff.rfl) ?_ id
    rw [combines.unknown]
    exact union_merges _ _ key
  | mwebTxOffset =>
    refine plain (fun _ => Iff.rfl) (fun _ => Iff.rfl) (fun _ => Iff.rfl) ?_ id
    rw [combines.mwebTxOffset]
    exact .left _ _
  | mwebStealthOffset =>
    refine plain (fun _ => Iff.rfl) (fun _ => Iff.rfl) (fun _ => Iff.rfl) ?_ id
    rw [combines.mwebStealthOffset]
    exact .left _ _
  | kernelField i f =>
    refine plain (fun _ => Iff.rfl) (fun _ => Iff.rfl) (fun _ => Iff.rfl) ?_ id
    rw [combines.kernelAt i]
    exact MwebTable.combine_merges _ _ f
  | kernelPegout i j => exact combines.pegout_accounted i j
  | kernelUnknown i key => exact combines.kernelUnknown_accounted i key
  | mwebInput i f =>
    refine plain (fun _ => Iff.rfl) (fun _ => Iff.rfl) (fun _ => Iff.rfl) ?_ id
    rw [combines.mwebInputAt i]
    exact MwebTable.combine_merges _ _ f
  | mwebOutput i f =>
    refine plain (fun _ => Iff.rfl) (fun _ => Iff.rfl) (fun _ => Iff.rfl) ?_ id
    rw [combines.mwebOutputAt i]
    exact MwebTable.combine_merges _ _ f
  | input i key => exact combines.input_accounted i key
  | output i key => exact combines.output_accounted i key

end Combines

/-- Combining makes up no key and no value, and keeps every key that it does not drop. -/
theorem combine_keeps_keys {first second result : Psbt}
    (returned : (first.combine second).run = some (.ok result)) :
    (∀ key value, result.Holds key value → first.Holds key value ∨ second.Holds key value) ∧
      ∀ key, (∀ i, key ≠ .input i Input.sighashTypeKey) →
        (result.Has key ↔ (first.Has key ∨ second.Has key) ∧ ¬ Dropped first second key) := by
  have combines := combine_eq_ok.mp returned
  exact ⟨fun key => (combines.accounted key).1, fun key => (combines.accounted key).2⟩

end
section
attribute [local instance] Secp256k1.generatorOnly Hashes.ofEmpty

/-- A transaction with one input and one output. -/
def payment : Transaction where
  version := 2
  lockTime := .fromConsensus 0
  input := ⟨[{ previousOutput := { txid := ⟨List.replicate 32 7, rfl⟩, vout := 0 }
               scriptSig := .empty, sequence := 0xffffffff, witness := .new }], by decide⟩
  output := ⟨[{ value := 1000, scriptPubkey := .empty }], by decide⟩
  mwTx := none
  isHogEx := false

/-- A PSBT for the payment that holds one field for its input and one kernel. -/
def paying (f : Input.Field) (slot : (Input.table.shape f).Slot) (kernel : MwebKernel) : Psbt where
  unsignedTx := payment
  version := 0
  xpub := ∅
  proprietary := ∅
  unknown := ∅
  inputs := [{ FieldMap.default Input.table with
    fields := Function.update (FieldMap.default Input.table).fields f slot }]
  outputs := [FieldMap.default Output.table]
  mwebTxOffset := none
  mwebStealthOffset := none
  mwebKernels := [kernel]
  mwebInputs := []
  mwebOutputs := []

/-- The transaction that is spent, and a kernel with a peg-out. -/
def spender : Psbt :=
  paying .nonWitnessUtxo (some payment) { MwebKernel.default with pegouts := [[1]] }

/-- The output that is spent, and the same kernel with one more peg-out. -/
def cosigner : Psbt :=
  paying .witnessUtxo (some { value := 1000, scriptPubkey := .empty })
    { MwebKernel.default with pegouts := [[1], [2]] }

theorem combine_spender_cosigner : ∃ result, (spender.combine cosigner).run = some (.ok result) := by
  exact combine_succeeds rfl rfl

/-- The transaction that is spent goes, and so does the second peg-out. -/
theorem cosigner_displaces : ∃ result, (spender.combine cosigner).run = some (.ok result) ∧
    spender.Has (.input 0 Input.nonWitnessUtxoKey) ∧
    ¬ result.Has (.input 0 Input.nonWitnessUtxoKey) ∧
    cosigner.Has (.kernelPegout 0 1) ∧ ¬ result.Has (.kernelPegout 0 1) := by
  obtain ⟨result, returned⟩ := combine_spender_cosigner
  have combines := combine_eq_ok.mp returned
  have clears : Input.Clears (spender.inputAt 0) (cosigner.inputAt 0) := ⟨rfl, nofun⟩
  have pegouts : (result.kernelAt 0).pegouts = [[1]] := by
    rw [combines.kernelAt]
    rfl
  refine ⟨result, returned, ⟨payment, rfl⟩, ?_, ⟨[2], rfl⟩, ?_⟩
  · rintro ⟨value, held⟩
    have at_ : result.inputAt 0 = Input.combine (spender.inputAt 0) (cosigner.inputAt 0) :=
      combines.inputAt 0
    rw [Holds, at_, Input.lookup_combine_of_clears clears] at held
    exact absurd held nofun
  · rintro ⟨value, held⟩
    rw [Holds, pegouts] at held
    exact absurd held nofun

/-- The output that is spent comes in. -/
theorem cosigner_adds : ∃ result, (spender.combine cosigner).run = some (.ok result) ∧
    result.Has (.input 0 Input.witnessUtxoKey) := by
  obtain ⟨result, returned⟩ := combine_spender_cosigner
  refine ⟨result, returned, ?_⟩
  have kept := (combine_keeps_keys returned).2 (.input 0 Input.witnessUtxoKey)
  refine (kept fun i same => ?_).mpr ⟨.inr ⟨_, rfl⟩, ?_⟩
  · exact absurd (PsbtKey.input.inj same).2 nofun
  · rintro (beyond | ⟨same, _⟩)
    · exact absurd beyond (by decide)
    · exact absurd same nofun

end
end Litecoin.Psbt
