import Litecoin.Psbt.CombineKeys

/-! When the order of combining does not matter: for two PSBTs that agree, and for the
grouping of three. -/
namespace Litecoin.Psbt
open Wire Consensus Bip32 Blockdata

section
variable {G : Type} {mweb : MwebTable G} {table : MapTable F mweb.Record}

/-- Every key that both maps have has one value. -/
def FieldMap.Agrees (self other : FieldMap table) : Prop :=
  ∀ key, Agree (self.lookup key) (other.lookup key)

theorem FieldMap.Agrees.symm {self other : FieldMap table} (agrees : self.Agrees other) :
    other.Agrees self := by
  intro key
  exact (agrees key).symm

end
section
variable [Secp256k1] [Hashes]

namespace Input
variable {a b c : Input}

/-- Keys that `combine` takes from either side. -/
def Plain (key : MapKey) : Prop := key ≠ nonWitnessUtxoKey ∧ key ≠ sighashTypeKey

theorem lookup_combine_plain (agrees : a.Agrees b) {key : MapKey} (plain : Plain key) :
    (combine a b).lookup key = (a.lookup key).or (b.lookup key) := by
  exact (lookup_combine a b plain.1 plain.2).eq_or (agrees key)

theorem lookup_combine_kept (agrees : a.Agrees b) (keeps : ¬ Clears a b) :
    (combine a b).lookup nonWitnessUtxoKey =
      (a.lookup nonWitnessUtxoKey).or (b.lookup nonWitnessUtxoKey) := by
  exact (lookup_combine_of_keeps keeps).eq_or (agrees nonWitnessUtxoKey)

/-- Two input maps are the same if they are so at every plain key and at the two others. -/
theorem ext_plain (plain : ∀ key, Plain key → a.lookup key = b.lookup key)
    (sighash : a.lookup sighashTypeKey = b.lookup sighashTypeKey)
    (utxo : a.lookup nonWitnessUtxoKey = b.lookup nonWitnessUtxoKey) : a = b := by
  refine FieldMap.ext fun key => ?_
  by_cases isUtxo : key = nonWitnessUtxoKey
  · rw [isUtxo, utxo]
  · by_cases isSighash : key = sighashTypeKey
    · rw [isSighash, sighash]
    · exact plain key ⟨isUtxo, isSighash⟩

theorem witnessUtxo_plain : Plain witnessUtxoKey := ⟨nofun, nofun⟩

theorem lookup_combine_witnessUtxo (agrees : a.Agrees b) :
    (combine a b).lookup witnessUtxoKey = none ↔
      a.lookup witnessUtxoKey = none ∧ b.lookup witnessUtxoKey = none := by
  rw [lookup_combine_plain agrees witnessUtxo_plain, Option.or_eq_none_iff]

theorem agrees_combine (left : a.Agrees c) (right : b.Agrees c) : (combine a b).Agrees c := by
  intro key
  by_cases isUtxo : key = nonWitnessUtxoKey
  · subst isUtxo
    by_cases clears : Clears a b
    · rw [lookup_combine_of_clears clears]
      exact nofun
    · exact (lookup_combine_of_keeps clears).agree (left _) (right _)
  · by_cases isSighash : key = sighashTypeKey
    · subst isSighash
      rw [lookup_combine_sighashType]
      exact left _
    · exact (lookup_combine a b isUtxo isSighash).agree (left key) (right key)

theorem Clears.keeps (clears : Clears a b) : ¬ Clears b a := by
  intro back
  exact clears.2 back.1

/-- What `combine` needs of two agreeing maps to be commutative. -/
structure Mergeable (a b : Input) : Prop where
  sighashType : a.lookup sighashTypeKey = none ↔ b.lookup sighashTypeKey = none
  utxo : (a.lookup witnessUtxoKey = none ↔ b.lookup witnessUtxoKey = none) ∨
    (a.lookup nonWitnessUtxoKey = none ∧ b.lookup nonWitnessUtxoKey = none)

theorem utxo_comm_iff (agrees : a.Agrees b) :
    (combine a b).lookup nonWitnessUtxoKey = (combine b a).lookup nonWitnessUtxoKey ↔
      (a.lookup witnessUtxoKey = none ↔ b.lookup witnessUtxoKey = none) ∨
        (a.lookup nonWitnessUtxoKey = none ∧ b.lookup nonWitnessUtxoKey = none) := by
  by_cases clears : Clears a b
  · have unequal : ¬ (a.lookup witnessUtxoKey = none ↔ b.lookup witnessUtxoKey = none) :=
      fun same => clears.2 (same.mp clears.1)
    rw [lookup_combine_of_clears clears, lookup_combine_kept agrees.symm clears.keeps, eq_comm,
      Option.or_eq_none_iff, or_iff_right unequal, and_comm]
  · by_cases back : Clears b a
    · have unequal : ¬ (a.lookup witnessUtxoKey = none ↔ b.lookup witnessUtxoKey = none) :=
        fun same => back.2 (same.mpr back.1)
      rw [lookup_combine_of_clears back, lookup_combine_kept agrees clears, Option.or_eq_none_iff,
        or_iff_right unequal]
    · have same : a.lookup witnessUtxoKey = none ↔ b.lookup witnessUtxoKey = none :=
        ⟨fun missing => not_not.mp fun found => clears ⟨missing, found⟩,
          fun missing => not_not.mp fun found => back ⟨missing, found⟩⟩
      rw [lookup_combine_kept agrees clears, lookup_combine_kept agrees.symm back,
        (agrees nonWitnessUtxoKey).or_comm]
      exact iff_of_true rfl (.inl same)

theorem combine_comm_iff (agrees : a.Agrees b) : combine a b = combine b a ↔ Mergeable a b := by
  constructor
  · intro same
    refine ⟨?_, (utxo_comm_iff agrees).mp (by rw [same])⟩
    have sighash := congrArg (FieldMap.lookup · sighashTypeKey) same
    simp only [lookup_combine_sighashType] at sighash
    rw [sighash]
  · rintro ⟨sighash, utxo⟩
    refine ext_plain (fun key plain => ?_) ?_ ((utxo_comm_iff agrees).mpr utxo)
    · rw [lookup_combine_plain agrees plain, lookup_combine_plain agrees.symm plain,
        (agrees key).or_comm]
    · rw [lookup_combine_sighashType, lookup_combine_sighashType]
      exact (agrees sighashTypeKey).eq_iff.mpr sighash

/-- What `combine` needs of three agreeing maps to be associative: no non-witness UTXO
comes in after the first was displaced, and none is displaced that would have stayed. -/
structure Regroupable (a b c : Input) : Prop where
  late : Clears a b → c.lookup nonWitnessUtxoKey = none
  early : Clears b c → a.lookup witnessUtxoKey ≠ none → a.lookup nonWitnessUtxoKey = none →
    b.lookup nonWitnessUtxoKey = none ∧ c.lookup nonWitnessUtxoKey = none

section
variable (ab : a.Agrees b) (bc : b.Agrees c) (ac : a.Agrees c)
include ab bc ac

/-- A witness UTXO comes in with the second map. -/
theorem utxo_assoc_of_clears (clears : Clears a b) :
    (combine (combine a b) c).lookup nonWitnessUtxoKey =
        (combine a (combine b c)).lookup nonWitnessUtxoKey ↔ c.lookup nonWitnessUtxoKey = none := by
  have keeps : ¬ Clears (combine a b) c := fun again =>
    clears.2 ((lookup_combine_witnessUtxo ab).mp again.1).2
  have displaced : Clears a (combine b c) :=
    ⟨clears.1, fun missing => clears.2 ((lookup_combine_witnessUtxo bc).mp missing).1⟩
  rw [lookup_combine_kept (agrees_combine ac bc) keeps, lookup_combine_of_clears clears,
    lookup_combine_of_clears displaced, Option.none_or]

/-- The first map has a witness UTXO. -/
theorem utxo_assoc_of_witness (witness : a.lookup witnessUtxoKey ≠ none) :
    (combine (combine a b) c).lookup nonWitnessUtxoKey =
        (combine a (combine b c)).lookup nonWitnessUtxoKey ↔
      (Clears b c → a.lookup nonWitnessUtxoKey = none →
        b.lookup nonWitnessUtxoKey = none ∧ c.lookup nonWitnessUtxoKey = none) := by
  have first : ¬ Clears a b := fun clears => witness clears.1
  have whole : ¬ Clears a (combine b c) := fun clears => witness clears.1
  have last : ¬ Clears (combine a b) c := fun clears =>
    witness ((lookup_combine_witnessUtxo ab).mp clears.1).1
  rw [lookup_combine_kept (agrees_combine ac bc) last, lookup_combine_kept ab first,
    lookup_combine_kept (agrees_combine ab.symm ac.symm).symm whole, Option.or_assoc]
  by_cases clears : Clears b c
  · rw [lookup_combine_of_clears clears, Option.or_none]
    cases a.lookup nonWitnessUtxoKey <;> simp [clears]
  · rw [lookup_combine_kept bc clears]
    exact iff_of_true rfl fun displaced => absurd displaced clears

/-- Neither of the first two maps has a witness UTXO. -/
theorem utxo_assoc_of_none (first : a.lookup witnessUtxoKey = none)
    (second : b.lookup witnessUtxoKey = none) :
    (combine (combine a b) c).lookup nonWitnessUtxoKey =
      (combine a (combine b c)).lookup nonWitnessUtxoKey := by
  have keeps : ¬ Clears a b := fun clears => clears.2 second
  have left : (combine a b).lookup witnessUtxoKey = none :=
    (lookup_combine_witnessUtxo ab).mpr ⟨first, second⟩
  by_cases third : c.lookup witnessUtxoKey = none
  · have right : (combine b c).lookup witnessUtxoKey = none :=
      (lookup_combine_witnessUtxo bc).mpr ⟨second, third⟩
    rw [lookup_combine_kept (agrees_combine ac bc) fun clears => clears.2 third,
      lookup_combine_kept ab keeps,
      lookup_combine_kept (agrees_combine ab.symm ac.symm).symm fun clears => clears.2 right,
      lookup_combine_kept bc fun clears => clears.2 third, Option.or_assoc]
  · have right : (combine b c).lookup witnessUtxoKey ≠ none := fun missing =>
      third ((lookup_combine_witnessUtxo bc).mp missing).2
    rw [lookup_combine_of_clears ⟨left, third⟩, lookup_combine_of_clears ⟨first, right⟩]

theorem utxo_assoc_iff : (combine (combine a b) c).lookup nonWitnessUtxoKey =
    (combine a (combine b c)).lookup nonWitnessUtxoKey ↔ Regroupable a b c := by
  by_cases first : a.lookup witnessUtxoKey = none
  · by_cases second : b.lookup witnessUtxoKey = none
    · refine iff_of_true (utxo_assoc_of_none ab bc ac first second) ⟨fun clears => ?_, fun _ found => ?_⟩
      · exact absurd second clears.2
      · exact absurd first found
    · rw [utxo_assoc_of_clears ab bc ac ⟨first, second⟩]
      exact ⟨fun missing => ⟨fun _ => missing, fun _ found => absurd first found⟩,
        fun regroupable => regroupable.late ⟨first, second⟩⟩
  · rw [utxo_assoc_of_witness ab bc ac first]
    exact ⟨fun early => ⟨fun clears => absurd clears.1 first, fun clears _ => early clears⟩,
      fun regroupable clears => regroupable.early clears first⟩

theorem combine_assoc_iff :
    combine (combine a b) c = combine a (combine b c) ↔ Regroupable a b c := by
  rw [← utxo_assoc_iff ab bc ac]
  refine ⟨fun same => by rw [same], fun utxo => ext_plain (fun key plain => ?_) ?_ utxo⟩
  · rw [lookup_combine_plain (agrees_combine ac bc) plain, lookup_combine_plain ab plain,
      lookup_combine_plain (agrees_combine ab.symm ac.symm).symm plain, lookup_combine_plain bc plain,
      Option.or_assoc]
  · rw [lookup_combine_sighashType, lookup_combine_sighashType, lookup_combine_sighashType]

end

theorem Mergeable.regroupable (ab : Mergeable a b) (bc : Mergeable b c) (ac : Mergeable a c) :
    Regroupable a b c := by
  have first := ab.utxo
  have second := bc.utxo
  have outer := ac.utxo
  refine ⟨fun clears => ?_, fun clears witness _ => ?_⟩
  · obtain ⟨missing, found⟩ := clears
    tauto
  · obtain ⟨missing, found⟩ := clears
    tauto

/-- The other map has no key of its own to add. -/
def Covers (a c : Input) : Prop :=
  ∀ key, key ≠ sighashTypeKey → a.lookup key = none → c.lookup key = none

theorem combine_eq_self_iff (agrees : a.Agrees c) : combine a c = a ↔ Covers a c := by
  constructor
  · intro same
    have keeps : ¬ Clears a c := by
      intro clears
      have missing := clears.1
      rw [← same, lookup_combine_witnessUtxo agrees] at missing
      exact clears.2 missing.2
    intro key isSighash
    rw [← or_eq_left_iff]
    by_cases isUtxo : key = nonWitnessUtxoKey
    · rw [isUtxo, ← lookup_combine_kept agrees keeps, same]
    · rw [← lookup_combine_plain agrees ⟨isUtxo, isSighash⟩, same]
  · intro covers
    have keeps : ¬ Clears a c := fun clears => clears.2 (covers witnessUtxoKey nofun clears.1)
    refine ext_plain (fun key plain => ?_) (lookup_combine_sighashType a c) ?_
    · rw [lookup_combine_plain agrees plain, or_eq_left_iff]
      exact covers key plain.2
    · rw [lookup_combine_kept agrees keeps, or_eq_left_iff]
      exact covers nonWitnessUtxoKey nofun

end Input

namespace Output
variable {a b c : Output}

theorem lookup_combine_of_agrees (agrees : a.Agrees b) (key : MapKey) :
    (combine a b).lookup key = (a.lookup key).or (b.lookup key) := by
  exact (lookup_combine a b key).eq_or (agrees key)

theorem agrees_combine (left : a.Agrees c) (right : b.Agrees c) : (combine a b).Agrees c := by
  intro key
  exact (lookup_combine a b key).agree (left key) (right key)

theorem combine_comm (agrees : a.Agrees b) : combine a b = combine b a := by
  refine FieldMap.ext fun key => ?_
  rw [lookup_combine_of_agrees agrees, lookup_combine_of_agrees agrees.symm, (agrees key).or_comm]

theorem combine_assoc (ab : a.Agrees b) (bc : b.Agrees c) (ac : a.Agrees c) :
    combine (combine a b) c = combine a (combine b c) := by
  refine FieldMap.ext fun key => ?_
  rw [lookup_combine_of_agrees (agrees_combine ac bc), lookup_combine_of_agrees ab,
    lookup_combine_of_agrees (agrees_combine ab.symm ac.symm).symm, lookup_combine_of_agrees bc,
    Option.or_assoc]

/-- The other map has no key of its own to add. -/
def Covers (a c : Output) : Prop := ∀ key, a.lookup key = none → c.lookup key = none

theorem combine_eq_self_iff (agrees : a.Agrees c) : combine a c = a ↔ Covers a c := by
  have each (key : MapKey) : (combine a c).lookup key = a.lookup key ↔
      (a.lookup key = none → c.lookup key = none) := by
    rw [lookup_combine_of_agrees agrees, or_eq_left_iff]
  constructor
  · intro same key
    rw [← each, same]
  · intro covers
    exact FieldMap.ext fun key => (each key).mpr (covers key)

end Output
end

/-- Map union of agreeing maps, key by key. -/
theorem union_comm_of_agree [Ord κ] [Std.TransOrd κ] [Std.LawfulEqOrd κ] {a b : BTreeMap κ α}
    (agree : ∀ key : κ, Agree a[key]? b[key]?) : a ∪ b = b ∪ a := by
  refine Std.ExtTreeMap.ext_getElem? fun key => ?_
  rw [Std.ExtTreeMap.getElem?_union, Std.ExtTreeMap.getElem?_union, (agree key).or_comm]

theorem union_assoc [Ord κ] [Std.TransOrd κ] [Std.LawfulEqOrd κ] (a b c : BTreeMap κ α) :
    a ∪ b ∪ c = a ∪ (b ∪ c) := by
  refine Std.ExtTreeMap.ext_getElem? fun key => ?_
  simp only [Std.ExtTreeMap.getElem?_union, Option.or_assoc]

theorem MwebTable.combine_comm {table : MwebTable F} {a b : table.Record}
    (agrees : ∀ f, Agree (a f) (b f)) : table.combine a b = table.combine b a := by
  funext f
  exact (agrees f).or_comm

theorem MwebTable.combine_assoc (table : MwebTable F) (a b c : table.Record) :
    table.combine (table.combine a b) c = table.combine a (table.combine b c) := by
  funext f
  exact Option.or_assoc

namespace MwebKernel
variable {a b : MwebKernel}

/-- What `combine` needs of two agreeing kernels to be commutative. -/
structure Mergeable (a b : MwebKernel) : Prop where
  pegouts : a.pegouts = [] ∨ b.pegouts = [] ∨ a.pegouts = b.pegouts
  unknowns : a.unknowns = [] ∨ b.unknowns = [] ∨ a.unknowns = b.unknowns

/-- A list that is only taken where there is none. -/
theorem list_comm_iff (left right : List α) :
    (if left.isEmpty then right else left) = (if right.isEmpty then left else right) ↔
      left = [] ∨ right = [] ∨ left = right := by
  cases left <;> cases right <;> simp

theorem list_assoc (first second third : List α) :
    (if (if first.isEmpty then second else first).isEmpty then third
      else if first.isEmpty then second else first) =
      if first.isEmpty then if second.isEmpty then third else second else first := by
  cases first <;> cases second <;> rfl

theorem combine_comm_iff (agrees : ∀ f, Agree (a.fields f) (b.fields f)) :
    a.combine b = b.combine a ↔ Mergeable a b := by
  rw [combine, combine, mk.injEq, and_iff_right (MwebTable.combine_comm agrees), list_comm_iff,
    list_comm_iff]
  constructor
  · rintro ⟨pegouts, unknowns⟩
    exact ⟨pegouts, unknowns⟩
  · rintro ⟨pegouts, unknowns⟩
    exact ⟨pegouts, unknowns⟩

theorem combine_assoc (a b c : MwebKernel) :
    (a.combine b).combine c = a.combine (b.combine c) := by
  simp only [combine, mk.injEq]
  exact ⟨MwebTable.combine_assoc _ _ _ _, list_assoc _ _ _, list_assoc _ _ _⟩

end MwebKernel

section
variable [Secp256k1]

/-- A key source that agrees with the ones there are is added to them. -/
theorem combineXpub_of_agree {map : BTreeMap Xpub KeySource} {key : Xpub} {source : KeySource}
    (agree : ∀ other, map[key]? = some other → other = source) :
    ∃ next, (combineXpub map (key, source)).run = some (.ok next) ∧
      ∀ (j : Xpub) (found : KeySource), next[j]? = some found ↔
        map[j]? = some found ∨ (j, found) = (key, source) := by
  rcases present : map[key]? with _ | other
  · refine ⟨map.insert key source, ?_, fun j found => ?_⟩
    · rw [combineXpub, present]
      rfl
    · rw [Std.ExtTreeMap.getElem?_insert]
      split
      · rename_i same
        obtain rfl := Std.LawfulEqCmp.eq_of_compare same
        simp [present, eq_comm]
      · rename_i other
        have distinct : j ≠ key := by
          rintro rfl
          exact other Std.ReflCmp.compare_self
        simp [distinct]
  · obtain rfl := agree other present
    refine ⟨map, ?_, fun j found => ?_⟩
    · rw [combineXpub, present]
      exact if_pos (.inl ⟨rfl, rfl⟩)
    · refine ⟨.inl, ?_⟩
      rintro (there | same)
      · exact there
      · obtain ⟨rfl, rfl⟩ := Prod.mk.inj same
        exact present

theorem foldlM_combineXpub_of_agree {entries : List (Xpub × KeySource)}
    {map : BTreeMap Xpub KeySource}
    (single : ∀ key v w, (key, v) ∈ entries → (key, w) ∈ entries → v = w)
    (agree : ∀ (key : Xpub) v w, map[key]? = some v → (key, w) ∈ entries → v = w) :
    ∃ final, (entries.foldlM combineXpub map).run = some (.ok final) ∧
      ∀ (key : Xpub) (v : KeySource), final[key]? = some v ↔ map[key]? = some v ∨ (key, v) ∈ entries := by
  induction entries generalizing map with
  | nil => exact ⟨map, rfl, by simp⟩
  | cons entry entries ih =>
    obtain ⟨key, source⟩ := entry
    obtain ⟨next, stepped, held⟩ := combineXpub_of_agree fun other found =>
      agree key other source found List.mem_cons_self
    have later (j : Xpub) (v w : KeySource) (found : next[j]? = some v) (entry : (j, w) ∈ entries) :
        v = w := by
      rcases (held j v).mp found with before | same
      · exact agree j v w before (List.mem_cons_of_mem _ entry)
      · obtain ⟨rfl, rfl⟩ := Prod.mk.inj same
        exact single j v w List.mem_cons_self (List.mem_cons_of_mem _ entry)
    obtain ⟨final, ran, all⟩ := ih (fun j v w left right =>
      single j v w (List.mem_cons_of_mem _ left) (List.mem_cons_of_mem _ right)) later
    refine ⟨final, ?_, fun j v => ?_⟩
    · rw [List.foldlM_cons, run_bind_eq_ok]
      exact ⟨next, stepped, ran⟩
    · rw [all, held, List.mem_cons, or_assoc]

/-- The xpubs of two agreeing PSBTs are joined. -/
theorem combineXpubs_of_agree {first second : BTreeMap Xpub KeySource}
    (agree : ∀ key : Xpub, Agree first[key]? second[key]?) :
    ∃ final, (second.toList.foldlM combineXpub first).run = some (.ok final) ∧
      ∀ key : Xpub, final[key]? = first[key]?.or second[key]? := by
  have listed (key : Xpub) (source : KeySource) : (key, source) ∈ second.toList ↔
      second[key]? = some source := Std.ExtTreeMap.mem_toList_iff_getElem?_eq_some
  obtain ⟨final, ran, all⟩ := foldlM_combineXpub_of_agree
    (fun key v w left right => Option.some.inj
      (((listed key v).mp left).symm.trans ((listed key w).mp right)))
    fun key v w left right => agree key v w left ((listed key w).mp right)
  refine ⟨final, ran, fun key => Option.ext fun source => ?_⟩
  rw [all, listed, Option.or_eq_some_iff]
  constructor
  · rintro (left | right)
    · exact .inl left
    · rcases missing : first[key]? with _ | other
      · exact .inr ⟨rfl, right⟩
      · rw [agree key other source missing right]
        exact .inl rfl
  · exact Or.imp_right And.right

variable [Hashes]

/-- One transaction, and one value for every key that both PSBTs have. -/
structure Agrees (a b : Psbt) : Prop where
  unsignedTx : a.unsignedTx = b.unsignedTx
  holds : ∀ key v w, a.Holds key v → b.Holds key w → v = w

namespace Agrees
variable {a b : Psbt}

theorem symm (agrees : a.Agrees b) : b.Agrees a where
  unsignedTx := agrees.unsignedTx.symm
  holds key v w left right := (agrees.holds key w v right left).symm

theorem inputAt (agrees : a.Agrees b) (i : Nat) : (a.inputAt i).Agrees (b.inputAt i) := by
  intro key v w
  exact agrees.holds (.input i key) v w

theorem outputAt (agrees : a.Agrees b) (i : Nat) : (a.outputAt i).Agrees (b.outputAt i) := by
  intro key v w
  exact agrees.holds (.output i key) v w

theorem xpub (agrees : a.Agrees b) (key : Xpub) : Agree a.xpub[key]? b.xpub[key]? := by
  intro v w
  exact agrees.holds (.xpub key) v w

theorem succeeds (agrees : a.Agrees b) : ∃ result, Combines a b result := by
  obtain ⟨final, ran, _⟩ := combineXpubs_of_agree agrees.xpub
  obtain ⟨result, returned⟩ := combine_succeeds agrees.unsignedTx ran
  exact ⟨result, combine_eq_ok.mp returned⟩

end Agrees

namespace Combines
variable {a b c ab ba bc left right : Psbt}

theorem agrees (combines : Combines a b ab) (first : a.Agrees c) (second : b.Agrees c) :
    ab.Agrees c where
  unsignedTx := combines.unsignedTx_eq.trans first.unsignedTx
  holds key v w held other := by
    rcases (combines.accounted key).1 v held with origin | origin
    · exact first.holds key v w origin other
    · exact second.holds key v w origin other

theorem xpub_eq (combines : Combines a b ab) (agrees : a.Agrees b) (key : Xpub) :
    ab.xpub[key]? = a.xpub[key]?.or b.xpub[key]? := by
  obtain ⟨final, ran, all⟩ := combineXpubs_of_agree agrees.xpub
  obtain rfl := Except.ok.inj (Option.some.inj (ran.symm.trans combines.xpub))
  exact all key

theorem kernels_comm_iff (agrees : a.Agrees b) (forth : Combines a b ab) (back : Combines b a ba) :
    ab.mwebKernels = ba.mwebKernels ↔ ∀ k, MwebKernel.Mergeable (a.kernelAt k) (b.kernelAt k) := by
  rw [forth.mwebKernels, back.mwebKernels, mergeVec_comm_iff MwebKernel.combine_default]
  refine forall_congr' fun k => MwebKernel.combine_comm_iff fun f v w => ?_
  exact agrees.holds (.kernelField k f) v w

theorem inputs_comm_iff (agrees : a.Agrees b) (forth : Combines a b ab) (back : Combines b a ba) :
    ab.inputs = ba.inputs ↔ a.inputs.length = b.inputs.length ∧
      ∀ k < a.inputs.length, Input.Mergeable (a.inputAt k) (b.inputAt k) := by
  rw [forth.inputs, back.inputs, mergeZip_comm_iff Input.combine_default]
  refine and_congr_right fun _ => forall₂_congr fun k _ => ?_
  exact Input.combine_comm_iff (agrees.inputAt k)

theorem outputs_comm_iff (agrees : a.Agrees b) (forth : Combines a b ab) (back : Combines b a ba) :
    ab.outputs = ba.outputs ↔ a.outputs.length = b.outputs.length := by
  rw [forth.outputs, back.outputs, mergeZip_comm_iff Output.combine_default]
  exact and_iff_left fun k _ => Output.combine_comm (agrees.outputAt k)

/-- Everything but the kernels and the input and output maps is merged alike both ways. -/
theorem eq_iff (agrees : a.Agrees b) (forth : Combines a b ab) (back : Combines b a ba) :
    ab = ba ↔ ab.mwebKernels = ba.mwebKernels ∧ ab.inputs = ba.inputs ∧ ab.outputs = ba.outputs := by
  refine ⟨fun same => by simp [same], fun ⟨kernels, inputs, outputs⟩ => ?_⟩
  have version : ab.version = ba.version := by
    rw [← UInt32.toNat_inj, forth.version, back.version, UInt32.toNat_max, UInt32.toNat_max,
      Nat.max_comm]
  have xpub : ab.xpub = ba.xpub := by
    refine Std.ExtTreeMap.ext_getElem? fun key => ?_
    rw [forth.xpub_eq agrees, back.xpub_eq agrees.symm, (agrees.xpub key).or_comm]
  have proprietary : ab.proprietary = ba.proprietary := by
    rw [forth.proprietary, back.proprietary]
    exact union_comm_of_agree fun key v w => agrees.holds (.proprietary key) v w
  have unknown : ab.unknown = ba.unknown := by
    rw [forth.unknown, back.unknown]
    exact union_comm_of_agree fun key v w => agrees.holds (.unknown key) v w
  have txOffset : ab.mwebTxOffset = ba.mwebTxOffset := by
    rw [forth.mwebTxOffset, back.mwebTxOffset]
    exact Agree.or_comm fun v w => agrees.holds .mwebTxOffset v w
  have stealthOffset : ab.mwebStealthOffset = ba.mwebStealthOffset := by
    rw [forth.mwebStealthOffset, back.mwebStealthOffset]
    exact Agree.or_comm fun v w => agrees.holds .mwebStealthOffset v w
  have mwebInputs : ab.mwebInputs = ba.mwebInputs := by
    rw [forth.mwebInputs, back.mwebInputs]
    refine (mergeVec_comm_iff (MwebTable.combine_empty MwebInput.table) _ _).mpr fun k => ?_
    exact MwebTable.combine_comm fun f v w => agrees.holds (.mwebInput k f) v w
  have mwebOutputs : ab.mwebOutputs = ba.mwebOutputs := by
    rw [forth.mwebOutputs, back.mwebOutputs]
    refine (mergeVec_comm_iff (MwebTable.combine_empty MwebOutput.table) _ _).mpr fun k => ?_
    exact MwebTable.combine_comm fun f v w => agrees.holds (.mwebOutput k f) v w
  have unsignedTx : ab.unsignedTx = ba.unsignedTx := by
    rw [forth.unsignedTx_eq, back.unsignedTx_eq, agrees.unsignedTx]
  cases ab
  cases ba
  simp_all only

section
variable (first : a.Agrees b) (second : b.Agrees c) (outer : a.Agrees c) (combinesAB : Combines a b ab)
  (combinesBC : Combines b c bc) (combinesLeft : Combines ab c left)
  (combinesRight : Combines a bc right)
include first second outer combinesAB combinesBC combinesLeft combinesRight

theorem inputs_assoc_iff : left.inputs = right.inputs ↔ ∀ k < a.inputs.length,
    if k < b.inputs.length then Input.Regroupable (a.inputAt k) (b.inputAt k) (c.inputAt k)
    else Input.Covers (a.inputAt k) (c.inputAt k) := by
  rw [combinesLeft.inputs, combinesRight.inputs, combinesAB.inputs, combinesBC.inputs,
    mergeZip_assoc_iff Input.combine_default]
  refine forall₂_congr fun k _ => ?_
  split_ifs with reached
  · exact Input.combine_assoc_iff (first.inputAt k) (second.inputAt k) (outer.inputAt k)
  · exact Input.combine_eq_self_iff (outer.inputAt k)

theorem outputs_assoc_iff : left.outputs = right.outputs ↔ ∀ k < a.outputs.length,
    k < b.outputs.length ∨ Output.Covers (a.outputAt k) (c.outputAt k) := by
  rw [combinesLeft.outputs, combinesRight.outputs, combinesAB.outputs, combinesBC.outputs,
    mergeZip_assoc_iff Output.combine_default]
  refine forall₂_congr fun k _ => ?_
  split_ifs with reached
  · exact iff_of_true (Output.combine_assoc (first.outputAt k) (second.outputAt k) (outer.outputAt k))
      (.inl reached)
  · rw [or_iff_right reached]
    exact Output.combine_eq_self_iff (outer.outputAt k)

/-- Everything but the input and output maps is merged alike in both groupings. -/
theorem eq_iff_of_groupings :
    left = right ↔ left.inputs = right.inputs ∧ left.outputs = right.outputs := by
  refine ⟨fun same => by simp [same], fun ⟨inputs, outputs⟩ => ?_⟩
  have version : left.version = right.version := by
    rw [← UInt32.toNat_inj, combinesLeft.version, combinesRight.version, combinesAB.version,
      combinesBC.version]
    simp only [UInt32.toNat_max, Nat.max_assoc]
  have xpub : left.xpub = right.xpub := by
    have later : ab.Agrees c := combinesAB.agrees outer second
    have earlier : a.Agrees bc := (combinesBC.agrees first.symm outer.symm).symm
    refine Std.ExtTreeMap.ext_getElem? fun key => ?_
    rw [combinesLeft.xpub_eq later, combinesRight.xpub_eq earlier, combinesAB.xpub_eq first,
      combinesBC.xpub_eq second, Option.or_assoc]
  have proprietary : left.proprietary = right.proprietary := by
    rw [combinesLeft.proprietary, combinesRight.proprietary, combinesAB.proprietary,
      combinesBC.proprietary, union_assoc]
  have unknown : left.unknown = right.unknown := by
    rw [combinesLeft.unknown, combinesRight.unknown, combinesAB.unknown, combinesBC.unknown, union_assoc]
  have txOffset : left.mwebTxOffset = right.mwebTxOffset := by
    rw [combinesLeft.mwebTxOffset, combinesRight.mwebTxOffset, combinesAB.mwebTxOffset,
      combinesBC.mwebTxOffset, Option.or_assoc]
  have stealthOffset : left.mwebStealthOffset = right.mwebStealthOffset := by
    rw [combinesLeft.mwebStealthOffset, combinesRight.mwebStealthOffset, combinesAB.mwebStealthOffset,
      combinesBC.mwebStealthOffset, Option.or_assoc]
  have kernels : left.mwebKernels = right.mwebKernels := by
    rw [combinesLeft.mwebKernels, combinesRight.mwebKernels, combinesAB.mwebKernels,
      combinesBC.mwebKernels]
    exact mergeVec_assoc MwebKernel.combine_default fun k => MwebKernel.combine_assoc _ _ _
  have mwebInputs : left.mwebInputs = right.mwebInputs := by
    rw [combinesLeft.mwebInputs, combinesRight.mwebInputs, combinesAB.mwebInputs, combinesBC.mwebInputs]
    exact mergeVec_assoc (MwebTable.combine_empty MwebInput.table) fun k =>
      MwebTable.combine_assoc _ _ _ _
  have mwebOutputs : left.mwebOutputs = right.mwebOutputs := by
    rw [combinesLeft.mwebOutputs, combinesRight.mwebOutputs, combinesAB.mwebOutputs,
      combinesBC.mwebOutputs]
    exact mergeVec_assoc (MwebTable.combine_empty MwebOutput.table) fun k =>
      MwebTable.combine_assoc _ _ _ _
  have unsignedTx : left.unsignedTx = right.unsignedTx := by
    rw [combinesLeft.unsignedTx_eq, combinesRight.unsignedTx_eq, combinesAB.unsignedTx_eq]
  cases left
  cases right
  simp_all only

end
end Combines

/-- Both orders succeed, with one result. -/
def Commute (a b : Psbt) : Prop :=
  ∃ result, (a.combine b).run = some (.ok result) ∧ (b.combine a).run = some (.ok result)

/-- Both groupings succeed, with one result. -/
def Regroup (a b c : Psbt) : Prop :=
  ∃ ab bc result, (a.combine b).run = some (.ok ab) ∧ (b.combine c).run = some (.ok bc) ∧
    (ab.combine c).run = some (.ok result) ∧ (a.combine bc).run = some (.ok result)

/-- What commutativity needs of two agreeing PSBTs. -/
structure Mergeable (a b : Psbt) : Prop where
  inputs : a.inputs.length = b.inputs.length
  outputs : a.outputs.length = b.outputs.length
  input : ∀ k < a.inputs.length, Input.Mergeable (a.inputAt k) (b.inputAt k)
  kernel : ∀ k, MwebKernel.Mergeable (a.kernelAt k) (b.kernelAt k)

/-- What associativity needs of three agreeing PSBTs. Maps that the second PSBT has no
place for only reach the first one directly. -/
structure Regroupable (a b c : Psbt) : Prop where
  input : ∀ k < a.inputs.length,
    if k < b.inputs.length then Input.Regroupable (a.inputAt k) (b.inputAt k) (c.inputAt k)
    else Input.Covers (a.inputAt k) (c.inputAt k)
  output : ∀ k < a.outputs.length,
    k < b.outputs.length ∨ Output.Covers (a.outputAt k) (c.outputAt k)

theorem Mergeable.regroupable {a b c : Psbt} (ab : Mergeable a b) (bc : Mergeable b c)
    (ac : Mergeable a c) : Regroupable a b c where
  input k inside := by
    have reached : k < b.inputs.length := ab.inputs ▸ inside
    rw [if_pos reached]
    exact (ab.input k inside).regroupable (bc.input k reached) (ac.input k inside)
  output k inside := .inl (ab.outputs ▸ inside)

theorem commute_iff {a b : Psbt} (agrees : a.Agrees b) : Commute a b ↔ Mergeable a b := by
  obtain ⟨ab, forth⟩ := agrees.succeeds
  obtain ⟨ba, back⟩ := agrees.symm.succeeds
  have same : Commute a b ↔ ab = ba := by
    rw [Commute, combine_eq_ok.mpr forth, combine_eq_ok.mpr back]
    simp [eq_comm]
  rw [same, Combines.eq_iff agrees forth back, Combines.kernels_comm_iff agrees forth back,
    Combines.inputs_comm_iff agrees forth back, Combines.outputs_comm_iff agrees forth back]
  constructor
  · rintro ⟨kernel, ⟨inputs, input⟩, outputs⟩
    exact ⟨inputs, outputs, input, kernel⟩
  · rintro ⟨inputs, outputs, input, kernel⟩
    exact ⟨kernel, ⟨inputs, input⟩, outputs⟩

theorem regroup_iff {a b c : Psbt} (first : a.Agrees b) (second : b.Agrees c) (outer : a.Agrees c) :
    Regroup a b c ↔ Regroupable a b c := by
  obtain ⟨ab, combinesAB⟩ := first.succeeds
  obtain ⟨bc, combinesBC⟩ := second.succeeds
  obtain ⟨left, combinesLeft⟩ := (combinesAB.agrees outer second).succeeds
  obtain ⟨right, combinesRight⟩ := (combinesBC.agrees first.symm outer.symm).symm.succeeds
  have same : Regroup a b c ↔ left = right := by
    constructor
    · rintro ⟨ab', bc', result, returnedAB, returnedBC, returnedLeft, returnedRight⟩
      obtain rfl := Except.ok.inj (Option.some.inj ((combine_eq_ok.mpr combinesAB).symm.trans returnedAB))
      obtain rfl := Except.ok.inj (Option.some.inj ((combine_eq_ok.mpr combinesBC).symm.trans returnedBC))
      rw [combine_eq_ok.mpr combinesLeft] at returnedLeft
      rw [combine_eq_ok.mpr combinesRight, ← returnedLeft] at returnedRight
      exact (Except.ok.inj (Option.some.inj returnedRight)).symm
    · rintro rfl
      exact ⟨ab, bc, left, combine_eq_ok.mpr combinesAB, combine_eq_ok.mpr combinesBC,
        combine_eq_ok.mpr combinesLeft, combine_eq_ok.mpr combinesRight⟩
  rw [same, Combines.eq_iff_of_groupings first second outer combinesAB combinesBC combinesLeft combinesRight,
    Combines.inputs_assoc_iff first second outer combinesAB combinesBC combinesLeft combinesRight,
    Combines.outputs_assoc_iff first second outer combinesAB combinesBC combinesLeft combinesRight]
  exact ⟨fun ⟨input, output⟩ => ⟨input, output⟩, fun ⟨input, output⟩ => ⟨input, output⟩⟩

/-- Exactly when the order and the grouping of agreeing PSBTs do not matter. -/
theorem combine_order_iff :
    (∀ a b : Psbt, a.Agrees b → (Commute a b ↔ Mergeable a b)) ∧
      ∀ a b c : Psbt, a.Agrees b → b.Agrees c → a.Agrees c →
        (Regroup a b c ↔ Regroupable a b c) := by
  exact ⟨fun a b => commute_iff, fun a b c => regroup_iff⟩

end
section
attribute [local instance] Secp256k1.generatorOnly Hashes.ofEmpty

/-- A PSBT for the payment that holds one field for its input and nothing else. -/
def holding (f : Input.Field) (slot : (Input.table.shape f).Slot) : Psbt :=
  paying f slot MwebKernel.default

/-- Nothing but that field is held. -/
theorem key_of_holding {f : Input.Field} {slot : (Input.table.shape f).Slot} {key : PsbtKey}
    {value : key.Value} (held : (holding f slot).Holds key value) :
    ∃ i sub, key = .input i (.field f sub) := by
  have gone {α : Type} {a : α} (held : none = some a) : False := Option.some_ne_none a held.symm
  cases key with
  | version => exact absurd held.2 (show ¬ (0 : UInt32) < 0 by decide)
  | xpub key => exact (gone held).elim
  | proprietary key => exact (gone held).elim
  | unknown key => exact (gone held).elim
  | mwebTxOffset => exact (gone held).elim
  | mwebStealthOffset => exact (gone held).elim
  | kernelField i g => cases i <;> exact (gone held).elim
  | kernelPegout i j => cases i <;> exact (gone held).elim
  | kernelUnknown i key => cases i <;> exact absurd held List.not_mem_nil
  | mwebInput i g => exact (gone held).elim
  | mwebOutput i g => exact (gone held).elim
  | output i key =>
    have missing : ((holding f slot).outputAt i).lookup key = none := by
      cases i <;> exact FieldMap.lookup_default rfl key
    exact (gone (missing.symm.trans held)).elim
  | input i key =>
    cases i with
    | succ i =>
      have missing : (FieldMap.default Input.table).lookup key = none := FieldMap.lookup_default rfl key
      exact (gone (missing.symm.trans held)).elim
    | zero =>
      cases key with
      | proprietary key => exact (gone held).elim
      | unknown key => exact (gone held).elim
      | mweb g => exact (gone held).elim
      | field g sub =>
        by_cases same : g = f
        · subst same
          exact ⟨0, sub, rfl⟩
        · have missing : ((holding f slot).inputAt 0).lookup (.field g sub) = none := by
            have kept : ((holding f slot).inputAt 0).fields g = (Input.table.shape g).empty :=
              Function.update_of_ne same _ _
            rw [FieldMap.lookup, kept]
            exact Shape.lookup_empty _ _
          exact (gone (missing.symm.trans held)).elim

/-- PSBTs that hold different fields share no key. -/
theorem holding_agrees {f g : Input.Field} {slot : (Input.table.shape f).Slot}
    {other : (Input.table.shape g).Slot} (distinct : f ≠ g) :
    (holding f slot).Agrees (holding g other) where
  unsignedTx := rfl
  holds key v w left right := by
    obtain ⟨i, sub, rfl⟩ := key_of_holding left
    obtain ⟨j, sub', same⟩ := key_of_holding right
    obtain ⟨rfl, _⟩ := MapKey.field.inj (PsbtKey.input.inj same).2
    exact absurd rfl distinct

/-- The type of sighash is only kept on the left, and the transaction that is spent only
comes back where it is combined last. -/
theorem combine_order_matters :
    let script := holding .redeemScript (some [0x51])
    let sighash := holding .sighashType (some 1)
    let utxo := holding .witnessUtxo (some { value := 1000, scriptPubkey := .empty })
    let spent := holding .nonWitnessUtxo (some payment)
    (script.Agrees sighash ∧ ¬ Commute script sighash) ∧
      script.Agrees utxo ∧ utxo.Agrees spent ∧ script.Agrees spent ∧ ¬ Regroup script utxo spent := by
  intro script sighash utxo spent
  have first : script.Agrees sighash := holding_agrees nofun
  have second : script.Agrees utxo := holding_agrees nofun
  have third : utxo.Agrees spent := holding_agrees nofun
  have outer : script.Agrees spent := holding_agrees nofun
  refine ⟨⟨first, ?_⟩, second, third, outer, ?_⟩
  · rw [commute_iff first]
    intro mergeable
    exact absurd ((mergeable.input 0 (by decide)).sighashType.mp rfl) nofun
  · rw [regroup_iff second third outer]
    intro regroupable
    exact absurd ((regroupable.input 0 (by decide)).late ⟨rfl, nofun⟩) nofun

theorem scripts_commute :
    let redeem := holding .redeemScript (some [0x51])
    let witness := holding .witnessScript (some [0x51])
    let final := holding .finalScriptSig (some [0x51])
    Commute redeem witness ∧ Regroup redeem witness final := by
  intro redeem witness final
  have first : redeem.Agrees witness := holding_agrees nofun
  have second : witness.Agrees final := holding_agrees nofun
  have outer : redeem.Agrees final := holding_agrees nofun
  constructor
  · refine (combine_order_iff.1 redeem witness first).mpr ⟨rfl, rfl, fun k inside => ?_, fun k => ?_⟩
    · obtain rfl := Nat.lt_one_iff.mp inside
      exact ⟨Iff.rfl, .inl Iff.rfl⟩
    · cases k <;> exact ⟨.inl rfl, .inl rfl⟩
  · refine (combine_order_iff.2 redeem witness final first second outer).mpr
      ⟨fun k inside => ?_, fun k inside => .inl inside⟩
    obtain rfl := Nat.lt_one_iff.mp inside
    exact ⟨fun clears => absurd rfl clears.2, fun clears => absurd rfl clears.2⟩

end
end Litecoin.Psbt
