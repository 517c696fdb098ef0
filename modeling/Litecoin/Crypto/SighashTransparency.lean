import Litecoin.Crypto.Sighash

/-! The caches cannot be observed: a call answers as it would on a fresh cache. Two
caches over the same transaction whose values are those of the transaction and of one
list of spent outputs go through every method in lockstep. -/
namespace Litecoin.Sighash
open Wire Consensus Blockdata

/-- A call with the writer it is given. -/
inductive Call (ω : Type) where
  | taproot (writer : ω) (inputIndex : Nat) (prevouts : Prevouts) (annex : Option Annex)
    (leafHashCodeSeparator : Option (Taproot.TapLeafHash × UInt32)) (sighashType : TapSighashType)
  | segwitV0 (writer : ω) (inputIndex : Nat) (scriptCode : ByteVec) (value : UInt64)
    (sighashType : EcdsaSighashType)
  | legacy (writer : ω) (inputIndex : Nat) (scriptPubkey : ByteVec) (sighashType : UInt32)
  | replaceWitness (inputIndex : Nat) (witness : Witness)

/-- What a call returns, with what became of its writer. -/
inductive Answer (ω : Type) where
  | taproot (result : Except (SigningDataError TaprootError) Unit) (writer : ω)
  | segwitV0 (result : Except (SigningDataError InputsIndexError) Unit) (writer : ω)
  | legacy (result : EncodeSigningDataResult (SigningDataError InputsIndexError)) (writer : ω)
  | replaceWitness (found : Bool)

/-- Where all spent outputs are given, they are the given list. -/
def Call.Spends (spent : List TxOut) : Call ω → Prop
  | .taproot _ _ (.all prevouts) _ _ _ => prevouts = spent
  | _ => True

section
variable [Secp256k1] [Hashes]

namespace SighashCache

def answer [Write ω] (cache : SighashCache) : Call ω → Answer ω × SighashCache
  | .taproot writer inputIndex prevouts annex leafHashCodeSeparator sighashType =>
    let (result, cache, writer) := taprootEncodeSigningDataTo inputIndex prevouts annex
      leafHashCodeSeparator sighashType (cache, writer)
    (.taproot result writer, cache)
  | .segwitV0 writer inputIndex scriptCode value sighashType =>
    let (result, cache, writer) := segwitV0EncodeSigningDataTo inputIndex scriptCode value sighashType
      (cache, writer)
    (.segwitV0 result writer, cache)
  | .legacy writer inputIndex scriptPubkey sighashType =>
    let (result, writer) := cache.legacyEncodeSigningDataTo writer inputIndex scriptPubkey sighashType
    (.legacy result writer, cache)
  | .replaceWitness inputIndex witness =>
    let (found, cache) := cache.witnessMut inputIndex witness
    (.replaceWitness found, cache)

/-- The answers to a sequence of calls on one cache. -/
def answers [Write ω] (cache : SighashCache) : List (Call ω) → List (Answer ω)
  | [] => []
  | call :: calls => (cache.answer call).1 :: (cache.answer call).2.answers calls

end SighashCache

/-- The answers when every call is made on a new cache over the transaction as it then
is. -/
def freshAnswers [Write ω] (tx : Transaction) : List (Call ω) → List (Answer ω)
  | [] => []
  | call :: calls =>
    ((SighashCache.new tx).answer call).1 :: freshAnswers ((SighashCache.new tx).answer call).2.tx calls

/-- Every value that is present is the one that would be computed now. -/
structure Coherent (spent : List TxOut) (cache : SighashCache) : Prop where
  common : ∀ common ∈ cache.commonCache, common = .of cache.tx
  segwit : ∀ segwit ∈ cache.segwitCache, segwit = .of (.of cache.tx)
  taproot : ∀ taproot ∈ cache.taprootCache, taproot = .of spent

theorem Coherent.new (spent : List TxOut) (tx : Transaction) : Coherent spent (SighashCache.new tx) where
  common _ member := absurd member (Option.not_mem_none _)
  segwit _ member := absurd member (Option.not_mem_none _)
  taproot _ member := absurd member (Option.not_mem_none _)

/-- Filling returns the value of the transaction and leaves a coherent cache. -/
structure Fills (spent : List TxOut) (fill : SighashCache → α × SighashCache) (value : Transaction → α) :
    Prop where
  value : ∀ cache, Coherent spent cache → (fill cache).1 = value cache.tx
  tx : ∀ cache, (fill cache).2.tx = cache.tx
  coherent : ∀ cache, Coherent spent cache → Coherent spent (fill cache).2

namespace SighashCache

theorem fillCommon_fills (spent : List TxOut) : Fills spent fillCommon CommonCache.of where
  value cache coherent := by
    rw [fillCommon]
    cases found : cache.commonCache with
    | none => rfl
    | some common => exact coherent.common common found
  tx cache := by
    rw [fillCommon]
    cases cache.commonCache <;> rfl
  coherent cache coherent := by
    rw [fillCommon]
    cases found : cache.commonCache with
    | none => exact ⟨fun _ member => (Option.some.inj member).symm, coherent.segwit, coherent.taproot⟩
    | some common => exact coherent

theorem fillSegwit_fills (spent : List TxOut) :
    Fills spent fillSegwit (fun tx => SegwitCache.of (.of tx)) where
  value cache coherent := by
    rw [fillSegwit]
    cases found : cache.segwitCache with
    | none => exact congrArg SegwitCache.of ((fillCommon_fills spent).value cache coherent)
    | some segwit => exact coherent.segwit segwit found
  tx cache := by
    rw [fillSegwit]
    cases cache.segwitCache with
    | none => exact (fillCommon_fills spent).tx cache
    | some segwit => rfl
  coherent cache coherent := by
    rw [fillSegwit]
    cases found : cache.segwitCache with
    | none =>
      have filled := (fillCommon_fills spent).coherent cache coherent
      have same := (fillCommon_fills spent).value cache coherent
      refine ⟨filled.common, fun _ member => ?_, filled.taproot⟩
      rw [← Option.some.inj member, same]
      exact congrArg (fun tx => SegwitCache.of (.of tx)) ((fillCommon_fills spent).tx cache).symm
    | some segwit => exact coherent

theorem fillTaproot_fills (spent : List TxOut) :
    Fills spent (fillTaproot spent) (fun _ => TaprootCache.of spent) where
  value cache coherent := by
    rw [fillTaproot]
    cases found : cache.taprootCache with
    | none => rfl
    | some taproot => exact coherent.taproot taproot found
  tx cache := by
    rw [fillTaproot]
    cases cache.taprootCache <;> rfl
  coherent cache coherent := by
    rw [fillTaproot]
    cases found : cache.taprootCache with
    | none => exact ⟨coherent.common, coherent.segwit, fun _ member => (Option.some.inj member).symm⟩
    | some taproot => exact coherent

end SighashCache

/-- Caches that nothing tells apart, with the same writer. -/
structure Alike (spent : List TxOut) (state state' : SighashCache × ω) : Prop where
  tx : state.1.tx = state'.1.tx
  writer : state.2 = state'.2
  left : Coherent spent state.1
  right : Coherent spent state'.1

namespace SighashCache
open Process

variable {spent : List TxOut}

theorem write_lockstep [Write ω] (emission : Emission IoError) :
    Lockstep (Alike spent) (write emission : Sighasher ω ε Unit) := by
  rintro ⟨cache, writer⟩ ⟨cache', _⟩ ⟨tx, rfl, left, right⟩
  cases emission with
  | error e => exact ⟨rfl, tx, rfl, left, right⟩
  | ok written => exact ⟨rfl, tx, rfl, left, right⟩

theorem check_lockstep (result : Except ε α) :
    Lockstep (Alike spent) (check result : Sighasher ω ε α) :=
  .ofExcept _

theorem transaction_lockstep : Lockstep (Alike spent) (transaction : Sighasher ω ε Transaction) :=
  .look fun _ _ alike => alike.tx

theorem filling_lockstep {fill : SighashCache → α × SighashCache} {value : Transaction → α}
    (fills : Fills spent fill value) : Lockstep (Alike spent) (filling fill : Sighasher ω ε α) := by
  refine .update ?_ ?_
  · rintro ⟨cache, writer⟩ ⟨cache', _⟩ ⟨tx, rfl, left, right⟩
    exact (fills.value cache left).trans ((congrArg value tx).trans (fills.value cache' right).symm)
  · rintro ⟨cache, writer⟩ ⟨cache', _⟩ ⟨tx, rfl, left, right⟩
    exact ⟨(fills.tx cache).trans (tx.trans (fills.tx cache').symm), rfl,
      fills.coherent cache left, fills.coherent cache' right⟩

variable [Write ω]

omit [Write ω] in
/-- The spent outputs are only asked for where the list is the given one. -/
theorem getAll_lockstep {prevouts : Prevouts} (spends : ∀ all, prevouts = .all all → all = spent)
    {next : List TxOut → Sighasher ω TaprootError α} (rest : Lockstep (Alike spent) (next spent)) :
    Lockstep (Alike spent) (check prevouts.getAll >>= next) := by
  refine .ofExcept_bind fun all found => ?_
  cases prevouts with
  | one index prevout => contradiction
  | all given =>
    obtain rfl : given = all := Except.ok.inj found
    rw [spends given rfl]
    exact rest

theorem writeAllInputs_lockstep {prevouts : Prevouts}
    (spends : ∀ all, prevouts = .all all → all = spent) :
    Lockstep (Alike spent) (writeAllInputs prevouts : Sighasher ω TaprootError Unit) := by
  refine (filling_lockstep (fillCommon_fills spent)).bind fun common =>
    (write_lockstep _).bind fun _ => getAll_lockstep spends ?_
  refine (filling_lockstep (fillTaproot_fills spent)).bind fun taproot =>
    (write_lockstep _).bind fun _ => getAll_lockstep spends ?_
  refine (filling_lockstep (fillTaproot_fills spent)).bind fun taproot =>
    (write_lockstep _).bind fun _ => ?_
  exact (filling_lockstep (fillCommon_fills spent)).bind fun common => write_lockstep _

theorem writeAllOutputs_lockstep :
    Lockstep (Alike spent) (writeAllOutputs : Sighasher ω ε Unit) :=
  (filling_lockstep (fillCommon_fills spent)).bind fun _ => write_lockstep _

theorem writeThisInput_lockstep (anyoneCanPay : Bool) (inputIndex : Nat) (prevouts : Prevouts) :
    Lockstep (Alike spent)
      (writeThisInput anyoneCanPay inputIndex prevouts : Sighasher ω TaprootError Unit) := by
  refine .ite ?_ (write_lockstep _)
  refine transaction_lockstep.bind fun tx => (check_lockstep _).bind fun txin => ?_
  refine (check_lockstep _).bind fun prevout => (write_lockstep _).bind fun _ => ?_
  exact (write_lockstep _).bind fun _ => (write_lockstep _).bind fun _ => write_lockstep _

theorem writeAnnex_lockstep (annex : Option Annex) :
    Lockstep (Alike spent) (writeAnnex annex : Sighasher ω ε Unit) := by
  cases annex with
  | none => exact .pure ()
  | some annex => exact write_lockstep _

theorem writeSingleOutput_lockstep (inputIndex : Nat) :
    Lockstep (Alike spent) (writeSingleOutput inputIndex : Sighasher ω TaprootError Unit) :=
  transaction_lockstep.bind fun _ => (check_lockstep _).bind fun _ => write_lockstep _

theorem writeLeaf_lockstep (leaf : Option (Taproot.TapLeafHash × UInt32)) :
    Lockstep (Alike spent) (writeLeaf leaf : Sighasher ω ε Unit) := by
  cases leaf with
  | none => exact .pure ()
  | some leaf =>
    exact (write_lockstep _).bind fun _ => (write_lockstep _).bind fun _ => write_lockstep _

theorem taproot_lockstep (inputIndex : Nat) {prevouts : Prevouts}
    (spends : ∀ all, prevouts = .all all → all = spent) (annex : Option Annex)
    (leafHashCodeSeparator : Option (Taproot.TapLeafHash × UInt32)) (sighashType : TapSighashType) :
    Lockstep (Alike spent) (taprootEncodeSigningDataTo inputIndex prevouts annex
      leafHashCodeSeparator sighashType : Sighasher ω TaprootError Unit) := by
  refine transaction_lockstep.bind fun tx => (check_lockstep _).bind fun _ => ?_
  refine (write_lockstep _).bind fun _ => (write_lockstep _).bind fun _ => ?_
  refine (write_lockstep _).bind fun _ => (write_lockstep _).bind fun _ => ?_
  refine Lockstep.bind (.gated fun _ => writeAllInputs_lockstep spends) fun _ => ?_
  refine Lockstep.bind (.gated fun _ => writeAllOutputs_lockstep) fun _ => ?_
  refine (write_lockstep _).bind fun _ => (writeThisInput_lockstep _ _ _).bind fun _ => ?_
  refine (writeAnnex_lockstep annex).bind fun _ => ?_
  refine Lockstep.bind (.gated fun _ => writeSingleOutput_lockstep inputIndex) fun _ => ?_
  exact writeLeaf_lockstep leafHashCodeSeparator

theorem writeHash_lockstep {committed : Prop} [Decidable committed] {part : SegwitCache → ByteArr 32} :
    Lockstep (Alike spent) (writeHash committed part : Sighasher ω ε Unit) :=
  .ite ((filling_lockstep (fillSegwit_fills spent)).bind fun _ => write_lockstep _) (write_lockstep _)

theorem segwitV0_lockstep (inputIndex : Nat) (scriptCode : ByteVec) (value : UInt64)
    (sighashType : EcdsaSighashType) :
    Lockstep (Alike spent) (segwitV0EncodeSigningDataTo inputIndex scriptCode value sighashType :
      Sighasher ω InputsIndexError Unit) := by
  refine transaction_lockstep.bind fun tx => (write_lockstep _).bind fun _ => ?_
  refine writeHash_lockstep.bind fun _ => writeHash_lockstep.bind fun _ => ?_
  refine (check_lockstep _).bind fun txin => (write_lockstep _).bind fun _ => ?_
  refine (write_lockstep _).bind fun _ => (write_lockstep _).bind fun _ => ?_
  refine (write_lockstep _).bind fun _ => Lockstep.bind ?_ fun _ => ?_
  · exact .ite (transaction_lockstep.bind fun _ => write_lockstep _) writeHash_lockstep
  · exact (write_lockstep _).bind fun _ => write_lockstep _

/-- The legacy encoder sees the transaction only. -/
theorem legacy_eq {cache cache' : SighashCache} (tx : cache.tx = cache'.tx)
    (left : Coherent spent cache) (right : Coherent spent cache') (writer : ω) (inputIndex : Nat)
    (scriptPubkey : ByteVec) (sighashType : UInt32) :
    cache.legacyEncodeSigningDataTo writer inputIndex scriptPubkey sighashType =
      cache'.legacyEncodeSigningDataTo writer inputIndex scriptPubkey sighashType := by
  simp only [legacyEncodeSigningDataTo, tx]
  cases txIn cache'.tx inputIndex with
  | error e => rfl
  | ok txin =>
    have inner := ((write_lockstep _).bind fun _ => write_lockstep _ :
      Lockstep (Alike spent) (do
        write (legacyTransaction cache'.tx inputIndex txin scriptPubkey sighashType).consensusEncode
        write (encodeU32 sighashType) : Sighasher ω InputsIndexError Unit))
      (cache, writer) (cache', writer) ⟨tx, rfl, left, right⟩
    dsimp only
    rw [inner.1, inner.2.writer]

omit [Secp256k1] [Hashes] [Write ω] in
/-- A loop does not see a change that its body does not see. -/
theorem each_modify {emit : α → Emission ε} {change : α → α} (values : List α) (index : Nat)
    (blind : ∀ a, emit (change a) = emit a) :
    Emission.each emit (values.modify index change) = Emission.each emit values := by
  induction values generalizing index with
  | nil => cases index <;> rfl
  | cons first values ih =>
    cases index with
    | zero => rw [List.modify_zero_cons, Emission.each, Emission.each, blind]
    | succ index => rw [List.modify_succ_cons, Emission.each, Emission.each, ih]

omit [Write ω] in
/-- Only witnesses change, which no cached value depends on. -/
theorem common_witnessMut (cache : SighashCache) (inputIndex : Nat) (witness : Witness) :
    CommonCache.of (cache.witnessMut inputIndex witness).2.tx = .of cache.tx := by
  simp only [CommonCache.of, witnessMut, Vec.modify]
  rw [each_modify, each_modify]
  · exact fun _ => rfl
  · exact fun _ => rfl

omit [Write ω] in
theorem witnessMut_coherent {cache : SighashCache} (coherent : Coherent spent cache)
    (inputIndex : Nat) (witness : Witness) : Coherent spent (cache.witnessMut inputIndex witness).2 where
  common := by
    rw [common_witnessMut]
    exact coherent.common
  segwit := by
    rw [common_witnessMut]
    exact coherent.segwit
  taproot := coherent.taproot

/-- One call: the answers agree, and so do the caches afterwards. -/
theorem answer_alike {cache cache' : SighashCache} (tx : cache.tx = cache'.tx)
    (left : Coherent spent cache) (right : Coherent spent cache') {call : Call ω}
    (spends : call.Spends spent) :
    (cache.answer call).1 = (cache'.answer call).1 ∧
    (cache.answer call).2.tx = (cache'.answer call).2.tx ∧
    Coherent spent (cache.answer call).2 := by
  cases call with
  | taproot writer inputIndex prevouts annex leaf sighashType =>
    have given : ∀ all, prevouts = .all all → all = spent := by
      rintro all rfl
      exact spends
    obtain ⟨same, alike⟩ := taproot_lockstep inputIndex given annex leaf sighashType
      (cache, writer) (cache', writer) ⟨tx, rfl, left, right⟩
    exact ⟨congrArg₂ Answer.taproot same alike.writer, alike.tx, alike.left⟩
  | segwitV0 writer inputIndex scriptCode value sighashType =>
    obtain ⟨same, alike⟩ := segwitV0_lockstep inputIndex scriptCode value sighashType
      (cache, writer) (cache', writer) ⟨tx, rfl, left, right⟩
    exact ⟨congrArg₂ Answer.segwitV0 same alike.writer, alike.tx, alike.left⟩
  | legacy writer inputIndex scriptPubkey sighashType =>
    have same := legacy_eq tx left right writer inputIndex scriptPubkey sighashType
    refine ⟨?_, tx, left⟩
    simp only [answer, same]
  | replaceWitness inputIndex witness =>
    refine ⟨?_, ?_, witnessMut_coherent left inputIndex witness⟩
    · simp only [answer, witnessMut, tx]
    · simp only [answer, witnessMut, tx]

theorem answers_eq_fresh {cache : SighashCache} (coherent : Coherent spent cache)
    {calls : List (Call ω)} (spends : ∀ call ∈ calls, call.Spends spent) :
    cache.answers calls = freshAnswers cache.tx calls := by
  induction calls generalizing cache with
  | nil => rfl
  | cons call calls ih =>
    rw [List.forall_mem_cons] at spends
    have fresh : cache.tx = (new cache.tx).tx := rfl
    obtain ⟨same, tx, kept⟩ := answer_alike fresh coherent (.new spent cache.tx) spends.1
    rw [answers, freshAnswers, same, ih kept spends.2, tx]

end SighashCache

/-- A cache that was made for some transaction and has answered calls that spend the given
outputs, into whatever writers. -/
def Reached (spent : List TxOut) (cache : SighashCache) : Prop :=
  ∃ (ω : Type) (_ : Write ω) (tx : Transaction) (calls : List (Call ω)),
    (∀ call ∈ calls, call.Spends spent) ∧
      cache = calls.foldl (fun cache call => (cache.answer call).2) (.new tx)

theorem Reached.new (spent : List TxOut) (tx : Transaction) : Reached spent (.new tx) :=
  ⟨Bytes, inferInstance, tx, [], fun _ member => absurd member List.not_mem_nil, rfl⟩

theorem Reached.coherent {spent : List TxOut} {cache : SighashCache} (reached : Reached spent cache) :
    Coherent spent cache := by
  obtain ⟨ω, write, tx, calls, spends, rfl⟩ := reached
  have start := Coherent.new spent tx
  generalize SighashCache.new tx = cache at start ⊢
  induction calls generalizing cache with
  | nil => exact start
  | cons call calls ih =>
    rw [List.forall_mem_cons] at spends
    exact ih spends.2 _ (SighashCache.answer_alike rfl start start spends.1).2.2

/-- Whatever is called in whatever order, every call answers, and leaves its writer, as
on a cache that was just made. -/
theorem sighash_cache_transparent [Write ω] (tx : Transaction) (spent : List TxOut)
    (calls : List (Call ω)) (spends : ∀ call ∈ calls, call.Spends spent) :
    (SighashCache.new tx).answers calls = freshAnswers tx calls :=
  SighashCache.answers_eq_fresh (.new spent tx) spends

end

section
attribute [local instance] Secp256k1.generatorOnly Hashes.ofEmpty

/-- A failing call that fills a cache, a witness put in between, and two calls that use
what is cached. -/
def interleavedCalls : List (Call Bytes) :=
  [.taproot [] 0 (.one 0 nullTxOut) none none .all,
    .replaceWitness 1 .new,
    .segwitV0 [] 1 .empty 5 .single,
    .taproot [] 0 (.all [nullTxOut, nullTxOut]) none none .default]

theorem interleavedCalls_transparent :
    (SighashCache.new moreInputsThanOutputs).answers interleavedCalls =
      freshAnswers moreInputsThanOutputs interleavedCalls := by
  apply sighash_cache_transparent moreInputsThanOutputs [nullTxOut, nullTxOut]
  simp [interleavedCalls, Call.Spends]

end
end Litecoin.Sighash
