import Litecoin.Bip158.Overflow
import Litecoin.Blockdata.BlockExactness
import Litecoin.Crypto.CrateHashes
import Litecoin.Wire.Chain

/-! Filters of whole blocks, and the headers that chain them (`bip158.rs`). -/
namespace Litecoin

/-- `block_hash`; an error stands for the panic of its `expect`. -/
def Blockdata.Header.blockHash (header : Blockdata.Header) (sha256d : Wire.Bytes → Consensus.ByteArr 32) :
    Except Consensus.IoError (Consensus.ByteArr 32) :=
  (Consensus.serialize header.consensusEncode).map sha256d

namespace Bip158
open Wire Consensus Blockdata

/-- `Error`. -/
inductive Error where
  | utxoMissing (coin : OutPoint)
  | io (e : IoError)

/-- `is_op_return`. -/
def isOpReturn (script : ByteVec) : Bool :=
  match script.toList.head? with
  | some b => b = 0x6a
  | none => false

section
variable (sha256d : Bytes → ByteArr 32) [Secp256k1]

structure BlockFilterWriter where
  block : Block
  writer : GcsFilterWriter

namespace BlockFilterWriter

def new (block : Block) : Option BlockFilterWriter := do
  let blockHash ← (block.header.blockHash sha256d).toOption
  let k0 := UInt64.ofNat (fromLittleEndian (blockHash.val.take 8))
  let k1 := UInt64.ofNat (fromLittleEndian ((blockHash.val.drop 8).take 8))
  pure { block, writer := .new k0 k1 M P }

def addElement (self : BlockFilterWriter) (data : Bytes) : BlockFilterWriter :=
  { self with writer := self.writer.addElement data }

/-- The output scripts that are added. -/
def outputScripts (block : Block) : List Bytes :=
  block.txdata.toList.flatMap fun transaction =>
    (transaction.output.toList.filter fun output => !isOpReturn output.scriptPubkey).map
      (·.scriptPubkey.toList)

def addOutputScripts (self : BlockFilterWriter) : BlockFilterWriter :=
  (outputScripts self.block).foldl addElement self

/-- The coins that a block spends; the first transaction is the coinbase. -/
def spentCoins (block : Block) : List OutPoint :=
  (block.txdata.toList.drop 1).flatMap fun t => t.input.toList.map (·.previousOutput)

def addInputScripts (self : BlockFilterWriter) (scriptForCoin : OutPoint → Except Error ByteVec) :
    Except Error BlockFilterWriter :=
  (spentCoins self.block).foldlM (fun self coin => do
    let script ← scriptForCoin coin
    pure (self.addElement script.toList)) self

def finish (self : BlockFilterWriter) : Outcome (Nat × Bytes) := self.writer.finish

end BlockFilterWriter

def BlockFilter.newScriptFilter (block : Block) (scriptForCoin : OutPoint → Except Error ByteVec) :
    ExceptT Error Option BlockFilter := do
  let writer ← orPanic (BlockFilterWriter.new sha256d block)
  let writer ← liftM (writer.addOutputScripts.addInputScripts scriptForCoin)
  let (_, content) ← ExceptT.mk (writer.finish.run.map (Except.mapError Error.io))
  pure { content }

/-- `FilterHash::filter_header`. -/
def filterHeaderOfHash (filterHash previousFilterHeader : ByteArr 32) : ByteArr 32 :=
  sha256d (filterHash.val ++ previousFilterHeader.val)

def BlockFilter.filterHeader (self : BlockFilter) (previousFilterHeader : ByteArr 32) : ByteArr 32 :=
  filterHeaderOfHash sha256d (sha256d self.content) previousFilterHeader

end

/-! What a filter holds. -/

namespace GcsFilterWriter

/-- The filter of what was added, without the empty elements. -/
theorem finish_added (k0 k1 : UInt64) {m : UInt64} {p : UInt8} (positive : 0 < m) (short : p < 64)
    {S : Finset Bytes} (fits : S.card * m.toNat < 2 ^ 64) {added : List Bytes}
    (all : ∀ e, e ∈ S ↔ e ∈ added ∧ e ≠ []) : ∃ bytes values,
      (added.foldl addElement (.new k0 k1 m p)).finish = pure (bytes.length, bytes) ∧
      Holds ⟨k0, k1, p⟩ values bytes ∧ values.length = S.card ∧
      ∀ value, value ∈ values ↔ ∃ e ∈ S, GcsFilter.mapped ⟨k0, k1, p⟩ m S.card e = value := by
  obtain ⟨filter, range, elements⟩ := added_spec (.new k0 k1 m p) added
  generalize added.foldl addElement (.new k0 k1 m p) = writer at filter range elements
  have members : ∀ e, e ∈ writer.elements ↔ e ∈ S := by
    intro e
    rw [elements, all]
    exact or_iff_left Std.ExtTreeSet.not_mem_empty
  have size := size_eq_card members
  have filter : writer.filter = ⟨k0, k1, p⟩ := filter
  have range : writer.m = m := range
  obtain ⟨bytes, values, finished, holds, length, contents⟩ := writer.finish_spec
    (by rwa [filter]) (by rwa [range]) (by rwa [range, size])
  rw [filter, range, size] at contents
  rw [filter] at holds
  refine ⟨bytes, values, finished, holds, length.trans size, fun value => ?_⟩
  simp only [contents, members]

end GcsFilterWriter

section
variable [Secp256k1]

/-- The block creates an output with the script that is not an `OP_RETURN`, or spends one with
it. Empty scripts are left out. -/
def Concerns (block : Block) (scriptForCoin : OutPoint → Except Error ByteVec) (script : Bytes) : Prop :=
  script ≠ [] ∧
    ((∃ transaction ∈ block.txdata.toList, ∃ output ∈ transaction.output.toList,
        isOpReturn output.scriptPubkey = false ∧ output.scriptPubkey.toList = script) ∨
      ∃ transaction ∈ block.txdata.toList.drop 1, ∃ input ∈ transaction.input.toList,
        ∃ spent, scriptForCoin input.previousOutput = .ok spent ∧ spent.toList = script)

/-- The scripts of a block that are added one after the other. -/
def addedScripts (block : Block) (scriptForCoin : OutPoint → Except Error ByteVec) : List Bytes :=
  BlockFilterWriter.outputScripts block ++ (BlockFilterWriter.spentCoins block).filterMap
    fun coin => (scriptForCoin coin).toOption.map (·.toList)

def concernedScripts (block : Block) (scriptForCoin : OutPoint → Except Error ByteVec) : Finset Bytes :=
  (addedScripts block scriptForCoin).toFinset.erase []

theorem mem_concernedScripts {block : Block} {scriptForCoin : OutPoint → Except Error ByteVec}
    {script : Bytes} : script ∈ concernedScripts block scriptForCoin ↔
      Concerns block scriptForCoin script := by
  rw [concernedScripts, Finset.mem_erase, List.mem_toFinset, addedScripts, List.mem_append,
    BlockFilterWriter.outputScripts, BlockFilterWriter.spentCoins, Concerns]
  refine and_congr_right fun _ => or_congr ?_ ?_
  · simp only [List.mem_flatMap, List.mem_map, List.mem_filter, Bool.not_eq_true', and_assoc]
  · simp only [List.mem_filterMap, List.mem_flatMap, List.mem_map, Option.map_eq_some_iff,
      toOption_eq_some]
    constructor
    · rintro ⟨_, ⟨transaction, member, input, spends, rfl⟩, spent, known, rfl⟩
      exact ⟨transaction, member, input, spends, spent, known, rfl⟩
    · rintro ⟨transaction, member, input, spends, spent, known, rfl⟩
      exact ⟨_, ⟨transaction, member, input, spends, rfl⟩, spent, known, rfl⟩

namespace BlockFilterWriter
variable {block : Block} {scriptForCoin : OutPoint → Except Error ByteVec}

theorem foldl_addElement (added : List Bytes) (self : BlockFilterWriter) :
    added.foldl addElement self =
      { self with writer := added.foldl GcsFilterWriter.addElement self.writer } := by
  induction added generalizing self with
  | nil => rfl
  | cons data added ih => exact ih (self.addElement data)

/-- The scripts of coins are added until one is not known. -/
theorem addInputScripts_eq (self : BlockFilterWriter)
    (known : ∀ coin ∈ spentCoins self.block, ∃ script, scriptForCoin coin = .ok script) :
    self.addInputScripts scriptForCoin = .ok (((spentCoins self.block).filterMap fun coin =>
      (scriptForCoin coin).toOption.map (·.toList)).foldl addElement self) := by
  rw [addInputScripts]
  generalize spentCoins self.block = coins at known
  induction coins generalizing self with
  | nil => rfl
  | cons coin coins ih =>
    rw [List.forall_mem_cons] at known
    obtain ⟨script, found⟩ := known.1
    rw [List.foldlM_cons, found, List.filterMap_cons, found]
    exact ih (self.addElement script.toList) known.2

theorem addInputScripts_error (self : BlockFilterWriter) {before after : List OutPoint} {coin : OutPoint}
    {e : Error} (spends : spentCoins self.block = before ++ coin :: after)
    (known : ∀ c ∈ before, ∃ script, scriptForCoin c = .ok script)
    (missing : scriptForCoin coin = .error e) : self.addInputScripts scriptForCoin = .error e := by
  rw [addInputScripts, spends]
  clear spends
  induction before generalizing self with
  | nil =>
    rw [List.nil_append, List.foldlM_cons, missing]
    rfl
  | cons c before ih =>
    rw [List.forall_mem_cons] at known
    obtain ⟨script, found⟩ := known.1
    rw [List.cons_append, List.foldlM_cons, found]
    exact ih (self.addElement script.toList) known.2

end BlockFilterWriter

variable (sha256d : Bytes → ByteArr 32)

omit [Secp256k1] in
theorem blockHash_eq (header : Header) : header.blockHash sha256d = .ok (sha256d (Header.wire header)) := by
  rw [Header.blockHash, Header.codec.emits, serialize, Emission.toBytes_written]
  rfl

namespace BlockFilter
variable {block : Block} {scriptForCoin : OutPoint → Except Error ByteVec}

/-- The filter of a block whose coins are known. -/
theorem newScriptFilter_of_known
    (known : ∀ coin ∈ BlockFilterWriter.spentCoins block, ∃ script, scriptForCoin coin = .ok script)
    (fits : (concernedScripts block scriptForCoin).card * M.toNat < 2 ^ 64) :
    ∃ filter values, (newScriptFilter sha256d block scriptForCoin).run = some (.ok filter) ∧
      Holds (blockFilterReader (sha256d (Header.wire block.header))).filter values filter.content ∧
      values.length = (concernedScripts block scriptForCoin).card ∧
      ∀ value, value ∈ values ↔ ∃ e ∈ concernedScripts block scriptForCoin,
        (blockFilterReader (sha256d (Header.wire block.header))).filter.mapped M
          (concernedScripts block scriptForCoin).card e = value := by
  have all : ∀ e, e ∈ concernedScripts block scriptForCoin ↔
      e ∈ addedScripts block scriptForCoin ∧ e ≠ [] := by
    intro e
    rw [concernedScripts, Finset.mem_erase, List.mem_toFinset, and_comm]
  obtain ⟨bytes, values, finished, holds, length, contents⟩ := GcsFilterWriter.finish_added
    (blockFilterReader (sha256d (Header.wire block.header))).filter.k0
    (blockFilterReader (sha256d (Header.wire block.header))).filter.k1 (by decide : 0 < M)
    (by decide : P < 64) fits all
  refine ⟨⟨bytes⟩, values, ?_, holds, length, contents⟩
  have started : BlockFilterWriter.new sha256d block = some ⟨block, .new
      (blockFilterReader (sha256d (Header.wire block.header))).filter.k0
      (blockFilterReader (sha256d (Header.wire block.header))).filter.k1 M P⟩ := by
    rw [BlockFilterWriter.new, blockHash_eq]
    rfl
  rw [newScriptFilter, started, orPanic_bind, BlockFilterWriter.addInputScripts_eq]
  · rw [lift_ok_bind, BlockFilterWriter.addOutputScripts, BlockFilterWriter.foldl_addElement,
      BlockFilterWriter.foldl_addElement, BlockFilterWriter.finish, ← List.foldl_append]
    rw [addedScripts] at finished
    rw [finished]
    rfl
  · rw [BlockFilterWriter.addOutputScripts, BlockFilterWriter.foldl_addElement]
    exact known

theorem newScriptFilter_error {before after : List OutPoint} {coin : OutPoint} {e : Error}
    (spends : BlockFilterWriter.spentCoins block = before ++ coin :: after)
    (known : ∀ c ∈ before, ∃ script, scriptForCoin c = .ok script)
    (missing : scriptForCoin coin = .error e) :
    (newScriptFilter sha256d block scriptForCoin).run = some (.error e) := by
  obtain ⟨writer, started⟩ : ∃ writer, BlockFilterWriter.new sha256d block = some ⟨block, writer⟩ := by
    rw [BlockFilterWriter.new, blockHash_eq]
    exact ⟨_, rfl⟩
  have same : BlockFilterWriter.spentCoins (BlockFilterWriter.mk block writer).addOutputScripts.block =
      before ++ coin :: after := by
    rw [BlockFilterWriter.addOutputScripts, BlockFilterWriter.foldl_addElement]
    exact spends
  rw [newScriptFilter, started, orPanic_bind, BlockFilterWriter.addInputScripts_error _ same known missing]
  rfl

omit [Secp256k1] in
/-- What the filter of a block answers. -/
theorem answers_of_holds {filter : BlockFilter} {blockHash : ByteArr 32} {values : List UInt64}
    {S : Finset Bytes} (holds : Holds (blockFilterReader blockHash).filter values filter.content)
    (fits : S.card * M.toNat < 2 ^ 64) (length : values.length = S.card)
    (contents : ∀ value, value ∈ values ↔
      ∃ e ∈ S, (blockFilterReader blockHash).filter.mapped M S.card e = value) (query : List Bytes) :
    (filter.matchAny blockHash query).run = some (.ok (decide (∃ q ∈ query, ∃ e ∈ S,
        (blockFilterReader blockHash).filter.mapped M S.card e =
          (blockFilterReader blockHash).filter.mapped M S.card q))) ∧
      (filter.matchAll blockHash query).run = some (.ok (decide (∀ q ∈ query, ∃ e ∈ S,
        (blockFilterReader blockHash).filter.mapped M S.card e =
          (blockFilterReader blockHash).filter.mapped M S.card q))) := by
  have fits : values.length * (blockFilterReader blockHash).m.toNat < 2 ^ 64 := by rwa [length]
  constructor
  · obtain ⟨answer, ran, answers⟩ :=
      matchAny_spec (blockFilterReader blockHash) (by decide : P < 64) holds fits query
    simp only [length, contents] at answers
    rw [matchAny, ran, Bool.eq_iff_iff.mpr (answers.trans decide_eq_true_iff.symm)]
    rfl
  · obtain ⟨answer, ran, answers⟩ :=
      matchAll_spec (blockFilterReader blockHash) (by decide : P < 64) holds fits query
    simp only [length, contents] at answers
    rw [matchAll, ran, Bool.eq_iff_iff.mpr (answers.trans decide_eq_true_iff.symm)]
    rfl

end BlockFilter

/-- A script filter is made unless a coin is not known, and the first such coin is reported. It
answers by the hashes of the scripts of the block: none of them is ever missed. -/
theorem script_filter_exact (block : Block) (scriptForCoin : OutPoint → Except Error ByteVec) :
    (∀ before coin after e, BlockFilterWriter.spentCoins block = before ++ coin :: after →
      (∀ c ∈ before, ∃ script, scriptForCoin c = .ok script) → scriptForCoin coin = .error e →
        (BlockFilter.newScriptFilter sha256d block scriptForCoin).run = some (.error e)) ∧
    ((∀ coin ∈ BlockFilterWriter.spentCoins block, ∃ script, scriptForCoin coin = .ok script) →
      (concernedScripts block scriptForCoin).card * M.toNat < 2 ^ 64 →
      ∃ filter blockHash, block.header.blockHash sha256d = .ok blockHash ∧
        (BlockFilter.newScriptFilter sha256d block scriptForCoin).run = some (.ok filter) ∧
        ∀ query,
          (filter.matchAny blockHash query).run = some (.ok (decide (∃ q ∈ query,
            ∃ e ∈ concernedScripts block scriptForCoin,
              (blockFilterReader blockHash).filter.mapped M
                  (concernedScripts block scriptForCoin).card e =
                (blockFilterReader blockHash).filter.mapped M
                  (concernedScripts block scriptForCoin).card q))) ∧
          (filter.matchAll blockHash query).run = some (.ok (decide (∀ q ∈ query,
            ∃ e ∈ concernedScripts block scriptForCoin,
              (blockFilterReader blockHash).filter.mapped M
                  (concernedScripts block scriptForCoin).card e =
                (blockFilterReader blockHash).filter.mapped M
                  (concernedScripts block scriptForCoin).card q))) ∧
          ((∃ q ∈ query, Concerns block scriptForCoin q) →
            (filter.matchAny blockHash query).run = some (.ok true)) ∧
          ((∀ q ∈ query, Concerns block scriptForCoin q) →
            (filter.matchAll blockHash query).run = some (.ok true))) := by
  refine ⟨fun before coin after e spends known missing =>
    BlockFilter.newScriptFilter_error sha256d spends known missing, fun known fits => ?_⟩
  obtain ⟨filter, values, made, holds, length, contents⟩ :=
    BlockFilter.newScriptFilter_of_known sha256d known fits
  refine ⟨filter, _, blockHash_eq sha256d block.header, made, fun query => ?_⟩
  obtain ⟨any, all⟩ := BlockFilter.answers_of_holds holds fits length contents query
  refine ⟨any, all, ?_, fun concerned => ?_⟩
  · rintro ⟨q, asked, concerned⟩
    rw [any, decide_eq_true ⟨q, asked, q, mem_concernedScripts.mpr concerned, rfl⟩]
  · rw [all, decide_eq_true fun q asked => ⟨q, mem_concernedScripts.mpr (concerned q asked), rfl⟩]

/-! Chains of filter headers. -/

/-- The header of the last of the filters that follow one another. -/
def lastHeader (previous : ByteArr 32) (filters : List BlockFilter) : ByteArr 32 :=
  filters.foldl (fun header filter => filter.filterHeader sha256d header) previous

/-- What is hashed for these headers. -/
def hashedFor (previous : ByteArr 32) (filters : List BlockFilter) : Set Bytes :=
  {data | ∃ link ∈ links (fun header filter => BlockFilter.filterHeader sha256d filter header) previous
    filters, data = link.2.content ∨ data = (sha256d link.2.content).val ++ link.1.val}

omit [Secp256k1] in
/-- A header is the header of one filter after one header. -/
theorem filterHeader_inj {filter filter' : BlockFilter} {previous previous' : ByteArr 32} {S : Set Bytes}
    (binds : Set.InjOn sha256d S) (content : filter.content ∈ S) (content' : filter'.content ∈ S)
    (data : (sha256d filter.content).val ++ previous.val ∈ S)
    (data' : (sha256d filter'.content).val ++ previous'.val ∈ S)
    (same : filter.filterHeader sha256d previous = filter'.filterHeader sha256d previous') :
    previous = previous' ∧ filter = filter' := by
  have length : (sha256d filter.content).val.length = (sha256d filter'.content).val.length := by
    rw [(sha256d filter.content).property, (sha256d filter'.content).property]
  obtain ⟨hash, header⟩ := List.append_inj (binds data data' same) length
  have contents := binds content content' (Subtype.ext hash)
  cases filter
  exact ⟨Subtype.ext header, congrArg BlockFilter.mk contents⟩

omit [Secp256k1] in
/-- The last header binds the filters of a chain. -/
theorem eq_of_lastHeader_eq {previous previous' : ByteArr 32} {filters filters' : List BlockFilter}
    (length : filters.length = filters'.length)
    (binds : Set.InjOn sha256d (hashedFor sha256d previous filters ∪ hashedFor sha256d previous' filters'))
    (same : lastHeader sha256d previous filters = lastHeader sha256d previous' filters') :
    previous = previous' ∧ filters = filters' := by
  refine eq_of_foldl_eq length (fun link member link' member' equal => ?_) same
  have content : ∀ l ∈ {l | l ∈ links (fun header filter => BlockFilter.filterHeader sha256d filter header)
        previous filters} ∪ {l | l ∈ links
          (fun header filter => BlockFilter.filterHeader sha256d filter header) previous' filters'},
      l.2.content ∈ hashedFor sha256d previous filters ∪ hashedFor sha256d previous' filters' ∧
        (sha256d l.2.content).val ++ l.1.val ∈
          hashedFor sha256d previous filters ∪ hashedFor sha256d previous' filters' := by
    rintro l (first | second)
    · exact ⟨.inl ⟨l, first, .inl rfl⟩, .inl ⟨l, first, .inr rfl⟩⟩
    · exact ⟨.inr ⟨l, second, .inl rfl⟩, .inr ⟨l, second, .inr rfl⟩⟩
  obtain ⟨header, filter⟩ := filterHeader_inj sha256d binds (content link member).1
    (content link' member').1 (content link member).2 (content link' member').2 equal
  exact Prod.ext header filter

/-- A query with a script that the block concerns matches the filter. -/
def MissesNothing (block : Block) (scriptForCoin : OutPoint → Except Error ByteVec)
    (filter : BlockFilter) : Prop :=
  ∃ blockHash, block.header.blockHash sha256d = .ok blockHash ∧
    ∀ query, (∃ q ∈ query, Concerns block scriptForCoin q) →
      (filter.matchAny blockHash query).run = some (.ok true)

theorem exists_missesNothing {block : Block} {scriptForCoin : OutPoint → Except Error ByteVec}
    (known : ∀ coin ∈ BlockFilterWriter.spentCoins block, ∃ script, scriptForCoin coin = .ok script)
    (fits : (concernedScripts block scriptForCoin).card * M.toNat < 2 ^ 64) :
    ∃ filter, (BlockFilter.newScriptFilter sha256d block scriptForCoin).run = some (.ok filter) ∧
      MissesNothing sha256d block scriptForCoin filter := by
  obtain ⟨filter, values, made, holds, counted, contents⟩ :=
    BlockFilter.newScriptFilter_of_known sha256d known fits
  refine ⟨filter, made, _, blockHash_eq sha256d block.header, ?_⟩
  rintro query ⟨q, asked, concerned⟩
  rw [(BlockFilter.answers_of_holds holds fits counted contents query).1,
    decide_eq_true ⟨q, asked, q, mem_concernedScripts.mpr concerned, rfl⟩]

/-- Whoever knows the last header of a chain of filters, made of blocks whose coins were known,
cannot be served other filters for it, and so misses no script of any of the blocks. -/
theorem served_filters_complete {blocks : List Block} {scriptForCoin : OutPoint → Except Error ByteVec}
    (known : ∀ block ∈ blocks, ∀ coin ∈ BlockFilterWriter.spentCoins block,
      ∃ script, scriptForCoin coin = .ok script)
    (fits : ∀ block ∈ blocks, (concernedScripts block scriptForCoin).card * M.toNat < 2 ^ 64)
    (genesis : ByteArr 32) : ∃ honest,
      (blocks.mapM fun block => BlockFilter.newScriptFilter sha256d block scriptForCoin).run =
        some (.ok honest) ∧
      ∀ previous served, served.length = blocks.length →
        Set.InjOn sha256d (hashedFor sha256d previous served ∪ hashedFor sha256d genesis honest) →
        lastHeader sha256d previous served = lastHeader sha256d genesis honest →
          previous = genesis ∧ served = honest ∧
            List.Forall₂ (MissesNothing sha256d · scriptForCoin ·) blocks served := by
  obtain ⟨honest, made, complete⟩ : ∃ honest,
      List.Forall₂ (fun block filter =>
        (BlockFilter.newScriptFilter sha256d block scriptForCoin).run = some (.ok filter)) blocks honest ∧
      List.Forall₂ (MissesNothing sha256d · scriptForCoin ·) blocks honest := by
    induction blocks with
    | nil => exact ⟨[], .nil, .nil⟩
    | cons block blocks ih =>
      rw [List.forall_mem_cons] at known fits
      obtain ⟨filter, made, complete⟩ := exists_missesNothing sha256d known.1 fits.1
      obtain ⟨honest, others, rest⟩ := ih known.2 fits.2
      exact ⟨filter :: honest, .cons made others, .cons complete rest⟩
  refine ⟨honest, run_mapM_of_forall₂ made, fun previous served length binds same => ?_⟩
  obtain ⟨rfl, rfl⟩ := eq_of_lastHeader_eq sha256d (length.trans made.length_eq) binds same
  exact ⟨rfl, rfl, complete⟩

end

namespace Sample
attribute [local instance] Secp256k1.generatorOnly
open Sha256.Software (sha256d)

def zeros : ByteArr 32 := .filled 32 0

/-- One input, and one output with a script of one byte. -/
def paying (coin : OutPoint) (value : UInt64) (script : UInt8) : Transaction where
  version := 1
  lockTime := .fromConsensus 0
  input := .singleton { previousOutput := coin, scriptSig := .empty, sequence := 0xffffffff, witness := .new }
  output := .singleton { value, scriptPubkey := .singleton script }
  mwTx := none
  isHogEx := false

def noCoin : OutPoint := { txid := zeros, vout := 0xffffffff }

/-- The reward goes to `OP_1`. -/
def firstBlock : Block where
  header := { version := 1, prevBlockhash := zeros, merkleRoot := zeros, time := 0, bits := 0, nonce := 0 }
  txdata := .singleton (paying noCoin 5000000000 0x51)
  mwebBlock := none

def firstReward : OutPoint where
  txid := ⟨[0xbd, 0xc5, 0x03, 0x22, 0x17, 0x4e, 0x34, 0x30, 0x28, 0x45, 0xce, 0x0e, 0x36, 0x40, 0x16, 0x19,
    0xb6, 0x9d, 0x28, 0x8a, 0x92, 0x29, 0x96, 0xb7, 0xc9, 0x2b, 0xff, 0x6c, 0xd1, 0xd5, 0x49, 0x4a], rfl⟩
  vout := 0

def firstHash : ByteArr 32 :=
  ⟨[0x9f, 0x54, 0xdb, 0xfe, 0x94, 0x21, 0x7c, 0x47, 0x3e, 0x9a, 0xcd, 0x5f, 0x52, 0x30, 0x3d, 0x85,
    0xce, 0x1e, 0xf5, 0xe5, 0x63, 0xa7, 0xe5, 0x5b, 0x37, 0x8a, 0xd5, 0x55, 0x08, 0x9f, 0xdd, 0x4d], rfl⟩

/-- The first reward goes on to `OP_3`. -/
def secondBlock : Block where
  header := { version := 1, prevBlockhash := firstHash, merkleRoot := zeros, time := 0, bits := 0, nonce := 0 }
  txdata := ⟨[paying noCoin 5000000000 0x52, paying firstReward 5000000000 0x53], by decide⟩
  mwebBlock := none

/-- The chain goes on from the hash of the first block. -/
theorem blocks_linked : firstBlock.header.blockHash sha256d = .ok secondBlock.header.prevBlockhash ∧
    (paying noCoin 5000000000 0x51).computeTxid sha256d = .ok firstReward.txid := by
  decide +kernel

def coins (coin : OutPoint) : Except Error ByteVec :=
  if coin = firstReward then .ok (.singleton 0x51) else .error (.utxoMissing coin)

theorem coins_known : ∀ block ∈ [firstBlock, secondBlock],
    ∀ coin ∈ BlockFilterWriter.spentCoins block, ∃ script, coins coin = .ok script := by
  have spent : [firstBlock, secondBlock].map BlockFilterWriter.spentCoins = [[], [firstReward]] := rfl
  simp only [List.map_cons, List.map_nil, List.cons.injEq, and_true] at spent
  simp [spent, coins]

theorem scripts_fit : ∀ block ∈ [firstBlock, secondBlock],
    (concernedScripts block coins).card * M.toNat < 2 ^ 64 := by decide

theorem secondBlock_concerns : Concerns secondBlock coins [0x51] ∧ Concerns secondBlock coins [0x53] := by
  refine ⟨⟨List.cons_ne_nil _ _, .inr ?_⟩, List.cons_ne_nil _ _, .inl ?_⟩
  · exact ⟨paying firstReward 5000000000 0x53, by simp [secondBlock], _, List.mem_singleton_self _, _, rfl, rfl⟩
  · exact ⟨paying firstReward 5000000000 0x53, by simp [secondBlock], _, List.mem_singleton_self _, rfl, rfl⟩

/-- The second block without and with its coin. -/
theorem secondBlock_answers :
    (BlockFilter.newScriptFilter sha256d secondBlock fun coin => .error (.utxoMissing coin)).run =
        some (.error (.utxoMissing firstReward)) ∧
      ∃ filter blockHash, secondBlock.header.blockHash sha256d = .ok blockHash ∧
        (BlockFilter.newScriptFilter sha256d secondBlock coins).run = some (.ok filter) ∧
        (filter.matchAny blockHash [[0x6a], [0x51]]).run = some (.ok true) ∧
        (filter.matchAll blockHash [[0x53], [0x51]]).run = some (.ok true) := by
  obtain ⟨missing, -⟩ := script_filter_exact sha256d secondBlock fun coin => .error (.utxoMissing coin)
  obtain ⟨-, found⟩ := script_filter_exact sha256d secondBlock coins
  have listed : secondBlock ∈ [firstBlock, secondBlock] := List.mem_cons_of_mem _ List.mem_cons_self
  obtain ⟨filter, blockHash, hashed, made, answers⟩ := found (coins_known _ listed) (scripts_fit _ listed)
  obtain ⟨-, -, any, -⟩ := answers [[0x6a], [0x51]]
  obtain ⟨-, -, -, all⟩ := answers [[0x53], [0x51]]
  refine ⟨missing [] firstReward [] _ rfl nofun rfl, filter, blockHash, hashed, made, any ?_, all ?_⟩
  · exact ⟨[0x51], by simp, secondBlock_concerns.1⟩
  · simp [secondBlock_concerns]

def firstContent : Bytes := [0x01, 0x9e, 0x59, 0x78]

def secondContent : Bytes := [0x03, 0xc9, 0x42, 0x08, 0x16, 0x5b, 0x0b, 0xa3, 0x1c]

theorem blocks_filtered :
    ([firstBlock, secondBlock].mapM fun block =>
        BlockFilter.newScriptFilter sha256d block coins).run.map
      (·.toOption.map fun filters => filters.map (·.content)) =
      some (some [firstContent, secondContent]) := by decide +kernel

/-- What is hashed for the filter headers. -/
def hashed : List Bytes :=
  [firstContent, (sha256d firstContent).val ++ zeros.val, secondContent,
    (sha256d secondContent).val ++ (BlockFilter.filterHeader sha256d ⟨firstContent⟩ zeros).val]

theorem mem_hashed (member : data ∈ hashedFor sha256d zeros [⟨firstContent⟩, ⟨secondContent⟩]) :
    data ∈ hashed := by
  obtain ⟨link, member, same⟩ := member
  obtain rfl | member := List.mem_cons.mp member
  · obtain rfl | rfl := same
    · exact List.mem_cons_self
    · exact List.mem_cons_of_mem _ List.mem_cons_self
  · obtain rfl := List.mem_singleton.mp member
    obtain rfl | rfl := same
    · simp [hashed]
    · simp [hashed]

theorem hashed_apart : (hashed.map sha256d).Nodup := by decide +kernel

theorem hashed_binds : Set.InjOn sha256d (hashedFor sha256d zeros [⟨firstContent⟩, ⟨secondContent⟩]) :=
  fun _ member _ member' same =>
    List.inj_on_of_nodup_map hashed_apart (mem_hashed member) (mem_hashed member') same

/-- The second block spends a coin with script `OP_1`, and so answers to that script. -/
theorem blocks_served : firstBlock.header.blockHash sha256d = .ok secondBlock.header.prevBlockhash ∧
    ∃ blockHash, secondBlock.header.blockHash sha256d = .ok blockHash ∧
      (BlockFilter.matchAny ⟨secondContent⟩ blockHash [[0x6a], [0x51]]).run = some (.ok true) := by
  refine ⟨blocks_linked.1, ?_⟩
  obtain ⟨honest, made, serves⟩ := served_filters_complete sha256d coins_known scripts_fit zeros
  obtain rfl : honest = [⟨firstContent⟩, ⟨secondContent⟩] := by
    have contents := blocks_filtered
    rw [made] at contents
    have same := Option.some.inj (Option.some.inj contents)
    obtain ⟨⟨_⟩, others, rfl, rfl, rest⟩ := List.map_eq_cons_iff.mp same
    obtain ⟨⟨_⟩, tail, rfl, rfl, ended⟩ := List.map_eq_cons_iff.mp rest
    obtain rfl := List.map_eq_nil_iff.mp ended
    rfl
  have binds := hashed_binds
  rw [← Set.union_self (hashedFor _ _ _)] at binds
  obtain ⟨-, -, complete⟩ := serves zeros _ rfl binds rfl
  obtain ⟨-, second⟩ := List.forall₂_cons.mp complete
  obtain ⟨⟨blockHash, same, answers⟩, -⟩ := List.forall₂_cons.mp second
  exact ⟨blockHash, same, answers _ ⟨[0x51], by simp, secondBlock_concerns.1⟩⟩

end Sample

end Bip158
end Litecoin
