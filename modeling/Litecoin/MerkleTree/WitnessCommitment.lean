import Litecoin.Blockdata.Sizes
import Litecoin.Blockdata.WitnessStack
import Litecoin.Crypto.CrateHashes
import Litecoin.MerkleTree.Binding
import Litecoin.Wire.Outcome

/-! The witness commitment of a block (`blockdata/block.rs`), and what a header binds of the
transactions of its block. -/
namespace Litecoin.Blockdata
open Wire Consensus MerkleTree

/-- Where a function is injective, its values determine a list. -/
theorem eq_of_map_injOn {f : α → β} {S : Set α} (injective : Set.InjOn f S) {xs ys : List α}
    (inside : ∀ x ∈ xs, x ∈ S) (inside' : ∀ y ∈ ys, y ∈ S) (same : xs.map f = ys.map f) : xs = ys := by
  induction xs generalizing ys with
  | nil => exact (List.map_eq_nil_iff.mp same.symm).symm
  | cons x xs ih =>
    cases ys with
    | nil => contradiction
    | cons y ys =>
      rw [List.forall_mem_cons] at inside inside'
      obtain ⟨first, rest⟩ := List.cons.inj same
      rw [injective inside.1 inside'.1 first, ih inside.2 inside'.2 rest]

namespace OutPoint

theorem length_zeros : (List.replicate 32 (0 : UInt8)).length = 32 := List.length_replicate

def null : OutPoint := { txid := ⟨List.replicate 32 0, length_zeros⟩, vout := 0xffffffff }

def isNull (outPoint : OutPoint) : Bool := outPoint = null

end OutPoint

section
variable [Secp256k1]

def Transaction.isCoinbase (tx : Transaction) : Bool :=
  match tx.input.toList with
  | [input] => input.previousOutput.isNull
  | _ => false

namespace Block

/-- `MAGIC`, the start of an output script with a commitment. -/
def commitmentMagic : Bytes := [0x6a, 0x24, 0xaa, 0x21, 0xa9, 0xed]

/-- The last output that starts with the magic bytes. -/
def commitmentOutput (coinbase : Transaction) : Option TxOut :=
  coinbase.output.toList.reverse.find? fun o =>
    38 ≤ o.scriptPubkey.toList.length ∧ o.scriptPubkey.toList.take 6 = commitmentMagic

def hasWitnesses (block : Block) : Bool :=
  !block.txdata.toList.all fun t => t.input.toList.all fun i => i.witness.isEmpty

variable (sha256d : Bytes → ByteArr 32)

omit [Secp256k1] in
def computeWitnessCommitment (witnessRoot : ByteArr 32) (witnessReservedValue : Bytes) : ByteArr 32 :=
  sha256d (witnessRoot.val ++ witnessReservedValue)

/-- `check_witness_commitment`; `none` is a panic. -/
def checkWitnessCommitment (block : Block) : Option Bool :=
  if !block.hasWitnesses then some true
  else match block.txdata.toList with
  | [] => some false
  | coinbase :: _ =>
    if !coinbase.isCoinbase then some false
    else match commitmentOutput coinbase, coinbase.input.toList with
    | some output, input :: _ => do
      match ← input.witness.packed.toVec with
      | [reserved] =>
        if reserved.length = 32 then
          match ← (block.witnessRoot sha256d).toOption with
          | some witnessRoot => some ((output.scriptPubkey.toList.drop 6).take 32 =
              (computeWitnessCommitment sha256d witnessRoot reserved).val)
          | none => some false
        else some false
      | _ => some false
    | _, _ => some false

/-! What the check says. -/

/-- The commitment of a block with witnesses that passes the check. -/
structure Commits (block : Block) (coinbase : Transaction) (input : TxIn) (reserved : Bytes)
    (witnessRoot : ByteArr 32) (output : TxOut) : Prop where
  first : block.txdata.toList.head? = some coinbase
  only : coinbase.input.toList = [input]
  collected : input.witness.packed.toVec = some [reserved]
  root : block.witnessRoot sha256d = .ok (some witnessRoot)
  found : commitmentOutput coinbase = some output
  commitment : (output.scriptPubkey.toList.drop 6).take 32 =
    (computeWitnessCommitment sha256d witnessRoot reserved).val

theorem exists_commits {block : Block} (some' : block.hasWitnesses = true)
    (checked : block.checkWitnessCommitment sha256d = some true) :
    ∃ coinbase input reserved witnessRoot output,
      Commits sha256d block coinbase input reserved witnessRoot output := by
  rw [checkWitnessCommitment, some'] at checked
  simp only [Bool.not_true, Bool.false_eq_true, if_false] at checked
  rcases listed : block.txdata.toList with _ | ⟨coinbase, rest⟩
  · simp [listed] at checked
  · simp only [listed] at checked
    rcases coin : coinbase.isCoinbase with _ | _
    · simp [coin] at checked
    · simp only [coin, Bool.not_true, Bool.false_eq_true, if_false] at checked
      rcases inputs : coinbase.input.toList with _ | ⟨input, _ | ⟨second, others⟩⟩
      · simp [Transaction.isCoinbase, inputs] at coin
      · rcases found : commitmentOutput coinbase with _ | output
        · simp [found, inputs] at checked
        · simp only [found, inputs, Option.bind_eq_bind, Option.bind_eq_some_iff] at checked
          obtain ⟨witness, collected, checked⟩ := checked
          rcases witness with _ | ⟨reserved, _ | ⟨second, others⟩⟩
          · simp at checked
          · simp only at checked
            split_ifs at checked
            swap
            · contradiction
            obtain ⟨root, hashed, checked⟩ := Option.bind_eq_some_iff.mp checked
            rcases root with _ | witnessRoot
            · simp at checked
            · refine ⟨coinbase, input, reserved, witnessRoot, output, ?_, inputs, collected,
                toOption_eq_some.mp hashed, found, by simpa using checked⟩
              rw [listed, List.head?_cons]
          · simp at checked
      · simp [Transaction.isCoinbase, inputs] at coin

/-! What is hashed. -/

theorem txids_eq (block : Block) :
    block.txids sha256d = .ok ((block.txdata.toList.map Transaction.plainWire).map sha256d) := by
  rw [List.map_map]
  refine mapM_ok fun tx _ => ?_
  rw [Transaction.computeTxid, Transaction.txidPreimage_eq, serialize, Emission.toBytes_written]
  rfl

theorem witnessHashes_eq {block : Block} {coinbase : Transaction} {rest : List Transaction}
    (listed : block.txdata.toList = coinbase :: rest) (roundTrips : ∀ tx ∈ rest, tx.RoundTrips) :
    block.witnessHashes sha256d = .ok (OutPoint.null.txid :: (rest.map Transaction.wire).map sha256d) := by
  have each : ∀ entry ∈ rest.zipIdx 1, (if entry.2 = 0 then pure OutPoint.null.txid
      else entry.1.computeWtxid sha256d) = .ok (sha256d entry.1.wire) := by
    intro entry member
    have later : entry.2 ≠ 0 := Nat.ne_of_gt (List.le_snd_of_mem_zipIdx member)
    have back := roundTrips entry.1 (List.fst_mem_of_mem_zipIdx member)
    rw [if_neg later, Transaction.computeWtxid, back.emits, serialize, Emission.toBytes_written]
    rfl
  have others : (rest.zipIdx 1).mapM (fun entry => if entry.2 = 0 then pure OutPoint.null.txid
      else entry.1.computeWtxid sha256d) = .ok (rest.map fun tx => sha256d tx.wire) := by
    refine (mapM_ok each).trans (congrArg Except.ok ?_)
    exact (List.map_map (g := fun tx : Transaction => sha256d tx.wire)).symm.trans
      (congrArg _ (List.zipIdx_map_fst 1 rest))
  rw [witnessHashes, listed, List.zipIdx_cons, List.mapM_cons, List.map_map]
  refine congrArg (fun later => pure OutPoint.null.txid >>= fun first => later >>= _) others

end Block

/-- What a txid is the hash of. -/
def Transaction.stripped (tx : Transaction) : Transaction :=
  { tx with input := tx.input.map TxIn.bare, mwTx := none, isHogEx := false }

theorem Transaction.stripped_eq {tx other : Transaction} (same : tx.plainWire = other.plainWire) :
    tx.stripped = other.stripped := by
  have bare : ∀ tx : Transaction, ∀ txin ∈ (tx.input.map TxIn.bare).toList, txin.witness = .new := by
    intro tx
    simp [TxIn.bare]
  obtain ⟨version, same⟩ := readI32_codec.reads.unique trivial trivial same
  have mapped : ∀ input : Vec TxIn, vecWire TxIn.wire input = vecWire TxIn.wire (input.map TxIn.bare) :=
    fun input => (vecWire_map input TxIn.wire_bare).symm
  rw [mapped tx.input, mapped other.input] at same
  obtain ⟨inputs, same⟩ := (decodeVec_reads TxIn.reads).unique (bare tx) (bare other) same
  obtain ⟨outputs, same⟩ := (decodeVec_reads TxOut.codec.reads).unique (fun _ _ => trivial)
    (fun _ _ => trivial) same
  rw [← List.append_nil tx.lockTime.wire, ← List.append_nil other.lockTime.wire] at same
  obtain ⟨lockTime, -⟩ := LockTime.codec.reads.unique trivial trivial same
  rw [stripped, stripped, version, inputs, outputs, lockTime]

theorem Transaction.RoundTrips.eq_of_wire {tx other : Transaction} (back : tx.RoundTrips)
    (back' : other.RoundTrips) (same : tx.wire = other.wire) : tx = other := by
  obtain ⟨bytes, written, read⟩ := id back
  obtain ⟨bytes', written', read'⟩ := id back'
  rw [back.emits, serialize_written] at written
  rw [back'.emits, serialize_written] at written'
  rw [← written, same, written', read'] at read
  exact (Except.ok.inj read).symm

theorem Transaction.RoundTrips.valid [Secp256k1.Canonical] {tx : Transaction} (back : tx.RoundTrips) :
    ∀ txin ∈ tx.input.toList, txin.witness.Valid := by
  have new : Witness.new.Valid := Nat.zero_le maxVecSize
  obtain ⟨bytes, -, read⟩ := back
  rw [deserialize_eq_ok, Transaction.consensusDecode_eq_ok] at read
  intro txin member
  rcases read with ⟨plain, -⟩ | ⟨segwit, mweb, presence, extended, -⟩
  · rw [plain.witnesses txin member]
    exact new
  · have part := extended.witnesses
    cases segwit with
    | false =>
      rw [part txin member]
      exact new
    | true => exact part.1 txin member

omit [Secp256k1] in
/-- A witness is what it is iterated over. -/
theorem Witness.eq_of_toVec {witness other : Witness}
    (same : witness.packed.toVec = other.packed.toVec) : witness = other := by
  obtain ⟨elements, packed, indexed⟩ := witness.wellFormed
  obtain ⟨elements', packed', indexed'⟩ := other.wellFormed
  rw [packed, packed', Packed.toVec_pack indexed, Packed.toVec_pack indexed'] at same
  have equal : elements = elements' :=
    Vec.ext (List.map_injective_iff.mpr (fun _ _ => Vec.ext) (Option.some.inj same))
  cases witness
  cases other
  exact Witness.mk.injEq .. ▸ (packed.trans (congrArg Packed.pack equal)).trans packed'.symm

namespace Block
variable (sha256d : Bytes → ByteArr 32)

/-- The byte strings that the two checks of a block hash. -/
def hashedIn (block : Block) : Set Bytes :=
  {data | (∃ tx ∈ block.txdata.toList, data = tx.plainWire ∨ data = tx.wire) ∨
    (∃ hashes, (block.txids sha256d = .ok hashes ∨ block.witnessHashes sha256d = .ok hashes) ∧
      ∃ pair ∈ PartialMerkleTree.rootPairs sha256d hashes, data = pair.1.val ++ pair.2.val) ∨
    ∃ coinbase input reserved witnessRoot output,
      Commits sha256d block coinbase input reserved witnessRoot output ∧
        data = witnessRoot.val ++ reserved}

omit [Secp256k1] in
theorem collisionFree {first second : List (ByteArr 32)} {S : Set Bytes} (binds : Set.InjOn sha256d S)
    (inside : ∀ pair ∈ PartialMerkleTree.rootPairs sha256d first, pair.1.val ++ pair.2.val ∈ S)
    (inside' : ∀ pair ∈ PartialMerkleTree.rootPairs sha256d second, pair.1.val ++ pair.2.val ∈ S) :
    CollisionFree sha256d first second := by
  have all : ∀ pair, pair ∈ PartialMerkleTree.rootPairs sha256d first ∨
      pair ∈ PartialMerkleTree.rootPairs sha256d second → pair.1.val ++ pair.2.val ∈ S :=
    fun pair => Or.rec (inside pair) (inside' pair)
  intro pair member pair' member' same
  obtain ⟨left, right⟩ := List.append_inj (binds (all pair member) (all pair' member') same)
    (pair.1.property.trans pair'.1.property.symm)
  exact Prod.ext (Subtype.ext left) (Subtype.ext right)

variable {block other : Block} {S : Set Bytes} (binds : Set.InjOn sha256d S)
  (inside : block.hashedIn sha256d ⊆ S) (inside' : other.hashedIn sha256d ⊆ S)
  (count : block.txdata.toList.length = other.txdata.toList.length)
include binds inside inside' count

/-- The merkle root of the header binds the transactions without their witnesses. -/
theorem stripped_bound (sameHeader : block.header = other.header)
    (checked : block.checkMerkleRoot sha256d = .ok true)
    (checked' : other.checkMerkleRoot sha256d = .ok true) :
    block.txdata.toList.map Transaction.stripped = other.txdata.toList.map Transaction.stripped := by
  obtain ⟨txids, hashed, root⟩ := (checkMerkleRoot_eq_true sha256d).mp checked
  obtain ⟨txids', hashed', root'⟩ := (checkMerkleRoot_eq_true sha256d).mp checked'
  have nonempty : txids ≠ [] := by
    rintro rfl
    exact absurd root nofun
  have length : txids.length = txids'.length := by
    rw [length_txids sha256d hashed, length_txids sha256d hashed', count]
  have free : CollisionFree sha256d txids txids' := collisionFree sha256d binds
    (fun pair member => inside (.inr (.inl ⟨txids, .inl hashed, pair, member, rfl⟩)))
    fun pair member => inside' (.inr (.inl ⟨txids', .inl hashed', pair, member, rfl⟩))
  have same := eq_of_calculateRoot sha256d nonempty free (by rw [root, root', sameHeader]) length
  obtain rfl := Except.ok.inj ((txids_eq sha256d block).symm.trans hashed)
  obtain rfl := Except.ok.inj ((txids_eq sha256d other).symm.trans hashed')
  have written : block.txdata.toList.map Transaction.plainWire = other.txdata.toList.map Transaction.plainWire := by
    refine eq_of_map_injOn binds ?_ ?_ same
    · rw [List.forall_mem_map]
      exact fun tx member => inside (.inl ⟨tx, member, .inl rfl⟩)
    · rw [List.forall_mem_map]
      exact fun tx member => inside' (.inl ⟨tx, member, .inl rfl⟩)
  rw [← List.forall₂_eq_eq_eq, List.forall₂_map_left_iff, List.forall₂_map_right_iff] at written ⊢
  exact written.imp fun _ _ => Transaction.stripped_eq

omit count in
/-- With one number of transactions, the same witness root is that of the same hashes. -/
theorem witnessHashes_bound {coinbase coinbase' : Transaction} {input input' : TxIn}
    {reserved reserved' : Bytes} {root : ByteArr 32} {output output' : TxOut}
    (commits : Commits sha256d block coinbase input reserved root output)
    (commits' : Commits sha256d other coinbase' input' reserved' root output')
    {hashes hashes' : List (ByteArr 32)} (hashed : block.witnessHashes sha256d = .ok hashes)
    (hashed' : other.witnessHashes sha256d = .ok hashes') (length : hashes.length = hashes'.length) :
    hashes = hashes' := by
  have found := commits.root
  have found' := commits'.root
  rw [witnessRoot, hashed] at found
  rw [witnessRoot, hashed'] at found'
  have calculated := Except.ok.inj found
  have calculated' := Except.ok.inj found'
  have nonempty : hashes ≠ [] := by
    rintro rfl
    exact absurd calculated nofun
  refine eq_of_calculateRoot sha256d nonempty ?_ (calculated.trans calculated'.symm) length
  exact collisionFree sha256d binds
    (fun pair member => inside (.inr (.inl ⟨hashes, .inr hashed, pair, member, rfl⟩)))
    fun pair member => inside' (.inr (.inl ⟨hashes', .inr hashed', pair, member, rfl⟩))

/-- The commitment binds the witnesses too, and past the coinbase the MWEB parts. -/
theorem witnesses_bound [Secp256k1.Canonical] {coinbase coinbase' : Transaction} {input input' : TxIn}
    {reserved reserved' : Bytes} {root root' : ByteArr 32} {output output' : TxOut}
    (commits : Commits sha256d block coinbase input reserved root output)
    (commits' : Commits sha256d other coinbase' input' reserved' root' output')
    (back : ∀ tx ∈ block.txdata.toList, tx.RoundTrips)
    (back' : ∀ tx ∈ other.txdata.toList, tx.RoundTrips)
    (stripped : block.txdata.toList.map Transaction.stripped = other.txdata.toList.map Transaction.stripped) :
    block.txdata.toList.modifyHead Transaction.withoutMweb =
      other.txdata.toList.modifyHead Transaction.withoutMweb := by
  obtain ⟨rest, listed⟩ := List.head?_eq_some_iff.mp commits.first
  obtain ⟨rest', listed'⟩ := List.head?_eq_some_iff.mp commits'.first
  rw [listed, listed', List.map_cons, List.map_cons] at stripped
  obtain ⟨first, -⟩ := List.cons.inj stripped
  obtain ⟨version, lockTime, inputs, outputs⟩ : coinbase.version = coinbase'.version ∧
      coinbase.lockTime = coinbase'.lockTime ∧
      coinbase.input.map TxIn.bare = coinbase'.input.map TxIn.bare ∧ coinbase.output = coinbase'.output := by
    simpa [Transaction.stripped] using first
  -- One commitment, so one witness root and one reserved value.
  have sameOutput : output = output' := by
    have found := commits'.found
    rw [commitmentOutput, ← outputs, ← commitmentOutput, commits.found] at found
    exact Option.some.inj found
  have committed : computeWitnessCommitment sha256d root reserved =
      computeWitnessCommitment sha256d root' reserved' :=
    Subtype.ext (by rw [← commits.commitment, ← commits'.commitment, sameOutput])
  obtain ⟨roots, reserves⟩ := List.append_inj
    (binds (inside (.inr (.inr ⟨_, _, _, _, _, commits, rfl⟩)))
      (inside' (.inr (.inr ⟨_, _, _, _, _, commits', rfl⟩))) committed)
    (root.property.trans root'.property.symm)
  obtain rfl := Subtype.ext roots
  obtain rfl := reserves
  rw [listed, List.forall_mem_cons] at back
  rw [listed', List.forall_mem_cons] at back'
  have later : rest = rest' := by
    have length : rest.length = rest'.length := by
      simpa [listed, listed'] using count
    have same := witnessHashes_bound sha256d binds inside inside' commits commits'
      (witnessHashes_eq sha256d listed back.2) (witnessHashes_eq sha256d listed' back'.2)
      (by simp [length])
    have written : rest.map Transaction.wire = rest'.map Transaction.wire := by
      refine eq_of_map_injOn binds ?_ ?_ (List.cons.inj same).2
      · rw [List.forall_mem_map]
        exact fun tx member => inside (.inl ⟨tx, listed ▸ .tail _ member, .inr rfl⟩)
      · rw [List.forall_mem_map]
        exact fun tx member => inside' (.inl ⟨tx, listed' ▸ .tail _ member, .inr rfl⟩)
    have injective : Set.InjOn Transaction.wire {tx | tx.RoundTrips} :=
      fun _ back _ back' same => back.eq_of_wire back' same
    exact eq_of_map_injOn injective back.2 back'.2 written
  have sameInput : coinbase.input = coinbase'.input := by
    refine Vec.ext ?_
    rw [commits.only, commits'.only]
    have bare := congrArg Vec.toList inputs
    simp only [Vec.toList_map, commits.only, commits'.only, List.map_cons, List.map_nil] at bare
    have witness : input.witness = input'.witness :=
      Witness.eq_of_toVec (commits.collected.trans commits'.collected.symm)
    have alike : input.bare = input'.bare := (List.cons.inj bare).1
    rw [show input = { input.bare with witness := input.witness } from rfl, alike, witness]
    rfl
  rw [listed, listed', List.modifyHead_cons, List.modifyHead_cons, later]
  refine congrArg (fun head => head :: rest') ?_
  rw [Transaction.withoutMweb, Transaction.withoutMweb, version, lockTime, sameInput, outputs]

end Block

namespace Block

/-- A header and the number of transactions bind the transactions that pass both checks: without
their witnesses, and when there are witnesses in both blocks with them and in all they are written
with, the MWEB part of the coinbase excepted. -/
theorem header_binds_transactions [Secp256k1.Canonical] (sha256d : Bytes → ByteArr 32)
    {block other : Block} (sameHeader : block.header = other.header)
    (count : block.txdata.toList.length = other.txdata.toList.length)
    (binds : Set.InjOn sha256d (block.hashedIn sha256d ∪ other.hashedIn sha256d))
    (checked : block.checkMerkleRoot sha256d = .ok true)
    (checked' : other.checkMerkleRoot sha256d = .ok true) :
    block.txdata.toList.map Transaction.stripped = other.txdata.toList.map Transaction.stripped ∧
    ((∀ tx ∈ block.txdata.toList, tx.RoundTrips) → (∀ tx ∈ other.txdata.toList, tx.RoundTrips) →
      block.checkWitnessCommitment sha256d = some true →
      other.checkWitnessCommitment sha256d = some true →
      block.hasWitnesses = true → other.hasWitnesses = true →
      block.txdata.toList.modifyHead Transaction.withoutMweb =
        other.txdata.toList.modifyHead Transaction.withoutMweb) := by
  have inside : block.hashedIn sha256d ⊆ block.hashedIn sha256d ∪ other.hashedIn sha256d :=
    Set.subset_union_left
  have inside' : other.hashedIn sha256d ⊆ block.hashedIn sha256d ∪ other.hashedIn sha256d :=
    Set.subset_union_right
  have stripped := stripped_bound sha256d binds inside inside' count sameHeader checked checked'
  refine ⟨stripped, fun back back' committed committed' witnesses witnesses' => ?_⟩
  obtain ⟨_, _, _, _, _, commits⟩ := exists_commits sha256d witnesses committed
  obtain ⟨_, _, _, _, _, commits'⟩ := exists_commits sha256d witnesses' committed'
  exact witnesses_bound sha256d binds inside inside' count commits commits' back back' stripped

end Block
end

/-! Two blocks with witnesses under one header. -/
namespace Sample
attribute [local instance] Secp256k1.generatorOnly
open Sha256.Software (sha256d)

def reserved : ByteVec := ⟨List.replicate 32 9, by decide⟩

/-- The hash of the transaction behind the coinbase. -/
def spendHash : ByteArr 32 := hashOf 0x50fa7bd4e5e2d3220fd2e84effec495b9845aba379d853408779d59a4b0b4f59

def witnessRoot : ByteArr 32 := hashOf 0x3606edd5756cc491822b9f9e8749c9446f40a0aeede2f34c954e0b3eadca64ea

def commitment : ByteArr 32 := hashOf 0x8bc7d38c4a8d0897f4c57b9633a769f2af6c958d035eb1042a886b725fb69af1

def committedScript : ByteVec := ⟨Block.commitmentMagic ++ commitment.val, by decide⟩

def coinbaseInput : TxIn where
  previousOutput := .null
  scriptSig := .empty
  sequence := 0xffffffff
  witness := ⟨.pack (.singleton reserved), _, rfl, Packed.indexed_of_le (by decide)⟩

def coinbase (isHogEx : Bool) : Transaction where
  version := 1
  lockTime := .fromConsensus 0
  input := .singleton coinbaseInput
  output := .singleton { value := 5000000000, scriptPubkey := committedScript }
  mwTx := none
  isHogEx := isHogEx

theorem two_fit (first second : Transaction) : [first, second].length < 2 ^ 64 :=
  Nat.lt_trans (Nat.lt_succ_self 2) (by decide)

def coinbaseHash : ByteArr 32 := hashOf 0xf0dd731460ae02c8d3c755476a717045f9a3207d36025c25858d6e699937927f

def merkleRoot : ByteArr 32 := hashOf 0xc940c37d146b4106d67e199c2dbf34d83d2c937e5076570142fd494c9f96fbe0

/-- Whether the coinbase is a HogEx is hashed in neither root. -/
def block (isHogEx : Bool) : Block where
  header := { version := 1, prevBlockhash := hashOf 0, merkleRoot, time := 2, bits := 3, nonce := 4 }
  txdata := ⟨[coinbase isHogEx, Transaction.spending false], two_fit _ _⟩
  mwebBlock := none

/-- What is hashed for the two blocks. -/
def hashed : List Bytes :=
  [(coinbase false).plainWire, (Transaction.spending false).wire, coinbaseHash.val ++ spendHash.val,
    (hashOf 0).val ++ spendHash.val, witnessRoot.val ++ reserved.toList, (coinbase false).wire,
    (coinbase true).wire]

theorem hashed_evaluates : hashed.map sha256d =
    [coinbaseHash, spendHash, merkleRoot, witnessRoot, commitment,
      hashOf 0xfce3a397f3d6b8f3ae6fc72a6c167d12176031e7f3d5d77a927fb15f0d0fabfa,
      hashOf 0x1e69fe85f1ada9c4c4d88c5e9b8c31376b3f0a1240d6045d46167fa5147e05e3] := by
  decide +kernel

theorem hashed_apart : (hashed.map sha256d).Nodup := by
  rw [hashed_evaluates]
  decide

theorem parts_evaluate : (Transaction.spending false).plainWire = (Transaction.spending false).wire ∧
    (∀ isHogEx, (coinbase isHogEx).plainWire = (coinbase false).plainWire) ∧
    (Packed.pack (.singleton reserved)).toVec = some [reserved.toList] := by
  decide

theorem block_roundTrips (isHogEx : Bool) : ∀ tx ∈ (block isHogEx).txdata.toList, tx.RoundTrips := by
  intro tx member
  obtain rfl | member := List.mem_cons.mp member
  · cases isHogEx
    · exact ⟨(coinbase false).wire, by decide +kernel, by decide +kernel⟩
    · exact ⟨(coinbase true).wire, by decide +kernel, by decide +kernel⟩
  · obtain rfl := List.mem_singleton.mp member
    exact ⟨(Transaction.spending false).wire, by decide, by decide⟩

theorem block_evaluates (isHogEx : Bool) :
    (block isHogEx).txids sha256d = .ok [coinbaseHash, spendHash] ∧
    (block isHogEx).witnessHashes sha256d = .ok [hashOf 0, spendHash] ∧
    (block isHogEx).witnessRoot sha256d = .ok (some witnessRoot) ∧
    (block isHogEx).checkMerkleRoot sha256d = .ok true ∧
    (block isHogEx).checkWitnessCommitment sha256d = some true ∧
    (block isHogEx).hasWitnesses = true := by
  obtain ⟨spendPlain, coinbasePlain, taken⟩ := parts_evaluate
  have values := hashed_evaluates
  simp only [hashed, List.map_cons, List.map_nil, List.cons.injEq, and_true] at values
  obtain ⟨coinbaseValue, spendValue, merkleValue, witnessValue, commitmentValue, -, -⟩ := values
  have txids : (block isHogEx).txids sha256d = .ok [coinbaseHash, spendHash] := by
    rw [Block.txids_eq]
    simp only [block, List.map_cons, List.map_nil, coinbasePlain isHogEx, spendPlain, coinbaseValue, spendValue]
  have hashes : (block isHogEx).witnessHashes sha256d = .ok [hashOf 0, spendHash] := by
    have others : ∀ tx ∈ [Transaction.spending false], tx.RoundTrips :=
      fun tx member => block_roundTrips isHogEx tx (List.mem_cons_of_mem _ member)
    rw [Block.witnessHashes_eq sha256d rfl others]
    simp only [List.map_cons, List.map_nil, spendValue]
    rfl
  have pairRoot (a b : ByteArr 32) : calculateRoot sha256d [a, b] = some (sha256d (a.val ++ b.val)) := rfl
  have root : (block isHogEx).witnessRoot sha256d = .ok (some witnessRoot) := by
    rw [Block.witnessRoot, hashes, Except.map, pairRoot, witnessValue]
  have witnesses : (block isHogEx).hasWitnesses = true := by
    cases isHogEx <;> decide
  refine ⟨txids, hashes, root, ?_, ?_, witnesses⟩
  · rw [Block.checkMerkleRoot, Block.computeMerkleRoot, txids]
    simp only [Except.map, pairRoot, merkleValue, block, decide_true]
  · have coin : (coinbase isHogEx).isCoinbase = true := by cases isHogEx <;> decide
    have output : Block.commitmentOutput (coinbase isHogEx) =
        some { value := 5000000000, scriptPubkey := committedScript } := by cases isHogEx <;> decide
    have listed : (block isHogEx).txdata.toList = [coinbase isHogEx, Transaction.spending false] := rfl
    have inputs : (coinbase isHogEx).input.toList = [coinbaseInput] := rfl
    have size : reserved.toList.length = 32 := by decide
    have committed : (committedScript.toList.drop 6).take 32 = commitment.val := by decide
    rw [Block.checkWitnessCommitment, witnesses, listed]
    simp [coin, output, inputs, coinbaseInput, taken, root, size, committed, Except.toOption,
      Block.computeWitnessCommitment, commitmentValue]

theorem block_hashed (isHogEx : Bool) : (block isHogEx).hashedIn sha256d ⊆ {data | data ∈ hashed} := by
  obtain ⟨spendPlain, coinbasePlain, taken⟩ := parts_evaluate
  obtain ⟨txids, hashes, root, -⟩ := block_evaluates isHogEx
  rintro data (⟨tx, member, written⟩ | ⟨hashes', made | made, pair, member, rfl⟩ |
    ⟨first, input, value, root', output, commits, rfl⟩)
  · obtain rfl | member := List.mem_cons.mp member
    · obtain rfl | rfl := written
      · simp [hashed, coinbasePlain]
      · cases isHogEx <;> simp [hashed]
    · obtain rfl := List.mem_singleton.mp member
      obtain rfl | rfl := written
      · simp [hashed, spendPlain]
      · simp [hashed]
  · obtain rfl := Except.ok.inj (txids.symm.trans made)
    obtain rfl : pair = (coinbaseHash, spendHash) := List.mem_singleton.mp member
    simp [hashed]
  · obtain rfl := Except.ok.inj (hashes.symm.trans made)
    obtain rfl : pair = (hashOf 0, spendHash) := List.mem_singleton.mp member
    simp [hashed]
  · obtain rfl : coinbase isHogEx = first := Option.some.inj commits.first
    obtain rfl := (List.cons.inj commits.only).1
    obtain rfl := (List.cons.inj (Option.some.inj (taken.symm.trans commits.collected))).1
    obtain rfl := Option.some.inj (Except.ok.inj (root.symm.trans commits.root))
    simp [hashed]

theorem hashed_binds : Set.InjOn sha256d
    ((block false).hashedIn sha256d ∪ (block true).hashedIn sha256d) := by
  have listed : ∀ data ∈ (block false).hashedIn sha256d ∪ (block true).hashedIn sha256d, data ∈ hashed :=
    fun data member => member.elim (block_hashed false ·) (block_hashed true ·)
  exact fun data member data' member' =>
    List.inj_on_of_nodup_map hashed_apart (listed data member) (listed data' member')

/-- The two coinbases agree but for being a HogEx. -/
theorem blocks_bound : (coinbase false).withoutMweb = (coinbase true).withoutMweb := by
  have := Secp256k1.generatorOnly_lawful
  have sameHeader : (block false).header = (block true).header := rfl
  obtain ⟨-, -, -, checked, committed, witnesses⟩ := block_evaluates false
  obtain ⟨-, -, -, checked', committed', witnesses'⟩ := block_evaluates true
  have bound := Block.header_binds_transactions sha256d sameHeader rfl hashed_binds checked checked'
  have bound := bound.2 (block_roundTrips false) (block_roundTrips true) committed committed' witnesses witnesses'
  exact (List.cons.inj bound).1

end Sample
end Litecoin.Blockdata
