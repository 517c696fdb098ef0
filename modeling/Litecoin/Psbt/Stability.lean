import Litecoin.Blockdata.TransactionExactness
import Litecoin.Psbt.RawFormat
import Litecoin.Psbt.Serialize
import Litecoin.Taproot.Rebuild

/-! A value that was read is written again within the limits of a map and then read as
the same value. -/
namespace Litecoin.Psbt
open Wire Consensus Crypto Bip32 Taproot

theorem size_ofNat_le (n : Nat) (short : n < 2 ^ 32) : VarInt.size (UInt64.ofNat n) ≤ 5 := by
  have small : UInt64.ofNat n ≤ 0xFFFFFFFF := by
    rw [UInt64.le_iff_toNat_le, UInt64.toNat_ofNat_of_lt' (Nat.lt_trans short (by decide))]
    exact Nat.le_of_lt_succ short
  rw [VarInt.size]
  split_ifs <;> decide

theorem size_ofNat_eq (n : Nat) (long : 2 ^ 16 ≤ n) (short : n < 2 ^ 32) :
    VarInt.size (UInt64.ofNat n) = 5 := by
  have value : (UInt64.ofNat n).toNat = n :=
    UInt64.toNat_ofNat_of_lt' (Nat.lt_trans short (by decide))
  rw [VarInt.size, if_neg, if_neg, if_pos]
  · rw [UInt64.le_iff_toNat_le, value]
    exact Nat.le_of_lt_succ short
  · rw [UInt64.le_iff_toNat_le, value]
    exact Nat.not_le.mpr long
  · rw [UInt64.le_iff_toNat_le, value]
    exact Nat.not_le.mpr (Nat.lt_of_lt_of_le (by decide) long)

/-- Five bytes of a value's limit go to its length. -/
theorem sizedWire_short {data : Bytes} :
    (sizedWire data).length ≤ maxVecSize ↔ data.length ≤ maxVecSize - 5 := by
  rw [sizedWire, List.length_append, VarInt.wire_length]
  simp only [maxVecSize]
  constructor
  · intro short
    by_contra long
    rw [size_ofNat_eq _ (by omega) (by omega)] at short
    omega
  · intro short
    have := size_ofNat_le data.length (by omega)
    omega

namespace Value

/-- Written within the limit of a value and read back. -/
def Kept (value : Value α) (a : α) : Prop :=
  ∃ data, value.serialize a = .ok data ∧ value.deserialize data = .ok a ∧
    (sizedWire data).length ≤ maxVecSize

/-- Whatever is read from a value of a map is kept. -/
def Stable (value : Value α) : Prop :=
  ∀ data a, (sizedWire data).length ≤ maxVecSize → value.deserialize data = .ok a → value.Kept a

/-- Types whose values serve as key data. -/
def IsKey (value : Value κ) : Prop :=
  ∀ k, ∃ data, value.serialize k = .ok data ∧ value.deserialize data = .ok k ∧ data ≠ [] ∧
    data.length ≤ 5000

theorem Stable.of_length {value : Value α}
    (rewritten : ∀ data a, value.deserialize data = .ok a → ∃ written, value.serialize a = .ok written ∧
      value.deserialize written = .ok a ∧ written.length ≤ max data.length 5000) : value.Stable := by
  intro data a short read
  obtain ⟨written, serialized, reread, bound⟩ := rewritten data a read
  rw [sizedWire_short] at short
  refine ⟨written, serialized, reread, sizedWire_short.mpr ?_⟩
  simp only [maxVecSize] at short ⊢
  omega

/-- Values that are written as the bytes they were read from. -/
theorem Stable.of_exact {value : Value α}
    (exact : ∀ data a, value.deserialize data = .ok a → value.serialize a = .ok data) :
    value.Stable := fun data a short read => ⟨data, exact data a read, read, short⟩

theorem IsKey.stable {value : Value α} (isKey : value.IsKey) : value.Stable :=
  Stable.of_length fun data a _ => by
    obtain ⟨written, serialized, reread, _, bound⟩ := isKey a
    exact ⟨written, serialized, reread, bound.trans (Nat.le_max_right _ _)⟩

theorem consensus_stable {emit : α → Emission IoError} {d : Decoder Consensus.Error α}
    (emits : ∀ a, Valid a → emit a = .written (wire a)) (reads : Reads d wire Valid) :
    (consensus emit d).Stable := by
  apply Stable.of_exact
  intro data a read
  obtain ⟨valid, rfl⟩ := (reads _ _ _).mp (deserialize_eq_ok.mp (mapError_eq_ok.mp read))
  rw [List.append_nil]
  simp only [consensus, emits a valid, serialize_written]

theorem txOut_stable : txOut.Stable :=
  consensus_stable (fun a _ => Blockdata.TxOut.codec.emits a) Blockdata.TxOut.codec.reads

theorem witness_stable : witness.Stable :=
  consensus_stable (fun a _ => a.consensusEncode_eq) Blockdata.Witness.reads

theorem sighashType_stable : sighashType.Stable :=
  consensus_stable (fun a _ => readU32_codec.emits a) readU32_codec.reads

theorem bytes_stable : bytes.Stable := Stable.of_exact fun data a read => by
  obtain rfl : data = a := Except.ok.inj read
  rfl

theorem hash_isKey (positive : 0 < n) (short : n ≤ 5000) : (hash n).IsKey := by
  rintro ⟨data, size⟩
  refine ⟨data, rfl, dif_pos size, ?_, size ▸ short⟩
  rintro rfl
  rw [List.length_nil] at size
  omega

theorem preimageOf_stable (hashType : PsbtHash) (digest : Bytes → ByteArr n) (hash : ByteArr n) :
    (preimageOf hashType digest hash).Stable := Stable.of_exact fun data a read => by
  simp only [preimageOf, plain] at read ⊢
  split at read
  · obtain rfl := Except.ok.inj read
    rfl
  · contradiction

theorem scriptVersion_stable : scriptVersion.Stable := Stable.of_exact fun data a read => by
  obtain ⟨script, version⟩ := a
  simp only [scriptVersion, plain] at read ⊢
  obtain rfl | ⟨init, last, rfl⟩ := List.eq_nil_or_concat' data
  · contradiction
  · rw [List.getLast?_concat, List.dropLast_concat] at read
    cases parsed : LeafVersion.fromConsensus last with
    | error e => simp [parsed] at read
    | ok found =>
      simp only [parsed, Except.ok.injEq, Prod.mk.injEq] at read
      obtain ⟨rfl, rfl⟩ := read
      rw [LeafVersion.fromConsensus_eq_ok.mp parsed]

theorem run_pushChild (path : DerivationPath) (indices : List UInt32) :
    run pushChild path indices = .ok (path ++ indices.map ChildNumber.fromU32) := by
  induction indices generalizing path with
  | nil => rw [List.map_nil, List.append_nil]; rfl
  | cons index rest ih =>
    rw [run_cons rfl, ih, List.append_assoc]
    rfl

theorem childBytes_fromU32 (index : UInt32) :
    childBytes (ChildNumber.fromU32 index) = littleEndian 4 index.toNat := by
  rw [childBytes, ChildNumber.toU32_fromU32]

theorem toEnd_pushChild {tail : Bytes} {path : DerivationPath} (enough : tail.length ≤ rounds) :
    (fromConsensus readU32).toEnd pushChild rounds [] tail = .ok path ↔
      tail = path.flatMap childBytes ∧ path.Bounded := by
  rw [Decoder.toEnd_eq_ok (Reads.fromConsensus readU32_codec.reads) _ enough]
  · constructor
    · rintro ⟨indices, _, rfl, ran⟩
      rw [run_pushChild, List.nil_append, Except.ok.injEq] at ran
      subst ran
      refine ⟨?_, ChildNumber.bounded_map_fromU32 indices⟩
      rw [List.flatMap_map]
      simp only [childBytes_fromU32]
    · rintro ⟨rfl, bounded⟩
      refine ⟨path.map ChildNumber.toU32, fun _ _ => trivial, ?_, ?_⟩
      · rw [List.flatMap_map]
        rfl
      · rw [run_pushChild, List.nil_append, ChildNumber.map_fromU32_toU32 bounded]
  · intro index empty
    have size := congrArg List.length empty
    rw [littleEndian_length] at size
    contradiction

theorem keySource_eq_ok {source : KeySource} :
    keySource.deserialize data = .ok source ↔ data = keySourceBytes source ∧ source.2.Bounded := by
  obtain ⟨fingerprint, path⟩ := source
  simp only [keySource, plain, keySourceBytes]
  split
  · rename_i long
    have enough : (data.drop 4).length ≤ data.length := by
      rw [List.length_drop]
      omega
    constructor
    · intro read
      cases tail : (fromConsensus readU32).toEnd pushChild data.length [] (data.drop 4) with
      | error e => rw [tail] at read; contradiction
      | ok found =>
        rw [tail] at read
        obtain ⟨rfl, rfl⟩ := Prod.mk.inj (Except.ok.inj read)
        obtain ⟨back, bounded⟩ := (toEnd_pushChild enough).mp tail
        refine ⟨?_, bounded⟩
        rw [← back, List.take_append_drop]
    · rintro ⟨same, bounded⟩
      have front : data.take 4 = fingerprint.val := by
        rw [same, List.take_left' fingerprint.property]
      have back : data.drop 4 = path.flatMap childBytes := by
        rw [same, List.drop_left' fingerprint.property]
      rw [(toEnd_pushChild enough).mpr ⟨back, bounded⟩]
      exact congrArg Except.ok (Prod.ext (Subtype.ext front) rfl)
  · rename_i short
    constructor
    · intro read
      contradiction
    · rintro ⟨same, -⟩
      rw [same, List.length_append, fingerprint.property] at short
      omega

theorem keySource_stable : keySource.Stable := Stable.of_exact fun data source read => by
  rw [(keySource_eq_ok.mp read).1]
  rfl

theorem leafHashesSource_stable : leafHashesSource.Stable := Stable.of_exact fun data a read => by
  obtain ⟨hashes, source⟩ := a
  simp only [leafHashesSource, bind_eq_ok, mapError_eq_ok, pure_eq_ok, Prod.mk.injEq] at read ⊢
  obtain ⟨⟨found, rest⟩, first, _, second, rfl, rfl⟩ := read
  obtain ⟨_, rfl⟩ := (decodeVec_reads (readExact_codec 32).reads _ _ _).mp first
  obtain ⟨rfl, -⟩ := keySource_eq_ok.mp second
  refine ⟨vecWire Subtype.val found, ?_, _, rfl, rfl⟩
  rw [encodeVec_eq fun hash _ => (readExact_codec 32).emits hash, serialize_written]

section
variable [Secp256k1] [Secp256k1.Inverse]

theorem transaction_stable : transaction.Stable := by
  apply Stable.of_length
  intro data tx read
  obtain ⟨written, reread, size⟩ := Blockdata.Transaction.reread (mapError_eq_ok.mp read)
  exact ⟨tx.wire, written, mapError_eq_ok.mpr reread, size.le.trans (Nat.le_max_left _ _)⟩

theorem publicKey_isKey : publicKey.IsKey := by
  intro key
  have size : key.toBytes.length = 33 ∨ key.toBytes.length = 65 := by
    rw [PublicKey.toBytes]
    split
    · exact .inl (Secp256k1.serialize key.inner).property
    · exact .inr (Secp256k1.serializeUncompressed key.inner).property
  refine ⟨key.toBytes, rfl, mapError_eq_ok.mpr key.fromSlice_toBytes, ?_, by omega⟩
  intro empty
  rw [empty, List.length_nil] at size
  omega

theorem secpPublicKey_isKey : secpPublicKey.IsKey := by
  intro key
  have size := (Secp256k1.serialize key).property
  refine ⟨(Secp256k1.serialize key).val, rfl, ?_, ?_, by omega⟩
  · simp only [secpPublicKey, plain, Secp256k1.Lawful.fromSlice_serialize]
    rfl
  · intro empty
    rw [empty] at size
    contradiction

theorem xOnlyPublicKey_isKey : xOnlyPublicKey.IsKey := by
  intro key
  have size := (Secp256k1.serializeXOnly key).property
  refine ⟨(Secp256k1.serializeXOnly key).val, rfl, ?_, ?_, by omega⟩
  · simp only [xOnlyPublicKey, plain, Secp256k1.Inverse.xOnlyFromSlice_serialize]
    rfl
  · intro empty
    rw [empty] at size
    contradiction

theorem ecdsaSignature_stable : ecdsaSignature.Stable := by
  apply IsKey.stable
  intro signature
  have size := (Secp256k1.serializeDer signature.signature).property
  refine ⟨signature.toVec, rfl, mapError_eq_ok.mpr signature.fromSlice_toVec, ?_, ?_⟩
  · simp [EcdsaSignature.toVec]
  · rw [EcdsaSignature.toVec, List.length_append, List.length_singleton]
    omega

theorem taprootSignature_stable : taprootSignature.Stable := by
  apply IsKey.stable
  intro signature
  have size : (Secp256k1.serializeSchnorr signature.signature).val.length = 64 :=
    (Secp256k1.serializeSchnorr signature.signature).property
  have length : 64 ≤ signature.toVec.length ∧ signature.toVec.length ≤ 65 := by
    rw [TaprootSignature.toVec, List.length_append, size]
    split
    · simp
    · simp
  refine ⟨signature.toVec, rfl, mapError_eq_ok.mpr signature.fromSlice_toVec, ?_, by omega⟩
  intro empty
  rw [empty, List.length_nil] at length
  omega

theorem keyAndLeaf_isKey : keyAndLeaf.IsKey := by
  rintro ⟨key, leaf⟩
  have keySize := (Secp256k1.serializeXOnly key).property
  have leafSize := leaf.property
  obtain ⟨_, keyWritten, keyRead, _, _⟩ := xOnlyPublicKey_isKey key
  obtain rfl := Except.ok.inj keyWritten
  obtain ⟨_, leafWritten, leafRead, _, _⟩ := hash_isKey (by decide) (by decide) leaf
  obtain rfl := Except.ok.inj leafWritten
  refine ⟨(Secp256k1.serializeXOnly key).val ++ leaf.val, rfl, ?_, ?_, ?_⟩
  · have long : ¬ ((Secp256k1.serializeXOnly key).val ++ leaf.val).length < 32 := by
      rw [List.length_append]
      omega
    simp only [keyAndLeaf, plain, if_neg long, List.take_left' keySize, List.drop_left' keySize,
      bind_eq_ok, pure_eq_ok]
    exact ⟨key, keyRead, leaf, leafRead, rfl⟩
  · intro empty
    rw [(List.append_eq_nil_iff.mp empty).1] at keySize
    contradiction
  · rw [List.length_append]
    omega

theorem controlBlock_isKey : controlBlock.IsKey := by
  intro block
  have size := TaprootMerkleBranch.serialize_length block.merkleBranch.val
  have bound := block.merkleBranch.property
  have keySize := (Secp256k1.serializeXOnly block.internalKey).property
  refine ⟨block.serialize, rfl, mapError_eq_ok.mpr block.decode_serialize, ?_, ?_⟩
  · exact List.cons_ne_nil _ _
  · rw [ControlBlock.serialize, TaprootMerkleBranch.serialize, List.length_cons, List.length_append,
      keySize, size]
    simp only [controlMaxNodeCount, controlNodeSize] at bound ⊢
    omega

end

def leafWire (leaf : UInt8 × LeafVersion × ByteVec) : Bytes :=
  [leaf.1, leaf.2.1.toConsensus] ++ bytesWire leaf.2.2

/-- A leaf as the builder takes it. -/
def entryOf (leaf : UInt8 × LeafVersion × ByteVec) : Entry := (leaf.1.toNat, leaf.2.2, leaf.2.1)

theorem treeLeaf_reads : Reads treeLeaf leafWire (fun _ => True) := by
  rintro bytes ⟨depth, version, script⟩ rest
  simp only [treeLeaf, Decoder.bind_eq_ok, Decoder.pure_eq_ok, Decoder.ofExcept_eq_ok,
    Decoder.mapError_eq_ok, fromConsensus_eq_ok, mapError_eq_ok, LeafVersion.fromConsensus_eq_ok,
    readU8_codec.reads _ _ _, decodeBytes_reads _ _ _, littleEndian_one, true_and, Prod.mk.injEq]
  constructor
  · rintro ⟨_, _, rfl, _, _, rfl, _, _, rfl, _, _, ⟨rfl, rfl⟩, ⟨rfl, rfl, rfl⟩, rfl⟩
    simp [leafWire]
  · rintro rfl
    refine ⟨depth, _, ?_, version.toConsensus, _, rfl, script, rest, rfl, version, rest, ⟨rfl, rfl⟩,
      ⟨rfl, rfl, rfl⟩, rfl⟩
    simp [leafWire]

theorem sum_leafWire (leaves : List (UInt8 × LeafVersion × ByteVec)) :
    (leaves.flatMap leafWire).length =
      (((leaves.map entryOf).map Prod.snd).map fun script => 2 + (bytesWire script.1).length).sum := by
  rw [List.length_flatMap, List.map_map, List.map_map]
  congr 2
  funext leaf
  simp [leafWire, entryOf]
  omega

section
variable [Hashes]

theorem run_addTreeLeaf {builder next : TaprootBuilder}
    {leaves : List (UInt8 × LeafVersion × ByteVec)} :
    run addTreeLeaf builder leaves = .ok next ↔
      run TaprootBuilder.addEntry builder (leaves.map entryOf) = .ok next := by
  induction leaves generalizing builder with
  | nil => simp
  | cons leaf rest ih =>
    rw [List.map_cons, run_cons_eq_ok, run_cons_eq_ok]
    simp only [addTreeLeaf, mapError_eq_ok, ih]
    rfl

/-- The builder that the leaves of a tree make is taken without a panic. -/
theorem tryFrom_of_run {builder : TaprootBuilder} {leaves : List (UInt8 × LeafVersion × ByteVec)}
    (ran : run addTreeLeaf .new leaves = .ok builder) :
    ∃ result, TapTree.tryFrom builder = .ok result := by
  have keeps : ∀ state, ∀ leaf ∈ leaves, ∀ next, TaprootBuilder.Settled state →
      addTreeLeaf state leaf = .ok next → TaprootBuilder.Settled next :=
    fun _ _ _ _ _ added => TaprootBuilder.insert_settled (mapError_eq_ok.mp added)
  exact TapTree.tryFrom_returns (run_invariant keeps TaprootBuilder.new_settled ran)

omit [Hashes] in
theorem finishTree_eq_ok {builder : TaprootBuilder} {tree : TapTree} :
    finishTree builder = .ok tree ↔ builder.branch = [some tree.nodeInfo] := by
  rw [finishTree, ← TapTree.tryFrom_eq_ok]
  rcases TapTree.tryFrom builder with panic | e | other
  · exact ⟨nofun, nofun⟩
  · exact ⟨nofun, nofun⟩
  · simp

theorem tapTree_eq_ok {tree : TapTree} :
    tapTree.deserialize data = .ok tree ↔ ∃ leaves : List (UInt8 × LeafVersion × ByteVec), data = leaves.flatMap leafWire ∧
      run TaprootBuilder.addEntry .new (leaves.map entryOf) = .ok ⟨[some tree.nodeInfo]⟩ := by
  simp only [tapTree, plain, bind_eq_ok, finishTree_eq_ok,
    Decoder.toEnd_eq_ok treeLeaf_reads (fun _ => List.cons_ne_nil _ _) (Nat.le_refl _),
    run_addTreeLeaf]
  constructor
  · rintro ⟨⟨_⟩, ⟨leaves, _, rfl, ran⟩, rfl⟩
    exact ⟨leaves, rfl, ran⟩
  · rintro ⟨leaves, rfl, ran⟩
    exact ⟨_, ⟨leaves, fun _ _ => trivial, rfl, ran⟩, rfl⟩

/-- The leaves of a finished tree, as they are written. -/
def ownLeaves (tree : TapTree) : List (UInt8 × LeafVersion × ByteVec) :=
  (entriesAt 0 tree.nodeInfo.leaves).map fun entry => (UInt8.ofNat entry.1, entry.2.2, entry.2.1)

theorem tapTree_serialize {tree : TapTree} (built : tree.nodeInfo.Built) :
    tapTree.serialize tree = .ok ((ownLeaves tree).flatMap leafWire) := by
  have leaves := TapTree.collect_eq (NodeInfo.built_iff.mp built).1.leaf_isScript
  simp only [tapTree, plain, ownLeaves, ← leaves, List.map_map, List.flatMap_map, TapTree.scriptLeaves,
    encodeWithSize_eq, vecWritten_written]
  rfl

omit [Hashes] in
theorem entryOf_ownLeaves (tree : TapTree) :
    (ownLeaves tree).map entryOf = entriesAt 0 tree.nodeInfo.leaves := by
  rw [ownLeaves, List.map_map]
  refine (List.map_congr_left fun entry member => ?_).trans (List.map_id _)
  have deep := depth_le_controlMax member
  simp only [controlMaxNodeCount] at deep
  simp only [Function.comp_apply, entryOf, id_eq]
  rw [UInt8.toNat_ofNat_of_lt' (Nat.lt_of_le_of_lt deep (by decide))]

theorem tapTree_deserialize_own {tree : TapTree} (built : tree.nodeInfo.Built) :
    tapTree.deserialize ((ownLeaves tree).flatMap leafWire) = .ok tree := by
  rw [tapTree_eq_ok]
  refine ⟨ownLeaves tree, rfl, ?_⟩
  rw [entryOf_ownLeaves]
  exact TaprootBuilder.run_addEntry_new built

/-- A tree is read again from its own leaves, in whatever order it was first read. -/
theorem tapTree_stable : tapTree.Stable := by
  apply Stable.of_length
  intro data tree read
  obtain ⟨leaves, rfl, ran⟩ := tapTree_eq_ok.mp read
  obtain ⟨built, scripts⟩ := TaprootBuilder.built_of_run ran
  refine ⟨_, tapTree_serialize built, tapTree_deserialize_own built, ?_⟩
  · have own : ((ownLeaves tree).map entryOf).map Prod.snd = tree.nodeInfo.scripts := by
      rw [entryOf_ownLeaves, NodeInfo.scripts]
    rw [sum_leafWire, sum_leafWire, own]
    have total := (scripts.map fun script => 2 + (bytesWire script.1).length).sum_nat
    exact total.le.trans (Nat.le_max_left _ _)

end
end Value
end Litecoin.Psbt
