import Litecoin.Bip152
import Litecoin.Blockdata.BlockExactness

/-! A compact block stands for each transaction of its block once: the prefilled ones at
the positions their differential indices name, the others by their short ids. -/
namespace Litecoin.Bip152
open Wire Consensus Blockdata

/-- Undoes the differential encoding of indices, each relative to the position after the
one before. -/
def positions (last : Nat) : List UInt16 → List Nat
  | [] => []
  | diff :: rest => (last + diff.toNat) :: positions (last + diff.toNat + 1) rest

/-- The entries of a slice of positions in a block of `n` transactions, up to the first
that is out of order or out of range. -/
def usable (n next : Nat) : List Nat → List Nat
  | [] => []
  | i :: rest => if next ≤ i ∧ i < n then i :: usable n (i + 1) rest else []

/-- A slice that is strictly increasing and in range. -/
def Admissible (n : Nat) (prefill : List Nat) : Prop :=
  prefill.Pairwise (· < ·) ∧ ∀ i ∈ prefill, i < n

theorem usable_starts (n next : Nat) (prefill : List Nat) : usable n next prefill <+: prefill := by
  induction prefill generalizing next with
  | nil => exact List.prefix_rfl
  | cons i rest ih =>
    rw [usable]
    split
    · exact (List.prefix_cons_inj i).mpr (ih (i + 1))
    · exact List.nil_prefix

theorem usable_bounds : i ∈ usable n next prefill → next ≤ i ∧ i < n := by
  induction prefill generalizing next with
  | nil => exact fun absent => absurd absent List.not_mem_nil
  | cons j rest ih =>
    rw [usable]
    split
    · rename_i inside
      rw [List.mem_cons]
      rintro (rfl | later)
      · exact inside
      · have := ih later
        omega
    · exact fun absent => absurd absent List.not_mem_nil

theorem usable_ascending (n next : Nat) (prefill : List Nat) : (usable n next prefill).Pairwise
    (· < ·) := by
  induction prefill generalizing next with
  | nil => exact List.Pairwise.nil
  | cons i rest ih =>
    rw [usable]
    split
    · exact List.pairwise_cons.mpr ⟨fun j later => (usable_bounds later).1, ih (i + 1)⟩
    · exact List.Pairwise.nil

theorem usable_eq_self {next : Nat} {prefill : List Nat} (admissible : Admissible n prefill)
    (from_ : ∀ i ∈ prefill, next ≤ i) : usable n next prefill = prefill := by
  induction prefill generalizing next with
  | nil => rfl
  | cons i rest ih =>
    obtain ⟨ascending, inside⟩ := admissible
    rw [List.pairwise_cons] at ascending
    rw [List.forall_mem_cons] at inside from_
    rw [usable, if_pos ⟨from_.1, inside.1⟩, ih ⟨ascending.2, inside.2⟩ ascending.1]

theorem usable_eq_self_iff : usable n 0 prefill = prefill ↔ Admissible n prefill := by
  constructor
  · intro same
    exact ⟨same ▸ usable_ascending n 0 prefill, fun i member => (usable_bounds (same.symm ▸ member)).2⟩
  · intro admissible
    exact usable_eq_self admissible fun i _ => Nat.zero_le i

/-- Nothing is left of a slice exactly when it is admissible. -/
theorem drop_usable_eq_nil : prefill.drop (usable n 0 prefill).length = [] ↔ Admissible n prefill := by
  rw [List.drop_eq_nil_iff, ← usable_eq_self_iff]
  constructor
  · intro short
    exact (usable_starts n 0 prefill).eq_of_length_le short
  · intro same
    rw [same]

theorem usable_past (none : n ≤ next) (prefill : List Nat) : usable n next prefill = [] := by
  cases prefill with
  | nil => rfl
  | cons i rest => rw [usable, if_neg (by omega)]

/-- The slice that is left once the position `k` is passed. -/
def after (k : Nat) (prefill : List Nat) : List Nat :=
  if prefill.head? = some k then prefill.tail else prefill

theorem usable_after (inside : k < n) (prefill : List Nat) :
    usable n k prefill =
      (if prefill.head? = some k then [k] else []) ++ usable n (k + 1) (after k prefill) := by
  cases prefill with
  | nil => rfl
  | cons i rest =>
    rw [after, List.head?_cons]
    split_ifs with here
    · obtain rfl := Option.some.inj here
      rw [usable, if_pos ⟨le_rfl, inside⟩]
      rfl
    · have other : i ≠ k := fun same => here (congrArg some same)
      rw [usable, usable, List.nil_append]
      congr 1
      apply propext
      omega

/-- Whether the transaction at a position from `k` on is prefilled. -/
def Chosen (n k : Nat) (prefill : List Nat) (i : Nat) : Prop := i = 0 ∨ i ∈ usable n k prefill

instance decidableChosen : Decidable (Chosen n k prefill i) :=
  inferInstanceAs (Decidable (i = 0 ∨ i ∈ usable n k prefill))

theorem drop_after (inside : k < n) (prefill : List Nat) :
    (after k prefill).drop (usable n (k + 1) (after k prefill)).length =
      prefill.drop (usable n k prefill).length := by
  conv_rhs => rw [usable_after inside]
  cases prefill with
  | nil => rfl
  | cons i rest =>
    rw [after]
    split_ifs
    · rw [List.length_append, List.length_singleton, Nat.add_comm 1]
      rfl
    · rfl

theorem chosen_here (inside : k < n) : Chosen n k prefill k ↔ prefill.head? = some k ∨ k = 0 := by
  rw [Chosen, usable_after inside, or_comm, List.mem_append]
  have passed : k ∉ usable n (k + 1) (after k prefill) :=
    fun member => absurd (usable_bounds member).1 (Nat.not_succ_le_self k)
  split_ifs with here
  · simp [here]
  · simp [here, passed]

theorem chosen_after (inside : k < n) (later : k < i) :
    Chosen n (k + 1) (after k prefill) i ↔ Chosen n k prefill i := by
  rw [Chosen, Chosen, usable_after inside, List.mem_append]
  split_ifs
  · simp [later.ne']
  · simp

section
variable [Secp256k1] {version : UInt32}

theorem exists_relayed (known : version = 1 ∨ version = 2) (tx : Transaction) :
    ∃ shown, relayed version tx = pure shown := by
  obtain rfl | rfl := known
  · exact ⟨_, rfl⟩
  · exact ⟨_, rfl⟩

variable [Hashes] {keys : UInt64 × UInt64}

/-- What the loop adds for some transactions with their positions. -/
structure Adds (version : UInt32) (keys : UInt64 × UInt64) (isChosen : Nat → Bool) (last : Nat)
    (items : List (Transaction × Nat)) (new : List PrefilledTransaction) (ids : List ShortId) :
    Prop where
  placed : positions last (new.map (·.idx)) = (items.map Prod.snd).filter isChosen
  shown : List.Forall₂ (fun item p => relayed version item.1 = pure p.tx)
    (items.filter fun item => isChosen item.2) new
  shortened : List.Forall₂ (fun item id => ∃ txid, relayedId version item.1 = pure txid ∧
    id = ShortId.withSiphashKeys txid.val keys) (items.filter fun item => !isChosen item.2) ids

theorem Adds.prefilled {p : PrefilledTransaction} {k : Nat} (here : isChosen k = true)
    (place : last + p.idx.toNat = k) (shown : relayed version tx = pure p.tx)
    (tail : Adds version keys isChosen (k + 1) items new ids) :
    Adds version keys isChosen last ((tx, k) :: items) (p :: new) ids where
  placed := by
    rw [List.map_cons, positions, place, tail.placed, List.map_cons, List.filter_cons_of_pos here]
  shown := by
    rw [List.filter_cons_of_pos (by exact here)]
    exact .cons shown tail.shown
  shortened := by
    rw [List.filter_cons_of_neg (by simp [here])]
    exact tail.shortened

theorem Adds.hashed {k : Nat} (here : isChosen k = false) (computed : relayedId version tx = pure txid)
    (tail : Adds version keys isChosen last items new ids) :
    Adds version keys isChosen last ((tx, k) :: items) new
      (ShortId.withSiphashKeys txid.val keys :: ids) where
  placed := by
    rw [List.map_cons, List.filter_cons_of_neg (by simp [here])]
    exact tail.placed
  shown := by
    rw [List.filter_cons_of_neg (by simp [here])]
    exact tail.shown
  shortened := by
    rw [List.filter_cons_of_pos (by simp [here])]
    exact .cons ⟨txid, computed, rfl⟩ tail.shortened

theorem step_prefilled (keys : UInt64 × UInt64) {self : Progress} (here : self.prefill.head? =
    some k ∨ k = 0)
    (shown : relayed version tx = pure relay) :
    ∃ next, self.step version keys (tx, k) = pure next ∧ next.prefill = after k self.prefill ∧
      next.prefilled = self.prefilled ++ [⟨UInt16.ofNat (k - self.lastPrefill), relay⟩] ∧
      next.shortIds = self.shortIds ∧ next.lastPrefill = k + 1 := by
  rw [Progress.step, after]
  by_cases head : self.prefill.head? = some k
  · simp only [if_pos head, shown, pure_bind]
    exact ⟨_, rfl, rfl, rfl, rfl, rfl⟩
  · simp only [if_neg head, decide_eq_true (here.resolve_left head), shown, pure_bind]
    exact ⟨_, rfl, rfl, rfl, rfl, rfl⟩

theorem step_hashed {self : Progress} (here : ¬ (self.prefill.head? = some k ∨ k = 0)) :
    self.step version keys (tx, k) = (do
      let txid ← relayedId version tx
      pure { self with
        prefill := after k self.prefill
        shortIds := self.shortIds ++ [ShortId.withSiphashKeys txid.val keys] }) := by
  rw [not_or] at here
  rw [Progress.step, after]
  simp only [if_neg here.1, decide_eq_false here.2]
  rfl

/-- The rest of the loop from the position `k` on, when no id is out of reach. -/
theorem loop_spec (keys : UInt64 × UInt64) (known : version = 1 ∨ version = 2)
    {txs : List Transaction} (self : Progress)
    (isChosen : Nat → Bool) (count : n = k + txs.length) (bound : n ≤ 65536)
    (last : self.lastPrefill ≤ k)
    (agrees : ∀ i, k ≤ i → (isChosen i = true ↔ Chosen n k self.prefill i))
    (computable : ∀ item ∈ txs.zipIdx k, isChosen item.2 = false →
      ∃ txid, relayedId version item.1 = pure txid) :
    ∃ final new ids, (txs.zipIdx k).foldlM (Progress.step version keys) self = pure final ∧
      final.prefill = self.prefill.drop (usable n k self.prefill).length ∧
      final.prefilled = self.prefilled ++ new ∧ final.shortIds = self.shortIds ++ ids ∧
      Adds version keys isChosen self.lastPrefill (txs.zipIdx k) new ids := by
  induction txs generalizing k self with
  | nil =>
    refine ⟨self, [], [], rfl, ?_, (List.append_nil _).symm, (List.append_nil _).symm,
      ⟨rfl, .nil, .nil⟩⟩
    rw [usable_past (by rw [count]; exact Nat.le_refl k)]
    rfl
  | cons tx txs ih =>
    rw [List.length_cons] at count
    have inside : k < n := by omega
    rw [List.zipIdx_cons, List.forall_mem_cons] at computable
    rw [List.zipIdx_cons, List.foldlM_cons]
    have later : ∀ i, k + 1 ≤ i → (isChosen i = true ↔ Chosen n (k + 1) (after k self.prefill) i) :=
      fun i le => (agrees i (Nat.le_of_succ_le le)).trans (chosen_after inside le).symm
    by_cases here : self.prefill.head? = some k ∨ k = 0
    · have isHere : isChosen k = true := (agrees k le_rfl).mpr ((chosen_here inside).mpr here)
      obtain ⟨relay, shown⟩ := exists_relayed known tx
      obtain ⟨next, stepped, slice, pushed, same, end_⟩ := step_prefilled keys here shown
      obtain ⟨final, new, ids, ran, rest, prefilled, shortIds, added⟩ :=
        ih next (by omega) (Nat.le_of_eq end_) (slice ▸ later) computable.2
      rw [slice, drop_after inside] at rest
      rw [pushed, List.append_assoc, List.singleton_append] at prefilled
      rw [end_] at added
      have small : k - self.lastPrefill < 65536 := by omega
      have place : self.lastPrefill + (UInt16.ofNat (k - self.lastPrefill)).toNat = k := by
        rw [UInt16.toNat_ofNat_of_lt' small, Nat.add_sub_cancel' last]
      rw [stepped, pure_bind]
      exact ⟨final, _ :: new, ids, ran, rest, prefilled, same ▸ shortIds,
        .prefilled isHere place shown added⟩
    · have isHere : isChosen k = false := by
        rw [← Bool.not_eq_true, agrees k le_rfl, chosen_here inside]
        exact here
      obtain ⟨txid, computed⟩ := computable.1 isHere
      rw [step_hashed here, computed, pure_bind, pure_bind]
      obtain ⟨final, new, ids, ran, rest, prefilled, shortIds, added⟩ :=
        ih { self with
          prefill := after k self.prefill
          shortIds := self.shortIds ++ [ShortId.withSiphashKeys txid.val keys] }
          (by omega) (Nat.le_succ_of_le last) later computable.2
      rw [List.append_assoc, List.singleton_append] at shortIds
      exact ⟨final, new, _ :: ids, ran, rest.trans (drop_after inside _), prefilled, shortIds,
        .hashed isHere computed added⟩

/-- An id is out of reach only where a field is missing that the MWEB part announces. -/
theorem relayedId_spec (known : version = 1 ∨ version = 2) (tx : Transaction) :
    ((version = 2 → ∀ mw ∈ tx.mwTx, mw.body.Complete) ∧ ∃ txid, relayedId version tx = pure txid) ∨
      (version = 2 ∧ (¬ ∀ mw ∈ tx.mwTx, mw.body.Complete) ∧ relayedId version tx = panics) := by
  obtain rfl | rfl := known
  · refine .inl ⟨fun two => absurd two (by decide), ?_⟩
    have written := (serialize_written tx.plainWire _).mpr rfl
    rw [relayedId, if_pos rfl, Transaction.computeTxid, Transaction.txidPreimage_eq, written]
    exact ⟨_, rfl⟩
  · rw [relayedId, if_neg (by decide), if_pos rfl, Transaction.computeWtxid]
    cases encoded : tx.consensusEncode with
    | ok result =>
      exact .inl ⟨fun _ => Transaction.complete_of_encoded encoded, _, rfl⟩
    | error e =>
      refine .inr ⟨rfl, fun complete => ?_, rfl⟩
      rw [Transaction.consensusEncode_eq complete] at encoded
      contradiction

theorem loop_panics (known : version = 1 ∨ version = 2) {txs : List Transaction} (self : Progress)
    (isChosen : Nat → Bool) (count : n = k + txs.length)
    (agrees : ∀ i, k ≤ i → (isChosen i = true ↔ Chosen n k self.prefill i))
    (stuck : ∃ item ∈ txs.zipIdx k, isChosen item.2 = false ∧ relayedId version item.1 = panics) :
    (txs.zipIdx k).foldlM (Progress.step version keys) self = panics := by
  induction txs generalizing k self with
  | nil => simp at stuck
  | cons tx txs ih =>
    rw [List.length_cons] at count
    have inside : k < n := by omega
    rw [List.zipIdx_cons, List.exists_mem_cons_iff] at stuck
    rw [List.zipIdx_cons, List.foldlM_cons]
    have later : ∀ i, k + 1 ≤ i → (isChosen i = true ↔ Chosen n (k + 1) (after k self.prefill) i) :=
      fun i le => (agrees i (Nat.le_of_succ_le le)).trans (chosen_after inside le).symm
    by_cases here : self.prefill.head? = some k ∨ k = 0
    · have isHere : isChosen k = true := (agrees k le_rfl).mpr ((chosen_here inside).mpr here)
      obtain ⟨relay, shown⟩ := exists_relayed known tx
      obtain ⟨next, stepped, slice, _⟩ := step_prefilled keys here shown
      obtain ⟨passed, _⟩ | stuck := stuck
      · exact absurd (passed.symm.trans isHere) Bool.false_ne_true
      · rw [stepped, pure_bind]
        exact ih next (by omega) (slice ▸ later) stuck
    · rw [step_hashed here]
      obtain ⟨_, txid, computed⟩ | ⟨_, _, missing⟩ := relayedId_spec known tx
      · obtain ⟨_, missing⟩ | stuck := stuck
        · rw [computed] at missing
          contradiction
        · rw [computed, pure_bind, pure_bind]
          exact ih _ (by omega) later stuck
      · rw [missing]
        rfl

omit [Secp256k1] in
theorem calculateSiphashKeys_eq (header : Header) (nonce : UInt64) :
    ∃ keys, ShortId.calculateSiphashKeys header nonce = pure keys := by
  rw [ShortId.calculateSiphashKeys, Header.codec.emits, readU64_codec.emits, Emission.written_append,
    (serialize_written _ _).mpr rfl]
  exact ⟨_, rfl⟩

/-- What a short id has to be. -/
def IsShortId (header : Header) (nonce : UInt64) (version : UInt32) (tx : Transaction)
    (id : ShortId) : Prop :=
  ∃ keys txid, ShortId.calculateSiphashKeys header nonce = pure keys ∧
    relayedId version tx = pure txid ∧ id = ShortId.withSiphashKeys txid.val keys

namespace HeaderAndShortIds

omit [Hashes] in
/-- The positions of the prefilled transactions. -/
def places (compact : HeaderAndShortIds) : List Nat := positions 0 (compact.prefilledTxs.map (·.idx))

omit [Hashes] in
/-- The other positions of a block of `n` transactions. -/
def others (compact : HeaderAndShortIds) (n : Nat) : List Nat :=
  (List.range n).filter fun i => decide (i ∉ compact.places)

/-- A compact block stands for each transaction of its block once. -/
structure Represents (block : Block) (nonce : UInt64) (version : UInt32) (prefill : List Nat)
    (compact : HeaderAndShortIds) : Prop where
  header : compact.header = block.header ∧ compact.nonce = nonce
  placed : ∀ i, i ∈ compact.places ↔ i = 0 ∨ i ∈ prefill
  distinct : compact.places.Nodup
  within : ∀ i ∈ compact.places, i < block.txdata.toList.length
  shown : List.Forall₂ (fun i p => ∃ tx, block.txdata.toList[i]? = some tx ∧ relayed version tx =
    pure p.tx)
    compact.places compact.prefilledTxs
  shortened : List.Forall₂ (fun i id => ∃ tx, block.txdata.toList[i]? = some tx ∧
    IsShortId block.header nonce version tx id)
      (compact.others block.txdata.toList.length) compact.shortIds
  once : (compact.places ++ compact.others block.txdata.toList.length).Perm
    (List.range block.txdata.toList.length)

/-- What is said of `from_block` for a block and a slice. -/
structure Reconstructible (block : Block) (nonce : UInt64) (version : UInt32) (prefill : List Nat) :
    Prop where
  accepted : (∃ compact, (fromBlock block nonce version prefill).run = some (.ok compact)) ↔
    Admissible block.txdata.toList.length prefill
  refused : ¬ Admissible block.txdata.toList.length prefill →
    (fromBlock block nonce version prefill).run = some (.error .invalidPrefill)
  represented : ∀ compact, (fromBlock block nonce version prefill).run = some (.ok compact) →
    Represents block nonce version prefill compact

end HeaderAndShortIds

theorem Adds.represents {block : Block} {prefill : List Nat} {isChosen : Nat → Bool}
    {compact : HeaderAndShortIds} (header : compact.header = block.header ∧ compact.nonce = nonce)
    (keyed : ShortId.calculateSiphashKeys block.header nonce = pure keys)
    (some : block.txdata.toList ≠ []) (admissible : Admissible block.txdata.toList.length prefill)
    (chosen : ∀ i, isChosen i = true ↔ i = 0 ∨ i ∈ prefill)
    (added : Adds version keys isChosen 0 block.txdata.toList.zipIdx compact.prefilledTxs compact.shortIds) :
    compact.Represents block nonce version prefill := by
  obtain ⟨placed, shown, shortened⟩ := added
  have positive : 0 < block.txdata.toList.length := List.length_pos_iff.mpr some
  have places : compact.places = (List.range block.txdata.toList.length).filter isChosen := by
    rw [HeaderAndShortIds.places, placed, List.zipIdx_map_snd, List.range_eq_range']
  have others : compact.others block.txdata.toList.length =
      (List.range block.txdata.toList.length).filter fun i => !isChosen i := by
    rw [HeaderAndShortIds.others, places]
    apply List.filter_congr
    intro i inside
    simp [List.mem_range.mp inside]
  have found : ∀ item ∈ block.txdata.toList.zipIdx, block.txdata.toList[item.2]? = Option.some item.1 :=
    fun item member => List.mem_zipIdx_iff_getElem?.mp member
  have memberPlaces : ∀ i, i ∈ compact.places ↔ i = 0 ∨ i ∈ prefill := by
    intro i
    rw [places, List.mem_filter, List.mem_range, chosen]
    constructor
    · exact And.right
    · rintro (rfl | member)
      · exact ⟨positive, .inl rfl⟩
      · exact ⟨admissible.2 i member, .inr member⟩
  refine ⟨header, memberPlaces, ?_, ?_, ?_, ?_, ?_⟩
  · rw [places]
    exact List.nodup_range.filter isChosen
  · intro i member
    rw [places, List.mem_filter] at member
    exact List.mem_range.mp member.1
  · rw [places, List.range_eq_range', ← List.zipIdx_map_snd, List.filter_map, List.forall₂_map_left_iff]
    have each := (List.forall₂_and_left _ _).mpr ⟨fun item member => found item
      (List.mem_filter.mp member).1, shown⟩
    exact each.imp fun item p both => ⟨item.1, both.1, both.2⟩
  · rw [others, List.range_eq_range', ← List.zipIdx_map_snd, List.filter_map, List.forall₂_map_left_iff]
    have each := (List.forall₂_and_left _ _).mpr ⟨fun item member => found item
      (List.mem_filter.mp member).1, shortened⟩
    refine each.imp fun item id both => ⟨item.1, both.1, ?_⟩
    obtain ⟨txid, computed, same⟩ := both.2
    exact ⟨keys, txid, keyed, computed, same⟩
  · rw [places, others]
    exact List.filter_append_perm isChosen _

namespace HeaderAndShortIds

/-- The transactions that get a short id are those whose id can be computed. -/
def IdsComputable (block : Block) (version : UInt32) (prefill : List Nat) : Prop :=
  version = 2 → ∀ i tx, block.txdata.toList[i]? = some tx → 0 < i →
    i ∉ usable block.txdata.toList.length 0 prefill → ∀ mw ∈ tx.mwTx, mw.body.Complete

section
variable {block : Block} {nonce : UInt64} {prefill : List Nat}

theorem fromBlock_panics_of_length (known : version = 1 ∨ version = 2)
    (long : block.txdata.toList.length < prefill.length) :
    (fromBlock block nonce version prefill).run = none := by
  obtain ⟨keys, keyed⟩ := calculateSiphashKeys_eq block.header nonce
  have accepted : ¬ (version ≠ 1 ∧ version ≠ 2) := by tauto
  rw [fromBlock, if_neg accepted, keyed, pure_bind, if_pos long]
  rfl

theorem fromBlock_eq (known : version = 1 ∨ version = 2)
    (keyed : ShortId.calculateSiphashKeys block.header nonce = pure keys)
    (short : prefill.length ≤ block.txdata.toList.length) :
    fromBlock block nonce version prefill = (do
      let loop ← block.txdata.toList.zipIdx.foldlM (Progress.step version keys)
        { prefill, prefilled := [], shortIds := [], lastPrefill := 0 }
      if !loop.prefill.isEmpty then throw .invalidPrefill
      else pure { header := block.header, nonce, shortIds := loop.shortIds
                  prefilledTxs := loop.prefilled }) := by
  have accepted : ¬ (version ≠ 1 ∧ version ≠ 2) := by tauto
  rw [fromBlock, if_neg accepted, keyed, pure_bind, if_neg (Nat.not_lt.mpr short)]

theorem fromBlock_panics_of_id (known : version = 1 ∨ version = 2)
    (short : prefill.length ≤ block.txdata.toList.length)
    (missing : ¬ IdsComputable block version prefill) :
    (fromBlock block nonce version prefill).run = none := by
  obtain ⟨keys, keyed⟩ := calculateSiphashKeys_eq block.header nonce
  simp only [IdsComputable, not_forall] at missing
  obtain ⟨two, i, tx, found, positive, passed, mw, member, incomplete⟩ := missing
  have stuck : relayedId version tx = panics := by
    obtain ⟨complete, _⟩ | ⟨_, _, stuck⟩ := relayedId_spec known tx
    · exact absurd (complete two mw member) incomplete
    · exact stuck
  rw [fromBlock_eq known keyed short, loop_panics known _
    (fun i => decide (Chosen block.txdata.toList.length 0 prefill i)) (Nat.zero_add _).symm]
  · rfl
  · simp
  · refine ⟨(tx, i), List.mem_zipIdx_iff_getElem?.mpr found, decide_eq_false ?_, stuck⟩
    exact not_or.mpr ⟨positive.ne', passed⟩

theorem fromBlock_of_ids (nonce : UInt64) (known : version = 1 ∨ version = 2)
    (bound : block.txdata.toList.length ≤ 65536)
    (short : prefill.length ≤ block.txdata.toList.length) (computable :
    IdsComputable block version prefill) :
    ∃ keys compact, ShortId.calculateSiphashKeys block.header nonce = pure keys ∧
      (compact.header = block.header ∧ compact.nonce = nonce) ∧
      Adds version keys (fun i => decide (Chosen block.txdata.toList.length 0 prefill i)) 0
        block.txdata.toList.zipIdx compact.prefilledTxs compact.shortIds ∧
      (Admissible block.txdata.toList.length prefill →
        (fromBlock block nonce version prefill).run = some (.ok compact)) ∧
      (¬ Admissible block.txdata.toList.length prefill →
        (fromBlock block nonce version prefill).run = some (.error .invalidPrefill)) := by
  obtain ⟨keys, keyed⟩ := calculateSiphashKeys_eq block.header nonce
  have ids : ∀ item ∈ block.txdata.toList.zipIdx,
      decide (Chosen block.txdata.toList.length 0 prefill item.2) = false →
      ∃ txid, relayedId version item.1 = pure txid := by
    intro item member hashed
    obtain ⟨positive, passed⟩ := not_or.mp (of_decide_eq_false hashed)
    obtain ⟨_, computed⟩ | ⟨two, incomplete, _⟩ := relayedId_spec known item.1
    · exact computed
    · exact absurd (computable two item.2 item.1 (List.mem_zipIdx_iff_getElem?.mp member)
        (Nat.pos_of_ne_zero positive) passed) incomplete
  obtain ⟨final, new, shortIds, ran, rest, prefilled, pushed, added⟩ := loop_spec keys known
    { prefill, prefilled := [], shortIds := [], lastPrefill := 0 }
    (fun i => decide (Chosen block.txdata.toList.length 0 prefill i)) (Nat.zero_add _).symm bound le_rfl
    (fun i _ => decide_eq_true_iff) ids
  rw [List.nil_append] at prefilled pushed
  refine ⟨keys, { header := block.header, nonce, shortIds := final.shortIds, prefilledTxs :=
    final.prefilled },
    keyed, ⟨rfl, rfl⟩, ?_, ?_, ?_⟩
  · rw [prefilled, pushed]
    exact added
  · intro admissible
    rw [fromBlock_eq known keyed short, ran, pure_bind, rest, drop_usable_eq_nil.mpr admissible]
    rfl
  · intro inadmissible
    rw [fromBlock_eq known keyed short, ran, pure_bind, rest, if_pos]
    · rfl
    · rw [Bool.not_eq_true', List.isEmpty_eq_false_iff]
      exact mt drop_usable_eq_nil.mp inadmissible

/-- `from_block` keeps its promise for the slices that are not longer than the block, as long
as the block has a transaction to prefill and no id is out of reach. -/
theorem reconstructible_iff (bound : block.txdata.toList.length ≤ 65536) (known : version =
    1 ∨ version = 2) :
    Reconstructible block nonce version prefill ↔ block.txdata.toList ≠ [] ∧
      prefill.length ≤ block.txdata.toList.length ∧ IdsComputable block version prefill := by
  constructor
  · intro law
    have returns : (fromBlock block nonce version prefill).run ≠ none := by
      intro panicked
      by_cases admissible : Admissible block.txdata.toList.length prefill
      · obtain ⟨compact, returned⟩ := law.accepted.mpr admissible
        rw [panicked] at returned
        contradiction
      · have returned := law.refused admissible
        rw [panicked] at returned
        contradiction
    have short : prefill.length ≤ block.txdata.toList.length := by
      by_contra long
      exact returns (fromBlock_panics_of_length known (Nat.not_le.mp long))
    have computable : IdsComputable block version prefill := by
      by_contra missing
      exact returns (fromBlock_panics_of_id known short missing)
    refine ⟨?_, short, computable⟩
    intro empty
    rw [empty, List.length_nil, Nat.le_zero, List.length_eq_zero_iff] at short
    subst short
    have admissible : Admissible block.txdata.toList.length [] :=
      ⟨.nil, fun i absent => absurd absent List.not_mem_nil⟩
    obtain ⟨compact, returned⟩ := law.accepted.mpr admissible
    have represents := law.represented compact returned
    have inside := represents.within 0 ((represents.placed 0).mpr (.inl rfl))
    rw [empty] at inside
    exact absurd inside (Nat.not_lt_zero 0)
  · rintro ⟨some, short, computable⟩
    obtain ⟨keys, compact, keyed, header, added, accepts, refuses⟩ :=
      fromBlock_of_ids nonce known bound short computable
    have admitted : ∀ other, (fromBlock block nonce version prefill).run = .some (.ok other) →
        Admissible block.txdata.toList.length prefill := by
      intro other returned
      by_contra inadmissible
      exact absurd (Option.some.inj ((refuses inadmissible).symm.trans returned)) nofun
    refine ⟨⟨fun ⟨other, returned⟩ => admitted other returned, fun admissible =>
      ⟨compact, accepts admissible⟩⟩,
      refuses, ?_⟩
    · intro other returned
      have admissible := admitted other returned
      rw [accepts admissible, Option.some.injEq, Except.ok.injEq] at returned
      subst returned
      refine added.represents header keyed some admissible fun i => ?_
      rw [decide_eq_true_iff, Chosen, usable_eq_self_iff.mpr admissible]

end

end HeaderAndShortIds

end

/-! The block of the source's test, with the hashes of what is hashed for it. -/
namespace Sample

@[reducible] def hashes : Hashes :=
  { Hashes.ofEmpty with
    sha256 := fun _ => ⟨[0x83, 0x43, 0xbf, 0x86, 0x0e, 0x3c, 0xa6, 0x54, 0x99, 0x4c, 0x5c, 0xa6,
      0xf6, 0x25, 0xf8, 0xa0,
    0x94, 0x2f, 0x72, 0x77, 0xf1, 0xc7, 0x9b, 0xb0, 0x6b, 0x2e, 0xea, 0xfa, 0xea, 0xa1, 0x3d, 0xab],
      rfl⟩
    sha256d := fun _ => ⟨[0x75, 0xac, 0x7a, 0x5e, 0x6c, 0x8d, 0x16, 0xf6, 0xe5, 0xc0, 0xfd, 0x2c,
      0x5c, 0xbe, 0xd4, 0x8d,
    0x76, 0x9c, 0x8c, 0x73, 0x4f, 0xaf, 0x94, 0xf6, 0x9b, 0xbd, 0x91, 0xcd, 0x1b, 0xfd, 0xfa, 0x49],
      rfl⟩ }

def dummyTx (txid : ByteArr 32) : @Transaction Secp256k1.generatorOnly :=
  letI := Secp256k1.generatorOnly
  { version := 1, lockTime := .fromConsensus 2
    input := .singleton { previousOutput := { txid, vout := 0 }, scriptSig := .empty, sequence := 1,
                          witness := .new }
    output := .singleton { value := 1, scriptPubkey := .empty }
    mwTx := none, isHogEx := false }

def dummyBlock : @Block Secp256k1.generatorOnly :=
  letI := Secp256k1.generatorOnly
  { header := {
      version := 1
      prevBlockhash := ⟨[0x14, 0x06, 0xe0, 0x58, 0x81, 0xe2, 0x99, 0x36, 0x77, 0x66, 0xd3, 0x13,
        0xe2, 0x6c, 0x05, 0x56,
    0x4e, 0xc9, 0x1b, 0xf7, 0x21, 0xd3, 0x17, 0x26, 0xbd, 0x6e, 0x46, 0xe6, 0x06, 0x89, 0x53, 0x9a],
      rfl⟩
      merkleRoot := ⟨[0x9c, 0x12, 0xcf, 0xdc, 0x04, 0xc7, 0x45, 0x84, 0xd7, 0x87, 0xac, 0x3d, 0x23,
        0x77, 0x21, 0x32,
    0xc1, 0x85, 0x24, 0xbc, 0x7a, 0xb2, 0x8d, 0xec, 0x42, 0x19, 0xb8, 0xfc, 0x5b, 0x42, 0x5f, 0x70],
      rfl⟩
      time := 2, bits := 3, nonce := 4 }
    txdata := ⟨[
      dummyTx ⟨[0x1c, 0xc3, 0xad, 0xea, 0x40, 0xeb, 0xfd, 0x94, 0x43, 0x3a, 0xc0, 0x04, 0x77, 0x7d,
        0x68, 0x15,
    0x0c, 0xce, 0x9d, 0xb4, 0xc7, 0x71, 0xbc, 0x7d, 0xe1, 0xb2, 0x97, 0xa7, 0xb7, 0x95, 0xbb, 0xba],
      rfl⟩,
      dummyTx ⟨[0xc9, 0x42, 0xa0, 0x6c, 0x12, 0x7c, 0x2c, 0x18, 0x02, 0x26, 0x77, 0xe8, 0x88, 0x02,
        0x0a, 0xfb,
    0x17, 0x42, 0x08, 0xd2, 0x99, 0x35, 0x4f, 0x3e, 0xcf, 0xed, 0xb1, 0x24, 0xa1, 0xf3, 0xfa, 0x45],
      rfl⟩,
      dummyTx ⟨[0x21, 0x4e, 0x63, 0xbf, 0x41, 0x49, 0x0e, 0x67, 0xd3, 0x44, 0x76, 0x77, 0x8f, 0x67,
        0x07, 0xaa,
    0x6c, 0x8d, 0x2c, 0x8d, 0xcc, 0xdf, 0x78, 0xae, 0x11, 0xe4, 0x0e, 0xe9, 0xf9, 0x1e, 0x89, 0xa7],
      rfl⟩], by decide⟩
    mwebBlock := none }

attribute [local instance] Secp256k1.generatorOnly hashes

/-- The last transaction is prefilled besides the first. -/
theorem dummyBlock_reconstructible : dummyBlock.txdata.toList.length ≤ 65536 ∧
    HeaderAndShortIds.Reconstructible dummyBlock 42 2 [2] := by
  have bound : dummyBlock.txdata.toList.length ≤ 65536 := by decide
  have noMweb : ∀ tx ∈ dummyBlock.txdata.toList, tx.mwTx = none := by decide
  refine ⟨bound, (HeaderAndShortIds.reconstructible_iff bound (.inr rfl)).mpr ⟨by decide, by decide,
    ?_⟩⟩
  intro _ i tx found _ _ mw member
  rw [noMweb tx (List.mem_of_getElem? found)] at member
  contradiction

/-- A slice with more entries than the block has transactions. -/
theorem dummyBlock_panics : ¬ HeaderAndShortIds.Reconstructible dummyBlock 42 2 [0, 1, 2, 3] := by
  intro law
  have inadmissible : ¬ Admissible dummyBlock.txdata.toList.length [0, 1, 2, 3] :=
    fun admissible => absurd (admissible.2 3 (by decide)) (by decide)
  have refused := law.refused inadmissible
  rw [HeaderAndShortIds.fromBlock_panics_of_length (.inr rfl) (by decide)] at refused
  contradiction

end Sample

end Litecoin.Bip152
