import Litecoin.Blockdata.Block
import Litecoin.Blockdata.WitnessStack
import Litecoin.Crypto.Hashes
import Litecoin.Crypto.SipHash

/-! Compact blocks (`bip152.rs`). Positions in a block are `usize` values and stay below
its number of transactions, so they are numbers without a bound here. -/
namespace Litecoin.Bip152
open Wire Consensus Blockdata

inductive Error where
  | unknownVersion
  | invalidPrefill
deriving DecidableEq

/-- A result or an error; a panic is the outer `none`. -/
abbrev Outcome (α : Type) : Type := ExceptT Error Option α

def panics : Outcome α := ExceptT.mk none

/-- `expect`. -/
def expect : Except IoError α → Outcome α
  | .ok a => pure a
  | .error _ => panics

abbrev ShortId : Type := ByteArr 6

namespace ShortId

def calculateSiphashKeys [Hashes] (header : Header) (nonce : UInt64) : Outcome (UInt64 × UInt64) := do
  let data ← expect (serialize (header.consensusEncode ++ encodeU64 nonce))
  let h := (Hashes.sha256 data).val
  pure (UInt64.ofNat (fromLittleEndian (h.take 8)), UInt64.ofNat (fromLittleEndian ((h.drop 8).take 8)))

theorem take_littleEndian (n : Nat) : ((littleEndian 8 n).take 6).length = 6 := by
  rw [List.length_take, littleEndian_length]
  rfl

def withSiphashKeys (txid : Bytes) (keys : UInt64 × UInt64) : ShortId :=
  ⟨(littleEndian 8 (SipHash.hashToU64WithKeys keys.1 keys.2 txid).toNat).take 6, take_littleEndian _⟩

end ShortId

/-- `i.witness.clear()`. -/
def TxIn.clearWitness (i : TxIn) : TxIn :=
  { i with witness := ⟨i.witness.packed.clear, .empty, rfl, Packed.indexed_empty⟩ }

variable [Secp256k1]

structure PrefilledTransaction where
  idx : UInt16
  tx : Transaction
deriving DecidableEq

structure HeaderAndShortIds where
  header : Header
  nonce : UInt64
  shortIds : List ShortId
  prefilledTxs : List PrefilledTransaction
deriving DecidableEq

/-- The transaction as version 1 or 2 relays it. -/
def relayed (version : UInt32) (tx : Transaction) : Outcome Transaction :=
  if version = 1 then pure { tx with input := tx.input.map TxIn.clearWitness }
  else if version = 2 then pure tx
  else panics

section
variable [Hashes]

/-- The id that version 1 or 2 shortens. -/
def relayedId (version : UInt32) (tx : Transaction) : Outcome (ByteArr 32) :=
  if version = 1 then expect (tx.computeTxid Hashes.sha256d)
  else if version = 2 then expect (tx.computeWtxid Hashes.sha256d)
  else panics

/-- The variables of the loop in `from_block`. -/
structure Progress where
  prefill : List Nat
  prefilled : List PrefilledTransaction
  shortIds : List ShortId
  lastPrefill : Nat

/-- The body of the loop in `from_block`. -/
def Progress.step (version : UInt32) (keys : UInt64 × UInt64) (self : Progress) :
    Transaction × Nat → Outcome Progress
  | (tx, idx) => do
    let (prefillTx, prefill) :=
      if self.prefill.head? = some idx then (true, self.prefill.tail)
      else (decide (idx = 0), self.prefill)
    if prefillTx then
      let diffIdx := idx - self.lastPrefill
      let tx ← relayed version tx
      pure { self with
        prefill
        prefilled := self.prefilled ++ [{ idx := UInt16.ofNat diffIdx, tx }]
        lastPrefill := idx + 1 }
    else
      let txid ← relayedId version tx
      pure { self with prefill, shortIds := self.shortIds ++ [ShortId.withSiphashKeys txid.val keys] }

namespace HeaderAndShortIds

def fromBlock (block : Block) (nonce : UInt64) (version : UInt32) (prefill : List Nat) :
    Outcome HeaderAndShortIds :=
  if version ≠ 1 ∧ version ≠ 2 then throw .unknownVersion
  else do
    let keys ← ShortId.calculateSiphashKeys block.header nonce
    -- the capacity of the short ids, `block.txdata.len() - prefill.len()`
    if block.txdata.toList.length < prefill.length then panics
    else do
      let loop ← block.txdata.toList.zipIdx.foldlM (Progress.step version keys)
        { prefill, prefilled := [], shortIds := [], lastPrefill := 0 }
      if !loop.prefill.isEmpty then throw .invalidPrefill
      else pure { header := block.header, nonce, shortIds := loop.shortIds
                  prefilledTxs := loop.prefilled }

end HeaderAndShortIds

end
end Litecoin.Bip152
