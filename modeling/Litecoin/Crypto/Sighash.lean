import Litecoin.Blockdata.TransactionFormat
import Litecoin.Crypto.Hashes
import Litecoin.Crypto.SighashType
import Litecoin.Taproot.Builder
import Litecoin.Wire.Process

/-! Signature hashes (`crypto/sighash.rs`). The encoders write into an arbitrary writer
and share three lazily filled caches, which keep what a call put there even when the
call fails. -/
namespace Litecoin.Sighash
open Wire Consensus Blockdata

/-- `io::Write`, as far as `write_all` shows it: what becomes of the writer, and whether
it took the bytes. -/
class Write (ω : Type) where
  writeAll : ω → Bytes → Except IoError Unit × ω

/-- `Vec<u8>`, and equally a hash engine with what it has received. -/
instance writeBytes : Write Bytes := ⟨fun written bytes => (.ok (), written ++ bytes)⟩

/-- What a hash engine receives; an engine refuses nothing. -/
def received : Emission IoError → Bytes
  | .ok (_, bytes) => bytes
  | .error _ => []

/-- `transaction::InputsIndexError`. -/
structure InputsIndexError where
  index : Nat
  length : Nat
deriving DecidableEq, Repr

inductive PrevoutsIndexError where
  | invalidOneIndex
  | invalidAllIndex
deriving DecidableEq, Repr

/-- `sighash::TaprootError`, as far as the encoder reports it. -/
inductive TaprootError where
  | inputsIndex (error : InputsIndexError)
  | singleMissingOutput (inputIndex outputsLength : Nat)
  | prevoutsSize
  | prevoutsIndex (error : PrevoutsIndexError)
  | prevoutsKind
deriving DecidableEq, Repr

inductive SigningDataError (ε : Type) where
  | io (error : IoError)
  | sighash (error : ε)
deriving DecidableEq, Repr

/-- `Prevouts`: the output spent by one input, or those spent by all of them. -/
inductive Prevouts where
  | one (index : Nat) (prevout : TxOut)
  | all (prevouts : List TxOut)
deriving DecidableEq

/-- `Annex`, a byte string that starts with the annex byte. -/
abbrev Annex : Type := { bytes : ByteVec // bytes.toList.head? = some Taproot.annexPrefix }

section
variable [Secp256k1]

/-- `Transaction::tx_in`. -/
def txIn (tx : Transaction) (inputIndex : Nat) : Except InputsIndexError TxIn :=
  match tx.input.toList[inputIndex]? with
  | some txin => .ok txin
  | none => .error { index := inputIndex, length := tx.input.toList.length }

theorem txIn_eq_ok {tx : Transaction} {inputIndex : Nat} {txin : TxIn} :
    txIn tx inputIndex = .ok txin ↔ tx.input.toList[inputIndex]? = some txin := by
  simp only [txIn]
  cases tx.input.toList[inputIndex]? <;> simp

namespace Prevouts

def checkAll (prevouts : Prevouts) (tx : Transaction) : Except TaprootError Unit :=
  match prevouts with
  | .all prevouts =>
    if prevouts.length ≠ tx.input.toList.length then .error .prevoutsSize else .ok ()
  | .one _ _ => .ok ()

omit [Secp256k1] in
def getAll : Prevouts → Except TaprootError (List TxOut)
  | .all prevouts => .ok prevouts
  | .one _ _ => .error .prevoutsKind

omit [Secp256k1] in
def get (prevouts : Prevouts) (inputIndex : Nat) : Except TaprootError TxOut :=
  match prevouts with
  | .one index prevout =>
    if inputIndex = index then .ok prevout else .error (.prevoutsIndex .invalidOneIndex)
  | .all prevouts => match prevouts[inputIndex]? with
    | some prevout => .ok prevout
    | none => .error (.prevoutsIndex .invalidAllIndex)

end Prevouts

structure CommonCache where
  prevouts : ByteArr 32
  sequences : ByteArr 32
  outputs : ByteArr 32
deriving DecidableEq

structure SegwitCache where
  prevouts : ByteArr 32
  sequences : ByteArr 32
  outputs : ByteArr 32
deriving DecidableEq

structure TaprootCache where
  amounts : ByteArr 32
  scriptPubkeys : ByteArr 32
deriving DecidableEq

structure SighashCache where
  tx : Transaction
  commonCache : Option CommonCache
  segwitCache : Option SegwitCache
  taprootCache : Option TaprootCache

/-- `EncodeSigningDataResult`. -/
inductive EncodeSigningDataResult (ε : Type) where
  | sighashSingleBug
  | writeResult (result : Except ε Unit)
deriving DecidableEq

section
variable [Hashes]

def CommonCache.of (tx : Transaction) : CommonCache where
  prevouts := Hashes.sha256 (received
    (.each (fun txin => txin.previousOutput.consensusEncode) tx.input.toList))
  sequences := Hashes.sha256 (received (.each (fun txin => encodeU32 txin.sequence) tx.input.toList))
  outputs := Hashes.sha256 (received (.each TxOut.consensusEncode tx.output.toList))

/-- `sha256::Hash::hash_again`. -/
def hashAgain (hash : ByteArr 32) : ByteArr 32 := Hashes.sha256 hash.val

omit [Secp256k1] in
def SegwitCache.of (common : CommonCache) : SegwitCache where
  prevouts := hashAgain common.prevouts
  sequences := hashAgain common.sequences
  outputs := hashAgain common.outputs

omit [Secp256k1] in
def TaprootCache.of (prevouts : List TxOut) : TaprootCache where
  amounts := Hashes.sha256 (received (.each (fun prevout => encodeU64 prevout.value) prevouts))
  scriptPubkeys := Hashes.sha256 (received
    (.each (fun prevout => encodeWithSize prevout.scriptPubkey) prevouts))

end

/-- A method of the cache with its writer at hand. -/
abbrev Sighasher (ω ε α : Type) : Type := Process (SighashCache × ω) (SigningDataError ε) α

namespace SighashCache

def new (tx : Transaction) : SighashCache where
  tx
  commonCache := none
  segwitCache := none
  taprootCache := none

/-- `value.consensus_encode(writer)?`. -/
def write [Write ω] (emission : Emission IoError) : Sighasher ω ε Unit := fun (cache, writer) =>
  match emission with
  | .error e => (.error (.io e), (cache, writer))
  | .ok (_, bytes) =>
    let (result, writer) := Write.writeAll writer bytes
    (result.mapError .io, (cache, writer))

@[simp] theorem write_written (bytes : Bytes) (cache : SighashCache) (written : Bytes) :
    (write (.written bytes) : Sighasher Bytes ε Unit) (cache, written) =
      (.ok (), (cache, written ++ bytes)) := rfl

/-- A buffer takes the bytes and the method goes on. -/
@[simp] theorem write_bind (bytes : Bytes) (next : Unit → Sighasher Bytes ε α) (cache : SighashCache)
    (written : Bytes) :
    (write (.written bytes) >>= next) (cache, written) = next () (cache, written ++ bytes) := rfl

/-- `result.map_err(SigningDataError::sighash)?`. -/
def check (result : Except ε α) : Sighasher ω ε α := .ofExcept (result.mapError .sighash)

/-- `self.tx.borrow()`. -/
def transaction : Sighasher ω ε Transaction := .look fun (cache, _) => cache.tx

variable [Hashes]

/-- `get_or_insert_with` on each of the caches. -/
def fillCommon (cache : SighashCache) : CommonCache × SighashCache :=
  match cache.commonCache with
  | some common => (common, cache)
  | none => (.of cache.tx, { cache with commonCache := some (.of cache.tx) })

/-- The common cache is consulted, and filled, only when the values are not there yet. -/
def fillSegwit (cache : SighashCache) : SegwitCache × SighashCache :=
  match cache.segwitCache with
  | some segwit => (segwit, cache)
  | none =>
    let (common, cache) := cache.fillCommon
    (.of common, { cache with segwitCache := some (.of common) })

def fillTaproot (prevouts : List TxOut) (cache : SighashCache) : TaprootCache × SighashCache :=
  match cache.taprootCache with
  | some taproot => (taproot, cache)
  | none => (.of prevouts, { cache with taprootCache := some (.of prevouts) })

/-- Runs `fill` on the cache and leaves the writer alone. -/
def filling (fill : SighashCache → α × SighashCache) : Sighasher ω ε α :=
  .update fun (cache, writer) => ((fill cache).1, ((fill cache).2, writer))

/-- Everything that commits to all inputs and to the outputs they spend. -/
def writeAllInputs [Write ω] (prevouts : Prevouts) : Sighasher ω TaprootError Unit := do
  let common ← filling fillCommon
  write (encodeArray common.prevouts)
  let all ← check prevouts.getAll
  let taproot ← filling (fillTaproot all)
  write (encodeArray taproot.amounts)
  let all ← check prevouts.getAll
  let taproot ← filling (fillTaproot all)
  write (encodeArray taproot.scriptPubkeys)
  let common ← filling fillCommon
  write (encodeArray common.sequences)

def writeAllOutputs [Write ω] : Sighasher ω ε Unit := do
  let common ← filling fillCommon
  write (encodeArray common.outputs)

/-- Bit 0 announces an annex and bit 1 a leaf. -/
def spendType (annex leaf : Bool) : UInt8 := (if annex then 1 else 0) ||| (if leaf then 2 else 0)

omit [Hashes] in
/-- The data of one input under `SIGHASH_ANYONECANPAY`. -/
def writeOneInput [Write ω] (inputIndex : Nat) (prevouts : Prevouts) :
    Sighasher ω TaprootError Unit := do
  let tx ← transaction
  let txin ← check ((txIn tx inputIndex).mapError .inputsIndex)
  let previousOutput ← check (prevouts.get inputIndex)
  write txin.previousOutput.consensusEncode
  write (encodeU64 previousOutput.value)
  write (encodeWithSize previousOutput.scriptPubkey)
  write (encodeU32 txin.sequence)

def writeAnnex [Write ω] : Option Annex → Sighasher ω ε Unit
  | none => pure ()
  | some annex => write (encodeArray (Hashes.sha256 (received (encodeWithSize annex.val))))

def writeSingleOutput [Write ω] (inputIndex : Nat) : Sighasher ω TaprootError Unit := do
  let tx ← transaction
  let txout ← check (match tx.output.toList[inputIndex]? with
    | some txout => .ok txout
    | none => .error (.singleMissingOutput inputIndex tx.output.toList.length))
  write (encodeArray (Hashes.sha256 (received txout.consensusEncode)))

omit [Hashes] in
/-- The leaf, the key version zero and the position of the last code separator. -/
def writeLeaf [Write ω] : Option (Taproot.TapLeafHash × UInt32) → Sighasher ω ε Unit
  | none => pure ()
  | some (hash, codeSeparatorPos) => do
    write (encodeArray hash)
    write (encodeU8 0)
    write (encodeU32 codeSeparatorPos)

omit [Hashes] in
/-- Under `SIGHASH_ANYONECANPAY` the input itself, else its index cut to 32 bits. -/
def writeThisInput [Write ω] (anyoneCanPay : Bool) (inputIndex : Nat) (prevouts : Prevouts) :
    Sighasher ω TaprootError Unit :=
  if anyoneCanPay then writeOneInput inputIndex prevouts
  else write (encodeU32 (UInt32.ofNat inputIndex))

/-- The index is checked only where the input or its output is needed. -/
def taprootEncodeSigningDataTo [Write ω] (inputIndex : Nat) (prevouts : Prevouts)
    (annex : Option Annex) (leafHashCodeSeparator : Option (Taproot.TapLeafHash × UInt32))
    (sighashType : TapSighashType) : Sighasher ω TaprootError Unit := do
  let tx ← transaction
  check (prevouts.checkAll tx)
  let (sighash, anyoneCanPay) := sighashType.splitAnyonecanpayFlag
  write (encodeU8 0)
  write (encodeU8 sighashType.toU8)
  write (encodeI32 tx.version)
  write tx.lockTime.consensusEncode
  Process.gated (anyoneCanPay = false) (writeAllInputs prevouts)
  Process.gated (sighash ≠ .none ∧ sighash ≠ .single) writeAllOutputs
  write (encodeU8 (spendType annex.isSome leafHashCodeSeparator.isSome))
  writeThisInput anyoneCanPay inputIndex prevouts
  writeAnnex annex
  Process.gated (sighash = .single) (writeSingleOutput inputIndex)
  writeLeaf leafHashCodeSeparator

omit [Secp256k1] [Hashes] in
/-- `sha256d::Hash::all_zeros`. -/
def zeroHash : ByteArr 32 := ⟨List.replicate 32 0, rfl⟩

/-- One of the cached hashes where `committed`, else the zero hash. -/
def writeHash [Write ω] (committed : Prop) [Decidable committed] (part : SegwitCache → ByteArr 32) :
    Sighasher ω ε Unit :=
  if committed then do
    let segwit ← filling fillSegwit
    write (encodeArray (part segwit))
  else write (encodeArray zeroHash)

/-- The output with the input's index, or the zero hash when there is none. -/
def writeMatchingOutput [Write ω] (inputIndex : Nat) : Sighasher ω ε Unit := do
  let tx ← transaction
  write (encodeArray (match tx.output.toList[inputIndex]? with
    | some txout => Hashes.sha256d (received txout.consensusEncode)
    | none => zeroHash))

def writeOutputsHash [Write ω] (inputIndex : Nat) (sighash : EcdsaSighashType) :
    Sighasher ω ε Unit :=
  if sighash = .single then writeMatchingOutput inputIndex
  else writeHash (sighash ≠ .none) SegwitCache.outputs

def segwitV0EncodeSigningDataTo [Write ω] (inputIndex : Nat) (scriptCode : ByteVec) (value : UInt64)
    (sighashType : EcdsaSighashType) : Sighasher ω InputsIndexError Unit := do
  let (sighash, anyoneCanPay) := sighashType.splitAnyonecanpayFlag
  let tx ← transaction
  write (encodeI32 tx.version)
  writeHash (anyoneCanPay = false) SegwitCache.prevouts
  writeHash (anyoneCanPay = false ∧ sighash ≠ .single ∧ sighash ≠ .none) SegwitCache.sequences
  let txin ← check (txIn tx inputIndex)
  write txin.previousOutput.consensusEncode
  write (encodeWithSize scriptCode)
  write (encodeU64 value)
  write (encodeU32 txin.sequence)
  writeOutputsHash inputIndex sighash
  write tx.lockTime.consensusEncode
  write (encodeU32 sighashType.toU32)

/-- `witness_mut`, with the witness that is put there; the result tells whether there was
an input to put it into. -/
def witnessMut (cache : SighashCache) (inputIndex : Nat) (witness : Witness) : Bool × SighashCache :=
  (inputIndex < cache.tx.input.toList.length, { cache with
    tx := { cache.tx with input := cache.tx.input.modify inputIndex fun txin => { txin with witness } } })

end SighashCache

omit [Secp256k1] in
/-- `TxOut::NULL`. -/
def nullTxOut : TxOut where
  value := 0xffffffffffffffff
  scriptPubkey := .empty

omit [Secp256k1] in
def isInvalidUseOfSighashSingle (sighash : UInt32) (inputIndex outputsLen : Nat) : Bool :=
  (EcdsaSighashType.fromConsensus sighash).isSingle && decide (outputsLen ≤ inputIndex)

/-- The inputs of the transaction that is written in place of the signed one. -/
def legacyInput (tx : Transaction) (inputIndex : Nat) (txin : TxIn) (scriptPubkey : ByteVec)
    (sighash : EcdsaSighashType) (anyoneCanPay : Bool) : Vec TxIn :=
  if anyoneCanPay then .singleton { txin with scriptSig := scriptPubkey, witness := .new }
  else tx.input.mapIdx fun n input => {
    previousOutput := input.previousOutput
    scriptSig := if n = inputIndex then scriptPubkey else .empty
    sequence := if n ≠ inputIndex ∧ (sighash = .single ∨ sighash = .none) then 0 else input.sequence
    witness := .new }

/-- The outputs of that transaction. The flag has been split off `sighash`, so that the
last case is unreachable. -/
def legacyOutput (tx : Transaction) (inputIndex : Nat) (sighash : EcdsaSighashType) : Vec TxOut :=
  match sighash with
  | .all => tx.output
  | .single => (tx.output.take (inputIndex + 1)).mapIdx fun n out =>
      if n = inputIndex then out else nullTxOut
  | .none => .empty
  | _ => tx.output

/-- The transaction built by `encode_signing_data_to_inner`, where `txin` is the input at
`inputIndex`. -/
def legacyTransaction (tx : Transaction) (inputIndex : Nat) (txin : TxIn) (scriptPubkey : ByteVec)
    (sighashType : UInt32) : Transaction :=
  let (sighash, anyoneCanPay) := (EcdsaSighashType.fromConsensus sighashType).splitAnyonecanpayFlag
  { version := tx.version
    lockTime := tx.lockTime
    input := legacyInput tx inputIndex txin scriptPubkey sighash anyoneCanPay
    output := legacyOutput tx inputIndex sighash
    mwTx := none
    isHogEx := false }

namespace SighashCache

/-- A method on `&self`: the caches are neither consulted nor filled. -/
def legacyEncodeSigningDataTo [Write ω] (cache : SighashCache) (writer : ω) (inputIndex : Nat)
    (scriptPubkey : ByteVec) (sighashType : UInt32) :
    EncodeSigningDataResult (SigningDataError InputsIndexError) × ω :=
  match txIn cache.tx inputIndex with
  | .error e => (.writeResult (.error (.sighash e)), writer)
  | .ok txin =>
    if isInvalidUseOfSighashSingle sighashType inputIndex cache.tx.output.toList.length then
      (.sighashSingleBug, writer)
    else
      let signed := legacyTransaction cache.tx inputIndex txin scriptPubkey sighashType
      let inner : Sighasher ω InputsIndexError Unit := do
        write signed.consensusEncode
        write (encodeU32 sighashType)
      let (result, _, writer) := inner (cache, writer)
      (.writeResult result, writer)

/-- `UINT256_ONE`. -/
def uint256One : ByteArr 32 := ⟨1 :: List.replicate 31 0, rfl⟩

/-- The outer `none` is the panic on an error of the hash engine. -/
def legacySignatureHash [Hashes] (cache : SighashCache) (inputIndex : Nat) (scriptPubkey : ByteVec)
    (sighashType : UInt32) : Option (Except InputsIndexError (ByteArr 32)) :=
  let engine : Bytes := []
  match cache.legacyEncodeSigningDataTo engine inputIndex scriptPubkey sighashType with
  | (.sighashSingleBug, _) => some (.ok uint256One)
  | (.writeResult (.ok ()), engine) => some (.ok (Hashes.sha256d engine))
  | (.writeResult (.error (.sighash e)), _) => some (.error e)
  | (.writeResult (.error (.io _)), _) => none

end SighashCache
end

section
attribute [local instance] Secp256k1.generatorOnly

/-- Two default inputs and one null output. -/
def moreInputsThanOutputs : Transaction where
  version := 1
  lockTime := .fromConsensus 0
  input :=
    let txin : TxIn := {
      previousOutput := { txid := SighashCache.zeroHash, vout := 0xffffffff }
      scriptSig := .empty
      sequence := 0xffffffff
      witness := .new }
    ⟨[txin, txin], Nat.lt_two_pow_self.trans (by decide)⟩
  output := .singleton nullTxOut
  mwTx := none
  isHogEx := false

end
end Litecoin.Sighash
