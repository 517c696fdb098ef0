import Litecoin.Psbt.Serialize
import Litecoin.Wire.Indexed

/-! The MWEB maps of a PSBT (`psbt/mweb`): optional fields told apart by a type byte,
of which ill-formed ones are ignored. -/
namespace Litecoin.Psbt
open Wire Consensus Bip32

/-- What a field takes from key data and value, and what it is written as. -/
structure MwebField (α : Type) where
  parse : (keyData value : Bytes) → Option α
  render : α → Bytes × Bytes

namespace MwebField

def array (n : Nat) : MwebField (ByteArr n) where
  parse _ value := if size : value.length = n then some ⟨value, size⟩ else none
  render a := ([], a.val)

def bytes : MwebField Bytes where
  parse _ value := some value
  render a := ([], a)

/-- The first byte of a value that has one. -/
def firstByte : MwebField UInt8 where
  parse _ value := value.head?
  render a := ([], [a])

def u32 : MwebField UInt32 where
  parse _ value := if value.length = 4 then some (UInt32.ofNat (fromLittleEndian value)) else none
  render a := ([], littleEndian 4 a.toNat)

def u64 : MwebField UInt64 where
  parse _ value := if value.length = 8 then some (UInt64.ofNat (fromLittleEndian value)) else none
  render a := ([], littleEndian 8 a.toNat)

/-- A field that is ignored when it has key data. -/
def unkeyed (field : MwebField α) : MwebField α where
  parse keyData value := if keyData.isEmpty then field.parse keyData value else none
  render := field.render

/-- A key origin: the public key as key data, its source as value. -/
def keyOrigin [Secp256k1] : MwebField (Secp256k1.PublicKey × KeySource) where
  parse keyData value := do
    let key ← Secp256k1.publicKeyFromSlice keyData
    let source ← (Value.keySource.deserialize value).toOption
    pure (key, source)
  render := fun (key, source) => ((Secp256k1.serialize key).val, Value.keySourceBytes source)

end MwebField

/-- A type byte, key data and a value. -/
abbrev KvPair : Type := UInt8 × Bytes × Bytes

/-- The fields of a kind of MWEB map, in the order they are written. -/
structure MwebTable (F : Type) where
  Content : F → Type
  fields : List F
  typeValue : F → UInt8
  field : (f : F) → MwebField (Content f)

namespace MwebTable

abbrev Record (table : MwebTable F) : Type := (f : F) → Option (table.Content f)

def empty (table : MwebTable F) : table.Record := fun _ => none

def fieldOf (table : MwebTable F) (typeValue : UInt8) : Option F :=
  table.fields.find? fun f => table.typeValue f = typeValue

/-- A well-formed field replaces whatever was there; any other is ignored. -/
def apply [DecidableEq F] (table : MwebTable F) (record : table.Record) (kv : KvPair) : table.Record :=
  match table.fieldOf kv.1 with
  | none => record
  | some f => match (table.field f).parse kv.2.1 kv.2.2 with
    | none => record
    | some a => Function.update record f (some a)

def kvPairs (table : MwebTable F) (fields : List F) (record : table.Record) : List KvPair :=
  fields.flatMap fun f => (record f).toList.map fun a => (table.typeValue f, (table.field f).render a)

end MwebTable

namespace MwebInput

inductive Field where
  | outputId
  | commit
  | outputPubkey
  | inputPubkey
  | features
  | signature
  | addressIndex
  | amount
  | sharedSecret
  | keyExchangePubkey
  | masterScanKeyOrigin
  | masterSpendKeyOrigin
  | extraData
deriving DecidableEq

open MwebInput.Field

/-- The type bytes `0x90..=0x9C`. -/
def typeValue : Field → UInt8
  | outputId => 0x90
  | commit => 0x91
  | outputPubkey => 0x92
  | inputPubkey => 0x93
  | features => 0x94
  | signature => 0x95
  | addressIndex => 0x96
  | amount => 0x97
  | sharedSecret => 0x98
  | keyExchangePubkey => 0x99
  | masterScanKeyOrigin => 0x9A
  | masterSpendKeyOrigin => 0x9B
  | extraData => 0x9C

/-- `MWEB_INPUT_FIELD_MIN..=MWEB_INPUT_FIELD_MAX`. -/
def inRange (typeValue : UInt8) : Bool := 0x90 ≤ typeValue && typeValue ≤ 0x9C

variable [Secp256k1]

def Content : Field → Type
  | outputId | sharedSecret => ByteArr 32
  | commit => ByteArr 33
  | features => UInt8
  | addressIndex => UInt32
  | amount => UInt64
  | masterScanKeyOrigin | masterSpendKeyOrigin => Secp256k1.PublicKey × KeySource
  | outputPubkey | inputPubkey | signature | keyExchangePubkey | extraData => Bytes

def field : (f : Field) → MwebField (Content f)
  | outputId | sharedSecret => (MwebField.array 32).unkeyed
  | commit => (MwebField.array 33).unkeyed
  | features => MwebField.firstByte.unkeyed
  | addressIndex => MwebField.u32.unkeyed
  | amount => MwebField.u64.unkeyed
  | masterScanKeyOrigin | masterSpendKeyOrigin => MwebField.keyOrigin
  | outputPubkey | inputPubkey | signature | keyExchangePubkey | extraData =>
    MwebField.bytes.unkeyed

def table : MwebTable Field where
  Content := Content
  fields := [outputId, commit, outputPubkey, inputPubkey, features, signature, addressIndex, amount,
    sharedSecret, keyExchangePubkey, masterScanKeyOrigin, masterSpendKeyOrigin, extraData]
  typeValue := typeValue
  field := field

end MwebInput

abbrev MwebInput [Secp256k1] : Type := MwebInput.table.Record

namespace MwebInput
variable [Secp256k1]

def applyKvField (input : MwebInput) (kv : KvPair) : MwebInput := table.apply input kv

def toKvPairs (input : MwebInput) : List KvPair := table.kvPairs table.fields input

end MwebInput

namespace MwebOutput

inductive Field where
  | stealthAddress
  | commit
  | features
  | senderPubkey
  | outputPubkey
  | standardFields
  | rangeProof
  | signature
  | extraData
deriving DecidableEq

open MwebOutput.Field

/-- The type bytes `0x90..=0x98`. -/
def typeValue : Field → UInt8
  | stealthAddress => 0x90
  | commit => 0x91
  | features => 0x92
  | senderPubkey => 0x93
  | outputPubkey => 0x94
  | standardFields => 0x95
  | rangeProof => 0x96
  | signature => 0x97
  | extraData => 0x98

/-- `MWEB_OUTPUT_FIELD_MIN..=MWEB_OUTPUT_FIELD_MAX`. -/
def inRange (typeValue : UInt8) : Bool := 0x90 ≤ typeValue && typeValue ≤ 0x98

def Content : Field → Type
  | commit => ByteArr 33
  | features => UInt8
  | stealthAddress | senderPubkey | outputPubkey | standardFields | rangeProof | signature
  | extraData => Bytes

def field : (f : Field) → MwebField (Content f)
  | commit => MwebField.array 33
  | features => MwebField.firstByte
  | stealthAddress | senderPubkey | outputPubkey | standardFields | rangeProof | signature
  | extraData => MwebField.bytes

def table : MwebTable Field where
  Content := Content
  fields := [stealthAddress, commit, features, senderPubkey, outputPubkey, standardFields,
    rangeProof, signature, extraData]
  typeValue := typeValue
  field := field

end MwebOutput

abbrev MwebOutput : Type := MwebOutput.table.Record

namespace MwebOutput

/-- Output fields have no key data. -/
def applyField (output : MwebOutput) (kv : UInt8 × Bytes) : MwebOutput :=
  table.apply output (kv.1, [], kv.2)

def toPairs (output : MwebOutput) : List (UInt8 × Bytes) :=
  (table.kvPairs table.fields output).map fun (typeValue, _, value) => (typeValue, value)

end MwebOutput

namespace MwebKernel

/-- The fields with at most one value. -/
inductive Field where
  | excessCommit
  | stealthCommit
  | fee
  | peginAmount
  | lockHeight
  | features
  | extraData
  | signature
deriving DecidableEq

open MwebKernel.Field

def typeValue : Field → UInt8
  | excessCommit => 0
  | stealthCommit => 1
  | fee => 2
  | peginAmount => 3
  | lockHeight => 5
  | features => 6
  | extraData => 7
  | signature => 8

/-- `MWEB_KERNEL_PEGOUT_TYPE`. -/
def pegoutType : UInt8 := 4

def Content : Field → Type
  | excessCommit => ByteArr 33
  | fee | peginAmount => UInt64
  | lockHeight => UInt32
  | features => UInt8
  | signature => ByteArr 64
  | stealthCommit | extraData => Bytes

/-- Key data is only looked at for peg-outs. -/
def field : (f : Field) → MwebField (Content f)
  | excessCommit => MwebField.array 33
  | fee | peginAmount => MwebField.u64
  | lockHeight => MwebField.u32
  | features => MwebField.firstByte
  | signature => MwebField.array 64
  | stealthCommit | extraData => MwebField.bytes

def beforePegouts : List Field := [excessCommit, stealthCommit, fee, peginAmount]
def afterPegouts : List Field := [lockHeight, features, extraData, signature]

def table : MwebTable Field where
  Content := Content
  fields := beforePegouts ++ afterPegouts
  typeValue := typeValue
  field := field

end MwebKernel

structure MwebKernel where
  fields : MwebKernel.table.Record
  pegouts : List Bytes
  unknowns : List (Bytes × Bytes)

namespace MwebKernel

def default : MwebKernel := { fields := table.empty, pegouts := [], unknowns := [] }

/-- The index of a peg-out is its key data; without key data it is appended. -/
def applyPegout (pegouts : List Bytes) (keyData value : Bytes) : List Bytes :=
  let index := match keyData with
    | [] => pegouts.length
    | byte :: _ => byte.toNat
  applyAt [] (fun _ value => value) pegouts (index, value)

def applyField (kernel : MwebKernel) (kv : KvPair) : MwebKernel :=
  if kv.1 = pegoutType then { kernel with pegouts := applyPegout kernel.pegouts kv.2.1 kv.2.2 }
  else { kernel with fields := table.apply kernel.fields kv }

/-- The index of a peg-out is cut down to one byte. -/
def pegoutPairs (pegouts : List Bytes) : List KvPair :=
  pegouts.zipIdx.map fun (value, i) => (pegoutType, [UInt8.ofNat i], value)

/-- Unknown pairs are left out. -/
def toKvPairs (kernel : MwebKernel) : List KvPair :=
  table.kvPairs beforePegouts kernel.fields ++ pegoutPairs kernel.pegouts ++
    table.kvPairs afterPegouts kernel.fields

end MwebKernel
end Litecoin.Psbt
