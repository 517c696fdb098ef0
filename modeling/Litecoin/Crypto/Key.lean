import Litecoin.Crypto.Secp256k1
import Litecoin.Crypto.SighashType
import Litecoin.Wire.Order

/-! Public keys and signatures as scripts and PSBT values hold them
(`crypto/key.rs`, `crypto/ecdsa.rs`, `crypto/taproot.rs`, `crypto/sighash.rs`). -/
namespace Litecoin.Crypto
open Wire
open Sighash (EcdsaSighashType TapSighashType)

/-- `key::FromSliceError`. -/
inductive KeyFromSliceError where
  | secp256k1
  | invalidKeyPrefix (byte : UInt8)
  | invalidLength (length : Nat)
deriving DecidableEq, Repr

/-- `ecdsa::Error` without the hex errors, which do not come from slices. -/
inductive EcdsaError where
  | sighashType (value : UInt32)
  | emptySignature
  | secp256k1
deriving DecidableEq, Repr

/-- `taproot::SigFromSliceError`. -/
inductive SigFromSliceError where
  | sighashType (value : UInt32)
  | secp256k1
  | invalidSignatureSize (length : Nat)
deriving DecidableEq, Repr

variable [Secp256k1]

instance publicKeyTransOrd : Std.TransOrd Secp256k1.PublicKey := inferInstance

instance xOnlyPublicKeyTransOrd : Std.TransOrd Secp256k1.XOnlyPublicKey := inferInstance

structure PublicKey where
  compressed : Bool
  inner : Secp256k1.PublicKey

namespace PublicKey

instance : Ord PublicKey := ⟨compareOn fun key => (key.compressed, key.inner)⟩

instance : Std.TransOrd PublicKey := inferInstanceAs (Std.TransCmp (compareOn _))

instance : Std.LawfulEqOrd PublicKey := lawfulEq_compareOn fun key other same => by
  cases key
  cases other
  simpa using same

/-- `with_serialized`. -/
def toBytes (key : PublicKey) : Bytes :=
  if key.compressed then (Secp256k1.serialize key.inner).val
  else (Secp256k1.serializeUncompressed key.inner).val

def fromSlice (data : Bytes) : Except KeyFromSliceError PublicKey :=
  if data.length = 33 then parse true
  else if data.length = 65 then
    match data.head? with
    | some 0x04 => parse false
    | some first => .error (.invalidKeyPrefix first)
    | none => .error (.invalidLength 0)
  else .error (.invalidLength data.length)
where
  parse (compressed : Bool) : Except KeyFromSliceError PublicKey :=
    match Secp256k1.publicKeyFromSlice data with
    | some inner => .ok { compressed, inner }
    | none => .error .secp256k1

theorem fromSlice_toBytes [Secp256k1.Inverse] (key : PublicKey) :
    fromSlice key.toBytes = .ok key := by
  obtain ⟨compressed, inner⟩ := key
  cases compressed with
  | true =>
    simp only [toBytes, if_true, fromSlice, (Secp256k1.serialize inner).property, fromSlice.parse,
      Secp256k1.Lawful.fromSlice_serialize]
  | false =>
    simp only [toBytes, if_false, fromSlice, (Secp256k1.serializeUncompressed inner).property,
      fromSlice.parse, Secp256k1.Inverse.fromSlice_serializeUncompressed,
      Secp256k1.Inverse.serializeUncompressed_head, Bool.false_eq_true, if_false, if_true]
    rfl

end PublicKey

/-- `ecdsa::Signature`. -/
structure EcdsaSignature where
  signature : Secp256k1.EcdsaSignature
  sighashType : EcdsaSighashType

namespace EcdsaSignature

def toVec (signature : EcdsaSignature) : Bytes :=
  (Secp256k1.serializeDer signature.signature).val ++ [signature.sighashType.toU32.toUInt8]

def fromSlice (data : Bytes) : Except EcdsaError EcdsaSignature :=
  match data.getLast? with
  | none => .error .emptySignature
  | some last => match EcdsaSighashType.fromStandard last.toUInt32 with
    | .error value => .error (.sighashType value)
    | .ok sighashType => match Secp256k1.ecdsaFromDer data.dropLast with
      | some signature => .ok { signature, sighashType }
      | none => .error .secp256k1

theorem fromSlice_toVec [Secp256k1.SignaturesParse] (signature : EcdsaSignature) :
    fromSlice signature.toVec = .ok signature := by
  simp only [fromSlice, toVec, List.getLast?_concat, EcdsaSighashType.fromStandard_toU32,
    List.dropLast_concat, Secp256k1.SignaturesParse.fromDer_serializeDer]

end EcdsaSignature

/-- `taproot::Signature`. -/
structure TaprootSignature where
  signature : Secp256k1.SchnorrSignature
  sighashType : TapSighashType

namespace TaprootSignature

/-- The default sighash type has no byte. -/
def toVec (signature : TaprootSignature) : Bytes :=
  (Secp256k1.serializeSchnorr signature.signature).val ++
    if signature.sighashType = .default then [] else [signature.sighashType.toU8]

def fromSlice (data : Bytes) : Except SigFromSliceError TaprootSignature :=
  if data.length = 64 then parse data .default
  else if data.length = 65 then
    match data.getLast? with
    | none => .error (.invalidSignatureSize 0)
    | some last => match TapSighashType.fromConsensusU8 last with
      | .error value => .error (.sighashType value)
      | .ok sighashType => parse data.dropLast sighashType
  else .error (.invalidSignatureSize data.length)
where
  parse (data : Bytes) (sighashType : TapSighashType) :
      Except SigFromSliceError TaprootSignature :=
    match Secp256k1.schnorrFromSlice data with
    | some signature => .ok { signature, sighashType }
    | none => .error .secp256k1

theorem fromSlice_toVec [Secp256k1.SignaturesParse] (signature : TaprootSignature) :
    fromSlice signature.toVec = .ok signature := by
  obtain ⟨signature, sighashType⟩ := signature
  have size := (Secp256k1.serializeSchnorr signature).property
  by_cases default : sighashType = .default
  · simp only [toVec, default, if_true, List.append_nil, fromSlice, size, fromSlice.parse,
      Secp256k1.SignaturesParse.schnorrFromSlice_serialize]
  · simp [toVec, default, fromSlice, size, fromSlice.parse,
      TapSighashType.fromConsensusU8_toU8, Secp256k1.SignaturesParse.schnorrFromSlice_serialize]

end TaprootSignature
end Litecoin.Crypto
