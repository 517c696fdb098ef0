import Litecoin.Consensus.Encode
import Mathlib.Order.Lattice

/-! The `secp256k1` crate is not part of the repository. Its types and parsers are
ambient, and the parsing laws the codecs rely on are named classes. -/
namespace Litecoin

/-- The parts of the `secp256k1` crate that the codecs call. -/
class Secp256k1 where
  PublicKey : Type
  publicKeyOrder : LinearOrder PublicKey
  /-- `PublicKey::from_slice`. -/
  publicKeyFromSlice : Wire.Bytes → Option PublicKey
  serialize : PublicKey → Consensus.ByteArr 33
  serializeUncompressed : PublicKey → Consensus.ByteArr 65
  XOnlyPublicKey : Type
  xOnlyPublicKeyOrder : LinearOrder XOnlyPublicKey
  /-- `XOnlyPublicKey::from_slice`. -/
  xOnlyPublicKeyFromSlice : Wire.Bytes → Option XOnlyPublicKey
  serializeXOnly : XOnlyPublicKey → Consensus.ByteArr 32
  EcdsaSignature : Type
  /-- `ecdsa::Signature::from_der`. -/
  ecdsaFromDer : Wire.Bytes → Option EcdsaSignature
  serializeDer : EcdsaSignature → { bytes : Wire.Bytes // bytes.length ≤ 72 }
  SchnorrSignature : Type
  /-- `schnorr::Signature::from_slice`. -/
  schnorrFromSlice : Wire.Bytes → Option SchnorrSignature
  serializeSchnorr : SchnorrSignature → Consensus.ByteArr 64

namespace Secp256k1
section
variable [Secp256k1]

instance : LinearOrder PublicKey := publicKeyOrder

instance : LinearOrder XOnlyPublicKey := xOnlyPublicKeyOrder

/-- A 33-byte key that parses is the serialization of the parsed key. -/
class Canonical : Prop where
  serialize_fromSlice : ∀ (bytes : Consensus.ByteArr 33) (key : PublicKey),
    publicKeyFromSlice bytes.val = some key → serialize key = bytes

/-- Serialized keys parse back. -/
class Lawful : Prop extends Canonical where
  fromSlice_serialize : ∀ key : PublicKey, publicKeyFromSlice (serialize key).val = some key

/-- Every serialized key and signature parses back. -/
class Inverse : Prop extends Lawful where
  fromSlice_serializeUncompressed : ∀ key : PublicKey,
    publicKeyFromSlice (serializeUncompressed key).val = some key
  serializeUncompressed_head : ∀ key : PublicKey, (serializeUncompressed key).val.head? = some 0x04
  xOnlyFromSlice_serialize : ∀ key : XOnlyPublicKey,
    xOnlyPublicKeyFromSlice (serializeXOnly key).val = some key
  fromDer_serializeDer : ∀ signature : EcdsaSignature,
    ecdsaFromDer (serializeDer signature).val = some signature
  schnorrFromSlice_serialize : ∀ signature : SchnorrSignature,
    schnorrFromSlice (serializeSchnorr signature).val = some signature

/-- Parsing and serializing x-only keys are inverse to each other. -/
class XOnlyInverse : Prop where
  xOnlyFromSlice_serialize : ∀ key : XOnlyPublicKey,
    xOnlyPublicKeyFromSlice (serializeXOnly key).val = some key
  serializeXOnly_fromSlice : ∀ (bytes : Consensus.ByteArr 32) (key : XOnlyPublicKey),
    xOnlyPublicKeyFromSlice bytes.val = some key → serializeXOnly key = bytes

/-- Serialized signatures parse back. -/
class SignaturesParse : Prop where
  fromDer_serializeDer : ∀ signature : EcdsaSignature,
    ecdsaFromDer (serializeDer signature).val = some signature
  schnorrFromSlice_serialize : ∀ signature : SchnorrSignature,
    schnorrFromSlice (serializeSchnorr signature).val = some signature

instance [Inverse] : SignaturesParse := ⟨Inverse.fromDer_serializeDer, Inverse.schnorrFromSlice_serialize⟩

/-- Besides, a Schnorr signature has one serialization. -/
class SignaturesInverse : Prop extends SignaturesParse where
  serializeSchnorr_fromSlice : ∀ (bytes : Consensus.ByteArr 64) (signature : SchnorrSignature),
    schnorrFromSlice bytes.val = some signature → serializeSchnorr signature = bytes

/-- The parts of the crate that deal in secret keys. -/
class Secrets where
  SecretKey : Type
  /-- `SecretKey::from_slice`. -/
  secretKeyFromSlice : Wire.Bytes → Option SecretKey
  secretBytes : SecretKey → Consensus.ByteArr 32
  Scalar : Type
  /-- `From<SecretKey> for Scalar`. -/
  scalarFromSecretKey : SecretKey → Scalar
  /-- `PublicKey::from_secret_key`. -/
  fromSecretKey : SecretKey → PublicKey
  addTweak : SecretKey → Scalar → Option SecretKey
  addExpTweak : PublicKey → Scalar → Option PublicKey

/-- Parsing and serializing secret keys are inverse to each other. -/
class SecretsInverse [Secrets] : Prop where
  secretKeyFromSlice_secretBytes : ∀ key : Secrets.SecretKey,
    Secrets.secretKeyFromSlice (Secrets.secretBytes key).val = some key
  secretBytes_fromSlice : ∀ (bytes : Consensus.ByteArr 32) (key : Secrets.SecretKey),
    Secrets.secretKeyFromSlice bytes.val = some key → Secrets.secretBytes key = bytes

/-- Tweaks are added modulo the curve order, to a secret key and to its public key
alike. -/
class Tweaks [Secrets] : Prop where
  fromSecretKey_addTweak : ∀ key tweak,
    (Secrets.addTweak key tweak).map Secrets.fromSecretKey =
      Secrets.addExpTweak (Secrets.fromSecretKey key) tweak
  addTweak_comm : ∀ key other,
    Secrets.addTweak key (Secrets.scalarFromSecretKey other) =
      Secrets.addTweak other (Secrets.scalarFromSecretKey key)

/-- The parts of the crate that tweak x-only keys. A parity is odd when set. -/
class KeyTweaks where
  Scalar : Type
  /-- `Scalar::from_be_bytes`. -/
  scalarFromBeBytes : Consensus.ByteArr 32 → Option Scalar
  /-- `XOnlyPublicKey::add_tweak`. -/
  addTweak : XOnlyPublicKey → Scalar → Option (XOnlyPublicKey × Bool)
  tweakAddCheck : (key tweaked : XOnlyPublicKey) → (parity : Bool) → Scalar → Bool

/-- A check accepts what adding the tweak gives, and nothing else. -/
class KeyTweaksChecked [KeyTweaks] : Prop where
  tweakAddCheck_iff : ∀ (key tweaked : XOnlyPublicKey) (parity : Bool) (tweak : KeyTweaks.Scalar),
    KeyTweaks.tweakAddCheck key tweaked parity tweak = true ↔
      KeyTweaks.addTweak key tweak = some (tweaked, parity)

end

/-- The base point in compressed form. -/
def generatorCompressed : Consensus.ByteArr 33 :=
  ⟨[0x02, 0x79, 0xBE, 0x66, 0x7E, 0xF9, 0xDC, 0xBB, 0xAC, 0x55, 0xA0, 0x62, 0x95, 0xCE, 0x87, 0x0B,
    0x07, 0x02, 0x9B, 0xFC, 0xDB, 0x2D, 0xCE, 0x28, 0xD9, 0x59, 0xF2, 0x81, 0x5B, 0x16, 0xF8, 0x17,
    0x98], rfl⟩

def generatorUncompressed : Consensus.ByteArr 65 :=
  ⟨[0x04, 0x79, 0xBE, 0x66, 0x7E, 0xF9, 0xDC, 0xBB, 0xAC, 0x55, 0xA0, 0x62, 0x95, 0xCE, 0x87, 0x0B,
    0x07, 0x02, 0x9B, 0xFC, 0xDB, 0x2D, 0xCE, 0x28, 0xD9, 0x59, 0xF2, 0x81, 0x5B, 0x16, 0xF8, 0x17,
    0x98, 0x48, 0x3A, 0xDA, 0x77, 0x26, 0xA3, 0xC4, 0x65, 0x5D, 0xA4, 0xFB, 0xFC, 0x0E, 0x11, 0x08,
    0xA8, 0xFD, 0x17, 0xB4, 0x48, 0xA6, 0x85, 0x54, 0x19, 0x9C, 0x47, 0xD0, 0x8F, 0xFB, 0x10, 0xD4,
    0xB8], rfl⟩

/-- The first coordinate of the base point. -/
def generatorXOnly : Consensus.ByteArr 32 :=
  ⟨generatorCompressed.val.tail, rfl⟩

/-- The crate restricted to one key, the base point, and to no signatures. -/
@[reducible] def generatorOnly : Secp256k1 where
  PublicKey := Unit
  publicKeyOrder := inferInstance
  publicKeyFromSlice bytes :=
    if bytes = generatorCompressed.val ∨ bytes = generatorUncompressed.val then some () else none
  serialize _ := generatorCompressed
  serializeUncompressed _ := generatorUncompressed
  XOnlyPublicKey := Unit
  xOnlyPublicKeyOrder := inferInstance
  xOnlyPublicKeyFromSlice bytes := if bytes = generatorXOnly.val then some () else none
  serializeXOnly _ := generatorXOnly
  EcdsaSignature := Empty
  ecdsaFromDer _ := none
  serializeDer := Empty.elim
  SchnorrSignature := Empty
  schnorrFromSlice _ := none
  serializeSchnorr := Empty.elim

theorem generatorOnly_lawful : @Lawful generatorOnly :=
  letI := generatorOnly
  { serialize_fromSlice := by
      intro bytes key parsed
      have same : bytes.val = generatorCompressed.val ∨ bytes.val = generatorUncompressed.val := by
        by_contra other
        exact absurd (parsed.symm.trans (if_neg other)) (Option.some_ne_none key)
      obtain same | same := same
      · exact (Subtype.ext same).symm
      · have lengths := congrArg List.length same
        rw [bytes.property, generatorUncompressed.property] at lengths
        contradiction
    fromSlice_serialize := fun _ => if_pos (.inl rfl) }

theorem generatorOnly_inverse : @Inverse generatorOnly :=
  letI := generatorOnly
  { generatorOnly_lawful with
    fromSlice_serializeUncompressed := fun _ => if_pos (.inr rfl)
    serializeUncompressed_head := fun _ => rfl
    xOnlyFromSlice_serialize := fun _ => if_pos rfl
    fromDer_serializeDer := fun signature => signature.elim
    schnorrFromSlice_serialize := fun signature => signature.elim }

theorem generatorOnly_xOnlyInverse : @XOnlyInverse generatorOnly :=
  letI := generatorOnly
  { xOnlyFromSlice_serialize := fun _ => if_pos rfl
    serializeXOnly_fromSlice := by
      intro bytes key parsed
      by_contra other
      have missed : bytes.val ≠ generatorXOnly.val := fun same => other (Subtype.ext same.symm)
      exact absurd (parsed.symm.trans (if_neg missed)) (Option.some_ne_none key) }

/-- The DER form of the signature of two ones. -/
def derOnes : { bytes : Wire.Bytes // bytes.length ≤ 72 } :=
  ⟨[0x30, 0x06, 0x02, 0x01, 0x01, 0x02, 0x01, 0x01], by decide⟩

/-- The crate restricted to one ECDSA signature. A Schnorr signature is any 64 bytes. -/
@[reducible] def signaturesOnly : Secp256k1 :=
  { generatorOnly with
    EcdsaSignature := Unit
    ecdsaFromDer := fun bytes => if bytes = derOnes.val then some () else none
    serializeDer := fun _ => derOnes
    SchnorrSignature := Consensus.ByteArr 64
    schnorrFromSlice := fun bytes => if size : bytes.length = 64 then some ⟨bytes, size⟩ else none
    serializeSchnorr := id }

theorem signaturesOnly_inverse : @SignaturesInverse signaturesOnly :=
  letI := signaturesOnly
  { fromDer_serializeDer := fun _ => if_pos rfl
    schnorrFromSlice_serialize := fun signature => dif_pos signature.property
    serializeSchnorr_fromSlice := fun bytes _ parsed =>
      (Option.some.inj ((dif_pos bytes.property).symm.trans parsed)).symm }

/-- The secret key one, whose public key is the base point. -/
def secretOne : Consensus.ByteArr 32 :=
  ⟨List.replicate 31 0 ++ [1], rfl⟩

/-- The secret keys that belong to `generatorOnly`; no tweak keeps within them. -/
@[reducible] def generatorSecrets : @Secrets generatorOnly :=
  letI := generatorOnly
  { SecretKey := Unit
    secretKeyFromSlice := fun bytes => if bytes = secretOne.val then some () else none
    secretBytes := fun _ => secretOne
    Scalar := Unit
    scalarFromSecretKey := id
    fromSecretKey := id
    addTweak := fun _ _ => none
    addExpTweak := fun _ _ => none }

theorem generatorSecrets_inverse : @SecretsInverse generatorOnly generatorSecrets :=
  letI := generatorOnly
  letI := generatorSecrets
  { secretKeyFromSlice_secretBytes := fun _ => if_pos rfl
    secretBytes_fromSlice := by
      intro bytes key parsed
      by_contra other
      have missed : bytes.val ≠ secretOne.val := fun same => other (Subtype.ext same.symm)
      exact absurd (parsed.symm.trans (if_neg missed)) (Option.some_ne_none key) }

/-- The order of the group. -/
def order : Nat := 0xFFFFFFFFFFFFFFFFFFFFFFFFFFFFFFFEBAAEDCE6AF48A03BBFD25E8CD0364141

/-- A key by its discrete logarithm: a secret key, and equally its public key. -/
abbrev Exponent : Type := { k : Nat // 0 < k ∧ k < order }

def Exponent.ofNat (k : Nat) : Option Exponent :=
  if proper : 0 < k ∧ k < order then some ⟨k, proper⟩ else none

/-- Public keys as exponents that serialize in a given form; nothing is parsed. -/
@[reducible] def exponents (serialize : Exponent → Consensus.ByteArr 33) : Secp256k1 :=
  { generatorOnly with
    PublicKey := Exponent
    publicKeyOrder := inferInstance
    publicKeyFromSlice := fun _ => none
    serialize
    serializeUncompressed := fun _ => generatorUncompressed }

/-- Tweaks are added to exponents modulo the order; zero is no key. -/
@[reducible] def exponentSecrets (serialize : Exponent → Consensus.ByteArr 33) :
    @Secrets (exponents serialize) :=
  letI := exponents serialize
  { SecretKey := Exponent
    secretKeyFromSlice := fun bytes =>
      if bytes.length = 32 then Exponent.ofNat (Wire.fromLittleEndian bytes.reverse) else none
    secretBytes := fun key => ⟨(Wire.littleEndian 32 key.val).reverse, by
      rw [List.length_reverse, Wire.littleEndian_length]⟩
    Scalar := { k : Nat // k < order }
    scalarFromSecretKey := fun key => ⟨key.val, key.property.2⟩
    fromSecretKey := id
    addTweak := fun key tweak => Exponent.ofNat ((key.val + tweak.val) % order)
    addExpTweak := fun key tweak => Exponent.ofNat ((key.val + tweak.val) % order) }

theorem exponents_tweaks (serialize : Exponent → Consensus.ByteArr 33) :
    @Tweaks (exponents serialize) (exponentSecrets serialize) :=
  letI := exponents serialize
  letI := exponentSecrets serialize
  { fromSecretKey_addTweak := fun _ _ => Option.map_id'
    addTweak_comm := fun key other =>
      congrArg (fun sum => Exponent.ofNat (sum % order)) (Nat.add_comm key.val other.val) }

end Secp256k1
end Litecoin
